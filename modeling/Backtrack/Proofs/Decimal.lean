/-
What the rule for floats makes of any text at all. Decimals with a fraction or an exponent are a
language, told by itself; the rule finds the longest beginning of the text that belongs to it, and
nothing if there is none. Whatever comes first in a decimal is told apart from what comes behind it by
its first character, so that taking as much as possible at each place takes as much as possible in all.
-/
import Backtrack.Proofs.Radix
namespace Backtrack

/-! ## Longest beginnings -/

/-- The text `u` is the longest beginning of `t` that belongs to the language. -/
def Text.Longest (L : Text → Prop) (u t : Text) : Prop :=
  u <+: t ∧ L u ∧ ∀ v : Text, v <+: t → L v → v.length ≤ u.length

/-! ## Decimals -/

namespace Decimal

/-- One or more decimal digits. -/
def Digits (t : Text) : Prop := t ≠ [] ∧ ∀ c ∈ t, Text.isDigit c = true

/-- A plus or a minus. -/
def Sign (t : Text) : Prop := t = [0x2b] ∨ t = [0x2d]

/-- A text of the language, or none. -/
def Maybe (L : Text → Prop) (t : Text) : Prop := t = [] ∨ L t

/-- An exponent: `e` or `E`, an optional sign, digits. -/
inductive Exponent : Text → Prop where
  | intro {mark : Nat} {s ds : Text} (hmark : mark = 0x65 ∨ mark = 0x45) (hsign : Maybe Sign s)
    (hdigits : Digits ds) : Exponent (mark :: (s ++ ds))

/-- A decimal without a minus: digits around a dot, or a dot and digits, either with an optional
exponent, or digits and an exponent. -/
inductive Unsigned : Text → Prop where
  | full {a b x : Text} (ha : Digits a) (hb : Digits b) (hx : Maybe Exponent x) :
    Unsigned (a ++ 0x2e :: (b ++ x))
  | fraction {b x : Text} (hb : Digits b) (hx : Maybe Exponent x) : Unsigned (0x2e :: (b ++ x))
  | whole {a x : Text} (ha : Digits a) (hx : Exponent x) : Unsigned (a ++ x)

/-- A decimal with an optional minus. -/
def Signed (t : Text) : Prop := Unsigned t.withoutMinus

/-- A dot and digits, with an optional exponent. -/
inductive Fraction : Text → Prop where
  | intro {b x : Text} (hb : Digits b) (hx : Maybe Exponent x) : Fraction (0x2e :: (b ++ x))

open Scan (EndsNumeral)

variable {a b p s t u v w x z D rest : Text} {m : Nat}

/-! ## Where digits end -/

theorem Exponent.endsNumeral (h : Exponent x) (z : Text) : EndsNumeral (x ++ z) := by
  obtain ⟨hmark, -, -⟩ := h
  intro c hc
  cases hc
  rcases hmark with rfl | rfl <;> rfl

theorem Fraction.endsNumeral (h : Fraction w) (z : Text) : EndsNumeral (w ++ z) := by
  cases h
  intro c hc
  cases hc
  rfl

theorem spanDigits_append (hD : ∀ c ∈ D, Text.isDigit c = true) (hp : EndsNumeral p) :
    Binary64.spanDigits (D ++ p) = (D, p) := by
  rw [Binary64.spanDigits, List.takeWhile_append_of_pos hD, List.dropWhile_append_of_pos hD]
  cases p with
  | nil => simp
  | cons c p => simp [hp c rfl]

/-- Digits that end where other digits do are the same. -/
theorem append_inj_of_digits (ha : ∀ c ∈ a, Text.isDigit c = true) (hD : ∀ c ∈ D, Text.isDigit c = true)
    (hp : EndsNumeral p) (hrest : EndsNumeral rest) (h : a ++ p = D ++ rest) : a = D ∧ p = rest := by
  have hspan := spanDigits_append ha hp
  rw [h, spanDigits_append hD hrest] at hspan
  obtain ⟨hdigits, hends⟩ := Prod.mk.inj hspan
  exact ⟨hdigits.symm, hends.symm⟩

/-- Every text begins with as many digits as there are. -/
theorem exists_digits (t : Text) :
    ∃ D rest, t = D ++ rest ∧ (∀ c ∈ D, Text.isDigit c = true) ∧ EndsNumeral rest :=
  ⟨_, Scan.exists_append_of_decimalRun rfl⟩

/-- Digits at the beginning are no more than there are. -/
theorem length_le_of_digits (ha : ∀ c ∈ a, Text.isDigit c = true) (hrest : EndsNumeral rest)
    (h : a <+: D ++ rest) : a.length ≤ D.length := by
  by_contra hlong
  -- a further digit would be what comes behind them
  obtain ⟨k, rfl⟩ := List.prefix_of_prefix_length_le (List.prefix_append D rest) h (not_le.1 hlong).le
  rcases k with _ | ⟨c, k⟩
  · simp at hlong
  · obtain ⟨z, rfl⟩ := (List.prefix_append_right_inj D).1 h
    have hdigit := hrest c rfl
    rw [ha c (by simp)] at hdigit
    cases hdigit

/-! ## Longest exponents -/

theorem head?_of_beginning {c : Nat} (h : c :: v <+: t) : t.head? = some c := by
  obtain ⟨z, rfl⟩ := h
  rfl

theorem Sign.exists_eq (h : Sign s) : ∃ c, s = [c] ∧ Text.isDigit c = false := by
  rcases h with rfl | rfl <;> exact ⟨_, rfl, rfl⟩

/-- Whatever goes on with a digit has the longest sign. -/
theorem sign_eq (hs : Text.Longest (Maybe Sign) s t) (hu : Maybe Sign u) (hD : Digits D)
    (h : u ++ D <+: t) : u = s := by
  obtain ⟨hbegins, hsign, hlongest⟩ := hs
  have hle := hlongest u ((List.prefix_append u D).trans h) hu
  rcases hsign with rfl | hsign
  · exact List.length_eq_zero_iff.1 (Nat.le_zero.1 hle)
  · obtain ⟨c, rfl, hc⟩ := hsign.exists_eq
    have hhead := head?_of_beginning hbegins
    rcases hu with rfl | hu
    · -- the sign would be a digit
      obtain ⟨d, ds, rfl⟩ := List.exists_cons_of_ne_nil hD.1
      rw [head?_of_beginning h] at hhead
      cases hhead
      rw [hD.2 c List.mem_cons_self] at hc
      cases hc
    · obtain ⟨d, rfl, -⟩ := hu.exists_eq
      rw [head?_of_beginning h] at hhead
      cases hhead
      rfl

/-- An exponent is no longer than a mark with the longest sign and as many digits as there are. -/
theorem Exponent.length_le (hs : Text.Longest (Maybe Sign) s (s ++ (D ++ rest)))
    (hrest : EndsNumeral rest) (hv : Exponent v) (h : v <+: m :: (s ++ (D ++ rest))) :
    D ≠ [] ∧ v.length ≤ (m :: (s ++ D)).length := by
  obtain ⟨hmark, hu, hds⟩ := hv
  obtain ⟨-, htail⟩ := List.cons_prefix_cons.1 h
  obtain rfl := sign_eq hs hu hds htail
  have hle := length_le_of_digits hds.2 hrest ((List.prefix_append_right_inj _).1 htail)
  have hpos := List.length_pos_of_ne_nil hds.1
  refine ⟨List.ne_nil_of_length_pos (by omega), ?_⟩
  simp only [List.length_cons, List.length_append]
  omega

/-! ## Longest fractions -/

/-- A fraction is no longer than a dot with as many digits as there are and the longest exponent. -/
theorem Fraction.length_le (hD : ∀ c ∈ D, Text.isDigit c = true) (hrest : EndsNumeral rest)
    (hx : Text.Longest (Maybe Exponent) x rest) (hv : Fraction v) (h : v <+: m :: (D ++ rest)) :
    D ≠ [] ∧ v.length ≤ (m :: (D ++ x)).length := by
  obtain ⟨hb, hy⟩ := hv
  obtain ⟨-, htail⟩ := List.cons_prefix_cons.1 h
  rename_i b y
  have hle := length_le_of_digits hb.2 hrest ((List.prefix_append b y).trans htail)
  have hpos := List.length_pos_of_ne_nil hb.1
  refine ⟨List.ne_nil_of_length_pos (by omega), ?_⟩
  simp only [List.length_cons, List.length_append]
  rcases hy with rfl | hy
  · simp only [List.length_nil]
    omega
  · -- the exponent ends the digits, so it stands behind all of them
    obtain ⟨z, hz⟩ := htail
    rw [List.append_assoc] at hz
    obtain ⟨rfl, hyz⟩ := append_inj_of_digits hb.2 hD (hy.endsNumeral z) hrest hz
    have hlongest := hx.2.2 y ⟨z, hyz⟩ (.inr hy)
    omega

/-! ## Longest decimals -/

/-- A decimal begins with as many digits as there are, and goes on with a fraction or an exponent, the
latter only behind a digit. -/
theorem Unsigned.exists_append (hD : ∀ c ∈ D, Text.isDigit c = true) (hrest : EndsNumeral rest)
    (hv : Unsigned v) (h : v <+: D ++ rest) :
    ∃ w, v = D ++ w ∧ w <+: rest ∧ (Fraction w ∨ D ≠ [] ∧ Exponent w) := by
  have hsplit : ∃ a w, v = a ++ w ∧ (∀ c ∈ a, Text.isDigit c = true) ∧
      (Fraction w ∨ a ≠ [] ∧ Exponent w) := by
    cases hv with
    | full ha hb hx => exact ⟨_, _, rfl, ha.2, .inl (.intro hb hx)⟩
    | fraction hb hx => exact ⟨[], _, rfl, by simp, .inl (.intro hb hx)⟩
    | whole ha hx => exact ⟨_, _, rfl, ha.2, .inr ⟨ha.1, hx⟩⟩
  obtain ⟨a, w, rfl, ha, hw⟩ := hsplit
  obtain ⟨z, hz⟩ := h
  rw [List.append_assoc] at hz
  have hends : EndsNumeral (w ++ z) := by
    rcases hw with hw | ⟨-, hw⟩
    · exact hw.endsNumeral z
    · exact hw.endsNumeral z
  obtain ⟨rfl, hwz⟩ := append_inj_of_digits ha hD hends hrest hz
  exact ⟨w, rfl, ⟨z, hwz⟩, hw⟩

theorem Fraction.unsigned (hD : ∀ c ∈ D, Text.isDigit c = true) (hw : Fraction w) : Unsigned (D ++ w) := by
  obtain ⟨hb, hx⟩ := hw
  by_cases hne : D = []
  · rw [hne]
    exact .fraction hb hx
  · exact .full ⟨hne, hD⟩ hb hx

/-- A fraction and an exponent do not begin alike. -/
theorem Fraction.not_exponent (hw : Fraction w) (hx : Exponent x) (h : w <+: t) : ¬x <+: t := by
  obtain ⟨-, -⟩ := hw
  obtain ⟨hmark, -, -⟩ := hx
  intro h'
  have hhead := head?_of_beginning h
  rw [head?_of_beginning h'] at hhead
  cases hhead
  omega

/-- Behind all digits the longest fraction makes the longest decimal. -/
theorem longest_of_fraction (hD : ∀ c ∈ D, Text.isDigit c = true) (hrest : EndsNumeral rest)
    (hw : Text.Longest Fraction w rest) : Text.Longest Unsigned (D ++ w) (D ++ rest) := by
  obtain ⟨hbegins, hfraction, hlongest⟩ := hw
  refine ⟨(List.prefix_append_right_inj D).2 hbegins, hfraction.unsigned hD, fun v hv hdecimal => ?_⟩
  obtain ⟨u, rfl, hu, hcases⟩ := hdecimal.exists_append hD hrest hv
  rcases hcases with hu' | ⟨-, hu'⟩
  · have := hlongest u hu hu'
    simp only [List.length_append]
    omega
  · exact absurd hu (hfraction.not_exponent hu' hbegins)

/-- Without a fraction the longest exponent behind all digits, of which there is one at least, makes the
longest decimal. -/
theorem longest_of_exponent (hD : Digits D) (hrest : EndsNumeral rest)
    (hnone : ∀ w, w <+: rest → ¬Fraction w) (hx : Text.Longest Exponent x rest) :
    Text.Longest Unsigned (D ++ x) (D ++ rest) := by
  obtain ⟨hbegins, hexponent, hlongest⟩ := hx
  refine ⟨(List.prefix_append_right_inj D).2 hbegins, .whole hD hexponent, fun v hv hdecimal => ?_⟩
  obtain ⟨u, rfl, hu, hcases⟩ := hdecimal.exists_append hD.2 hrest hv
  rcases hcases with hu' | ⟨-, hu'⟩
  · exact absurd hu' (hnone u hu)
  · have := hlongest u hu hu'
    simp only [List.length_append]
    omega

theorem not_unsigned (hD : ∀ c ∈ D, Text.isDigit c = true) (hrest : EndsNumeral rest)
    (hnone : ∀ w, w <+: rest → ¬Fraction w) (hx : D = [] ∨ ∀ x, x <+: rest → ¬Exponent x) :
    ∀ v, v <+: D ++ rest → ¬Unsigned v := by
  intro v hv hdecimal
  obtain ⟨u, rfl, hu, hcases⟩ := hdecimal.exists_append hD hrest hv
  rcases hcases with hu' | ⟨hne, hu'⟩
  · exact hnone u hu hu'
  · rcases hx with hempty | hx
    · exact hne hempty
    · exact hx u hu hu'

/-! ## Decimals with a minus -/

theorem Unsigned.head?_ne (h : Unsigned u) : u.head? ≠ some 0x2d ∧ u ≠ [] := by
  have hdigits : ∀ {a p : Text}, Digits a → (a ++ p).head? ≠ some 0x2d ∧ a ++ p ≠ [] := by
    intro a p ha
    obtain ⟨c, a, rfl⟩ := List.exists_cons_of_ne_nil ha.1
    refine ⟨fun hminus => ?_, by simp⟩
    cases hminus
    cases ha.2 0x2d List.mem_cons_self
  cases h with
  | full ha _ _ => exact hdigits ha
  | fraction _ _ => exact ⟨by simp, by simp⟩
  | whole ha _ => exact hdigits ha

/-- What a text begins with has the minus of the text, if there is one. -/
theorem Signed.of_beginning (hv : Signed v) (h : v <+: t) :
    v.hasMinus = t.hasMinus ∧ v.withoutMinus <+: t.withoutMinus := by
  rcases v with _ | ⟨c, v⟩
  · exact absurd rfl (Unsigned.head?_ne hv).2
  · obtain ⟨z, rfl⟩ := h
    by_cases hc : c = 0x2d
    · subst hc
      exact ⟨rfl, List.prefix_append v z⟩
    · simp [Text.withoutMinus, Text.hasMinus, hc]

theorem longest_signed (hu : Text.Longest Unsigned u t.withoutMinus) :
    ∃ w : Text, Text.Longest Signed w t ∧ w.hasMinus = t.hasMinus ∧ w.withoutMinus = u := by
  obtain ⟨hbegins, hunsigned, hlongest⟩ := hu
  obtain ⟨w, hw, hminus, hrest⟩ :
      ∃ w : Text, w <+: t ∧ w.hasMinus = t.hasMinus ∧ w.withoutMinus = u := by
    cases hminus : t.hasMinus with
    | true =>
      rcases t with _ | ⟨c, t⟩
      · cases hminus
      · obtain rfl : c = 0x2d := by simpa [Text.hasMinus] using hminus
        exact ⟨0x2d :: u, List.cons_prefix_cons.2 ⟨rfl, hbegins⟩, rfl, rfl⟩
    | false =>
      have hnone : u.hasMinus = false := by simpa [Text.hasMinus] using hunsigned.head?_ne.1
      rw [Text.withoutMinus, hminus] at hbegins
      exact ⟨u, hbegins, hnone, by rw [Text.withoutMinus, hnone]; rfl⟩
  refine ⟨w, ⟨hw, by rwa [Signed, hrest], fun v hv hsigned => ?_⟩, hminus, hrest⟩
  obtain ⟨hsame, hv'⟩ := Signed.of_beginning hsigned hv
  have hle := hlongest _ hv' hsigned
  rw [← Text.length_withoutMinus v, ← Text.length_withoutMinus w, hsame, hminus, hrest]
  omega

/-! ## Floats -/

theorem exists_exponent? (hs : Maybe Sign s) (hD : Digits D) :
    ∃ z, Binary64.exponent? (s ++ D) = some z := by
  have hread : Numeral.read? 10 D = some (Numeral.valueOf 10 D) :=
    Numeral.read?_of_digits hD.1 fun c hc => by rw [Numeral.isDigitOf_ten, hD.2 c hc]
  rcases hs with rfl | rfl | rfl
  · obtain ⟨d, ds, rfl⟩ := List.exists_cons_of_ne_nil hD.1
    have hne : d ≠ 0x2d ∧ d ≠ 0x2b := by
      constructor <;> rintro rfl <;> cases hD.2 _ List.mem_cons_self
    rw [List.nil_append, Binary64.exponent?, if_neg (by simpa using hne.1),
      if_neg (by simpa using hne.2), hread]
    exact ⟨_, rfl⟩
  · rw [List.singleton_append, Binary64.exponent?, if_neg (by decide), if_pos (by decide), hread]
    exact ⟨_, rfl⟩
  · rw [List.singleton_append, Binary64.exponent?, if_pos (by decide), hread]
    exact ⟨_, rfl⟩

theorem exists_ofText?_of_fraction (hD : ∀ c ∈ D, Text.isDigit c = true) (hw : Fraction w) :
    ∃ y, Binary64.ofText? (D ++ w) = some y := by
  have hspan := spanDigits_append hD (by simpa using hw.endsNumeral [])
  obtain @⟨b, x, hb, hx⟩ := hw
  have hsome : (D.isEmpty && b.isEmpty) = false := by simp [hb.1]
  rcases hx with rfl | hx
  · have hfraction := spanDigits_append (p := []) hb.2 (by simp [EndsNumeral])
    simp only [Binary64.ofText?, hspan, beq_self_eq_true, if_true, hfraction, hsome]
    exact ⟨_, rfl⟩
  · have hfraction := spanDigits_append hb.2 (by simpa using hx.endsNumeral [])
    obtain @⟨m, s, ds, hmark, hs, hds⟩ := hx
    obtain ⟨z, hz⟩ := exists_exponent? hs hds
    have hmark' : (m == 0x65 || m == 0x45) = true := by simpa using hmark
    simp only [Binary64.ofText?, hspan, beq_self_eq_true, if_true, hfraction, hsome, hmark', hz]
    exact ⟨_, rfl⟩

theorem exists_ofText?_of_exponent (hD : Digits D) (hx : Exponent x) :
    ∃ y, Binary64.ofText? (D ++ x) = some y := by
  have hspan := spanDigits_append hD.2 (by simpa using hx.endsNumeral [])
  have hsome : D.isEmpty = false := by simp [hD.1]
  obtain @⟨m, s, ds, hmark, hs, hds⟩ := hx
  obtain ⟨z, hz⟩ := exists_exponent? hs hds
  have hdot : (m == 0x2e) = false := by rcases hmark with rfl | rfl <;> rfl
  have hmark' : (m == 0x65 || m == 0x45) = true := by simpa using hmark
  simp only [Binary64.ofText?, hspan, hdot, hsome, Bool.false_and, Bool.false_eq_true, if_false, hmark',
    if_true, hz]
  exact ⟨_, rfl⟩

/-- Every decimal writes a float. -/
theorem Unsigned.exists_ofText? (h : Unsigned u) : ∃ y, Binary64.ofText? u = some y := by
  cases h with
  | full ha hb hx => exact exists_ofText?_of_fraction ha.2 (.intro hb hx)
  | fraction hb hx => exact exists_ofText?_of_fraction (D := []) (by simp) (.intro hb hx)
  | whole ha hx => exact exists_ofText?_of_exponent ha hx

end Decimal

namespace Scan

open Decimal Lexeme

variable {data : Sequence} {g : Grammar} {arg : Value} {i j : Nat} {t : Text} {L : Text → Prop} {r : Rule}

/-! ## Finding the longest -/

/-- The rule reads the longest beginning that belongs to the language, or finds that there is none. -/
def Finds (data : Sequence) (g : Grammar) (arg : Value) (r : Rule) (L : Text → Prop) (i : Nat)
    (t : Text) : Prop :=
  (∃ u, Text.Longest L u t ∧ Reads data g arg r i (.single (.str u)) (i + u.length)) ∨
    (∀ v, v <+: t → ¬L v) ∧ Reads data g arg r i .noMatch i

/-- An optional part is the longest, which may be none. -/
theorem Finds.optional (h : Finds data g arg r L i t) : ∃ u v, Text.Longest (Maybe L) u t ∧
    Reads data g arg (.optional r) i (.single v) (i + u.length) ∧ v.Joins u := by
  rcases h with ⟨u, ⟨hbegins, hu, hlongest⟩, hread⟩ | ⟨hnone, hread⟩
  · refine ⟨u, .str u, ⟨hbegins, .inr hu, ?_⟩, hread.optional, Value.joins_str u⟩
    rintro v hv (rfl | hv')
    · exact Nat.zero_le _
    · exact hlongest v hv hv'
  · refine ⟨[], .none, ⟨List.nil_prefix, .inl rfl, ?_⟩, hread.optional_of_mismatch, Value.joins_none⟩
    rintro v hv (rfl | hv')
    · exact Nat.zero_le _
    · exact absurd hv' (hnone v hv)

/-! ## Exponents -/

theorem finds_sign (g : Grammar) (arg : Value) (h : data.Spells i t) :
    Finds data g arg (oneOf ItemSet.signs) Sign i t := by
  by_cases hsign : ∃ c, t.head? = some c ∧ c ∈ [0x2b, 0x2d]
  · obtain ⟨c, hc, hmem⟩ := hsign
    obtain ⟨t, rfl⟩ : ∃ t', t = c :: t' := List.head?_eq_some_iff.1 hc
    refine .inl ⟨[c], ⟨⟨t, rfl⟩, by simpa [Sign] using hmem, ?_⟩, reads_oneOf h hmem⟩
    rintro v - (rfl | rfl) <;> exact le_refl 1
  · refine .inr ⟨?_, reads_oneOf_of_not_mem h fun c hc hmem => hsign ⟨c, hc, hmem⟩⟩
    rintro v hv (rfl | rfl)
    · exact hsign ⟨_, head?_of_beginning hv, by simp⟩
    · exact hsign ⟨_, head?_of_beginning hv, by simp⟩

/-- The parts of an exponent. -/
def exponentParts : List Rule :=
  [oneOf (ItemSet.characters "eE"), .optional (oneOf ItemSet.signs), digits]

/-- An exponent that is begun in vain is not consumed. -/
theorem reads_exponent_of_mismatch {m : Mismatch}
    (h : ReadsAll data g arg [] exponentParts i (.mismatch m) j) :
    Reads data g arg Lexeme.exponent i .noMatch i :=
  ReadsFirst.or (.tail h.and.map_of_mismatch .nil)

/-- Behind the mark of an exponent come the longest sign and as many digits as there are. -/
theorem finds_exponent (g : Grammar) (arg : Value) (h : data.Spells i t) :
    Finds data g arg Lexeme.exponent Exponent i t := by
  by_cases hmark : ∃ m, t.head? = some m ∧ m ∈ [0x65, 0x45]
  · obtain ⟨m, hm, hmem⟩ := hmark
    obtain ⟨t, rfl⟩ : ∃ t', t = m :: t' := List.head?_eq_some_iff.1 hm
    have hread : Reads data g arg (oneOf (ItemSet.characters "eE")) i _ _ := reads_oneOf h hmem
    obtain ⟨s, v, hs, hsign, hjoins⟩ := (finds_sign g arg h.tail).optional
    obtain ⟨rest, rfl⟩ := hs.1
    obtain ⟨D, rest, rfl, hD, hrest⟩ := exists_digits rest
    by_cases hne : D = []
    · refine .inr ⟨fun v hv hexponent => (hexponent.length_le hs hrest hv).1 hne, ?_⟩
      rw [hne] at h
      have hdigits : Reads data g arg digits (i + 1 + s.length) .noMatch _ :=
        reads_digits_of_ends h.tail.append hrest
      exact reads_exponent_of_mismatch (.cons hread (.cons hsign (.cons_of_mismatch hdigits)))
    · refine .inl ⟨m :: (s ++ D), ⟨⟨rest, by simp⟩, .intro (by simpa using hmem) hs.2.1 ⟨hne, hD⟩,
        fun v hv hexponent => (hexponent.length_le hs hrest hv).2⟩, ?_⟩
      have hjoin : Value.joinParts [.str [m], v, .str D] = .ok (m :: (s ++ D)) := by
        rw [Value.joins_str, hjoins, (Value.joins_str D).joinParts]
        rfl
      have hparts : ReadsAll data g arg [] exponentParts i (.success [.str [m], v, .str D])
          (i + 1 + s.length + D.length) :=
        .cons hread (.cons hsign (.cons (reads_digits h.tail.append hD hne hrest) .nil))
      have hlength : i + 1 + s.length + D.length = i + (m :: (s ++ D)).length := by
        simp only [List.length_cons, List.length_append]
        omega
      rw [← hlength]
      exact ReadsFirst.or (.head (hparts.and.joined hjoin))
  · have hnone : Reads data g arg (oneOf (ItemSet.characters "eE")) i .noMatch i :=
      reads_oneOf_of_not_mem h fun c hc hmem => hmark ⟨c, hc, hmem⟩
    refine .inr ⟨fun v hv hexponent => ?_, reads_exponent_of_mismatch (.cons_of_mismatch hnone)⟩
    obtain ⟨hm, -, -⟩ := hexponent
    exact hmark ⟨_, head?_of_beginning hv, by simpa using hm⟩

/-! ## Fractions -/

/-- A dot and digits, and the longest exponent behind them, are the longest fraction; or there is none. -/
theorem fraction_cases (g : Grammar) (arg : Value) (h : data.Spells i t) :
    (∃ b x v, Text.Longest Fraction (0x2e :: (b ++ x)) t ∧ v.Joins x ∧
      (∀ vs, ReadsAll data g arg vs [character 0x2e, digits] i
        (.success (vs ++ [.str [0x2e]] ++ [.str b])) (i + 1 + b.length)) ∧
      Reads data g arg (.optional Lexeme.exponent) (i + 1 + b.length) (.single v)
        (i + 1 + b.length + x.length)) ∨
    (∀ w, w <+: t → ¬Fraction w) ∧
      ∀ vs, ∃ j, ReadsAll data g arg vs [character 0x2e, digits] i .noMatch j := by
  by_cases hdot : t.head? = some 0x2e
  · obtain ⟨t, rfl⟩ : ∃ t', t = 0x2e :: t' := List.head?_eq_some_iff.1 hdot
    obtain ⟨b, rest, rfl, hb, hrest⟩ := exists_digits t
    obtain ⟨x, v, hx, hread, hjoins⟩ := (finds_exponent g arg h.tail.append).optional
    by_cases hne : b = []
    · refine .inr ⟨fun w hw hfraction => (hfraction.length_le hb hrest hx hw).1 hne, fun vs => ?_⟩
      rw [hne] at h
      exact ⟨_, .cons (reads_character h) (.cons_of_mismatch (reads_digits_of_ends h.tail hrest))⟩
    · refine .inl ⟨b, x, v, ⟨?_, .intro ⟨hne, hb⟩ hx.2.1,
        fun w hw hfraction => (hfraction.length_le hb hrest hx hw).2⟩, hjoins, fun vs => ?_, hread⟩
      · exact List.cons_prefix_cons.2 ⟨rfl, (List.prefix_append_right_inj b).2 hx.1⟩
      · exact .cons (reads_character h) (.cons (reads_digits h.tail hb hne hrest) .nil)
  · refine .inr ⟨fun w hw hfraction => ?_,
      fun vs => ⟨i, .cons_of_mismatch (reads_character_of_ne h hdot)⟩⟩
    obtain ⟨-, -⟩ := hfraction
    exact hdot (head?_of_beginning hw)

/-! ## Floats without a minus -/

/-- A float with a fraction, which reads what is in front of an optional exponent. -/
def fractional (parts : List Rule) : Rule := .and [joined (.and parts), .optional Lexeme.exponent]

/-- The kinds of floats. -/
def floatKinds : List Rule :=
  [fractional [digits, character 0x2e, digits], fractional [character 0x2e, digits],
    .and [digits, Lexeme.exponent]]

theorem reads_fractional {parts : List Rule} {vs : List Value} {v : Value} {k : Nat}
    (h : ReadsAll data g arg [] parts i (.success vs) j) (hjoin : Value.joinParts vs = .ok t)
    (hv : Reads data g arg (.optional Lexeme.exponent) j (.single v) k) :
    Reads data g arg (fractional parts) i (.success [.str t, v]) k :=
  (ReadsAll.cons (h.and.joined hjoin) (.cons hv .nil)).and

theorem reads_fractional_of_mismatch {parts : List Rule} {m : Mismatch}
    (h : ReadsAll data g arg [] parts i (.mismatch m) j) :
    Reads data g arg (fractional parts) i (.mismatch m) j :=
  (ReadsAll.cons_of_mismatch h.and.map_of_mismatch).and

/-- Whatever kind matches, its values are joined and read as a float. -/
theorem reads_unsignedFloat_of_kind {u : Text} {y : Binary64} {vs : List Value}
    (h : ReadsFirst data g arg floatKinds i (.success vs) j) (hjoin : Value.joinParts vs = .ok u)
    (hy : Binary64.ofText? u = some y) : Reads data g arg unsignedFloat i (.single (.float y)) j := by
  refine h.or.map ?_
  rw [Conversion.apply, Mapper.anonymous]
  dsimp only
  rw [hjoin, show (Except.ok u >>= readFloat : Except Failure Value) = readFloat u from rfl, readFloat,
    hy]
  rfl

/-- With a fraction behind the digits the float is digits, fraction and exponent. -/
theorem reads_unsignedFloat_of_fraction {b x D rest : Text} {v : Value} {y : Binary64}
    (h : data.Spells i (D ++ rest)) (hD : ∀ c ∈ D, Text.isDigit c = true) (hrest : EndsNumeral rest)
    (hparts : ∀ vs, ReadsAll data g arg vs [character 0x2e, digits] (i + D.length)
      (.success (vs ++ [.str [0x2e]] ++ [.str b])) j)
    (hv : Reads data g arg (.optional Lexeme.exponent) j (.single v) (j + x.length)) (hjoins : v.Joins x)
    (hy : Binary64.ofText? (D ++ 0x2e :: (b ++ x)) = some y) :
    Reads data g arg unsignedFloat i (.single (.float y)) (j + x.length) := by
  have hjoin : Value.joinParts [.str (D ++ 0x2e :: b), v] = .ok (D ++ 0x2e :: (b ++ x)) := by
    rw [Value.joins_str, hjoins.joinParts]
    simp
  by_cases hne : D = []
  · subst hne
    have hdigits : Reads data g arg digits i .noMatch i := reads_digits_of_ends h hrest
    have hfraction := reads_fractional (hparts []) (Value.joinParts_strs [[0x2e], b]) hv
    rw [List.flatten_cons, List.flatten_singleton] at hfraction
    exact reads_unsignedFloat_of_kind
      (.tail (reads_fractional_of_mismatch (.cons_of_mismatch hdigits)) (.head hfraction)) hjoin hy
  · have hall : ReadsAll data g arg [] [digits, character 0x2e, digits] i _ j :=
      .cons (reads_digits h hD hne hrest) (hparts _)
    have hfraction := reads_fractional hall (Value.joinParts_strs [D, [0x2e], b]) hv
    rw [List.flatten_cons, List.flatten_cons, List.flatten_singleton] at hfraction
    exact reads_unsignedFloat_of_kind (.head hfraction) hjoin hy

/-- Without a fraction behind the digits only the last kind is left. -/
theorem readsFirst_floatKinds {D rest : Text} {o : Outcome} {k : Nat} (h : data.Spells i (D ++ rest))
    (hD : ∀ c ∈ D, Text.isDigit c = true) (hrest : EndsNumeral rest)
    (hparts : ∀ vs, ∃ j, ReadsAll data g arg vs [character 0x2e, digits] (i + D.length) .noMatch j)
    (hwhole : ReadsFirst data g arg [.and [digits, Lexeme.exponent]] i o k) :
    ReadsFirst data g arg floatKinds i o k := by
  obtain ⟨j, hmismatch⟩ := hparts [.str D]
  obtain ⟨j', hmismatch'⟩ := hparts []
  by_cases hne : D = []
  · subst hne
    have hdigits : Reads data g arg digits i .noMatch i := reads_digits_of_ends h hrest
    exact .tail (reads_fractional_of_mismatch (.cons_of_mismatch hdigits))
      (.tail (reads_fractional_of_mismatch hmismatch') hwhole)
  · -- a digit comes first, so no dot does
    have hdot : (D ++ rest).head? ≠ some 0x2e := by
      obtain ⟨d, ds, rfl⟩ := List.exists_cons_of_ne_nil hne
      intro hhead
      cases hhead
      cases hD 0x2e List.mem_cons_self
    exact .tail (reads_fractional_of_mismatch (.cons (reads_digits h hD hne hrest) hmismatch))
      (.tail (reads_fractional_of_mismatch (.cons_of_mismatch (reads_character_of_ne h hdot))) hwhole)

/-- A float without a minus is the longest decimal without one. -/
theorem reads_unsignedFloat (g : Grammar) (arg : Value) (h : data.Spells i t) :
    (∃ u y, Text.Longest Unsigned u t ∧ Binary64.ofText? u = some y ∧
      Reads data g arg unsignedFloat i (.single (.float y)) (i + u.length)) ∨
    (∀ v, v <+: t → ¬Unsigned v) ∧ Reads data g arg unsignedFloat i .noMatch i := by
  obtain ⟨D, rest, rfl, hD, hrest⟩ := exists_digits t
  rcases fraction_cases g arg h.append with ⟨b, x, v, hlongest, hjoins, hparts, hv⟩ | ⟨hnone, hparts⟩
  · obtain ⟨y, hy⟩ := (hlongest.2.1.unsigned hD).exists_ofText?
    have hlength : i + D.length + 1 + b.length + x.length = i + (D ++ 0x2e :: (b ++ x)).length := by
      simp only [List.length_cons, List.length_append]
      omega
    have hread := reads_unsignedFloat_of_fraction h hD hrest hparts hv hjoins hy
    rw [hlength] at hread
    exact .inl ⟨_, y, longest_of_fraction hD hrest hlongest, hy, hread⟩
  by_cases hne : D = []
  · have hdigits : Reads data g arg digits i .noMatch i := reads_digits_of_ends h (by rwa [hne])
    have hwhole : Reads data g arg (.and [digits, Lexeme.exponent]) i .noMatch _ :=
      (ReadsAll.cons_of_mismatch hdigits).and
    exact .inr ⟨not_unsigned hD hrest hnone (.inl hne),
      (readsFirst_floatKinds h hD hrest hparts (.tail hwhole .nil)).or.map_of_mismatch⟩
  have hdigits : Reads data g arg digits i (.single (.str D)) _ := reads_digits h hD hne hrest
  rcases finds_exponent g arg h.append with ⟨x, hx, hread⟩ | ⟨hx, hread⟩
  · obtain ⟨y, hy⟩ := exists_ofText?_of_exponent ⟨hne, hD⟩ hx.2.1
    have hjoin : Value.joinParts [.str D, .str x] = .ok (D ++ x) := by
      rw [Value.joins_str, (Value.joins_str x).joinParts]
      rfl
    refine .inl ⟨D ++ x, y, longest_of_exponent ⟨hne, hD⟩ hrest hnone hx, hy, ?_⟩
    rw [List.length_append, ← Nat.add_assoc]
    exact reads_unsignedFloat_of_kind (readsFirst_floatKinds h hD hrest hparts
      (.head (ReadsAll.cons hdigits (.cons hread .nil)).and)) hjoin hy
  · have hwhole : Reads data g arg (.and [digits, Lexeme.exponent]) i .noMatch _ :=
      (ReadsAll.cons hdigits (.cons_of_mismatch hread)).and
    exact .inr ⟨not_unsigned hD hrest hnone (.inr hx),
      (readsFirst_floatKinds h hD hrest hparts (.tail hwhole .nil)).or.map_of_mismatch⟩

/-! ## Floats -/

/-- A float is the longest decimal, negated behind a minus. -/
theorem reads_float (g : Grammar) (arg : Value) (h : data.Spells i t) :
    (∃ u y, Text.Longest Signed u t ∧ Binary64.ofText? u.withoutMinus = some y ∧
      Reads data g arg Lexeme.float i (.single (.float (if u.hasMinus then y.neg else y)))
        (i + u.length)) ∨
    (∀ v, v <+: t → ¬Signed v) ∧ Reads data g arg Lexeme.float i .noMatch i := by
  obtain ⟨sign, hsign, hminus, hrest⟩ := reads_minus g arg h
  rcases reads_unsignedFloat g arg hrest with ⟨u, y, hu, hy, hread⟩ | ⟨hnone, hread⟩
  · obtain ⟨w, hw, hsame, rfl⟩ := longest_signed hu
    refine .inl ⟨w, y, hw, hy, ?_⟩
    have hsigned : Lexeme.signed [sign, .float y] = .ok (.float (if t.hasMinus then y.neg else y)) := by
      rw [Lexeme.signed, hminus]
    rw [← Text.length_withoutMinus w, hsame, ← Nat.add_assoc]
    exact ReadsFirst.or (.head ((ReadsAll.cons hsign (.cons hread .nil)).and.mapped hsigned))
  · refine .inr ⟨fun v hv hsigned => hnone _ (Signed.of_beginning hsigned hv).2 hsigned, ?_⟩
    exact ReadsFirst.or (.tail (ReadsAll.cons hsign (.cons_of_mismatch hread)).and.map_of_mismatch .nil)

end Scan

namespace Grammar

open Scan

/-- The rule for floats is exact on every text that is left of an input in memory, at whatever cursor. If
the text begins with a decimal, the longest one is consumed, and what is behind its minus is read and
negated if there is a minus. Otherwise there is a mismatch that consumes nothing, not even the minus. -/
theorem float_exact (g : Grammar) (path : Path) (arg : Value) {data : Sequence} {s : Evaluation.State}
    {c : Cursor} {p : Nat} {t : Text} (hs : s.source.IsOver data) (hopen : s.source.isClosed c = false)
    (hp : s.source.positionOf c = p) (hle : p ≤ data.size) (ht : data.Spells p t) :
    ((∃ v, v <+: t ∧ Decimal.Signed v) → ∃ u y, Text.Longest Decimal.Signed u t ∧
      Binary64.ofText? u.withoutMinus = some y ∧
      g.Shows path Lexeme.float c arg s
        (.ok (.single (.float (if u.hasMinus then y.neg else y)))) (p + u.length : Nat) none) ∧
    ((¬∃ v, v <+: t ∧ Decimal.Signed v) → g.Shows path Lexeme.float c arg s (.ok .noMatch) p none) := by
  rcases reads_float g arg ht with ⟨u, y, hu, hy, hread⟩ | ⟨hnone, hread⟩
  · refine ⟨fun _ => ⟨u, y, hu, hy, Ends.shows hread hs hopen hp hle path⟩, fun hno => ?_⟩
    exact absurd ⟨u, hu.1, hu.2.1⟩ hno
  · refine ⟨fun ⟨v, hv, hsigned⟩ => absurd hsigned (hnone v hv), fun _ => ?_⟩
    exact Ends.shows hread hs hopen hp hle path

/-- Of the text `z-1.5e+x` the first character is consumed. The number of four characters comes next, and
the exponent that is begun behind it is left alone. -/
theorem float_exact_dangling :
    let t : Text := [0x2d, 0x31, 0x2e, 0x35, 0x65, 0x2b, 0x78]
    let data : Sequence := .items .str ((0x7a :: t).map fun c => .str [c]).toArray
    let s : Evaluation.State := ⟨⟨.memory data 1, 1, #[], []⟩, .empty⟩
    (s.source.IsOver data ∧ s.source.isClosed .root = false ∧ s.source.positionOf .root = (1 : Nat) ∧
      1 ≤ data.size ∧ data.Spells 1 t) ∧
    Grammar.empty.Shows .blocking Lexeme.float .root .none s
      (.ok (.single (.float ⟨0xbff8000000000000⟩))) 5 none := by
  intro t data s
  have hs : s.source.IsOver data := rfl
  have hopen : s.source.isClosed .root = false := rfl
  have hp : s.source.positionOf .root = (1 : Nat) := rfl
  have hle : 1 ≤ data.size := by decide
  have ht : data.Spells 1 t := rfl
  have hsigned : Decimal.Signed [0x2d, 0x31, 0x2e, 0x35] :=
    .full (a := [0x31]) (b := [0x35]) ⟨by simp, by decide⟩ ⟨by simp, by decide⟩ (.inl rfl)
  obtain ⟨hfound, -⟩ := float_exact .empty .blocking .none hs hopen hp hle ht
  obtain ⟨u, y, ⟨hu, -, hlongest⟩, hy, hshows⟩ := hfound ⟨_, ⟨_, rfl⟩, hsigned⟩
  have hlower : 4 ≤ u.length := hlongest _ ⟨_, rfl⟩ hsigned
  have hupper : u.length ≤ 7 := hu.length_le
  have htake := List.prefix_iff_eq_take.1 hu
  -- no longer beginning can be read as a float
  have hnone : ∀ n, 4 < n → n ≤ 7 → Binary64.ofText? (Text.withoutMinus (t.take n)) = none := by
    intro n hlt hle
    interval_cases n <;> cbv
  have hlength : u.length = 4 := by
    by_contra hne
    have hunread := hnone u.length (by omega) hupper
    rw [← htake, hy] at hunread
    cases hunread
  rw [hlength] at htake
  subst htake
  have hvalue : Binary64.ofText? (Text.withoutMinus (t.take 4)) = some ⟨0x3ff8000000000000⟩ := by
    decide +kernel
  rw [hvalue] at hy
  cases hy
  exact ⟨⟨hs, hopen, hp, hle, ht⟩, hshows⟩

end Grammar

end Backtrack
