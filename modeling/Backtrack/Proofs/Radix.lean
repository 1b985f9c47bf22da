/-
What the rule for integers makes of any text at all. The text may begin with a minus. Behind it the
mark of a base asks for digits of that base, as many as come one after another, and fails if there are
none; without a mark decimal digits are read, which may be missing or too many. So the result and the
place where it ends are told by the longest run of digits, and what an integer was written as reads as
the integer: in decimal within the limit on digits, behind a mark without any limit.
-/
import Backtrack.Proofs.Integer
import Backtrack.Proofs.Parse
import Mathlib.Data.Nat.Digits.Defs
namespace Backtrack

/-! ## Runs of digits -/

namespace Numeral

variable {base c d n : Nat} {t : Text}

/-- Whether a character is a digit of the base, a letter being one in either case. -/
def isDigitOf (base c : Nat) : Bool := (digitValue? c).any (· < base)

/-- The longest run of digits of the base that the text begins with. -/
def digitRun (base : Nat) (t : Text) : Text := t.takeWhile (isDigitOf base)

/-- The number that digits stand for, the last of which counts by one and every other one by the base
times what the next counts by. -/
def valueOf (base : Nat) (t : Text) : Nat :=
  Nat.ofDigits base (t.reverse.map fun c => (digitValue? c).getD 0)

theorem isDigitOf_iff : isDigitOf base c = true ↔ ∃ d, digitValue? c = some d ∧ d < base := by
  simp [isDigitOf, Option.any_eq_true]

/-- The digits of a base as ranges of characters. -/
theorem isDigitOf_iff_range : isDigitOf base c = true ↔
    (0x30 ≤ c ∧ c ≤ 0x39 ∧ c < 0x30 + base) ∨ (0x61 ≤ c ∧ c ≤ 0x66 ∧ c < 0x57 + base) ∨
      (0x41 ≤ c ∧ c ≤ 0x46 ∧ c < 0x37 + base) := by
  simp only [isDigitOf_iff, digitValue?, Text.isDigit, Bool.and_eq_true, decide_eq_true_eq]
  split_ifs <;> simp <;> omega

theorem isDigitOf_ten : isDigitOf 10 c = Text.isDigit c := by
  rw [Bool.eq_iff_iff, isDigitOf_iff_range, Text.isDigit, Bool.and_eq_true, decide_eq_true_eq,
    decide_eq_true_eq]
  omega

/-- The run is made of digits, and what comes behind it, if anything, is none. -/
theorem exists_append_of_digitRun {D : Text} (h : digitRun base t = D) :
    ∃ rest, t = D ++ rest ∧ (∀ c ∈ D, isDigitOf base c = true) ∧
      ∀ c ∈ rest.head?, isDigitOf base c = false := by
  subst h
  refine ⟨t.dropWhile (isDigitOf base), List.takeWhile_append_dropWhile.symm,
    fun c hc => List.mem_takeWhile_imp hc, fun c hc => ?_⟩
  have hnot := List.head?_dropWhile_not (isDigitOf base) t
  rw [Option.mem_def.1 hc] at hnot
  simpa using hnot

theorem length_digitRun_le (base : Nat) (t : Text) : (digitRun base t).length ≤ t.length :=
  (List.takeWhile_prefix _).length_le

/-- As many digits as the run has come first. -/
theorem isDigitOf_of_mem_take (h : n ≤ (digitRun base t).length) :
    ∀ d ∈ t.take n, isDigitOf base d = true := by
  obtain ⟨rest, happend, hdigits, -⟩ := exists_append_of_digitRun (Eq.refl (digitRun base t))
  intro d hd
  rw [happend, List.take_append_of_le_length h] at hd
  exact hdigits d (List.mem_of_mem_take hd)

/-- Digits are read as the number that they stand for. -/
theorem readFrom_of_digits (h : ∀ c ∈ t, isDigitOf base c = true) :
    readFrom base 0 t = some (valueOf base t) := by
  induction t using List.reverseRecOn with
  | nil => rfl
  | append_singleton t c ih =>
    obtain ⟨d, hd, hlt⟩ := isDigitOf_iff.1 (h c (by simp))
    rw [readFrom_append, ih fun c hc => h c (List.mem_append_left _ hc)]
    simp only [Option.bind_some, readFrom, hd, hlt, if_true, valueOf, List.reverse_append,
      List.reverse_singleton, List.singleton_append, List.map_cons, Nat.ofDigits_cons, Option.getD_some]
    simp [mul_comm, add_comm]

theorem read?_of_digits (hne : t ≠ []) (h : ∀ c ∈ t, isDigitOf base c = true) :
    read? base t = some (valueOf base t) := by
  cases t with
  | nil => exact absurd rfl hne
  | cons c rest =>
    rw [read?, readBlocks_eq_readFrom]
    exact readFrom_of_digits h

theorem isDigitOf_digitOf (hbase : base ≤ 16) (h : d < base) : isDigitOf base (digitOf d) = true :=
  isDigitOf_iff.2 ⟨d, digitValue?_digitOf (by omega), h⟩

/-- A number is written with digits of the base. -/
theorem isDigitOf_of_mem_write (hbase : 2 ≤ base) (hsmall : base ≤ 16) (n : Nat) :
    ∀ c ∈ write base n, isDigitOf base c = true := by
  refine write_induction (P := fun _ t => ∀ c ∈ t, isDigitOf base c = true) hbase (fun n hn => ?_)
    (fun n _ ih => ?_) n
  · simpa using isDigitOf_digitOf hsmall hn
  · intro c hc
    rcases List.mem_append.1 hc with hc | hc
    · exact ih c hc
    · rw [List.mem_singleton.1 hc]
      exact isDigitOf_digitOf hsmall (Nat.mod_lt n (by omega))

end Numeral

/-! ## Marks -/

/-- A base other than ten: its mark, its digits, and what an integer of the base is called. -/
structure Radix where
  mark : String
  members : String
  base : Nat
  what : String

namespace Radix

def binary : Radix := ⟨"0b", "01", 2, "binary integer"⟩
def octal : Radix := ⟨"0o", "01234567", 8, "octal integer"⟩
def hexadecimal : Radix := ⟨"0x", "0123456789abcdefABCDEF", 16, "hexadecimal integer"⟩

/-- The bases that have a mark. -/
def all : List Radix := [binary, octal, hexadecimal]

/-- The rule for the mark and the digits behind it. -/
def rule (radix : Radix) : Rule :=
  Lexeme.markedDigits radix.mark (ItemSet.characters radix.members) radix.base radix.what

variable {radix : Radix}

/-- An integer written in the base: a minus if it is negative, the mark, the digits. -/
def write (radix : Radix) (z : Int) : Text :=
  if z < 0 then 0x2d :: (Text.ofString radix.mark ++ Numeral.write radix.base z.natAbs)
  else Text.ofString radix.mark ++ Numeral.write radix.base z.natAbs

theorem hexadecimal_mem : hexadecimal ∈ all := by simp [all]

theorem base_bounds (h : radix ∈ all) : 2 ≤ radix.base ∧ radix.base ≤ 16 := by
  simp only [all, List.mem_cons, List.not_mem_nil, or_false] at h
  rcases h with rfl | rfl | rfl <;> decide

theorem length_mark (h : radix ∈ all) : (Text.ofString radix.mark).length = 2 := by
  simp only [all, List.mem_cons, List.not_mem_nil, or_false] at h
  rcases h with rfl | rfl | rfl <;> rfl

/-- The members are the digits of the base. -/
theorem mem_members (h : radix ∈ all) {c : Nat} :
    c ∈ Text.ofString radix.members ↔ Numeral.isDigitOf radix.base c = true := by
  rw [Numeral.isDigitOf_iff_range]
  simp only [all, List.mem_cons, List.not_mem_nil, or_false] at h
  rcases h with rfl | rfl | rfl
  · rw [show Text.ofString binary.members = [48, 49] from rfl]
    simp only [List.mem_cons, List.not_mem_nil, or_false, show binary.base = 2 from rfl]
    omega
  · rw [show Text.ofString octal.members = [48, 49, 50, 51, 52, 53, 54, 55] from rfl]
    simp only [List.mem_cons, List.not_mem_nil, or_false, show octal.base = 8 from rfl]
    omega
  · rw [show Text.ofString hexadecimal.members = [48, 49, 50, 51, 52, 53, 54, 55, 56, 57, 97, 98, 99, 100,
      101, 102, 65, 66, 67, 68, 69, 70] from rfl]
    simp only [List.mem_cons, List.not_mem_nil, or_false, show hexadecimal.base = 16 from rfl]
    omega

end Radix

namespace Scan

open Lexeme

variable {data : Sequence} {g : Grammar} {arg : Value} {i n : Nat} {s t : Text} {radix : Radix}

/-! ## Digits behind a mark -/

theorem reads_mark (g : Grammar) (arg : Value) (h : data.Spells i (s ++ t)) :
    Reads data g arg (.discard (.literal (.str s))) i (.success []) (i + s.length) := by
  have hmark : Reads data g arg (.discard (.literal (.str s))) i _ _ := (reads_literal h).discard
  have hprefix : s.isPrefixOf (s ++ t) = true := List.isPrefixOf_iff_prefix.2 (List.prefix_append s t)
  rwa [if_pos hprefix, if_pos hprefix] at hmark

/-- No further digit of the base. -/
theorem reads_member_of_ends (g : Grammar) (arg : Value) (hradix : radix ∈ Radix.all)
    (h : data.Spells i t) (ht : ∀ c ∈ t.head?, Numeral.isDigitOf radix.base c = false) :
    Reads data g arg (oneOf (ItemSet.characters radix.members)) i .noMatch i := by
  refine reads_oneOf_of_not_mem h fun c hc hmem => ?_
  rw [Radix.mem_members hradix, ht c hc] at hmem
  cases hmem

/-- Behind the mark come as many digits as there are. -/
theorem reads_radix (hradix : radix ∈ Radix.all)
    (h : data.Spells i (Text.ofString radix.mark ++ (s ++ t)))
    (hs : ∀ c ∈ s, Numeral.isDigitOf radix.base c = true)
    (hread : Numeral.read? radix.base s = some n)
    (ht : ∀ c ∈ t.head?, Numeral.isDigitOf radix.base c = false) :
    Reads data g arg radix.rule i (.single (.int n)) (i + 2 + s.length) := by
  have hdigits := h.append
  rw [Radix.length_mark hradix] at hdigits
  have hlength : (1 : Int) ≤ (s.map fun c => Value.str [c]).length := by
    have hne : s ≠ [] := by
      rintro rfl
      cases hread
    have := List.length_pos_of_ne_nil hne
    rw [List.length_map]
    omega
  have hmany : ReadsMany data g arg (oneOf (ItemSet.characters radix.members)) (i + 2)
      (s.map fun c => .str [c]) (i + 2 + s.length) :=
    readsMany_oneOf hdigits fun c hc => (Radix.mem_members hradix).2 (hs c hc)
  have hrun := hmany.repetition (reads_member_of_ends g arg hradix hdigits.append ht) hlength
  have hmark := reads_mark g arg h
  rw [Radix.length_mark hradix] at hmark
  refine (ReadsAll.cons hmark (.cons hrun.name.expected .nil)).and.map ?_
  rw [Conversion.apply, Mapper.anonymous]
  dsimp only [List.nil_append]
  rw [(Value.joins_characters rfl rfl).joinParts,
    show (Except.ok s >>= readInteger radix.base : Except Failure Value) = readInteger radix.base s from
      rfl, readInteger, hread]
  rfl

/-- Behind the mark digits are mandatory. -/
theorem fails_radix (hradix : radix ∈ Radix.all) (h : data.Spells i (Text.ofString radix.mark ++ t))
    (ht : ∀ c ∈ t.head?, Numeral.isDigitOf radix.base c = false) :
    Fails data g arg radix.rule i
      (.namedIncomplete (.int (i + 2 : Nat)) (.str radix.what) (.str "digit")) (i + 2) := by
  have hdigits := h.append
  have hmark := reads_mark g arg h
  rw [Radix.length_mark hradix] at hdigits hmark
  have hnone : Reads data g arg
      (.repetition (oneOf (ItemSet.characters radix.members)) 1 none) (i + 2) _ _ :=
    (ReadsMany.nil (i + 2)).repetition_of_few (reads_member_of_ends g arg hradix hdigits ht) (by simp)
  exact (FailsAll.cons hmark (.head hnone.name.expected_of_mismatch)).and.map

/-! ## Integers without their sign -/

/-- A text has one mark in front at most. -/
theorem isPrefixOf_mark_of_ne {radix' : Radix} (h : radix ∈ Radix.all) (h' : radix' ∈ Radix.all)
    (hne : radix'.mark ≠ radix.mark) (t : Text) :
    (Text.ofString radix'.mark).isPrefixOf (Text.ofString radix.mark ++ t) = false := by
  simp only [Radix.all, List.mem_cons, List.not_mem_nil, or_false] at h h'
  rcases h with rfl | rfl | rfl <;> rcases h' with rfl | rfl | rfl <;>
    first | exact absurd rfl hne | rfl

/-- The alternatives in front of the one for the mark that is there mismatch. -/
theorem exists_alternatives_of_mark (g : Grammar) (arg : Value) (hradix : radix ∈ Radix.all)
    (h : data.Spells i (Text.ofString radix.mark ++ t)) :
    ∃ before after, unsignedInteger = .or (before ++ radix.rule :: after) ∧
      ∀ r ∈ before, ∃ m, Reads data g arg r i (.mismatch m) i := by
  have hother : ∀ radix' ∈ Radix.all, radix'.mark ≠ radix.mark →
      ∃ m, Reads data g arg radix'.rule i (.mismatch m) i := fun radix' h' hne =>
    ⟨.plain, reads_markedDigits_of_unmarked h (isPrefixOf_mark_of_ne hradix h' hne t)⟩
  simp only [Radix.all, List.mem_cons, List.not_mem_nil, or_false] at hradix
  rcases hradix with rfl | rfl | rfl
  · exact ⟨[], _, rfl, by simp⟩
  · refine ⟨[Radix.binary.rule], _, rfl, ?_⟩
    simpa using hother Radix.binary (.head _) (by decide)
  · refine ⟨[Radix.binary.rule, Radix.octal.rule], _, rfl, ?_⟩
    simpa using ⟨hother Radix.binary (.head _) (by decide),
      hother Radix.octal (.tail _ (.head _)) (by decide)⟩

theorem reads_unsignedInteger_of_mark {vs : List Value} {j : Nat} (hradix : radix ∈ Radix.all)
    (h : data.Spells i (Text.ofString radix.mark ++ t))
    (hread : Reads data g arg radix.rule i (.success vs) j) :
    Reads data g arg unsignedInteger i (.success vs) j := by
  obtain ⟨before, after, halternatives, hbefore⟩ := exists_alternatives_of_mark g arg hradix h
  rw [halternatives]
  exact (ReadsFirst.append hbefore (.head hread)).or

theorem fails_unsignedInteger_of_mark {e : Failure} {j : Nat} (hradix : radix ∈ Radix.all)
    (h : data.Spells i (Text.ofString radix.mark ++ t))
    (hfail : Fails data g arg radix.rule i e j) (he : e.isHard = true) :
    Fails data g arg unsignedInteger i e j := by
  obtain ⟨before, after, halternatives, hbefore⟩ := exists_alternatives_of_mark g arg hradix h
  rw [halternatives]
  exact (FailsFirst.append hbefore (.head hfail he)).or

/-- Too many decimal digits fail hard. -/
theorem fails_decimalInteger (h : data.Spells i (s ++ t)) (hs : ∀ c ∈ s, Text.isDigit c = true)
    (hlong : maxDecimalDigits < s.length) (ht : EndsNumeral t) :
    Fails data g arg decimalInteger i (.other (.failure (tooManyDigits s.length))) (i + s.length) := by
  have hne : s ≠ [] := by
    rintro rfl
    cases hlong
  refine (reads_digits h hs hne ht).map_of_error ?_
  rw [Conversion.apply, Mapper.anonymous]
  dsimp only
  rw [(Value.joins_characters rfl rfl).joinParts,
    show (Except.ok s >>= readDecimal : Except Failure Value) = readDecimal s from rfl, readDecimal,
    if_pos hlong]
  rfl

theorem fails_unsignedInteger {e : Failure} {j : Nat} (h : data.Spells i t) (hmark : Unmarked t)
    (hdecimal : Fails data g arg decimalInteger i e j) (he : e.isHard = true) :
    Fails data g arg unsignedInteger i e j :=
  FailsFirst.or <|
    .tail (reads_markedDigits_of_unmarked h (hmark _ (by simp))) <|
    .tail (reads_markedDigits_of_unmarked h (hmark _ (by simp))) <|
    .tail (reads_markedDigits_of_unmarked h (hmark _ (by simp))) (.head hdecimal he)

end Scan

/-! ## Any text -/

namespace Text

/-- Whether the text begins with a minus. -/
def hasMinus (t : Text) : Bool := t.head? == some 0x2d

/-- The text behind the minus, if there is one in front. -/
def withoutMinus (t : Text) : Text := if t.hasMinus then t.tail else t

/-- The number, negated if the text begins with a minus. -/
def signed (t : Text) (n : Nat) : Int := if t.hasMinus then -n else n

theorem length_withoutMinus (t : Text) : t.hasMinus.toNat + t.withoutMinus.length = t.length := by
  cases h : t.hasMinus with
  | false =>
    rw [withoutMinus, h]
    exact Nat.zero_add _
  | true =>
    cases t with
    | nil => cases h
    | cons c t =>
      rw [withoutMinus, h]
      exact Nat.add_comm 1 t.length

end Text

/-- A written integer begins with a minus if it is negative, and goes on with the mark. -/
theorem Radix.minus_write {radix : Radix} (h : radix ∈ Radix.all) (z : Int) :
    (radix.write z).hasMinus = decide (z < 0) ∧
      (radix.write z).withoutMinus = Text.ofString radix.mark ++ Numeral.write radix.base z.natAbs := by
  rw [write]
  split
  · rename_i hneg
    exact ⟨(decide_eq_true hneg).symm, rfl⟩
  · rename_i hneg
    -- a mark begins with a zero
    rw [decide_eq_false hneg]
    simp only [Radix.all, List.mem_cons, List.not_mem_nil, or_false] at h
    rcases h with rfl | rfl | rfl <;> exact ⟨rfl, rfl⟩

namespace Scan

open Lexeme

variable {data : Sequence} {g : Grammar} {arg : Value} {i n : Nat} {t : Text} {radix : Radix}

/-- A minus is read if there is one. -/
theorem reads_minus (g : Grammar) (arg : Value) (h : data.Spells i t) : ∃ sign,
    Reads data g arg minus i (.single sign) (i + t.hasMinus.toNat) ∧
      sign.eqv (.str [0x2d]) = t.hasMinus ∧ data.Spells (i + t.hasMinus.toNat) t.withoutMinus := by
  cases hminus : t.hasMinus with
  | true =>
    cases t with
    | nil => cases hminus
    | cons c t =>
      obtain rfl : c = 0x2d := by simpa [Text.hasMinus] using hminus
      exact ⟨_, (reads_character h).optional, by rw [Value.eqv_character]; rfl, h.tail⟩
  | false =>
    have hne : t.head? ≠ some 0x2d := by simpa [Text.hasMinus] using hminus
    rw [Text.withoutMinus, hminus]
    exact ⟨_, reads_minus_of_ne h hne, rfl, h⟩

/-- What is read behind the minus, with its sign. -/
theorem reads_integer_of_unsigned {j : Nat} (h : data.Spells i t)
    (hread : Reads data g arg unsignedInteger (i + t.hasMinus.toNat) (.single (.int n)) j) :
    Reads data g arg Lexeme.integer i (.single (.int (t.signed n))) j := by
  obtain ⟨sign, hsign, hminus, -⟩ := reads_minus g arg h
  rw [Text.signed, ← hminus]
  exact hsign.integer hread

/-- The mark and what comes behind it. -/
theorem spells_of_mark (hradix : radix ∈ Radix.all) (h : data.Spells i t)
    (hmark : (Text.ofString radix.mark).isPrefixOf t = true) :
    data.Spells i (Text.ofString radix.mark ++ t.drop 2) := by
  obtain ⟨rest, rfl⟩ := List.isPrefixOf_iff_prefix.1 hmark
  rwa [List.drop_left' (Radix.length_mark hradix)]

/-- Behind a mark and a run of digits the integer is there, whatever follows. -/
theorem reads_integer_of_mark {D : Text} (hradix : radix ∈ Radix.all) (h : data.Spells i t)
    (hmark : (Text.ofString radix.mark).isPrefixOf t.withoutMinus = true)
    (hD : Numeral.digitRun radix.base (t.withoutMinus.drop 2) = D) (hne : D ≠ []) :
    Reads data g arg Lexeme.integer i (.single (.int (t.signed (Numeral.valueOf radix.base D))))
      (i + t.hasMinus.toNat + 2 + D.length) := by
  obtain ⟨-, -, -, hrest⟩ := reads_minus g arg h
  obtain ⟨rest, happend, hdigits, hends⟩ := Numeral.exists_append_of_digitRun hD
  have hmarked := spells_of_mark hradix hrest hmark
  rw [happend] at hmarked
  exact reads_integer_of_unsigned h (reads_unsignedInteger_of_mark hradix hmarked
    (reads_radix hradix hmarked hdigits (Numeral.read?_of_digits hne hdigits) hends))

/-- Behind a mark without digits the integer fails. -/
theorem fails_integer_of_mark (hradix : radix ∈ Radix.all) (h : data.Spells i t)
    (hmark : (Text.ofString radix.mark).isPrefixOf t.withoutMinus = true)
    (hD : Numeral.digitRun radix.base (t.withoutMinus.drop 2) = []) :
    Fails data g arg Lexeme.integer i (.namedIncomplete (.int (i + t.hasMinus.toNat + 2 : Nat))
      (.str radix.what) (.str "digit")) (i + t.hasMinus.toNat + 2) := by
  obtain ⟨sign, hsign, -, hrest⟩ := reads_minus g arg h
  obtain ⟨rest, happend, -, hends⟩ := Numeral.exists_append_of_digitRun hD
  have hmarked := spells_of_mark hradix hrest hmark
  rw [happend] at hmarked
  exact hsign.integer_of_failure (fails_unsignedInteger_of_mark hradix hmarked
    (fails_radix hradix hmarked hends) rfl) rfl

/-- A run of decimal digits, and what comes behind it. -/
theorem exists_append_of_decimalRun {D : Text} (hD : Numeral.digitRun 10 t = D) :
    ∃ rest, t = D ++ rest ∧ (∀ c ∈ D, Text.isDigit c = true) ∧ EndsNumeral rest := by
  obtain ⟨rest, happend, hdigits, hends⟩ := Numeral.exists_append_of_digitRun hD
  exact ⟨rest, happend, fun c hc => Numeral.isDigitOf_ten ▸ hdigits c hc,
    fun c hc => Numeral.isDigitOf_ten ▸ hends c hc⟩

/-- Without a mark the run of decimal digits is the integer, unless it is too long. -/
theorem reads_integer_of_digits {D : Text} (h : data.Spells i t) (hmark : Unmarked t.withoutMinus)
    (hD : Numeral.digitRun 10 t.withoutMinus = D) (hne : D ≠ []) (hshort : D.length ≤ maxDecimalDigits) :
    Reads data g arg Lexeme.integer i (.single (.int (t.signed (Numeral.valueOf 10 D))))
      (i + t.hasMinus.toNat + D.length) := by
  obtain ⟨-, -, -, hrest⟩ := reads_minus g arg h
  obtain ⟨rest, happend, hdigits, hends⟩ := exists_append_of_decimalRun hD
  rw [happend] at hrest hmark
  have hread : Numeral.read? 10 D = some (Numeral.valueOf 10 D) :=
    Numeral.read?_of_digits hne fun c hc => Numeral.isDigitOf_ten ▸ hdigits c hc
  exact reads_integer_of_unsigned h
    (reads_unsignedInteger_of_numeral hrest hdigits hread hshort hends hmark)

theorem fails_integer_of_digits {D : Text} (h : data.Spells i t) (hmark : Unmarked t.withoutMinus)
    (hD : Numeral.digitRun 10 t.withoutMinus = D) (hlong : maxDecimalDigits < D.length) :
    Fails data g arg Lexeme.integer i (.other (.failure (tooManyDigits D.length)))
      (i + t.hasMinus.toNat + D.length) := by
  obtain ⟨sign, hsign, -, hrest⟩ := reads_minus g arg h
  obtain ⟨rest, happend, hdigits, hends⟩ := exists_append_of_decimalRun hD
  rw [happend] at hrest hmark
  exact hsign.integer_of_failure (fails_unsignedInteger hrest hmark
    (fails_decimalInteger hrest hdigits hlong hends) rfl) rfl

/-- Without a mark and without a decimal digit there is no integer, and a minus is left alone. -/
theorem reads_integer_of_none (h : data.Spells i t) (hD : Numeral.digitRun 10 t.withoutMinus = []) :
    Reads data g arg Lexeme.integer i .noMatch i := by
  obtain ⟨sign, hsign, -, hrest⟩ := reads_minus g arg h
  obtain ⟨rest, happend, -, hends⟩ := exists_append_of_decimalRun hD
  rw [happend] at hrest
  exact hsign.integer_of_mismatch (reads_unsignedInteger_of_ends hrest hends)

/-! ## Written integers -/

/-- Behind its mark a number of any size is read. -/
theorem reads_unsignedInteger_write_radix (hradix : radix ∈ Radix.all)
    (h : data.Spells i (Text.ofString radix.mark ++ Numeral.write radix.base n)) :
    Reads data g arg unsignedInteger i (.single (.int n))
      (i + 2 + (Numeral.write radix.base n).length) := by
  obtain ⟨hbase, hsmall⟩ := Radix.base_bounds hradix
  have hwhole : data.Spells i (Text.ofString radix.mark ++ (Numeral.write radix.base n ++ [])) := by
    rwa [List.append_nil]
  exact reads_unsignedInteger_of_mark hradix h (reads_radix hradix hwhole
    (Numeral.isDigitOf_of_mem_write hbase hsmall n) (Numeral.read?_write hbase hsmall n) (by simp))

/-- What an integer was written as behind a mark reads as the integer. -/
theorem reads_integer_write {z : Int} (hradix : radix ∈ Radix.all) (h : data.Spells i (radix.write z)) :
    Reads data g arg Lexeme.integer i (.single (.int z)) (i + (radix.write z).length) := by
  obtain ⟨hminus, hrest⟩ := Radix.minus_write hradix z
  obtain ⟨-, -, -, hdigits⟩ := reads_minus g arg h
  rw [hrest] at hdigits
  have hread : Reads data g arg Lexeme.integer i (.single (.int _)) _ :=
    reads_integer_of_unsigned h (reads_unsignedInteger_write_radix hradix hdigits)
  have hsigned : (radix.write z).signed z.natAbs = z := by
    rw [Text.signed, hminus]
    split_ifs with hneg
    · have := of_decide_eq_true hneg
      omega
    · have := mt decide_eq_true hneg
      omega
  have hlength : (radix.write z).length =
      (radix.write z).hasMinus.toNat + 2 + (Numeral.write radix.base z.natAbs).length := by
    rw [← Text.length_withoutMinus, hrest, List.length_append, Radix.length_mark hradix, Nat.add_assoc]
  rw [hsigned] at hread
  rwa [hlength, ← Nat.add_assoc, ← Nat.add_assoc]

end Scan

/-! ## Integers of any text -/

/-- Whatever presents the text as its characters, a parse by the rule gives the value and takes the whole
text. -/
def Grammar.ParsesTo (g : Grammar) (path : Path) (rule : Rule) (arg : Value) (t : Text) (v : Value) :
    Prop :=
  ∀ source : Source, source.Fresh (t.map fun c => .str [c]) path → ∃ least, ∀ fuel ≥ least, ∃ u,
    (Evaluation.parseOperand g path fuel (.rule rule) .root arg).runFrom (.ofSource source) = (.ok v, u) ∧
      u.source.position = t.length

theorem Scan.parsesTo {g : Grammar} {rule : Rule} {arg v : Value} {t : Text} (harity : rule.arity = 1)
    (h : ∀ data : Sequence, data.Spells 0 t → Reads data g arg rule 0 (.single v) t.length)
    (path : Path) : g.ParsesTo path rule arg t v := fun _ hsource =>
  Reads.parse hsource harity fun data hdata => h data (by rw [Sequence.Spells, List.drop_zero, hdata])

namespace Grammar

open Numeral (digitRun valueOf)
open Lexeme (maxDecimalDigits tooManyDigits)
open Scan

/-- The rule for integers is exact on every text that is left of an input in memory, at whatever cursor.
Let the minus, if one comes first, be put aside. If the mark of a base is next, `D` is the longest run
of digits of the base behind it: without any digit the rule fails behind the mark, else it gives what
the digits stand for and consumes them all, however many there are. If no mark is next, `D` is the
longest run of decimal digits: without any there is a mismatch that consumes nothing, not even the
minus; too many fail; else it gives what they stand for and consumes them all. So an integer is read as
it was written, in decimal if it has not too many digits, and behind a mark whatever its size. -/
theorem integer_exact (g : Grammar) (path : Path) (arg : Value) {data : Sequence} {s : Evaluation.State}
    {c : Cursor} {p : Nat} {t : Text} (hs : s.source.IsOver data) (hopen : s.source.isClosed c = false)
    (hp : s.source.positionOf c = p) (hle : p ≤ data.size) (ht : data.Spells p t) :
    (∀ radix ∈ Radix.all, (Text.ofString radix.mark).isPrefixOf t.withoutMinus = true →
      ∀ D, digitRun radix.base (t.withoutMinus.drop 2) = D →
        (D = [] → g.Shows path Lexeme.integer c arg s
          (.error (.namedIncomplete (.int (p + t.hasMinus.toNat + 2 : Nat)) (.str radix.what)
            (.str "digit")))
          (p + t.hasMinus.toNat + 2 : Nat) none) ∧
        (D ≠ [] → g.Shows path Lexeme.integer c arg s
          (.ok (.single (.int (t.signed (valueOf radix.base D)))))
          (p + t.hasMinus.toNat + 2 + D.length : Nat) none)) ∧
    (Unmarked t.withoutMinus → ∀ D, digitRun 10 t.withoutMinus = D →
      (D = [] → g.Shows path Lexeme.integer c arg s (.ok .noMatch) p none) ∧
      (maxDecimalDigits < D.length → g.Shows path Lexeme.integer c arg s
        (.error (.other (.failure (tooManyDigits D.length))))
        (p + t.hasMinus.toNat + D.length : Nat) none) ∧
      (D ≠ [] → D.length ≤ maxDecimalDigits → g.Shows path Lexeme.integer c arg s
        (.ok (.single (.int (t.signed (valueOf 10 D)))))
        (p + t.hasMinus.toNat + D.length : Nat) none)) ∧
    (∀ z : Int, z.natAbs < 10 ^ maxDecimalDigits →
      g.ParsesTo path Lexeme.integer arg (Numeral.ofInt z) (.int z)) ∧
    ∀ radix ∈ Radix.all, ∀ z : Int, g.ParsesTo path Lexeme.integer arg (radix.write z) (.int z) := by
  have shows : ∀ {r : Except Failure Outcome} {q : Nat},
      Ends (fun fuel => Scan.eval (.fixed data) g fuel Lexeme.integer arg) p r q →
        g.Shows path Lexeme.integer c arg s (r.mapError path.surface) q none :=
    fun h => h.shows hs hopen hp hle path
  refine ⟨fun radix hradix hmark D hD => ⟨?_, fun hne => ?_⟩, fun hmark D hD => ⟨?_, fun hlong => ?_,
    fun hne hshort => ?_⟩, fun z hz => ?_, fun radix hradix z => ?_⟩
  · rintro rfl
    exact Fails.shows (fails_integer_of_mark hradix ht hmark hD) rfl hs hopen hp hle path
  · exact shows (reads_integer_of_mark hradix ht hmark hD hne)
  · rintro rfl
    exact shows (reads_integer_of_none ht hD)
  · exact Fails.shows (fails_integer_of_digits ht hmark hD hlong) rfl hs hopen hp hle path
  · exact shows (reads_integer_of_digits ht hmark hD hne hshort)
  · refine Scan.parsesTo rfl (fun data hdata => ?_) path
    rw [← List.append_nil (Numeral.ofInt z)] at hdata
    have hread : Reads data g arg Lexeme.integer 0 _ _ :=
      reads_integer_ofInt hdata hz (by simp [EndsNumeral]) fun _ => .zero (by simp)
    rwa [Nat.zero_add] at hread
  · refine Scan.parsesTo rfl (fun data hdata => ?_) path
    have hread : Reads data g arg Lexeme.integer 0 _ _ := reads_integer_write hradix hdata
    rwa [Nat.zero_add] at hread

/-- The text `z-0x1Fg`, of which the first character is consumed: a negative integer of five characters
comes next. -/
theorem integer_exact_hexadecimal :
    let t : Text := [0x2d, 0x30, 0x78, 0x31, 0x46, 0x67]
    let data : Sequence := .items .str ((0x7a :: t).map fun c => .str [c]).toArray
    let s : Evaluation.State := ⟨⟨.memory data 1, 1, #[], []⟩, .empty⟩
    (s.source.IsOver data ∧ s.source.isClosed .root = false ∧ s.source.positionOf .root = (1 : Nat) ∧
      1 ≤ data.size ∧ data.Spells 1 t) ∧
    Grammar.empty.Shows .blocking Lexeme.integer .root .none s (.ok (.single (.int (-31)))) 6 none := by
  intro t data s
  have hs : s.source.IsOver data := rfl
  have hopen : s.source.isClosed .root = false := rfl
  have hp : s.source.positionOf .root = (1 : Nat) := rfl
  have hle : 1 ≤ data.size := by decide
  have ht : data.Spells 1 t := rfl
  obtain ⟨hmarked, -⟩ := integer_exact .empty .blocking .none hs hopen hp hle ht
  have hshows := (hmarked Radix.hexadecimal (.tail _ (.tail _ (.head _))) rfl _ rfl).2 (by decide)
  exact ⟨⟨hs, hopen, hp, hle, ht⟩, hshows⟩

end Grammar

end Backtrack
