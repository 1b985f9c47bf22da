/-
Integers read from texts. The ready rule for integers reads the decimal numeral of any integer within
the limit on digits, if what follows belongs to no numeral, and finds nothing where neither a minus
nor a digit comes next.
-/
import Backtrack.Lexeme.Number
import Backtrack.Proofs.Numeral
import Backtrack.Proofs.Spelling
namespace Backtrack

/-! ## Joined characters -/

namespace Value

theorem joinItems_texts (ts : List Text) : ∀ index : Nat,
    joinItems index (ts.map str) = .ok ts.flatten := by
  induction ts with
  | nil => exact fun _ => rfl
  | cons t ts ih =>
    intro index
    rw [List.map_cons, joinItems, ih]
    rfl

/-- A value that counts as the text where parts are joined. -/
def Joins (v : Value) (t : Text) : Prop := ∀ vs, joinParts (v :: vs) = (t ++ ·) <$> joinParts vs

theorem joins_none : none.Joins [] := fun vs => by
  cases h : joinParts vs <;> simp [joinParts, h]

/-- Texts, in whatever they are kept, count as one. -/
theorem joins_texts {part : Value} {ts : List Text} (hitems : part.items? = some (ts.map str))
    (hhold : part.holdFailure? = Option.none) : part.Joins ts.flatten := by
  intro vs
  have hpart : joinPart part = .ok ts.flatten := by
    rw [joinPart, hhold, hitems]
    exact joinItems_texts ts 0
  cases part with
  | none => cases hitems
  | _ =>
    simp only [joinParts, hpart]
    rfl

/-- The characters of a text count as the text. -/
theorem joins_characters {part : Value} {t : Text} (hitems : part.items? = some (t.map fun c => str [c]))
    (hhold : part.holdFailure? = Option.none) : part.Joins t := by
  have hjoins : part.Joins (t.map fun c => [c]).flatten :=
    joins_texts (by rw [hitems, List.map_map]; rfl) hhold
  rwa [← List.flatMap_def, List.flatMap_singleton'] at hjoins

theorem joins_str (t : Text) : (str t).Joins t := joins_characters rfl rfl

theorem joinParts_strs : ∀ ts : List Text, joinParts (ts.map str) = .ok ts.flatten
  | [] => rfl
  | t :: ts => by rw [List.map_cons, joins_str, joinParts_strs ts]; rfl

theorem Joins.joinParts {v : Value} {t : Text} (h : v.Joins t) : joinParts [v] = .ok t :=
  (h []).trans (congrArg Except.ok (List.append_nil t))

end Value

namespace Scan

open Lexeme

variable {data : Sequence} {g : Grammar} {arg : Value} {i n : Nat} {s t : Text}

/-! ## Digits -/

theorem mem_decimal {c : Nat} : c ∈ Text.ofString "0123456789" ↔ Text.isDigit c = true := by
  rw [show Text.ofString "0123456789" = [48, 49, 50, 51, 52, 53, 54, 55, 56, 57] from rfl]
  simp only [List.mem_cons, List.not_mem_nil, or_false, Text.isDigit, Bool.and_eq_true,
    decide_eq_true_eq]
  omega

/-- Nothing comes next that would go on with a decimal numeral. -/
def EndsNumeral (t : Text) : Prop := ∀ c ∈ t.head?, Text.isDigit c = false

theorem reads_digit_of_ends (h : data.Spells i t) (ht : EndsNumeral t) :
    Reads data g arg digit i .noMatch i := by
  refine reads_oneOf_of_not_mem h fun c hc hmem => ?_
  rw [mem_decimal, ht c hc] at hmem
  cases hmem

/-- As many digits as there are. -/
theorem reads_digits (h : data.Spells i (s ++ t)) (hs : ∀ c ∈ s, Text.isDigit c = true)
    (hne : s ≠ []) (ht : EndsNumeral t) :
    Reads data g arg digits i (.single (.str s)) (i + s.length) := by
  have hmany : ReadsMany data g arg digit i (s.map fun c => .str [c]) (i + s.length) :=
    readsMany_oneOf h fun c hc => mem_decimal.2 (hs c hc)
  have hlength : (1 : Int) ≤ (s.map fun c => Value.str [c]).length := by
    have := List.length_pos_of_ne_nil hne
    rw [List.length_map]
    omega
  refine (hmany.repetition (reads_digit_of_ends h.append ht) hlength).map ?_
  rw [Conversion.apply, Mapper.anonymous]
  dsimp only
  rw [(Value.joins_characters rfl rfl).joinParts]
  rfl

theorem reads_digits_of_ends (h : data.Spells i t) (ht : EndsNumeral t) :
    Reads data g arg digits i .noMatch i :=
  ((ReadsMany.nil i).repetition_of_few (reads_digit_of_ends h ht) (by simp)).map_of_mismatch

theorem readDecimal_of_read? (hread : Numeral.read? 10 s = some n)
    (hshort : s.length ≤ maxDecimalDigits) : readDecimal s = .ok (.int n) := by
  rw [readDecimal, if_neg (by omega), readInteger, hread]

theorem reads_decimalInteger (h : data.Spells i (s ++ t)) (hs : ∀ c ∈ s, Text.isDigit c = true)
    (hread : Numeral.read? 10 s = some n) (hshort : s.length ≤ maxDecimalDigits)
    (ht : EndsNumeral t) :
    Reads data g arg decimalInteger i (.single (.int n)) (i + s.length) := by
  have hne : s ≠ [] := by
    rintro rfl
    cases hread
  refine (reads_digits h hs hne ht).map ?_
  rw [Conversion.apply, Mapper.anonymous]
  dsimp only
  rw [(Value.joins_characters rfl rfl).joinParts,
    show (Except.ok s >>= readDecimal : Except Failure Value) = readDecimal s from rfl,
    readDecimal_of_read? hread hshort]
  rfl

/-! ## Marks of other bases -/

/-- The text does not begin with the mark of a base. -/
def Unmarked (t : Text) : Prop :=
  ∀ mark ∈ ["0b", "0o", "0x"], (Text.ofString mark).isPrefixOf t = false

/-- Every mark begins with a zero. -/
theorem Unmarked.of_head? (h : t.head? ≠ some 0x30) : Unmarked t := by
  intro mark hmark
  have hzero : ∃ rest, Text.ofString mark = 0x30 :: rest := by
    simp only [List.mem_cons, List.not_mem_nil, or_false] at hmark
    rcases hmark with rfl | rfl | rfl <;> exact ⟨_, rfl⟩
  obtain ⟨rest, hrest⟩ := hzero
  rw [hrest]
  cases t with
  | nil => rfl
  | cons c t =>
    have hne : c ≠ 0x30 := by simpa using h
    rw [List.isPrefixOf, beq_false_of_ne hne.symm, Bool.false_and]

/-- Behind a zero comes one of three letters, or there is no mark. -/
theorem Unmarked.zero (h : ∀ c ∈ t.head?, c ∉ Text.ofString "box") : Unmarked (0x30 :: t) := by
  intro mark hmark
  simp only [List.mem_cons, List.not_mem_nil, or_false] at hmark
  cases t with
  | nil => rcases hmark with rfl | rfl | rfl <;> rfl
  | cons c t =>
    have hne : c ≠ 0x62 ∧ c ≠ 0x6f ∧ c ≠ 0x78 := by
      have hmem := h c rfl
      rw [show Text.ofString "box" = [0x62, 0x6f, 0x78] from rfl] at hmem
      simpa using hmem
    rcases hmark with rfl | rfl | rfl
    · exact congrArg (· && _) (beq_false_of_ne hne.1.symm)
    · exact congrArg (· && _) (beq_false_of_ne hne.2.1.symm)
    · exact congrArg (· && _) (beq_false_of_ne hne.2.2.symm)

theorem EndsNumeral.unmarked (h : EndsNumeral t) : Unmarked t :=
  .of_head? fun hzero => by cases h 0x30 hzero

/-- Behind a mark, which is missing, digits would be asked for. -/
theorem reads_markedDigits_of_unmarked {mark what : String} {members : List Value} {base : Nat}
    (h : data.Spells i t) (ht : (Text.ofString mark).isPrefixOf t = false) :
    Reads data g arg (markedDigits mark members base what) i .noMatch i := by
  have hmark : Reads data g arg (.literal (.str (Text.ofString mark))) i .noMatch i := by
    simpa only [ht, Bool.false_eq_true, if_false] using reads_literal (s := Text.ofString mark) h
  exact (ReadsAll.cons_of_mismatch hmark.discard).and.map_of_mismatch

/-- An integer without its sign. -/
def unsignedInteger : Rule :=
  .or [markedDigits "0b" ItemSet.binary 2 "binary integer",
    markedDigits "0o" ItemSet.octal 8 "octal integer",
    markedDigits "0x" ItemSet.hexadecimal 16 "hexadecimal integer",
    decimalInteger]

/-- A decimal integer is what is left if no mark is there. -/
theorem reads_unsignedInteger {o : Outcome} {j : Nat} (h : data.Spells i t) (hmark : Unmarked t)
    (hdecimal : ReadsFirst data g arg [decimalInteger] i o j) :
    Reads data g arg unsignedInteger i o j :=
  ReadsFirst.or <|
    .tail (reads_markedDigits_of_unmarked h (hmark _ (by simp))) <|
    .tail (reads_markedDigits_of_unmarked h (hmark _ (by simp))) <|
    .tail (reads_markedDigits_of_unmarked h (hmark _ (by simp))) hdecimal

theorem reads_unsignedInteger_of_numeral (h : data.Spells i (s ++ t))
    (hs : ∀ c ∈ s, Text.isDigit c = true) (hread : Numeral.read? 10 s = some n)
    (hshort : s.length ≤ maxDecimalDigits) (ht : EndsNumeral t) (hmark : Unmarked (s ++ t)) :
    Reads data g arg unsignedInteger i (.single (.int n)) (i + s.length) :=
  reads_unsignedInteger h hmark (.head (reads_decimalInteger h hs hread hshort ht))

/-! ## Signs -/

theorem reads_minus_of_ne (h : data.Spells i t) (hne : t.head? ≠ some 0x2d) :
    Reads data g arg minus i (.single .none) i :=
  (reads_character_of_ne h hne).optional_of_mismatch

/-- What the sign in front makes of an integer. -/
theorem Reads.integer {sign : Value} {m : Int} {j k : Nat}
    (hsign : Reads data g arg minus i (.single sign) j)
    (hunsigned : Reads data g arg unsignedInteger j (.single (.int m)) k) :
    Reads data g arg integer i
      (.single (.int (if sign.eqv (.str [0x2d]) then -m else m))) k := by
  have hboth := (ReadsAll.cons hsign (.cons hunsigned .nil)).and
  exact ReadsFirst.or (.head (hboth.map rfl))

/-- A failure behind the sign is a failure of the integer. -/
theorem Reads.integer_of_failure {sign : Value} {e : Failure} {j k : Nat}
    (hsign : Reads data g arg minus i (.single sign) j)
    (hunsigned : Fails data g arg unsignedInteger j e k) (he : e.isHard = true) :
    Fails data g arg Lexeme.integer i e k :=
  FailsFirst.or (.head (FailsAll.cons hsign (.head hunsigned)).and.map he)

/-- A sign without an integer behind it is not consumed. -/
theorem Reads.integer_of_mismatch {sign : Value} {m : Mismatch} {j k : Nat}
    (hsign : Reads data g arg minus i (.single sign) j)
    (hunsigned : Reads data g arg unsignedInteger j (.mismatch m) k) :
    Reads data g arg Lexeme.integer i .noMatch i :=
  ReadsFirst.or (.tail (ReadsAll.cons hsign (.cons_of_mismatch hunsigned)).and.map_of_mismatch .nil)

/-- No integer where no digit comes next. -/
theorem reads_unsignedInteger_of_ends (h : data.Spells i t) (ht : EndsNumeral t) :
    Reads data g arg unsignedInteger i .noMatch i :=
  reads_unsignedInteger h ht.unmarked (.tail (reads_digits_of_ends h ht).map_of_mismatch .nil)

/-- No integer where neither a minus nor a digit comes next. -/
theorem reads_integer_of_ends (h : data.Spells i t) (ht : EndsNumeral t)
    (hminus : t.head? ≠ some 0x2d) : Reads data g arg Lexeme.integer i .noMatch i :=
  (reads_minus_of_ne h hminus).integer_of_mismatch (reads_unsignedInteger_of_ends h ht)

/-! ## Written integers -/

theorem reads_unsignedInteger_write (h : data.Spells i (Numeral.write 10 n ++ t))
    (hn : n < 10 ^ maxDecimalDigits) (ht : EndsNumeral t) (hzero : n = 0 → Unmarked (0x30 :: t)) :
    Reads data g arg unsignedInteger i (.single (.int n)) (i + (Numeral.write 10 n).length) := by
  refine reads_unsignedInteger_of_numeral h Numeral.isDigit_of_mem_write
    (Numeral.read?_write (by omega) (by omega) n)
    (Numeral.length_write_le (by omega) (by decide) hn) ht ?_
  -- only a zero can be taken for the beginning of a mark
  rcases Nat.eq_zero_or_pos n with rfl | hpos
  · rw [Numeral.write_of_lt (by omega)]
    exact hzero rfl
  · refine .of_head? ?_
    rw [List.head?_append_of_ne_nil _ (Numeral.write_ne_nil (by omega) n)]
    exact Numeral.head?_write_ne_zero hpos

/-- The decimal numeral of an integer reads as the integer. -/
theorem reads_integer_ofInt {z : Int} (h : data.Spells i (Numeral.ofInt z ++ t))
    (hz : z.natAbs < 10 ^ maxDecimalDigits) (ht : EndsNumeral t)
    (hzero : z = 0 → Unmarked (0x30 :: t)) :
    Reads data g arg Lexeme.integer i (.single (.int z)) (i + (Numeral.ofInt z).length) := by
  rw [Numeral.ofInt] at h ⊢
  split at h
  · -- behind the minus stands a number that is not zero, so no mark of a base
    rename_i hneg
    have hunsigned : Reads data g arg unsignedInteger (i + 1) (.single (.int z.natAbs)) _ :=
      reads_unsignedInteger_write h.tail hz ht (by omega)
    have hread := (reads_character h).optional.integer hunsigned
    rw [Value.eqv_character, if_pos (beq_self_eq_true _)] at hread
    rw [if_pos hneg, List.length_cons, ← Nat.add_assoc, Nat.add_right_comm]
    rwa [show -(z.natAbs : Int) = z by omega] at hread
  · -- a digit comes first, so there is no sign
    rename_i hneg
    have hminus : (Numeral.write 10 z.natAbs ++ t).head? ≠ some 0x2d := fun hhead => by
      cases Numeral.isDigit_of_head?_write_append hhead
    have hunsigned : Reads data g arg unsignedInteger i (.single (.int z.natAbs)) _ :=
      reads_unsignedInteger_write h hz ht fun hz0 => hzero (by omega)
    have hread := (reads_minus_of_ne h hminus).integer hunsigned
    rw [if_neg hneg]
    rwa [if_neg (by simp [Value.eqv, Value.equal]), show (z.natAbs : Int) = z by omega] at hread

end Scan
end Backtrack
