/-
Positional numerals: a natural number and its digits in a base up to sixteen. Reading accepts
both cases of a letter digit, writing uses the lower case ones.
-/
import Backtrack.Text
namespace Backtrack.Numeral

/-- The value of a digit up to fifteen, letters counting from ten in either case. -/
def digitValue? (c : Nat) : Option Nat :=
  if Text.isDigit c then some (c - 0x30)
  else if 0x61 ≤ c && c ≤ 0x66 then some (c - 0x57)
  else if 0x41 ≤ c && c ≤ 0x46 then some (c - 0x37)
  else none

def digitOf (d : Nat) : Nat := if d < 10 then 0x30 + d else 0x57 + d

/-- The digits in front of `rest` that write `n`, the most significant first; zero has one digit. -/
def writeBefore (base : Nat) (n : Nat) (rest : Text) : Text :=
  if _h : n < base ∨ base < 2 then digitOf n :: rest
  else writeBefore base (n / base) (digitOf (n % base) :: rest)
termination_by n
decreasing_by exact Nat.div_lt_self (by omega) (by omega)

def write (base : Nat) (n : Nat) : Text := writeBefore base n []

/-- The digits that write `n`, with zeros in front up to `width`. -/
def writePadded (base width n : Nat) : Text :=
  let digits := write base n
  List.replicate (width - digits.length) 0x30 ++ digits

/-- The number whose digits follow those of `start`; nothing if one is no digit of the base. -/
def readFrom (base : Nat) (start : Nat) : Text → Option Nat
  | [] => some start
  | c :: rest =>
    match digitValue? c with
    | none => none
    | some d => if d < base then readFrom base (start * base + d) rest else none

/-- How many digits are read before they are joined to those in front of them. -/
def blockSize : Nat := 4096

/-- The number whose digits follow those of `start`, read in blocks, so that a long text takes few
operations on large numbers. -/
def readBlocks (base : Nat) (start : Nat) (t : Text) : Option Nat :=
  if _h : t.length ≤ blockSize then readFrom base start t
  else
    -- the block is read by itself, and the large number in front of it is touched once for it
    match readFrom base 0 (t.take blockSize) with
    | none => none
    | some n => readBlocks base (start * Nat.pow base blockSize + n) (t.drop blockSize)
termination_by t.length
decreasing_by
  have : 0 < blockSize := by decide
  simp only [List.length_drop]
  omega

/-- The number a non-empty text of digits writes. -/
def read? (base : Nat) : Text → Option Nat
  | [] => none
  | t@(_ :: _) => readBlocks base 0 t

def ofInt (n : Int) : Text :=
  if n < 0 then 0x2d :: write 10 n.natAbs else write 10 n.natAbs

/-! ## Reading in blocks -/

theorem readFrom_append (base start : Nat) (s t : Text) :
    readFrom base start (s ++ t) = (readFrom base start s).bind fun m => readFrom base m t := by
  induction s generalizing start with
  | nil => rfl
  | cons c s ih =>
    simp only [List.cons_append, readFrom]
    split
    · rfl
    · split
      · exact ih _
      · rfl

/-- Digits in front count by the weight of the digits behind them. -/
theorem readFrom_eq_map (base start : Nat) (t : Text) :
    readFrom base start t =
      (readFrom base 0 t).map fun n => start * Nat.pow base t.length + n := by
  induction t generalizing start with
  | nil => simp [readFrom]
  | cons c t ih =>
    simp only [readFrom]
    split
    · rfl
    · rename_i d _
      split
      · rw [ih (start * base + d), ih (0 * base + d), Option.map_map]
        congr 1
        funext n
        have : Nat.pow base (c :: t).length = Nat.pow base t.length * base := rfl
        simp only [Function.comp, this, Nat.zero_mul, Nat.zero_add, Nat.add_mul]
        rw [Nat.mul_assoc, Nat.mul_comm base, Nat.add_assoc]
      · rfl

theorem readBlocks_eq_readFrom (base start : Nat) (t : Text) :
    readBlocks base start t = readFrom base start t := by
  fun_induction readBlocks base start t with
  | case1 => rfl
  | case2 start t h hn =>
    rw [← List.take_append_drop blockSize t, readFrom_append, readFrom_eq_map, hn]
    rfl
  | case3 start t h n hn ih =>
    have hl : (t.take blockSize).length = blockSize := by
      rw [List.length_take]
      omega
    rw [ih]
    conv => rhs; rw [← List.take_append_drop blockSize t, readFrom_append, readFrom_eq_map, hn, hl]
    rfl

theorem digitValue?_digitOf {d : Nat} (h : d < 16) : digitValue? (digitOf d) = some d := by
  unfold digitValue? digitOf Text.isDigit
  by_cases h10 : d < 10
  · simp [h10]; omega
  · have h1 : ¬ (0x57 + d ≤ 0x39) := by omega
    simp [h10, h1]; omega

end Backtrack.Numeral
