/-
Numerals that are written and read again. What writes a number in a base reads as that number there,
has no zero in front unless it is the only digit, and is no longer than the number requires.
-/
import Backtrack.Number.Numeral
import Mathlib.Tactic
namespace Backtrack.Numeral

variable {base n : Nat}

/-! ## Writing -/

/-- What stands behind a numeral does not change it. -/
theorem writeBefore_eq_append (base n : Nat) (rest : Text) :
    writeBefore base n rest = write base n ++ rest := by
  induction n using Nat.strong_induction_on generalizing rest with
  | _ n ih =>
    rw [write, writeBefore, writeBefore.eq_def base n []]
    split
    · rfl
    · have hlt : n / base < n := Nat.div_lt_self (by omega) (by omega)
      rw [ih _ hlt, ih _ hlt [digitOf (n % base)], List.append_assoc]
      rfl

theorem write_of_lt (h : n < base) : write base n = [digitOf n] := by
  rw [write, writeBefore, dif_pos (.inl h)]

/-- The last digit comes behind the others. -/
theorem write_of_le (hbase : 2 ≤ base) (h : base ≤ n) :
    write base n = write base (n / base) ++ [digitOf (n % base)] := by
  rw [write, writeBefore, dif_neg (by omega), writeBefore_eq_append]

/-- A statement about the digits of a number holds if it holds of one digit, and of a last digit if
it holds of those in front. -/
theorem write_induction {P : Nat → Text → Prop} (hbase : 2 ≤ base)
    (hdigit : ∀ n < base, P n [digitOf n])
    (happend : ∀ n, base ≤ n → P (n / base) (write base (n / base)) →
      P n (write base (n / base) ++ [digitOf (n % base)])) (n : Nat) : P n (write base n) := by
  induction n using Nat.strong_induction_on with
  | _ n ih =>
    by_cases h : n < base
    · rw [write_of_lt h]
      exact hdigit n h
    · rw [write_of_le hbase (by omega)]
      exact happend n (by omega) (ih _ (Nat.div_lt_self (by omega) hbase))

theorem write_ne_nil (hbase : 2 ≤ base) (n : Nat) : write base n ≠ [] :=
  write_induction (P := fun _ t => t ≠ []) hbase (fun _ _ => by simp) (fun _ _ _ => by simp) n

theorem isDigit_digitOf (h : n < 10) : Text.isDigit (digitOf n) = true := by
  simp only [Text.isDigit, digitOf, if_pos h, Bool.and_eq_true, decide_eq_true_eq]
  omega

/-- A decimal numeral has nothing but decimal digits. -/
theorem isDigit_of_mem_write : ∀ c ∈ write 10 n, Text.isDigit c = true := by
  refine write_induction (P := fun _ t => ∀ c ∈ t, Text.isDigit c = true) (by omega)
    (fun n hn => ?_) (fun n _ ih => ?_) n
  · simpa using isDigit_digitOf hn
  · intro c hc
    rcases List.mem_append.1 hc with hc | hc
    · exact ih c hc
    · rw [List.mem_singleton.1 hc]
      exact isDigit_digitOf (Nat.mod_lt n (by omega))

/-- A text that begins with a decimal numeral begins with a digit. -/
theorem isDigit_of_head?_write_append {rest : Text} {c : Nat}
    (h : (write 10 n ++ rest).head? = some c) : Text.isDigit c = true := by
  rw [List.head?_append_of_ne_nil _ (write_ne_nil (by omega) n)] at h
  exact isDigit_of_mem_write c (List.mem_of_mem_head? h)

/-- Only zero is written with a zero in front. -/
theorem head?_write_ne_zero (hn : 0 < n) : (write 10 n).head? ≠ some 0x30 := by
  have h := write_induction (P := fun n t => 0 < n → ∃ c rest, t = c :: rest ∧ c ≠ 0x30)
    (by omega : 2 ≤ 10) (fun n hlt hn => ⟨_, _, rfl, by simp only [digitOf, if_pos hlt]; omega⟩)
    (fun n hle ih hn => ?_) n hn
  · obtain ⟨c, rest, heq, hc⟩ := h
    simpa [heq] using hc
  · obtain ⟨c, rest, heq, hc⟩ := ih (Nat.div_pos hle (by omega))
    exact ⟨c, rest ++ _, by rw [heq, List.cons_append], hc⟩

/-- A number below a power of the base has no more digits than the power. -/
theorem length_write_le (hbase : 2 ≤ base) {k : Nat} (hk : 0 < k) (hn : n < base ^ k) :
    (write base n).length ≤ k := by
  refine write_induction (P := fun n t => ∀ k, 0 < k → n < base ^ k → t.length ≤ k) hbase
    (fun n _ k hk _ => by rw [List.length_singleton]; omega) (fun n hle ih k hk hn => ?_) n k hk hn
  obtain ⟨k, rfl⟩ : ∃ k', k = k' + 1 := ⟨k - 1, by omega⟩
  have hpos : 0 < k := by
    by_contra h0
    obtain rfl : k = 0 := by omega
    simp at hn
    omega
  have hdiv : n / base < base ^ k := Nat.div_lt_of_lt_mul (by rwa [pow_succ, mul_comm] at hn)
  have := ih k hpos hdiv
  simp only [List.length_append, List.length_singleton]
  omega

/-! ## Reading what was written -/

/-- A numeral reads as the number that it writes. -/
theorem readFrom_write (hbase : 2 ≤ base) (hsmall : base ≤ 16) (n : Nat) :
    readFrom base 0 (write base n) = some n := by
  refine write_induction (P := fun n t => readFrom base 0 t = some n) hbase (fun n hn => ?_)
    (fun n _ ih => ?_) n
  · simp [readFrom, digitValue?_digitOf (by omega : n < 16), hn]
  · have hmod : n % base < base := Nat.mod_lt n (by omega)
    rw [readFrom_append, ih]
    simp only [Option.bind_some, readFrom, digitValue?_digitOf (by omega : n % base < 16), hmod,
      if_true]
    rw [mul_comm, Nat.div_add_mod]

theorem read?_write (hbase : 2 ≤ base) (hsmall : base ≤ 16) (n : Nat) :
    read? base (write base n) = some n := by
  have hread := readFrom_write hbase hsmall n
  cases h : write base n with
  | nil => exact absurd h (write_ne_nil hbase n)
  | cons c rest =>
    rw [read?, readBlocks_eq_readFrom, ← h]
    exact hread

end Backtrack.Numeral
