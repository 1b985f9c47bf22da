/-
Sequences by their items: what lies at an index of a sequence, of its list of items and of its
slices. The members of a range are computed, so for a range these are facts about arithmetic
progressions.
-/
import Backtrack.Value.Sequence
import Mathlib.Tactic
namespace Backtrack

/-! ## Ranges -/

/-- An arithmetic progression of `m` steps has `m` members before its end. -/
theorem Value.rangeSize_step {start step : Int} (hstep : step ≠ 0) (m n : Nat) :
    rangeSize (start + m * step) (start + n * step) step = n - m := by
  have hpos : ∀ d : Int, 0 < d → (((n : Int) - m) * d + d - 1) / d = (n : Int) - m := by
    intro d hd
    rw [show ((n : Int) - m) * d + d - 1 = (d - 1) + ((n : Int) - m) * d by ring,
      Int.add_mul_ediv_right _ _ (by omega), Int.ediv_eq_zero_of_lt (by omega) (by omega), zero_add]
  unfold rangeSize
  split
  · rename_i h
    rw [show start + n * step - (start + m * step) + step - 1 = ((n : Int) - m) * step + step - 1 by ring,
      hpos step h]
    omega
  · rename_i h
    rw [if_pos (by omega), show start + m * step - (start + n * step) - step - 1 =
      ((n : Int) - m) * -step + -step - 1 by ring, hpos (-step) (by omega)]
    omega

theorem Value.rangeSize_zero_step (start stop : Int) : rangeSize start stop 0 = 0 := by
  simp [rangeSize]

theorem Value.getElem?_rangeItems (start step : Int) : ∀ (count index k : Nat),
    (rangeItems start step index count)[k]? =
      if k < count then some (.int (start + (index + k : Nat) * step)) else Option.none
  | 0, index, k => by simp [rangeItems]
  | count + 1, index, 0 => by simp [rangeItems]
  | count + 1, index, k + 1 => by
    rw [rangeItems, List.getElem?_cons_succ, getElem?_rangeItems start step count (index + 1) k,
      show index + 1 + k = index + (k + 1) by omega]
    simp

namespace Sequence

/-! ## Items -/

theorem get?_eq_none_iff {s : Sequence} {i : Nat} : s.get? i = none ↔ s.size ≤ i := by
  cases s with
  | items kind content => simp [get?, size]
  | range start stop step =>
    simp only [get?]
    split
    · rename_i h
      exact ⟨fun h' => absurd h' (by simp), fun h' => by omega⟩
    · rename_i h
      exact ⟨fun _ => by omega, fun _ => rfl⟩

theorem lt_size_of_get? {s : Sequence} {i : Nat} {v : Value} (h : s.get? i = some v) : i < s.size := by
  by_contra hge
  rw [get?_eq_none_iff.2 (Nat.le_of_not_lt hge)] at h
  cases h

theorem get?_eq_getElem?_toList (s : Sequence) (i : Nat) : s.get? i = s.toList[i]? := by
  cases s with
  | items kind content => simp [get?, toList]
  | range start stop step =>
    simp only [get?, toList, size, Value.getElem?_rangeItems, Nat.zero_add]
    rfl

/-- A value that has a length has so many items. -/
theorem ofElements_of_length {v : Value} {n : Nat} (h : v.length = .ok n) :
    ∃ s, ofElements v = .ok s ∧ s.size = n := by
  unfold Value.length at h
  cases hlength : v.length? with
  | none =>
    rw [hlength] at h
    cases h
  | some m =>
    rw [hlength] at h
    simp only at h
    split at h
    · cases h
      cases v <;> cases hlength <;>
        first
          | exact ⟨_, rfl, rfl⟩
          | exact ⟨_, rfl, by simp [size]⟩
    · cases h

/-- What lies `k` places behind the beginning of a slice. -/
theorem get?_slice (s : Sequence) (i j k : Nat) :
    (s.slice i j).get? k = if i + k < j then s.get? (i + k) else none := by
  have hclip : ∀ n : Nat, clip s.size n = min n s.size := fun n => by
    rw [clip_of_nonneg (by omega)]
    simp
  simp only [slice, hclip]
  cases s with
  | items kind content =>
    simp only [get?, size, Array.getElem?_extract]
    split
    · rename_i h
      rw [show min i content.size = i by omega, if_pos (by omega)]
    · rename_i h
      split
      · exact (Array.getElem?_eq_none (by omega)).symm
      · rfl
  | range start stop step =>
    have hsize : Value.rangeSize (start + (min i (range start stop step).size : Nat) * step)
        (start + (min j (range start stop step).size : Nat) * step) step =
        min j (range start stop step).size - min i (range start stop step).size := by
      by_cases hstep : step = 0
      · subst hstep
        simp [size, Value.rangeSize_zero_step]
      · exact Value.rangeSize_step hstep _ _
    simp only [get?]
    rw [show (range (start + (min i (range start stop step).size : Nat) * step)
      (start + (min j (range start stop step).size : Nat) * step) step).size = _ from hsize]
    generalize (range start stop step).size = n
    by_cases hk : k < min j n - min i n
    · rw [if_pos hk, if_pos (by omega), if_pos (by omega), show min i n = i by omega]
      push_cast
      congr 2
      ring
    · rw [if_neg hk]
      split
      · rw [if_neg (by omega)]
      · rfl

end Sequence
end Backtrack
