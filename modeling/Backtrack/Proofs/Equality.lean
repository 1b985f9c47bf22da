/-
What it takes for two values to be equal. Numbers are equal exactly if they measure the same, however
they are written: a float stands for a multiple of the smallest positive one, and so does an integer.
Equality is passed on from value to value wherever it starts at one that can be hashed. What equals such
a value can be hashed as well, unless there are bytes in it that can be written to: a byte array or a view
of one equals a byte string, but only the byte string can be hashed.
-/
import Backtrack.Value.Equality
import Mathlib.Tactic
namespace Backtrack

/-! ## The measure of a float -/

namespace Binary64

variable {x y : Binary64} {n : Int}

/-- The absolute value of the numbers of a magnitude, in units of the smallest positive one. -/
def units (magnitude : Nat) : Nat :=
  if magnitude / fractionCount = 0 then magnitude % fractionCount
  else (fractionCount + magnitude % fractionCount) * 2 ^ (magnitude / fractionCount - 1)

/-- How often one is halved to get the smallest positive number. -/
def halvings : Nat := 1074

/-- The units that make one. -/
def unitsOfOne : Nat := 2 ^ halvings

theorem unitsOfOne_pos : 0 < unitsOfOne := Nat.two_pow_pos halvings

theorem units_zero : units 0 = 0 := rfl

theorem units_lt_succ (k : Nat) : units k < units (k + 1) := by
  have hsplit := Nat.div_add_mod k fractionCount
  have hfraction : k % fractionCount < fractionCount := Nat.mod_lt _ (by decide)
  generalize he : k / fractionCount = e at hsplit
  generalize hf : k % fractionCount = f at hsplit hfraction
  have hpow : ∀ j, 0 < 2 ^ j := Nat.two_pow_pos
  by_cases hlast : f + 1 < fractionCount
  · -- the next fraction, in the same power of two
    have hsucc : (k + 1) / fractionCount = e ∧ (k + 1) % fractionCount = f + 1 :=
      (Nat.div_mod_unique (by decide)).2 ⟨by omega, hlast⟩
    rw [units, units, he, hf, hsucc.1, hsucc.2]
    split
    · omega
    · exact Nat.mul_lt_mul_of_pos_right (by omega) (hpow _)
  · -- the first number in the next power of two
    have hsucc : (k + 1) / fractionCount = e + 1 ∧ (k + 1) % fractionCount = 0 :=
      (Nat.div_mod_unique (by decide)).2 ⟨by rw [Nat.mul_add]; omega, by decide⟩
    rw [units, units, he, hf, hsucc.1, hsucc.2, if_neg (Nat.succ_ne_zero e), Nat.add_sub_cancel]
    split
    next h => rw [h]; omega
    next h =>
      obtain ⟨j, rfl⟩ := Nat.exists_eq_succ_of_ne_zero h
      calc (fractionCount + f) * 2 ^ (j + 1 - 1)
          < (fractionCount * 2) * 2 ^ j := Nat.mul_lt_mul_of_pos_right (by omega) (hpow _)
        _ = (fractionCount + 0) * 2 ^ (j + 1) := by rw [Nat.add_zero, Nat.pow_succ', Nat.mul_assoc]

theorem units_injective : Function.Injective units := (strictMono_nat_of_lt_succ units_lt_succ).injective

/-- The number in units, with its sign. An infinity comes behind all finite numbers. -/
def measure (x : Binary64) : Int :=
  if x.isNegative then -(units x.magnitude : Int) else units x.magnitude

theorem natAbs_measure (x : Binary64) : x.measure.natAbs = units x.magnitude := by
  rw [measure]
  split <;> simp

theorem measure_eq_zero : x.measure = 0 ↔ x.isZero = true := by
  rw [← Int.natAbs_eq_zero, natAbs_measure, ← units_zero, units_injective.eq_iff, isZero, beq_iff_eq]

/-- The sign and the magnitude make a number. -/
theorem eq_of_magnitude (hsign : x.isNegative = y.isNegative) (h : x.magnitude = y.magnitude) : x = y := by
  have hx := x.bits.toNat_lt
  have hy := y.bits.toNat_lt
  have hbits : x.bits.toNat = y.bits.toNat := by
    have hsign : signWeight ≤ x.bits.toNat ↔ signWeight ≤ y.bits.toNat := decide_eq_decide.1 hsign
    simp only [magnitude, signWeight, Nat.pow_eq] at hsign h
    omega
  cases x
  cases y
  exact congrArg mk (UInt64.toNat_inj.1 hbits)

theorem measure_eq_iff : x.measure = y.measure ↔ x = y ∨ x.isZero = true ∧ y.isZero = true := by
  constructor
  · intro h
    by_cases hzero : x.isZero = true
    · exact .inr ⟨hzero, measure_eq_zero.1 (h ▸ measure_eq_zero.2 hzero)⟩
    · have hmagnitude : x.magnitude = y.magnitude :=
        units_injective (by rw [← natAbs_measure, ← natAbs_measure, h])
      refine .inl (eq_of_magnitude ?_ hmagnitude)
      have hpos : units x.magnitude ≠ 0 := by rwa [← natAbs_measure, ne_eq, Int.natAbs_eq_zero, measure_eq_zero]
      rw [measure, measure, ← hmagnitude] at h
      cases hx : x.isNegative <;> cases hy : y.isNegative <;> simp [hx, hy] at h ⊢ <;> omega
  · rintro (rfl | ⟨hx, hy⟩)
    · rfl
    · rw [measure_eq_zero.2 hx, measure_eq_zero.2 hy]

theorem eqv_iff : x.eqv y = true ↔ x.isNaN = false ∧ y.isNaN = false ∧ x.measure = y.measure := by
  rw [measure_eq_iff]
  simp [eqv, and_assoc]

/-- The significand and the exponent of a number make an integer exactly if the units do. -/
theorem parts_eq_iff (m : Nat) :
    (if 0 ≤ x.parts.2 then x.parts.1 * Nat.pow 2 x.parts.2.toNat == m
      else x.parts.1 == m * Nat.pow 2 (-x.parts.2).toNat) = true ↔
      units x.magnitude = m * unitsOfOne := by
  rw [parts, units]
  generalize x.magnitude / fractionCount = e
  generalize x.magnitude % fractionCount = f
  by_cases he : e = 0
  · rw [if_pos he, if_pos he, if_neg (show ¬(0 : Int) ≤ -1074 by decide), beq_iff_eq]
    rfl
  · rw [if_neg he, if_neg he]
    dsimp only
    split
    next h =>
      have hpow : 2 ^ (e - 1) = 2 ^ ((e : Int) - 1075).toNat * unitsOfOne := by
        rw [unitsOfOne, ← Nat.pow_add, halvings]
        congr 1
        omega
      rw [beq_iff_eq, hpow, ← Nat.mul_assoc, Nat.mul_left_inj unitsOfOne_pos.ne']
      rfl
    next h =>
      have hpow : unitsOfOne = 2 ^ (-((e : Int) - 1075)).toNat * 2 ^ (e - 1) := by
        rw [unitsOfOne, ← Nat.pow_add, halvings]
        congr 1
        omega
      rw [beq_iff_eq, hpow, ← Nat.mul_assoc, Nat.mul_left_inj (Nat.two_pow_pos _).ne']
      rfl

/-- An integer is what a number measures if they have the same sign and the same absolute value. -/
theorem measure_eq_mul_iff : x.measure = n * unitsOfOne ↔
    units x.magnitude = n.natAbs * unitsOfOne ∧ (n = 0 ∨ decide (n < 0) = x.isNegative) := by
  have hone : (0 : Int) < unitsOfOne := Int.natCast_pos.2 unitsOfOne_pos
  have habs : (n * unitsOfOne).natAbs = n.natAbs * unitsOfOne := by
    rw [Int.natAbs_mul, Int.natAbs_natCast]
  have hnegative : n < 0 → n * unitsOfOne < 0 := fun h => Int.mul_neg_of_neg_of_pos h hone
  have hpositive : 0 < n → 0 < n * unitsOfOne := fun h => Int.mul_pos h hone
  have hzero : n = 0 → n * unitsOfOne = 0 := fun h => by rw [h, Int.zero_mul]
  rw [measure, ← habs]
  generalize n * unitsOfOne = m at *
  cases x.isNegative <;> simp <;> omega

theorem equalsInt_iff :
    x.equalsInt n = true ↔ x.isNaN = false ∧ x.isInfinite = false ∧ x.measure = n * unitsOfOne := by
  rw [measure_eq_mul_iff, ← parts_eq_iff, equalsInt]
  cases x.isNaN <;> cases x.isInfinite <;> simp

/-- Numbers of the same measure are infinite alike. -/
theorem isInfinite_congr (h : x.measure = y.measure) : x.isInfinite = y.isInfinite := by
  have hunits : units x.magnitude = units y.magnitude := by
    rw [← natAbs_measure, ← natAbs_measure, h]
  rw [isInfinite, isInfinite, units_injective hunits]

end Binary64

namespace Value

/-! ## Numbers -/

/-- Whether a number is infinite, and what it measures. What is no number measures nothing. -/
def Number.measure? : Number → Option (Bool × Int)
  | whole n => some (false, n * Binary64.unitsOfOne)
  | floating x => if x.isNaN then Option.none else some (x.isInfinite, x.measure)

theorem Number.measure?_floating {x : Binary64} {k : Bool × Int} :
    (floating x).measure? = some k ↔ x.isNaN = false ∧ x.isInfinite = k.1 ∧ x.measure = k.2 := by
  obtain ⟨infinite, measure⟩ := k
  rw [measure?]
  cases x.isNaN <;> simp

theorem Number.measure?_eq_whole {x : Binary64} {n : Int} :
    x.equalsInt n = true ↔ (floating x).measure? = (whole n).measure? := by
  rw [Binary64.equalsInt_iff, measure?, measure?_floating]

/-- Numbers are equal exactly if they measure the same. -/
theorem Number.eqv_iff {m n : Number} :
    m.eqv n = true ↔ ∃ k, m.measure? = some k ∧ n.measure? = some k := by
  have hone : (Binary64.unitsOfOne : Int) ≠ 0 := Int.natCast_ne_zero.2 Binary64.unitsOfOne_pos.ne'
  cases m with
  | whole a =>
    cases n with
    | whole b =>
      rw [eqv, beq_iff_eq]
      constructor
      · rintro rfl
        exact ⟨_, rfl, rfl⟩
      · rintro ⟨k, ha, hb⟩
        exact Int.eq_of_mul_eq_mul_right hone (congrArg Prod.snd (Option.some.inj (ha.trans hb.symm)))
    | floating y =>
      rw [eqv, measure?_eq_whole]
      exact ⟨fun h => ⟨_, rfl, h⟩, fun ⟨_, ha, hy⟩ => hy.trans ha.symm⟩
  | floating x =>
    cases n with
    | whole b =>
      rw [eqv, measure?_eq_whole]
      exact ⟨fun h => ⟨_, h, rfl⟩, fun ⟨_, hx, hb⟩ => hx.trans hb.symm⟩
    | floating y =>
      rw [eqv, Binary64.eqv_iff]
      constructor
      · rintro ⟨hx, hy, h⟩
        exact ⟨(y.isInfinite, y.measure), measure?_floating.2 ⟨hx, Binary64.isInfinite_congr h, h⟩,
          measure?_floating.2 ⟨hy, rfl, rfl⟩⟩
      · rintro ⟨k, hx, hy⟩
        rw [measure?_floating] at hx hy
        exact ⟨hx.1, hy.1, hx.2.2.trans hy.2.2.symm⟩

theorem Number.eqv_trans {l m n : Number} (h : l.eqv m = true) (h' : m.eqv n = true) :
    l.eqv n = true := by
  obtain ⟨k, hl, hm⟩ := eqv_iff.1 h
  obtain ⟨k', hm', hn⟩ := eqv_iff.1 h'
  obtain rfl := Option.some.inj (hm.symm.trans hm')
  exact eqv_iff.2 ⟨k, hl, hn⟩

/-! ## Values -/

mutual

/-- Whether each float that a value marks as no number is none. Only values that can be hashed are looked
into. -/
def isGenuine : Value → Bool
  | nan x _ => x.isNaN
  | tuple items | values items => areGenuine items
  | namedMismatch label => isGenuine label
  | _ => true

/-- Whether this is so of every item. -/
def areGenuine : List Value → Bool
  | [] => true
  | v :: vs => isGenuine v && areGenuine vs

end

mutual

/-- Whether a value is a byte array, or is immutable and holds one. -/
def holdsByteArray : Value → Bool
  | byteArray _ => true
  | tuple items | values items => holdByteArray items
  | namedMismatch label => holdsByteArray label
  | _ => false

/-- Whether an item is or holds a byte array. -/
def holdByteArray : List Value → Bool
  | [] => false
  | v :: vs => holdsByteArray v || holdByteArray vs

end

variable {a b c : Value} {xs ys zs : List Value} {identity : Bool}

theorem numbersEqual_iff :
    numbersEqual a b = true ↔ ∃ m n, a.number? = some m ∧ b.number? = some n ∧ m.eqv n = true := by
  rw [numbersEqual]
  cases a.number? <;> cases b.number? <;> simp

/-- A value that measures something is compared as a number. -/
theorem equal_of_number? {m : Number} {k : Bool × Int} (hgenuine : a.isGenuine = true)
    (ha : a.number? = some m) (hm : m.measure? = some k) : a.equal identity b = numbersEqual a b := by
  cases a with
  | nan x mark =>
    obtain rfl := Option.some.inj ha
    rw [Number.measure?_floating] at hm
    exact absurd (hm.1.symm.trans hgenuine) Bool.false_ne_true
  | bool | int | float => rw [equal]
  | _ => exact absurd ha nofun

theorem equal_of_content? {content : List Nat} (ha : a.content? = some content) :
    a.equal identity b = (b.content? == some content) := by
  cases a with
  | bytes | byteArray | byteView =>
    obtain rfl := Option.some.inj ha
    rw [equal]
  | _ => exact absurd ha nofun

theorem tupleItems?_eq_some : a.tupleItems? = some xs ↔ a = tuple xs ∨ a = values xs := by
  cases a <;> simp [tupleItems?]

theorem equal_iff_of_tupleItems? (ha : a.tupleItems? = some xs) :
    a.equal identity b = true ↔ ∃ ys, b.tupleItems? = some ys ∧ equalItems xs ys = true := by
  rcases tupleItems?_eq_some.1 ha with rfl | rfl <;> rw [equal] <;> cases b.tupleItems? <;> simp

theorem numbersEqual_trans (hb : b.isGenuine = true) (hab : numbersEqual a b = true)
    (hbc : b.equal identity c = true) : numbersEqual a c = true := by
  obtain ⟨l, m, hl, hm, h⟩ := numbersEqual_iff.1 hab
  obtain ⟨k, -, hk⟩ := Number.eqv_iff.1 h
  rw [equal_of_number? hb hm hk] at hbc
  obtain ⟨m', n, hm', hn, h'⟩ := numbersEqual_iff.1 hbc
  obtain rfl := Option.some.inj (hm.symm.trans hm')
  exact numbersEqual_iff.2 ⟨l, n, hl, hn, Number.eqv_trans h h'⟩

theorem rangesEqual_trans {start stop step : Int} (hab : rangesEqual start stop step b = true)
    (hbc : b.equal identity c = true) : rangesEqual start stop step c = true := by
  cases b with
  | range start' stop' step' =>
    rw [equal] at hbc
    cases c with
    | range start'' stop'' step'' =>
      simp only [rangesEqual, Bool.and_eq_true, Bool.or_eq_true, beq_iff_eq] at *
      omega
    | _ => exact absurd hbc nofun
  | _ => exact absurd hab nofun

theorem unhashable?_of_number? {n : Number} (h : a.number? = some n) : a.unhashable? = Option.none := by
  cases a with
  | bool | int | float | nan => rfl
  | _ => exact absurd h nofun

/-- Whether a value is bytes that lie elsewhere or can be written to. -/
def isBuffer : Value → Bool
  | byteArray _ | byteView _ => true
  | _ => false

theorem isBuffer_of_content? {content : List Nat} {u : Value} (h : a.content? = some content)
    (hu : a.unhashable? = some u) : u.isBuffer = true := by
  cases a with
  | byteArray =>
    cases hu
    rfl
  | byteView view =>
    rw [unhashable?] at hu
    split at hu <;> cases hu
    rfl
  | bytes => cases hu
  | _ => exact absurd h nofun

mutual

/-- Equality is passed on from a value that can be hashed. -/
theorem equal_trans {a b c : Value} (ha : a.hashable = true) (hb : b.isGenuine = true)
    (hab : a.equal true b = true) (hbc : b.equal true c = true) : a.equal true c = true := by
  match a with
  | bool _ | int _ | float _ =>
    rw [equal] at hab ⊢
    exact numbersEqual_trans hb hab hbc
  | bytes content | byteView content =>
    rw [equal] at hab ⊢
    rwa [equal_of_content? (beq_iff_eq.1 hab)] at hbc
  | tuple xs | values xs =>
    obtain ⟨ys, hys, hxy⟩ := (equal_iff_of_tupleItems? rfl).1 hab
    obtain ⟨zs, hzs, hyz⟩ := (equal_iff_of_tupleItems? hys).1 hbc
    have hy : areGenuine ys = true := by rcases tupleItems?_eq_some.1 hys with rfl | rfl <;> exact hb
    exact (equal_iff_of_tupleItems? rfl).2 ⟨zs, hzs, equalItems_trans ha hy hxy hyz⟩
  | range .. =>
    rw [equal] at hab ⊢
    exact rangesEqual_trans hab hbc
  | namedMismatch l =>
    cases b with
    | namedMismatch m =>
      cases c with
      | namedMismatch n =>
        rw [equal] at hab hbc ⊢
        have hm : m.isGenuine = true := hb
        exact equal_trans ha hm hab hbc
      | _ => exact absurd hbc (by simp [equal])
    | _ => exact absurd hab (by simp [equal])
  | nan x mark =>
    cases b with
    | nan y mark' =>
      cases c with
      | nan z mark'' =>
        rw [equal, Bool.true_and, beq_iff_eq] at hab hbc ⊢
        exact hab.trans hbc
      | _ => exact absurd hbc (by simp [equal])
    | _ => exact absurd hab (by simp [equal])
  | none | str _ | mismatch =>
    cases b <;> simp [equal] at hab
    all_goals subst_vars; exact hbc

/-- Equality is passed on item by item. -/
theorem equalItems_trans {xs ys zs : List Value} (hx : hashableItems xs = true)
    (hy : areGenuine ys = true) (hxy : equalItems xs ys = true) (hyz : equalItems ys zs = true) :
    equalItems xs zs = true := by
  match xs, ys, zs with
  | [], [], [] => rfl
  | x :: xs, y :: ys, z :: zs =>
    rw [hashableItems_cons, Bool.and_eq_true] at hx
    rw [areGenuine, Bool.and_eq_true] at hy
    rw [equalItems, Bool.and_eq_true] at hxy hyz ⊢
    exact ⟨equal_trans hx.1 hy.1 hxy.1 hyz.1, equalItems_trans hx.2 hy.2 hxy.2 hyz.2⟩

end

mutual

/-- What equals a value that can be hashed can be hashed too, unless there is a buffer in it. -/
theorem isBuffer_of_equal {a b u : Value} (ha : a.hashable = true) (hab : a.equal true b = true)
    (hu : b.unhashable? = some u) : u.isBuffer = true := by
  match a with
  | bool _ | int _ | float _ =>
    rw [equal] at hab
    obtain ⟨-, n, -, hn, -⟩ := numbersEqual_iff.1 hab
    exact absurd (hu.symm.trans (unhashable?_of_number? hn)) nofun
  | bytes content | byteView ⟨content, _⟩ =>
    rw [equal, beq_iff_eq] at hab
    exact isBuffer_of_content? hab hu
  | tuple xs | values xs =>
    obtain ⟨ys, hys, hxy⟩ := (equal_iff_of_tupleItems? rfl).1 hab
    rcases tupleItems?_eq_some.1 hys with rfl | rfl <;> exact isBuffer_of_equalItems ha hxy hu
  | namedMismatch l =>
    cases b with
    | namedMismatch m =>
      rw [equal] at hab
      have hl : l.hashable = true := ha
      have hm : m.unhashable? = some u := hu
      exact isBuffer_of_equal hl hab hm
    | _ => exact absurd hab (by simp [equal])
  | none | str _ | mismatch | nan .. | range .. =>
    cases b <;> first | (cases hu; done) | simp [equal, rangesEqual] at hab

theorem isBuffer_of_equalItems {xs ys : List Value} {u : Value} (hx : hashableItems xs = true)
    (hxy : equalItems xs ys = true) (hu : unhashableItem? ys = some u) : u.isBuffer = true := by
  match xs, ys with
  | [], [] => cases hu
  | x :: xs, y :: ys =>
    rw [hashableItems_cons, Bool.and_eq_true] at hx
    rw [equalItems, Bool.and_eq_true] at hxy
    rw [unhashableItem?, Option.or_eq_some_iff] at hu
    rcases hu with hu | ⟨-, hu⟩
    · exact isBuffer_of_equal hx.1 hxy.1 hu
    · exact isBuffer_of_equalItems hx.2 hxy.2 hu

end

mutual

/-- A byte array for whose sake a value cannot be hashed is in it. -/
theorem holdsByteArray_of_unhashable? {content : List Nat} : ∀ {v : Value},
    v.unhashable? = some (byteArray content) → v.holdsByteArray = true
  | byteArray _, _ => rfl
  | tuple _, h | values _, h => holdByteArray_of_unhashableItem? h
  | namedMismatch l, h => holdsByteArray_of_unhashable? (v := l) h
  | byteView view, h => by
    rw [unhashable?] at h
    split at h <;> cases h

theorem holdByteArray_of_unhashableItem? {content : List Nat} : ∀ {vs : List Value},
    unhashableItem? vs = some (byteArray content) → holdByteArray vs = true
  | v :: vs, h => by
    rw [unhashableItem?, Option.or_eq_some_iff] at h
    rw [holdByteArray, Bool.or_eq_true]
    exact h.imp holdsByteArray_of_unhashable? fun h => holdByteArray_of_unhashableItem? h.2

end

mutual

/-- What holds a byte array cannot be hashed. -/
theorem hashable_of_holdsByteArray : ∀ {v : Value}, v.holdsByteArray = true → v.hashable = false
  | byteArray _, _ => rfl
  | tuple _, h | values _, h => hashableItems_of_holdByteArray h
  | namedMismatch l, h => hashable_of_holdsByteArray (v := l) h

theorem hashableItems_of_holdByteArray : ∀ {vs : List Value},
    holdByteArray vs = true → hashableItems vs = false
  | v :: vs, h => by
    rw [holdByteArray, Bool.or_eq_true] at h
    rw [hashableItems_cons, Bool.and_eq_false_iff]
    exact h.imp hashable_of_holdsByteArray hashableItems_of_holdByteArray

end

end Value
end Backtrack
