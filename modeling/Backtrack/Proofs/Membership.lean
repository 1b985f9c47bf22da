/-
Tests by equality. A collection of members is a set or a list to be looked through, by what its
members are; either way a test finds the items that equal a member, but a set does not find an item
that holds a byte array, which it has no hash of, and fails over a writable view of one. A set leaves
out members, but only ones that equal another, and equality is passed on.
-/
import Backtrack.Proofs.Equality
import Backtrack.Rule.Construct
import Backtrack.Evaluation
namespace Backtrack

/-! ## Members that are left out -/

namespace Value

variable {v : Value} {vs items : List Value}

theorem hashableItems_iff : hashableItems vs = true ↔ ∀ v ∈ vs, v.hashable = true := by
  induction vs with
  | nil => simp [hashableItems, unhashableItem?]
  | cons v vs ih => rw [hashableItems_cons, Bool.and_eq_true, ih, List.forall_mem_cons]

theorem areGenuine_iff : areGenuine vs = true ↔ ∀ v ∈ vs, v.isGenuine = true := by
  induction vs with
  | nil => simp [areGenuine]
  | cons v vs ih => rw [areGenuine, Bool.and_eq_true, ih, List.forall_mem_cons]

theorem occursIn_iff : v.occursIn vs = true ↔ ∃ m ∈ vs, m.alike v = true := List.any_eq_true

theorem hashableItems_rangeItems (start step : Int) : ∀ (count index : Nat),
    hashableItems (rangeItems start step index count) = true
  | 0, _ => rfl
  | count + 1, index => hashableItems_rangeItems start step count (index + 1)

theorem items?_of_elements (h : v.elements = .ok items) : v.items? = some items := by
  rw [elements] at h
  split at h
  · cases h
  · split at h
    · rename_i hsome
      cases h
      exact hsome
    · cases h

/-- Whether hashing a value comes upon a writable view before anything else that cannot be hashed. -/
def refusesHash (v : Value) : Bool := v.unhashable? matches some (byteView _)

theorem refusesHash_of_hashable (h : v.hashable = true) : v.refusesHash = false := by
  rw [refusesHash, Option.isNone_iff_eq_none.1 h]

theorem hasHash_eq (v : Value) :
    v.hasHash = if v.refusesHash then .error .writableView else .ok v.hashable := by
  rw [hasHash, requireHashable, refusesHash, hashable]
  cases v.unhashable? with
  | none => rfl
  | some u => cases u <;> rfl

/-- Among members that can be hashed, a set finds the same items as a search, but for those that
hold a byte array. -/
theorem hashable_and_occursIn (h : hashableItems vs = true) (hv : v.refusesHash = false) :
    (v.hashable && v.occursIn vs) = (v.occursIn vs && !v.holdsByteArray) := by
  cases hoccurs : v.occursIn vs with
  | false => rw [Bool.and_false, Bool.false_and]
  | true =>
    obtain ⟨m, hm, halike⟩ := occursIn_iff.1 hoccurs
    cases hu : v.unhashable? with
    | none =>
      have hhashable : v.hashable = true := by rw [hashable, hu]; rfl
      have hholds : v.holdsByteArray = false := by
        by_contra hholds
        exact Bool.false_ne_true
          ((hashable_of_holdsByteArray (Bool.eq_true_of_not_eq_false hholds)).symm.trans hhashable)
      rw [hhashable, hholds]
      rfl
    | some u =>
      -- it is no view, so it is a byte array
      have hbuffer := isBuffer_of_equal (hashableItems_iff.1 h m hm) halike hu
      have hholds : v.holdsByteArray = true := by
        rw [refusesHash, hu] at hv
        cases u with
        | byteArray content => exact holdsByteArray_of_unhashable? hu
        | byteView view => cases hv
        | _ => cases hbuffer
      rw [hashable_of_holdsByteArray hholds, hholds]
      rfl

end Value

namespace Members

variable {v collection : Value} {vs items kept : List Value}

/-- What is left out equals what is kept, so that an item equals a member of what is left exactly
if it equals a member. -/
theorem occursIn_distinct (hkept : ∀ k ∈ kept, k.hashable = true)
    (hhashable : Value.hashableItems vs = true) (hgenuine : Value.areGenuine vs = true) :
    v.occursIn (distinct vs kept) = (v.occursIn kept || v.occursIn vs) := by
  induction vs generalizing kept with
  | nil => rw [distinct, Value.occursIn, List.any_reverse]; exact (Bool.or_false _).symm
  | cons m vs ih =>
    rw [Value.hashableItems_cons, Bool.and_eq_true] at hhashable
    rw [Value.areGenuine, Bool.and_eq_true] at hgenuine
    have hcons : v.occursIn (m :: vs) = (m.alike v || v.occursIn vs) := rfl
    rw [distinct, hcons]
    split
    next hagain =>
      rw [ih hkept hhashable.2 hgenuine.2]
      cases hm : m.alike v with
      | false => rfl
      | true =>
        -- the member is left out, but the one that it equals is kept
        obtain ⟨k, hk, hkm⟩ := Value.occursIn_iff.1 hagain
        have hfound : v.occursIn kept = true :=
          Value.occursIn_iff.2 ⟨k, hk, Value.equal_trans (hkept k hk) hgenuine.1 hkm hm⟩
        rw [hfound, Bool.true_or, Bool.true_or]
    next =>
      have hkept' : ∀ k ∈ m :: kept, k.hashable = true := List.forall_mem_cons.2 ⟨hhashable.1, hkept⟩
      have hcons' : v.occursIn (m :: kept) = (m.alike v || v.occursIn kept) := rfl
      rw [ih hkept' hhashable.2 hgenuine.2, hcons', Bool.or_assoc, Bool.or_left_comm]

/-! ## What a collection finds -/

/-- Whether an item is found among members: it equals one of them, and it holds no byte array if
all of them can be hashed. Then looking for a writable view fails. -/
def finds (items : List Value) (v : Value) : Except Failure Bool :=
  if Value.hashableItems items && v.refusesHash then .error .writableView
  else .ok (v.occursIn items && !(Value.hashableItems items && v.holdsByteArray))

theorem contains_set (hhashable : Value.hashableItems items = true)
    (hsame : v.occursIn vs = v.occursIn items) : (set vs).contains v = finds items v := by
  rw [contains, Value.hasHash_eq, hsame, finds, hhashable, Bool.true_and, Bool.true_and]
  cases hrefuses : v.refusesHash with
  | true => rfl
  | false => rw [← Value.hashable_and_occursIn hhashable hrefuses]; rfl

theorem contains_scan (hhashable : Value.hashableItems items = false) :
    (scan items).contains v = finds items v := by
  rw [contains, finds, hhashable]
  exact congrArg _ (Bool.and_true _).symm

/-- What is made of some members is a collection that finds items among them. Only where hashing
them comes upon a writable view first, nothing is made. -/
def Collects (made : Except Failure Members) (items : List Value) : Prop :=
  if (Value.tuple items).refusesHash then made = .error .writableView
  else ∃ m : Members, made = .ok m ∧ ∀ v, m.contains v = finds items v

theorem Collects.ofList
    (h : Value.hashableItems items = true → ∀ v : Value, v.occursIn (distinct items []) = v.occursIn items) :
    Collects (ofList items) items := by
  rw [Collects, Members.ofList, Value.hasHash_eq]
  cases (Value.tuple items).refusesHash with
  | true => rfl
  | false =>
    refine ⟨_, rfl, fun v => ?_⟩
    cases hhashable : (Value.tuple items).hashable with
    | true => exact contains_set hhashable (h hhashable v)
    | false => exact contains_scan hhashable

theorem collects_ofList (hgenuine : Value.areGenuine items = true) : Collects (ofList items) items :=
  .ofList fun hhashable _ => occursIn_distinct (List.forall_mem_nil _) hhashable hgenuine

/-- A single member need not be left out of its own set. -/
theorem collects_singleton (x : Value) : Collects (ofList [x]) [x] := .ofList fun _ _ => rfl

/-- The members of a range are integers, which can all be hashed. -/
theorem collects_ofItems (helements : collection.elements = .ok items)
    (hgenuine : Value.areGenuine items = true) : Collects (ofItems collection items) items := by
  cases collection with
  | range start stop step =>
    obtain rfl := Option.some.inj (Value.items?_of_elements helements)
    have hhashable := Value.hashableItems_rangeItems start step (Value.rangeSize start stop step) 0
    have hrefuses := Value.refusesHash_of_hashable (v := .tuple _) hhashable
    rw [Collects, hrefuses, if_neg Bool.false_ne_true]
    exact ⟨_, rfl, fun v => contains_set hhashable rfl⟩
  | _ => exact collects_ofList hgenuine

end Members

/-! ## The rules -/

namespace Rule

/-- The rule is a test of an item that goes by the item alone, whatever the argument and the path
are, and that leaves everything as it was. -/
def Tests (rule : Rule) (test : Value → Except Failure Bool) : Prop :=
  ∃ m, rule = .item m ∧ ∀ (path : Path) (v arg : Value) (s : Evaluation.State),
    (Evaluation.passes path v arg m).runFrom s = ((test v).mapError .failed, s)

/-- What is made for some members is a rule that tests whether an item is found among them. Only
where hashing the members comes upon a writable view first, nothing is made. -/
def Finds (made : Except Failure Rule) (items : List Value) : Prop :=
  if (Value.tuple items).refusesHash then made = .error .writableView
  else ∃ rule : Rule, made = .ok rule ∧ rule.Tests (Members.finds items)

/-- A collection makes a rule, if its test is to look for the item in the collection. -/
theorem Finds.of_collects {made : Except Failure Members} {items : List Value}
    (test : Members → Matcher) (h : Members.Collects made items)
    (htest : ∀ m, made = .ok m → ∀ path v arg,
      Evaluation.passes path v arg (test m) = Evaluation.ofExcept (m.contains v)) :
    Finds (do return .item (test (← made))) items := by
  rw [Members.Collects] at h
  rw [Finds]
  cases hrefuses : (Value.tuple items).refusesHash with
  | true =>
    rw [hrefuses, if_pos rfl] at h
    rw [h, if_pos rfl]
    rfl
  | false =>
    rw [hrefuses, if_neg Bool.false_ne_true] at h
    obtain ⟨m, rfl, hcontains⟩ := h
    rw [if_neg Bool.false_ne_true]
    refine ⟨_, rfl, _, rfl, fun path v arg s => ?_⟩
    rw [htest m rfl, hcontains]
    cases Members.finds items v <;> rfl

/-- There is a rule for every collection that has members, and it tests whether an item is found
among them; the rule for one item tests whether an item is found among this one. Only of members
that refuse to be hashed no rule is made. -/
theorem tests_finds {collection : Value} {items : List Value} (x : Value)
    (helements : collection.elements = .ok items) (hitems : items ≠ [])
    (hgenuine : Value.areGenuine items = true) :
    Finds (makeAnyOf collection) items ∧ Finds (makeOne x) [x] := by
  have hsome : items.isEmpty = false := List.isEmpty_eq_false_iff.2 hitems
  refine ⟨?_, .of_collects (fun _ => .one x) (Members.collects_singleton x)
    fun m hm path v arg => ?_⟩
  · simp only [makeAnyOf, helements, bind, Except.bind, hsome]
    exact .of_collects .anyOf (Members.collects_ofItems helements hgenuine) fun _ _ _ _ _ => rfl
  · rw [Evaluation.passes, hm]
    rfl

/-- One as an integer, as a truth value and as a float, and a float that is no number. -/
def ones : List Value := [.int 1, .bool true, .float ⟨0x3ff0000000000000⟩, .nan ⟨0x7ff8000000000000⟩ 0]

theorem tests_finds_ones :
    (Value.list ones).elements = .ok ones ∧ ones ≠ [] ∧ Value.areGenuine ones = true ∧
      Finds (makeAnyOf (.list ones)) ones ∧ Finds (makeOne (.tuple ones)) [.tuple ones] :=
  have hones : ones ≠ [] := List.cons_ne_nil _ _
  have hgenuine : Value.areGenuine ones = true := by decide
  ⟨rfl, hones, hgenuine, tests_finds (.tuple ones) rfl hones hgenuine⟩

/-- A byte array is not found in a set, though it equals the member, and neither is it found to be
the one item. Beside a member that cannot be hashed, the same member is found to equal it. -/
theorem not_found_byteArray :
    (Value.byteArray [97]).occursIn [.bytes [97]] = true ∧
      (∃ m, makeAnyOf (.list [.bytes [97]]) = .ok (.item m) ∧
        ∀ path arg s, (Evaluation.passes path (.byteArray [97]) arg m).runFrom s = (.ok false, s)) ∧
      (∃ m, makeOne (.bytes [97]) = .ok (.item m) ∧
        ∀ path arg s, (Evaluation.passes path (.byteArray [97]) arg m).runFrom s = (.ok false, s)) ∧
      ∃ m, makeAnyOf (.list [.bytes [97], .list []]) = .ok (.item m) ∧
        ∀ path arg s, (Evaluation.passes path (.byteArray [97]) arg m).runFrom s = (.ok true, s) :=
  ⟨rfl, ⟨_, rfl, fun _ _ _ => rfl⟩, ⟨_, rfl, fun _ _ _ => rfl⟩, _, rfl, fun _ _ _ => rfl⟩

end Rule
end Backtrack
