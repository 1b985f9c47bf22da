/-
What rules read of a text. From some index on an input may spell a text, one character an item; what
characters, sets of characters and literals read there is told by how the text begins.
-/
import Backtrack.Lexeme.Basic
import Backtrack.Proofs.Membership
import Backtrack.Proofs.Reading
namespace Backtrack

/-! ## Spelled texts -/

/-- What is left of the input from the index on are the characters of the text. -/
def Sequence.Spells (data : Sequence) (i : Nat) (t : Text) : Prop :=
  data.toList.drop i = t.map fun c => .str [c]

namespace Sequence.Spells

variable {data : Sequence} {i c : Nat} {s t : Text}

theorem get?_nil (h : data.Spells i []) : data.get? i = none := by
  have hend : data.toList.length ≤ i := by simpa [Spells] using h
  rw [get?_eq_getElem?_toList, List.getElem?_eq_none hend]

theorem get?_cons (h : data.Spells i (c :: t)) : data.get? i = some (.str [c]) := by
  have hhead := congrArg List.head? h
  rwa [List.head?_drop, ← get?_eq_getElem?_toList] at hhead

theorem append (h : data.Spells i (s ++ t)) : data.Spells (i + s.length) t := by
  have hdrop := congrArg (List.drop s.length) h
  rw [List.drop_drop] at hdrop
  simpa [Spells] using hdrop

theorem tail (h : data.Spells i (c :: t)) : data.Spells (i + 1) t := append (s := [c]) h

end Sequence.Spells

/-! ## Sets of characters -/

theorem Value.eqv_character (c d : Nat) : (Value.str [c]).eqv (.str [d]) = (c == d) := by
  simp [Value.eqv, Value.equal]

theorem Value.occursIn_characters (c : Nat) (t : Text) :
    (Value.str [c]).occursIn (t.map fun d => .str [d]) = t.contains c := by
  induction t with
  | nil => rfl
  | cons d t ih =>
    rw [List.map_cons, Value.occursIn, List.any_cons, List.contains_cons, ← ih, Value.occursIn]
    congr 1
    simp [Value.alike, Value.equal, Bool.beq_comm]

namespace Members

/-- The collection of the characters of a text. -/
def characters (t : Text) : Members := set (distinct (t.map fun d => .str [d]) [])

variable (t : Text) (c : Nat)

theorem hashableItems_characters : Value.hashableItems (t.map fun d => .str [d]) = true :=
  Value.hashableItems_iff.2 fun v hv => by
    obtain ⟨d, -, rfl⟩ := List.mem_map.1 hv
    rfl

theorem ofList_characters : ofList (t.map fun d => .str [d]) = .ok (characters t) := by
  have hhashable : (Value.tuple (t.map fun d => .str [d])).hashable = true := hashableItems_characters t
  rw [ofList, Value.hasHash_eq, Value.refusesHash_of_hashable hhashable, hhashable]
  rfl

/-- A set of characters contains those that it was made of. -/
theorem contains_characters : (characters t).contains (.str [c]) = .ok (t.contains c) := by
  have hgenuine : Value.areGenuine (t.map fun d => .str [d]) = true :=
    Value.areGenuine_iff.2 fun v hv => by
      obtain ⟨d, -, rfl⟩ := List.mem_map.1 hv
      rfl
  have hdistinct := occursIn_distinct (v := .str [c]) (List.forall_mem_nil _) (hashableItems_characters t)
    hgenuine
  rw [← Value.occursIn_characters]
  exact congrArg _ hdistinct

/-- The one character is found where nothing else is in the collection. -/
theorem found_character (d : Nat) : (ofList [.str [c]] >>= (·.contains (.str [d]))) = .ok (d == c) := by
  rw [show [Value.str [c]] = [c].map fun d => .str [d] from rfl, ofList_characters]
  exact (contains_characters [c] d).trans (congrArg _ (Bool.or_false _))

end Members

namespace Scan

open Lexeme (character oneOf)

variable {data : Sequence} {g : Grammar} {arg : Value} {i c d : Nat} {s t u : Text}

/-! ## Characters -/

/-- A character of a set. -/
theorem reads_oneOf (h : data.Spells i (c :: t)) (hc : c ∈ s) :
    Reads data g arg (oneOf (s.map fun d => .str [d])) i (.single (.str [c])) (i + 1) := by
  refine reads_item h.get?_cons ?_
  rw [Matcher.accepts, ← Members.characters, Members.contains_characters, List.contains_iff_mem.2 hc]

/-- No character of a set: the text ends, or goes on otherwise. -/
theorem reads_oneOf_of_not_mem (h : data.Spells i t) (hhead : ∀ c ∈ t.head?, c ∉ s) :
    Reads data g arg (oneOf (s.map fun d => .str [d])) i .noMatch i := by
  cases t with
  | nil => exact reads_item_of_end h.get?_nil
  | cons c t =>
    refine reads_item_of_rejected h.get?_cons ?_
    rw [Matcher.accepts, ← Members.characters, Members.contains_characters]
    exact congrArg _ (by simpa using hhead c rfl)

theorem reads_character (h : data.Spells i (c :: t)) :
    Reads data g arg (character c) i (.single (.str [c])) (i + 1) := by
  refine reads_item h.get?_cons ?_
  rw [Matcher.accepts, Members.found_character, beq_self_eq_true]

theorem reads_character_of_ne (h : data.Spells i t) (hhead : t.head? ≠ some c) :
    Reads data g arg (character c) i .noMatch i := by
  cases t with
  | nil => exact reads_item_of_end h.get?_nil
  | cons d t =>
    refine reads_item_of_rejected h.get?_cons ?_
    rw [Matcher.accepts, Members.found_character]
    simpa using hhead

/-- A character that is in no set. -/
theorem reads_noneOf (h : data.Spells i (c :: t)) (hc : c ∉ s) :
    Reads data g arg (.item (.notMatch (.anyOf (.characters s)))) i
      (.single (.str [c])) (i + 1) := by
  refine reads_item h.get?_cons ?_
  rw [Matcher.accepts, Matcher.accepts, Members.contains_characters]
  simpa [Functor.map, Except.map] using hc

/-- No character outside a set: the text ends, or goes on with one of the set. -/
theorem reads_noneOf_of_mem (h : data.Spells i t) (hhead : ∀ c ∈ t.head?, c ∈ s) :
    Reads data g arg (.item (.notMatch (.anyOf (.characters s)))) i .noMatch i := by
  cases t with
  | nil => exact reads_item_of_end h.get?_nil
  | cons c t =>
    refine reads_item_of_rejected h.get?_cons ?_
    rw [Matcher.accepts, Matcher.accepts, Members.contains_characters]
    simpa [Functor.map, Except.map] using hhead c rfl

theorem reads_anything (h : data.Spells i (c :: t)) :
    Reads data g arg Lexeme.anything i (.single (.str [c])) (i + 1) :=
  reads_item h.get?_cons rfl

theorem reads_anything_of_end (h : data.Spells i []) : Reads data g arg Lexeme.anything i .noMatch i :=
  reads_item_of_end h.get?_nil

/-- Characters of a set, as many as come one after another. -/
theorem readsMany_oneOf (h : data.Spells i (t ++ u)) (hmem : ∀ c ∈ t, c ∈ s) :
    ReadsMany data g arg (oneOf (s.map fun d => .str [d])) i (t.map fun c => .str [c])
      (i + t.length) := by
  induction t generalizing i with
  | nil => exact .nil i
  | cons c t ih =>
    have hrest := ih h.tail fun d hd => hmem d (List.mem_cons_of_mem c hd)
    rw [List.length_cons, Nat.add_comm t.length, ← Nat.add_assoc]
    exact .cons (reads_oneOf h (hmem c List.mem_cons_self)) hrest

/-! ## Values -/

/-- Values that a function makes one of. -/
theorem Reads.mapped {r : Rule} {run : List Value → Except Failure Value} {vs : List Value} {v : Value}
    {j : Nat} (h : Reads data g arg r i (.success vs) j) (hrun : run vs = .ok v) :
    Reads data g arg (Lexeme.mapped r run) i (.single v) j := by
  refine h.map ?_
  rw [Conversion.apply, Mapper.anonymous]
  dsimp only
  rw [hrun]
  rfl

/-- Values whose texts are joined. -/
theorem Reads.joined {r : Rule} {vs : List Value} {j : Nat} (h : Reads data g arg r i (.success vs) j)
    (hjoin : Value.joinParts vs = .ok t) : Reads data g arg (Lexeme.joined r) i (.single (.str t)) j :=
  h.mapped (by rw [hjoin]; rfl)

/-! ## Literals -/

/-- Looking ahead compares what is spelled with what is expected. -/
theorem runFrom_lookAhead {expected : Sequence} : ∀ {s t : Text} {k : Nat}, expected.Spells k s →
    data.Spells (i + k) t → (lookAhead (.fixed data) expected k s.length).runFrom ⟨i, ()⟩ =
      (.ok (s.isPrefixOf t), ⟨i, ()⟩)
  | [], t, k, _, _ => by rw [List.isPrefixOf]; rfl
  | c :: s, [], k, hs, ht => by
    simp only [List.length_cons, lookAhead, runFrom_bind, runFrom_look, Medium.fixed, ht.get?_nil,
      Except.mapError]
    rfl
  | c :: s, d :: t, k, hs, ht => by
    have hrest := runFrom_lookAhead hs.tail ht.tail
    simp only [List.length_cons, lookAhead, runFrom_bind, runFrom_look, Medium.fixed, ht.get?_cons,
      Except.mapError, hs.get?_cons, Value.eqv_character, List.isPrefixOf, Bool.beq_comm (a := d)]
    cases c == d with
    | true =>
      rw [if_pos rfl, Bool.true_and]
      exact hrest
    | false => rfl

/-- A literal is read where the text begins with it. -/
theorem reads_literal (h : data.Spells i t) :
    Reads data g arg (.literal (.str s)) i
      (if s.isPrefixOf t then .single (.str s) else .noMatch)
      (if s.isPrefixOf t then i + s.length else i) := by
  refine .of_succ (.of_runFrom ?_)
  show (literal (.fixed data) (.str s)).runFrom _ = _
  obtain ⟨expected, hexpected, hspells, hsize⟩ : ∃ expected, Sequence.ofElements (.str s) = .ok expected ∧
      expected.Spells 0 s ∧ expected.size = s.length :=
    ⟨_, rfl, by simp [Sequence.Spells, Sequence.toList], by simp [Sequence.size]⟩
  have hahead := runFrom_lookAhead hspells (i := i) h
  rw [literal, hexpected, runFrom_bind, runFrom_ofExcept]
  simp only [Except.mapError, runFrom_bind, hsize, hahead]
  cases s.isPrefixOf t <;> rfl

end Scan
end Backtrack
