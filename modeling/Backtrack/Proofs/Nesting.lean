/-
A recursive grammar and what it undoes. Trees of lists with integers at their leaves are written with
brackets and commas, and read by a definition that refers to itself: as a list of what it reads
itself, or as an integer. Whatever tree was written is read again, whole, and nothing behind it.
-/
import Backtrack.Function.Stock
import Backtrack.Grammar
import Backtrack.Proofs.Integer
import Backtrack.Proofs.Parse
namespace Backtrack

/-! ## Trees -/

/-- A tree of lists with integers at its leaves. -/
inductive Tree where
  | leaf (z : Int)
  | node (children : List Tree)

namespace Tree

mutual

/-- The value that a tree is: an integer, or a list of such values. -/
def toValue : Tree → Value
  | leaf z => .int z
  | node children => .list (toValues children)

/-- The values that trees are. -/
def toValues : List Tree → List Value
  | [] => []
  | t :: ts => toValue t :: toValues ts

end

mutual

/-- The text that writes a tree: integers in decimal, lists in brackets and with commas between
their items, and no spaces. -/
def render : Tree → Text
  | leaf z => Numeral.ofInt z
  | node children => 0x5b :: (Text.join [0x2c] (renderAll children) ++ [0x5d])

/-- The texts that write trees. -/
def renderAll : List Tree → List Text
  | [] => []
  | t :: ts => render t :: renderAll ts

end

mutual

/-- The integers at the leaves. -/
def leaves : Tree → List Int
  | leaf z => [z]
  | node children => leavesOfAll children

/-- The integers at the leaves of trees. -/
def leavesOfAll : List Tree → List Int
  | [] => []
  | t :: ts => leaves t ++ leavesOfAll ts

end

end Tree

/-- A list in brackets of what the rule reads, with commas between, or an integer; the mapper makes
a value of the items and the commas. -/
def nested (value : Rule) (fn : Mapper) : Rule :=
  .or [.map .total
      (.and [.discard (Lexeme.character 0x5b),
        .punctuated value (Lexeme.character 0x2c) 0 none,
        .discard (Lexeme.character 0x5d)])
      fn false,
    Lexeme.integer]

/-- Behind the first of some joined texts each of the others has a separator in front. -/
theorem Text.join_cons (separator t : Text) (ts : List Text) :
    join separator (t :: ts) = t ++ ts.flatMap (separator ++ ·) := by
  induction ts generalizing t with
  | nil => simp [join]
  | cons u ts ih => simp [join, ih]

namespace Tree

/-- The text of further items of a list, each with a comma in front. -/
def renderMore (ts : List Tree) : Text := (renderAll ts).flatMap ([0x2c] ++ ·)

theorem renderMore_cons (t : Tree) (ts : List Tree) :
    renderMore (t :: ts) = 0x2c :: (t.render ++ renderMore ts) := by
  simp [renderMore, renderAll]

theorem render_node_cons (t : Tree) (ts : List Tree) :
    (node (t :: ts)).render = 0x5b :: (t.render ++ renderMore ts ++ [0x5d]) := by
  rw [render, renderAll, Text.join_cons, renderMore]

theorem mem_leaves_node {t : Tree} {z : Int} (hz : z ∈ t.leaves) : ∀ {children : List Tree},
    t ∈ children → z ∈ (node children).leaves
  | [], ht => by cases ht
  | u :: us, ht => by
    rw [leaves, leavesOfAll]
    rcases List.mem_cons.1 ht with rfl | ht
    · exact List.mem_append_left _ hz
    · exact List.mem_append_right _ (mem_leaves_node hz ht)

/-- Behind an item comes a comma or the end of the list. -/
theorem head?_renderMore (ts : List Tree) (rest : Text) :
    ∀ c ∈ (renderMore ts ++ 0x5d :: rest).head?, c = 0x2c ∨ c = 0x5d := by
  cases ts with
  | nil => simp [renderMore, renderAll]
  | cons t ts => simp [renderMore_cons]

end Tree

namespace Scan

open Lexeme (character)

variable {data : Sequence} {g : Grammar} {arg : Value} {id : Nat} {fn : Mapper} {i : Nat}
  {rest : Text}

/-! ## One level -/

/-- No list where no bracket opens. -/
theorem reads_list_of_ne {value : Rule} (h : data.Spells i rest) (hne : rest.head? ≠ some 0x5b) :
    Reads data g arg (.map .total (.and [.discard (character 0x5b),
      .punctuated value (character 0x2c) 0 none, .discard (character 0x5d)]) fn false)
      i .noMatch i :=
  (ReadsAll.cons_of_mismatch (reads_character_of_ne h hne).discard).and.map_of_mismatch

/-- What stands between the brackets of a list. -/
theorem reads_list {value : Rule} {vs ss : List Value} {j : Nat}
    (hfn : ∀ elements separators, fn.run [elements, separators] = .ok elements)
    (hopen : data.Spells i (0x5b :: rest))
    (hitems : Reads data g arg (.punctuated value (character 0x2c) 0 none) (i + 1)
      (.success [.list vs, .list ss]) j)
    {rest' : Text} (hclose : data.Spells j (0x5d :: rest')) :
    Reads data g arg (nested value fn) i (.single (.list vs)) (j + 1) := by
  -- the brackets have no values, so that the mapper gets the items and the commas
  have hall := (ReadsAll.cons (reads_character hopen).discard
    (.cons hitems (.cons (reads_character hclose).discard .nil))).and
  refine ReadsFirst.or (.head (hall.map ?_))
  rw [Conversion.apply, show [] ++ [] ++ [Value.list vs, .list ss] ++ [] = [.list vs, .list ss] from rfl,
    hfn]
  rfl

/-- Nothing is read where a list ends. -/
theorem reads_nested_of_close (hg : g.rule? id = some (nested (.reference (some id) 1) fn))
    (h : data.Spells i (0x5d :: rest)) :
    Reads data g arg (.reference (some id) 1) i .noMatch i :=
  .reference hg <| ReadsFirst.or <| .tail (reads_list_of_ne h (by simp)) <|
    .tail (reads_integer_of_ends h (by simp [EndsNumeral, Text.isDigit]) (by simp)) .nil

/-! ## All levels -/

/-- No numeral begins with a bracket. -/
theorem head?_ofInt_ne (z : Int) (rest : Text) : (Numeral.ofInt z ++ rest).head? ≠ some 0x5b := by
  rw [Numeral.ofInt]
  split
  · simp
  · intro hhead
    cases Numeral.isDigit_of_head?_write_append hhead

theorem endsNumeral_renderMore (ts : List Tree) (rest : Text) :
    EndsNumeral (Tree.renderMore ts ++ 0x5d :: rest) := by
  intro c hc
  rcases Tree.head?_renderMore ts rest c hc with rfl | rfl <;> rfl

theorem unmarked_renderMore (ts : List Tree) (rest : Text) :
    Unmarked (0x30 :: (Tree.renderMore ts ++ 0x5d :: rest)) := by
  refine .zero fun c hc => ?_
  rcases Tree.head?_renderMore ts rest c hc with rfl | rfl <;> decide

/-- Wherever the tree was written, the definition reads it, if nothing behind it goes on with a
numeral. -/
def ReadsBack (data : Sequence) (g : Grammar) (arg : Value) (id : Nat) (t : Tree) : Prop :=
  ∀ (i : Nat) (rest : Text), data.Spells i (t.render ++ rest) → EndsNumeral rest →
    (t = .leaf 0 → Unmarked (0x30 :: rest)) →
    Reads data g arg (.reference (some id) 1) i (.single t.toValue) (i + t.render.length)

/-- An item of a list, with whatever items behind it. -/
theorem ReadsBack.item {t : Tree} {ts : List Tree} (ht : ReadsBack data g arg id t)
    (h : data.Spells i (t.render ++ (Tree.renderMore ts ++ 0x5d :: rest))) :
    Reads data g arg (.reference (some id) 1) i (.single t.toValue) (i + t.render.length) :=
  ht i _ h (endsNumeral_renderMore ts rest) fun _ => unmarked_renderMore ts rest

/-- The further items of a list are read with their commas. -/
theorem readsPairs_renderMore : ∀ {ts : List Tree} {i : Nat}, (∀ t ∈ ts, ReadsBack data g arg id t) →
    data.Spells i (Tree.renderMore ts ++ 0x5d :: rest) →
    ∃ ss, ReadsPairs data g arg (.reference (some id) 1) (character 0x2c) i ss
      (Tree.toValues ts) (i + (Tree.renderMore ts).length)
  | [], i, _, _ => ⟨[], .nil i⟩
  | t :: ts, i, hts, h => by
    rw [Tree.renderMore_cons, List.cons_append, List.append_assoc] at h
    have hitem := (hts t List.mem_cons_self).item h.tail
    obtain ⟨ss, hpairs⟩ := readsPairs_renderMore
      (fun t' ht' => hts t' (List.mem_cons_of_mem t ht')) h.tail.append
    have hend : i + (Tree.renderMore (t :: ts)).length =
        i + 1 + t.render.length + (Tree.renderMore ts).length := by
      simp [Tree.renderMore_cons]
      omega
    rw [hend, Tree.toValues]
    exact ⟨.str [0x2c] :: ss, .cons (reads_character h) hitem hpairs⟩

section

variable (hg : g.rule? id = some (nested (.reference (some id) 1) fn))

include hg

theorem readsBack_leaf {z : Int} (hz : z.natAbs < 10 ^ Lexeme.maxDecimalDigits) :
    ReadsBack data g arg id (.leaf z) := by
  intro i rest h hrest hzero
  rw [Tree.render] at h ⊢
  have hinteger : Reads data g arg Lexeme.integer i (.single (.int z)) _ :=
    reads_integer_ofInt h hz hrest fun hz => hzero (by rw [hz])
  exact .reference hg (ReadsFirst.or (.tail (reads_list_of_ne h (head?_ofInt_ne z rest))
    (.head hinteger)))

variable (hfn : ∀ elements separators, fn.run [elements, separators] = .ok elements)

include hfn

theorem readsBack_node {children : List Tree} (hchildren : ∀ t ∈ children, ReadsBack data g arg id t) :
    ReadsBack data g arg id (.node children) := by
  intro i rest h _ _
  cases children with
  | nil =>
    -- no item comes where the list ends, and none has to come
    rw [Tree.render, Tree.renderAll, Text.join] at h ⊢
    have hnone : Reads data g arg (.reference (some id) 1) (i + 1) .noMatch (i + 1) :=
      reads_nested_of_close hg h.tail
    exact .reference hg (reads_list hfn h hnone.punctuated_of_mismatch h.tail)
  | cons t ts =>
    rw [Tree.render_node_cons, List.cons_append, List.append_assoc, List.append_assoc] at h
    have hitem := (hchildren t List.mem_cons_self).item h.tail
    obtain ⟨ss, hpairs⟩ := readsPairs_renderMore
      (fun t' ht' => hchildren t' (List.mem_cons_of_mem t ht')) h.tail.append
    -- the bracket behind the last item is no comma
    have hclose := h.tail.append.append
    have hitems := hpairs.punctuated hitem (reads_character_of_ne hclose (by simp))
    have hend : i + (Tree.node (t :: ts)).render.length =
        i + 1 + t.render.length + (Tree.renderMore ts).length + 1 := by
      simp [Tree.render_node_cons]
      omega
    rw [hend, Tree.toValue, Tree.toValues]
    exact .reference hg (reads_list hfn h hitems hclose)

/-- Every tree is read back, as deep as it may be. -/
theorem readsBack : ∀ t : Tree, (∀ z ∈ t.leaves, z.natAbs < 10 ^ Lexeme.maxDecimalDigits) →
    ReadsBack data g arg id t
  | .leaf z, hleaves => readsBack_leaf hg (hleaves z (by simp [Tree.leaves]))
  | .node children, hleaves => readsBack_node hg hfn fun t ht =>
    readsBack t fun z hz => hleaves z (Tree.mem_leaves_node hz ht)

end

end Scan

/-! ## Round trip -/

/-- Parsing the text of a tree gives the tree and ends behind the text, whatever text follows, unless
that goes on with a numeral: with a decimal digit, or with the mark of a base behind a tree that is
nothing but a zero. -/
theorem Tree.parse_render {g : Grammar} {id : Nat} {fn : Mapper}
    (hg : g.rule? id = some (nested (.reference (some id) 1) fn))
    (hfn : ∀ elements separators, fn.run [elements, separators] = .ok elements) (t : Tree)
    (hleaves : ∀ z ∈ t.leaves, z.natAbs < 10 ^ Lexeme.maxDecimalDigits) {rest : Text}
    (hrest : ∀ c ∈ rest.head?, Text.isDigit c = false)
    (hzero : t = .leaf 0 → ∀ c ∈ rest.head?, c ∉ Text.ofString "box") {path : Path} {s : Source}
    (hs : s.Fresh ((t.render ++ rest).map fun c => .str [c]) path) (arg : Value) :
    ∃ least, ∀ fuel ≥ least, ∃ u,
      (Evaluation.parseOperand g path fuel (.rule (.reference (some id) 1)) .root arg).runFrom
        (.ofSource s) = (.ok t.toValue, u) ∧ u.source.position = t.render.length := by
  refine Scan.Reads.parse hs rfl fun data hdata => ?_
  have hspells : data.Spells 0 (t.render ++ rest) := by
    rw [Sequence.Spells, List.drop_zero, hdata]
  have hread : Scan.ReadsBack data g arg id t := Scan.readsBack hg hfn t hleaves
  simpa using hread 0 rest hspells hrest fun hleaf => .zero (hzero hleaf)

/-- The grammar of such trees. -/
def treeGrammar : Grammar :=
  ⟨#[⟨1, some (nested (.reference (some 0) 1) (.binary "first" fun items _ => .ok items))⟩]⟩

example : (Grammar.empty.declare 1).define 0
    (.rule (nested (.reference (some 0) 1) (.binary "first" fun items _ => .ok items))) =
      .ok treeGrammar := rfl

theorem Tree.parse_render_treeGrammar :
    ∃ least, ∀ fuel ≥ least, ∃ u,
      (Evaluation.parseOperand treeGrammar .suspending fuel (.rule (.reference (some 0) 1)) .root
        .none).runFrom
        (.ofSource (.ofFeed ((["[0,[],", "[-12", ",7]],0"].map Text.ofString).map
          fun chunk => .value (.str chunk)) true .suspending)) =
        (.ok (.list [.int 0, .list [], .list [.int (-12), .int 7]]), u) ∧
      u.source.position = 14 := by
  have hgrammar : treeGrammar.rule? 0 = some (nested (.reference (some 0) 1)
      (.binary "first" fun items _ => .ok items)) := rfl
  have hrender : (node [leaf 0, node [], node [leaf (-12), leaf 7]]).render =
      Text.ofString "[0,[],[-12,7]]" := by cbv
  have hleaves : ∀ z ∈ (node [leaf 0, node [], node [leaf (-12), leaf 7]]).leaves,
      z.natAbs < 10 ^ Lexeme.maxDecimalDigits := by
    intro z hz
    have hsmall : z.natAbs < 10 ^ 2 := by
      simp only [leaves, leavesOfAll, List.cons_append, List.nil_append, List.mem_cons,
        List.not_mem_nil, or_false] at hz
      rcases hz with rfl | rfl | rfl <;> decide
    exact hsmall.trans_le (Nat.pow_le_pow_right (by omega) (by decide))
  have hs : (Source.ofFeed ((["[0,[],", "[-12", ",7]],0"].map Text.ofString).map
      fun chunk => .value (.str chunk)) true .suspending).Fresh
      (((node [leaf 0, node [], node [leaf (-12), leaf 7]]).render ++ Text.ofString ",0").map
        fun c => .str [c]) .suspending := by
    rw [hrender]
    exact .feed (Feeds.ofTexts (["[0,[],", "[-12", ",7]],0"].map Text.ofString)) fun h => h
  have hparse := Tree.parse_render hgrammar (fun _ _ => rfl) _ hleaves (by decide) (by simp) hs .none
  rwa [hrender] at hparse

end Backtrack
