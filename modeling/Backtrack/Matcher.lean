/-
Tests of a single item: by a predicate or another test, by its opposite, or by equality with a
member. A collection of members whose items can all be hashed is a set, in which no item without a
hash is ever found; any other collection is looked through one by one. Only a writable view fails
where it is to be hashed.
-/
import Backtrack.Function
namespace Backtrack

/-- The members that an item may equal. -/
inductive Members where
  | set (distinct : List Value)
  | scan (items : List Value)
deriving Inhabited

namespace Members

/-- The items without those that equal an earlier one. -/
def distinct : List Value → List Value → List Value
  | [], kept => kept.reverse
  | v :: vs, kept => distinct vs (if v.occursIn kept then kept else v :: kept)

/-- The collection of some items. Hashing them meets the same failure as hashing a tuple of them. -/
def ofList (items : List Value) : Except Failure Members := do
  return if ← (Value.tuple items).hasHash then set (distinct items []) else scan items

/-- The collection of the items of a value. Those of a range all differ. -/
def ofItems (v : Value) (items : List Value) : Except Failure Members :=
  match v with
  | .range .. => .ok (set items)
  | _ => ofList items

def toList : Members → List Value
  | set items => items
  | scan items => items

/-- Whether an item is found among the members. What has no hash is in no set. -/
def contains : Members → Value → Except Failure Bool
  -- the hash comes first, whatever the members are
  | set items, v => do return (← v.hasHash) && v.occursIn items
  | scan items, v => .ok (v.occursIn items)

/-- The shown forms of the members in their order. -/
def shown (m : Members) : List Text := (Value.displayItems m.toList).mergeSort Text.le

end Members

inductive Matcher where
  | is (p : Predicate)
  | isMatch (m : Matcher)
  | not (p : Predicate)
  | notMatch (m : Matcher)
  | anyOf (members : Members)
  | one (item : Value)
  | abstract

namespace Matcher

def typeName : Matcher → Text
  | is _ | isMatch _ => "Is"
  | not _ | notMatch _ => "Not"
  | anyOf _ => "AnyOf"
  | one _ => "One"
  | abstract => "ItemRule"

/-- The name of the type that says how the test is made. -/
def testOwner : Matcher → Text
  | one _ => "AnyOf"
  | m => m.typeName

def display : Matcher → Text
  | is p => Text.concat ["Is(", p.shown, ")"]
  | isMatch m =>
    Text.concat ["Is(<bound method ", m.testOwner, ".test of ", display m, ">)"]
  | not p => Text.concat ["Not(", p.shown, ")"]
  | notMatch m => Text.concat ["Not(", display m, ")"]
  | anyOf members =>
    Text.concat ["AnyOf(", Text.bracketed "[" "]" members.shown, ")"]
  | one item => Text.concat ["One(", item.display, ")"]
  | abstract => "<forkparse.ops.ItemRule object>"

def isShowable : Matcher → Bool
  | is _ | not _ | abstract => true
  | isMatch m | notMatch m => isShowable m
  | anyOf members => Value.areShowable members.toList
  | one item => item.isShowable

end Matcher
end Backtrack
