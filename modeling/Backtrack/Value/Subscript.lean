/-
Looking up in a value by a key: an entry of a dictionary, or an item of a sequence by its index,
where a negative index counts from the end and truth values count as integers.
-/
import Backtrack.Failure
import Backtrack.Value.Sequence
namespace Backtrack.Value

/-- The failure of looking up in a value by a key that is no index. -/
def notIndex (v key : Value) : Failure :=
  let integersOrSlices (kind : Text) : Text :=
    Text.concat [kind, " indices must be integers or slices, not ", key.typeName]
  .typeError <|
    match v with
    | str _ => Text.concat ["string indices must be integers, not '", key.typeName, "'"]
    | values _ => integersOrSlices "tuple"
    | bytes _ => integersOrSlices "byte"
    | byteView _ => "memoryview: invalid slice key"
    | _ => integersOrSlices v.typeName

def outOfRange (v : Value) : Failure :=
  .withText .indexError <|
    match v with
    | str _ => "string index out of range"
    | values _ => "tuple index out of range"
    | bytes _ => "index out of range"
    | byteView _ => "index out of bounds on dimension 1"
    | range .. => "range object index out of range"
    | _ => Text.concat [v.typeName, " index out of range"]

/-- The item of a sequence at an index. -/
def itemAt (v : Value) (content : Sequence) (index : Int) : Except Failure Value :=
  let i : Int := if index < 0 then index + content.size else index
  -- a range computes its members, and takes an index of any size
  if !isIndex index && !(v matches range ..) then .error (.indexTooLarge .indexError)
  else if i < 0 then .error v.outOfRange
  else
    match content.get? i.toNat with
    | some item => .ok item
    | Option.none => .error v.outOfRange

def subscript (v key : Value) : Except Failure Value :=
  match v with
  | dictionary entries =>
    match entries.find? fun e => e.1.alike key with
    | some e => .ok e.2
    | Option.none => .error (.plain .keyError [.value key])
  | _ =>
    match Sequence.ofValue? v, key.number? with
    | Option.none, _ => .error (.notSubscriptable v)
    | some content, some (.whole n) => v.itemAt content n
    | some _, _ => .error (v.notIndex key)

end Backtrack.Value
