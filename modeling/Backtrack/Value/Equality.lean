/-
Equality of values and which values can be members of a set. Truth values, integers and floats
compare as numbers; byte strings by content; a success equals a tuple with equal items; ranges by
their members; dictionaries whatever the order of their entries. A float that is no number equals
nothing, but a collection is found to hold it all the same.
-/
import Backtrack.Value
namespace Backtrack.Value

/-- The number that a value is: truth values are zero and one. -/
inductive Number where
  | whole (n : Int)
  | floating (x : Binary64)

def number? : Value → Option Number
  | bool b => some (.whole (if b then 1 else 0))
  | int n => some (.whole n)
  | float x | nan x _ => some (.floating x)
  | _ => Option.none

def Number.eqv : Number → Number → Bool
  | whole a, whole b => a == b
  | whole a, floating y => y.equalsInt a
  | floating x, whole b => x.equalsInt b
  | floating x, floating y => x.eqv y

def numbersEqual (a b : Value) : Bool :=
  match a.number?, b.number? with
  | some m, some n => m.eqv n
  | _, _ => false

/-- Equality of two ranges as sequences of members. -/
def rangesEqual (start stop step : Int) : Value → Bool
  | range start' stop' step' =>
    let size := rangeSize start stop step
    size == rangeSize start' stop' step' &&
      (size == 0 || (start == start' && (size == 1 || step == step')))
  | _ => false

/-- The content of a byte string or of a view of one. -/
def content? : Value → Option (List Nat)
  | bytes content | byteArray content => some content
  | byteView view => some view.content
  | _ => Option.none

def tupleItems? : Value → Option (List Value)
  | tuple items | values items => some items
  | _ => Option.none

mutual

/-- Equality of values. Where `identity` counts, a value also equals itself if it is a float that
is no number; it counts for whatever lies in a list, a tuple or a dictionary. -/
def equal (identity : Bool) : Value → Value → Bool
  | none, b => (b matches none)
  | bool a, b => numbersEqual (bool a) b
  | int a, b => numbersEqual (int a) b
  | float x, b => numbersEqual (float x) b
  -- of two floats that are no numbers only the marks count
  | nan _ mark, b => match b with
    | nan _ mark' => identity && mark == mark'
    | _ => false
  | str s, b => match b with
    | str t => s == t
    | _ => false
  | list xs, b => match b with
    | list ys => equalItems xs ys
    | _ => false
  | tuple xs, b => match b.tupleItems? with
    | some ys => equalItems xs ys
    | Option.none => false
  | values xs, b => match b.tupleItems? with
    | some ys => equalItems xs ys
    | Option.none => false
  | bytes c, b => b.content? == some c
  | byteArray c, b => b.content? == some c
  | byteView view, b => b.content? == some view.content
  | range start stop step, b => rangesEqual start stop step b
  | dictionary es, b => match b with
    | dictionary fs => es.length == fs.length && equalEntries es fs
    | _ => false
  | mismatch, b => (b matches mismatch)
  | namedMismatch l, b => match b with
    | namedMismatch m => equal identity l m
    | _ => false

def equalItems : List Value → List Value → Bool
  | [], [] => true
  | x :: xs, y :: ys => equal true x y && equalItems xs ys
  | _, _ => false

/-- Whether each entry's key stands in `fs`, with an equal value. -/
def equalEntries : List (Value × Value) → List (Value × Value) → Bool
  | [], _ => true
  | (k, v) :: es, fs =>
    (match fs.find? fun f => equal true k f.1 with
      | some f => equal true v f.2
      | Option.none => false) && equalEntries es fs

end

def eqv (v w : Value) : Bool := v.equal false w

/-- Whether two values are equal or one and the same. -/
def alike (v w : Value) : Bool := v.equal true w

mutual

/-- The value that cannot be hashed within a value, the first one found: a list, a dictionary, a
byte array or a writable view of one. -/
def unhashable? : Value → Option Value
  | list items => some (list items)
  | dictionary entries => some (dictionary entries)
  | byteArray content => some (byteArray content)
  | byteView view => if view.writable then some (byteView view) else Option.none
  | tuple items | values items => unhashableItem? items
  | namedMismatch label => unhashable? label
  | _ => Option.none

def unhashableItem? : List Value → Option Value
  | [] => Option.none
  | v :: vs => (unhashable? v).or (unhashableItem? vs)

end

/-- Whether a value can be a member of a set or a key. -/
def hashable (v : Value) : Bool := v.unhashable?.isNone

def hashableItems (vs : List Value) : Bool := (unhashableItem? vs).isNone

theorem hashableItems_cons (v : Value) (vs : List Value) :
    hashableItems (v :: vs) = (v.hashable && hashableItems vs) := by
  rw [hashableItems, unhashableItem?, hashable, hashableItems]
  cases v.unhashable? <;> rfl

/-- Whether a list holds `v` or a value equal to it. -/
def occursIn (v : Value) (items : List Value) : Bool := items.any fun m => m.alike v

/-- A dictionary with one more entry: a key that it has keeps its place and takes the value. -/
def putEntry (key value : Value) : List (Value × Value) → List (Value × Value)
  | [] => [(key, value)]
  | (k, v) :: rest =>
    if k.alike key then (k, value) :: rest else (k, v) :: putEntry key value rest

end Backtrack.Value
