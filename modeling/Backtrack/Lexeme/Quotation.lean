/-
Ready rules for quoted strings, with escapes or raw. The closing quote is the opening one; once
the opening quote is read, a missing closing quote fails hard.
-/
import Backtrack.Lexeme.Number
import Backtrack.Rule.Construct
import Backtrack.Value.Subscript
namespace Backtrack.Lexeme

/-! ## Escapes -/

/-- The escapes of control characters by letters. -/
def generalEscapes : Value :=
  .dictionary ([("b", 0x08), ("f", 0x0c), ("n", 0x0a), ("r", 0x0d), ("t", 0x09)].map
    fun (key, c) => (.str (Text.ofString key), .str [c]))

/-- The character with the number that four hexadecimal digits write. -/
def characterOfCode (vs : List Value) : Except Failure Value := do
  let t ← Value.joinParts vs
  match Numeral.read? 16 t with
  | some n => return .str [n]
  | none => throw (notNumeral 16 t)

def unicodeEscape : Rule :=
  mapped
    (.and [.discard (character 0x75),
      .expected (.repetition (oneOf ItemSet.hexadecimal) 4 (some 4))
        (.str "unicode escape")])
    characterOfCode

/-- An escape sequence: the escape character, and a key of the table, a further escape, or any
other item, taken literally. -/
def escapeSequence (escape escapes : Value) (advanced : List Operand) : Except Failure Rule := do
  let opening ← Rule.makeOne escape
  let keys ← Rule.makeAnyOf escapes
  let looked := mapped keys fun vs => escapes.subscript (vs.getD 0 .none)
  -- the table before the further escapes, and whatever is left stands for itself
  let choice ← Rule.makeOr ([.rule looked] ++ advanced ++ [.rule anything])
  return .and [.discard opening, .expected choice (.str "escape sequence")]

/-! ## Strings -/

def noQuotes : Failure := .valueError "At least one quote required."

/-- What follows an opening quote: the content, and the closing quote. -/
def closedContent (content closing : Rule) (what : String) : Rule :=
  .expected
    (.and [.repetition content 0 none, .discard (.name closing (.str "closing quote"))])
    (.str (Text.ofString what))

/-- A string in one kind of quotes, with escapes. -/
def quotedIn (escape : Value) (escaped : Rule) (quote : Value) : Except Failure Rule := do
  let mark ← Rule.makeOne quote
  let special ← Members.ofList [quote, escape]
  return joined (.and [.discard mark,
    closedContent (.or [escaped, .item (.notMatch (.anyOf special))]) mark "quoted string"])

/-- The strings of all quotes, the first failure ending. -/
def kinds (make : Value → Except Failure Rule) : List Value → Except Failure (List Rule)
  | [] => .ok []
  | quote :: rest => do
    let r ← make quote
    return r :: (← kinds make rest)

/-- A string in any of the quotes, producing its content with the escapes resolved. -/
def quotedString (quotes escape escapes : Value) (advanced : List Operand) :
    Except Failure Rule := do
  let size ← quotes.length
  if size = 0 then throw noQuotes
  let escaped ← escapeSequence escape escapes advanced
  return .or (← kinds (quotedIn escape escaped) (← quotes.visited))

/-- A string in one kind of quotes after a mark, without escapes. -/
def rawQuotedIn (opening quote : Value) : Except Failure Rule := do
  let mark ← opening.add quote
  let opened ← Rule.makeSeq mark
  let closing ← Rule.makeOne quote
  return joined (.and [.discard opened,
    closedContent (.item (.notMatch (.one quote))) closing "raw quoted string"])

/-- A string in any of the quotes after a mark, producing its content as it is. -/
def rawQuotedString (quotes opening : Value) : Except Failure Rule := do
  let size ← quotes.length
  if size = 0 then throw noQuotes
  return .or (← kinds (rawQuotedIn opening) (← quotes.visited))

def bothQuotes : Value := .str [0x22, 0x27]

def backslash : Value := .str [0x5c]

def rawMark : Value := .str [0x72]

end Backtrack.Lexeme
