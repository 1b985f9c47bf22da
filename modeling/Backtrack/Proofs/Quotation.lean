/-
What strings in quotes read as. Behind the opening quote the text is a row of pieces, each standing for
a text: a character for itself, a key of the table behind the escape character for its entry, a `u` with
four hexadecimal digits behind it for the character with the number, and any other character behind it
for itself. The pieces end at the closing quote, or in one of three ways without it, each a hard failure
of its own. So a string is read back from every way in which it can be written, and what cannot be read
is reported where it ends.
-/
import Backtrack.Lexeme.Quotation
import Backtrack.Proofs.Radix
namespace Backtrack

open Numeral (isDigitOf digitRun valueOf)

/-- Where a string in each kind of quotes can be made, strings of all kinds can. -/
theorem Lexeme.kinds_map {make : Value → Except Failure Rule} {rule : Nat → Rule}
    (h : ∀ q, make (.str [q]) = .ok (rule q)) : ∀ quotes : Text,
    kinds make (quotes.map fun c => .str [c]) = .ok (quotes.map rule)
  | [] => rfl
  | q :: quotes => by
    rw [List.map_cons, kinds, h, kinds_map h quotes]
    rfl

/-! ## Escapes -/

/-- A way of escaping: the character in front of an escape, and what single characters behind it stand
for. -/
structure Escaping where
  escape : Nat
  table : List (Nat × Text)

namespace Escaping

/-- The table as a dictionary. -/
def toValue (E : Escaping) : Value := .dictionary (E.table.map fun (key, t) => (.str [key], .str t))

/-- A backslash, and letters for control characters. -/
def general : Escaping :=
  ⟨0x5c, [(0x62, [0x08]), (0x66, [0x0c]), (0x6e, [0x0a]), (0x72, [0x0d]), (0x74, [0x09])]⟩

/-- What is written between quotes `q` for one text. -/
inductive Piece (E : Escaping) (q : Nat) : Text → Text → Prop where
  | plain {c : Nat} (hquote : c ≠ q) (hescape : c ≠ E.escape) : Piece E q [c] [c]
  | key {k : Nat} {t : Text} (h : E.table.lookup k = some t) : Piece E q [E.escape, k] t
  | code {ds : Text} (hfree : E.table.lookup 0x75 = none) (hlength : ds.length = 4)
    (hdigits : ∀ d ∈ ds, isDigitOf 16 d = true) : Piece E q (E.escape :: 0x75 :: ds) [valueOf 16 ds]
  | literal {c : Nat} (hfree : E.table.lookup c = none) (hne : c ≠ 0x75) : Piece E q [E.escape, c] [c]

/-- The text `w` is written for `s`, piece by piece for one character after another. -/
def Writes (E : Escaping) (q : Nat) (s w : Text) : Prop :=
  ∃ pieces, w = pieces.flatten ∧ List.Forall₂ (fun c w => E.Piece q w [c]) s pieces

variable {E : Escaping} {q : Nat}

/-- An entry is found in the dictionary as it is in the table. -/
theorem find?_entries (k : Nat) : ∀ table : List (Nat × Text),
    (table.map fun (key, t) => (Value.str [key], Value.str t)).find? (fun e => e.1.alike (.str [k])) =
      (table.lookup k).map fun t => (.str [k], .str t)
  | [] => rfl
  | (key, u) :: table => by
    have halike : (Value.str [key]).alike (.str [k]) = (k == key) := by
      simp [Value.alike, Value.equal, Bool.beq_comm]
    rw [List.map_cons, List.find?_cons, List.lookup_cons, halike, find?_entries k table]
    cases hkey : k == key with
    | true => rw [eq_of_beq hkey]; rfl
    | false => rfl

theorem subscript_toValue {k : Nat} {t : Text} (h : E.table.lookup k = some t) :
    E.toValue.subscript (.str [k]) = .ok (.str t) := by
  rw [toValue, Value.subscript, find?_entries, h]
  rfl

/-- The keys are the characters that the table has something for. -/
theorem mem_keys_iff {k : Nat} : k ∈ E.table.map Prod.fst ↔ ∃ t, E.table.lookup k = some t := by
  rw [← not_iff_not, ← Option.isSome_iff_exists, Option.not_isSome_iff_eq_none,
    List.lookup_eq_none_iff]
  simp only [List.mem_map, not_exists, not_and, ne_eq, bne_iff_ne]
  exact ⟨fun h e he hk => h e he hk.symm, fun h e he hk => h e he hk.symm⟩

/-! ## Rules -/

/-- The rule for a key behind the escape character. -/
def keyRule (E : Escaping) : Rule :=
  Lexeme.mapped (Lexeme.oneOf ((E.table.map Prod.fst).map fun c => .str [c]))
    fun vs => E.toValue.subscript (vs.getD 0 .none)

/-- The rule for the escape character and what it escapes. -/
def sequenceRule (E : Escaping) : Rule :=
  .and [.discard (Lexeme.character E.escape),
    .expected (.or [E.keyRule, Lexeme.unicodeEscape, Lexeme.anything]) (.str "escape sequence")]

/-- The rule for a piece. -/
def pieceRule (E : Escaping) (q : Nat) : Rule :=
  .or [E.sequenceRule, .item (.notMatch (.anyOf (.characters [q, E.escape])))]

/-- The rule for what comes behind an opening quote. -/
def closedRule (E : Escaping) (q : Nat) : Rule :=
  .and [.repetition (E.pieceRule q) 0 none, .discard (.name (Lexeme.character q) (.str "closing quote"))]

/-- The rule for a string in one kind of quotes. -/
def quotedRule (E : Escaping) (q : Nat) : Rule :=
  Lexeme.joined (.and [.discard (Lexeme.character q), .expected (E.closedRule q) (.str "quoted string")])

/-- The rule for a string in any of the quotes. -/
def stringRule (E : Escaping) (quotes : Text) : Rule := .or (quotes.map E.quotedRule)

theorem makeAnyOf_toValue (htable : E.table ≠ []) :
    Rule.makeAnyOf E.toValue = .ok (Lexeme.oneOf ((E.table.map Prod.fst).map fun c => .str [c])) := by
  have helements : E.toValue.elements = .ok ((E.table.map Prod.fst).map fun c => .str [c]) := by
    simp [toValue, Value.elements, Value.holdFailure?, Value.items?]
  have hsome : ((E.table.map Prod.fst).map fun c => Value.str [c]).isEmpty = false := by
    simpa using htable
  have hmembers := Members.ofList_characters (E.table.map Prod.fst)
  rw [Rule.makeAnyOf, helements]
  simp only [bind, Except.bind, hsome, Members.ofItems, toValue, hmembers]
  rfl

theorem escapeSequence_eq (htable : E.table ≠ []) :
    Lexeme.escapeSequence (.str [E.escape]) E.toValue [.rule Lexeme.unicodeEscape] =
      .ok E.sequenceRule := by
  have harities : Rule.sortedDistinct [1, 1, 1] = [1] := by simp [Rule.sortedDistinct]
  have hchoice : Rule.makeOr [.rule E.keyRule, .rule Lexeme.unicodeEscape, .rule Lexeme.anything] =
      .ok (.or [E.keyRule, Lexeme.unicodeEscape, Lexeme.anything]) :=
    if_neg (by
      show ¬1 < (Rule.sortedDistinct [1, 1, 1]).length
      rw [harities]
      decide)
  rw [Lexeme.escapeSequence, makeAnyOf_toValue htable]
  exact congrArg (Except.map _) hchoice

theorem quotedIn_eq (q : Nat) : Lexeme.quotedIn (.str [E.escape]) E.sequenceRule (.str [q]) =
    .ok (E.quotedRule q) := by
  have hspecial : Members.ofList [.str [q], .str [E.escape]] = .ok (.characters [q, E.escape]) :=
    Members.ofList_characters [q, E.escape]
  rw [Lexeme.quotedIn, hspecial]
  rfl

theorem quotedString_eq {quotes : Text} (hquotes : quotes ≠ []) (htable : E.table ≠ []) :
    Lexeme.quotedString (.str quotes) (.str [E.escape]) E.toValue [.rule Lexeme.unicodeEscape] =
      .ok (E.stringRule quotes) := by
  have hlength : (Value.str quotes).length = .ok quotes.length := rfl
  have hvisited : (Value.str quotes).visited = .ok (quotes.map fun c => .str [c]) := rfl
  have hsize : quotes.length ≠ 0 := mt List.length_eq_zero_iff.1 hquotes
  have hkinds : Lexeme.kinds (Lexeme.quotedIn (.str [E.escape]) E.sequenceRule)
      (quotes.map fun c => .str [c]) = .ok (quotes.map E.quotedRule) :=
    Lexeme.kinds_map quotedIn_eq quotes
  rw [Lexeme.quotedString, hlength, escapeSequence_eq htable, hvisited]
  simp only [bind, Except.bind, if_neg hsize, hkinds]
  rfl

end Escaping

namespace Scan

open Lexeme (character unicodeEscape anything)

variable {data : Sequence} {g : Grammar} {arg : Value} {E : Escaping} {i j q : Nat} {ds t u w : Text}
  {e : Failure}

/-! ## Escapes -/

theorem reads_hexadecimals (g : Grammar) (arg : Value) (h : data.Spells i (ds ++ t))
    (hdigits : ∀ d ∈ ds, isDigitOf 16 d = true) :
    ReadsMany data g arg (Lexeme.oneOf ItemSet.hexadecimal) i (ds.map fun c => .str [c])
      (i + ds.length) :=
  readsMany_oneOf h fun d hd => (Radix.mem_members Radix.hexadecimal_mem).2 (hdigits d hd)

/-- Four hexadecimal digits behind a `u` are the character with the number. -/
theorem reads_unicodeEscape (h : data.Spells i (0x75 :: (ds ++ t))) (hlength : ds.length = 4)
    (hdigits : ∀ d ∈ ds, isDigitOf 16 d = true) :
    Reads data g arg unicodeEscape i (.single (.str [valueOf 16 ds])) (i + 1 + ds.length) := by
  have hsize : ((ds.map fun c => Value.str [c]).length : Int) = 4 := by
    rw [List.length_map, hlength]
    rfl
  have hrun := (reads_hexadecimals g arg h.tail hdigits).repetition_of_full hsize.ge
  rw [hsize] at hrun
  have hne : ds ≠ [] := List.ne_nil_of_length_pos (by omega)
  have hcode : Lexeme.characterOfCode [.list (ds.map fun c => .str [c])] =
      .ok (.str [valueOf 16 ds]) := by
    rw [Lexeme.characterOfCode, (Value.joins_characters rfl rfl).joinParts]
    simp only [bind, Except.bind, Numeral.read?_of_digits hne hdigits]
    rfl
  exact (ReadsAll.cons (reads_character h).discard (.cons hrun.expected .nil)).and.mapped hcode

/-- Fewer digits fail where the next one is missing. -/
theorem fails_unicodeEscape (h : data.Spells i (0x75 :: (ds ++ t))) (hlength : ds.length < 4)
    (hdigits : ∀ d ∈ ds, isDigitOf 16 d = true) (ht : ∀ c ∈ t.head?, isDigitOf 16 c = false) :
    Fails data g arg unicodeEscape i
      (.incomplete (.int (i + 1 + ds.length : Nat)) (.str "unicode escape")) (i + 1 + ds.length) := by
  have hend := reads_member_of_ends g arg Radix.hexadecimal_mem h.tail.append ht
  have hrun : Reads data g arg (.repetition (Lexeme.oneOf ItemSet.hexadecimal) 4 (some 4)) (i + 1) _ _ :=
    (reads_hexadecimals g arg h.tail hdigits).repeated
      (fun most hmost => by cases hmost; rw [List.length_map]; omega) hend
  rw [Evaluation.repeated, if_pos (by rw [List.length_map]; omega)] at hrun
  exact (FailsAll.cons (reads_character h).discard (.head hrun.expected_of_mismatch)).and.map

theorem reads_unicodeEscape_of_ne (h : data.Spells i t) (hne : t.head? ≠ some 0x75) :
    Reads data g arg unicodeEscape i .noMatch i :=
  (ReadsAll.cons_of_mismatch (reads_character_of_ne h hne).discard).and.map_of_mismatch

/-- A key is what the table has for it. -/
theorem reads_keyRule {k : Nat} (h : data.Spells i (k :: t)) (hk : E.table.lookup k = some u) :
    Reads data g arg E.keyRule i (.single (.str u)) (i + 1) :=
  (reads_oneOf h (Escaping.mem_keys_iff.2 ⟨u, hk⟩)).mapped (Escaping.subscript_toValue hk)

theorem reads_keyRule_of_free (h : data.Spells i t) (ht : ∀ c ∈ t.head?, E.table.lookup c = none) :
    Reads data g arg E.keyRule i .noMatch i := by
  refine (reads_oneOf_of_not_mem h fun c hc hmem => ?_).map_of_mismatch
  obtain ⟨u, hu⟩ := Escaping.mem_keys_iff.1 hmem
  rw [ht c hc] at hu
  cases hu

/-- What is escaped is read behind the escape character. -/
theorem reads_sequenceRule {v : Value} (h : data.Spells i (E.escape :: t))
    (hchoice : ReadsFirst data g arg [E.keyRule, unicodeEscape, anything] (i + 1) (.single v) j) :
    Reads data g arg E.sequenceRule i (.single v) j :=
  (ReadsAll.cons (reads_character h).discard (.cons hchoice.or.expected .nil)).and

/-! ## Pieces -/

/-- A piece reads as the text that it stands for. -/
theorem reads_piece {s : Text} (hpiece : E.Piece q w s) (h : data.Spells i (w ++ t)) :
    Reads data g arg (E.pieceRule q) i (.single (.str s)) (i + w.length) := by
  cases hpiece with
  | @plain c hquote hescape =>
    have hnone : Reads data g arg E.sequenceRule i .noMatch i :=
      (ReadsAll.cons_of_mismatch (reads_character_of_ne h (by simpa using hescape)).discard).and
    exact ReadsFirst.or (.tail hnone (.head (reads_noneOf h (by simp [hquote, hescape]))))
  | key hk => exact ReadsFirst.or (.head (reads_sequenceRule h (.head (reads_keyRule h.tail hk))))
  | @code ds hfree hlength hdigits =>
    have hcode : Reads data g arg unicodeEscape (i + 1) _ _ := reads_unicodeEscape h.tail hlength hdigits
    have hkey : Reads data g arg E.keyRule (i + 1) .noMatch (i + 1) :=
      reads_keyRule_of_free h.tail fun c hc => by cases hc; exact hfree
    have hlength' : i + 1 + 1 + ds.length = i + (E.escape :: 0x75 :: ds).length := by
      rw [List.length_cons, List.length_cons]
      omega
    rw [← hlength']
    exact ReadsFirst.or (.head (reads_sequenceRule h (.tail hkey (.head hcode))))
  | @literal c hfree hne =>
    have hkey : Reads data g arg E.keyRule (i + 1) .noMatch (i + 1) :=
      reads_keyRule_of_free h.tail fun c hc => by cases hc; exact hfree
    have hcode : Reads data g arg unicodeEscape (i + 1) .noMatch (i + 1) :=
      reads_unicodeEscape_of_ne h.tail (by simpa using hne)
    exact ReadsFirst.or (.head (reads_sequenceRule h (.tail hkey (.tail hcode
      (.head (reads_anything h.tail))))))

/-- Pieces are read one after another. -/
theorem reads_pieces (g : Grammar) (arg : Value) {ws ss : List Text}
    (hpieces : List.Forall₂ (E.Piece q) ws ss) (h : data.Spells i (ws.flatten ++ t)) :
    ReadsMany data g arg (E.pieceRule q) i (ss.map .str) (i + ws.flatten.length) := by
  induction hpieces generalizing i with
  | nil => exact .nil i
  | @cons w s ws ss hpiece _ ih =>
    rw [List.flatten_cons, List.append_assoc] at h
    rw [List.flatten_cons, List.length_append, ← Nat.add_assoc]
    exact .cons (reads_piece hpiece h) (ih h.append)

/-- No piece begins at the closing quote, nor at the end of the text. -/
theorem reads_pieceRule_of_end (hne : E.escape ≠ q) (h : data.Spells i t) (ht : ∀ c ∈ t.head?, c = q) :
    Reads data g arg (E.pieceRule q) i .noMatch i := by
  have hescape : t.head? ≠ some E.escape := fun hhead => hne (ht _ hhead)
  have hnone : Reads data g arg E.sequenceRule i .noMatch i :=
    (ReadsAll.cons_of_mismatch (reads_character_of_ne h hescape).discard).and
  have hquote : ∀ c ∈ t.head?, c ∈ [q, E.escape] := fun c hc => by simp [ht c hc]
  exact ReadsFirst.or (.tail hnone (.tail (reads_noneOf_of_mem h hquote) .nil))

/-- Nothing is left behind the escape character. -/
theorem fails_piece_of_dangling (g : Grammar) (arg : Value) (h : data.Spells i [E.escape]) :
    Fails data g arg (E.pieceRule q) i (.incomplete (.int (i + 1 : Nat)) (.str "escape sequence"))
      (i + 1) := by
  have hchoice : ReadsFirst data g arg [E.keyRule, unicodeEscape, anything] (i + 1) .noMatch (i + 1) :=
    .tail (reads_keyRule_of_free h.tail (by simp)) <| .tail (reads_unicodeEscape_of_ne h.tail (by simp)) <|
      .tail (reads_anything_of_end h.tail) .nil
  have hsequence : Fails data g arg E.sequenceRule i _ (i + 1) :=
    (FailsAll.cons (reads_character h).discard (.head hchoice.or.expected_of_mismatch)).and
  exact FailsFirst.or (.head hsequence rfl)

/-- Too few hexadecimal digits come behind the escape character and a `u`. -/
theorem fails_piece_of_short (g : Grammar) (arg : Value) (h : data.Spells i (E.escape :: 0x75 :: (ds ++ t)))
    (hfree : E.table.lookup 0x75 = none) (hlength : ds.length < 4)
    (hdigits : ∀ d ∈ ds, isDigitOf 16 d = true) (ht : ∀ c ∈ t.head?, isDigitOf 16 c = false) :
    Fails data g arg (E.pieceRule q) i
      (.incomplete (.int (i + 1 + 1 + ds.length : Nat)) (.str "unicode escape"))
      (i + 1 + 1 + ds.length) := by
  have hkey : Reads data g arg E.keyRule (i + 1) .noMatch (i + 1) :=
    reads_keyRule_of_free h.tail fun c hc => by cases hc; exact hfree
  have hchoice : FailsFirst data g arg [E.keyRule, unicodeEscape, anything] (i + 1) _ _ :=
    .tail hkey (.head (fails_unicodeEscape h.tail hlength hdigits ht) rfl)
  have hsequence : Fails data g arg E.sequenceRule i _ _ :=
    (FailsAll.cons (reads_character h).discard (.head hchoice.or.expected)).and
  exact FailsFirst.or (.head hsequence rfl)

/-! ## One kind of quotes -/

section

variable {ws ss : List Text}

/-- Pieces up to the closing quote are the string of what they stand for. -/
theorem reads_quotedRule (g : Grammar) (arg : Value) (hne : E.escape ≠ q)
    (hpieces : List.Forall₂ (E.Piece q) ws ss) (h : data.Spells i (q :: (ws.flatten ++ q :: t))) :
    Reads data g arg (E.quotedRule q) i (.single (.str ss.flatten)) (i + 1 + ws.flatten.length + 1) := by
  have hend : Reads data g arg (E.pieceRule q) (i + 1 + ws.flatten.length) .noMatch _ :=
    reads_pieceRule_of_end hne h.tail.append (by simp)
  have hcontent : Reads data g arg (.repetition (E.pieceRule q) 0 none) (i + 1) _ _ :=
    (reads_pieces g arg hpieces h.tail).repetition hend (by omega)
  have hclosed : Reads data g arg (E.closedRule q) (i + 1) _ _ :=
    (ReadsAll.cons hcontent (.cons (reads_character h.tail.append).name.discard .nil)).and
  exact (ReadsAll.cons (reads_character h).discard (.cons hclosed.expected .nil)).and.joined
    (Value.joins_texts rfl rfl).joinParts

theorem reads_quotedRule_of_ne (h : data.Spells i t) (hne : t.head? ≠ some q) :
    Reads data g arg (E.quotedRule q) i .noMatch i :=
  (ReadsAll.cons_of_mismatch (reads_character_of_ne h hne).discard).and.map_of_mismatch

/-- A piece that fails makes the string fail. -/
theorem fails_quotedRule (hpieces : List.Forall₂ (E.Piece q) ws ss)
    (h : data.Spells i (q :: (ws.flatten ++ t)))
    (hfails : Fails data g arg (E.pieceRule q) (i + 1 + ws.flatten.length) e j) :
    Fails data g arg (E.quotedRule q) i e j := by
  have hcontent : Fails data g arg (.repetition (E.pieceRule q) 0 none) (i + 1) e j :=
    (reads_pieces g arg hpieces h.tail).fails (by simp) hfails
  exact (FailsAll.cons (reads_character h).discard (.head (FailsAll.head hcontent).and.expected)).and.map

/-- Pieces up to the end of the text lack the closing quote. -/
theorem fails_quotedRule_of_unclosed (g : Grammar) (arg : Value) (hne : E.escape ≠ q)
    (hpieces : List.Forall₂ (E.Piece q) ws ss) (h : data.Spells i (q :: ws.flatten)) :
    Fails data g arg (E.quotedRule q) i
      (.namedIncomplete (.int (i + 1 + ws.flatten.length : Nat)) (.str "quoted string")
        (.str "closing quote")) (i + 1 + ws.flatten.length) := by
  rw [← List.append_nil ws.flatten] at h
  have hcontent : Reads data g arg (.repetition (E.pieceRule q) 0 none) (i + 1) _ _ :=
    (reads_pieces g arg hpieces h.tail).repetition
      (reads_pieceRule_of_end hne h.tail.append (by simp)) (by omega)
  have hquote : Reads data g arg (character q) (i + 1 + ws.flatten.length) .noMatch _ :=
    reads_character_of_ne h.tail.append (by simp)
  have hclosed : Reads data g arg (E.closedRule q) (i + 1) (.mismatch (.named (.str "closing quote"))) _ :=
    (ReadsAll.cons hcontent (.cons_of_mismatch hquote.name.discard)).and
  exact (FailsAll.cons (reads_character h).discard (.head hclosed.expected_of_mismatch)).and.map

end

/-! ## Any of the quotes -/

/-- A kind of quotes that does not come next does not match. -/
theorem exists_reads_quotedRule_of_ne (h : data.Spells i t) (hne : t.head? ≠ some q) :
    ∃ m, Reads data g arg (E.quotedRule q) i (.mismatch m) i :=
  ⟨.plain, reads_quotedRule_of_ne h hne⟩

theorem reads_stringRule {quotes : Text} {vs : List Value} (hq : q ∈ quotes)
    (h : data.Spells i (q :: t)) (hread : Reads data g arg (E.quotedRule q) i (.success vs) j) :
    Reads data g arg (E.stringRule quotes) i (.success vs) j :=
  .or_of_mem hq (fun _ _ hne => exists_reads_quotedRule_of_ne h (by simpa using hne.symm)) hread

theorem fails_stringRule {quotes : Text} (hq : q ∈ quotes) (h : data.Spells i (q :: t))
    (hfails : Fails data g arg (E.quotedRule q) i e j) (he : e.isHard = true) :
    Fails data g arg (E.stringRule quotes) i e j :=
  .or_of_mem hq (fun _ _ hne => exists_reads_quotedRule_of_ne h (by simpa using hne.symm)) hfails he

/-- No string where no quote comes next. -/
theorem reads_stringRule_of_not_mem {quotes : Text} (h : data.Spells i t)
    (ht : ∀ c ∈ t.head?, c ∉ quotes) : Reads data g arg (E.stringRule quotes) i .noMatch i :=
  .or_of_mismatch fun _ hq => exists_reads_quotedRule_of_ne h fun hhead => ht _ hhead hq

end Scan

/-! ## Scanning -/

/-- How the text behind an opening quote ends: with the closing quote, so many characters taken, behind
this content; behind the escape character; where a digit is missing, so many characters taken; or
without a closing quote. -/
inductive Ending where
  | closed (content : Text) (length : Nat)
  | dangling
  | short (length : Nat)
  | unclosed
deriving DecidableEq

/-- The ending of a text that is found behind `w`, which stands for `s`. -/
def Ending.behind (w s : Text) : Ending → Ending
  | closed content length => closed (s ++ content) (w.length + length)
  | dangling => dangling
  | short length => short (w.length + length)
  | unclosed => unclosed

namespace Escaping

/-- The text behind an opening quote, gone through from left to right up to the first such quote. Behind
the escape character come a key, or a `u` and four hexadecimal digits, or any other character. -/
def scan (E : Escaping) (q : Nat) : Text → Ending
  | [] => .unclosed
  | c :: t =>
    if c = q then .closed [] 1
    else if c ≠ E.escape then (scan E q t).behind [c] [c]
    else
      match t with
      | [] => .dangling
      | d :: t =>
        match E.table.lookup d with
        | some s => (scan E q t).behind [c, d] s
        | none =>
          if d ≠ 0x75 then (scan E q t).behind [c, d] [d]
          else
            let ds := digitRun 16 t
            match t with
            | d₁ :: d₂ :: d₃ :: d₄ :: t' =>
              if 4 ≤ ds.length then
                (scan E q t').behind [c, d, d₁, d₂, d₃, d₄] [valueOf 16 [d₁, d₂, d₃, d₄]]
              else .short (2 + ds.length)
            | _ => .short (2 + ds.length)

/-- What no piece stands in front of, and how it ends. -/
inductive Leaves (E : Escaping) (q : Nat) : Text → Ending → Prop where
  | closing (t : Text) : Leaves E q (q :: t) (.closed [] 1)
  | dangling : Leaves E q [E.escape] .dangling
  | short {ds t : Text} (hfree : E.table.lookup 0x75 = none) (hlength : ds.length < 4)
    (hdigits : ∀ d ∈ ds, isDigitOf 16 d = true) (ht : ∀ c ∈ t.head?, isDigitOf 16 c = false) :
    Leaves E q (E.escape :: 0x75 :: (ds ++ t)) (.short (2 + ds.length))
  | unclosed : Leaves E q [] .unclosed

/-- The text is made of pieces and of what no piece stands in front of. -/
def Splits (E : Escaping) (q : Nat) (t : Text) (e : Ending) : Prop :=
  ∃ ws ss rest e', List.Forall₂ (E.Piece q) ws ss ∧ E.Leaves q rest e' ∧ t = ws.flatten ++ rest ∧
    e = e'.behind ws.flatten ss.flatten

variable {E : Escaping} {q : Nat} {t w s : Text} {e : Ending}

theorem Leaves.splits (h : E.Leaves q t e) : E.Splits q t e :=
  ⟨[], [], t, e, .nil, h, rfl, by cases e <;> simp [Ending.behind]⟩

theorem Splits.cons (hpiece : E.Piece q w s) (h : E.Splits q t e) :
    E.Splits q (w ++ t) (e.behind w s) := by
  obtain ⟨ws, ss, rest, e', hpieces, hleaves, rfl, rfl⟩ := h
  refine ⟨w :: ws, s :: ss, rest, e', .cons hpiece hpieces, hleaves, by simp, ?_⟩
  cases e' <;> simp [Ending.behind, Nat.add_assoc]

theorem leaves_short (q : Nat) (hfree : E.table.lookup 0x75 = none) (h : (digitRun 16 t).length < 4) :
    E.Leaves q (E.escape :: 0x75 :: t) (.short (2 + (digitRun 16 t).length)) := by
  obtain ⟨rest, happend, hdigits, hends⟩ := Numeral.exists_append_of_digitRun (Eq.refl (digitRun 16 t))
  have hshort : E.Leaves q (E.escape :: 0x75 :: (digitRun 16 t ++ rest)) _ :=
    .short hfree h hdigits hends
  rwa [← happend] at hshort

/-- Scanning splits every text. -/
theorem splits_scan (E : Escaping) (q : Nat) (t : Text) : E.Splits q t (E.scan q t) := by
  fun_induction scan E q t with
  | case1 => exact Leaves.unclosed.splits
  | case2 t => exact (Leaves.closing t).splits
  | case3 c t hquote hescape ih => exact ih.cons (.plain hquote hescape)
  | case4 c hquote hescape =>
    obtain rfl := not_not.1 hescape
    exact Leaves.dangling.splits
  | case5 c hquote hescape d t s hd ih =>
    obtain rfl := not_not.1 hescape
    exact ih.cons (.key hd)
  | case6 c hquote hescape d t hd hu ih =>
    obtain rfl := not_not.1 hescape
    exact ih.cons (.literal hd hu)
  | case7 c hquote hescape d hd hu d₁ d₂ d₃ d₄ t ds hfour ih =>
    obtain rfl := not_not.1 hescape
    obtain rfl := not_not.1 hu
    exact ih.cons (.code hd rfl (Numeral.isDigitOf_of_mem_take hfour))
  | case8 c hquote hescape d hd hu d₁ d₂ d₃ d₄ t ds hfour =>
    obtain rfl := not_not.1 hescape
    obtain rfl := not_not.1 hu
    exact (leaves_short q hd (not_le.1 hfour)).splits
  | case9 c hquote hescape d t hd hu ds hfew =>
    obtain rfl := not_not.1 hescape
    obtain rfl := not_not.1 hu
    have hlength : t.length < 4 := by
      rcases t with _ | ⟨d₁, _ | ⟨d₂, _ | ⟨d₃, _ | ⟨d₄, t⟩⟩⟩⟩
      case cons.cons.cons.cons => exact (hfew d₁ d₂ d₃ d₄ t rfl).elim
      all_goals simp
    exact (leaves_short q hd ((Numeral.length_digitRun_le 16 t).trans_lt hlength)).splits

/-- Every text can be written between either of the quotes: what would end the string or begin an escape
stands behind a backslash. -/
theorem general_writes {q : Nat} (hq : q = 0x22 ∨ q = 0x27) (s : Text) : ∃ w, general.Writes q s w := by
  have hpiece : ∀ c, ∃ w, general.Piece q w [c] := by
    intro c
    by_cases hplain : c ≠ q ∧ c ≠ 0x5c
    · exact ⟨_, .plain hplain.1 hplain.2⟩
    · have hc : c = 0x22 ∨ c = 0x27 ∨ c = 0x5c := by omega
      have hfree : general.table.lookup c = none := by rcases hc with rfl | rfl | rfl <;> rfl
      exact ⟨_, .literal hfree (by omega)⟩
  choose piece hpieces using hpiece
  exact ⟨_, s.map piece, rfl, List.forall₂_map_right_iff.2 (List.forall₂_same.2 fun c _ => hpieces c)⟩

end Escaping

namespace Grammar

open Lexeme (bothQuotes backslash generalEscapes unicodeEscape)
open Scan

/-! ## Strings -/

/-- Strings undo every way of writing. Let the rule be made for any quotes, any escape character and any
table that is not empty, and let `w` be written for `s` between quotes `q`, which is not the escape
character. However a text that begins with `w` in such quotes is presented, a parse gives `s` and takes
the text up to the closing quote. With the escapes of the language every text can be written so. -/
theorem quotedString_undoes (g : Grammar) (path : Path) (arg : Value) (E : Escaping) {quotes : Text}
    {q : Nat} (hq : q ∈ quotes) (hne : E.escape ≠ q) (htable : E.table ≠ []) :
    (∃ rule, Lexeme.quotedString (.str quotes) (.str [E.escape]) E.toValue [.rule unicodeEscape] =
        .ok rule ∧
      ∀ s w rest : Text, E.Writes q s w → ∀ source : Source,
        source.Fresh ((q :: (w ++ q :: rest)).map fun c => .str [c]) path →
        ∃ least, ∀ fuel ≥ least, ∃ u,
          (Evaluation.parseOperand g path fuel (.rule rule) .root arg).runFrom (.ofSource source) =
            (.ok (.str s), u) ∧ u.source.position = (w.length + 2 : Nat)) ∧
    (bothQuotes = .str [0x22, 0x27] ∧ backslash = .str [Escaping.general.escape] ∧
      generalEscapes = Escaping.general.toValue ∧
      ∀ q' : Nat, q' = 0x22 ∨ q' = 0x27 → ∀ s, ∃ w, Escaping.general.Writes q' s w) := by
  refine ⟨⟨E.stringRule quotes, Escaping.quotedString_eq (List.ne_nil_of_mem hq) htable, ?_⟩, rfl, rfl,
    rfl, fun q' hq' s => Escaping.general_writes hq' s⟩
  rintro s w rest ⟨pieces, rfl, hpieces⟩ source hsource
  have harity : (E.stringRule quotes).arity = 1 := by
    obtain ⟨c, quotes, rfl⟩ := List.exists_cons_of_ne_nil (List.ne_nil_of_mem hq)
    rfl
  refine Reads.parse hsource harity fun data hdata => ?_
  have hspells : data.Spells 0 (q :: (pieces.flatten ++ q :: rest)) := by
    rw [Sequence.Spells, List.drop_zero, hdata]
  have hforall : List.Forall₂ (E.Piece q) pieces (s.map fun c => [c]) :=
    List.forall₂_map_right_iff.2 hpieces.flip
  have hread := reads_stringRule hq hspells (reads_quotedRule g arg hne hforall hspells)
  rw [← List.flatMap_def, List.flatMap_singleton'] at hread
  rwa [show 0 + 1 + pieces.flatten.length + 1 = pieces.flatten.length + 2 by omega] at hread

/-- Between quotes, with `%` for escapes and `%k` for an exclamation mark: a key, a code, an escaped
quote, a letter and a backslash, which is a character like any other. -/
theorem quotedString_undoes_percent :
    let E : Escaping := ⟨0x25, [(0x6b, [0x21])]⟩
    let w : Text := [0x25, 0x6b, 0x25, 0x75, 0x30, 0x30, 0x45, 0x39, 0x25, 0x27, 0x78, 0x5c]
    (0x27 ∈ [0x60, 0x27] ∧ E.escape ≠ 0x27 ∧ E.table ≠ []) ∧
    ∃ rule, Lexeme.quotedString (.str [0x60, 0x27]) (.str [E.escape]) E.toValue [.rule unicodeEscape] =
        .ok rule ∧
      ∃ least, ∀ fuel ≥ least, ∃ u,
        (Evaluation.parseOperand .empty .blocking fuel (.rule rule) .root .none).runFrom
          (.ofSource (.ofData (.str (0x27 :: (w ++ [0x27, 0x79, 0x27]))))) =
            (.ok (.str [0x21, 0xe9, 0x27, 0x78, 0x5c]), u) ∧ u.source.position = 14 := by
  intro E w
  have hq : 0x27 ∈ [0x60, 0x27] := by decide
  have hne : E.escape ≠ 0x27 := by decide
  have htable : E.table ≠ [] := List.cons_ne_nil _ _
  obtain ⟨⟨rule, hrule, hparse⟩, -⟩ := quotedString_undoes .empty .blocking .none E hq hne htable
  have hcode : E.Piece 0x27 [0x25, 0x75, 0x30, 0x30, 0x45, 0x39] [0xe9] := .code rfl rfl (by decide)
  have hpieces : List.Forall₂ (fun c w => E.Piece 0x27 w [c]) [0x21, 0xe9, 0x27, 0x78, 0x5c]
      [[0x25, 0x6b], [0x25, 0x75, 0x30, 0x30, 0x45, 0x39], [0x25, 0x27], [0x78], [0x5c]] :=
    .cons (.key rfl) <| .cons hcode <| .cons (.literal rfl (by decide)) <|
      .cons (.plain (by decide) (by decide)) <| .cons (.plain (by decide) (by decide)) .nil
  have hwrites : E.Writes 0x27 [0x21, 0xe9, 0x27, 0x78, 0x5c] w := ⟨_, rfl, hpieces⟩
  have hsource : (Source.ofData (.str (0x27 :: (w ++ [0x27, 0x79, 0x27])))).Fresh
      ((0x27 :: (w ++ 0x27 :: [0x79, 0x27])).map fun c => .str [c]) .blocking := .memory rfl rfl rfl
  exact ⟨⟨hq, hne, htable⟩, rule, hrule, hparse _ w [0x79, 0x27] hwrites _ hsource⟩

/-- Strings in the quotes of the language, with its escapes, are exact on every text that is left of an
input in memory, at whatever cursor. Without a quote in front there is a mismatch that consumes nothing.
Behind a quote scanning the text tells all: a string up to the closing quote, or a failure where the
scan came to an end without one, and nothing else. -/
theorem quotedString_exact (g : Grammar) (path : Path) (arg : Value) {data : Sequence}
    {s : Evaluation.State} {c : Cursor} {p : Nat} {t : Text} (hs : s.source.IsOver data)
    (hopen : s.source.isClosed c = false) (hp : s.source.positionOf c = p) (hle : p ≤ data.size)
    (ht : data.Spells p t) :
    ∃ rule, Lexeme.quotedString bothQuotes backslash generalEscapes [.rule unicodeEscape] = .ok rule ∧
      ((∀ q ∈ t.head?, q ≠ 0x22 ∧ q ≠ 0x27) → g.Shows path rule c arg s (.ok .noMatch) p none) ∧
      ∀ (q : Nat) (u : Text), q = 0x22 ∨ q = 0x27 → t = q :: u →
        match Escaping.general.scan q u with
        | .closed content length =>
          g.Shows path rule c arg s (.ok (.single (.str content))) (p + 1 + length : Nat) none
        | .dangling =>
          g.Shows path rule c arg s (.error (.incomplete (.int data.size) (.str "escape sequence")))
            data.size none
        | .short length =>
          g.Shows path rule c arg s
            (.error (.incomplete (.int (p + 1 + length : Nat)) (.str "unicode escape")))
            (p + 1 + length : Nat) none
        | .unclosed =>
          g.Shows path rule c arg s
            (.error (.namedIncomplete (.int data.size) (.str "quoted string") (.str "closing quote")))
            data.size none := by
  have shows : ∀ {rule : Rule} {r : Except Failure Outcome} {i : Nat},
      Ends (fun fuel => Scan.eval (.fixed data) g fuel rule arg) p r i →
        g.Shows path rule c arg s (r.mapError path.surface) i none :=
    fun h => h.shows hs hopen hp hle path
  have hsize : data.size = p + t.length := by
    have hlength := congrArg List.length ht
    rw [List.length_drop, List.length_map, Sequence.length_toList] at hlength
    omega
  have hmake : Lexeme.quotedString bothQuotes backslash generalEscapes [.rule unicodeEscape] =
      .ok (Escaping.general.stringRule [0x22, 0x27]) :=
    Escaping.quotedString_eq (E := .general) (List.cons_ne_nil _ _) (List.cons_ne_nil _ _)
  refine ⟨_, hmake, fun hhead => ?_, ?_⟩
  · exact shows (reads_stringRule_of_not_mem ht fun q hq => by simpa using hhead q hq)
  rintro q u hq rfl
  have hmem : q ∈ [0x22, 0x27] := by simpa using hq
  have hne : Escaping.general.escape ≠ q := by rcases hq with rfl | rfl <;> decide
  obtain ⟨ws, ss, rest, e, hpieces, hleaves, rfl, hscan⟩ := Escaping.splits_scan .general q u
  rw [hscan]
  cases hleaves with
  | closing rest =>
    have hread := reads_stringRule hmem ht (reads_quotedRule g arg hne hpieces ht)
    rw [Nat.add_assoc] at hread
    simp only [Ending.behind, List.append_nil]
    exact shows hread
  | dangling =>
    have hfails := fails_stringRule hmem ht (fails_quotedRule hpieces ht
      (fails_piece_of_dangling g arg ht.tail.append)) rfl
    have hend : data.size = p + 1 + ws.flatten.length + 1 := by
      rw [hsize, List.length_cons, List.length_append, List.length_singleton]
      omega
    rw [← hend] at hfails
    exact Fails.shows hfails rfl hs hopen hp hle path
  | @short ds rest hfree hlength hdigits hends =>
    have hfails := fails_stringRule hmem ht (fails_quotedRule hpieces ht
      (fails_piece_of_short g arg ht.tail.append hfree hlength hdigits hends)) rfl
    have hend : p + 1 + ws.flatten.length + 1 + 1 + ds.length =
        p + 1 + (ws.flatten.length + (2 + ds.length)) := by
      omega
    rw [hend] at hfails
    exact Fails.shows hfails rfl hs hopen hp hle path
  | unclosed =>
    rw [List.append_nil] at ht hsize
    have hfails := fails_stringRule hmem ht
      (fails_quotedRule_of_unclosed g arg hne hpieces ht) rfl
    have hend : data.size = p + 1 + ws.flatten.length := by
      rw [hsize, List.length_cons]
      omega
    rw [← hend] at hfails
    exact Fails.shows hfails rfl hs hopen hp hle path

/-- Behind the first character of the input a string begins, the third escape of which lacks two digits. -/
theorem quotedString_exact_short :
    let t : Text := [0x27, 0x61, 0x5c, 0x27, 0x5c, 0x6e, 0x5c, 0x75, 0x31, 0x32]
    let data : Sequence := .items .str ((0x7a :: t).map fun c => .str [c]).toArray
    let s : Evaluation.State := ⟨⟨.memory data 1, 1, #[], []⟩, .empty⟩
    (s.source.IsOver data ∧ s.source.isClosed .root = false ∧ s.source.positionOf .root = (1 : Nat) ∧
      1 ≤ data.size ∧ data.Spells 1 t) ∧
    ∃ rule, Lexeme.quotedString bothQuotes backslash generalEscapes [.rule unicodeEscape] = .ok rule ∧
      Grammar.empty.Shows .blocking rule .root .none s
        (.error (.incomplete (.int 11) (.str "unicode escape"))) 11 none := by
  intro t data s
  have hs : s.source.IsOver data := rfl
  have hopen : s.source.isClosed .root = false := rfl
  have hp : s.source.positionOf .root = (1 : Nat) := rfl
  have hle : 1 ≤ data.size := by decide
  have ht : data.Spells 1 t := rfl
  obtain ⟨rule, hrule, -, hquote⟩ := quotedString_exact .empty .blocking .none hs hopen hp hle ht
  have hscan : Escaping.general.scan 0x27 [0x61, 0x5c, 0x27, 0x5c, 0x6e, 0x5c, 0x75, 0x31, 0x32] =
      .short 9 := by cbv
  have hshows := hquote 0x27 _ (.inr rfl) rfl
  rw [hscan] at hshows
  exact ⟨⟨hs, hopen, hp, hle, ht⟩, rule, hrule, hshows⟩

end Grammar

end Backtrack
