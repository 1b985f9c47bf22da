/-
What raw strings in quotes read as. Nothing is escaped in them: behind the mark and the opening quote
they go up to the first such quote, and every other character stands for itself. The kinds of quotes
share the mark, so that each looks through all of it before another kind is tried; but once a kind has
seen its opening quote, it is the one, and a text that ends without its closing quote fails for good.
All this holds of what a cursor faces, whether the text lies in memory or a feed brings it.
-/
import Backtrack.Proofs.Factoring
import Backtrack.Proofs.Quotation
namespace Backtrack

open Evaluation (State)

/-! ## What a cursor faces -/

/-- The open cursor is at the position, and the text is all that is left of the input there: of an input
in memory, or of one that a feed brings, singly or in chunks, and that can be read on the path. -/
inductive Source.Faces (path : Path) (s : Source) (c : Cursor) (p : Nat) (t : Text) : Prop where
  | memory {data : Sequence} (h : (Presentation.memory data path).Stands ⟨p, ()⟩ s c)
    (ht : data.Spells p t)
  | stream {data : Sequence} (h : (Presentation.stream data path).Stands ⟨p, ()⟩ s c)
    (ht : data.Spells p t)

/-- With enough fuel, the rule ends with `r`, and then the cursor faces the text at the position. -/
def Grammar.Arrives (g : Grammar) (path : Path) (rule : Rule) (c : Cursor) (arg : Value) (s : State)
    (r : Except Failure Outcome) (p : Nat) (t : Text) : Prop :=
  ∃ u, g.Evaluates path rule c arg s r u ∧ u.source.Faces path c p t

/-- A choice that begins with these alternatives fails, and then the cursor faces the text at the
position. What alternatives come behind them is all the same, also for the state at the end. -/
def Grammar.Commits (g : Grammar) (path : Path) (rules : List Rule) (c : Cursor) (arg : Value)
    (s : State) (e : Failure) (p : Nat) (t : Text) : Prop :=
  ∃ u, (∀ others, g.Evaluates path (.or (rules ++ others)) c arg s (.error e) u) ∧
    u.source.Faces path c p t

/-- The root of a fresh source faces the whole text. -/
theorem Source.Fresh.faces {s : Source} {path : Path} {t : Text}
    (h : s.Fresh (t.map fun c => .str [c]) path) : s.Faces path .root 0 t := by
  cases h with
  | memory hv hcount hdata =>
    exact .memory ((Source.IsOver.ofData hv hcount).stands rfl rfl (Nat.zero_le _)) hdata
  | feed hfeed hpath =>
    have hitems : (Sequence.items .list (t.map fun c => Value.str [c]).toArray).toList =
        t.map fun c => .str [c] := by
      simp [Sequence.toList]
    exact .stream ⟨⟨_, rfl, hpath, le_refl _, .ofFeed (hitems.symm ▸ hfeed) _⟩, rfl, rfl, le_refl _,
      le_refl _⟩ hitems

theorem Sequence.Spells.drop {data : Sequence} {i : Nat} {t : Text} (h : data.Spells i t) (n : Nat) :
    data.Spells (i + n) (t.drop n) := by
  rw [Spells, ← List.drop_drop, h, List.map_drop]

/-- What scanning ends with, wherever the text is spelled, evaluating at a cursor that faces the text
ends with, unless it is the signal of an iteration's end, and the cursor goes on by as many characters. -/
theorem Source.Faces.arrives {g : Grammar} {path : Path} {rule : Rule} {c : Cursor} {arg : Value}
    {s : State} {r : Except Failure Outcome} {p n : Nat} {t rest : Text}
    (hfaces : s.source.Faces path c p t) (hrest : t.drop n = rest)
    (hr : ∀ e, r = .error e → e.isA .stopIteration = false)
    (h : ∀ data : Sequence, data.Spells p t →
      Scan.Ends (fun fuel => Scan.eval (.fixed data) g fuel rule arg) p r (p + n)) :
    g.Arrives path rule c arg s r (p + n) rest := by
  subst hrest
  have hsurfaces : (r.mapError .failed).mapError (Halt.surfaced path) = r.mapError .failed := by
    rw [Halt.mapError_surfaced_failed, Path.mapError_surface hr]
  cases hfaces with
  | @memory data hstands ht =>
    obtain ⟨fuel, hfuel⟩ := h data ht
    have hagrees := Presentation.eval_simulates _ g fuel rule c arg _ s hstands
    rw [hfuel fuel (le_refl _)] at hagrees
    exact ⟨_, ⟨fuel, Prod.ext (hagrees.result.trans hsurfaces) rfl⟩,
      .memory hagrees.stands (ht.drop n)⟩
  | @stream data hstands ht =>
    obtain ⟨fuel, hfuel⟩ := h data ht
    have hagrees := Presentation.eval_simulates _ g fuel rule c arg _ s hstands
    rw [hfuel fuel (le_refl _)] at hagrees
    exact ⟨_, ⟨fuel, Prod.ext (hagrees.result.trans hsurfaces) rfl⟩,
      .stream hagrees.stands (ht.drop n)⟩

/-! ## Choices that fail -/

namespace Evaluation

variable {α β : Type} {e : Halt} {s u : State}

/-- What fails still fails so if it goes on with what fails as it did. -/
theorem runFrom_bind_error_mono {x : Evaluation α} {f f' : α → Evaluation β}
    (hf : ∀ a t, (f a).runFrom t = (.error e, u) → (f' a).runFrom t = (.error e, u))
    (h : (x >>= f).runFrom s = (.error e, u)) : (x >>= f').runFrom s = (.error e, u) := by
  rw [runFrom_bind] at h ⊢
  cases hx : x.runFrom s with
  | mk r t =>
    rw [hx] at h
    cases r with
    | ok a => exact hf a t h
    | error e' => exact h

/-- A choice that failed has come to no further alternatives. -/
theorem choice_append_of_error {run : Cursor → Rule → Evaluation Outcome} {c : Cursor}
    (others : List Rule) : ∀ {rules : List Rule} {s : State},
      (choice run c rules).runFrom s = (.error e, u) →
      (choice run c (rules ++ others)).runFrom s = (.error e, u)
  | [], _, h => by cases h
  | rule :: rules, s, h => by
    refine runFrom_bind_error_mono (fun fork t ht => ?_) h
    refine runFrom_bind_error_mono (fun outcome t ht => ?_) ht
    -- the alternatives behind this one are come to only by a mismatch
    cases outcome with
    | success vs => exact ht
    | mismatch m =>
      exact runFrom_bind_error_mono (fun _ t ht => choice_append_of_error others ht) ht

end Evaluation

/-- The alternatives behind those that make a choice fail have no part in it. -/
theorem Grammar.Evaluates.or_append {g : Grammar} {path : Path} {rules : List Rule} {c : Cursor}
    {arg : Value} {s u : State} {e : Failure}
    (h : g.Evaluates path (.or rules) c arg s (.error e) u) (others : List Rule) :
    g.Evaluates path (.or (rules ++ others)) c arg s (.error e) u := by
  obtain ⟨fuel, hfuel⟩ := h.exists_succ
  exact ⟨fuel + 1, Evaluation.choice_append_of_error others hfuel⟩

theorem Grammar.Arrives.commits {g : Grammar} {path : Path} {rules : List Rule} {c : Cursor}
    {arg : Value} {s : State} {e : Failure} {p : Nat} {t : Text}
    (h : g.Arrives path (.or rules) c arg s (.error e) p t) : g.Commits path rules c arg s e p t := by
  obtain ⟨u, hu, hfaces⟩ := h
  exact ⟨u, hu.or_append, hfaces⟩

/-! ## Rules -/

namespace RawQuotation

variable {quotes opening : Text} {q : Nat}

/-- The rule for a character of the content. -/
def characterRule (q : Nat) : Rule := .item (.notMatch (.one (.str [q])))

/-- The rule for what comes behind an opening quote. -/
def closedRule (q : Nat) : Rule :=
  .and [.repetition (characterRule q) 0 none,
    .discard (.name (Lexeme.character q) (.str "closing quote"))]

/-- The rule for a string in one kind of quotes. -/
def kindRule (opening : Text) (q : Nat) : Rule :=
  Lexeme.joined (.and [.discard (.literal (.str (opening ++ [q]))),
    .expected (closedRule q) (.str "raw quoted string")])

theorem rawQuotedIn_eq (opening : Text) (q : Nat) :
    Lexeme.rawQuotedIn (.str opening) (.str [q]) = .ok (kindRule opening q) := by
  have hmark : (Value.str opening).add (.str [q]) = .ok (.str (opening ++ [q])) := rfl
  have hopened : Rule.makeSeq (.str (opening ++ [q])) = .ok (.literal (.str (opening ++ [q]))) :=
    if_neg (by simp)
  rw [Lexeme.rawQuotedIn, hmark]
  simp only [bind, Except.bind, hopened]
  rfl

theorem rawQuotedString_eq (hquotes : quotes ≠ []) (opening : Text) :
    Lexeme.rawQuotedString (.str quotes) (.str opening) =
      .ok (.or (quotes.map (kindRule opening))) := by
  have hlength : (Value.str quotes).length = .ok quotes.length := rfl
  have hvisited : (Value.str quotes).visited = .ok (quotes.map fun q => .str [q]) := rfl
  have hsize : quotes.length ≠ 0 := mt List.length_eq_zero_iff.1 hquotes
  rw [Lexeme.rawQuotedString, hlength, hvisited]
  simp only [bind, Except.bind, if_neg hsize, Lexeme.kinds_map (rawQuotedIn_eq opening) quotes]
  rfl

end RawQuotation

/-! ## Reading -/

namespace Scan

open Lexeme (character)
open RawQuotation

variable {data : Sequence} {g : Grammar} {arg : Value} {quotes opening content t : Text}
  {i q q' c : Nat}

theorem reads_characterRule (h : data.Spells i (c :: t)) (hc : c ≠ q) :
    Reads data g arg (characterRule q) i (.single (.str [c])) (i + 1) := by
  refine reads_item h.get?_cons ?_
  rw [Matcher.accepts, Matcher.accepts, Members.found_character]
  exact congrArg Except.ok (by simpa using hc)

/-- The content ends at the closing quote, or with the text. -/
theorem reads_characterRule_of_end (h : data.Spells i t) (ht : ∀ c ∈ t.head?, c = q) :
    Reads data g arg (characterRule q) i .noMatch i := by
  cases t with
  | nil => exact reads_item_of_end h.get?_nil
  | cons c t =>
    refine reads_item_of_rejected h.get?_cons ?_
    rw [Matcher.accepts, Matcher.accepts, Members.found_character]
    exact congrArg Except.ok (by simpa using ht c rfl)

theorem reads_characters (h : data.Spells i (content ++ t)) (hcontent : q ∉ content) :
    ReadsMany data g arg (characterRule q) i (content.map fun c => .str [c]) (i + content.length) := by
  induction content generalizing i with
  | nil => exact .nil i
  | cons c content ih =>
    have hc : c ≠ q := fun heq => hcontent (heq ▸ List.mem_cons_self)
    have hrest := ih h.tail fun hmem => hcontent (List.mem_cons_of_mem c hmem)
    rw [List.length_cons, Nat.add_comm content.length, ← Nat.add_assoc]
    exact .cons (reads_characterRule h hc) hrest

/-- The content is all there is in front of the closing quote, or in front of the end of the text. -/
theorem reads_content (h : data.Spells i (content ++ t)) (hcontent : q ∉ content)
    (ht : ∀ c ∈ t.head?, c = q) :
    Reads data g arg (.repetition (characterRule q) 0 none) i
      (.single (.list (content.map fun c => .str [c]))) (i + content.length) :=
  (reads_characters h hcontent).repetition (reads_characterRule_of_end h.append ht) (by omega)

/-! ### One kind of quotes -/

/-- The mark and the opening quote are read together. -/
theorem reads_opening (h : data.Spells i (opening ++ q :: t)) :
    Reads data g arg (.discard (.literal (.str (opening ++ [q])))) i (.success [])
      (i + opening.length + 1) := by
  have hprefix : opening ++ [q] <+: opening ++ q :: t := by simp
  have hread : Reads data g arg (.literal (.str (opening ++ [q]))) i _ _ := reads_literal h
  rw [if_pos (List.isPrefixOf_iff_prefix.2 hprefix), if_pos (List.isPrefixOf_iff_prefix.2 hprefix),
    List.length_append] at hread
  exact hread.discard

/-- Behind the mark and the opening quote the content is read as it is, up to the closing quote. -/
theorem reads_kindRule (hcontent : q ∉ content)
    (h : data.Spells i (opening ++ q :: (content ++ q :: t))) :
    Reads data g arg (kindRule opening q) i (.single (.str content))
      (i + opening.length + 1 + content.length + 1) := by
  have hbehind := h.append.tail
  have hclosed : Reads data g arg (closedRule q) (i + opening.length + 1) _ _ :=
    (ReadsAll.cons (reads_content hbehind hcontent (by simp))
      (.cons (reads_character hbehind.append).name.discard .nil)).and
  exact (ReadsAll.cons (reads_opening h) (.cons hclosed.expected .nil)).and.joined
    (Value.joins_characters rfl rfl).joinParts

/-- A text that ends without the closing quote fails where it ends. -/
theorem fails_kindRule_of_unclosed (hcontent : q ∉ content)
    (h : data.Spells i (opening ++ q :: content)) :
    Fails data g arg (kindRule opening q) i
      (.namedIncomplete (.int (i + opening.length + 1 + content.length : Nat))
        (.str "raw quoted string") (.str "closing quote"))
      (i + opening.length + 1 + content.length) := by
  have hbehind : data.Spells (i + opening.length + 1) (content ++ []) := by
    rw [List.append_nil]
    exact h.append.tail
  have hquote : Reads data g arg (character q) (i + opening.length + 1 + content.length) .noMatch _ :=
    reads_character_of_ne hbehind.append (by simp)
  have hclosed : Reads data g arg (closedRule q) (i + opening.length + 1)
      (.mismatch (.named (.str "closing quote"))) _ :=
    (ReadsAll.cons (reads_content hbehind hcontent (by simp))
      (.cons_of_mismatch hquote.name.discard)).and
  exact (FailsAll.cons (reads_opening h) (.head hclosed.expected_of_mismatch)).and.map

/-- Nothing is read where the text does not begin with the mark and the opening quote. -/
theorem reads_kindRule_of_not_prefix (h : data.Spells i t) (ht : ¬opening ++ [q] <+: t) :
    Reads data g arg (kindRule opening q) i .noMatch i := by
  have hread : Reads data g arg (.literal (.str (opening ++ [q]))) i _ _ := reads_literal h
  rw [if_neg (mt List.isPrefixOf_iff_prefix.1 ht), if_neg (mt List.isPrefixOf_iff_prefix.1 ht)] at hread
  exact (ReadsAll.cons_of_mismatch hread.discard).and.map_of_mismatch

/-! ### Any of the quotes -/

/-- The kind of another quote does not match, although it has the mark in common. -/
theorem reads_kindRule_of_ne (h : data.Spells i (opening ++ q :: t)) (hne : q' ≠ q) :
    ∃ m, Reads data g arg (kindRule opening q') i (.mismatch m) i := by
  refine ⟨.plain, reads_kindRule_of_not_prefix h fun hprefix => ?_⟩
  -- the mark is as long in both, so that the quotes would be the same
  have hsame : q' = q := by simpa using hprefix
  exact hne hsame

/-- The kind of the opening quote reads the string. -/
theorem reads_kinds (hq : q ∈ quotes) (hcontent : q ∉ content)
    (h : data.Spells i (opening ++ q :: (content ++ q :: t))) :
    Reads data g arg (.or (quotes.map (kindRule opening))) i (.single (.str content))
      (i + (opening.length + content.length + 2)) := by
  have hread : Reads data g arg (kindRule opening q) i _ _ := reads_kindRule hcontent h
  rw [show i + opening.length + 1 + content.length + 1 = i + (opening.length + content.length + 2) by
    omega] at hread
  exact .or_of_mem hq (fun _ _ hne => reads_kindRule_of_ne h hne) hread

/-- If that kind fails, no other is tried. -/
theorem fails_kinds_of_unclosed (hq : q ∈ quotes) (hcontent : q ∉ content)
    (h : data.Spells i (opening ++ q :: content)) :
    Fails data g arg (.or (quotes.map (kindRule opening))) i
      (.namedIncomplete (.int (i + (opening ++ q :: content).length : Nat))
        (.str "raw quoted string") (.str "closing quote"))
      (i + (opening ++ q :: content).length) := by
  have hfails : Fails data g arg (kindRule opening q) i _ _ := fails_kindRule_of_unclosed hcontent h
  rw [show i + opening.length + 1 + content.length = i + (opening ++ q :: content).length by
    simp only [List.length_append, List.length_cons]; omega] at hfails
  exact .or_of_mem hq (fun _ _ hne => reads_kindRule_of_ne h hne) hfails rfl

/-- No string where the text begins with the mark and a quote for none of the quotes. -/
theorem reads_kinds_of_not_prefix (h : data.Spells i t) (ht : ∀ q ∈ quotes, ¬opening ++ [q] <+: t) :
    Reads data g arg (.or (quotes.map (kindRule opening))) i .noMatch i :=
  .or_of_mismatch fun q hq => ⟨.plain, reads_kindRule_of_not_prefix h (ht q hq)⟩

end Scan

namespace Grammar

open RawQuotation Scan

/-- Raw strings are verbatim up to the first matching quote. Let the rule be made for any quotes, of which
there are some, and any mark, and let a cursor face a text, in memory or fed. Behind the mark and one of
the quotes, everything up to the next such quote is given as it is and taken, with that quote. If there
is none, the rule fails at the end of the input, and so does a choice in which it is the first: neither
the kinds of quotes behind this one nor other rules behind this rule are tried. If the text begins with
the mark and a quote for none of the quotes, it is left as it is. -/
theorem rawQuotedString_verbatim (g : Grammar) (path : Path) (arg : Value) {quotes : Text}
    (hquotes : quotes ≠ []) (opening : Text) :
    ∃ kinds, Lexeme.rawQuotedString (.str quotes) (.str opening) = .ok (.or kinds) ∧
      kinds.length = quotes.length ∧
      (∀ (s : State) (c : Cursor) (p : Nat) (t : Text), s.source.Faces path c p t →
        (∀ q ∈ quotes, ∀ content rest : Text, q ∉ content →
          t = opening ++ q :: (content ++ q :: rest) →
          g.Arrives path (.or kinds) c arg s (.ok (.single (.str content)))
            (p + (opening.length + content.length + 2)) rest) ∧
        (∀ q ∈ quotes, ∀ content : Text, q ∉ content → t = opening ++ q :: content →
          let e : Failure := .namedIncomplete (.int (p + t.length : Nat)) (.str "raw quoted string")
            (.str "closing quote")
          g.Arrives path (.or kinds) c arg s (.error e) (p + t.length) [] ∧
          g.Commits path (kinds.take (quotes.idxOf q + 1)) c arg s e (p + t.length) [] ∧
          g.Commits path [.or kinds] c arg s e (p + t.length) []) ∧
        ((∀ q ∈ quotes, ¬opening ++ [q] <+: t) →
          g.Arrives path (.or kinds) c arg s (.ok .noMatch) p t)) ∧
      ∀ (t : Text) (source : Source), source.Fresh (t.map fun c => .str [c]) path →
        source.Faces path .root 0 t := by
  refine ⟨quotes.map (kindRule opening), rawQuotedString_eq hquotes opening, List.length_map ..,
    fun s c p t hfaces => ⟨?_, ?_, fun ht => ?_⟩, fun t source hsource => hsource.faces⟩
  · rintro q hq content rest hcontent rfl
    have hrest : (opening ++ q :: (content ++ q :: rest)).drop
        (opening.length + content.length + 2) = rest := by
      rw [show opening ++ q :: (content ++ q :: rest) = (opening ++ q :: content ++ [q]) ++ rest by simp]
      exact List.drop_left' (by simp only [List.length_append, List.length_cons, List.length_nil]; omega)
    exact hfaces.arrives hrest nofun fun data hdata => reads_kinds hq hcontent hdata
  · rintro q hq content hcontent rfl
    -- the kinds up to the one with this quote fail already without those behind them
    have hfirst : q ∈ quotes.take (quotes.idxOf q + 1) :=
      (List.mem_take_iff_idxOf_lt hq).2 (Nat.lt_succ_self _)
    rw [← List.map_take]
    have hsignal : ∀ f, (.error (.namedIncomplete (.int (p + (opening ++ q :: content).length : Nat))
        (.str "raw quoted string") (.str "closing quote")) : Except Failure Outcome) = .error f →
        f.isA .stopIteration = false := by
      rintro _ ⟨⟩
      rfl
    exact ⟨hfaces.arrives List.drop_length hsignal fun data hdata =>
        fails_kinds_of_unclosed hq hcontent hdata,
      (hfaces.arrives List.drop_length hsignal fun data hdata =>
        fails_kinds_of_unclosed hfirst hcontent hdata).commits,
      (hfaces.arrives List.drop_length hsignal fun data hdata =>
        FailsFirst.or (.head (fails_kinds_of_unclosed hq hcontent hdata) rfl)).commits⟩
  · exact hfaces.arrives (n := 0) List.drop_zero nofun fun _ hdata => reads_kinds_of_not_prefix hdata ht

/-- A fork over a stream, the first item of which is consumed and the second of which waits: chunks bring
the rest of a string with a backslash and the other quote in it. A text in memory lacks the closing quote
and has one of the other kind. -/
theorem rawQuotedString_verbatim_chunked :
    let feed : List Element := [[0x22, 0x61, 0x5c], [0x27, 0x62, 0x22], [0x78]].map fun chunk =>
      .value (.str chunk)
    let stream : Stream := ⟨feed, 2, true, .blocking, #[.str [0x7a], .str [0x72]], 1, false⟩
    let s : State := ⟨⟨.stream stream, 1, #[⟨none, 0, false⟩], []⟩, .empty⟩
    let t : Text := [0x72, 0x22, 0x61, 0x5c, 0x27, 0x62, 0x22, 0x78]
    let unclosed : Text := [0x72, 0x27, 0x61, 0x22, 0x62]
    ([0x22, 0x27] ≠ ([] : Text) ∧ s.source.Faces .blocking (.fork 0) 1 t ∧
      (Source.ofData (.str unclosed)).Faces .blocking .root 0 unclosed) ∧
    ∃ kinds, Lexeme.rawQuotedString (.str [0x22, 0x27]) (.str [0x72]) = .ok (.or kinds) ∧
      Grammar.empty.Arrives .blocking (.or kinds) (.fork 0) .none s
        (.ok (.single (.str [0x61, 0x5c, 0x27, 0x62]))) 8 [0x78] ∧
      Grammar.empty.Commits .blocking [.or kinds] .root .none (.ofSource (.ofData (.str unclosed)))
        (.namedIncomplete (.int 5) (.str "raw quoted string") (.str "closing quote")) 5 [] := by
  intro feed stream s t unclosed
  have hquotes : [0x22, 0x27] ≠ ([] : Text) := by decide
  obtain ⟨kinds, hkinds, -, hreads, hfresh⟩ :=
    rawQuotedString_verbatim .empty .blocking .none hquotes [0x72]
  have hdata : (Sequence.items .str ((0x7a :: t).map fun c => .str [c]).toArray).Spells 1 t := rfl
  have hahead : stream.Ahead (t.map fun c => .str [c]) :=
    ⟨by decide, by decide, _, .inr ⟨rfl, .ofTexts [[0x22, 0x61, 0x5c], [0x27, 0x62, 0x22], [0x78]]⟩, rfl⟩
  have hstream : s.source.Faces .blocking (.fork 0) 1 t :=
    .stream ⟨⟨stream, rfl, fun h => h, by decide, hdata.symm ▸ hahead⟩, rfl, rfl, by decide,
      le_refl _⟩ hdata
  have hmemory : (Source.ofData (.str unclosed)).Faces .blocking .root 0 unclosed :=
    hfresh unclosed _ (.memory rfl rfl rfl)
  have hclosed := (hreads s _ 1 t hstream).1 0x22 (by decide) [0x61, 0x5c, 0x27, 0x62] [0x78]
    (by decide) rfl
  have hopen := (hreads (.ofSource _) _ 0 unclosed hmemory).2.1 0x27 (by decide) [0x61, 0x22, 0x62]
    (by decide) rfl
  exact ⟨⟨hquotes, hstream, hmemory⟩, kinds, hkinds, hclosed, hopen.2.2⟩

end Grammar

end Backtrack
