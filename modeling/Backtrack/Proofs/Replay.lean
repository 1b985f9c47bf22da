/-
To evaluate a rule again where it succeeded or mismatched before is to replay it. What it read waits
now, with more items behind it than there were, or the feed has ended; so the replay pulls nothing,
gives the same, and leaves its fork where the first evaluation left its own. There is one exception, a
fork that stands before all items that the stream holds, where a read counts from the other end and
more items make a difference. But there nothing is ever pulled, so a replay has the very same buffer.
-/
import Backtrack.Proofs.Tandem
namespace Backtrack

open Source (Pulled consumeFailure?)

/-! ## What the runs are compared by -/

namespace Tandem

/-- Forks over the same buffer, anywhere. -/
def same : Tandem := ⟨fun b b' => b' = b, fun _ _ => True, False⟩

instance : Lawful same where
  reaches _ _ := trivial
  look h _ _ path := by
    cases h
    exact .inr ⟨rfl, rfl, fun _ => rfl⟩
  consume h _ _ := by
    cases h
    exact .inr ⟨rfl, fun _ => trivial⟩

/-- Forks that stand before the first item, over a buffer that does not change. -/
def idle (b₀ : Buffer) : Tandem := ⟨fun b b' => b = b₀ ∧ b' = b₀, Buffer.Precedes, False⟩

instance (b₀ : Buffer) : Lawful (idle b₀) where
  reaches h hu := hu.precedes_iff.2 h
  look h ho hn path := by
    obtain ⟨rfl, rfl⟩ := h
    have hstays := ho.fill hn path
    exact .inr ⟨rfl, ⟨hstays, hstays⟩, fun _ => rfl⟩
  consume h ho hn := by
    obtain ⟨rfl, rfl⟩ := h
    exact .inr ⟨rfl, fun _ => ho.add hn⟩

/-- The first run gets to the buffer `b₀` or beyond it, and the second one begins there. A first run
that fails is none that was replayed. -/
def replay (b₀ : Buffer) : Tandem where
  related b b' := (b' = b₀ ∧ b.Reaches b₀) ∨ (b' = b ∧ b₀.Reaches b)
  admits b o := ¬ b.Precedes o
  lenient := True

instance (b₀ : Buffer) : Lawful (replay b₀) where
  reaches h hu := fun hu' => h (hu.precedes_iff.1 hu')
  look {b b' o n} h ho _ path := by
    rcases h with ⟨rfl, hreaches⟩ | ⟨rfl, hreaches⟩
    · rcases hreaches.fill path (o + (n + 1)) with ⟨hfails, -⟩ | ⟨hbuffer, hfailure⟩ |
        ⟨hrest, hstays, hfailure⟩
      · exact .inl ⟨trivial, hfails⟩
      · -- the first run overtakes the second one
        refine .inr ⟨hfailure, .inr ⟨hbuffer, hbuffer ▸ Buffer.reaches_fill _ path _⟩, fun _ => ?_⟩
        rw [hbuffer]
      · refine .inr ⟨hfailure, .inl ⟨hstays, hrest⟩, fun hnone => ?_⟩
        rw [hstays]
        exact Buffer.slice_of_reaches_fill ho (by omega) hnone hrest
    · exact .inr ⟨rfl, .inr ⟨rfl, hreaches.trans (b'.reaches_fill path _)⟩, fun _ => rfl⟩
  consume {b b' o n} h ho _ := by
    have hreaches : b.Reaches b' := by
      rcases h with ⟨rfl, hreaches⟩ | ⟨rfl, -⟩
      · exact hreaches
      · exact .refl _
    cases hfailure : consumeFailure? b o n with
    | some f => exact .inl ⟨trivial, nofun⟩
    | none =>
      refine .inr ⟨?_, fun _ => ?_⟩
      · have hmore := hreaches.available_le
        have hle := Source.le_available_of_consumeFailure? hfailure
        rw [consumeFailure?] at hfailure ⊢
        rw [hreaches.countFailure?]
        split at hfailure
        · cases hfailure
        · rw [if_neg (by omega)]
      · cases b with
        | memory data start => exact ho
        | irregular data start => exact ho
        | stream s =>
          simp only [replay, Buffer.Precedes] at ho ⊢
          omega

/-- Forks at the same position, whatever their buffers. -/
def free : Tandem := ⟨fun _ _ => True, fun _ _ => True, True⟩

/-- Nothing but the relation of the buffers depends on the tandem, and what it admits. -/
theorem Alike.change {T T' : Tandem} {d d' : Cursor} {s s' : Source} (h : T.Alike d d' s s')
    (hbuffer : T'.related s.buffer s'.buffer) (hadmits : T'.admits s.buffer (s.offset d)) :
    T'.Alike d d' s s' :=
  ⟨hbuffer, h.position, h.offset, hadmits, h.isFork, h.isFork', h.isOpen, h.isOpen'⟩

end Tandem

namespace Evaluation

open Tandem (same idle replay free)

variable {g : Grammar} {path : Path} {fuel : Nat} {rule : Rule} {arg : Value} {d d' : Cursor}
  {s s' t : State} {r : Except Halt Outcome}

/-! ## Evaluating once more -/

/-- A fork before the first item stays there, and pulls nothing. -/
theorem eval_idle {b₀ : Buffer} (h : (idle b₀).Alike d d s.source s.source)
    (hrun : (eval g path fuel rule d arg).runFrom s = (r, t)) :
    (idle b₀).Alike d d t.source t.source := by
  rcases Tandem.eval (idle b₀) h hrun with ⟨⟨⟩, -⟩ | ⟨t', hrun', ht⟩
  rw [hrun] at hrun'
  cases hrun'
  exact ht

/-- Evaluated once more where more items wait, a rule gives the same and goes as far, and the buffer
stays as it is. -/
theorem eval_replay {o : Outcome} (h : free.Alike d d' s.source s'.source)
    (hrun : (eval g path fuel rule d arg).runFrom s = (.ok o, t))
    (hreaches : t.source.buffer.Reaches s'.source.buffer)
    (hidle : s.source.buffer.Precedes (s.source.offset d) → s'.source.buffer = s.source.buffer) :
    ∃ t', (eval g path fuel rule d' arg).runFrom s' = (.ok o, t') ∧
      t'.source.buffer = s'.source.buffer ∧ free.Alike d d' t.source t'.source := by
  have hpulled := (eval_keeps Pulled g path fuel rule d arg s).reaches h.isFork
  rw [hrun] at hpulled
  by_cases hbefore : s.source.buffer.Precedes (s.source.offset d)
  · -- nothing is pulled, so both run over the same buffer
    have hsame : same.Alike d d' s.source s'.source := h.change (hidle hbefore) trivial
    rcases Tandem.eval same hsame hrun with ⟨⟨⟩, -⟩ | ⟨t', hrun', ht⟩
    have hback : s'.source.buffer.Reaches t.source.buffer := hidle hbefore ▸ hpulled
    exact ⟨t', hrun', ht.buffer.trans (hreaches.antisymm hback), ht.change trivial trivial⟩
  · have hreplay : (replay s'.source.buffer).Alike d d' s.source s'.source :=
      h.change (.inl ⟨rfl, hpulled.trans hreaches⟩) hbefore
    rcases Tandem.eval (replay s'.source.buffer) hreplay hrun with ⟨-, e, ⟨⟩⟩ | ⟨t', hrun', ht⟩
    · refine ⟨t', hrun', ?_, ht.change trivial trivial⟩
      rcases ht.buffer with ⟨hbuffer, -⟩ | ⟨hbuffer, hback⟩
      · exact hbuffer
      · exact hbuffer.trans (hreaches.antisymm hback)

end Evaluation

end Backtrack
