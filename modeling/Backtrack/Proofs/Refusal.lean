/-
Requests that fail. Whatever a failing request has done before it failed, it has moved no cursor: at most
it has closed the fork that it was to join, and made the buffer longer. So it goes on as if the request
had not been made, but that an element which raised is met once only. A fork that is closed, also by a
join that failed, can never be used again, and what it has consumed is taken over at most once.
-/
import Backtrack.Proofs.Beside
namespace Backtrack

namespace Source

variable {s u : Source} {c d : Cursor} {g : Nat} {r : Request} {path : Path} {e : Failure}

/-! ## What a failing request leaves -/

theorem not_grants_of_error (h : ((r.perform path c).runOn s).1 = .error e) : ¬ s.Grants path c r := by
  rintro ⟨answer, hanswer⟩
  rw [h] at hanswer
  cases hanswer

/-- A request that fails leaves all forks as they are, or closes the one that it was to join. -/
theorem forks_of_error (hs : s.Proper) (h : ((r.perform path c).runOn s).1 = .error e) :
    (s.after [⟨path, c, r⟩]).position = s.position ∧
      ((s.after [⟨path, c, r⟩]).forks = s.forks ∨
        r = .join ∧ ∃ g, c = .fork g ∧ (s.after [⟨path, c, r⟩]).forks =
          (s.setFork g fun f => { f with closed := true }).forks) := by
  have hrefused := not_grants_of_error h
  rw [after_single]
  cases r with
  | read n => exact ⟨position_read .., .inl (forks_read ..)⟩
  | consume n =>
    have hstays : ((consume c n).runOn s).2 = s := by
      cases hc : s.isClosed c with
      | true =>
        cases c with
        | root => cases hc
        | fork g => rw [runOn_consume_of_closed hc]
      | false =>
        rw [grants_consume_iff, consume_ok_iff hc] at hrefused
        obtain ⟨e', he⟩ := Option.ne_none_iff_exists'.1 hrefused
        rw [runOn_consume_of_some hc he]
    exact ⟨congrArg Source.position hstays, .inl (congrArg Source.forks hstays)⟩
  | fork =>
    rw [grants_fork_iff, Bool.not_eq_false] at hrefused
    dsimp only
    rw [runOn_fork_of_closed hrefused]
    exact ⟨rfl, .inl rfl⟩
  | join =>
    rw [grants_join_iff] at hrefused
    dsimp only
    cases c with
    | root => exact absurd ⟨(), rfl⟩ hrefused
    | fork g =>
      cases hc : s.isClosed (.fork g) with
      | true =>
        rw [runOn_join_fork, if_pos hc]
        exact ⟨rfl, .inl rfl⟩
      | false =>
        rw [join_ok_iff hs hc] at hrefused
        cases hp : s.parentAt g with
        | root =>
          rw [hp] at hrefused
          obtain ⟨e', he⟩ := Option.ne_none_iff_exists'.1 fun hnone => hrefused ⟨rfl, fun _ => hnone⟩
          rw [runOn_join_of_refused hc hp he]
          exact ⟨rfl, .inr ⟨rfl, g, rfl, rfl⟩⟩
        | fork p =>
          rw [hp] at hrefused
          have hpc : s.isClosed (.fork p) = true := by
            by_contra hopen
            exact hrefused ⟨Bool.eq_false_of_not_eq_true hopen, nofun⟩
          rw [runOn_join_of_closed hs hc (parent_of_parentAt hp) hpc]
          exact ⟨rfl, .inr ⟨rfl, g, rfl, rfl⟩⟩
  | close =>
    rw [grants_close_iff, not_not] at hrefused
    subst hrefused
    exact ⟨rfl, .inl rfl⟩

/-- No cursor has moved, and all that were open are, but for the one that was to be joined. -/
structure Unmoved (c : Cursor) (r : Request) (s u : Source) : Prop where
  position : u.position = s.position
  offset : ∀ d, u.offset d = s.offset d
  isClosed : ∀ d, u.isClosed d = s.isClosed d ∨ r = .join ∧ d = c ∧ u.isClosed d = true
  size_forks : u.forks.size = s.forks.size

theorem unmoved_of_error (hs : s.Proper) (h : ((r.perform path c).runOn s).1 = .error e) :
    Unmoved c r s (s.after [⟨path, c, r⟩]) := by
  obtain ⟨hposition, hforks | ⟨rfl, g, rfl, hforks⟩⟩ := forks_of_error hs h
  · exact ⟨hposition, offset_congr hforks, fun d => .inl (isClosed_congr hforks d),
      congrArg Array.size hforks⟩
  · refine ⟨hposition, fun d => ?_, fun d => ?_, ?_⟩
    · rw [offset_congr hforks]
      cases d with
      | root => rfl
      | fork k => exact offset_setFork_closed s g k
    · rw [isClosed_congr hforks]
      cases d with
      | root => exact .inl rfl
      | fork k =>
        rcases forkAt_setFork_or s g (fun f => { f with closed := true }) k with hk | ⟨rfl, hk⟩
        · exact .inl (congrArg Fork.closed hk)
        · exact .inr ⟨rfl, rfl, congrArg Fork.closed hk⟩
    · rw [hforks, size_forks_setFork]

/-- The twins of a run in which a request was made and failed: each cursor that it has not closed is its
own. -/
def keptCursors (s u : Source) : Twins := fun d d' => d' = d ∧ s.Given d ∧ u.isClosed d = s.isClosed d

theorem lags_of_error {b : Buffer} (hs : s.Proper) (hb : s.OnTape b)
    (h : ((r.perform path c).runOn s).1 = .error e) :
    Lags (keptCursors s (s.after [⟨path, c, r⟩])) s (s.after [⟨path, c, r⟩]) := by
  have hunmoved := unmoved_of_error hs h
  obtain ⟨b', hreaches, hb'⟩ := OnTape.after [⟨path, c, r⟩] hs hb
  refine ⟨⟨hunmoved.position, ⟨rfl, trivial, rfl⟩, ?_, ?_, ?_, ?_⟩, hs, hs.after _, b, b', hb, hb', hreaches⟩
  · rintro d _ k _ ⟨rfl, -⟩ ⟨rfl, -⟩
    exact Iff.rfl
  · rintro d _ ⟨rfl, hd, -⟩
    exact ⟨hd, hd.after _⟩
  · rintro _ d ⟨rfl, -⟩
    exact hunmoved.offset d
  · rintro d _ ⟨rfl, -, hclosed⟩
    exact hclosed

/-! ## Closed forks -/

/-- A fork that is closed stays closed where forks are changed, if the change opens none. -/
theorem isClosed_setFork {change : Fork → Fork}
    (hkeeps : ∀ f : Fork, f.closed = true → (change f).closed = true) (id : Nat)
    (hclosed : s.isClosed (.fork g) = true) : (s.setFork id change).isClosed (.fork g) = true := by
  rcases forkAt_setFork_or s id change g with hk | ⟨rfl, hk⟩
  · exact (congrArg Fork.closed hk).trans hclosed
  · exact (congrArg Fork.closed hk).trans (hkeeps _ hclosed)

theorem Change.isClosed (h : Change s u) (hclosed : s.isClosed (.fork g) = true) :
    u.isClosed (.fork g) = true := by
  cases h with
  | filled _ _ hforks => exact (isClosed_congr hforks _).trans hclosed
  | passed _ _ _ _ _ hforks => exact (isClosed_congr hforks _).trans hclosed
  | advanced => exact isClosed_setFork (by simp) _ hclosed
  | closed => exact isClosed_setFork (by simp) _ hclosed
  | handed => exact isClosed_setFork (by simp) _ hclosed

/-- A closed fork is never opened again. -/
theorem isClosed_after (uses : List Use) (hg : s.Given (.fork g)) (hclosed : s.isClosed (.fork g) = true) :
    (s.after uses).isClosed (.fork g) = true := by
  have h := after_induction (P := fun u => u.Given (.fork g) ∧ u.isClosed (.fork g) = true)
    (fun h hu => ⟨(given_congr h.size_forks _).2 hu.1, h.isClosed hu.2⟩)
    (fun {_ c} _ hu => ⟨hu.1.addFork c, (isClosed_addFork hu.1 c).trans hu.2⟩) uses ⟨hg, hclosed⟩
  exact h.2

theorem isClosed_acted (acts : List Action) (hs : s.Proper) (hg : s.Given (.fork g))
    (hclosed : s.isClosed (.fork g) = true) : (s.acted acts).isClosed (.fork g) = true := by
  obtain ⟨uses, huses⟩ := exists_makes acts hs
  obtain ⟨events, heq⟩ := huses.matches
  rw [heq]
  exact (isClosed_congr rfl _).trans (isClosed_after uses hg hclosed)

/-- All that can still be asked of a closed fork is to close it. -/
theorem runOn_perform_of_closed (hclosed : s.isClosed (.fork g) = true) (hr : r ≠ .close) :
    (r.perform path (.fork g)).runOn s = (.error forkClosed, s) := by
  cases r with
  | read n =>
    simp only [Request.perform]
    rw [SourceM.runOn_bind, runOn_read_of_closed hclosed]
  | consume n =>
    simp only [Request.perform]
    rw [SourceM.runOn_bind, runOn_consume_of_closed hclosed]
  | fork =>
    simp only [Request.perform]
    rw [SourceM.runOn_bind, runOn_fork_of_closed hclosed]
  | join =>
    simp only [Request.perform]
    rw [SourceM.runOn_bind, runOn_join_fork, if_pos hclosed]
  | close => exact absurd rfl hr

theorem forks_consumeRoot (amount : Int) (s : Source) :
    ((consumeRoot amount).runOn s).2.forks = s.forks := by
  cases h : consumeFailure? s.buffer 0 amount with
  | some e => rw [runOn_consumeRoot_of_some h]
  | none => rw [runOn_consumeRoot h]

/-- A join closes the fork, whatever becomes of it, and so does closing it. -/
theorem isClosed_after_join_or_close (hg : s.Given (.fork g)) (path : Path)
    (hr : r = .join ∨ r = .close) : (s.after [⟨path, .fork g, r⟩]).isClosed (.fork g) = true := by
  have hclose : (s.setFork g fun f => { f with closed := true }).isClosed (.fork g) = true :=
    congrArg Fork.closed (forkAt_setFork_self hg _)
  rw [after_single]
  rcases hr with rfl | rfl
  · dsimp only
    rw [runOn_join_fork]
    split
    · assumption
    · split
      · exact (isClosed_congr (forks_consumeRoot ..) _).trans hclose
      · rename_i p _
        split
        · exact hclose
        · -- the parent takes the offset over, and nothing else
          exact isClosed_setFork (by simp) p hclose
  · dsimp only
    rw [runOn_close_fork]
    exact hclose

/-! ## Taking over -/

/-- Whether a use makes the parent of the fork `g` take over what the fork has consumed. -/
def takesOver (g : Nat) (s : Source) : Use → Bool
  | ⟨_, .fork id, .join⟩ => id == g && ((join (.fork id)).runOn s).1.isOk
  | _ => false

/-- How often a run does so. -/
def timesTakenOver (g : Nat) (s : Source) : List Use → Nat
  | [] => 0
  | use :: uses => (s.takesOver g use).toNat + (s.after [use]).timesTakenOver g uses

theorem isOpen_of_takesOver {use : Use} (h : s.takesOver g use = true) :
    s.isClosed (.fork g) = false ∧ use.cursor = .fork g ∧ use.request = .join := by
  obtain ⟨path, c, r⟩ := use
  simp only [takesOver] at h
  split at h
  · rename_i id huse
    cases huse
    obtain ⟨hid, hok⟩ := Bool.and_eq_true_iff.1 h
    obtain rfl := beq_iff_eq.1 hid
    refine ⟨Bool.eq_false_of_not_eq_true fun hclosed => ?_, rfl, rfl⟩
    rw [runOn_join_fork, if_pos hclosed] at hok
    cases hok
  · cases h

theorem timesTakenOver_of_closed (uses : List Use) : ∀ {s : Source}, s.Given (.fork g) →
    s.isClosed (.fork g) = true → s.timesTakenOver g uses = 0 := by
  induction uses with
  | nil => exact fun _ _ => rfl
  | cons use uses ih =>
    intro s hg hclosed
    have hnone : s.takesOver g use = false := by
      by_contra htakes
      have hopen := (isOpen_of_takesOver (Bool.eq_true_of_not_eq_false htakes)).1
      exact Bool.false_ne_true (hopen.symm.trans hclosed)
    rw [timesTakenOver, hnone, ih (hg.after [use]) (isClosed_after [use] hg hclosed)]
    rfl

theorem timesTakenOver_le_one (g : Nat) (uses : List Use) : ∀ s : Source,
    s.timesTakenOver g uses ≤ 1 := by
  induction uses with
  | nil => exact fun _ => Nat.zero_le 1
  | cons use uses ih =>
    intro s
    rw [timesTakenOver]
    cases htakes : s.takesOver g use with
    | false => exact (Nat.zero_add _).trans_le (ih _)
    | true =>
      obtain ⟨path, c, r⟩ := use
      obtain ⟨hopen, rfl, rfl⟩ : s.isClosed (.fork g) = false ∧ c = .fork g ∧ r = .join :=
        isOpen_of_takesOver htakes
      have hg : s.Given (.fork g) := lt_size_of_open hopen
      rw [timesTakenOver_of_closed uses (hg.after _) (isClosed_after_join_or_close hg path (.inl rfl))]
      rfl

/-! ## Failing without effect -/

/-- The fork can no longer be used: however long the run goes on, it stays closed, and all that it is
asked for, but to be closed, fails and does nothing. -/
def Spent (g : Nat) (s : Source) : Prop :=
  ∀ acts : List Action, (s.acted acts).isClosed (.fork g) = true ∧
    ∀ (r : Request) (path : Path), r ≠ .close →
      (r.perform path (.fork g)).runOn (s.acted acts) = (.error forkClosed, s.acted acts)

theorem spent_of_closed (hs : s.Proper) (hg : s.Given (.fork g)) (hclosed : s.isClosed (.fork g) = true) :
    Spent g s := fun acts =>
  ⟨isClosed_acted acts hs hg hclosed, fun _ _ hr =>
    runOn_perform_of_closed (isClosed_acted acts hs hg hclosed) hr⟩

/-- A request that fails moves no cursor, whatever has been done with the source before and whichever cursor
it was made of. From then on all cursors that are open read what they would have read without it, but that
an element which raised is met once only. A fork that was closed or joined, even if the join failed, can
never be used again, and so what a fork has consumed is taken over at most once. -/
theorem unmoved_and_unaffected_of_error (hs : s.InUse) :
    (∀ (r : Request) (path : Path) (c : Cursor) (e : Failure),
      ((r.perform path c).runOn s).1 = .error e →
        Unmoved c r s (s.after [⟨path, c, r⟩]) ∧
        ∀ (T : Twins) (w u : Source),
          Beside (fun _ _ => False) (keptCursors s (s.after [⟨path, c, r⟩])) s (s.after [⟨path, c, r⟩])
              T w u →
            Unaffected T w u ∧ ∀ d, s.Given d →
              (s.after [⟨path, c, r⟩]).isClosed d = s.isClosed d → T d d) ∧
    (∀ g, s.Given (.fork g) → s.isClosed (.fork g) = true → Spent g s) ∧
    (∀ g, s.Given (.fork g) → ∀ (path : Path) (r : Request), r = .join ∨ r = .close →
      Spent g (s.after [⟨path, .fork g, r⟩])) ∧
    ∀ (g : Nat) (uses : List Use), s.timesTakenOver g uses ≤ 1 := by
  refine ⟨fun r path c e h => ⟨unmoved_of_error hs.proper h, fun T w u hbeside => ?_⟩,
    fun g => spent_of_closed hs.proper,
    fun g hg path r hr => spent_of_closed (hs.proper.after _) (hg.after _)
      (isClosed_after_join_or_close hg path hr),
    fun g uses => timesTakenOver_le_one g uses s⟩
  obtain ⟨b, hb⟩ := hs.exists_onTape
  exact ⟨(hbeside.lags (lags_of_error hs.proper hb h) fun _ hnever => hnever.elim).unaffected,
    fun d hd hclosed => hbeside.twins ⟨rfl, hd, hclosed⟩⟩

/-- A fork of a fork that is closed in the meantime. -/
def orphaned : Source := (Source.ofData (.str [97, 98])).acted
  [.request ⟨.blocking, .root, .fork⟩, .request ⟨.blocking, .fork 0, .fork⟩,
    .request ⟨.blocking, .fork 1, .consume 1⟩, .request ⟨.blocking, .fork 0, .close⟩]

theorem unmoved_and_unaffected_of_error_orphaned :
    orphaned.InUse ∧
    ((Request.join.perform .blocking (.fork 1)).runOn orphaned).1 = .error forkClosed ∧
    Unmoved (.fork 1) .join orphaned (orphaned.after [⟨.blocking, .fork 1, .join⟩]) ∧
    Unaffected (keptCursors orphaned (orphaned.after [⟨.blocking, .fork 1, .join⟩])) orphaned
      (orphaned.after [⟨.blocking, .fork 1, .join⟩]) ∧
    orphaned.Given (.fork 1) ∧ Spent 1 (orphaned.after [⟨.blocking, .fork 1, .join⟩]) := by
  have hused : orphaned.InUse := ⟨_, _, .ofData (.str [97, 98]), rfl⟩
  have hfails : ((Request.join.perform .blocking (.fork 1)).runOn orphaned).1 = .error forkClosed := rfl
  have hgiven : orphaned.Given (.fork 1) := Nat.one_lt_two
  obtain ⟨herror, -, hspent, -⟩ := unmoved_and_unaffected_of_error hused
  obtain ⟨hunmoved, hlater⟩ := herror .join .blocking (.fork 1) forkClosed hfails
  exact ⟨hused, hfails, hunmoved, (hlater _ _ _ .start).1, hgiven,
    hspent 1 hgiven .blocking .join (.inl rfl)⟩

end Source
end Backtrack
