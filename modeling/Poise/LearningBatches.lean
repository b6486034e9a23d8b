import Poise.ControlPlane

/-!
# Poise control plane: learning batches and failures of the driver

`do_learn` takes digests in a loop that ends with the first exception.  A batch is
processed in a transaction, with one `poise_add` for every context message.  The
handler of a failed table add returns; the handler of a failed register write
raises a second exception, which leaves the transaction open and ends the loop.

Every `poise_add` with a free index takes it, whatever the driver does, so a batch
makes register writes only for as many context messages as there are free indexes.
-/

namespace Poise

section LearningBatches

/-- The messages for which `poise_add` is called, in order. -/
def attemptedAdds : List (LearnMsg × AddCalls) → ControlState → List LearnMsg
  | [], _ => []
  | (m, pd) :: msgs, s =>
      if m.metaIsContext then
        m ::
          match poiseAdd m.key m.metaDigestDec pd s with
          | (s, .returned) => attemptedAdds msgs s
          | (_, .raised) => []
      else
        attemptedAdds msgs s

/-- The loop of `do_learn` over the digests it is given, with the digests it does not get to. -/
def doLearn :
    List (List (LearnMsg × AddCalls)) → ControlState →
      ControlState × List (List (LearnMsg × AddCalls))
  | [], s => (s, [])
  | batch :: batches, s =>
      match learningNotificationsProcess batch s with
      | (s, .returned) => doLearn batches s
      | (s, .raised) => (s, batches)

/-- The context messages of a batch, with what the driver does for them. -/
def contextMsgs (msgs : List (LearnMsg × AddCalls)) : List (LearnMsg × AddCalls) :=
  msgs.filter fun p => p.1.metaIsContext

/-- A register write that raises: it is only made behind a table add. -/
def AddCalls.writeRaises (pd : AddCalls) : Bool :=
  pd.add.isSome && !pd.writeOk

/-- What a batch must leave behind, whatever the driver does. -/
structure BatchSurvives (msgs : List (LearnMsg × AddCalls)) (s : ControlState) : Prop where
  closed : (learningNotificationsProcess msgs s).1.txnOpen = false
  attempted : attemptedAdds msgs { s with txnOpen := true } = (contextMsgs msgs).map Prod.fst
  returned : (learningNotificationsProcess msgs s).2 = .returned
  continues : ∀ rest,
    doLearn (msgs :: rest) s = doLearn rest (learningNotificationsProcess msgs s).1

/-- One `poise_add`: it raises with its register write, and takes a free index if there is one. -/
theorem poiseAdd_spec
    (key : ConnKey)
    (decision : BitVec 8)
    (pd : AddCalls)
    (s : ControlState) :
    ((poiseAdd key decision pd s).2 = .raised ↔ s.freeIdxs ≠ [] ∧ pd.writeRaises = true) ∧
      (poiseAdd key decision pd s).1.freeIdxs = s.freeIdxs.dropLast ∧
      (poiseAdd key decision pd s).1.txnOpen = s.txnOpen := by
  cases hlast : s.freeIdxs.getLast? with
  | none =>
      have hempty : s.freeIdxs = [] := List.getLast?_eq_none_iff.mp hlast
      simp only [poiseAdd, hlast]
      rw [hempty]
      simp
  | some idx =>
      have hne : s.freeIdxs ≠ [] := by
        intro hnil
        rw [hnil] at hlast
        cases hlast
      cases hadd : pd.add with
      | none =>
          simp only [poiseAdd, hlast, hadd, AddCalls.writeRaises]
          exact ⟨by simp, rfl, trivial⟩
      | some handle =>
          cases hwrite : pd.writeOk with
          | true =>
              simp only [poiseAdd, hlast, hadd, hwrite, AddCalls.writeRaises, if_true]
              exact ⟨by simp, rfl, rfl⟩
          | false =>
              simp only [poiseAdd, hlast, hadd, hwrite, AddCalls.writeRaises]
              exact ⟨by simp [hne], rfl, rfl⟩

section Filter

variable {m : LearnMsg}

theorem contextMsgs_cons_of_context
    (hm : m.metaIsContext = true)
    (pd : AddCalls)
    (msgs : List (LearnMsg × AddCalls)) :
    contextMsgs ((m, pd) :: msgs) = (m, pd) :: contextMsgs msgs :=
  List.filter_cons_of_pos hm

theorem contextMsgs_cons_of_other
    (hm : m.metaIsContext = false)
    (pd : AddCalls)
    (msgs : List (LearnMsg × AddCalls)) :
    contextMsgs ((m, pd) :: msgs) = contextMsgs msgs :=
  List.filter_cons_of_neg (by simp [hm])

end Filter

/-- The condition on the next context message, and the one on those behind it. -/
theorem forall_take_cons_iff
    {α : Type}
    (a : α)
    (l : List α)
    (free : List Nat)
    (P : α → Prop) :
    (∀ p, p ∈ (a :: l).take free.length → P p) ↔
      (free ≠ [] → P a) ∧ ∀ p, p ∈ l.take free.dropLast.length → P p := by
  cases free with
  | nil =>
      simp
  | cons i free =>
      rw [List.length_dropLast, List.length_cons, Nat.add_sub_cancel, List.take_succ_cons,
        List.forall_mem_cons]
      exact and_congr_left' ⟨fun h _ => h, fun h => h (List.cons_ne_nil i free)⟩

/-- The loop returns when no register write raises while there are free indexes. -/
theorem learnLoop_returned_iff
    (msgs : List (LearnMsg × AddCalls))
    (s : ControlState) :
    (learnLoop msgs s).2 = .returned ↔
      ∀ p, p ∈ (contextMsgs msgs).take s.freeIdxs.length → ¬ p.2.writeRaises = true := by
  induction msgs generalizing s with
  | nil =>
      simp [learnLoop, contextMsgs]
  | cons msg msgs ih =>
      obtain ⟨m, pd⟩ := msg
      cases hm : m.metaIsContext with
      | false =>
          have hloop : learnLoop ((m, pd) :: msgs) s = learnLoop msgs s := by
            rw [learnLoop, hm, if_neg Bool.false_ne_true]
          rw [hloop, contextMsgs_cons_of_other hm]
          exact ih s
      | true =>
          obtain ⟨hraised, hfree, _⟩ := poiseAdd_spec m.key m.metaDigestDec pd s
          rw [contextMsgs_cons_of_context hm, forall_take_cons_iff, ← hfree, learnLoop, hm,
            if_pos rfl]
          generalize poiseAdd m.key m.metaDigestDec pd s = added at hraised ⊢
          obtain ⟨s', outcome⟩ := added
          cases outcome with
          | returned =>
              have hok : s.freeIdxs ≠ [] → ¬ pd.writeRaises = true := fun hne hwrite =>
                Outcome.noConfusion (hraised.mpr ⟨hne, hwrite⟩)
              exact (ih s').trans (and_iff_right hok).symm
          | raised =>
              obtain ⟨hne, hwrite⟩ := hraised.mp rfl
              exact iff_of_false Outcome.noConfusion fun h => h.1 hne hwrite

/-- A loop that returns has called `poise_add` for all context messages. -/
theorem attemptedAdds_of_returned
    (msgs : List (LearnMsg × AddCalls))
    (s : ControlState)
    (h : (learnLoop msgs s).2 = .returned) :
    attemptedAdds msgs s = (contextMsgs msgs).map Prod.fst := by
  induction msgs generalizing s with
  | nil =>
      rfl
  | cons msg msgs ih =>
      obtain ⟨m, pd⟩ := msg
      cases hm : m.metaIsContext with
      | false =>
          rw [learnLoop, hm, if_neg Bool.false_ne_true] at h
          rw [attemptedAdds, hm, if_neg Bool.false_ne_true, contextMsgs_cons_of_other hm]
          exact ih s h
      | true =>
          rw [learnLoop, hm, if_pos rfl] at h
          rw [attemptedAdds, hm, if_pos rfl, contextMsgs_cons_of_context hm, List.map_cons]
          generalize poiseAdd m.key m.metaDigestDec pd s = added at h ⊢
          obtain ⟨s', outcome⟩ := added
          cases outcome with
          | returned =>
              exact congrArg (m :: ·) (ih s' h)
          | raised =>
              cases h

/--
For every batch, every pattern of failures of the driver in it, and every state of
the controller: the transaction is closed, `poise_add` is attempted for every
context message, the batch returns and `do_learn` goes on, if and only if no
register write raises for one of the first context messages, as many as there are
free indexes.
-/
theorem batchSurvives_iff
    (msgs : List (LearnMsg × AddCalls))
    (s : ControlState) :
    BatchSurvives msgs s ↔
      ∀ p, p ∈ (contextMsgs msgs).take s.freeIdxs.length → ¬ p.2.writeRaises = true := by
  have hiff := learnLoop_returned_iff msgs { s with txnOpen := true }
  have hattempts := attemptedAdds_of_returned msgs { s with txnOpen := true }
  rw [← hiff]
  constructor
  · intro h
    have hreturned := h.returned
    rw [learningNotificationsProcess] at hreturned
    generalize learnLoop msgs { s with txnOpen := true } = looped at hreturned ⊢
    obtain ⟨s', outcome⟩ := looped
    cases outcome with
    | returned =>
        rfl
    | raised =>
        cases hreturned
  · intro hreturned
    have hprocess : learningNotificationsProcess msgs s =
        ({ (learnLoop msgs { s with txnOpen := true }).1 with txnOpen := false }, .returned) := by
      rw [learningNotificationsProcess]
      generalize learnLoop msgs { s with txnOpen := true } = looped at hreturned ⊢
      obtain ⟨s', outcome⟩ := looped
      cases hreturned
      rfl
    constructor
    case closed =>
      rw [hprocess]
    case attempted =>
      exact hattempts hreturned
    case returned =>
      rw [hprocess]
    case continues =>
      intro rest
      rw [doLearn, hprocess]

/-- A register write that raises ends the batch and the loop over the digests. -/
theorem raised_write_ends_learning
    {m : LearnMsg} {pd : AddCalls} {s : ControlState}
    (hm : m.metaIsContext = true)
    (hwrite : pd.writeRaises = true)
    (hfree : s.freeIdxs ≠ [])
    (msgs : List (LearnMsg × AddCalls))
    (digests : List (List (LearnMsg × AddCalls))) :
    (learningNotificationsProcess ((m, pd) :: msgs) s).1.txnOpen = true ∧
      attemptedAdds ((m, pd) :: msgs) { s with txnOpen := true } = [m] ∧
      (doLearn (((m, pd) :: msgs) :: digests) s).2 = digests := by
  obtain ⟨hraised, _, hopen⟩ := poiseAdd_spec m.key m.metaDigestDec pd { s with txnOpen := true }
  have hend := hraised.mpr ⟨hfree, hwrite⟩
  simp only [learningNotificationsProcess, doLearn, attemptedAdds, learnLoop, hm, if_true]
  generalize poiseAdd m.key m.metaDigestDec pd { s with txnOpen := true } = added at hend hopen ⊢
  obtain ⟨s', outcome⟩ := added
  cases hend
  exact ⟨hopen, rfl, rfl⟩

/-- A context message of a connection. -/
def learnedFrom (port : BitVec 16) : LearnMsg :=
  { tcpSrcPort := port, ipv4SrcAddr := 0x0a000001, ipv4Protocol := 6, metaIsContext := true,
    metaDigestDec := 1 }

/-- After the setup, a batch whose first register write raises leaves its transaction open, its
second message is not looked at, and `do_learn` does not get to the next digest. -/
theorem failed_write_ends_learning :
    (learningNotificationsProcess
        [(learnedFrom 1024, ⟨some 0, false⟩), (learnedFrom 1025, ⟨some 1, true⟩)]
        setup).1.txnOpen = true ∧
      attemptedAdds [(learnedFrom 1024, ⟨some 0, false⟩), (learnedFrom 1025, ⟨some 1, true⟩)]
        { setup with txnOpen := true } = [learnedFrom 1024] ∧
      (doLearn [[(learnedFrom 1024, ⟨some 0, false⟩), (learnedFrom 1025, ⟨some 1, true⟩)], []]
        setup).2 = [[]] := by
  have hfree : setup.freeIdxs ≠ [] := by
    simp [setup, connTbSize]
  exact raised_write_ends_learning rfl rfl hfree _ _

end LearningBatches

end Poise
