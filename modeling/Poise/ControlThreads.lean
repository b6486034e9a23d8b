import Mathlib.Tactic
import Poise.ControlPlane

/-!
# Poise control plane: the learning and the ageing thread

The two threads share the pool, the table and the registers without a lock, so
their driver calls interleave in any order.  `poise_add` pops an index, adds the
entry and writes the decision; `age_out` reads an entry, deletes it, recycles
its index and only then resets the register.

* Run alone, the steps of a thread are the operations of the sequential model.
* In every run in which no decision is written between the recycling of its
  index and the reset, all installed connections keep their learned decision.
-/

namespace Poise

open Foundations

section ControlThreads

/-- Where the learning thread is in `poise_add`; an exception that leaves it ends the thread. -/
inductive LearnPc where
  | idle
  | popped (key : ConnKey) (decision : BitVec 8) (idx : Nat)
  | added (e : ConnEntry)
  | stopped
deriving DecidableEq, Repr

/-- Where the ageing thread is in the loop of `age_out`. -/
inductive AgePc where
  | idle
  | read (handle idx : Nat)
  | deleted (idx : Nat)
  | recycled (idx : Nat)
  | stopped
deriving DecidableEq, Repr

namespace LearnPc

/-- The index the thread has popped and not installed. -/
def held : LearnPc → List Nat
  | .popped _ _ idx => [idx]
  | _ => []

/-- The thread is not inside `poise_add`. -/
def isBetween : LearnPc → Bool
  | .idle => true
  | .stopped => true
  | _ => false

/-- How the thread goes on after `poise_add`. -/
def after : Outcome → LearnPc
  | .returned => .idle
  | .raised => .stopped

end LearnPc

namespace AgePc

/-- The index the thread has taken from the table and not recycled. -/
def held : AgePc → List Nat
  | .deleted idx => [idx]
  | _ => []

/-- The thread is not inside the loop of `age_out`. -/
def isBetween : AgePc → Bool
  | .idle => true
  | .stopped => true
  | _ => false

def after : Outcome → AgePc
  | .returned => .idle
  | .raised => .stopped

end AgePc

/-- The first step of `poise_add`: without a free index it returns at once. -/
def popStep (key : ConnKey) (decision : BitVec 8) (t : ConnIndexes) : ConnIndexes × LearnPc :=
  match t.freeIdxs.getLast? with
  | none => (t, .idle)
  | some idx => (t.pop, .popped key decision idx)

/-- The table add of `poise_add`, which gives a handle unless it raises. -/
def addStep
    (handle : Option Nat) (key : ConnKey) (decision : BitVec 8) (idx : Nat) (t : ConnIndexes) :
    ConnIndexes × LearnPc :=
  match handle with
  | none => (t, .idle)
  | some handle =>
      let e : ConnEntry := { handle := handle, key := key, idx := idx, decision := decision }
      (t.install e, .added e)

/-- Popping an index leaves the table alone. -/
@[simp] theorem connTab_popStep
    (key : ConnKey) (decision : BitVec 8) (t : ConnIndexes) :
    (popStep key decision t).1.connTab = t.connTab := by
  unfold popStep
  cases t.freeIdxs.getLast? <;> rfl

/-- The shared state and the two threads. -/
structure Threads where
  control : ControlState
  learner : LearnPc
  aging : AgePc

/-- The steps of the threads, each with what the driver answers. -/
inductive ThreadStep where
  | pop (key : ConnKey) (decision : BitVec 8)
  | add (handle : Option Nat)
  | writeDecision (ok : Bool)
  | getEntry (handle : Nat) (ok : Bool)
  | delete (ok : Bool)
  | recycle
  | writeUnseen (ok : Bool)
deriving DecidableEq, Repr

/-- One step of one thread; a step the thread is not at leaves the state alone. -/
def threadStep (t : Threads) : ThreadStep → Threads
  | .pop key decision =>
      match t.learner with
      | .idle =>
          let (indexes, pc) := popStep key decision t.control.toConnIndexes
          { t with control := { t.control with toConnIndexes := indexes }, learner := pc }
      | _ => t
  | .add handle =>
      match t.learner with
      | .popped key decision idx =>
          let (indexes, pc) := addStep handle key decision idx t.control.toConnIndexes
          { t with control := { t.control with toConnIndexes := indexes }, learner := pc }
      | _ => t
  | .writeDecision ok =>
      match t.learner with
      | .added e =>
          if ok then
            { t with control := t.control.writeDecision e.idx e.decision, learner := .idle }
          else
            { t with learner := .stopped }
      | _ => t
  | .getEntry handle ok =>
      match t.aging with
      | .idle =>
          match t.control.getEntry handle with
          | none => { t with aging := .stopped }
          | some e => { t with aging := if ok then .read handle e.idx else .stopped }
      | _ => t
  | .delete ok =>
      match t.aging with
      | .read handle idx =>
          if ok then
            { t with
              control := { t.control with toConnIndexes := t.control.delete handle }
              aging := .deleted idx }
          else
            { t with aging := .stopped }
      | _ => t
  | .recycle =>
      match t.aging with
      | .deleted idx =>
          { t with
            control := { t.control with toConnIndexes := t.control.recycleIdx idx }
            aging := .recycled idx }
      | _ => t
  | .writeUnseen ok =>
      match t.aging with
      | .recycled idx =>
          { t with
            control := if ok then t.control.writeDecision idx unseen else t.control
            aging := .idle }
      | _ => t

/-- The state after some steps of the threads on a controller that was set up. -/
def threadRun (steps : List ThreadStep) : Threads :=
  steps.foldl threadStep { control := setup, learner := .idle, aging := .idle }

/-- Without interference the steps of the learning thread are `poise_add`. -/
theorem poiseAdd_steps
    (key : ConnKey) (decision : BitVec 8) (pd : AddCalls)
    {t : Threads}
    (hidle : t.learner = .idle) :
    [ThreadStep.pop key decision, .add pd.add, .writeDecision pd.writeOk].foldl threadStep t =
      { t with
        control := (poiseAdd key decision pd t.control).1
        learner := .after (poiseAdd key decision pd t.control).2 } := by
  obtain ⟨control, learner, aging⟩ := t
  cases hidle
  cases hlast : control.freeIdxs.getLast? with
  | none =>
      simp [threadStep, popStep, poiseAdd, hlast, LearnPc.after]
  | some idx =>
      cases hadd : pd.add with
      | none =>
          simp [threadStep, popStep, addStep, poiseAdd, hlast, hadd, LearnPc.after]
      | some handle =>
          cases hwrite : pd.writeOk <;>
            simp [threadStep, popStep, addStep, poiseAdd, hlast, hadd, hwrite, LearnPc.after]

/-- Without interference the steps of the ageing thread are the body of `age_out`. -/
theorem ageOutEntry_steps
    (handle : Nat) (pd : AgeCalls)
    {t : Threads}
    (hidle : t.aging = .idle) :
    [ThreadStep.getEntry handle pd.getOk, .delete pd.deleteOk, .recycle,
        .writeUnseen pd.writeOk].foldl threadStep t =
      { t with
        control := (ageOutEntry handle pd t.control).1
        aging := .after (ageOutEntry handle pd t.control).2 } := by
  obtain ⟨control, learner, aging⟩ := t
  cases hidle
  cases hget : control.getEntry handle with
  | none =>
      simp [threadStep, ageOutEntry, hget, AgePc.after]
  | some e =>
      cases hgetOk : pd.getOk with
      | false =>
          simp [threadStep, ageOutEntry, hget, hgetOk, AgePc.after]
      | true =>
          cases hdelete : pd.deleteOk <;>
            simp [threadStep, ageOutEntry, hget, hgetOk, hdelete, AgePc.after]

/--
What the learning thread owns: the index it popped is neither free nor installed,
and the entry it added is the only one with its decision cell.
-/
structure LearnerInv (t : ConnIndexes) (pc : LearnPc) (others : List Nat) : Prop where
  accounted : ∃ lost, IndexesAccounted (pc.held ++ (others ++ lost)) t
  added : ∀ e, pc = .added e →
    ∀ e', e' ∈ t.connTab → cellOfIndex e'.idx = cellOfIndex e.idx → e' = e

namespace LearnerInv

variable {t : ConnIndexes} {others : List Nat}

/-- A thread that is at none of its steps owns nothing. -/
theorem of_accounted
    {pc : LearnPc} {lost : List Nat}
    (h : IndexesAccounted (others ++ lost) t)
    (hheld : pc.held = [])
    (hpc : ∀ e, pc ≠ .added e) :
    LearnerInv t pc others := by
  constructor
  · refine ⟨lost, ?_⟩
    rw [hheld]
    exact h
  · intro e he
    exact absurd he (hpc e)

theorem popStep
    (key : ConnKey) (decision : BitVec 8)
    (h : LearnerInv t .idle others) :
    LearnerInv (popStep key decision t).1 (popStep key decision t).2 others := by
  obtain ⟨lost, hacc⟩ := h.accounted
  unfold Poise.popStep
  cases hlast : t.freeIdxs.getLast? with
  | none =>
      exact h
  | some idx =>
      constructor
      · exact ⟨lost, hacc.pop hlast⟩
      · intro e he
        cases he

theorem addStep
    {key : ConnKey} {decision : BitVec 8} {idx : Nat}
    (handle : Option Nat)
    (h : LearnerInv t (.popped key decision idx) others) :
    LearnerInv (addStep handle key decision idx t).1 (addStep handle key decision idx t).2
      others := by
  obtain ⟨lost, hacc⟩ := h.accounted
  cases handle with
  | none =>
      -- the popped index stays lost
      have hlost : IndexesAccounted (others ++ idx :: lost) t :=
        hacc.held_perm List.perm_middle
      exact of_accounted hlost rfl (by simp [Poise.addStep])
  | some handle =>
      have hinstalled :=
        IndexesAccounted.install
          { handle := handle, key := key, idx := idx, decision := decision } hacc
      constructor
      · exact ⟨lost, hinstalled⟩
      · intro e he e' he' hcell
        cases he
        exact hinstalled.eq_of_cell he' (List.mem_append_right _ (List.mem_singleton.mpr rfl)) hcell

/-- The decision register is written, or the write raises. -/
theorem written
    {e : ConnEntry} {pc : LearnPc}
    (h : LearnerInv t (.added e) others)
    (hheld : pc.held = [])
    (hpc : ∀ e, pc ≠ .added e) :
    LearnerInv t pc others := by
  obtain ⟨lost, hacc⟩ := h.accounted
  exact of_accounted hacc hheld hpc

end LearnerInv

/-- Every installed connection has its learned decision in its register. -/
def DecisionsKept (s : ControlState) : Prop :=
  ∀ e, e ∈ s.connTab → s.connDecision e.idx = e.decision

/-- Both threads are between operations. -/
def Threads.isBetween (t : Threads) : Bool :=
  t.learner.isBetween && t.aging.isBetween

/--
The register write of `poise_add` does not raise, and does not fall between the
recycling of its index by `age_out` and the reset of its register.
-/
def WritesOutsideReset (t : Threads) : ThreadStep → Prop
  | .writeDecision ok =>
      match t.learner with
      | .added e => ok = true ∧ t.aging ≠ .recycled e.idx
      | _ => True
  | _ => True

/-- What holds at every point of a run. -/
structure ThreadsInv (t : Threads) : Prop where
  learner : LearnerInv t.control.toConnIndexes t.learner t.aging.held
  readEntry : ∀ handle idx, t.aging = .read handle idx →
    ∃ e, t.control.getEntry handle = some e ∧ e.idx = idx
  decided : ∀ e, e ∈ t.control.connTab →
    t.control.connDecision e.idx = e.decision ∨ t.learner = .added e
  recycled : ∀ idx, t.aging = .recycled idx →
    ∀ e, e ∈ t.control.connTab → e.idx = idx → t.learner = .added e

namespace ThreadsInv

variable {t : Threads}

/-- Outside of its two critical points the ageing thread adds nothing to the invariant. -/
theorem of_decided
    {control : ControlState} {learner : LearnPc} {aging : AgePc}
    (hlearner : LearnerInv control.toConnIndexes learner aging.held)
    (hdecided : ∀ e, e ∈ control.connTab →
      control.connDecision e.idx = e.decision ∨ learner = .added e)
    (hread : ∀ handle idx, aging ≠ .read handle idx)
    (hrecycled : ∀ idx, aging ≠ .recycled idx) :
    ThreadsInv { control := control, learner := learner, aging := aging } := by
  refine ⟨hlearner, ?_, hdecided, ?_⟩
  · intro handle idx h
    exact absurd h (hread handle idx)
  · intro idx h
    exact absurd h (hrecycled idx)

/-- With no register write to come every entry has its decision. -/
theorem decisionsKept_of_pc
    (h : ThreadsInv t)
    (hpc : ∀ e, t.learner ≠ .added e) :
    DecisionsKept t.control := by
  intro e he
  rcases h.decided e he with hdec | hadded
  · exact hdec
  · exact absurd hadded (hpc e)

/-- With no register write to come the index to be reset is not installed. -/
theorem recycled_of_pc
    {idx : Nat}
    (h : ThreadsInv t)
    (hpc : ∀ e, t.learner ≠ .added e)
    (hrec : t.aging = .recycled idx) :
    ∀ e, e ∈ t.control.connTab → e.idx ≠ idx := by
  intro e he hidx
  exact hpc e (h.recycled idx hrec e he hidx)

theorem pop
    (key : ConnKey) (decision : BitVec 8)
    (h : ThreadsInv t) :
    ThreadsInv (threadStep t (.pop key decision)) := by
  obtain ⟨control, learner, aging⟩ := t
  cases learner with
  | idle =>
      have htab := connTab_popStep key decision control.toConnIndexes
      have hget : ∀ handle,
          (popStep key decision control.toConnIndexes).1.getEntry handle =
            control.getEntry handle := by
        intro handle
        rw [ConnIndexes.getEntry, ConnIndexes.getEntry, htab]
      constructor
      · exact h.learner.popStep key decision
      · intro handle idx hread
        obtain ⟨e, he, hidx⟩ := h.readEntry handle idx hread
        exact ⟨e, (hget handle).trans he, hidx⟩
      · intro e he
        exact Or.inl (h.decisionsKept_of_pc (by simp) e (htab ▸ he))
      · intro idx hrec e he hidx
        exact absurd hidx (h.recycled_of_pc (by simp) hrec e (htab ▸ he))
  | popped _ _ _ => exact h
  | added _ => exact h
  | stopped => exact h

theorem add
    (handle : Option Nat)
    (h : ThreadsInv t) :
    ThreadsInv (threadStep t (.add handle)) := by
  obtain ⟨control, learner, aging⟩ := t
  cases learner with
  | popped key decision idx =>
      have hlearner := h.learner.addStep handle
      cases handle with
      | none =>
          refine ⟨hlearner, h.readEntry, ?_, ?_⟩
          · intro e he
            exact Or.inl (h.decisionsKept_of_pc (by simp) e he)
          · intro idx' hrec e he hidx
            exact absurd hidx (h.recycled_of_pc (by simp) hrec e he)
      | some handle =>
          refine ⟨hlearner, ?_, ?_, ?_⟩
          · intro handle' idx' hread
            obtain ⟨e, he, hidx⟩ := h.readEntry handle' idx' hread
            exact ⟨e, ConnIndexes.getEntry_install _ he, hidx⟩
          · intro e he
            rcases List.mem_append.mp he with hold | hlast
            · exact Or.inl (h.decisionsKept_of_pc (by simp) e hold)
            · exact Or.inr (by rw [List.mem_singleton.mp hlast]; rfl)
          · intro idx' hrec e he hidx
            rcases List.mem_append.mp he with hold | hlast
            · exact absurd hidx (h.recycled_of_pc (by simp) hrec e hold)
            · rw [List.mem_singleton.mp hlast]
              rfl
  | idle => exact h
  | added _ => exact h
  | stopped => exact h

theorem writeDecision
    {ok : Bool}
    (h : ThreadsInv t)
    (hok : WritesOutsideReset t (.writeDecision ok)) :
    ThreadsInv (threadStep t (.writeDecision ok)) := by
  obtain ⟨control, learner, aging⟩ := t
  cases learner with
  | added e =>
      obtain ⟨rfl, hreset⟩ := hok
      refine ⟨h.learner.written rfl (by simp [threadStep]), h.readEntry, ?_, ?_⟩
      · intro e' he'
        left
        change (control.writeDecision e.idx e.decision).connDecision e'.idx = e'.decision
        rw [ControlState.connDecision_writeDecision]
        by_cases hidx : e'.idx = e.idx
        · rw [if_pos hidx, h.learner.added e rfl e' he' (congrArg cellOfIndex hidx)]
        · rw [if_neg hidx]
          rcases h.decided e' he' with hdec | hpc
          · exact hdec
          · cases hpc
            exact absurd rfl hidx
      · intro idx hrec e' he' hidx
        have hpc := h.recycled idx hrec e' he' hidx
        cases hpc
        exact absurd (hrec.trans (congrArg AgePc.recycled hidx.symm)) hreset
  | idle => exact h
  | popped _ _ _ => exact h
  | stopped => exact h

theorem getEntry
    (handle : Nat) (ok : Bool)
    (h : ThreadsInv t) :
    ThreadsInv (threadStep t (.getEntry handle ok)) := by
  obtain ⟨control, learner, aging⟩ := t
  cases aging with
  | idle =>
      cases hget : control.getEntry handle with
      | none =>
          simp only [threadStep, hget]
          exact of_decided h.learner h.decided (by simp) (by simp)
      | some e =>
          cases ok with
          | false =>
              simp only [threadStep, hget, Bool.false_eq_true, if_false]
              exact of_decided h.learner h.decided (by simp) (by simp)
          | true =>
              simp only [threadStep, hget, if_true]
              refine ⟨h.learner, ?_, h.decided, ?_⟩
              · intro handle' idx' hread
                cases hread
                exact ⟨e, hget, rfl⟩
              · intro idx hrec
                cases hrec
  | read _ _ => exact h
  | deleted _ => exact h
  | recycled _ => exact h
  | stopped => exact h

theorem delete
    (ok : Bool)
    (h : ThreadsInv t) :
    ThreadsInv (threadStep t (.delete ok)) := by
  obtain ⟨control, learner, aging⟩ := t
  cases aging with
  | read handle idx =>
      cases ok with
      | false =>
          exact of_decided h.learner h.decided (by simp) (by simp)
      | true =>
          obtain ⟨e, hget, rfl⟩ := h.readEntry handle idx rfl
          obtain ⟨lost, hacc⟩ := h.learner.accounted
          have hsub : ∀ e', e' ∈ (control.delete handle).connTab → e' ∈ control.connTab :=
            fun e' he' => List.mem_of_mem_eraseP he'
          refine of_decided ⟨⟨lost, ?_⟩, ?_⟩ ?_ (by simp) (by simp)
          · exact (hacc.delete hget).held_perm List.perm_middle
          · intro e₀ he₀ e' he' hcell
            exact h.learner.added e₀ he₀ e' (hsub e' he') hcell
          · intro e' he'
            exact h.decided e' (hsub e' he')
  | idle => exact h
  | deleted _ => exact h
  | recycled _ => exact h
  | stopped => exact h

theorem recycle
    (h : ThreadsInv t) :
    ThreadsInv (threadStep t .recycle) := by
  obtain ⟨control, learner, aging⟩ := t
  cases aging with
  | deleted idx =>
      obtain ⟨lost, hacc⟩ := h.learner.accounted
      have hfront : IndexesAccounted (idx :: (learner.held ++ lost)) control.toConnIndexes :=
        hacc.held_perm List.perm_middle.symm
      have hnew : idx ∉ control.installed :=
        (Accounted.nodup hfront List.nodup_range).2.2.2.2 idx List.mem_cons_self
      refine ⟨⟨⟨lost, hfront.recycle⟩, h.learner.added⟩, ?_, h.decided, ?_⟩
      · intro handle idx' hread
        cases hread
      · intro idx' hrec e he hidx
        cases hrec
        exact absurd (List.mem_map.mpr ⟨e, he, hidx⟩) hnew
  | idle => exact h
  | read _ _ => exact h
  | recycled _ => exact h
  | stopped => exact h

theorem writeUnseen
    (ok : Bool)
    (h : ThreadsInv t) :
    ThreadsInv (threadStep t (.writeUnseen ok)) := by
  obtain ⟨control, learner, aging⟩ := t
  cases aging with
  | recycled idx =>
      cases ok with
      | false =>
          exact of_decided h.learner h.decided (by simp) (by simp)
      | true =>
          simp only [threadStep, if_true]
          refine of_decided h.learner ?_ (by simp) (by simp)
          intro e he
          by_cases hidx : e.idx = idx
          · exact Or.inr (h.recycled idx rfl e he hidx)
          · rw [ControlState.connDecision_writeDecision, if_neg hidx]
            exact h.decided e he
  | idle => exact h
  | read _ _ => exact h
  | deleted _ => exact h
  | stopped => exact h

/-- Every step that keeps out of the reset keeps the invariant. -/
theorem step
    {e : ThreadStep}
    (h : ThreadsInv t)
    (hok : WritesOutsideReset t e) :
    ThreadsInv (threadStep t e) := by
  cases e with
  | pop key decision => exact h.pop key decision
  | add handle => exact h.add handle
  | writeDecision ok => exact h.writeDecision hok
  | getEntry handle ok => exact h.getEntry handle ok
  | delete ok => exact h.delete ok
  | recycle => exact h.recycle
  | writeUnseen ok => exact h.writeUnseen ok

/-- Between operations the invariant is what the threads are for. -/
theorem decisionsKept
    (h : ThreadsInv t)
    (hbetween : t.isBetween = true) :
    DecisionsKept t.control := by
  apply h.decisionsKept_of_pc
  intro e hpc
  rw [Threads.isBetween, hpc] at hbetween
  cases hbetween

end ThreadsInv

/-- The invariant holds after setup. -/
theorem threadsInv_setup :
    ThreadsInv { control := setup, learner := .idle, aging := .idle } := by
  have hacc : IndexesAccounted [] setup.toConnIndexes := by
    simp [IndexesAccounted, Accounted, setup, ConnIndexes.installed]
  refine ThreadsInv.of_decided (LearnerInv.of_accounted hacc rfl (by simp)) ?_ (by simp) (by simp)
  intro e he
  cases he

/--
In every interleaving of the two threads in which the register writes of
`poise_add` succeed and stay outside the resets of `age_out`, every installed
connection has its learned decision whenever both threads are between operations.
-/
theorem threadRun_decisionsKept
    (steps : List ThreadStep)
    (hok : ∀ before e after,
      steps = before ++ e :: after → WritesOutsideReset (threadRun before) e) :
    ∀ before after,
      steps = before ++ after →
        (threadRun before).isBetween = true → DecisionsKept (threadRun before).control := by
  intro before after hsplit hbetween
  have hinv : ThreadsInv (threadRun before) := by
    apply foldl_invariant_of_steps threadsInv_setup _ before after hsplit
    intro before e after hes h
    exact h.step (hok before e after hes)
  exact hinv.decisionsKept hbetween

/-- The pool after setup, with the index that is handed out first. -/
theorem setup_eq :
    setup =
      { freeIdxs := List.range 99999 ++ [99999]
        connTab := []
        connDecision := fun _ => 0
        txnOpen := false } := by
  unfold setup
  rw [show connTbSize = 99999 + 1 from rfl, List.range_succ]

/-- A connection is learned with decision 1 and aged out up to the reset of its register. -/
def learnAndAge : List ThreadStep :=
  [.pop (0x0a000001, 4000, 6) 1, .add (some 0), .writeDecision true,
   .getEntry 0 true, .delete true, .recycle]

/-- Another connection is learned with decision 15, which is a drop. -/
def learnNext : List ThreadStep :=
  [.pop (0x0a000002, 4000, 6) 15, .add (some 1), .writeDecision true]

/-- The entry of the second connection. -/
def nextEntry (idx : Nat) : ConnEntry :=
  { handle := 1, key := (0x0a000002, 4000, 6), idx := idx, decision := 15 }

section Schedules

variable (init : List Nat)
variable (idx : Nat)

/-- Both threads are idle, no entry is installed and an index is free. -/
def idleThreads : Threads :=
  { control :=
      { freeIdxs := init ++ [idx]
        connTab := []
        connDecision := fun _ => 0
        txnOpen := false }
    learner := .idle
    aging := .idle }

/-- The first connection is gone and its index is free again. -/
theorem foldl_learnAndAge :
    learnAndAge.foldl threadStep (idleThreads init idx) =
      { control :=
          { freeIdxs := init ++ [idx]
            connTab := []
            connDecision := Function.update (fun _ => 0) idx 1
            txnOpen := false }
        learner := .idle
        aging := .recycled idx } := by
  simp [idleThreads, learnAndAge, threadStep, popStep, addStep, ConnIndexes.pop,
    ConnIndexes.install, ConnIndexes.getEntry, ConnIndexes.delete, ConnIndexes.recycleIdx,
    ControlState.writeDecision]

/-- The second connection is learned and then its register is reset. -/
theorem foldl_overlap :
    (learnAndAge ++ learnNext ++ [ThreadStep.writeUnseen true]).foldl threadStep
        (idleThreads init idx) =
      { control :=
          { freeIdxs := init
            connTab := [nextEntry idx]
            connDecision := Function.update (fun _ => 0) idx 0
            txnOpen := false }
        learner := .idle
        aging := .idle } := by
  rw [List.foldl_append, List.foldl_append, foldl_learnAndAge]
  simp [learnNext, threadStep, popStep, addStep, ConnIndexes.pop, ConnIndexes.install,
    ControlState.writeDecision, nextEntry, unseen]

/-- The register is reset and then the second connection is learned. -/
theorem foldl_separate :
    (learnAndAge ++ ([ThreadStep.writeUnseen true] ++ learnNext)).foldl threadStep
        (idleThreads init idx) =
      { control :=
          { freeIdxs := init
            connTab := [nextEntry idx]
            connDecision := Function.update (fun _ => 0) idx 15
            txnOpen := false }
        learner := .idle
        aging := .idle } := by
  rw [List.foldl_append, foldl_learnAndAge]
  simp [learnNext, threadStep, popStep, addStep, ConnIndexes.pop, ConnIndexes.install,
    ControlState.writeDecision, nextEntry]

/-- With the reset first, no register write falls into it. -/
theorem writesOutsideReset_separate :
    ∀ q, q ∈ trace threadStep (idleThreads init idx)
        (learnAndAge ++ ([ThreadStep.writeUnseen true] ++ learnNext)) →
      WritesOutsideReset q.1 q.2 := by
  rw [trace_append, foldl_learnAndAge]
  simp [idleThreads, learnAndAge, learnNext, threadStep, popStep, addStep, ConnIndexes.pop,
    ConnIndexes.install, ConnIndexes.getEntry, ConnIndexes.delete, ControlState.writeDecision,
    WritesOutsideReset]

end Schedules

/-- After setup the threads are idle. -/
theorem threadRun_eq
    (steps : List ThreadStep) :
    threadRun steps = steps.foldl threadStep (idleThreads (List.range 99999) 99999) := by
  rw [threadRun, setup_eq]
  rfl

/-- The run lemma where the reset comes before the next connection is learned. -/
theorem separate_decisionsKept :
    (threadRun (learnAndAge ++ ([ThreadStep.writeUnseen true] ++ learnNext))).control.connTab =
        [nextEntry 99999] ∧
      DecisionsKept
        (threadRun (learnAndAge ++ ([ThreadStep.writeUnseen true] ++ learnNext))).control := by
  have hend :=
    (threadRun_eq (learnAndAge ++ ([ThreadStep.writeUnseen true] ++ learnNext))).trans
      (foldl_separate (List.range 99999) 99999)
  refine ⟨by rw [hend], ?_⟩
  refine threadRun_decisionsKept _ ?_ _ [] (List.append_nil _).symm (by rw [hend]; rfl)
  intro before e after hsplit
  apply writesOutsideReset_separate (List.range 99999) 99999 (threadRun before, e)
  exact mem_trace_iff.mpr ⟨before, after, hsplit, threadRun_eq before⟩

/-- When the reset comes last, the drop decision of the second connection is lost. -/
theorem overlap_overwritten :
    (threadRun (learnAndAge ++ learnNext ++ [ThreadStep.writeUnseen true])).isBetween = true ∧
      ¬ DecisionsKept
          (threadRun (learnAndAge ++ learnNext ++ [ThreadStep.writeUnseen true])).control := by
  rw [threadRun_eq, foldl_overlap]
  refine ⟨rfl, ?_⟩
  intro hkept
  have hdec := hkept (nextEntry 99999) List.mem_cons_self
  simp [nextEntry] at hdec

end ControlThreads

end Poise
