import Mathlib.Tactic
import Poise.Foundations.CellHistory

/-!
# Poise client: collecting context

The kernel module of the client collects context in a thread that asks for one
type of context after the other.  For each it sets `syn_msg`, spawns a helper
process, and waits until `syn_msg` is zero again.  The helpers write what they
found to a device, and the device files the bytes under the type that `syn_msg`
has at that moment.

The functions of the device are split at their accesses to shared memory, so
that a run can take a step of any party between two of them.  A helper that is
never scheduled stands for one that could not be started.
-/

namespace Poise

open Foundations

section ContextCollection

/-- The types of context that are collected. -/
inductive CxtType where
  | location
  | displayState
  | package
deriving DecidableEq, Repr

def maxCxtSize : Nat := 4088

/-- Context of one type, with the time of its arrival. -/
structure CxtInfo where
  ts : Nat
  len : Nat
  buf : List (BitVec 8)
deriving DecidableEq, Repr

def CxtInfo.zero : CxtInfo :=
  { ts := 0, len := 0, buf := List.replicate maxCxtSize 0 }

/-- The last part of `poise_write`: clear the context, then copy what fits. -/
def fillInfo (now : Nat) (buffer : List (BitVec 8)) : CxtInfo :=
  let len := if buffer.length > maxCxtSize then maxCxtSize else buffer.length
  { ts := now
    len := len
    buf := buffer.take len ++ List.replicate (maxCxtSize - len) 0 }

/-- What the thread and the device share; `none` stands for zero in `syn_msg`. -/
structure SharedContext where
  synMsg : Option CxtType
  info : CxtType → CxtInfo

def poiseWrite (buffer : List (BitVec 8)) (now : Nat) (m : SharedContext) : SharedContext :=
  match m.synMsg with
  | some cxt => { synMsg := none, info := Function.update m.info cxt (fillInfo now buffer) }
  | none => m

def poiseRelease (m : SharedContext) : SharedContext :=
  if m.synMsg.isSome then { m with synMsg := none } else m

/-- Where a helper is in its operations on the device. -/
inductive HelperPc where
  | spawned
  | opened
  | selected (cxt : CxtType) (buffer : List (BitVec 8))
  | filling (cxt : CxtType) (buffer : List (BitVec 8))
  | closing
  | closed
deriving DecidableEq, Repr

/-- The accesses of the device functions to shared memory. -/
inductive DevOp where
  | openDev
  | writeSwitch (buffer : List (BitVec 8))
  | writeReset
  | writeFill (now : Nat)
  | releaseTest
  | releaseReset
deriving DecidableEq, Repr

/-- One access; an access the helper is not at does nothing. -/
def devStep (q : HelperPc × SharedContext) (op : DevOp) : HelperPc × SharedContext :=
  match op, q.1 with
  | .openDev, .spawned => (.opened, q.2)
  | .writeSwitch buffer, .opened =>
      match q.2.synMsg with
      | some cxt => (.selected cxt buffer, q.2)
      | none => q
  | .writeReset, .selected cxt buffer => (.filling cxt buffer, { q.2 with synMsg := none })
  | .writeFill now, .filling cxt buffer =>
      (.opened, { q.2 with info := Function.update q.2.info cxt (fillInfo now buffer) })
  | .releaseTest, .opened => (if q.2.synMsg.isSome then .closing else .closed, q.2)
  | .releaseReset, .closing => (.closed, { q.2 with synMsg := none })
  | _, _ => q

/-- Without interference the accesses of a write are `poise_write`. -/
theorem poiseWrite_steps
    (buffer : List (BitVec 8))
    (now : Nat)
    (m : SharedContext) :
    [DevOp.writeSwitch buffer, .writeReset, .writeFill now].foldl devStep (.opened, m) =
      (.opened, poiseWrite buffer now m) := by
  obtain ⟨synMsg, info⟩ := m
  cases synMsg <;> rfl

/-- Without interference the accesses of a close are `poise_release`. -/
theorem poiseRelease_steps
    (m : SharedContext) :
    [DevOp.releaseTest, .releaseReset].foldl devStep (.opened, m) =
      (.closed, poiseRelease m) := by
  obtain ⟨synMsg, info⟩ := m
  cases synMsg <;> rfl

/-- A helper and the type of context it was spawned for. -/
structure Helper where
  type : CxtType
  pc : HelperPc
deriving DecidableEq, Repr

/-- Where the thread is: at the head of its loop or in one of the three read functions. -/
inductive ReaderPc where
  | loop
  | call (t : CxtType)
  | requested (t : CxtType)
  | waiting (t : CxtType)
  | sleeping (t : CxtType)
  | ended
deriving DecidableEq, Repr

/-- Where the thread goes from a read function: to the next one, or to its long sleep. -/
def ReaderPc.afterRead : CxtType → ReaderPc
  | .location => .call .displayState
  | .displayState => .call .package
  | .package => .loop

/-- The shared memory, the thread and all helpers it has spawned. -/
structure Collector extends SharedContext where
  isRun : Bool
  reader : ReaderPc
  helpers : List Helper

/-- The state in which the thread is started. -/
def Collector.start : Collector :=
  { synMsg := none
    info := fun _ => CxtInfo.zero
    isRun := true
    reader := .loop
    helpers := [] }

/-- The steps of the thread and of the helpers. -/
inductive CollectStep where
  | enter
  | request
  | spawn
  | test
  | wake
  | stop
  | device (i : Nat) (op : DevOp)
deriving DecidableEq, Repr

/-- One step of one party; a step the party is not at leaves the state alone. -/
def collectStep (s : Collector) : CollectStep → Collector
  | .enter =>
      match s.reader with
      | .loop => { s with reader := if s.isRun then .call .location else .ended }
      | _ => s
  | .request =>
      match s.reader with
      | .call t => { s with synMsg := some t, reader := .requested t }
      | _ => s
  | .spawn =>
      match s.reader with
      | .requested t =>
          { s with helpers := s.helpers ++ [{ type := t, pc := .spawned }], reader := .waiting t }
      | _ => s
  | .test =>
      match s.reader with
      | .waiting t =>
          { s with reader := if s.synMsg.isSome then .sleeping t else .afterRead t }
      | _ => s
  | .wake =>
      match s.reader with
      | .sleeping t => { s with reader := if s.isRun then .waiting t else .afterRead t }
      | _ => s
  | .stop => { s with isRun := false }
  | .device i op =>
      match s.helpers[i]? with
      | none => s
      | some h =>
          let q := devStep (h.pc, s.toSharedContext) op
          { s with toSharedContext := q.2, helpers := s.helpers.set i { h with pc := q.1 } }

/-- The context a helper is about to fill. -/
def HelperPc.target : HelperPc → Option CxtType
  | .selected cxt _ => some cxt
  | .filling cxt _ => some cxt
  | _ => none

/-- What a step stores is stored under the type of the helper that takes it. -/
def FiledUnderType (s : Collector) : CollectStep → Prop
  | .device i op =>
      ∀ h, s.helpers[i]? = some h → ∀ t, t ≠ h.type →
        (collectStep s (.device i op)).info t = s.info t
  | e => (collectStep s e).info = s.info

/-- A write does not find a request for another type than that of its helper. -/
def NoForeignRequest (s : Collector) : CollectStep → Prop
  | .device i (.writeSwitch _) =>
      ∀ h, s.helpers[i]? = some h → h.pc = .opened → ∀ t, s.synMsg = some t → t = h.type
  | _ => True

/-- An access changes only the context its helper was about to fill. -/
theorem devStep_info
    (q : HelperPc × SharedContext)
    (op : DevOp)
    {t : CxtType}
    (ht : q.1.target ≠ some t) :
    (devStep q op).2.info t = q.2.info t := by
  unfold devStep
  split
  · rfl
  · split <;> rfl
  · rfl
  · rename_i hpc
    have hne : t ≠ _ := fun heq => ht (by rw [hpc, heq]; rfl)
    exact Function.update_of_ne hne _ _
  · rfl
  · rfl
  · rfl

/-- The context to fill is the one a write finds requested, and stays until it is filled. -/
theorem devStep_target
    {q : HelperPc × SharedContext} {op : DevOp} {t : CxtType}
    (h : (devStep q op).1.target = some t) :
    q.1.target = some t ∨
      ∃ buffer, op = .writeSwitch buffer ∧ q.1 = .opened ∧ q.2.synMsg = some t := by
  unfold devStep at h
  split at h
  · cases h
  · rename_i hpc
    split at h
    · rename_i cxt hmsg
      cases h
      exact Or.inr ⟨_, rfl, hpc, hmsg⟩
    · exact Or.inl h
  · rename_i hpc
    cases h
    rw [hpc]
    exact Or.inl rfl
  · cases h
  · split at h <;> cases h
  · cases h
  · exact Or.inl h

/-- Every helper in a write is about to fill the context of its own type. -/
def OwnTargets (s : Collector) : Prop :=
  ∀ h, h ∈ s.helpers → ∀ t, h.pc.target = some t → t = h.type

/-- What one step does to the helpers. -/
theorem mem_helpers_collectStep
    {s : Collector} {e : CollectStep} {h : Helper}
    (hh : h ∈ (collectStep s e).helpers) :
    h ∈ s.helpers ∨
      (∃ t, e = .spawn ∧ s.reader = .requested t ∧ h = { type := t, pc := .spawned }) ∨
      ∃ i op g, e = .device i op ∧ s.helpers[i]? = some g ∧
        h = { g with pc := (devStep (g.pc, s.toSharedContext) op).1 } := by
  cases e with
  | enter =>
      simp only [collectStep] at hh
      split at hh <;> exact Or.inl hh
  | request =>
      simp only [collectStep] at hh
      split at hh <;> exact Or.inl hh
  | spawn =>
      simp only [collectStep] at hh
      split at hh
      · rename_i t hreader
        rcases List.mem_append.mp hh with hh | hh
        · exact Or.inl hh
        · exact Or.inr (Or.inl ⟨t, rfl, hreader, List.mem_singleton.mp hh⟩)
      · exact Or.inl hh
  | test =>
      simp only [collectStep] at hh
      split at hh <;> exact Or.inl hh
  | wake =>
      simp only [collectStep] at hh
      split at hh <;> exact Or.inl hh
  | stop =>
      exact Or.inl hh
  | device i op =>
      simp only [collectStep] at hh
      split at hh
      · exact Or.inl hh
      · rename_i g hg
        rcases List.mem_or_eq_of_mem_set hh with hh | hh
        · exact Or.inl hh
        · exact Or.inr (Or.inr ⟨i, op, g, rfl, hg, hh⟩)

/-- A write that finds no foreign request keeps the helpers at their own contexts. -/
theorem collectStep_ownTargets
    {s : Collector} {e : CollectStep}
    (hs : OwnTargets s)
    (hstep : NoForeignRequest s e) :
    OwnTargets (collectStep s e) := by
  intro h hh t ht
  rcases mem_helpers_collectStep hh with hold | ⟨u, _, _, rfl⟩ | ⟨i, op, g, rfl, hg, rfl⟩
  · exact hs h hold t ht
  · cases ht
  · rcases devStep_target ht with hkeep | ⟨buffer, rfl, hopen, hmsg⟩
    · exact hs g (List.mem_of_getElem? hg) t hkeep
    · exact hstep g hg hopen t hmsg

/-- A step files under the right type when the helpers are at their own contexts. -/
theorem filedUnderType_of_ownTargets
    {s : Collector}
    (hs : OwnTargets s)
    (e : CollectStep) :
    FiledUnderType s e := by
  cases e with
  | device i op =>
      intro h hh t hne
      have htarget : h.pc.target ≠ some t := by
        intro heq
        exact hne (hs h (List.mem_of_getElem? hh) t heq)
      simp only [collectStep, hh]
      exact devStep_info (h.pc, s.toSharedContext) op htarget
  | stop =>
      rfl
  | _ =>
      simp only [FiledUnderType, collectStep]
      split <;> rfl

/-- A request is made when all helpers spawned before have closed the device. -/
def AfterAllClosed (s : Collector) : CollectStep → Prop
  | .request => ∀ h, h ∈ s.helpers → h.pc = .closed
  | _ => True

instance (s : Collector) (e : CollectStep) : Decidable (AfterAllClosed s e) := by
  cases e <;> simp only [AfterAllClosed] <;> infer_instance

/-- Only the latest request is pending, and only its helper is at work. -/
structure OnlyLatest (s : Collector) (t : CxtType) : Prop where
  pending : ∀ c, s.synMsg = some c → c = t
  requested : ∀ c, s.reader = .requested c → c = t
  working : ∀ h, h ∈ s.helpers → h.pc ≠ .closed → h.type = t

/-- The device makes no requests. -/
theorem devStep_synMsg
    {q : HelperPc × SharedContext} {op : DevOp} {t : CxtType}
    (h : (devStep q op).2.synMsg = some t) :
    q.2.synMsg = some t := by
  unfold devStep at h
  split at h
  · exact h
  · split at h <;> exact h
  · cases h
  · exact h
  · exact h
  · cases h
  · exact h

theorem devStep_closed
    (m : SharedContext)
    (op : DevOp) :
    (devStep (.closed, m) op).1 = .closed := by
  cases op <;> rfl

theorem ReaderPc.afterRead_ne
    (t c : CxtType) :
    ReaderPc.afterRead t ≠ .requested c := by
  cases t <;> simp [ReaderPc.afterRead]

/-- The thread goes on without a request. -/
theorem OnlyLatest.move
    {s : Collector} {t : CxtType} {pc : ReaderPc}
    (hs : OnlyLatest s t)
    (hpc : ∀ c, pc ≠ .requested c) :
    OnlyLatest { s with reader := pc } t :=
  ⟨hs.pending, fun c hc => absurd hc (hpc c), hs.working⟩

/-- After a step that waits for the helpers, again only the latest request is pending. -/
theorem collectStep_onlyLatest
    {s : Collector} {e : CollectStep} {t : CxtType}
    (hs : OnlyLatest s t)
    (hstep : AfterAllClosed s e) :
    ∃ u, OnlyLatest (collectStep s e) u := by
  cases e with
  | request =>
      simp only [collectStep]
      split
      · rename_i u _
        refine ⟨u, ?_, ?_, ?_⟩
        · intro c hc
          exact (Option.some.inj hc).symm
        · intro c hc
          exact (ReaderPc.requested.inj hc).symm
        · intro h hh hopen
          exact absurd (hstep h hh) hopen
      · exact ⟨t, hs⟩
  | enter =>
      simp only [collectStep]
      split
      · exact ⟨t, hs.move (by split <;> simp)⟩
      · exact ⟨t, hs⟩
  | spawn =>
      refine ⟨t, ?_⟩
      simp only [collectStep]
      split
      · rename_i u hreader
        refine ⟨hs.pending, by simp, ?_⟩
        intro h hh hopen
        rcases List.mem_append.mp hh with hh | hh
        · exact hs.working h hh hopen
        · rw [List.mem_singleton.mp hh]
          exact hs.requested u hreader
      · exact hs
  | test =>
      simp only [collectStep]
      split
      · exact ⟨t, hs.move (by split <;> simp [ReaderPc.afterRead_ne])⟩
      · exact ⟨t, hs⟩
  | wake =>
      simp only [collectStep]
      split
      · exact ⟨t, hs.move (by split <;> simp [ReaderPc.afterRead_ne])⟩
      · exact ⟨t, hs⟩
  | stop =>
      exact ⟨t, hs.pending, hs.requested, hs.working⟩
  | device i op =>
      refine ⟨t, ?_⟩
      simp only [collectStep]
      split
      · exact hs
      · rename_i g hg
        refine ⟨fun c hc => hs.pending c (devStep_synMsg hc), hs.requested, ?_⟩
        intro h hh hopen
        rcases List.mem_or_eq_of_mem_set hh with hh | rfl
        · exact hs.working h hh hopen
        · refine hs.working g (List.mem_of_getElem? hg) ?_
          intro hclosed
          exact hopen (by simp only [hclosed]; exact devStep_closed _ op)

/-- When every request waits for the helpers before it, no write finds a foreign request. -/
theorem trace_noForeignRequest
    {steps : List CollectStep}
    (hcond : ∀ q, q ∈ trace collectStep Collector.start steps → AfterAllClosed q.1 q.2) :
    ∀ q, q ∈ trace collectStep Collector.start steps → NoForeignRequest q.1 q.2 := by
  have hreach : ∀ before after, steps = before ++ after →
      ∃ t, OnlyLatest (before.foldl collectStep Collector.start) t := by
    refine foldl_invariant_of_steps (P := fun s => ∃ t, OnlyLatest s t) ?_ ?_
    · exact ⟨.location, by simp [Collector.start], by simp [Collector.start],
        by simp [Collector.start]⟩
    · rintro before e after hsplit ⟨t, hs⟩
      exact collectStep_onlyLatest hs
        (hcond (_, e) (mem_trace_iff.mpr ⟨before, after, hsplit, rfl⟩))
  rintro ⟨s, e⟩ hq
  obtain ⟨before, after, hsplit, rfl⟩ := mem_trace_iff.mp hq
  obtain ⟨t, hs⟩ := hreach before (e :: after) hsplit
  cases e with
  | device i op =>
      cases op with
      | writeSwitch buffer =>
          intro h hh hopen c hc
          rw [hs.pending c hc, hs.working h (List.mem_of_getElem? hh) (by simp [hopen])]
      | _ =>
          trivial
  | _ =>
      trivial

/--
In every interleaving in which no write finds a request for a type other than
that of its helper, what a helper writes is stored only in the context of the
type it was spawned for.
-/
theorem context_filed_under_type
    (steps : List CollectStep)
    (hcond : ∀ q, q ∈ trace collectStep Collector.start steps → NoForeignRequest q.1 q.2) :
    ∀ q, q ∈ trace collectStep Collector.start steps → FiledUnderType q.1 q.2 := by
  have hreach : ∀ before after, steps = before ++ after →
      OwnTargets (before.foldl collectStep Collector.start) := by
    refine foldl_invariant_of_steps ?_ ?_
    · intro h hh
      cases hh
    · intro before e after hsplit hs
      exact collectStep_ownTargets hs
        (hcond (_, e) (mem_trace_iff.mpr ⟨before, after, hsplit, rfl⟩))
  rintro ⟨s, e⟩ hq
  obtain ⟨before, after, hsplit, rfl⟩ := mem_trace_iff.mp hq
  exact filedUnderType_of_ownTargets (hreach before (e :: after) hsplit) e

/-- One round of the thread for a helper that writes once and closes. -/
def oneReading (i : Nat) (buffer : List (BitVec 8)) (now : Nat) : List CollectStep :=
  [.request, .spawn, .device i .openDev, .device i (.writeSwitch buffer),
   .device i .writeReset, .device i (.writeFill now), .device i .releaseTest, .test]

/-- The theorem where the helpers for location and display each write once. -/
theorem twoReadings_filed :
    (∀ q, q ∈ trace collectStep Collector.start
        (.enter :: (oneReading 0 [71] 5 ++ oneReading 1 [79] 6)) →
      FiledUnderType q.1 q.2) ∧
    (((CollectStep.enter :: (oneReading 0 [71] 5 ++ oneReading 1 [79] 6)).foldl
      collectStep Collector.start).info .displayState).len = 1 := by
  refine ⟨context_filed_under_type _ (trace_noForeignRequest ?_), by decide⟩
  decide

/--
The helper for the location writes a first chunk, on which the thread goes on to
request the display state, and then a second one.
-/
def twoChunks : List CollectStep :=
  [.enter, .request, .spawn, .device 0 .openDev, .device 0 (.writeSwitch [71]),
   .device 0 .writeReset, .device 0 (.writeFill 5), .test, .request, .spawn,
   .device 0 (.writeSwitch [72]), .device 0 .writeReset]

/-- The second chunk of the location is stored as the display state. -/
theorem twoChunks_misfiled :
    (twoChunks.foldl collectStep Collector.start).helpers.map Helper.type =
        [.location, .displayState] ∧
      ((twoChunks ++ [CollectStep.device 0 (.writeFill 6)]).foldl
          collectStep Collector.start).info .displayState = fillInfo 6 [72] ∧
      ¬ FiledUnderType (twoChunks.foldl collectStep Collector.start)
          (.device 0 (.writeFill 6)) := by
  refine ⟨by decide, rfl, ?_⟩
  intro hfiled
  have hsame := hfiled { type := .location, pc := .filling .displayState [72] } rfl
    .displayState (by decide)
  exact absurd (congrArg CxtInfo.len hsame) (by decide)

end ContextCollection

end Poise
