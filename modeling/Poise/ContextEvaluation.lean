import Poise.CodeGeneration

/-!
# Poise data plane: running a generated policy

The meaning of a generated `EvaluateContext` with the generated entries
installed.  One pass takes the branch of the if/else-if chain that tests for the
counter of the packet and applies its tables in order; a table that is hit runs
`set_ctx_dec`, a table that is missed runs `nop`.

The calls of `set_ctx_dec` are collected in a list, so that what a pass leaves
in the decision field and what a whole run of passes would leave there can be
compared.  The entries of the tables that refresh the monitors are not generated
by the compiler and are a parameter.
-/

namespace Poise

open Foundations

section ContextEvaluation

/-- Values of the policy headers of a packet. -/
abbrev PoiseH : Type := String → BitVec 16

/-- Timestamps of the monitors, one register cell each. -/
abbrev MonRegs : Type := String → BitVec 32

/-- Contents of the tables that refresh the monitors: is a header value installed? -/
abbrev MonTabs : Type := String → BitVec 16 → Bool

/-- The state of one run of `EvaluateContext`. -/
structure EvalState where
  monRegs : MonRegs
  active : String → BitVec 16
  sets : List (BitVec 4)

/-- The value of a field in a pass. -/
def fieldVal (hdr : PoiseH) (active : String → BitVec 16) : Field → Int
  | .poiseH h => (hdr h).toNat
  | .monActive m => (active m).toNat

/-- Whether one component of a key matches; a field an entry does not name is not compared. -/
def keyMatches (e : TableEntry) (v : Int) : Field × MatchKind → Bool
  | (f, .exact) =>
      match e.keys.lookup f.key with
      | none => true
      | some t => readInt t == some v
  | (f, .range) =>
      match e.keys.lookup (f.key ++ "_start"), e.keys.lookup (f.key ++ "_end") with
      | some lo, some hi =>
          match readInt lo, readInt hi with
          | some l, some h => decide (l ≤ v ∧ v ≤ h)
          | _, _ => false
      | _, _ => true

/-- Whether an entry matches in its table. -/
def entryMatches (t : TableDef) (e : TableEntry) (val : Field → Int) : Bool :=
  t.reads.all (fun r => keyMatches e (val r.1) r)

/-- Apply a table: the argument of `set_ctx_dec` when an entry matches. -/
def applyTable (code : PolicyCode) (name : String) (val : Field → Int) : Option Nat :=
  match code.tables.find? (fun t => t.name == name) with
  | none => none
  | some t =>
      (code.entries.find? (fun e => e.table == name && entryMatches t e val)).map
        TableEntry.actionX

/-- The value a stateful ALU outputs for a true predicate; only its being non-zero matters. -/
def predicateOut : BitVec 16 := 1

/-- The block of a monitor: refresh it on a hit, test its age on a miss. -/
def evalMonitor
    (code : PolicyCode) (tabs : MonTabs) (hdr : PoiseH) (tstamp : BitVec 32)
    (m : String) (s : EvalState) : EvalState :=
  match code.monitors.find? (fun d => d.name == m) with
  | none => s
  | some d =>
      if tabs m (hdr d.header) then
        { s with
          monRegs := Function.update s.monRegs m tstamp
          active := Function.update s.active m predicateOut }
      else if tstamp - s.monRegs m < BitVec.ofNat 32 d.timeout then
        { s with active := Function.update s.active m predicateOut }
      else
        s

/-- One statement of `EvaluateContext`. -/
def evalStmt
    (code : PolicyCode) (tabs : MonTabs) (hdr : PoiseH) (tstamp : BitVec 32)
    (s : EvalState) : EvalStmt → EvalState
  | .applyTable name =>
      match applyTable code name (fieldVal hdr s.active) with
      | none => s
      | some x => { s with sets := s.sets ++ [BitVec.ofNat 4 x] }
  | .applyMonitor m => evalMonitor code tabs hdr tstamp m s

/-- The state in which a pass enters `EvaluateContext`: metadata is zero. -/
def evalStart (regs : MonRegs) : EvalState :=
  { monRegs := regs, active := fun _ => 0, sets := [] }

/-- The statements a pass with the given counter runs. -/
def roundBody (code : PolicyCode) (counter : Nat) : List EvalStmt :=
  chainSelect counter code.evalCtx

/-- The branches of `EvaluateContext` for one pass. -/
def evalRound
    (code : PolicyCode) (tabs : MonTabs) (hdr : PoiseH) (tstamp : BitVec 32)
    (counter : Nat) (regs : MonRegs) : EvalState :=
  (roundBody code counter).foldl (evalStmt code tabs hdr tstamp) (evalStart regs)

/--
The decision when one variable is carried through the passes `0 .. RECIR_TIMES`,
where pass `k` finds the monitors in the state `regs k`.
-/
def carriedDecision
    (code : PolicyCode) (tabs : MonTabs) (hdr : PoiseH) (tstamp : BitVec 32)
    (regs : Nat → MonRegs) : BitVec 4 :=
  (List.range (code.recirTimes + 1)).foldl
    (fun d k => lastWrite d (evalRound code tabs hdr tstamp k (regs k)).sets) 0

/-- The branch taken, in terms of the checks of the round. -/
theorem chainSelect_map
    {α β : Type}
    (f : List α → List β)
    (hf : f [] = [])
    (k : Nat) :
    ∀ bs : List (Nat × List α),
      chainSelect k (bs.map (fun b => (b.1, f b.2))) = f (chainSelect k bs)
  | [] => by simp [chainSelect, hf]
  | (j, body) :: rest => by
      have ih := chainSelect_map f hf k rest
      by_cases hk : k = j
      · simp [chainSelect, hk]
      · simp [chainSelect, hk, ih]

/-- A pass runs the statements of exactly the checks allocated to its round, in check order. -/
theorem roundBody_eq
    {S : UnstableSort Check Check.priority} {prog : Program} {code : PolicyCode}
    {optimized placed : List Check} {tables : List TableDef}
    (hcomp : Compiled S prog code optimized placed tables)
    (k : Nat) :
    roundBody code k =
      ((placed.map nameTable).filter (fun c => decide (c.recNum = k))).flatMap evalStmts := by
  have hsorted :
      (placed.map nameTable).Pairwise (fun c d => c.recNum ≤ d.recNum) := by
    rw [List.pairwise_map]
    exact allocateFrom_sorted hcomp.walk
  unfold roundBody
  rw [hcomp.emitted]
  change
    chainSelect k
        ((runsFrom Check.recNum 0 [] (placed.map nameTable)).map
          (fun b => (b.1, b.2.flatMap evalStmts))) = _
  rw [chainSelect_map (fun cs => cs.flatMap evalStmts) rfl]
  rw [chainSelect_runsFrom hsorted (fun c _ => Nat.zero_le _)]
  simp

/-- A round past the last one has no statement. -/
theorem roundBody_past
    {S : UnstableSort Check Check.priority} {prog : Program} {code : PolicyCode}
    {optimized placed : List Check} {tables : List TableDef}
    (hcomp : Compiled S prog code optimized placed tables)
    {k : Nat}
    (hk : code.recirTimes < k) :
    roundBody code k = [] := by
  rw [roundBody_eq hcomp]
  have hnone :
      (placed.map nameTable).filter (fun c => decide (c.recNum = k)) = [] := by
    rw [List.filter_eq_nil_iff]
    intro c hc
    obtain ⟨d, hd, rfl⟩ := List.mem_map.mp hc
    have hle := ((allocateFrom_bounds hcomp.walk).2 d hd).2
    have hrec : (nameTable d).recNum = d.recNum := rfl
    simp only [hrec, decide_eq_true_eq]
    omega
  rw [hnone]
  rfl

/-- The block of a monitor makes no call of `set_ctx_dec`. -/
@[simp] theorem evalMonitor_sets
    (code : PolicyCode) (tabs : MonTabs) (hdr : PoiseH) (tstamp : BitVec 32)
    (m : String) (s : EvalState) :
    (evalMonitor code tabs hdr tstamp m s).sets = s.sets := by
  unfold evalMonitor
  split
  · rfl
  · split
    · rfl
    · split <;> rfl

/-- Running a statement only appends to the list of calls. -/
theorem evalStmt_sets
    (code : PolicyCode) (tabs : MonTabs) (hdr : PoiseH) (tstamp : BitVec 32)
    (s : EvalState) (st : EvalStmt) :
    (evalStmt code tabs hdr tstamp s st).sets = s.sets ∨
      ∃ name x,
        st = .applyTable name ∧
        applyTable code name (fieldVal hdr s.active) = some x ∧
        (evalStmt code tabs hdr tstamp s st).sets = s.sets ++ [BitVec.ofNat 4 x] := by
  cases st with
  | applyTable name =>
      cases happ : applyTable code name (fieldVal hdr s.active) with
      | none =>
          left
          simp [evalStmt, happ]
      | some x =>
          right
          exact ⟨name, x, rfl, happ, by simp [evalStmt, happ]⟩
  | applyMonitor m =>
      exact Or.inl (evalMonitor_sets code tabs hdr tstamp m s)

/-- The argument of every call comes from an installed entry. -/
theorem applyTable_mem_entries
    {code : PolicyCode} {name : String} {val : Field → Int} {x : Nat}
    (h : applyTable code name val = some x) :
    ∃ e, e ∈ code.entries ∧ e.actionX = x := by
  unfold applyTable at h
  split at h
  · cases h
  · obtain ⟨e, he, rfl⟩ := Option.map_eq_some_iff.mp h
    exact ⟨e, List.mem_of_find?_eq_some he, rfl⟩

/-- Every value a run of statements writes comes from an installed entry. -/
theorem mem_foldl_evalStmt_sets
    {code : PolicyCode} {tabs : MonTabs} {hdr : PoiseH} {tstamp : BitVec 32}
    (body : List EvalStmt)
    {s : EvalState} {w : BitVec 4}
    (hw : w ∈ (body.foldl (evalStmt code tabs hdr tstamp) s).sets) :
    w ∈ s.sets ∨ ∃ e, e ∈ code.entries ∧ w = BitVec.ofNat 4 e.actionX := by
  induction body generalizing s with
  | nil =>
      exact Or.inl hw
  | cons st body ih =>
      rcases ih hw with h | h
      · rcases evalStmt_sets code tabs hdr tstamp s st with heq | ⟨name, x, _, happ, heq⟩
        · rw [heq] at h
          exact Or.inl h
        · rw [heq] at h
          rcases List.mem_append.mp h with h | h
          · exact Or.inl h
          · right
            obtain ⟨e, he, hx⟩ := applyTable_mem_entries happ
            exact ⟨e, he, by rw [hx]; exact List.mem_singleton.mp h⟩
      · exact Or.inr h

/-- The block of a monitor touches the register of that monitor only. -/
theorem evalMonitor_monRegs_other
    (code : PolicyCode) (tabs : MonTabs) (hdr : PoiseH) (tstamp : BitVec 32)
    {m x : String}
    (s : EvalState)
    (hx : x ≠ m) :
    (evalMonitor code tabs hdr tstamp m s).monRegs x = s.monRegs x := by
  unfold evalMonitor
  split
  · rfl
  · split
    · exact Function.update_of_ne hx _ _
    · split <;> rfl

/-- A run of statements keeps the monitors it does not evaluate. -/
theorem foldl_evalStmt_monRegs
    (code : PolicyCode) (tabs : MonTabs) (hdr : PoiseH) (tstamp : BitVec 32)
    {body : List EvalStmt} {x : String}
    (hx : .applyMonitor x ∉ body)
    (s : EvalState) :
    (body.foldl (evalStmt code tabs hdr tstamp) s).monRegs x = s.monRegs x := by
  induction body generalizing s with
  | nil =>
      rfl
  | cons st body ih =>
      rw [List.mem_cons, not_or] at hx
      rw [List.foldl_cons, ih hx.2]
      cases st with
      | applyTable name =>
          simp only [evalStmt]
          split <;> rfl
      | applyMonitor m =>
          apply evalMonitor_monRegs_other
          rintro rfl
          exact hx.1 rfl

/-- States that differ at most in the registers of monitors outside a set. -/
structure AgreeOn (names : String → Prop) (s t : EvalState) : Prop where
  active : s.active = t.active
  sets : s.sets = t.sets
  monRegs : ∀ m, names m → s.monRegs m = t.monRegs m

/-- The block of a monitor of the set keeps the agreement. -/
theorem AgreeOn.evalMonitor
    {names : String → Prop} {s t : EvalState}
    (h : AgreeOn names s t)
    (code : PolicyCode) (tabs : MonTabs) (hdr : PoiseH) (tstamp : BitVec 32)
    {m : String}
    (hm : names m) :
    AgreeOn names (evalMonitor code tabs hdr tstamp m s)
      (evalMonitor code tabs hdr tstamp m t) := by
  unfold Poise.evalMonitor
  rw [h.monRegs m hm, h.active]
  split
  · exact h
  · split
    · refine ⟨rfl, h.sets, ?_⟩
      intro x hx
      by_cases hxm : x = m
      · simp [hxm]
      · simp [hxm, h.monRegs x hx]
    · split
      · exact ⟨rfl, h.sets, h.monRegs⟩
      · exact h

/-- A run of statements on monitors of the set keeps the agreement. -/
theorem AgreeOn.foldl_evalStmt
    {names : String → Prop} {s t : EvalState}
    (h : AgreeOn names s t)
    (code : PolicyCode) (tabs : MonTabs) (hdr : PoiseH) (tstamp : BitVec 32)
    {body : List EvalStmt}
    (hbody : ∀ m, .applyMonitor m ∈ body → names m) :
    AgreeOn names (body.foldl (evalStmt code tabs hdr tstamp) s)
      (body.foldl (evalStmt code tabs hdr tstamp) t) := by
  induction body generalizing s t with
  | nil =>
      exact h
  | cons st body ih =>
      apply ih _ (fun m hm => hbody m (List.mem_cons_of_mem _ hm))
      cases st with
      | applyTable name =>
          simp only [evalStmt, h.active]
          split
          · exact h
          · exact ⟨rfl, by rw [h.sets], h.monRegs⟩
      | applyMonitor m =>
          exact h.evalMonitor code tabs hdr tstamp (hbody m (by simp))

/-- What a round writes depends on the monitors of that round only. -/
theorem evalRound_sets_congr
    (code : PolicyCode) (tabs : MonTabs) (hdr : PoiseH) (tstamp : BitVec 32)
    {k : Nat} {r r' : MonRegs}
    (h : ∀ m, .applyMonitor m ∈ roundBody code k → r m = r' m) :
    (evalRound code tabs hdr tstamp k r).sets = (evalRound code tabs hdr tstamp k r').sets := by
  have hstart :
      AgreeOn (fun m => .applyMonitor m ∈ roundBody code k) (evalStart r) (evalStart r') :=
    ⟨rfl, rfl, h⟩
  exact (hstart.foldl_evalStmt code tabs hdr tstamp (fun _ hm => hm)).sets

end ContextEvaluation

end Poise
