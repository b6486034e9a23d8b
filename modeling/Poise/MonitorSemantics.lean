import Mathlib.Tactic
import Poise.PolicyParser
import Poise.CacheCoherence

/-!
# Poise: what a monitor decides, from the policy text to the switch

A policy with one monitor, `m := monitor (h in L)` and
`if match (m) then fwd1 else drop`, is followed from its statements through the
generated tables and entries to the decisions of a sequence of context packets.

The monitor should be refreshed by every packet whose header is in the list and
expire `TIMEOUT` ticks later.  Two things keep it from doing so: no command
installs the list in the refresh table, and the timestamp is computed behind the
control block that reads it.  The register of the monitor stays at zero and its
age is always measured at time zero, so the monitor is active for ever.
-/

namespace Poise

open Foundations

section MonitorSemantics

/-- The statements of a policy with one monitor. -/
def monitorPolicy (m h l : String) (first : Int) (rest : List Int) : List Statement :=
  [.defList l first rest,
   .monitor m { var := h, op := .isIn, listvar := l },
   .ifThenElse (.monitor m) .fwd1 .drop]

/-- The program the parser builds for it. -/
def monitorProgram (m h l : String) (first : Int) (rest : List Int) : Program :=
  { listV := [(l, first :: rest)]
    monitorV := [{ mvar := m, lp := { listvar := h, listop := .isIn, listbodyvar := l } }]
    headerV := [h]
    matchexprV :=
      [{ body := .monitor m none
         ifAction := some .fwd1
         elseAction := some .drop
         numActions := 2 }] }

theorem isHeaderName_of_isMonitorName
    {s : String}
    (h : isMonitorName s = true) :
    isHeaderName s = false := by
  unfold isMonitorName at h
  unfold isHeaderName
  split at h
  · rename_i ds hs
    rw [hs]
    simp
  · cases h

/-- The parser accepts the policy for all names of the right form. -/
theorem parsePolicy_monitorPolicy
    {m h : String}
    (hm : isMonitorName m = true)
    (hh : isHeaderName h = true)
    (l : String) (first : Int) (rest : List Int) :
    parsePolicy (monitorPolicy m h l first rest) = .ok (monitorProgram m h l first rest) := by
  have hnot := isHeaderName_of_isMonitorName hm
  simp [parsePolicy, monitorPolicy, monitorProgram, runStatements, Statement.act,
    ListExprSyntax.act, MatchSyntax.act, recordHeader, require, hm, hh, hnot, pushAction,
    setBranchActions, Program.addListexpr, Program.addMonitor, Program.addHeader,
    Program.addMatchexpr, Program.updateLatestmatchexpr, MatchExpr.setIfAction,
    MatchExpr.setElseAction, bind, Except.bind]

/-- The assertions of the parser leave no other program. -/
theorem eq_monitorProgram_of_parsePolicy
    {m h l : String} {first : Int} {rest : List Int} {prog : Program}
    (hparse : parsePolicy (monitorPolicy m h l first rest) = .ok prog) :
    prog = monitorProgram m h l first rest := by
  have hnames : isMonitorName m = true ∧ isHeaderName h = true := by
    by_contra hnot
    by_cases hh : isHeaderName h = true
    · by_cases hm : isHeaderName m = true <;>
        simp_all [parsePolicy, monitorPolicy, runStatements, Statement.act, ListExprSyntax.act,
          MatchSyntax.act, recordHeader, require, bind, Except.bind]
    · simp_all [parsePolicy, monitorPolicy, runStatements, Statement.act, ListExprSyntax.act,
        recordHeader, require, bind, Except.bind]
  rw [parsePolicy_monitorPolicy hnames.1 hnames.2] at hparse
  cases hparse
  rfl

/-- The one check of the policy. -/
def monitorCheck (m h : String) : Check :=
  { type := .monitor
    ifActionVal := normalActionVal
    elseActionVal := dropActionVal
    priority := dropActionVal
    header := h
    monName := m }

/-- The table that evaluates the monitor. -/
def monitorTable (m : String) : String :=
  tableNameOf (monitorCheck m "")

/-- The code that is generated for the policy. -/
def monitorCode (m h : String) : PolicyCode :=
  { recirTimes := 0
    headerDefs := ["      " ++ h ++ " : " ++ toString 16 ++ ";\n"]
    tables := [{ name := monitorTable m, reads := [(.monActive m, .exact)], size := 2 }]
    monitors := [{ name := m, header := h, timeout := 100000 }]
    evalCtx := [(0, [.applyMonitor m, .applyTable (monitorTable m)])]
    entries :=
      [{ table := monitorTable m
         keys := [(Field.key (.monActive m), "0")]
         actionX := dropActionVal }] }

theorem optimizedChecks_monitorProgram
    (m h l : String) (first : Int) (rest : List Int) :
    optimizedChecks (monitorProgram m h l first rest) = .ok [monitorCheck m h] := by
  simp [optimizedChecks, monitorProgram, Program.countHeaders, processMatchexprs,
    processMatchexprsFrom, parseMatch, parseMatchMon, Program.getMonByName, unique,
    mergeSameHeaders, mergeHeaders, mergeHeader, removeInvalidChecks, mergeMonitors,
    mergeMonitor, isOnMonitor, monitorCheck, bind, Except.bind]

/-- The compiler accepts the policy. -/
theorem compileTofino_monitorProgram
    (S : UnstableSort Check Check.priority)
    (m h l : String) (first : Int) (rest : List Int) :
    compileTofino S (monitorProgram m h l first rest) = .ok (monitorCode m h) := by
  have halloc :
      allocateResources (S.sort [monitorCheck m h]) =
        .ok (some ([{ monitorCheck m h with stageNum := numStageMonitor }], 0)) := by
    rw [List.perm_singleton.mp (S.perm [monitorCheck m h])]
    rfl
  rw [compileTofino, optimizedChecks_monitorProgram]
  simp only [bind, Except.bind, generateP4, halloc]
  simp [generateTableDef, tableDefOf, nameTable, policyCode, generateHeaderDef, unique,
    monitorDefs, generateEvalCtx, runsFrom, evalStmts, generateCmd, entriesOf, monitorCode,
    monitorTable, monitorCheck, tableNameOf, tableStem, bind, Except.bind]

/-- The refresh tables when exactly the generated commands have been run. -/
def generatedMonTabs (code : PolicyCode) : MonTabs :=
  fun m v =>
    code.entries.any (fun e =>
      e.table == refreshTable m && e.keys.any (fun k => readInt k.2 == some (v.toNat : Int)))

/-- No command of any policy is for a refresh table. -/
theorem generatedMonTabs_eq_false
    {S : UnstableSort Check Check.priority} {prog : Program} {code : PolicyCode}
    (hcompile : compileTofino S prog = .ok code)
    (m : String)
    (v : BitVec 16) :
    generatedMonTabs code m v = false := by
  obtain ⟨optimized, placed, tables, hcomp⟩ := compileTofino_compiled hcompile
  unfold generatedMonTabs
  rw [List.any_eq_false]
  intro e he
  rw [hcomp.emitted] at he
  obtain ⟨c, hc, he⟩ := List.mem_flatMap.mp he
  obtain ⟨d, _, rfl⟩ := List.mem_map.mp hc
  have htable : e.table ≠ refreshTable m := by
    rw [entriesOf_table he]
    intro heq
    have hchars := congrArg String.toList heq
    simp [nameTable, tableNameOf, refreshTable] at hchars
  simp [htable]

/-- The evaluation table does not match while the monitor is active. -/
theorem applyTable_monitorCode_active
    (m h : String) (hdr : PoiseH)
    {active : String → BitVec 16}
    (hactive : active m = predicateOut) :
    applyTable (monitorCode m h) (monitorTable m) (fieldVal hdr active) = none := by
  have hread : readInt "0" ≠ some 1 := by
    decide
  simp [applyTable, monitorCode, entryMatches, keyMatches, fieldVal, hactive, predicateOut, hread]

/-- With an empty refresh table and a register at zero, every pass finds the monitor active. -/
theorem evalRound_monitorCode
    {m h : String} {tabs : MonTabs}
    (hdr : PoiseH)
    (k : Nat)
    {regs : MonRegs}
    (htabs : ∀ v, tabs m v = false)
    (hzero : regs m = 0) :
    (evalRound (monitorCode m h) tabs hdr 0 k regs).sets = [] ∧
      (evalRound (monitorCode m h) tabs hdr 0 k regs).monRegs = regs := by
  have hmon :
      evalMonitor (monitorCode m h) tabs hdr 0 m (evalStart regs) =
        { evalStart regs with
          active := Function.update (evalStart regs).active m predicateOut } := by
    have hage : (0 : BitVec 32) - regs m < BitVec.ofNat 32 100000 := by
      rw [hzero]
      decide
    have hdef :
        (monitorCode m h).monitors.find? (fun d => d.name == m) =
          some { name := m, header := h, timeout := 100000 } := by
      simp [monitorCode]
    rw [evalMonitor, hdef]
    simp only [htabs, Bool.false_eq_true, if_false]
    rw [if_pos (by exact hage)]
  by_cases hk : k = 0
  · subst hk
    have hbody :
        roundBody (monitorCode m h) 0 =
          [.applyMonitor m, .applyTable (monitorTable m)] := by
      rfl
    rw [evalRound, hbody, List.foldl_cons, List.foldl_cons, List.foldl_nil]
    simp only [evalStmt, hmon]
    rw [applyTable_monitorCode_active m h hdr (by simp)]
    exact ⟨rfl, rfl⟩
  · have hbody : roundBody (monitorCode m h) k = [] := by
      simp [roundBody, monitorCode, chainSelect, hk]
    rw [evalRound, hbody]
    exact ⟨rfl, rfl⟩

/-- A context packet with the time of its arrival and the connection table it finds. -/
structure TimedPacket where
  packet : Packet
  ingressTstamp : BitVec 48
  tab : ConnTab

/-- The bits of the timestamp the hash unit delivers: the 16 most significant ones. -/
def tstampShift (g : BitVec 48) : BitVec 16 :=
  (g >>> 32).setWidth 16

def TimedPacket.input (a : TimedPacket) : PassInput :=
  { packet := a.packet, tstamp := tstampShift a.ingressTstamp, tab := a.tab }

/-- The decision a packet is given behind a sequence of packets from reset. -/
def givenDecision (sw : Switch) (before : List TimedPacket) (a : TimedPacket) : BitVec 4 :=
  (ingressPass sw a.tab (afterInputs sw (before.map TimedPacket.input))
    (tstampShift a.ingressTstamp) a.packet).metadata.ctxDec

/-- The list contains the header of the packet. -/
def refreshes (h : String) (items : List Int) (a : TimedPacket) : Bool :=
  items.contains ((a.packet.poiseH h).toNat : Int)

/--
The packets that are to be dropped: the header is not in the list, and `TIMEOUT`
ticks have passed since reset and since every earlier packet with the header in
the list.
-/
def DueToDrop
    (tick : BitVec 48 → Nat) (timeout : Nat) (h : String) (items : List Int)
    (before : List TimedPacket) (a : TimedPacket) : Prop :=
  refreshes h items a = false ∧
    timeout ≤ tick a.ingressTstamp ∧
    ∀ b, b ∈ before → refreshes h items b = true →
      timeout ≤ tick a.ingressTstamp - tick b.ingressTstamp

/-- The register of the monitor is never written. -/
theorem monTsHigh32_afterInputs
    {m h : String} {sw : Switch}
    (hcode : sw.code = monitorCode m h)
    (htabs : ∀ v, sw.monTabs m v = false)
    (inputs : List PassInput) :
    (afterInputs sw inputs).monTsHigh32 m = 0 := by
  unfold afterInputs
  apply foldl_invariant (P := fun r : Registers => r.monTsHigh32 m = 0)
  · intro regs a hzero
    unfold inputStep passStep
    cases hctx : a.packet.contextOf with
    | none =>
        rw [(ingressPass_data sw a.tab regs a.tstamp hctx).unchanged]
        exact hzero
    | some c =>
        rw [(ingressPass_context sw a.tab regs a.tstamp hctx).monitors, hcode,
          (evalRound_monitorCode _ _ htabs hzero).2]
        exact hzero
  · rfl

/-- No context packet is ever given the drop decision. -/
theorem givenDecision_eq_zero
    {m h : String} {sw : Switch}
    (hcode : sw.code = monitorCode m h)
    (htabs : ∀ v, sw.monTabs m v = false)
    (before : List TimedPacket)
    {a : TimedPacket}
    (hctx : a.packet.isContext = true) :
    givenDecision sw before a = 0 := by
  obtain ⟨c, hc⟩ := Option.isSome_iff_exists.mp hctx
  have hzero := monTsHigh32_afterInputs hcode htabs (before.map TimedPacket.input)
  unfold givenDecision
  rw [(ingressPass_context sw _ _ _ hc).decision, contextDecision, contextSets, hcode,
    (evalRound_monitorCode _ _ htabs hzero).1]
  rfl

/--
For every policy with one monitor and every sequence of context packets, the
packets that are given the drop decision are those that are due to be dropped
exactly when none is due, in whatever unit the timestamps are counted.
-/
theorem monitor_drops_due_iff
    {S : UnstableSort Check Check.priority}
    {m h l : String} {first : Int} {rest : List Int} {prog : Program}
    (hparse : parsePolicy (monitorPolicy m h l first rest) = .ok prog)
    (sw : Switch)
    (hcompile : compileTofino S prog = .ok sw.code)
    (hinstalled : sw.monTabs = generatedMonTabs sw.code)
    (tick : BitVec 48 → Nat)
    (packets : List TimedPacket)
    (hctx : ∀ a, a ∈ packets → a.packet.isContext = true) :
    (∀ before a after, packets = before ++ a :: after →
      (givenDecision sw before a = decDrop ↔
        DueToDrop tick (monitorCheck m h).timeoutVal h (first :: rest) before a)) ↔
    (∀ before a after, packets = before ++ a :: after →
      ¬ DueToDrop tick (monitorCheck m h).timeoutVal h (first :: rest) before a) := by
  have htabs : ∀ v, sw.monTabs m v = false := by
    intro v
    rw [hinstalled]
    exact generatedMonTabs_eq_false hcompile m v
  have hcode : sw.code = monitorCode m h := by
    rw [eq_monitorProgram_of_parsePolicy hparse, compileTofino_monitorProgram] at hcompile
    injection hcompile with hcode
    exact hcode.symm
  have hnever : ∀ before a after, packets = before ++ a :: after →
      givenDecision sw before a ≠ decDrop := by
    intro before a after hsplit
    rw [givenDecision_eq_zero hcode htabs before (hctx a (by rw [hsplit]; simp))]
    decide
  constructor
  · intro hall before a after hsplit hdue
    exact hnever before a after hsplit ((hall before a after hsplit).mpr hdue)
  · intro hnone before a after hsplit
    exact ⟨fun hdrop => absurd hdrop (hnever before a after hsplit),
      fun hdue => absurd hdue (hnone before a after hsplit)⟩

/-- The high 32 of the 48 bits, which the source names as its unit of time. -/
def highTick (g : BitVec 48) : Nat :=
  (g >>> 16).toNat

/-- A switch with the code of a one-monitor policy and the entries of its commands. -/
def monitorSwitch (m h : String) : Switch :=
  { plainSwitch with
    code := monitorCode m h
    monTabs := generatedMonTabs (monitorCode m h) }

/-- A context packet of a client with a value of the header at a tick. -/
def visitAt (v : BitVec 16) (tick : Nat) : TimedPacket :=
  { packet := tcpClient.contextPacket 0 (fun _ => v)
    ingressTstamp := BitVec.ofNat 48 (tick * 65536)
    tab := emptyConnTab }

/-- The theorem on an administrator who is seen and another device shortly afterwards. -/
theorem monitor_drops_due_shortly_after :
    compileTofino (UnstableSort.insertion _) (monitorProgram "m0" "h1" "list1" 1 [2, 3]) =
        .ok (monitorSwitch "m0" "h1").code ∧
      ∀ before a after, [visitAt 2 150000, visitAt 7 249999] = before ++ a :: after →
        (givenDecision (monitorSwitch "m0" "h1") before a = decDrop ↔
          DueToDrop highTick (monitorCheck "m0" "h1").timeoutVal "h1" [1, 2, 3] before a) := by
  refine ⟨compileTofino_monitorProgram _ _ _ _ _ _, ?_⟩
  apply (monitor_drops_due_iff (S := UnstableSort.insertion _) (l := "list1")
    (parsePolicy_monitorPolicy (by decide) (by decide) _ _ _) (monitorSwitch "m0" "h1")
    (compileTofino_monitorProgram _ _ _ _ _ _) rfl highTick
    [visitAt 2 150000, visitAt 7 249999] (by
      intro a ha
      simp only [List.mem_cons, List.not_mem_nil, or_false] at ha
      rcases ha with rfl | rfl
      · rfl
      · rfl)).mpr
  intro before a after hsplit hdue
  match before with
  | [] =>
      cases hsplit
      have hin : refreshes "h1" [1, 2, 3] (visitAt 2 150000) = true := by
        decide
      exact absurd hdue.1 (by rw [hin]; simp)
  | [x] =>
      cases hsplit
      have hage := hdue.2.2 (visitAt 2 150000) (by simp) (by decide)
      revert hage
      decide
  | x :: y :: rest =>
      simp at hsplit

/-- A device that is not in the list is not dropped although no administrator was ever seen. -/
theorem monitor_never_expires :
    parsePolicy (monitorPolicy "m0" "h1" "list1" 1 [2, 3]) =
        .ok (monitorProgram "m0" "h1" "list1" 1 [2, 3]) ∧
      compileTofino (UnstableSort.insertion _) (monitorProgram "m0" "h1" "list1" 1 [2, 3]) =
        .ok (monitorSwitch "m0" "h1").code ∧
      (visitAt 7 200000).packet.isContext = true ∧
      DueToDrop highTick (monitorCheck "m0" "h1").timeoutVal "h1" [1, 2, 3] []
        (visitAt 7 200000) ∧
      givenDecision (monitorSwitch "m0" "h1") [] (visitAt 7 200000) ≠ decDrop := by
  refine ⟨parsePolicy_monitorPolicy (by decide) (by decide) _ _ _,
    compileTofino_monitorProgram _ _ _ _ _ _, rfl, ⟨by decide, by decide, by simp⟩, ?_⟩
  decide +kernel

end MonitorSemantics

end Poise
