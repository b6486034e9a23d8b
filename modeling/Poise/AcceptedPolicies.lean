import Mathlib.Tactic
import Poise.ContextEvaluation
import Poise.ParsedPolicies

/-!
# Poise compiler: facts about every accepted policy

Two facts hold of the code of every policy the compiler accepts, with any mix of
comparisons, lists and monitors.

* The argument of every `set_ctx_dec` is a decision between 1 and 15, so a pass
  that sets the decision never leaves the zero it started from.
* A monitor is evaluated by at most one check, so the passes of a packet that
  run other rounds do not touch the monitors of a round.
-/

namespace Poise

open Foundations

section AcceptedPolicies

/-- All checks in front of code generation write values between 1 and 15. -/
theorem optimizedChecks_valuesInRange
    {prog : Program} {optimized : List Check}
    (h : optimizedChecks prog = .ok optimized) :
    ∀ c, c ∈ optimized → c.ValuesInRange := by
  obtain ⟨checks, marked, hchecks, hmarked, rfl⟩ := optimizedChecks_eq_ok h
  have hstart : ∀ c, c ∈ checks → c.ValuesInRange :=
    forall_processMatchexprsFrom (fun _ _ => parseMatch_valuesInRange) (fun _ _ hc => hc) hchecks
  have hheaders := mergeHeaders_valuesInRange hmarked hstart
  have hlive : ∀ c, c ∈ removeInvalidChecks marked → c.ValuesInRange :=
    fun c hc => hheaders c (List.mem_of_mem_filter hc)
  intro c hc
  exact foldl_mergeMonitor_valuesInRange prog.monitorV hlive c (List.mem_of_mem_filter hc)

/-- Every installed entry writes a value between 1 and 15. -/
theorem compiled_actionX
    {S : UnstableSort Check Check.priority} {prog : Program} {code : PolicyCode}
    (h : compileTofino S prog = .ok code)
    {e : TableEntry}
    (he : e ∈ code.entries) :
    1 ≤ e.actionX ∧ e.actionX ≤ 15 := by
  obtain ⟨optimized, placed, tables, hcomp⟩ := compileTofino_compiled h
  have hrange : ∀ c, c ∈ placed.map nameTable → c.ValuesInRange :=
    hcomp.forall_placed (fun _ => Iff.rfl) (optimizedChecks_valuesInRange hcomp.checks)
  rw [hcomp.emitted] at he
  obtain ⟨c, hc, he⟩ := List.mem_flatMap.mp he
  rcases entriesOf_actionX he with hx | hx
  · rw [hx]
    exact (hrange c hc).1
  · rw [hx]
    exact (hrange c hc).2

/-- No call of `set_ctx_dec` writes zero. -/
theorem evalRound_sets_ne_zero
    {S : UnstableSort Check Check.priority} {prog : Program} {code : PolicyCode}
    (h : compileTofino S prog = .ok code)
    {tabs : MonTabs} {hdr : PoiseH} {tstamp : BitVec 32} {k : Nat} {regs : MonRegs}
    {w : BitVec 4}
    (hw : w ∈ (evalRound code tabs hdr tstamp k regs).sets) :
    w ≠ 0 := by
  rcases mem_foldl_evalStmt_sets (roundBody code k) hw with hw | ⟨e, he, rfl⟩
  · simp [evalStart] at hw
  · have hx := compiled_actionX h he
    intro hzero
    have hval : e.actionX % 2 ^ 4 = 0 := congrArg BitVec.toNat hzero
    omega

/-- The monitors that are evaluated, once for each check on them. -/
def monitorNames (checkV : List Check) : List String :=
  (checkV.filter (fun c => c.type == .monitor)).map Check.monName

theorem count_monitorNames
    (x : String)
    (checkV : List Check) :
    (monitorNames checkV).count x = checkV.countP (isOnMonitor x) := by
  unfold monitorNames
  rw [List.count_eq_countP, List.countP_map, List.countP_filter]
  apply List.countP_congr
  intro c _
  simp [isOnMonitor, and_comm]

/-- The checks on one monitor, after they are folded into the first of them. -/
def absorbedGroup : List Check → List Check
  | first :: second :: rest =>
      [{ (second :: rest).foldl absorbMonitor first with
        tableSize := ((second :: rest).foldl absorbMonitor first).extraHeader.length }]
  | group => group

theorem absorbedGroup_length_le
    (group : List Check) :
    (absorbedGroup group).length ≤ 1 := by
  match group with
  | [] =>
      simp [absorbedGroup]
  | [c] =>
      simp [absorbedGroup]
  | first :: second :: rest =>
      simp [absorbedGroup]

theorem absorbedGroup_idem
    (group : List Check) :
    absorbedGroup (absorbedGroup group) = absorbedGroup group := by
  match group with
  | [] =>
      rfl
  | [c] =>
      rfl
  | first :: second :: rest =>
      rfl

/-- After folding, the merged check is the only one on the monitor. -/
theorem filter_foldIntoFirst_self
    {mvar : String} {merged : Check} {checkV : List Check}
    (hmerged : isOnMonitor mvar merged = true)
    (hsome : checkV.filter (isOnMonitor mvar) ≠ []) :
    (foldIntoFirst mvar merged checkV).filter (isOnMonitor mvar) = [merged] := by
  induction checkV with
  | nil =>
      exact absurd rfl hsome
  | cons c cs ih =>
      rw [foldIntoFirst]
      split
      · have hnone :
            (cs.map (fun d =>
              if isOnMonitor mvar d then { d with type := .invalid } else d)).filter
                (isOnMonitor mvar) = [] := by
          rw [List.filter_eq_nil_iff]
          intro d hd
          obtain ⟨e, _, rfl⟩ := List.mem_map.mp hd
          split
          · simp [isOnMonitor]
          · rename_i hnot
            exact hnot
        rw [List.filter_cons_of_pos hmerged, hnone]
      · rename_i hnot
        rw [List.filter_cons_of_neg hnot] at hsome ⊢
        exact ih hsome

/-- Folding the checks on one monitor leaves all others as they are. -/
theorem filter_foldIntoFirst_other
    {mvar : String} {merged : Check} {p : Check → Bool}
    (hmerged : isOnMonitor mvar merged = true)
    (hoff : ∀ c, isOnMonitor mvar c = true → p c = false)
    (hdead : ∀ c : Check, p { c with type := .invalid } = false)
    (checkV : List Check) :
    (foldIntoFirst mvar merged checkV).filter p = checkV.filter p := by
  induction checkV with
  | nil =>
      rfl
  | cons c cs ih =>
      rw [foldIntoFirst]
      split
      · rename_i hon
        rw [List.filter_cons_of_neg (by simp [hoff merged hmerged]),
          List.filter_cons_of_neg (by simp [hoff c hon])]
        clear ih
        induction cs with
        | nil =>
            rfl
        | cons d cs ih =>
            rw [List.map_cons, List.filter_cons, List.filter_cons, ih]
            by_cases hd : isOnMonitor mvar d = true
            · simp [hd, hoff d hd, hdead d]
            · simp [hd]
      · rw [List.filter_cons, List.filter_cons, ih]

/-- The check that replaces a group is on the monitor of the group. -/
theorem isOnMonitor_absorbed
    {x : String} {first : Check}
    (hfirst : isOnMonitor x first = true)
    (rest : List Check) :
    isOnMonitor x
      { rest.foldl absorbMonitor first with
        tableSize := (rest.foldl absorbMonitor first).extraHeader.length } = true := by
  rw [foldl_absorbMonitor_eq]
  exact hfirst

/-- One round over a monitor folds the checks on it. -/
theorem mergeMonitor_filter_self
    (checkV : List Check)
    (m : Monitor) :
    (mergeMonitor checkV m).filter (isOnMonitor m.mvar) =
      absorbedGroup (checkV.filter (isOnMonitor m.mvar)) := by
  rw [mergeMonitor]
  split
  · rename_i first second rest hgroup
    have hfirst : isOnMonitor m.mvar first = true := by
      have hmem : first ∈ checkV.filter (isOnMonitor m.mvar) := by
        rw [hgroup]
        simp
      exact (List.mem_filter.mp hmem).2
    have hsome : checkV.filter (isOnMonitor m.mvar) ≠ [] := by
      rw [hgroup]
      simp
    rw [filter_foldIntoFirst_self (isOnMonitor_absorbed hfirst _) hsome, hgroup]
    rfl
  · rename_i hsmall
    match hgroup : checkV.filter (isOnMonitor m.mvar) with
    | [] =>
        rfl
    | [c] =>
        rfl
    | first :: second :: rest =>
        exact absurd hgroup (hsmall first second rest)

/-- One round over a monitor leaves all checks that are not on it. -/
theorem mergeMonitor_filter_other
    {p : Check → Bool} {m : Monitor}
    (hoff : ∀ c, isOnMonitor m.mvar c = true → p c = false)
    (hdead : ∀ c : Check, p { c with type := .invalid } = false)
    (checkV : List Check) :
    (mergeMonitor checkV m).filter p = checkV.filter p := by
  rw [mergeMonitor]
  split
  · rename_i first second rest hgroup
    have hmem : first ∈ checkV.filter (isOnMonitor m.mvar) := by
      rw [hgroup]
      simp
    exact filter_foldIntoFirst_other
      (isOnMonitor_absorbed (List.mem_filter.mp hmem).2 _) hoff hdead checkV
  · rfl

theorem isOnMonitor_iff
    {x : String} {c : Check} :
    isOnMonitor x c = true ↔ c.type = .monitor ∧ c.monName = x := by
  simp [isOnMonitor]

/-- The loop over the monitors folds the checks on every monitor it meets. -/
theorem foldl_mergeMonitor_filter
    (ms : List Monitor)
    (checkV : List Check)
    (x : String) :
    (ms.foldl mergeMonitor checkV).filter (isOnMonitor x) =
      if x ∈ ms.map Monitor.mvar then absorbedGroup (checkV.filter (isOnMonitor x))
      else checkV.filter (isOnMonitor x) := by
  induction ms generalizing checkV with
  | nil =>
      simp
  | cons m ms ih =>
      rw [List.foldl_cons, ih, List.map_cons]
      by_cases hx : x = m.mvar
      · subst hx
        rw [mergeMonitor_filter_self, absorbedGroup_idem]
        simp
      · have hother : (mergeMonitor checkV m).filter (isOnMonitor x) =
            checkV.filter (isOnMonitor x) := by
          refine mergeMonitor_filter_other ?_ (fun c => by simp [isOnMonitor]) checkV
          intro c hc
          have hname := (isOnMonitor_iff.mp hc).2
          simp [isOnMonitor, hname, Ne.symm hx]
        rw [hother]
        simp [hx]

/-- The kinds of check other than monitor checks that reach code generation. -/
def isPlain (c : Check) : Bool :=
  c.type != .monitor && c.type != .invalid

/-- Erasing the invalid checks does not matter to a test that they fail. -/
theorem filter_removeInvalidChecks
    {p : Check → Bool}
    (hp : ∀ c, p c = true → c.type ≠ .invalid)
    (checkV : List Check) :
    (removeInvalidChecks checkV).filter p = checkV.filter p := by
  rw [removeInvalidChecks, List.filter_filter]
  apply List.filter_congr
  intro c _
  cases hc : p c with
  | false =>
      rfl
  | true =>
      simpa using hp c hc

/-- Merging monitors does nothing to the other checks. -/
theorem mergeMonitors_filter_plain
    (ms : List Monitor)
    (checkV : List Check) :
    (mergeMonitors ms checkV).filter isPlain = checkV.filter isPlain := by
  rw [mergeMonitors, filter_removeInvalidChecks (by simp [isPlain])]
  induction ms generalizing checkV with
  | nil =>
      rfl
  | cons m ms ih =>
      rw [List.foldl_cons, ih]
      refine mergeMonitor_filter_other ?_ (fun c => by simp [isPlain]) checkV
      intro c hc
      simp [isPlain, (isOnMonitor_iff.mp hc).1]

/-- A monitor check refers to a declared monitor. -/
def OnDeclared (ms : List Monitor) (c : Check) : Prop :=
  c.type = .monitor → c.monName ∈ ms.map Monitor.mvar

/-- Merging monitors folds the checks on every declared monitor. -/
theorem filter_mergeMonitors
    (ms : List Monitor)
    (checkV : List Check)
    (x : String) :
    (mergeMonitors ms checkV).filter (isOnMonitor x) =
      if x ∈ ms.map Monitor.mvar then absorbedGroup (checkV.filter (isOnMonitor x))
      else checkV.filter (isOnMonitor x) := by
  have hlive : ∀ c, isOnMonitor x c = true → c.type ≠ .invalid := by
    intro c hc
    simp [(isOnMonitor_iff.mp hc).1]
  rw [mergeMonitors, filter_removeInvalidChecks hlive, foldl_mergeMonitor_filter]

/-- When every monitor that is checked is declared, the checks on every monitor are folded. -/
theorem mergeMonitors_filter_monitor
    {ms : List Monitor} {checkV : List Check}
    (hdeclared : ∀ c, c ∈ checkV → OnDeclared ms c)
    (x : String) :
    (mergeMonitors ms checkV).filter (isOnMonitor x) =
      absorbedGroup (checkV.filter (isOnMonitor x)) := by
  rw [filter_mergeMonitors]
  split
  · rfl
  · -- no check is on a monitor that was not declared
    rename_i hx
    have hnone : checkV.filter (isOnMonitor x) = [] := by
      rw [List.filter_eq_nil_iff]
      intro c hc hon
      obtain ⟨htype, hname⟩ := isOnMonitor_iff.mp hon
      exact hx (hname ▸ hdeclared c hc htype)
    rw [hnone]
    rfl

theorem parseMatch_onDeclared
    {prog : Program} {me : MatchExpr} {check : Check}
    (h : parseMatch prog me = .ok check) :
    OnDeclared prog.monitorV check := by
  intro htype
  obtain ⟨mvar, bp, _, hparse⟩ := parseMatch_monitor h htype
  obtain ⟨_, _, hname, mon, hmon, _⟩ := parseMatchMon_spec hparse
  have hfound : mon.mvar = check.monName := by
    rw [hname]
    simpa using List.find?_some hmon
  rw [← hfound]
  exact List.mem_map_of_mem (List.mem_reverse.mp (List.mem_of_find?_eq_some hmon))

/-- Merging headers makes no new monitor check. -/
theorem mergeHeaders_onDeclared
    {ms : List Monitor} {hs : List String} {checkV out : List Check}
    (hok : mergeHeaders hs checkV = .ok out)
    (hin : ∀ c, c ∈ checkV → OnDeclared ms c) :
    ∀ c, c ∈ out → OnDeclared ms c := by
  induction hs generalizing checkV with
  | nil =>
      cases hok
      exact hin
  | cons h hs ih =>
      obtain ⟨mid, hmid, hok⟩ := bind_eq_ok_iff.mp hok
      apply ih hok
      intro c hc
      rcases mergeHeader_cases hmid with rfl | ⟨first, rest, items, _, _, _, rfl⟩
      · exact hin c hc
      · rcases List.mem_append.mp hc with hc | hc
        · obtain ⟨d, hd, rfl⟩ := List.mem_map.mp hc
          unfold invalidateGroup
          split
          · simp [OnDeclared]
          · exact hin d hd
        · rw [List.mem_singleton.mp hc]
          simp [OnDeclared, mergedCheck]

/-- In front of code generation every monitor is evaluated by at most one check. -/
theorem nodup_monitorNames_optimized
    {prog : Program} {optimized : List Check}
    (h : optimizedChecks prog = .ok optimized) :
    (monitorNames optimized).Nodup := by
  obtain ⟨checks, marked, hchecks, hmarked, rfl⟩ := optimizedChecks_eq_ok h
  have hstart : ∀ c, c ∈ checks → OnDeclared prog.countHeaders.monitorV c :=
    forall_processMatchexprsFrom (fun _ _ => parseMatch_onDeclared) (fun _ _ hc => hc) hchecks
  have hmarkedOn := mergeHeaders_onDeclared hmarked hstart
  have hlive : ∀ c, c ∈ removeInvalidChecks marked → OnDeclared prog.monitorV c :=
    fun c hc => hmarkedOn c (List.mem_of_mem_filter hc)
  rw [List.nodup_iff_count_le_one]
  intro x
  rw [count_monitorNames, List.countP_eq_length_filter, mergeMonitors_filter_monitor hlive]
  exact absorbedGroup_length_le _

/-- In the code of an accepted policy every monitor is evaluated by at most one check. -/
theorem Compiled.nodup_monitorNames
    {S : UnstableSort Check Check.priority} {prog : Program} {code : PolicyCode}
    {optimized placed : List Check} {tables : List TableDef}
    (hcomp : Compiled S prog code optimized placed tables) :
    (monitorNames (placed.map nameTable)).Nodup := by
  have hbare : ∀ l, monitorNames (l.map unplaced) = monitorNames l := by
    intro l
    unfold monitorNames
    rw [List.filter_map, List.map_map]
    rfl
  rw [← hbare, hcomp.map_unplaced, hbare]
  have hperm : (monitorNames (S.sort optimized)).Perm (monitorNames optimized) :=
    ((S.perm optimized).filter _).map _
  rw [hperm.nodup_iff]
  exact nodup_monitorNames_optimized hcomp.checks

/-- A monitor is evaluated in at most one round. -/
theorem Compiled.monitor_round_unique
    {S : UnstableSort Check Check.priority} {prog : Program} {code : PolicyCode}
    {optimized placed : List Check} {tables : List TableDef}
    (hcomp : Compiled S prog code optimized placed tables)
    {m : String} {j k : Nat}
    (hj : .applyMonitor m ∈ roundBody code j)
    (hk : .applyMonitor m ∈ roundBody code k) :
    j = k := by
  have hcheck : ∀ i, EvalStmt.applyMonitor m ∈ roundBody code i →
      ∃ c, c ∈ (placed.map nameTable).filter (fun c => c.type == .monitor) ∧
        c.monName = m ∧ c.recNum = i := by
    intro i hi
    rw [roundBody_eq hcomp] at hi
    obtain ⟨c, hc, hstmt⟩ := List.mem_flatMap.mp hi
    obtain ⟨hmem, hrec⟩ := List.mem_filter.mp hc
    refine ⟨c, ?_, ?_⟩
    · apply List.mem_filter.mpr
      refine ⟨hmem, ?_⟩
      unfold evalStmts at hstmt
      split at hstmt <;> simp_all
    · refine ⟨?_, by simpa using hrec⟩
      unfold evalStmts at hstmt
      split at hstmt <;> simp_all
  obtain ⟨c, hc, hcm, hcr⟩ := hcheck j hj
  obtain ⟨d, hd, hdm, hdr⟩ := hcheck k hk
  have hsame : c = d :=
    List.inj_on_of_nodup_map hcomp.nodup_monitorNames hc hd (hcm.trans hdm.symm)
  rw [← hcr, ← hdr, hsame]

/-- The program of a policy, empty when the policy does not parse. -/
def programOf (policy : List Statement) : Program :=
  match parsePolicy policy with
  | .ok prog => prog
  | .error _ => {}

/-- The checks of a policy in front of all optimizations. -/
def checksOf (policy : List Statement) : List Check :=
  match processMatchexprs (programOf policy).countHeaders with
  | .ok checks => checks
  | .error _ => []

/-- The checks of a policy behind all optimizations. -/
def optimizedOf (policy : List Statement) : List Check :=
  match optimizedChecks (programOf policy) with
  | .ok checks => checks
  | .error _ => []

/-- The checks of a policy with their rounds, with insertion sort for the sort of the library. -/
def placedOf (policy : List Statement) : List Check :=
  match allocateResources ((UnstableSort.insertion Check.priority).sort (optimizedOf policy)) with
  | .ok (some (placed, _)) => placed
  | _ => []

/-- The code of a policy, with the same sort. -/
def codeOf (policy : List Statement) : PolicyCode :=
  match compileTofino (UnstableSort.insertion _) (programOf policy) with
  | .ok code => code
  | .error _ => policyCode [] 0 []

/-- A policy that is parsed and compiled with this sort. -/
structure AcceptedPolicy (policy : List Statement) : Prop where
  parsed : parsePolicy policy = .ok (programOf policy)
  compiled : compileTofino (UnstableSort.insertion _) (programOf policy) = .ok (codeOf policy)

section Accepted

variable {policy : List Statement}

theorem AcceptedPolicy.optimized
    (h : AcceptedPolicy policy) :
    optimizedChecks (programOf policy) = .ok (optimizedOf policy) := by
  obtain ⟨optimized, placed, tables, hcomp⟩ := compileTofino_compiled h.compiled
  have hoptimized : optimizedOf policy = optimized := by
    rw [optimizedOf, hcomp.checks]
  rw [hoptimized, hcomp.checks]

theorem AcceptedPolicy.checks
    (h : AcceptedPolicy policy) :
    processMatchexprs (programOf policy).countHeaders = .ok (checksOf policy) := by
  obtain ⟨checks, _, hchecks, _⟩ := optimizedChecks_eq_ok h.optimized
  have hsame : checksOf policy = checks := by
    rw [checksOf, hchecks]
  rw [hsame, hchecks]

theorem AcceptedPolicy.placed
    (h : AcceptedPolicy policy) :
    allocateResources ((UnstableSort.insertion Check.priority).sort (optimizedOf policy)) =
      .ok (some (placedOf policy, (codeOf policy).recirTimes)) := by
  obtain ⟨optimized, placed, tables, hcomp⟩ := compileTofino_compiled h.compiled
  obtain rfl : optimizedOf policy = optimized :=
    Except.ok.inj (h.optimized.symm.trans hcomp.checks)
  have halloc := allocateResources_eq_some_iff.mpr ⟨hcomp.walk, hcomp.rounds⟩
  have hplaced : placedOf policy = placed := by
    rw [placedOf, halloc]
  rw [hplaced, halloc]

end Accepted

end AcceptedPolicies

end Poise
