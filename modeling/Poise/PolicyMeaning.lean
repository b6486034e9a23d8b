import Mathlib.Tactic
import Poise.BackEndDecision
import Poise.MergingDecision
import Poise.PolicyFrontEnd

/-!
# Poise compiler: the meaning of a policy is kept

The whole compiler for the whole policy language: from the checks
`process_matchexprs` makes of the statements, through both merges, the sort, the
allocation of rounds, the names and the emission, to the decision the passes of
a packet leave.

Three conditions name the places where a policy can lose its meaning: two tables
under one name, a header merged behind a monitor check, and a condition on a
monitor that does not survive the merge of the monitor.  Under them the switch
decides what the checks of the statements decide.

For policies of list declarations, equality tests and `in` tests with `fwd1` as the
other action none of the conditions is needed, and the chain is closed from the text
of the policy to the decision.
-/

namespace Poise

open Foundations

section PolicyMeaning

/-- The values of the headers of a packet as numbers. -/
def headerInts (hdr : PoiseH) : String → Int :=
  fun h => ((hdr h).toNat : Int)

/-- A declared monitor is active: this packet refreshes it, or it was refreshed lately. -/
def monitorActive
    (prog : Program) (tabs : MonTabs) (hdr : PoiseH) (tstamp : BitVec 32) (regs : MonRegs)
    (m : String) : Bool :=
  match prog.getMonByName m with
  | none => false
  | some mon =>
      tabs m (hdr mon.lp.listvar) || decide (tstamp - regs m < BitVec.ofNat 32 100000)

/-- The activity of the monitors as the tables read it. -/
def activityWord (active : String → Bool) : String → BitVec 16 :=
  fun m => if active m then predicateOut else 0

theorem activityWord_eq_zero_iff
    {active : String → Bool} {m : String} :
    activityWord active m = 0 ↔ active m = false := by
  rw [activityWord]
  cases active m with
  | true =>
      simp [predicateOut]
  | false =>
      simp

/-- Every monitor check of a program has the timeout the checks start with. -/
theorem timeoutVal_of_monitor
    {prog : Program} {checks : List Check}
    (h : processMatchexprs prog = .ok checks)
    {c : Check}
    (hc : c ∈ checks)
    (htype : c.type = .monitor) :
    c.timeoutVal = 100000 := by
  obtain ⟨me, check, j, _, hcheck, rfl⟩ := exists_matchexpr_of_mem h hc
  obtain ⟨mvar, bp, _, hcheck⟩ := parseMatch_monitor hcheck htype
  unfold parseMatchMon at hcheck
  split at hcheck
  · cases hcheck
  · cases bp with
    | none =>
        cases hcheck
        rfl
    | some b =>
        cases hcheck
        rfl

section OneProgram

variable {prog : Program} {checks optimized : List Check}
variable {tabs : MonTabs} {hdr : PoiseH} {tstamp : BitVec 32} {regs : MonRegs}

/-- The block of a monitor outputs the activity of the monitor. -/
theorem monitorOutput_eq
    (hchecks : processMatchexprs prog.countHeaders = .ok checks)
    (hsrc : SourceChecks checks)
    (hfrom : OptimizedFrom checks prog.countHeaders.headerV optimized)
    {c : Check}
    (hc : c ∈ optimized)
    (htype : c.type = .monitor) :
    monitorOutput tabs hdr tstamp regs c =
      activityWord (monitorActive prog tabs hdr tstamp regs) c.monName := by
  obtain ⟨d, hd, hdt, hname, _, _, htimeout⟩ := hfrom.exists_source hc htype
  obtain ⟨first, rest, hgroup, hfold⟩ := hfrom.folded hsrc hc htype
  obtain ⟨hfirst, hfirstType, hfirstName⟩ :=
    mem_monitorGroup.mp (hgroup ▸ List.mem_cons_self : first ∈ monitorGroup checks c.monName)
  have hheader : c.header = d.header := by
    rw [hfold.header]
    exact hsrc.watched first hfirst d hd hfirstType hdt (hfirstName.trans hname.symm)
  have hdecl : (prog.getMonByName c.monName).map (fun mon => mon.lp.listvar) = some c.header := by
    rw [hheader, ← hname]
    exact header_of_monitor hchecks hd hdt
  obtain ⟨mon, hmon, hlistvar⟩ := Option.map_eq_some_iff.mp hdecl
  have hactive : monitorActive prog tabs hdr tstamp regs c.monName =
      (tabs c.monName (hdr c.header) ||
        decide (tstamp - regs c.monName < BitVec.ofNat 32 c.timeoutVal)) := by
    rw [htimeout, timeoutVal_of_monitor hchecks hd hdt, ← hlistvar]
    simp only [monitorActive, hmon]
  rw [monitorOutput, activityWord, hactive]
  cases tabs c.monName (hdr c.header) with
  | true =>
      rfl
  | false =>
      simp

/-- Whether a check fires, by the activity of the declared monitors. -/
theorem firesAt_eq
    (hchecks : processMatchexprs prog.countHeaders = .ok checks)
    (hsrc : SourceChecks checks)
    (hfrom : OptimizedFrom checks prog.countHeaders.headerV optimized)
    {c : Check}
    (hc : c ∈ optimized) :
    firesAt tabs hdr tstamp regs c =
      tableFires hdr (activityWord (monitorActive prog tabs hdr tstamp regs)) c :=
  tableFires_congr (fun htype => monitorOutput_eq hchecks hsrc hfrom hc htype)

end OneProgram

/-- What a check without a monitor writes is what its table writes. -/
theorem checkWrites_plain
    {hdr : PoiseH} {active : String → Bool} {c : Check}
    (htype : c.type ≠ .monitor) :
    checkWrites (headerInts hdr) active c =
      if tableFires hdr (activityWord active) c then some c.writes else none := by
  cases ht : c.type with
  | monitor =>
      exact absurd ht htype
  | invalid =>
      simp only [checkWrites, tableFires, ht, Bool.false_eq_true, if_false]
  | exact =>
      simp only [checkWrites, tableFires, Check.writes, ht, headerInts]
      exact (if_congr decide_eq_true_iff rfl rfl).symm
  | list =>
      simp only [checkWrites, tableFires, Check.writes, ht, headerInts]
      exact (if_congr decide_eq_true_iff rfl rfl).symm
  | range =>
      simp only [checkWrites, tableFires, Check.writes, ht, headerInts]
      cases readInt c.predLo with
      | none =>
          rfl
      | some lo =>
          cases readInt c.predHi with
          | none =>
              rfl
          | some hi =>
              exact (if_congr decide_eq_true_iff rfl rfl).symm

/-- A monitor check of the program has at most one extra condition, so its table tests it. -/
theorem checkWrites_monitor
    {hdr : PoiseH} {active : String → Bool} {c : Check}
    (htype : c.type = .monitor)
    (hform : MonitorCheck c) :
    checkWrites (headerInts hdr) active c =
      if monitorFires hdr (activityWord active) c then some c.writes else none := by
  have hiff : (active c.monName = false ∧ extraHolds (headerInts hdr) c = true) ↔
      monitorFires hdr (activityWord active) c := by
    rw [monitorFires, activityWord_eq_zero_iff]
    refine and_congr_right (fun _ => ?_)
    rcases hform.extra with ⟨hextra, _, _⟩ | ⟨h, v, hextra, hkeys, hmap⟩
    · simp [extraHolds, hextra]
    · simp [extraHolds, hextra, hkeys, emittedConditions, conditionHolds, headerInts]
  rw [checkWrites, htype, Check.writes, htype]
  simp only [hiff]

/-- A property of some check that is not invalid, by the kinds of checks. -/
theorem exists_mem_by_kind
    {P : Check → Prop}
    (hlive : ∀ c, P c → c.type ≠ .invalid)
    (l : List Check) :
    (∃ c, c ∈ l ∧ P c) ↔
      (∃ c, c ∈ l.filter isPlain ∧ P c) ∨
        ∃ x, ∃ c, c ∈ l.filter (isOnMonitor x) ∧ P c := by
  constructor
  · rintro ⟨c, hc, hP⟩
    by_cases htype : c.type = .monitor
    · refine Or.inr ⟨c.monName, c, List.mem_filter.mpr ⟨hc, ?_⟩, hP⟩
      exact isOnMonitor_iff.mpr ⟨htype, rfl⟩
    · refine Or.inl ⟨c, List.mem_filter.mpr ⟨hc, ?_⟩, hP⟩
      simp [isPlain, htype, hlive c hP]
  · rintro (⟨c, hc, hP⟩ | ⟨x, c, hc, hP⟩)
    · exact ⟨c, List.mem_of_mem_filter hc, hP⟩
    · exact ⟨c, List.mem_of_mem_filter hc, hP⟩

section Merges

variable {checks optimized : List Check} {hs : List String}

/-- The monitors fire behind the merge of the monitors as in front of it. -/
theorem absorbedGroup_writes_iff
    (hsrc : SourceChecks checks)
    (hkeeps : ∀ x, KeepsConditions (monitorGroup checks x))
    (hdr : PoiseH) (active : String → Bool) (x : String) (v : Nat) :
    (∃ c, c ∈ absorbedGroup (monitorGroup checks x) ∧
      (tableFires hdr (activityWord active) c = true ∧ c.writes = v)) ↔
    ∃ c, c ∈ monitorGroup checks x ∧
      checkWrites (headerInts hdr) active c = some v := by
  have hmem : ∀ d, d ∈ monitorGroup checks x →
      d.type = .monitor ∧ MonitorCheck d ∧ d.monName = x := by
    intro d hd
    obtain ⟨hin, hdt, hname⟩ := mem_monitorGroup.mp hd
    exact ⟨hdt, hsrc.monitor hin hdt, hname⟩
  -- all checks of the group, folded or not, write the drop decision when they fire
  have hfolded : ∀ c, c ∈ absorbedGroup (monitorGroup checks x) →
      (tableFires hdr (activityWord active) c = true ∧ c.writes = v ↔
        monitorFires hdr (activityWord active) c ∧ dropActionVal = v) := by
    intro c hc
    obtain ⟨d, hd, htype, helse, _, _⟩ := exists_of_mem_absorbedGroup hc
    obtain ⟨hdt, hform, _⟩ := hmem d hd
    rw [tableFires, Check.writes, htype, hdt]
    simp only [decide_eq_true_iff, helse, hform.elseVal]
  have hplain : ∀ c, c ∈ monitorGroup checks x →
      (checkWrites (headerInts hdr) active c = some v ↔
        monitorFires hdr (activityWord active) c ∧ dropActionVal = v) := by
    intro c hc
    obtain ⟨hct, hform, _⟩ := hmem c hc
    rw [checkWrites_monitor hct hform, Check.writes, hct]
    simp only [hform.elseVal]
    split
    · rename_i hfires
      simp [hfires]
    · rename_i hquiet
      simp [hquiet]
  have hsame : (∃ c, c ∈ absorbedGroup (monitorGroup checks x) ∧
      monitorFires hdr (activityWord active) c) ↔
        ∃ d, d ∈ monitorGroup checks x ∧ monitorFires hdr (activityWord active) d := by
    cases hgroup : monitorGroup checks x with
    | nil =>
        rfl
    | cons first rest =>
        rw [hgroup] at hmem
        have hname : ∀ d, d ∈ first :: rest → d.monName = first.monName :=
          fun d hd => (hmem d hd).2.2.trans (hmem first List.mem_cons_self).2.2.symm
        exact (absorbedGroup_fires_iff (fun d hd => (hmem d hd).2.1) hname).mpr
          (hgroup ▸ hkeeps x) hdr (activityWord active)
  rw [exists_congr (fun c => and_congr_right (hfolded c)),
    exists_congr (fun c => and_congr_right (hplain c))]
  simp only [← and_assoc, exists_and_right, hsame]

/-- The tables write behind both merges what the checks in front of the second one write. -/
theorem OptimizedFrom.writes_iff
    (hfrom : OptimizedFrom checks hs optimized)
    (hsrc : SourceChecks checks)
    (hkeeps : ∀ x, KeepsConditions (monitorGroup checks x))
    (hdr : PoiseH) (active : String → Bool) (v : Nat) :
    (∃ c, c ∈ optimized ∧ (tableFires hdr (activityWord active) c = true ∧ c.writes = v)) ↔
      v ∈ writtenValues (headerInts hdr) active
        (keptChecks checks hs ++ mergedChecks checks hs) := by
  have hlive : ∀ c : Check,
      tableFires hdr (activityWord active) c = true ∧ c.writes = v → c.type ≠ .invalid := by
    rintro c ⟨hfires, _⟩ htype
    rw [tableFires, htype] at hfires
    cases hfires
  have hliveWrites : ∀ c : Check,
      checkWrites (headerInts hdr) active c = some v → c.type ≠ .invalid := by
    intro c hw htype
    rw [checkWrites, htype] at hw
    cases hw
  have hplain : ∀ c, c ∈ keptPlain checks hs ++ mergedChecks checks hs →
      (tableFires hdr (activityWord active) c = true ∧ c.writes = v ↔
        checkWrites (headerInts hdr) active c = some v) := by
    intro c hc
    have htype : c.type ≠ .monitor := by
      rw [← filter_plain_merged] at hc
      have hkind := (List.mem_filter.mp hc).2
      simp only [isPlain, Bool.and_eq_true, bne_iff_ne] at hkind
      exact hkind.1
    rw [checkWrites_plain htype]
    split
    · rename_i hfires
      simp [hfires]
    · rename_i hquiet
      simp [hquiet]
  rw [mem_writtenValues, exists_mem_by_kind hlive, exists_mem_by_kind hliveWrites, hfrom.plain,
    filter_plain_merged]
  refine or_congr (exists_congr fun c => and_congr_right (hplain c)) (exists_congr fun x => ?_)
  rw [hfrom.monitors, filter_monitor_merged]
  exact absorbedGroup_writes_iff hsrc hkeeps hdr active x v

end Merges

/-- The checks in front of code generation ask for what the checks of the policy ask for. -/
theorem largest_firingValues_eq_checks
    {policy : List Statement} {prog : Program} {checks optimized : List Check}
    (hparse : parsePolicy policy = .ok prog)
    (hchecks : processMatchexprs prog.countHeaders = .ok checks)
    (hoptimized : optimizedChecks prog = .ok optimized)
    (hheaders : ∀ c, c ∈ checks → ¬ LosesDecision checks prog.countHeaders.headerV c)
    (hmonitors : ∀ x, KeepsConditions (monitorGroup checks x))
    (tabs : MonTabs) (hdr : PoiseH) (tstamp : BitVec 32) (regs : MonRegs) :
    largest 0 (firingValues tabs hdr tstamp regs optimized) =
      checksDecision (headerInts hdr) (monitorActive prog tabs hdr tstamp regs) checks := by
  have hsrc := processMatchexprs_source (parsePolicy_wellFormed hparse) hchecks
  have hfrom := optimizedChecks_from hchecks hoptimized
  have hmerged :=
    @checksDecision_merged_of_not_loses (headerInts hdr) (monitorActive prog tabs hdr tstamp regs)
      checks prog.countHeaders.headerV (processMatchexprs_form hchecks) hfrom.items
      (fun c hc hlose => absurd hlose (hheaders c hc))
  rw [← hmerged]
  refine largest_congr (0 : Nat) (fun v => ?_)
  rw [← hfrom.writes_iff hsrc hmonitors]
  simp only [firingValues, List.mem_map, List.mem_filter, and_assoc]
  refine exists_congr fun c => and_congr_right fun hc => ?_
  rw [firesAt_eq hchecks hsrc hfrom hc]

/--
The decision of the switch is that of the checks of the policy: for every parsed
policy the compiler accepts, when the generated tables have different names, no
check goes into a merged header behind a monitor check, and the conditions on
every monitor survive its merge, then on every packet one decision carried through
the passes is the largest value of a statement that asks for one.
-/
theorem compiled_decision_eq_checks
    {S : UnstableSort Check Check.priority} {policy : List Statement} {prog : Program}
    {checks : List Check} {code : PolicyCode}
    (hparse : parsePolicy policy = .ok prog)
    (hchecks : processMatchexprs prog.countHeaders = .ok checks)
    (hcompile : compileTofino S prog = .ok code)
    (hnames : (code.tables.map TableDef.name).Nodup)
    (hheaders : ∀ c, c ∈ checks → ¬ LosesDecision checks prog.countHeaders.headerV c)
    (hmonitors : ∀ x, KeepsConditions (monitorGroup checks x))
    (tabs : MonTabs) (hdr : PoiseH) (tstamp : BitVec 32) (regs : MonRegs) :
    (carriedDecision code tabs hdr tstamp (fun _ => regs)).toNat =
      checksDecision (headerInts hdr) (monitorActive prog tabs hdr tstamp regs) checks := by
  obtain ⟨optimized, placed, tables, hcomp⟩ := compileTofino_compiled hcompile
  have hsrc := processMatchexprs_source (parsePolicy_wellFormed hparse) hchecks
  have hvec := hcomp.emittedVector hchecks hsrc hnames
  rw [hcomp.carriedDecision_eq hvec]
  exact largest_firingValues_eq_checks hparse hchecks hcomp.checks hheaders hmonitors
    tabs hdr tstamp regs

/-- With one monitor in use, only the conditions on it matter. -/
theorem keepsConditions_of_only
    {checks : List Check} {m : String}
    (honly : ∀ c, c ∈ checks → c.type = .monitor → c.monName = m)
    (hkeeps : KeepsConditions (monitorGroup checks m))
    (x : String) :
    KeepsConditions (monitorGroup checks x) := by
  by_cases hx : x = m
  · rw [hx]
    exact hkeeps
  · have hnone : monitorGroup checks x = [] := by
      rw [List.eq_nil_iff_forall_not_mem]
      intro c hc
      obtain ⟨hin, htype, hname⟩ := mem_monitorGroup.mp hc
      exact hx (hname.symm.trans (honly c hin htype))
    rw [hnone]
    exact True.intro

/-- A policy with conditions on two headers under one monitor, a comparison and a membership. -/
def guardedPolicy : List Statement :=
  [.defList "list1" 1 [2],
   .monitor "m0" { var := "h1", op := .isIn, listvar := "list1" },
   .ifThenElse (.monitorAnd "m0" (.varConst "h2" (.op .eq) 3)) .fwd1 .drop,
   .ifThenElse (.monitorAnd "m0" (.varConst "h3" (.op .eq) 4)) .fwd1 .drop,
   .ifThenElse (.pred (.varConst "h4" (.op .lt) 9)) .fwd5 .fwd1,
   .ifThenElse (.list { var := "h5", op := .isIn, listvar := "list1" }) .fwd7 .fwd1]

/-- The policy meets the conditions: nothing is merged away, and the conditions do not clash. -/
theorem guardedPolicy_checks :
    ∃ checks, processMatchexprs (programOf guardedPolicy).countHeaders = .ok checks ∧
      (∀ c, c ∈ checks →
        mergedAway checks (programOf guardedPolicy).countHeaders.headerV c = false) ∧
      (∀ c, c ∈ checks → c.type = .monitor → c.monName = "m0") ∧
      KeepsConditions (monitorGroup checks "m0") :=
  ⟨checksOf guardedPolicy, by decide +kernel⟩

/-- The theorem on a policy with all kinds of checks. -/
theorem guardedPolicy_decision :
    ∃ checks, processMatchexprs (programOf guardedPolicy).countHeaders = .ok checks ∧
      ∀ tabs hdr tstamp regs,
        (carriedDecision (codeOf guardedPolicy) tabs hdr tstamp (fun _ => regs)).toNat =
          checksDecision (headerInts hdr)
            (monitorActive (programOf guardedPolicy) tabs hdr tstamp regs) checks := by
  have h : AcceptedPolicy guardedPolicy := ⟨by decide +kernel, by decide +kernel⟩
  have hnames : ((codeOf guardedPolicy).tables.map TableDef.name).Nodup := by
    decide +kernel
  obtain ⟨checks, hchecks, hkept, honly, hconditions⟩ := guardedPolicy_checks
  refine ⟨checks, hchecks, compiled_decision_eq_checks h.parsed hchecks h.compiled hnames ?_
    (keepsConditions_of_only honly hconditions)⟩
  intro c hc hlose
  rw [LosesDecision, hkept c hc] at hlose
  cases hlose.1

/-- What `main` does with a policy file: nothing is generated when the parse or a check fails. -/
def compileText (S : UnstableSort Check Check.priority) (text : List Char) : Option PolicyCode :=
  match parseText text with
  | some (.accepted s) => (compileTofino S s.prog).toOption
  | _ => none

/-- A check of the fragment fires on the values it lists. -/
theorem firesAt_membership
    {c : Check}
    (hc : MembershipCheck c)
    (tabs : MonTabs) (hdr : PoiseH) (tstamp : BitVec 32) (regs : MonRegs) :
    firesAt tabs hdr tstamp regs c = checkFires hdr c ∧ c.writes = c.ifActionVal := by
  rcases hc.kind with ⟨htype, _⟩ | htype
  · simp only [firesAt, tableFires, Check.writes, htype, checkFires, and_self]
  · simp only [firesAt, tableFires, Check.writes, htype, checkFires, and_self]

/-- The values of the firing checks of a policy of the fragment. -/
theorem firingValues_membership
    {checkV : List Check}
    (hform : ∀ c, c ∈ checkV → MembershipCheck c)
    (tabs : MonTabs) (hdr : PoiseH) (tstamp : BitVec 32) (regs : MonRegs) :
    firingValues tabs hdr tstamp regs checkV = firedValues hdr checkV := by
  have hfilter : checkV.filter (firesAt tabs hdr tstamp regs) = checkV.filter (checkFires hdr) :=
    List.filter_congr (fun c hc => (firesAt_membership (hform c hc) tabs hdr tstamp regs).1)
  rw [firingValues, firedValues, hfilter]
  refine List.map_congr_left (fun c hc => ?_)
  exact (firesAt_membership (hform c (List.mem_of_mem_filter hc)) tabs hdr tstamp regs).2

/-- The decision of the code of a policy of the fragment. -/
theorem carriedDecision_membership
    {S : UnstableSort Check Check.priority} {policy : List MembershipStatement} {prog : Program}
    {code : PolicyCode}
    (hparse : parsePolicy (policy.map MembershipStatement.toStatement) = .ok prog)
    (hcompile : compileTofino S prog = .ok code)
    (tabs : MonTabs) (hdr : PoiseH) (tstamp : BitVec 32) (regs : MonRegs) :
    (carriedDecision code tabs hdr tstamp (fun _ => regs)).toNat = policyDecision policy hdr := by
  have hwf := parsePolicy_wellFormed hparse
  obtain rfl := parsePolicy_membership hparse
  obtain ⟨optimized, placed, tables, hcomp⟩ := compileTofino_compiled hcompile
  obtain ⟨checks, _, hchecks, _, _⟩ := optimizedChecks_eq_ok hcomp.checks
  have hnames : (code.tables.map TableDef.name).Nodup := by
    rw [hcomp.tables_names]
    exact (compiled_membershipVector hcomp hdr).1.names
  obtain ⟨hform, _, hvals⟩ := optimizedChecks_membership hcomp.checks hdr
  rw [hcomp.carriedDecision_eq
      (hcomp.emittedVector hchecks (processMatchexprs_source hwf hchecks) hnames),
    firingValues_membership hform]
  exact largest_congr 0 hvals

/--
From the text to the decision: however a policy of list declarations and of tests
`h == c` and `h in L` with `fwd1` as the other action is written, if code is generated
for the text, then on every packet the decision carried through the passes is the one
the statements of the policy ask for.
-/
theorem compileText_decision
    {S : UnstableSort Check Check.priority} {policy : List MembershipStatement}
    {items : List (List Layout × Token)} {last : List Layout} {code : PolicyCode}
    (hne : policy ≠ [])
    (hspelled :
      policySpelled (policy.map MembershipStatement.toStatement) (items.map Prod.snd))
    (hlex : ∀ i ∈ items, i.2.Lexical)
    (hlaid : LaidOut items last)
    (hapart : Apart items last)
    (hcompile : compileText S (layoutText items last) = some code)
    (tabs : MonTabs) (hdr : PoiseH) (tstamp : BitVec 32) (regs : MonRegs) :
    (carriedDecision code tabs hdr tstamp (fun _ => regs)).toNat = policyDecision policy hdr := by
  have hstatements : policy.map MembershipStatement.toStatement ≠ [] := by
    simpa using hne
  rw [compileText, parseText, yylex_layoutText hlex hlaid hapart] at hcompile
  rcases yyparse_spelled hstatements hspelled with
    ⟨s, hparse, _, hs⟩ | ⟨e, _, he⟩ | ⟨_, he⟩
  · rw [hs] at hcompile
    simp only at hcompile
    cases hcode : compileTofino S s.prog with
    | error f =>
        rw [hcode] at hcompile
        cases hcompile
    | ok out =>
        rw [hcode] at hcompile
        cases hcompile
        exact carriedDecision_membership hparse hcode tabs hdr tstamp regs
  · rw [he] at hcompile
    cases hcompile
  · rw [he] at hcompile
    cases hcompile

/-- A list, a test on it and a comparison, written on three lines with a comment. -/
def roleLayout : List (List Layout × Token) :=
  [([], .kwDef), ([.blank ' '], .listvar "list1"), ([], .assign), ([], .lb), ([], .const 1),
   ([.blank ' '], .const 2), ([], .rb),
   ([.comment ['x'], .blank '\n'], .kwIf), ([.blank ' '], .kwMatch), ([], .lp), ([], .var "h0"),
   ([.blank ' '], .member .isIn), ([.blank ' '], .listvar "list1"), ([], .rp),
   ([.blank ' '], .kwThen), ([.blank ' '], .action .fwd4), ([.blank ' '], .kwElse),
   ([.blank ' '], .action .fwd1),
   ([.blank '\n'], .kwIf), ([.blank ' '], .kwMatch), ([], .lp), ([], .var "h0"),
   ([], .compare .eq), ([], .const 2), ([], .rp), ([.blank ' '], .kwThen),
   ([.blank ' '], .action .drop), ([.blank ' '], .kwElse), ([.blank ' '], .action .fwd1)]

/-- The text of a policy of three statements, and the decision on every packet. -/
theorem compileText_roleLayout :
    ∃ code,
      compileText (UnstableSort.insertion _) (layoutText roleLayout []) = some code ∧
        ∀ hdr : PoiseH,
          (carriedDecision code (fun _ _ => false) hdr 0 (fun _ _ => 0)).toNat =
            policyDecision rolePolicy hdr := by
  have hsome : (compileText (UnstableSort.insertion _)
      (layoutText roleLayout [])).isSome = true := by
    decide +kernel
  obtain ⟨code, hcode⟩ := Option.isSome_iff_exists.mp hsome
  refine ⟨code, hcode, fun hdr => ?_⟩
  refine @compileText_decision _ rolePolicy roleLayout [] code (by simp [rolePolicy]) ?_ ?_ ?_ ?_
    hcode _ hdr 0 (fun _ => 0)
  · exact ⟨_, _, rfl, ⟨_, _, ⟨_, rfl, rfl⟩, ⟨_, [], ⟨_, ⟨_, ⟨_, rfl, rfl⟩, rfl⟩, rfl⟩, rfl, rfl⟩,
      rfl⟩, rfl⟩
  · have hlist : (Token.listvar "list1").Lexical := ⟨'1', rfl, rfl⟩
    have hvar : (Token.var "h0").Lexical := ⟨by simp, List.all_eq_true.mp rfl, rfl⟩
    simp only [Token.Lexical] at hlist hvar
    simp only [roleLayout, List.forall_mem_cons, Token.Lexical, true_and]
    exact ⟨hlist, by norm_num, by norm_num, hvar, hlist, hvar, by norm_num, by simp⟩
  · simp [roleLayout, LaidOut, GapBefore, Layout.Before, layoutText, gapText, Layout.text]
  · simp [roleLayout, Apart, Token.joins, Token.joinsGap, Token.isWord, symbolTokens]

end PolicyMeaning

end Poise
