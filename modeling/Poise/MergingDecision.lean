import Mathlib.Tactic
import Poise.MergedVector
import Poise.MergingCorrectness

/-!
# Poise compiler: merging headers and the decision

The decision of a vector of checks is the largest value written by a check that
fires, for any assignment of the headers and any activity of the monitors.  This
module compares the decision in front of `merge_same_headers` with the one
behind it, for all kinds of checks.

The new check of a merged header takes its actions from the first check on the
header.  When that one is a monitor check, whose first action is the normal one,
the new check forwards what the checks it replaces dropped.
-/

namespace Poise

open Foundations

section MergingDecision

/-- The extra conditions of a monitor check. -/
def extraHolds (hdr : String → Int) (c : Check) : Bool :=
  !c.extraCheck || c.extraHeader.all (fun h => readInt (mapGet c.hToVal h) == some (hdr h))

/-- The value a check writes when it fires. -/
def checkWrites (hdr : String → Int) (active : String → Bool) (c : Check) : Option Nat :=
  match c.type with
  | .exact => if hdr c.header ∈ checkItems c then some c.ifActionVal else none
  | .list => if hdr c.header ∈ checkItems c then some c.ifActionVal else none
  | .range =>
      match readInt c.predLo, readInt c.predHi with
      | some lo, some hi =>
          if lo ≤ hdr c.header ∧ hdr c.header ≤ hi then some c.ifActionVal else none
      | _, _ => none
  | .monitor =>
      if active c.monName = false ∧ extraHolds hdr c = true then some c.elseActionVal else none
  | .invalid => none

/-- The values written by the checks that fire. -/
def writtenValues
    (hdr : String → Int) (active : String → Bool) (checkV : List Check) : List Nat :=
  checkV.filterMap (checkWrites hdr active)

/-- The decision of a vector of checks. -/
def checksDecision
    (hdr : String → Int) (active : String → Bool) (checkV : List Check) : Nat :=
  largest 0 (writtenValues hdr active checkV)

/-- A check that goes into a new check with the actions of a monitor check. -/
def LosesDecision (checkV : List Check) (hs : List String) (c : Check) : Prop :=
  mergedAway checkV hs c = true ∧ (leader checkV c.header).type = .monitor

theorem mem_writtenValues
    {hdr : String → Int} {active : String → Bool} {checkV : List Check} {v : Nat} :
    v ∈ writtenValues hdr active checkV ↔
      ∃ c, c ∈ checkV ∧ checkWrites hdr active c = some v := by
  simp [writtenValues]

/-- A check with values writes its first value when one of them is the header. -/
theorem checkWrites_mergeable
    {hdr : String → Int} {active : String → Bool} {c : Check}
    (hkind : isMergeable c = true) :
    checkWrites hdr active c =
      if hdr c.header ∈ checkItems c then some c.ifActionVal else none := by
  rcases isMergeable_iff.mp hkind with ht | ht
  · simp [checkWrites, ht]
  · simp [checkWrites, ht]

/-- A check writes one of its two values. -/
theorem checkWrites_le
    {hdr : String → Int} {active : String → Bool} {c : Check} {v : Nat}
    (hrange : c.ValuesInRange)
    (h : checkWrites hdr active c = some v) :
    v ≤ dropActionVal := by
  have hif : c.ifActionVal ≤ dropActionVal := hrange.1.2
  have helse : c.elseActionVal ≤ dropActionVal := hrange.2.2
  unfold checkWrites at h
  split at h
  · split at h
    · cases h
      exact hif
    · cases h
  · split at h
    · cases h
      exact hif
    · cases h
  · split at h
    · split at h
      · cases h
        exact hif
      · cases h
    · cases h
  · split at h
    · cases h
      exact helse
    · cases h
  · cases h

section OneVector

variable {hdr : String → Int} {active : String → Bool}
variable {checkV : List Check} {hs : List String}

/-- The new check of a header fires when a check it replaces does. -/
theorem mem_itemsOn_iff
    (active : String → Bool)
    (hform : ∀ c, c ∈ checkV → CheckForm c)
    {h : String}
    (hitems : groupItems checkV h = .ok (itemsOn checkV h)) :
    hdr h ∈ itemsOn checkV h ↔
      ∃ c, c ∈ checkV ∧ c.header = h ∧ isMergeable c = true ∧
        checkWrites hdr active c = some c.ifActionVal := by
  have htext : ∀ c, c ∈ (groupOf checkV h).filter isMergeable →
      c.type = .exact → c.predHi = c.predLo := by
    intro c hc hexact
    rcases hform c (mem_mergeables.mp hc).1 with ⟨hmon, _⟩ | ⟨_, hplain⟩
    · rw [hmon] at hexact
      cases hexact
    · exact hplain.exactText hexact
  rw [mem_gatherItems (fun c hc => (mem_mergeables.mp hc).2.2) htext hitems]
  constructor
  · rintro ⟨c, hc, hx⟩
    obtain ⟨hmem, rfl, hkind⟩ := mem_mergeables.mp hc
    exact ⟨c, hmem, rfl, hkind, by rw [checkWrites_mergeable hkind, if_pos hx]⟩
  · rintro ⟨c, hmem, rfl, hkind, hw⟩
    refine ⟨c, mem_mergeables.mpr ⟨hmem, rfl, hkind⟩, ?_⟩
    rw [checkWrites_mergeable hkind] at hw
    split at hw
    · assumption
    · cases hw

/-- All checks that go into a new check write the priority of the first one. -/
theorem ifActionVal_of_mergedAway
    (hform : ∀ c, c ∈ checkV → CheckForm c)
    {c : Check}
    (hc : c ∈ checkV)
    (haway : mergedAway checkV hs c = true) :
    c.ifActionVal = (leader checkV c.header).priority := by
  obtain ⟨_, hm, hkind⟩ := mergedAway_iff.mp haway
  obtain ⟨first, rest, hgroup, hleader, hprio, _⟩ := exists_of_merges hm
  have hin : c ∈ first :: rest := by
    rw [← hgroup]
    simp [groupOf, hc]
  have hplain : c.ifActionVal = c.priority := by
    rcases hform c hc with ⟨hmon, _⟩ | ⟨_, hplain⟩
    · simp [isMergeable, hmon] at hkind
    · exact hplain.value
  rw [hplain, hprio c hin, hleader]

/-- A check with values that writes at all writes its first value. -/
theorem checkWrites_own
    {c : Check}
    (hkind : isMergeable c = true)
    (hw : checkWrites hdr active c ≠ none) :
    checkWrites hdr active c = some c.ifActionVal := by
  rw [checkWrites_mergeable hkind] at hw ⊢
  split at hw
  · rename_i hin
    rw [if_pos hin]
  · exact absurd rfl hw

/-- The first check on a merged header writes its priority, unless it is a monitor check. -/
theorem leader_ifActionVal
    (hform : ∀ c, c ∈ checkV → CheckForm c)
    {h : String}
    (hm : merges checkV h = true) :
    (leader checkV h).ifActionVal =
      if (leader checkV h).type = .monitor then normalActionVal
      else (leader checkV h).priority := by
  rcases hform _ (leader_mem hm).1 with ⟨ht, hmonitor⟩ | ⟨ht, hplain⟩
  · rw [if_pos ht]
    exact hmonitor.ifVal
  · rw [if_neg ht]
    exact hplain.value

/-- The new check of a header writes the first value of the first check. -/
theorem checkWrites_mergedOn
    {h : String}
    (hm : merges checkV h = true)
    {v : Nat} :
    checkWrites hdr active (mergedOn checkV h) = some v ↔
      (leader checkV h).ifActionVal = v ∧ hdr h ∈ itemsOn checkV h := by
  have hheader : (mergedOn checkV h).header = h := (leader_mem hm).2
  have hlist : checkItems (mergedOn checkV h) = itemsOn checkV h := rfl
  rw [checkWrites_mergeable rfl, hheader, hlist]
  split
  · rename_i hin
    simp only [Option.some.injEq, hin, and_true]
    rfl
  · rename_i hout
    simp [hout]

/-- The values written behind the merge, in terms of the checks in front of it. -/
theorem mem_writtenValues_merged
    (hform : ∀ c, c ∈ checkV → CheckForm c)
    (hitems : ∀ h, h ∈ hs → merges checkV h = true →
      groupItems checkV h = .ok (itemsOn checkV h))
    {v : Nat} :
    v ∈ writtenValues hdr active (keptChecks checkV hs ++ mergedChecks checkV hs) ↔
      (∃ c, c ∈ checkV ∧ ¬ LosesDecision checkV hs c ∧ checkWrites hdr active c = some v) ∨
      (v = normalActionVal ∧
        ∃ c, c ∈ checkV ∧ LosesDecision checkV hs c ∧ checkWrites hdr active c ≠ none) := by
  -- a check that is merged away hands its firing to the new check
  have hhand : ∀ c, c ∈ checkV → mergedAway checkV hs c = true →
      checkWrites hdr active c ≠ none →
      checkWrites hdr active (mergedOn checkV c.header) =
        some (leader checkV c.header).ifActionVal := by
    intro c hc haway hw
    obtain ⟨hh, hm, hkind⟩ := mergedAway_iff.mp haway
    exact (checkWrites_mergedOn hm).mpr ⟨rfl, (mem_itemsOn_iff active hform (hitems _ hh hm)).mpr
      ⟨c, hc, rfl, hkind, checkWrites_own hkind hw⟩⟩
  have hnew : ∀ c, mergedAway checkV hs c = true →
      mergedOn checkV c.header ∈ keptChecks checkV hs ++ mergedChecks checkV hs := by
    intro c haway
    obtain ⟨hh, hm, _⟩ := mergedAway_iff.mp haway
    exact List.mem_append_right _ (mem_mergedChecks.mpr ⟨c.header, hh, hm, rfl⟩)
  rw [mem_writtenValues]
  constructor
  · rintro ⟨c, hc, hw⟩
    rcases List.mem_append.mp hc with hc | hc
    · obtain ⟨hmem, _, haway⟩ := mem_keptChecks.mp hc
      refine Or.inl ⟨c, hmem, ?_, hw⟩
      intro hlose
      exact absurd hlose.1 (by rw [haway]; simp)
    · obtain ⟨h, hh, hm, rfl⟩ := mem_mergedChecks.mp hc
      obtain ⟨hval, hin⟩ := (checkWrites_mergedOn hm).mp hw
      obtain ⟨d, hd, rfl, hkind, hdw⟩ :=
        (mem_itemsOn_iff active hform (hitems h hh hm)).mp hin
      have haway : mergedAway checkV hs d = true := mergedAway_iff.mpr ⟨hh, hm, hkind⟩
      rw [leader_ifActionVal hform hm] at hval
      split at hval
      · rename_i ht
        exact Or.inr ⟨hval.symm, d, hd, ⟨haway, ht⟩, by rw [hdw]; simp⟩
      · rename_i ht
        refine Or.inl ⟨d, hd, fun hlose => ht hlose.2, ?_⟩
        rw [hdw, ifActionVal_of_mergedAway hform hd haway, hval]
  · rintro (⟨c, hc, hkeep, hw⟩ | ⟨rfl, c, hc, ⟨haway, ht⟩, hw⟩)
    · by_cases haway : mergedAway checkV hs c = true
      · obtain ⟨_, hm, hkind⟩ := mergedAway_iff.mp haway
        have hsome : checkWrites hdr active c ≠ none := by
          rw [hw]
          simp
        refine ⟨mergedOn checkV c.header, hnew c haway, ?_⟩
        rw [hhand c hc haway hsome, leader_ifActionVal hform hm,
          if_neg (fun ht => hkeep ⟨haway, ht⟩), ← ifActionVal_of_mergedAway hform hc haway,
          ← checkWrites_own hkind hsome, hw]
      · refine ⟨c, List.mem_append_left _ (mem_keptChecks.mpr ⟨hc, ?_, by simpa using haway⟩), hw⟩
        intro hinv
        simp [checkWrites, hinv] at hw
    · obtain ⟨_, hm, _⟩ := mergedAway_iff.mp haway
      refine ⟨mergedOn checkV c.header, hnew c haway, ?_⟩
      rw [hhand c hc haway hw, leader_ifActionVal hform hm, if_pos ht]

/-- A check that loses its decision wrote the largest value there is. -/
theorem checkWrites_of_loses
    (hform : ∀ c, c ∈ checkV → CheckForm c)
    {c : Check}
    (hc : c ∈ checkV)
    (hlose : LosesDecision checkV hs c)
    (hw : checkWrites hdr active c ≠ none) :
    checkWrites hdr active c = some dropActionVal := by
  obtain ⟨_, hm, hkind⟩ := mergedAway_iff.mp hlose.1
  rw [checkWrites_own hkind hw, ifActionVal_of_mergedAway hform hc hlose.1]
  rcases hform _ (leader_mem hm).1 with ⟨_, hmonitor⟩ | ⟨hnot, _⟩
  · rw [hmonitor.priority]
  · exact absurd hlose.2 hnot

/-- With a check that loses its decision, the merged vector decides less unless another drops. -/
theorem checksDecision_merged_of_loses
    (hform : ∀ c, c ∈ checkV → CheckForm c)
    (hrange : ∀ c, c ∈ checkV → c.ValuesInRange)
    (hitems : ∀ h, h ∈ hs → merges checkV h = true →
      groupItems checkV h = .ok (itemsOn checkV h))
    {c : Check}
    (hc : c ∈ checkV)
    (hlose : LosesDecision checkV hs c)
    (hw : checkWrites hdr active c ≠ none) :
    checksDecision hdr active (keptChecks checkV hs ++ mergedChecks checkV hs) =
        checksDecision hdr active checkV ↔
      ∃ d, d ∈ checkV ∧ ¬ LosesDecision checkV hs d ∧
        checkWrites hdr active d = some dropActionVal := by
  have hpos : 0 < dropActionVal := by decide
  have hbefore : checksDecision hdr active checkV = dropActionVal := by
    refine (largest_eq_iff_mem hpos ?_).mpr ?_
    · intro w hmem
      obtain ⟨d, hd, hdw⟩ := mem_writtenValues.mp hmem
      exact checkWrites_le (hrange d hd) hdw
    · exact mem_writtenValues.mpr ⟨c, hc, checkWrites_of_loses hform hc hlose hw⟩
  have hbound : ∀ w,
      w ∈ writtenValues hdr active (keptChecks checkV hs ++ mergedChecks checkV hs) →
        w ≤ dropActionVal := by
    intro w hmem
    rcases (mem_writtenValues_merged hform hitems).mp hmem with ⟨d, hd, _, hdw⟩ | ⟨rfl, _⟩
    · exact checkWrites_le (hrange d hd) hdw
    · decide
  have hnot : dropActionVal ≠ normalActionVal := by decide
  rw [hbefore, checksDecision, largest_eq_iff_mem hpos hbound,
    mem_writtenValues_merged hform hitems]
  simp [hnot]

/-- Without one, both vectors write the same values. -/
theorem checksDecision_merged_of_not_loses
    (hform : ∀ c, c ∈ checkV → CheckForm c)
    (hitems : ∀ h, h ∈ hs → merges checkV h = true →
      groupItems checkV h = .ok (itemsOn checkV h))
    (hkeep : ∀ c, c ∈ checkV → LosesDecision checkV hs c → checkWrites hdr active c = none) :
    checksDecision hdr active (keptChecks checkV hs ++ mergedChecks checkV hs) =
      checksDecision hdr active checkV := by
  refine largest_congr (0 : Nat) ?_
  intro v
  rw [mem_writtenValues_merged hform hitems, mem_writtenValues]
  constructor
  · rintro (⟨c, hc, _, hw⟩ | ⟨_, c, hc, hlose, hw⟩)
    · exact ⟨c, hc, hw⟩
    · exact absurd (hkeep c hc hlose) hw
  · rintro ⟨c, hc, hw⟩
    refine Or.inl ⟨c, hc, ?_, hw⟩
    intro hlose
    rw [hkeep c hc hlose] at hw
    cases hw

end OneVector

/--
For every program, every assignment of the headers and every activity of the
monitors: `merge_same_headers` completes and keeps the decision exactly when the
texts of the merged exact checks are numbers, and either no check that fires is
merged behind a monitor check, or some check that is not also writes the drop
decision.
-/
theorem mergeSameHeaders_decision_iff
    {prog : Program} {checks : List Check}
    (hchecks : processMatchexprs prog.countHeaders = .ok checks)
    (hdr : String → Int) (active : String → Bool) :
    (∃ out,
      mergeSameHeaders prog.countHeaders.headerV checks = .ok out ∧
        checksDecision hdr active out = checksDecision hdr active checks) ↔
    (∀ c, c ∈ checks → mergedAway checks prog.countHeaders.headerV c = true →
      c.type = .exact → ∃ n, stoi c.predLo = .ok n) ∧
    ((∃ c, c ∈ checks ∧ LosesDecision checks prog.countHeaders.headerV c ∧
        checkWrites hdr active c ≠ none) →
      ∃ c, c ∈ checks ∧ ¬ LosesDecision checks prog.countHeaders.headerV c ∧
        checkWrites hdr active c = some dropActionVal) := by
  have hnodup := nodup_countHeaders prog
  generalize prog.countHeaders.headerV = hs at hnodup ⊢
  have hform := processMatchexprs_form hchecks
  have hrange : ∀ c, c ∈ checks → c.ValuesInRange :=
    forall_processMatchexprsFrom (fun _ _ => parseMatch_valuesInRange) (fun _ _ hc => hc) hchecks
  rw [← groupItems_ok_iff]
  constructor
  · rintro ⟨out, hout, hdec⟩
    obtain ⟨hitems, rfl⟩ := (mergeSameHeaders_eq_ok_iff hnodup).mp hout
    refine ⟨hitems, ?_⟩
    rintro ⟨c, hc, hlose, hw⟩
    exact (checksDecision_merged_of_loses hform hrange hitems hc hlose hw).mp hdec
  · rintro ⟨hitems, hother⟩
    refine ⟨_, (mergeSameHeaders_eq_ok_iff hnodup).mpr ⟨hitems, rfl⟩, ?_⟩
    by_cases hlost : ∃ c, c ∈ checks ∧ LosesDecision checks hs c ∧ checkWrites hdr active c ≠ none
    · obtain ⟨c, hc, hlose, hw⟩ := hlost
      exact (checksDecision_merged_of_loses hform hrange hitems hc hlose hw).mpr
        (hother ⟨c, hc, hlose, hw⟩)
    · refine checksDecision_merged_of_not_loses hform hitems ?_
      intro c hc hlose
      by_contra hw
      exact hlost ⟨c, hc, hlose, hw⟩

/-- A monitor on a header, and two comparisons of the same header that drop. -/
def monitorLedPolicy : List Statement :=
  [.defList "list1" 1 [2],
   .monitor "m0" { var := "h1", op := .isIn, listvar := "list1" },
   .ifThenElse (.monitor "m0") .fwd1 .drop,
   .ifThenElse (.pred (.varConst "h1" (.op .eq) 7)) .drop .fwd1,
   .ifThenElse (.pred (.varConst "h1" (.op .eq) 9)) .drop .fwd1]

/-- The theorem on a packet for which only the monitor fires. -/
theorem monitorLed_decision_kept :
    ∃ out,
      mergeSameHeaders (programOf monitorLedPolicy).countHeaders.headerV
          (checksOf monitorLedPolicy) = .ok out ∧
        checksDecision (fun _ => 8) (fun _ => false) out =
          checksDecision (fun _ => 8) (fun _ => false) (checksOf monitorLedPolicy) := by
  have h : AcceptedPolicy monitorLedPolicy := ⟨by decide +kernel, by decide +kernel⟩
  have hread : ∀ c, c ∈ checksOf monitorLedPolicy →
      c.type = .exact → (stoi c.predLo).toOption.isSome = true := by
    decide +kernel
  have hquiet : ∀ c, c ∈ checksOf monitorLedPolicy →
      mergedAway (checksOf monitorLedPolicy)
          (programOf monitorLedPolicy).countHeaders.headerV c = true →
        checkWrites (fun _ => 8) (fun _ => false) c = none := by
    decide +kernel
  refine (mergeSameHeaders_decision_iff h.checks (fun _ => 8) (fun _ => false)).mpr ⟨?_, ?_⟩
  · intro c hc _ hexact
    have hsome := hread c hc hexact
    cases hn : stoi c.predLo with
    | error e =>
        rw [hn] at hsome
        cases hsome
    | ok n =>
        exact ⟨n, rfl⟩
  · rintro ⟨c, hc, hlose, hw⟩
    exact absurd (hquiet c hc hlose.1) hw

/--
With the header equal to 7 and the monitor active, the policy decides to drop in
front of the merge and to forward behind it.
-/
theorem monitorLed_decision_lost :
    parsePolicy monitorLedPolicy = .ok (programOf monitorLedPolicy) ∧
      processMatchexprs (programOf monitorLedPolicy).countHeaders =
        .ok (checksOf monitorLedPolicy) ∧
      checksDecision (fun _ => 7) (fun _ => true) (checksOf monitorLedPolicy) = dropActionVal ∧
      (mergeSameHeaders (programOf monitorLedPolicy).countHeaders.headerV
          (checksOf monitorLedPolicy)).map
        (checksDecision (fun _ => 7) (fun _ => true)) = .ok normalActionVal := by
  decide +kernel

end MergingDecision

end Poise
