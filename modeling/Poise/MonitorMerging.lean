import Mathlib.Tactic
import Poise.InstalledEntries

/-!
# Poise compiler: merging monitors and when a monitor fires

A monitor check fires when its monitor is inactive and, if it has extra
conditions, one of them holds.  This is what the entries that are emitted for it
say: each entry pairs the activity zero with one extra header and its value.

`merge_monitors` folds all checks on a monitor into the first of them.  It keeps
the flag `extra_check` of the first check and one value for each header.  So a
condition is lost when the first check has extra conditions and a later one has
none, or when two checks compare one header with different values.
-/

namespace Poise

open Foundations

section MonitorMerging

/-- The header and value pairs of the entries emitted for a monitor check. -/
def emittedConditions (c : Check) : List (String × String) :=
  c.extraHeader.map (fun h => (h, mapGet c.hToVal h))

/-- One emitted condition on the headers of a packet. -/
def conditionHolds (hdr : PoiseH) (p : String × String) : Prop :=
  readInt p.2 = some ((hdr p.1).toNat : Int)

instance (hdr : PoiseH) (p : String × String) : Decidable (conditionHolds hdr p) :=
  inferInstanceAs (Decidable (_ = _))

/-- When a monitor check fires. -/
def monitorFires (hdr : PoiseH) (active : String → BitVec 16) (c : Check) : Prop :=
  active c.monName = 0 ∧
    (c.extraCheck = true → ∃ p, p ∈ emittedConditions c ∧ conditionHolds hdr p)

instance (hdr : PoiseH) (active : String → BitVec 16) (c : Check) :
    Decidable (monitorFires hdr active c) :=
  inferInstanceAs (Decidable (_ ∧ _))

/-- Some check of a vector on the given monitor fires. -/
def FiresOn
    (hdr : PoiseH) (active : String → BitVec 16) (x : String) (checkV : List Check) : Prop :=
  ∃ c, c ∈ checkV ∧ isOnMonitor x c = true ∧ monitorFires hdr active c

instance (hdr : PoiseH) (active : String → BitVec 16) (x : String) (checkV : List Check) :
    Decidable (FiresOn hdr active x checkV) :=
  inferInstanceAs (Decidable (∃ c, c ∈ checkV ∧ _))

theorem firesOn_iff
    {hdr : PoiseH} {active : String → BitVec 16} {x : String} {checkV : List Check} :
    FiresOn hdr active x checkV ↔
      ∃ c, c ∈ checkV.filter (isOnMonitor x) ∧ monitorFires hdr active c := by
  simp only [FiresOn, List.mem_filter, and_assoc]

/-- The key text of an inactive monitor. -/
theorem readInt_zero_eq_iff
    (a : BitVec 16) :
    readInt "0" = some (a.toNat : Int) ↔ a = 0 := by
  have hzero : readInt "0" = some 0 := by decide
  rw [hzero, Option.some_inj, ← BitVec.toNat_inj]
  simp only [BitVec.ofNat_eq_ofNat, BitVec.toNat_ofNat]
  omega

/-- The entry of one condition matches when the monitor is inactive and the condition holds. -/
theorem entryMatches_condition
    {c : Check} {t : TableDef}
    (hname : isMonitorName c.monName = true)
    (htype : c.type = .monitor)
    (hextra : c.extraCheck = true)
    (ht : tableDefOf c = .ok t)
    {h : String}
    (hh : h ∈ c.extraHeader)
    (hdr : PoiseH) (active : String → BitVec 16) :
    entryMatches t
        { table := c.tableName
          keys :=
            [(Field.key (.monActive c.monName), "0"), (Field.key (.poiseH h), mapGet c.hToVal h)]
          actionX := c.elseActionVal }
        (fieldVal hdr active) = true ↔
      active c.monName = 0 ∧ conditionHolds hdr (h, mapGet c.hToVal h) := by
  have hne := monActive_key_ne hname
  have hinactive := readInt_zero_eq_iff (active c.monName)
  simp only [tableDefOf, htype, hextra, if_true, Except.ok.injEq] at ht
  subst ht
  -- the activity is compared with zero, the header of the entry with its value, no other header
  simp only [entryMatches, List.all_cons, List.all_map, Bool.and_eq_true, List.all_eq_true]
  constructor
  · rintro ⟨hact, hall⟩
    have hval := hall h hh
    refine ⟨?_, ?_⟩
    · simpa [keyMatches, fieldVal, hinactive] using hact
    · simpa [keyMatches, fieldVal, conditionHolds, List.lookup_cons,
        beq_false_of_ne (hne h).symm] using hval
  · rintro ⟨hact, hcond⟩
    refine ⟨by simpa [keyMatches, fieldVal, hinactive] using hact, ?_⟩
    intro k _
    by_cases hk : k = h
    · subst hk
      simpa [keyMatches, fieldVal, conditionHolds, List.lookup_cons,
        beq_false_of_ne (hne k).symm] using hcond
    · have hkey : (Field.poiseH k).key ≠ (Field.poiseH h).key :=
        fun heq => hk (poiseH_key_injective heq)
      simp [keyMatches, List.lookup_cons, beq_false_of_ne (hne k).symm, beq_false_of_ne hkey]

/-- A monitor check fires when one of the entries emitted for it matches in its table. -/
theorem monitorFires_iff_entryMatches
    {c : Check} {t : TableDef}
    (hname : isMonitorName c.monName = true)
    (htype : c.type = .monitor)
    (ht : tableDefOf c = .ok t)
    (hdr : PoiseH) (active : String → BitVec 16) :
    monitorFires hdr active c ↔
      ∃ e, e ∈ entriesOf c ∧ entryMatches t e (fieldVal hdr active) = true := by
  cases hextra : c.extraCheck with
  | false =>
      have hinactive := readInt_zero_eq_iff (active c.monName)
      simp only [tableDefOf, htype, hextra, Bool.false_eq_true, if_false, Except.ok.injEq] at ht
      subst ht
      simp [monitorFires, hextra, entriesOf, htype, entryMatches, keyMatches, fieldVal,
        hinactive]
  | true =>
      simp only [monitorFires, hextra, emittedConditions, entriesOf, htype, if_true, true_implies,
        List.mem_map, exists_exists_and_eq_and]
      constructor
      · rintro ⟨hact, h, hh, hcond⟩
        exact ⟨h, hh, (entryMatches_condition hname htype hextra ht hh hdr active).mpr
          ⟨hact, hcond⟩⟩
      · rintro ⟨h, hh, hmatch⟩
        obtain ⟨hact, hcond⟩ :=
          (entryMatches_condition hname htype hextra ht hh hdr active).mp hmatch
        exact ⟨hact, h, hh, hcond⟩

/-- The checks on one monitor whose conditions all survive being folded into the first. -/
def KeepsConditions : List Check → Prop
  | [] => True
  | first :: rest =>
      first.extraCheck = false ∨
        ∀ c, c ∈ first :: rest →
          c.extraCheck = true ∧
            ∀ h, h ∈ c.extraHeader → ∀ n, n ∈ readInt (mapGet c.hToVal h) →
              0 ≤ n → n ≤ 65535 → readInt (extraValue (first :: rest) h) = some n

instance (group : List Check) : Decidable (KeepsConditions group) :=
  match group with
  | [] => inferInstanceAs (Decidable True)
  | _ :: _ => inferInstanceAs (Decidable (_ ∨ ∀ c, c ∈ _ → _))

/-- The conditions of a folded group: each header with the value of the last check on it. -/
theorem FoldedFrom.emittedConditions_eq
    {first c : Check} {rest : List Check}
    (hfold : FoldedFrom first rest c) :
    emittedConditions c =
      ((first :: rest).flatMap Check.extraHeader).map
        (fun h => (h, extraValue (first :: rest) h)) := by
  rw [emittedConditions, hfold.extraHeader]
  apply List.map_congr_left
  intro h _
  rw [hfold.values h]

/-- When the check a group was folded into fires. -/
theorem FoldedFrom.monitorFires_iff
    {first c : Check} {rest : List Check}
    (hfold : FoldedFrom first rest c)
    (hdr : PoiseH) (active : String → BitVec 16) :
    monitorFires hdr active c ↔
      active first.monName = 0 ∧
        (first.extraCheck = true →
          ∃ d h, d ∈ first :: rest ∧ h ∈ d.extraHeader ∧
            conditionHolds hdr (h, extraValue (first :: rest) h)) := by
  rw [monitorFires, hfold.monName, hfold.extraCheck, hfold.emittedConditions_eq]
  constructor
  · rintro ⟨hact, hcond⟩
    refine ⟨hact, fun hextra => ?_⟩
    obtain ⟨p, hp, hholds⟩ := hcond hextra
    obtain ⟨h, hh, rfl⟩ := List.mem_map.mp hp
    obtain ⟨d, hd, hin⟩ := List.mem_flatMap.mp hh
    exact ⟨d, h, hd, hin, hholds⟩
  · rintro ⟨hact, hcond⟩
    refine ⟨hact, fun hextra => ?_⟩
    obtain ⟨d, h, hd, hin, hholds⟩ := hcond hextra
    exact ⟨(h, extraValue (first :: rest) h),
      List.mem_map.mpr ⟨h, List.mem_flatMap.mpr ⟨d, hd, hin⟩, rfl⟩, hholds⟩

/-- The value of a header is that of some check of the group that names it. -/
theorem exists_extraValue
    {group : List Check} {c : Check} {h : String}
    (hc : c ∈ group)
    (hin : h ∈ c.extraHeader) :
    ∃ d, d ∈ group ∧ h ∈ d.extraHeader ∧ extraValue group h = mapGet d.hToVal h := by
  rw [extraValue]
  split
  · rename_i hnone
    have hnot := List.find?_eq_none.mp hnone c (List.mem_reverse.mpr hc)
    simp [hin] at hnot
  · rename_i d hd
    exact ⟨d, List.mem_reverse.mp (List.mem_of_find?_eq_some hd),
      by simpa using List.find?_some hd, rfl⟩

/-- Folding adds no case in which a monitor fires. -/
theorem FoldedFrom.fires_of_folded
    {first c : Check} {rest : List Check}
    (hfold : FoldedFrom first rest c)
    (hname : ∀ d, d ∈ first :: rest → d.monName = first.monName)
    {hdr : PoiseH} {active : String → BitVec 16}
    (hfires : monitorFires hdr active c) :
    ∃ d, d ∈ first :: rest ∧ monitorFires hdr active d := by
  obtain ⟨hact, hcond⟩ := (hfold.monitorFires_iff hdr active).mp hfires
  cases hextra : first.extraCheck with
  | false =>
      exact ⟨first, List.mem_cons_self, hact, by simp [hextra]⟩
  | true =>
      obtain ⟨d, h, hd, hin, hholds⟩ := hcond hextra
      obtain ⟨last, hlast, hinlast, hval⟩ := exists_extraValue hd hin
      rw [hval] at hholds
      refine ⟨last, hlast, by rw [hname last hlast]; exact hact, fun _ => ?_⟩
      exact ⟨(h, mapGet last.hToVal h), List.mem_map.mpr ⟨h, hinlast, rfl⟩, hholds⟩

/-- When the conditions survive, folding loses none of the cases either. -/
theorem FoldedFrom.fires_folded
    {first c : Check} {rest : List Check}
    (hfold : FoldedFrom first rest c)
    (hname : ∀ d, d ∈ first :: rest → d.monName = first.monName)
    (hkeeps : KeepsConditions (first :: rest))
    {hdr : PoiseH} {active : String → BitVec 16} {d : Check}
    (hd : d ∈ first :: rest)
    (hfires : monitorFires hdr active d) :
    monitorFires hdr active c := by
  obtain ⟨hact, hcond⟩ := hfires
  rw [hname d hd] at hact
  refine (hfold.monitorFires_iff hdr active).mpr ⟨hact, fun hextra => ?_⟩
  rcases hkeeps with hfree | hkeeps
  · rw [hfree] at hextra
    cases hextra
  · obtain ⟨hdextra, hvals⟩ := hkeeps d hd
    obtain ⟨p, hp, hholds⟩ := hcond hdextra
    obtain ⟨h, hin, rfl⟩ := List.mem_map.mp hp
    have hlt := (hdr h).isLt
    refine ⟨d, h, hd, hin, hvals h hin _ hholds (by omega) ?_⟩
    simp only
    omega

/-- Headers that meet no condition of a folded group. -/
def quietHeaders (group : List Check) : PoiseH :=
  fun h => if readInt (extraValue group h) = some 0 then 1 else 0

theorem not_conditionHolds_quiet
    (group : List Check)
    (h : String) :
    ¬ conditionHolds (quietHeaders group) (h, extraValue group h) := by
  rw [conditionHolds, quietHeaders]
  split
  · rename_i hzero
    simp [hzero]
  · rename_i hzero
    simpa using hzero

/-- When a condition does not survive, some packet tells the folded check from the group. -/
theorem exists_lost_condition
    {first : Check} {rest : List Check}
    (hlost : ¬ KeepsConditions (first :: rest)) :
    ∃ hdr d, d ∈ first :: rest ∧ monitorFires hdr (fun _ => 0) d ∧
      ∀ c, FoldedFrom first rest c → ¬ monitorFires hdr (fun _ => 0) c := by
  simp only [KeepsConditions, not_or, Bool.not_eq_false, not_forall, not_and_or] at hlost
  obtain ⟨hextra, d, hd, hfree | ⟨h, hin, n, hval, hlo, hhi, hdiff⟩⟩ := hlost
  · -- a check without extra conditions fires on every packet
    refine ⟨quietHeaders (first :: rest), d, hd, ⟨rfl, fun h => absurd h hfree⟩, ?_⟩
    intro c hfold hfires
    obtain ⟨_, hcond⟩ := (hfold.monitorFires_iff _ _).mp hfires
    obtain ⟨_, h, _, _, hholds⟩ := hcond hextra
    exact not_conditionHolds_quiet _ h hholds
  · -- the condition `h = n` was overwritten by another value of `h`
    have hnat : ((BitVec.ofNat 16 n.toNat).toNat : Int) = n := by
      rw [BitVec.toNat_ofNat]
      omega
    refine ⟨Function.update (quietHeaders (first :: rest)) h (BitVec.ofNat 16 n.toNat), d, hd,
      ⟨rfl, fun _ => ⟨(h, mapGet d.hToVal h), List.mem_map.mpr ⟨h, hin, rfl⟩, ?_⟩⟩, ?_⟩
    · rw [conditionHolds, Function.update_self, hnat]
      exact hval
    · intro c hfold hfires
      obtain ⟨_, hcond⟩ := (hfold.monitorFires_iff _ _).mp hfires
      obtain ⟨_, k, _, _, hholds⟩ := hcond hextra
      by_cases hk : k = h
      · subst hk
        rw [conditionHolds, Function.update_self, hnat] at hholds
        exact hdiff hholds
      · rw [conditionHolds, Function.update_of_ne hk] at hholds
        exact not_conditionHolds_quiet _ k hholds

/-- A folded group fires like the group exactly when its conditions survive. -/
theorem absorbedGroup_fires_iff
    {first : Check} {rest : List Check}
    (hform : ∀ d, d ∈ first :: rest → MonitorCheck d)
    (hname : ∀ d, d ∈ first :: rest → d.monName = first.monName) :
    (∀ hdr active,
      (∃ c, c ∈ absorbedGroup (first :: rest) ∧ monitorFires hdr active c) ↔
        ∃ d, d ∈ first :: rest ∧ monitorFires hdr active d) ↔
      KeepsConditions (first :: rest) := by
  have hfolded : ∀ c, c ∈ absorbedGroup (first :: rest) → FoldedFrom first rest c := by
    intro c hc
    obtain ⟨first', rest', heq, hfold⟩ := mem_absorbedGroup hform hc
    cases heq
    exact hfold
  constructor
  · intro hsame
    by_contra hlost
    obtain ⟨hdr, d, hd, hfires, hquiet⟩ := exists_lost_condition hlost
    obtain ⟨e, he, hstill⟩ := (hsame hdr (fun _ => 0)).mpr ⟨d, hd, hfires⟩
    exact hquiet e (hfolded e he) hstill
  · intro hkeeps hdr active
    constructor
    · rintro ⟨c, hc, hfires⟩
      exact (hfolded c hc).fires_of_folded hname hfires
    · rintro ⟨d, hd, hfires⟩
      obtain ⟨c, hc⟩ := exists_mem_absorbedGroup first rest
      exact ⟨c, hc, (hfolded c hc).fires_folded hname hkeeps hd hfires⟩

/--
For every vector of checks whose monitor checks have the form `parse_match_mon`
gives them, `merge_monitors` keeps the packets on which a monitor fires exactly
when the conditions on the monitor survive being folded into the first check.
-/
theorem mergeMonitors_firesOn_iff
    (ms : List Monitor)
    (checkV : List Check)
    (hform : ∀ c, c ∈ checkV → c.type = .monitor → MonitorCheck c)
    (x : String) :
    (∀ hdr active, FiresOn hdr active x (mergeMonitors ms checkV) ↔ FiresOn hdr active x checkV) ↔
      (x ∈ ms.map Monitor.mvar → KeepsConditions (monitorGroup checkV x)) := by
  simp only [firesOn_iff, filter_mergeMonitors]
  by_cases hx : x ∈ ms.map Monitor.mvar
  · simp only [hx, if_true, true_implies]
    change (∀ hdr active, (∃ c, c ∈ absorbedGroup (monitorGroup checkV x) ∧ _) ↔
      ∃ c, c ∈ monitorGroup checkV x ∧ _) ↔ _
    cases hgroup : monitorGroup checkV x with
    | nil =>
        simp [absorbedGroup, KeepsConditions]
    | cons first rest =>
        have hmem : ∀ d, d ∈ first :: rest → d ∈ checkV ∧ d.type = .monitor ∧ d.monName = x := by
          intro d hd
          exact mem_monitorGroup.mp (hgroup ▸ hd)
        refine absorbedGroup_fires_iff (fun d hd => ?_) (fun d hd => ?_)
        · obtain ⟨hin, htype, _⟩ := hmem d hd
          exact hform d hin htype
        · exact (hmem d hd).2.2.trans (hmem first List.mem_cons_self).2.2.symm
  · simp [hx, monitorGroup]

/-- A monitor that is matched twice, the second time without the extra condition. -/
def looserLaterPolicy : List Statement :=
  [.defList "list1" 1 [2],
   .monitor "m0" { var := "h1", op := .isIn, listvar := "list1" },
   .ifThenElse (.monitorAnd "m0" (.varConst "h2" (.op .eq) 3)) .fwd1 .drop,
   .ifThenElse (.monitor "m0") .fwd1 .drop]

/-- A monitor that is matched twice, with conditions on two headers. -/
def twoConditionsPolicy : List Statement :=
  [.defList "list1" 1 [2],
   .monitor "m0" { var := "h1", op := .isIn, listvar := "list1" },
   .ifThenElse (.monitorAnd "m0" (.varConst "h2" (.op .eq) 3)) .fwd1 .drop,
   .ifThenElse (.monitorAnd "m0" (.varConst "h3" (.op .eq) 4)) .fwd1 .drop]

/-- The theorem on conditions on two headers. -/
theorem twoConditions_firesOn_kept :
    parsePolicy twoConditionsPolicy = .ok (programOf twoConditionsPolicy) ∧
      ∀ hdr active,
        FiresOn hdr active "m0"
            (mergeMonitors (programOf twoConditionsPolicy).monitorV
              (checksOf twoConditionsPolicy)) ↔
          FiresOn hdr active "m0" (checksOf twoConditionsPolicy) := by
  have h : AcceptedPolicy twoConditionsPolicy := ⟨by decide +kernel, by decide +kernel⟩
  have hform : ∀ c, c ∈ checksOf twoConditionsPolicy → c.type = .monitor → MonitorCheck c := by
    intro c hc htype
    exact (processMatchexprs_source (parsePolicy_wellFormed h.parsed) h.checks).monitor hc htype
  refine ⟨h.parsed, ?_⟩
  refine (mergeMonitors_firesOn_iff _ _ hform "m0").mpr (fun _ => ?_)
  decide +kernel

/--
With the monitor inactive and the extra header equal to zero the second check
fires, and nothing fires behind `merge_monitors`.
-/
theorem looserLater_firesOn_lost :
    parsePolicy looserLaterPolicy = .ok (programOf looserLaterPolicy) ∧
      processMatchexprs (programOf looserLaterPolicy).countHeaders =
        .ok (checksOf looserLaterPolicy) ∧
      FiresOn (fun _ => 0) (fun _ => 0) "m0" (checksOf looserLaterPolicy) ∧
      ¬ FiresOn (fun _ => 0) (fun _ => 0) "m0"
        (mergeMonitors (programOf looserLaterPolicy).monitorV (checksOf looserLaterPolicy)) := by
  decide +kernel

end MonitorMerging

end Poise
