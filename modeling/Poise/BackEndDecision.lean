import Mathlib.Tactic
import Poise.SingleStatements
import Poise.GeneratedTables

/-!
# Poise compiler: the decision of the emitted code

The code of any policy is compared with the checks it was generated from, for
comparisons, lists and monitors alike.

* With distinct table names, the table of a check writes the value of the check
  exactly when the check fires.
* A monitor has one check, so when its round comes the register of the monitor
  and its activity are those the packet came with.
* The passes visit the checks in the order of their priorities, and every check
  writes its own priority.

So one variable carried through all passes ends with the largest value of a
check that fires.
-/

namespace Poise

open Foundations

section BackEndDecision

/-- Whether the entries of a check hold of a packet, for any kind of check. -/
def tableFires (hdr : PoiseH) (active : String → BitVec 16) (c : Check) : Bool :=
  match c.type with
  | .exact => decide (((hdr c.header).toNat : Int) ∈ checkItems c)
  | .list => decide (((hdr c.header).toNat : Int) ∈ checkItems c)
  | .range =>
      match readInt c.predLo, readInt c.predHi with
      | some lo, some hi =>
          decide (lo ≤ ((hdr c.header).toNat : Int) ∧ ((hdr c.header).toNat : Int) ≤ hi)
      | _, _ => false
  | .monitor => decide (monitorFires hdr active c)
  | .invalid => false

/-- The value the entries of a check write. -/
def Check.writes (c : Check) : Nat :=
  match c.type with
  | .monitor => c.elseActionVal
  | _ => c.ifActionVal

/-- What the block of a monitor outputs: it is refreshed by this packet or still young. -/
def monitorOutput
    (tabs : MonTabs) (hdr : PoiseH) (tstamp : BitVec 32) (regs : MonRegs)
    (c : Check) : BitVec 16 :=
  if tabs c.monName (hdr c.header) then predicateOut
  else if tstamp - regs c.monName < BitVec.ofNat 32 c.timeoutVal then predicateOut
  else 0

/-- Whether a check fires on a packet. -/
def firesAt
    (tabs : MonTabs) (hdr : PoiseH) (tstamp : BitVec 32) (regs : MonRegs)
    (c : Check) : Bool :=
  tableFires hdr (fun _ => monitorOutput tabs hdr tstamp regs c) c

/-- The values of the checks that fire on a packet. -/
def firingValues
    (tabs : MonTabs) (hdr : PoiseH) (tstamp : BitVec 32) (regs : MonRegs)
    (checkV : List Check) : List Nat :=
  (checkV.filter (firesAt tabs hdr tstamp regs)).map Check.writes

/-- What holds of the vector of checks behind the code of any parsed policy. -/
structure EmittedVector (checkV : List Check) : Prop where
  names : (checkV.map Check.tableName).Nodup
  monitors : (monitorNames checkV).Nodup
  monitorNamed : ∀ c, c ∈ checkV → c.type = .monitor → isMonitorName c.monName = true
  live : ∀ c, c ∈ checkV → c.type ≠ .invalid
  sorted : checkV.Pairwise (fun c d => c.writes ≤ d.writes)
  bounded : ∀ c, c ∈ checkV → c.writes ≤ 15

/-- Only the activity of its own monitor matters to a check. -/
theorem tableFires_congr
    {hdr : PoiseH} {active active' : String → BitVec 16} {c : Check}
    (h : c.type = .monitor → active c.monName = active' c.monName) :
    tableFires hdr active c = tableFires hdr active' c := by
  cases htype : c.type with
  | monitor =>
      have hfires : monitorFires hdr active c ↔ monitorFires hdr active' c := by
        rw [monitorFires, h htype]
        rfl
      simp only [tableFires, htype, hfires]
  | invalid =>
      simp only [tableFires, htype]
  | exact =>
      simp only [tableFires, htype]
  | range =>
      simp only [tableFires, htype]
  | list =>
      simp only [tableFires, htype]

/-- All entries of a check write its value. -/
theorem actionX_eq_writes
    {c : Check} {e : TableEntry}
    (he : e ∈ entriesOf c) :
    e.actionX = c.writes := by
  by_cases htype : c.type = .monitor
  · rw [actionX_of_monitor htype he, Check.writes, htype]
  · unfold entriesOf at he
    split at he
    · rename_i ht
      rw [List.mem_singleton.mp he, Check.writes, ht]
    · rename_i ht
      rw [List.mem_singleton.mp he, Check.writes, ht]
    · rename_i ht
      obtain ⟨x, _, rfl⟩ := List.mem_map.mp he
      rw [Check.writes, ht]
    · rename_i ht
      exact absurd ht htype
    · cases he

/-- An entry of a comparison with one value matches that value. -/
theorem exact_entry_matches_iff
    {c : Check} {t : TableDef}
    (htype : c.type = .exact)
    (ht : tableDefOf c = .ok t)
    (hdr : PoiseH) (active : String → BitVec 16) :
    (∃ e, e ∈ entriesOf c ∧ entryMatches t e (fieldVal hdr active) = true) ↔
      ((hdr c.header).toNat : Int) ∈ checkItems c := by
  simp only [tableDefOf, htype, Except.ok.injEq] at ht
  subst ht
  simp only [entriesOf, htype, List.mem_singleton, exists_eq_left, entryMatches_poiseH,
    fieldVal, beq_iff_eq, checkItems, Option.mem_toList]

/-- The entries of a membership match the members of the list. -/
theorem list_entry_matches_iff
    {c : Check} {t : TableDef}
    (htype : c.type = .list)
    (ht : tableDefOf c = .ok t)
    (hdr : PoiseH) (active : String → BitVec 16) :
    (∃ e, e ∈ entriesOf c ∧ entryMatches t e (fieldVal hdr active) = true) ↔
      ((hdr c.header).toNat : Int) ∈ checkItems c := by
  simp only [tableDefOf, htype, Except.ok.injEq] at ht
  subst ht
  have hread : ∀ x : Int, readInt (toString x) = some x := readInt_intRepr
  simp only [entriesOf, htype, List.mem_map, exists_exists_and_eq_and, entryMatches_poiseH,
    fieldVal, beq_iff_eq, hread, Option.some_inj, checkItems, exists_eq_right]

/-- The entry of an interval matches between the two ends, when both are numbers. -/
theorem range_entry_matches_iff
    {c : Check} {t : TableDef}
    (htype : c.type = .range)
    (ht : tableDefOf c = .ok t)
    (hdr : PoiseH) (active : String → BitVec 16) :
    (∃ e, e ∈ entriesOf c ∧ entryMatches t e (fieldVal hdr active) = true) ↔
      tableFires hdr active c = true := by
  simp only [tableDefOf, htype, Except.ok.injEq] at ht
  subst ht
  have hne : (Field.poiseH c.header).key ++ "_end" ≠ (Field.poiseH c.header).key ++ "_start" := by
    intro h
    exact absurd ((String.append_right_inj _).mp h) (by decide)
  simp only [entriesOf, tableFires, htype, List.mem_singleton, exists_eq_left, entryMatches,
    List.all_cons, List.all_nil, Bool.and_true, keyMatches, List.lookup_cons, beq_self_eq_true,
    beq_false_of_ne hne, fieldVal]
  rfl

/-- A check fires when one of its entries matches in its table. -/
theorem tableFires_iff_entryMatches
    {c : Check} {t : TableDef}
    (hname : c.type = .monitor → isMonitorName c.monName = true)
    (ht : tableDefOf c = .ok t)
    (hdr : PoiseH) (active : String → BitVec 16) :
    (∃ e, e ∈ entriesOf c ∧ entryMatches t e (fieldVal hdr active) = true) ↔
      tableFires hdr active c = true := by
  cases htype : c.type with
  | exact =>
      rw [exact_entry_matches_iff htype ht, tableFires, htype, decide_eq_true_iff]
  | list =>
      rw [list_entry_matches_iff htype ht, tableFires, htype, decide_eq_true_iff]
  | range =>
      exact range_entry_matches_iff htype ht hdr active
  | monitor =>
      rw [← monitorFires_iff_entryMatches (hname htype) htype ht, tableFires, htype,
        decide_eq_true_iff]
  | invalid =>
      rw [tableDefOf, htype] at ht
      cases ht

/-- The first entry of a check that matches, in its own table. -/
theorem find?_entriesOf_any
    {c : Check} {t : TableDef}
    (hname : c.type = .monitor → isMonitorName c.monName = true)
    (ht : tableDefOf c = .ok t)
    (hdr : PoiseH) (active : String → BitVec 16) :
    ((entriesOf c).find? (fun e => entryMatches t e (fieldVal hdr active))).map
        TableEntry.actionX =
      if tableFires hdr active c then some c.writes else none := by
  have hfires := tableFires_iff_entryMatches hname ht hdr active
  cases hfind : (entriesOf c).find? (fun e => entryMatches t e (fieldVal hdr active)) with
  | none =>
      have hnot : ¬ tableFires hdr active c = true := by
        rw [← hfires]
        rintro ⟨e, he, hmatch⟩
        exact List.find?_eq_none.mp hfind e he hmatch
      rw [if_neg hnot]
      rfl
  | some e =>
      have he := List.mem_of_find?_eq_some hfind
      have hmatch : entryMatches t e (fieldVal hdr active) = true := by
        simpa using List.find?_some hfind
      rw [if_pos (hfires.mp ⟨e, he, hmatch⟩), Option.map_some, actionX_eq_writes he]

section Emitted

variable {code : PolicyCode} {checkV : List Check} {tables : List TableDef}
variable (hvec : EmittedVector checkV)
variable (htables : generateTableDef checkV = .ok tables)
variable (hcode : code = policyCode checkV code.recirTimes tables)

include hvec htables hcode

/-- Applying the table of a check writes the value of the check exactly when it fires. -/
theorem applyTable_emitted
    {c : Check}
    (hc : c ∈ checkV)
    (hdr : PoiseH)
    (active : String → BitVec 16) :
    applyTable code c.tableName (fieldVal hdr active) =
      if tableFires hdr active c then some c.writes else none := by
  obtain ⟨t, ht, hfind⟩ :=
    find?_forall₂_key (generateTableDef_forall₂ htables)
      (fun _ _ h => tableDefOf_name h) hvec.names hc
  have hown :
      code.entries.filter (fun e => e.table == c.tableName) = entriesOf c := by
    rw [hcode]
    exact filter_flatMap_key hvec.names (fun _ _ _ he => entriesOf_table he) hc
  have htabs : code.tables = tables := by
    rw [hcode]
    rfl
  unfold applyTable
  rw [htabs, hfind]
  simp only
  rw [← find?_entriesOf_any (hvec.monitorNamed c hc) ht hdr active, ← hown, List.find?_filter]
  simp only [Bool.decide_and, Bool.decide_eq_true]

omit htables in
/-- The definition of a monitor is that of its one check. -/
theorem find?_monitors_emitted
    {c : Check}
    (hc : c ∈ checkV)
    (htype : c.type = .monitor) :
    code.monitors.find? (fun d => d.name == c.monName) =
      some { name := c.monName, header := c.header, timeout := c.timeoutVal } := by
  have hmon : c ∈ checkV.filter (fun c => c.type == .monitor) := by
    simp [hc, htype]
  have hrel : List.Forall₂
      (fun (c : Check) (d : MonitorDef) =>
        d = { name := c.monName, header := c.header, timeout := c.timeoutVal })
      (checkV.filter (fun c => c.type == .monitor)) code.monitors := by
    rw [hcode]
    exact List.forall₂_map_right_iff.mpr (List.forall₂_same.mpr (fun _ _ => rfl))
  have htag : ∀ (c : Check) (d : MonitorDef),
      d = { name := c.monName, header := c.header, timeout := c.timeoutVal } →
        d.name = c.monName := by
    rintro c d rfl
    rfl
  obtain ⟨d, rfl, hfind⟩ := find?_forall₂_key hrel htag hvec.monitors hmon
  exact hfind

omit htables in
/-- The block of a monitor whose register and activity are those of the packet. -/
theorem evalMonitor_emitted
    {c : Check}
    (hc : c ∈ checkV)
    (htype : c.type = .monitor)
    (tabs : MonTabs) (hdr : PoiseH) (tstamp : BitVec 32)
    {regs : MonRegs} {s : EvalState}
    (hactive : s.active c.monName = 0)
    (hregs : s.monRegs c.monName = regs c.monName) :
    (evalMonitor code tabs hdr tstamp c.monName s).active c.monName =
        monitorOutput tabs hdr tstamp regs c ∧
      ∀ x, x ≠ c.monName →
        (evalMonitor code tabs hdr tstamp c.monName s).active x = s.active x ∧
          (evalMonitor code tabs hdr tstamp c.monName s).monRegs x = s.monRegs x := by
  rw [evalMonitor, find?_monitors_emitted hvec hcode hc htype]
  simp only [monitorOutput, hregs]
  split
  · refine ⟨Function.update_self .., fun x hx => ⟨?_, ?_⟩⟩
    · exact Function.update_of_ne hx _ _
    · exact Function.update_of_ne hx _ _
  · split
    · exact ⟨Function.update_self .., fun x hx => ⟨Function.update_of_ne hx _ _, rfl⟩⟩
    · exact ⟨hactive, fun _ _ => ⟨rfl, rfl⟩⟩

end Emitted

/-- The monitors of some checks are as the packet found them. -/
def Fresh (regs : MonRegs) (cs : List Check) (s : EvalState) : Prop :=
  ∀ c, c ∈ cs → c.type = .monitor →
    s.active c.monName = 0 ∧ s.monRegs c.monName = regs c.monName

section Rounds

variable {code : PolicyCode} {checkV : List Check} {tables : List TableDef}
variable (hvec : EmittedVector checkV)
variable (htables : generateTableDef checkV = .ok tables)
variable (hcode : code = policyCode checkV code.recirTimes tables)

include hvec htables hcode

/-- Applying the table of a check leaves the monitors and appends the value of the check. -/
theorem evalStmt_table
    {c : Check}
    (hc : c ∈ checkV)
    (tabs : MonTabs) (hdr : PoiseH) (tstamp : BitVec 32)
    (s : EvalState) :
    evalStmt code tabs hdr tstamp s (.applyTable c.tableName) =
      { s with
        sets := s.sets ++
          if tableFires hdr s.active c then [BitVec.ofNat 4 c.writes] else [] } := by
  rw [evalStmt, applyTable_emitted hvec htables hcode hc]
  cases tableFires hdr s.active c with
  | true =>
      rfl
  | false =>
      simp

/-- The statements of one check, when its monitor is as the packet found it. -/
theorem foldl_evalStmts_check
    {c : Check}
    (hc : c ∈ checkV)
    (tabs : MonTabs) (hdr : PoiseH) (tstamp : BitVec 32)
    {regs : MonRegs} {s : EvalState}
    (hfresh : Fresh regs [c] s) :
    ((evalStmts c).foldl (evalStmt code tabs hdr tstamp) s).sets =
        s.sets ++ (firingValues tabs hdr tstamp regs [c]).map (BitVec.ofNat 4) ∧
      ∀ x, (c.type = .monitor → x ≠ c.monName) →
        ((evalStmts c).foldl (evalStmt code tabs hdr tstamp) s).active x = s.active x ∧
          ((evalStmts c).foldl (evalStmt code tabs hdr tstamp) s).monRegs x = s.monRegs x := by
  have hvalues : ∀ active : String → BitVec 16,
      (c.type = .monitor → active c.monName = monitorOutput tabs hdr tstamp regs c) →
      (if tableFires hdr active c then [BitVec.ofNat 4 c.writes] else []) =
        (firingValues tabs hdr tstamp regs [c]).map (BitVec.ofNat 4) := by
    intro active hactive
    have hsame : tableFires hdr active c = firesAt tabs hdr tstamp regs c :=
      tableFires_congr hactive
    rw [hsame]
    cases hfires : firesAt tabs hdr tstamp regs c with
    | true =>
        simp [firingValues, hfires]
    | false =>
        simp [firingValues, hfires]
  by_cases htype : c.type = .monitor
  · obtain ⟨hactive, hregs⟩ := hfresh c (by simp) htype
    obtain ⟨hown, hother⟩ :=
      evalMonitor_emitted hvec hcode hc htype tabs hdr tstamp hactive hregs
    have hstmts : evalStmts c = [.applyMonitor c.monName, .applyTable c.tableName] := by
      rw [evalStmts, htype]
    have hmon : evalStmt code tabs hdr tstamp s (.applyMonitor c.monName) =
        evalMonitor code tabs hdr tstamp c.monName s := rfl
    rw [hstmts, List.foldl_cons, List.foldl_cons, List.foldl_nil, hmon,
      evalStmt_table hvec htables hcode hc]
    refine ⟨?_, fun x hx => hother x (hx htype)⟩
    rw [hvalues _ (fun _ => hown), evalMonitor_sets]
  · have hstmts : evalStmts c = [.applyTable c.tableName] := by
      cases ht : c.type with
      | monitor => exact absurd ht htype
      | invalid => exact absurd ht (hvec.live c hc)
      | exact => rw [evalStmts, ht]
      | range => rw [evalStmts, ht]
      | list => rw [evalStmts, ht]
    rw [hstmts, List.foldl_cons, List.foldl_nil, evalStmt_table hvec htables hcode hc]
    exact ⟨by rw [hvalues _ (fun h => absurd h htype)], fun _ _ => ⟨rfl, rfl⟩⟩

/-- The statements of some checks with different monitors append the values of those that fire. -/
theorem foldl_evalStmts_checks
    {cs : List Check}
    (hcs : ∀ c, c ∈ cs → c ∈ checkV)
    (hnodup : (monitorNames cs).Nodup)
    (tabs : MonTabs) (hdr : PoiseH) (tstamp : BitVec 32)
    {regs : MonRegs} {s : EvalState}
    (hfresh : Fresh regs cs s) :
    ((cs.flatMap evalStmts).foldl (evalStmt code tabs hdr tstamp) s).sets =
      s.sets ++ (firingValues tabs hdr tstamp regs cs).map (BitVec.ofNat 4) := by
  induction cs generalizing s with
  | nil =>
      simp [firingValues]
  | cons c cs ih =>
      obtain ⟨hsets, hother⟩ :=
        foldl_evalStmts_check hvec htables hcode (hcs c (by simp)) tabs hdr tstamp
          (fun d hd => hfresh d (by simp [List.mem_singleton.mp hd]))
      have hapart : (monitorNames cs).Nodup ∧
          ∀ d, d ∈ cs → d.type = .monitor → c.type = .monitor → d.monName ≠ c.monName := by
        by_cases htype : c.type = .monitor
        · rw [monitorNames, List.filter_cons_of_pos (by simp [htype]), List.map_cons,
            List.nodup_cons] at hnodup
          refine ⟨hnodup.2, fun d hd hdt _ heq => hnodup.1 (heq ▸ List.mem_map_of_mem ?_)⟩
          simp [hd, hdt]
        · rw [monitorNames, List.filter_cons_of_neg (by simp [htype])] at hnodup
          exact ⟨hnodup, fun _ _ _ h => absurd h htype⟩
      -- the monitors of the other checks are still as the packet found them
      have hrest : Fresh regs cs ((evalStmts c).foldl (evalStmt code tabs hdr tstamp) s) := by
        intro d hd hdt
        obtain ⟨hactive, hregs⟩ := hother d.monName (hapart.2 d hd hdt)
        rw [hactive, hregs]
        exact hfresh d (List.mem_cons_of_mem _ hd) hdt
      rw [List.flatMap_cons, List.foldl_append,
        ih (fun d hd => hcs d (List.mem_cons_of_mem _ hd)) hapart.1 hrest, hsets,
        List.append_assoc, ← List.map_append]
      simp only [firingValues, ← List.map_append, ← List.filter_append, List.singleton_append]

end Rounds

section Passes

variable {S : UnstableSort Check Check.priority} {prog : Program} {code : PolicyCode}
variable {optimized placed : List Check} {tables : List TableDef}

/-- Over all passes the checks that fire write in the order of the vector. -/
theorem Compiled.flatMap_sets
    (hcomp : Compiled S prog code optimized placed tables)
    (hvec : EmittedVector (placed.map nameTable))
    (tabs : MonTabs) (hdr : PoiseH) (tstamp : BitVec 32) (regs : MonRegs) :
    (List.range (code.recirTimes + 1)).flatMap
        (fun k => (evalRound code tabs hdr tstamp k regs).sets) =
      (firingValues tabs hdr tstamp regs (placed.map nameTable)).map (BitVec.ofNat 4) := by
  have hround : ∀ k,
      (evalRound code tabs hdr tstamp k regs).sets =
        (firingValues tabs hdr tstamp regs
          ((placed.map nameTable).filter (fun c => decide (c.recNum = k)))).map
            (BitVec.ofNat 4) := by
    intro k
    have hsub : (monitorNames
        ((placed.map nameTable).filter (fun c => decide (c.recNum = k)))).Sublist
          (monitorNames (placed.map nameTable)) :=
      (List.filter_sublist.filter _).map _
    unfold evalRound
    rw [roundBody_eq hcomp,
      foldl_evalStmts_checks hvec hcomp.tableDefs hcomp.emitted
        (fun c hc => List.mem_of_mem_filter hc) (hvec.monitors.sublist hsub) tabs hdr tstamp
        (fun _ _ _ => ⟨rfl, rfl⟩)]
    rfl
  have hsorted :
      (placed.map nameTable).Pairwise (fun c d => c.recNum ≤ d.recNum) := by
    rw [List.pairwise_map]
    exact allocateFrom_sorted hcomp.walk
  have hall :
      (List.range (code.recirTimes + 1)).flatMap
          (fun k => (placed.map nameTable).filter (fun c => decide (c.recNum = k))) =
        placed.map nameTable := by
    rw [flatMap_filter_range hsorted, List.filter_eq_self]
    intro c hc
    obtain ⟨d, hd, rfl⟩ := List.mem_map.mp hc
    have hle := ((allocateFrom_bounds hcomp.walk).2 d hd).2
    exact decide_eq_true (Nat.lt_succ_of_le hle)
  simp only [hround, firingValues]
  rw [← List.map_flatMap, ← List.map_flatMap, ← List.filter_flatMap, hall]

/-- Where a check is placed and how its table is called does not matter to its firing. -/
theorem mem_firingValues_placed
    (hcomp : Compiled S prog code optimized placed tables)
    {tabs : MonTabs} {hdr : PoiseH} {tstamp : BitVec 32} {regs : MonRegs} {v : Nat} :
    v ∈ firingValues tabs hdr tstamp regs (placed.map nameTable) ↔
      v ∈ firingValues tabs hdr tstamp regs optimized := by
  have hmem : ∀ l : List Check, v ∈ firingValues tabs hdr tstamp regs l ↔
      ∃ c, c ∈ l ∧ (firesAt tabs hdr tstamp regs c = true ∧ c.writes = v) := by
    intro l
    simp only [firingValues, List.mem_map, List.mem_filter, and_assoc]
  rw [hmem, hmem]
  exact hcomp.exists_placed_iff (fun _ => Iff.rfl)

/-- One variable carried through all passes ends with the largest value of a firing check. -/
theorem Compiled.carriedDecision_eq
    (hcomp : Compiled S prog code optimized placed tables)
    (hvec : EmittedVector (placed.map nameTable))
    (tabs : MonTabs) (hdr : PoiseH) (tstamp : BitVec 32) (regs : MonRegs) :
    (carriedDecision code tabs hdr tstamp (fun _ => regs)).toNat =
      largest 0 (firingValues tabs hdr tstamp regs optimized) := by
  have hback :
      ((firingValues tabs hdr tstamp regs (placed.map nameTable)).map
        (BitVec.ofNat 4)).map BitVec.toNat =
          firingValues tabs hdr tstamp regs (placed.map nameTable) := by
    rw [List.map_map]
    conv_rhs => rw [← List.map_id (firingValues tabs hdr tstamp regs (placed.map nameTable))]
    apply List.map_congr_left
    intro v hv
    obtain ⟨c, hc, rfl⟩ := List.mem_map.mp hv
    have hle := hvec.bounded c (List.mem_of_mem_filter hc)
    exact Nat.mod_eq_of_lt (by omega)
  calc
    (carriedDecision code tabs hdr tstamp (fun _ => regs)).toNat =
        (lastWrite 0 ((firingValues tabs hdr tstamp regs (placed.map nameTable)).map
          (BitVec.ofNat 4))).toNat := by
      unfold carriedDecision
      rw [← lastWrite_flatMap, hcomp.flatMap_sets hvec]
    _ = lastWrite 0 (firingValues tabs hdr tstamp regs (placed.map nameTable)) := by
      rw [map_lastWrite BitVec.toNat, hback]
      rfl
    _ = largest 0 (firingValues tabs hdr tstamp regs (placed.map nameTable)) :=
      lastWrite_filter_eq_largest hvec.sorted (fun _ _ => Nat.zero_le _)
    _ = largest 0 (firingValues tabs hdr tstamp regs optimized) :=
      largest_congr 0 (fun _ => mem_firingValues_placed hcomp)

end Passes

/-- Folding the checks on a monitor keeps the actions, the priority and the timeout of the first. -/
theorem exists_of_mem_absorbedGroup
    {group : List Check} {c : Check}
    (hc : c ∈ absorbedGroup group) :
    ∃ d, d ∈ group ∧ c.type = d.type ∧ c.elseActionVal = d.elseActionVal ∧
      c.priority = d.priority ∧ c.timeoutVal = d.timeoutVal := by
  match group with
  | [] =>
      cases hc
  | [first] =>
      rw [absorbedGroup, List.mem_singleton] at hc
      · exact ⟨first, by simp, by rw [hc], by rw [hc], by rw [hc], by rw [hc]⟩
      · intro a b l h
        cases h
  | first :: second :: rest =>
      rw [absorbedGroup, List.mem_singleton, foldl_absorbMonitor_eq] at hc
      exact ⟨first, by simp, by rw [hc], by rw [hc], by rw [hc], by rw [hc]⟩

/-- A monitor check that reaches code generation, and a check of the program it comes from. -/
theorem OptimizedFrom.exists_source
    {checks optimized : List Check} {hs : List String}
    (hfrom : OptimizedFrom checks hs optimized)
    {c : Check}
    (hc : c ∈ optimized)
    (htype : c.type = .monitor) :
    ∃ d, d ∈ checks ∧ d.type = .monitor ∧ d.monName = c.monName ∧
      c.elseActionVal = d.elseActionVal ∧ c.priority = d.priority ∧
      c.timeoutVal = d.timeoutVal := by
  have hmem : c ∈ absorbedGroup (monitorGroup checks c.monName) := by
    rw [← hfrom.monitors, List.mem_filter]
    exact ⟨hc, isOnMonitor_iff.mpr ⟨htype, rfl⟩⟩
  obtain ⟨d, hd, _, helse, hprio, htimeout⟩ := exists_of_mem_absorbedGroup hmem
  obtain ⟨hin, hdt, hname⟩ := mem_monitorGroup.mp hd
  exact ⟨d, hin, hdt, hname, helse, hprio, htimeout⟩

/-- Every check that reaches code generation writes its own priority. -/
theorem OptimizedFrom.writes_eq_priority
    {checks optimized : List Check} {hs : List String}
    (hfrom : OptimizedFrom checks hs optimized)
    (hsrc : SourceChecks checks)
    {c : Check}
    (hc : c ∈ optimized) :
    c.writes = c.priority := by
  by_cases htype : c.type = .monitor
  · obtain ⟨d, hd, hdt, _, helse, hprio, _⟩ := hfrom.exists_source hc htype
    have hmonitor := hsrc.monitor hd hdt
    rw [Check.writes, htype]
    simp only
    rw [helse, hprio, hmonitor.elseVal, hmonitor.priority]
  · have hwrites : c.writes = c.ifActionVal := by
      rw [Check.writes]
      split
      · rename_i ht
        exact absurd ht htype
      · rfl
    rw [hwrites]
    rcases hfrom.kept_or_merged hc htype with hkept | hmerged
    · exact (hsrc.plain (mem_keptPlain.mp hkept).1 htype).value
    · obtain ⟨h, _, _, rfl⟩ := mem_mergedChecks.mp hmerged
      rfl

section Accepted

variable {S : UnstableSort Check Check.priority} {prog : Program} {code : PolicyCode}
variable {checks optimized placed : List Check} {tables : List TableDef}

/-- The names of the tables are those given to the checks. -/
theorem Compiled.tables_names
    (hcomp : Compiled S prog code optimized placed tables) :
    code.tables.map TableDef.name = (placed.map nameTable).map Check.tableName := by
  have hnames : ∀ {l : List Check} {ts : List TableDef},
      List.Forall₂ (fun c t => tableDefOf c = .ok t) l ts →
        ts.map TableDef.name = l.map Check.tableName := by
    intro l ts h
    induction h with
    | nil =>
        rfl
    | cons ht _ ih =>
        rw [List.map_cons, List.map_cons, ih, tableDefOf_name ht]
  rw [hcomp.emitted]
  exact hnames (generateTableDef_forall₂ hcomp.tableDefs)

/-- The vector behind the code of a parsed policy whose tables have different names. -/
theorem Compiled.emittedVector
    (hcomp : Compiled S prog code optimized placed tables)
    (hchecks : processMatchexprs prog.countHeaders = .ok checks)
    (hsrc : SourceChecks checks)
    (hnames : (code.tables.map TableDef.name).Nodup) :
    EmittedVector (placed.map nameTable) := by
  have hfrom := optimizedChecks_from hchecks hcomp.checks
  have hprio : ∀ c, c ∈ placed.map nameTable → c.writes = c.priority :=
    hcomp.forall_placed (fun _ => Iff.rfl) (fun c hc => hfrom.writes_eq_priority hsrc hc)
  have hrange : ∀ c, c ∈ placed.map nameTable → c.ValuesInRange :=
    hcomp.forall_placed (fun _ => Iff.rfl) (optimizedChecks_valuesInRange hcomp.checks)
  refine ⟨hcomp.tables_names ▸ hnames, hcomp.nodup_monitorNames, ?_, ?_, ?_, ?_⟩
  · refine hcomp.forall_placed (fun _ => Iff.rfl) ?_
    intro c hc htype
    obtain ⟨d, hd, hdt, hname, _⟩ := hfrom.exists_source hc htype
    rw [← hname]
    exact ((hsrc.parsed d hd).names hdt).1
  · exact hcomp.forall_placed (fun _ => Iff.rfl) hfrom.live
  · have hbare :
        ((placed.map nameTable).map unplaced).Pairwise (fun c d => c.priority ≤ d.priority) := by
      rw [hcomp.map_unplaced, List.pairwise_map]
      exact S.sorted optimized
    rw [List.pairwise_map] at hbare
    refine hbare.imp_of_mem ?_
    intro c d hc hd hle
    rw [hprio c hc, hprio d hd]
    exact hle
  · intro c hc
    rw [Check.writes]
    split
    · exact (hrange c hc).2.2
    · exact (hrange c hc).1.2

end Accepted

end BackEndDecision

end Poise
