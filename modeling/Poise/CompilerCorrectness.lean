import Poise.MergingCorrectness
import Poise.Foundations.KeyedLookup

/-!
# Poise compiler: correctness on exact and membership policies

A policy of the fragment is followed from its merged checks to the switch.

* The tables and entries of a check write its action value exactly when the
  check matches; the numbers of the checks keep the tables apart.
* Sorting by priority makes the last write the largest one, and the passes visit
  the checks in the sorted order.

The main result is that the passes together leave the decision the policy asks
for.
-/

namespace Poise

open Foundations

section CompilerCorrectness

/-- What holds of the vector of checks the code is generated from. -/
structure MembershipVector (checkV : List Check) : Prop where
  form : ∀ c, c ∈ checkV → MembershipCheck c
  names : (checkV.map Check.tableName).Nodup
  sorted : checkV.Pairwise (fun c d => c.ifActionVal ≤ d.ifActionVal)

/-- The checks of a policy after merging. -/
theorem optimizedChecks_membership
    {policy : List MembershipStatement} {optimized : List Check}
    (h : optimizedChecks (membershipProgram policy) = .ok optimized)
    (hdr : PoiseH) :
    (∀ c, c ∈ optimized → MembershipCheck c) ∧
      (optimized.map Check.id).Nodup ∧
      ∀ v, v ∈ firedValues hdr optimized ↔ v ∈ trueValues policy hdr := by
  obtain ⟨checks, marked, hchecks, hmarked, rfl⟩ := optimizedChecks_eq_ok h
  obtain ⟨hform, hids, hvals⟩ := processMatchexprsFrom_membership hchecks hdr
  have hallLive : ∀ c, c ∈ checks → isLive c = true := by
    intro c hc
    have := (hform c hc).mergeable
    unfold isMergeable at this
    unfold isLive
    cases ht : c.type <;> simp_all
  have hinv : MergeInv (membershipProgram policy).countHeaders.headerV checks := by
    refine ⟨fun c hc _ => hform c hc, fun c hc _ => hallLive c hc, ?_⟩
    rw [List.filter_eq_self.mpr hallLive, hids]
    exact List.nodup_range'
  obtain ⟨hfinal, hkept⟩ :=
    mergeHeaders_membership (nodup_countHeaders _) hinv hmarked hdr
  -- a policy of the fragment has no monitors, so the second merge only erases again
  have hout :
      mergeMonitors (membershipProgram policy).monitorV
        (removeInvalidChecks marked) = marked.filter isLive := by
    change removeInvalidChecks (removeInvalidChecks marked) = _
    unfold removeInvalidChecks
    rw [List.filter_filter]
    simp only [Bool.and_self]
    rfl
  rw [hout]
  refine ⟨?_, hfinal.ids, ?_⟩
  · intro c hc
    obtain ⟨hmem, hlive⟩ := List.mem_filter.mp hc
    exact hfinal.form c hmem hlive
  · intro v
    have hlists :
        trueValues policy hdr =
          (policy.filter
            (MembershipStatement.holds
              (membershipProgram policy).countHeaders.getListByName hdr)).map
            MembershipStatement.value := rfl
    rw [hlists, ← hvals, ← hkept v]
    exact mem_firedValues_removeInvalid

/-- Allocation and naming keep what the fragment looks at. -/
theorem membershipCheck_unplaced
    {c : Check} :
    MembershipCheck (unplaced c) ↔ MembershipCheck c :=
  ⟨fun h => ⟨h.kind, h.prio, h.range⟩, fun h => ⟨h.kind, h.prio, h.range⟩⟩

theorem firedValues_unplaced
    (hdr : PoiseH)
    (checkV : List Check) :
    firedValues hdr (checkV.map unplaced) = firedValues hdr checkV := by
  unfold firedValues
  rw [List.filter_map, List.map_map]
  rfl

/-- Table names are apart when the numbers of the checks are. -/
theorem nodup_tableNames
    {checkV : List Check}
    (h : (checkV.map Check.id).Nodup) :
    ((checkV.map nameTable).map Check.tableName).Nodup := by
  rw [List.map_map]
  rw [List.Nodup, List.pairwise_map] at h ⊢
  apply h.imp
  intro c d hne heq
  exact hne (tableNameOf_injective heq).2.2

/-- The vector behind the code of an accepted policy. -/
theorem compiled_membershipVector
    {S : UnstableSort Check Check.priority} {policy : List MembershipStatement}
    {code : PolicyCode} {optimized placed : List Check} {tables : List TableDef}
    (hcomp : Compiled S (membershipProgram policy) code optimized placed tables)
    (hdr : PoiseH) :
    MembershipVector (placed.map nameTable) ∧
      ∀ v, v ∈ firedValues hdr (placed.map nameTable) ↔ v ∈ trueValues policy hdr := by
  obtain ⟨hform, hids, hvals⟩ := optimizedChecks_membership hcomp.checks hdr
  have hperm := S.perm optimized
  have hbare := hcomp.map_unplaced
  have hforms : ∀ c, c ∈ placed.map nameTable → MembershipCheck c :=
    hcomp.forall_placed (fun _ => membershipCheck_unplaced) hform
  refine ⟨⟨hforms, ?_, ?_⟩, ?_⟩
  · apply nodup_tableNames
    have hids' : placed.map Check.id = (S.sort optimized).map Check.id := by
      have hmapped := congrArg (List.map Check.id) hbare
      rw [List.map_map, List.map_map, List.map_map] at hmapped
      exact hmapped
    rw [hids']
    exact (hperm.map Check.id).nodup_iff.mpr hids
  · have hsorted :
        (placed.map nameTable).Pairwise (fun c d => c.priority ≤ d.priority) := by
      have hbareSorted :
          ((placed.map nameTable).map unplaced).Pairwise
            (fun c d => c.priority ≤ d.priority) := by
        rw [hbare, List.pairwise_map]
        exact S.sorted optimized
      rw [List.pairwise_map] at hbareSorted
      exact hbareSorted
    apply hsorted.imp_of_mem
    intro c d hc hd hle
    rw [(hforms c hc).prio, (hforms d hd).prio]
    exact hle
  · intro v
    rw [← hvals v, ← firedValues_unplaced, hbare, firedValues_unplaced]
    rw [mem_firedValues, mem_firedValues]
    simp only [hperm.mem_iff]

/-- An exact entry on one header matches on equality with its key. -/
theorem entryMatches_poiseH
    (name t : String) (size action : Nat) (h key : String) (val : Field → Int) :
    entryMatches
        { name := name, reads := [(.poiseH h, .exact)], size := size }
        { table := t, keys := [(Field.key (.poiseH h), key)], actionX := action } val =
      (readInt key == some (val (.poiseH h))) := by
  simp [entryMatches, keyMatches]

/-- The entries of a check in its own table: one matches exactly when the check does. -/
theorem find?_entriesOf
    {c : Check} {t : TableDef}
    (hc : MembershipCheck c)
    (ht : tableDefOf c = .ok t)
    (hdr : PoiseH)
    (active : String → BitVec 16) :
    ((entriesOf c).find? (fun e => entryMatches t e (fieldVal hdr active))).map
        TableEntry.actionX =
      if checkFires hdr c then some c.ifActionVal else none := by
  rcases hc.kind with ⟨hkind, _⟩ | hkind
  · simp only [tableDefOf, hkind] at ht
    cases ht
    simp only [entriesOf, hkind, List.find?_singleton, entryMatches_poiseH, fieldVal]
    by_cases hread : readInt c.predHi = some ((hdr c.header).toNat : Int)
    · simp [checkFires, checkItems, hkind, hread]
    · simp [checkFires, checkItems, hkind, hread]
  · simp only [tableDefOf, hkind] at ht
    cases ht
    simp only [entriesOf, hkind, List.find?_map, Option.map_map]
    have hmatch :
        ((fun e => entryMatches
            { name := c.tableName, reads := [(.poiseH c.header, .exact)], size := c.tableSize }
            e (fieldVal hdr active)) ∘
          fun e : Int =>
            ({ table := c.tableName
               keys := [(Field.key (.poiseH c.header), toString e)]
               actionX := c.ifActionVal } : TableEntry)) =
        fun e : Int => e == ((hdr c.header).toNat : Int) := by
      funext e
      simp only [Function.comp_apply, entryMatches_poiseH, fieldVal]
      simp
    rw [hmatch]
    by_cases hmem : ((hdr c.header).toNat : Int) ∈ c.list
    · have hfires : checkFires hdr c = true := by
        simpa [checkFires, checkItems, hkind] using hmem
      have hfind : (c.list.find? (fun e => e == ((hdr c.header).toNat : Int))).isSome := by
        simpa using hmem
      obtain ⟨e, he⟩ := Option.isSome_iff_exists.mp hfind
      simp [he, hfires]
    · have hfires : checkFires hdr c = false := by
        simpa [checkFires, checkItems, hkind] using hmem
      have hfind : c.list.find? (fun e => e == ((hdr c.header).toNat : Int)) = none := by
        rw [List.find?_eq_none]
        intro e he heq
        exact hmem (beq_iff_eq.mp heq ▸ he)
      simp [hfind, hfires]

section Tables

variable {code : PolicyCode} {checkV : List Check} {tables : List TableDef}
variable (hvec : MembershipVector checkV)
variable (htables : generateTableDef checkV = .ok tables)
variable (hcode : code = policyCode checkV code.recirTimes tables)

include hvec htables hcode

/-- Applying the table of a check writes its action value exactly when the check matches. -/
theorem applyTable_membership
    {c : Check}
    (hc : c ∈ checkV)
    (hdr : PoiseH)
    (active : String → BitVec 16) :
    applyTable code c.tableName (fieldVal hdr active) =
      if checkFires hdr c then some c.ifActionVal else none := by
  obtain ⟨t, ht, hfind⟩ :=
    find?_forall₂_key (generateTableDef_forall₂ htables)
      (fun _ _ h => tableDefOf_name h) hvec.names hc
  have hown :
      code.entries.filter (fun e => e.table == c.tableName) = entriesOf c := by
    rw [hcode]
    exact filter_flatMap_key hvec.names (fun _ _ _ he => entriesOf_table he) hc
  have htabs : code.tables = tables := by
    rw [hcode]
    rfl
  unfold applyTable
  rw [htabs, hfind]
  simp only
  rw [← find?_entriesOf (hvec.form c hc) ht hdr active, ← hown, List.find?_filter]
  simp only [Bool.decide_and, Bool.decide_eq_true]

/-- The statements of some of the checks append the values of those that match. -/
theorem foldl_evalStmt_membership
    {cs : List Check}
    (hcs : ∀ c, c ∈ cs → c ∈ checkV)
    (tabs : MonTabs) (hdr : PoiseH) (tstamp : BitVec 32)
    (s : EvalState) :
    ((cs.flatMap evalStmts).foldl (evalStmt code tabs hdr tstamp) s).sets =
      s.sets ++ (firedValues hdr cs).map (BitVec.ofNat 4) := by
  induction cs generalizing s with
  | nil =>
      simp [firedValues]
  | cons c cs ih =>
      have hstmts : evalStmts c = [.applyTable c.tableName] := by
        rcases (hvec.form c (hcs c (by simp))).kind with ⟨ht, _⟩ | ht <;>
          simp [evalStmts, ht]
      have happ :=
        applyTable_membership hvec htables hcode (hcs c (by simp)) hdr s.active
      rw [List.flatMap_cons, hstmts, List.foldl_append,
        ih (fun d hd => hcs d (List.mem_cons_of_mem _ hd))]
      cases hfire : checkFires hdr c with
      | true =>
          simp [evalStmt, happ, hfire, firedValues]
      | false =>
          simp [evalStmt, happ, hfire, firedValues]

end Tables

/-- Over all passes the matching checks write in the order of the vector. -/
theorem flatMap_sets_membership
    {S : UnstableSort Check Check.priority} {prog : Program}
    {code : PolicyCode} {optimized placed : List Check} {tables : List TableDef}
    (hcomp : Compiled S prog code optimized placed tables)
    (hvec : MembershipVector (placed.map nameTable))
    (tabs : MonTabs) (hdr : PoiseH) (tstamp : BitVec 32) (regs : Nat → MonRegs) :
    (List.range (code.recirTimes + 1)).flatMap
        (fun k => (evalRound code tabs hdr tstamp k (regs k)).sets) =
      (firedValues hdr (placed.map nameTable)).map (BitVec.ofNat 4) := by
  have hround : ∀ k,
      (evalRound code tabs hdr tstamp k (regs k)).sets =
        (firedValues hdr
          ((placed.map nameTable).filter (fun c => decide (c.recNum = k)))).map
            (BitVec.ofNat 4) := by
    intro k
    unfold evalRound
    rw [roundBody_eq hcomp,
      foldl_evalStmt_membership hvec hcomp.tableDefs hcomp.emitted
        (fun c hc => List.mem_of_mem_filter hc)]
    rfl
  have hsorted :
      (placed.map nameTable).Pairwise (fun c d => c.recNum ≤ d.recNum) := by
    rw [List.pairwise_map]
    exact allocateFrom_sorted hcomp.walk
  have hall :
      (List.range (code.recirTimes + 1)).flatMap
          (fun k => (placed.map nameTable).filter (fun c => decide (c.recNum = k))) =
        placed.map nameTable := by
    rw [flatMap_filter_range hsorted, List.filter_eq_self]
    intro c hc
    obtain ⟨d, hd, rfl⟩ := List.mem_map.mp hc
    have hle := ((allocateFrom_bounds hcomp.walk).2 d hd).2
    exact decide_eq_true (Nat.lt_succ_of_le hle)
  simp only [hround, firedValues]
  rw [← List.map_flatMap, ← List.map_flatMap, ← List.filter_flatMap, hall]

/--
On every accepted policy of the fragment the passes together leave the decision
the policy asks for, whatever the headers and the monitors are.
-/
theorem carriedDecision_eq_policyDecision
    {S : UnstableSort Check Check.priority}
    {policy : List MembershipStatement} {prog : Program} {code : PolicyCode}
    (hparse : parsePolicy (policy.map MembershipStatement.toStatement) = .ok prog)
    (hcompile : compileTofino S prog = .ok code)
    (tabs : MonTabs) (hdr : PoiseH) (tstamp : BitVec 32) (regs : Nat → MonRegs) :
    (carriedDecision code tabs hdr tstamp regs).toNat = policyDecision policy hdr := by
  rw [parsePolicy_membership hparse] at hcompile
  obtain ⟨optimized, placed, tables, hcomp⟩ := compileTofino_compiled hcompile
  obtain ⟨hvec, hvals⟩ := compiled_membershipVector hcomp hdr
  have hbound : ∀ v, v ∈ firedValues hdr (placed.map nameTable) → v < 2 ^ 4 := by
    intro v hv
    obtain ⟨c, hc, _, rfl⟩ := mem_firedValues.mp hv
    have := (hvec.form c hc).range.1.2
    omega
  have hback :
      ((firedValues hdr (placed.map nameTable)).map (BitVec.ofNat 4)).map BitVec.toNat =
        firedValues hdr (placed.map nameTable) := by
    rw [List.map_map]
    conv_rhs => rw [← List.map_id (firedValues hdr (placed.map nameTable))]
    apply List.map_congr_left
    intro v hv
    exact Nat.mod_eq_of_lt (hbound v hv)
  calc
    (carriedDecision code tabs hdr tstamp regs).toNat =
        (lastWrite 0 ((firedValues hdr (placed.map nameTable)).map (BitVec.ofNat 4))).toNat := by
      unfold carriedDecision
      rw [← lastWrite_flatMap, flatMap_sets_membership hcomp hvec]
    _ = lastWrite 0 (firedValues hdr (placed.map nameTable)) := by
      rw [map_lastWrite BitVec.toNat, hback]
      rfl
    _ = largest 0 (firedValues hdr (placed.map nameTable)) :=
      lastWrite_filter_eq_largest hvec.sorted (fun _ _ => Nat.zero_le _)
    _ = policyDecision policy hdr :=
      largest_congr 0 hvals

/-- A policy on one header whose two statements are true of different values. -/
def rolePolicy : List MembershipStatement :=
  [.declare "list1" 1 [2], .member "h0" "list1" .fwd4, .exact "h0" 2 .drop]

/-- The main result on a policy of three statements and a header value both predicates hold of. -/
theorem carriedDecision_rolePolicy :
    ∃ code,
      compileTofino (UnstableSort.insertion _) (membershipProgram rolePolicy) = .ok code ∧
        (carriedDecision code (fun _ _ => false) (fun _ => 2) 0 (fun _ _ => 0)).toNat = 15 := by
  have hparse :
      parsePolicy (rolePolicy.map MembershipStatement.toStatement) =
        .ok (membershipProgram rolePolicy) := by
    decide
  cases hcompile :
      compileTofino (UnstableSort.insertion _) (membershipProgram rolePolicy) with
  | error f =>
      have hok :
          (compileTofino (UnstableSort.insertion _)
            (membershipProgram rolePolicy)).toOption.isSome = true := by
        decide
      rw [hcompile] at hok
      cases hok
  | ok code =>
      refine ⟨code, rfl, ?_⟩
      rw [carriedDecision_eq_policyDecision hparse hcompile]
      decide

end CompilerCorrectness

end Poise
