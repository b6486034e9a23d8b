import Mathlib.Tactic
import Poise.MergedVector

/-!
# Poise compiler: the checks that reach code generation

Sorted by kind, the vector in front of code generation is known exactly: the
comparisons and lists that were not merged, one list check for each merged
header, and one check for each monitor.  Everything later stages copy into
tables and commands is read off this vector.

A monitor check keeps the fields of the first check on its monitor.  The extra
conditions of the others are appended to those of the first, and a header that
occurs in several of them is compared with the value of the last.
-/

namespace Poise

section OptimizedChecks

/-- The comparisons and lists that are not merged. -/
def keptPlain (checks : List Check) (hs : List String) : List Check :=
  checks.filter (fun c => isPlain c && !mergedAway checks hs c)

theorem mem_keptPlain
    {checks : List Check} {hs : List String} {c : Check} :
    c ∈ keptPlain checks hs ↔
      c ∈ checks ∧ isPlain c = true ∧ mergedAway checks hs c = false := by
  simp [keptPlain]

/-- The checks on a monitor. -/
def monitorGroup (checks : List Check) (x : String) : List Check :=
  checks.filter (isOnMonitor x)

/-- A merged header has a check with values. -/
theorem exists_mergeable
    {checks : List Check} {h : String}
    (hm : merges checks h = true) :
    ∃ c, c ∈ checks ∧ c.header = h ∧ isMergeable c = true := by
  obtain ⟨first, rest, hgroup, _, _, hlen⟩ := exists_of_merges hm
  rw [← hgroup] at hlen
  obtain ⟨c, hc⟩ := List.exists_mem_of_length_pos (Nat.lt_of_lt_of_le Nat.zero_lt_two hlen)
  exact ⟨c, mem_mergeables.mp hc⟩

/-- What the stages in front of code generation make of the checks of a program. -/
structure OptimizedFrom
    (checks : List Check) (hs : List String) (optimized : List Check) : Prop where
  items : ∀ h, h ∈ hs → merges checks h = true →
    groupItems checks h = .ok (itemsOn checks h)
  plain : optimized.filter isPlain = keptPlain checks hs ++ mergedChecks checks hs
  monitors : ∀ x, optimized.filter (isOnMonitor x) = absorbedGroup (monitorGroup checks x)
  live : ∀ c, c ∈ optimized → c.type ≠ .invalid

/-- Merging headers leaves the checks on a monitor. -/
theorem filter_monitor_merged
    (checks : List Check)
    (hs : List String)
    (x : String) :
    (keptChecks checks hs ++ mergedChecks checks hs).filter (isOnMonitor x) =
      monitorGroup checks x := by
  have hnew : (mergedChecks checks hs).filter (isOnMonitor x) = [] := by
    rw [List.filter_eq_nil_iff]
    intro c hc
    obtain ⟨h, _, _, rfl⟩ := mem_mergedChecks.mp hc
    simp [isOnMonitor, mergedOn, mergedCheck]
  rw [List.filter_append, hnew, List.append_nil, keptChecks, List.filter_filter, monitorGroup]
  apply List.filter_congr
  intro c _
  cases hon : isOnMonitor x c with
  | false =>
      rfl
  | true =>
      have htype := (isOnMonitor_iff.mp hon).1
      simp [mergedAway, isMergeable, htype]

/-- Among the other checks, merging headers leaves those it keeps and adds the new ones. -/
theorem filter_plain_merged
    (checks : List Check)
    (hs : List String) :
    (keptChecks checks hs ++ mergedChecks checks hs).filter isPlain =
      keptPlain checks hs ++ mergedChecks checks hs := by
  have hnew : (mergedChecks checks hs).filter isPlain = mergedChecks checks hs := by
    rw [List.filter_eq_self]
    intro c hc
    obtain ⟨h, _, _, rfl⟩ := mem_mergedChecks.mp hc
    rfl
  rw [List.filter_append, hnew, keptChecks, List.filter_filter, keptPlain]
  congr 1
  apply List.filter_congr
  intro c _
  cases hplain : isPlain c with
  | false =>
      rfl
  | true =>
      have hlive : c.type ≠ .invalid := by
        simp only [isPlain, Bool.and_eq_true, bne_iff_ne] at hplain
        exact hplain.2
      simp [hlive]

/-- Every program for which the optimizations complete. -/
theorem optimizedChecks_from
    {prog : Program} {checks optimized : List Check}
    (hchecks : processMatchexprs prog.countHeaders = .ok checks)
    (hopt : optimizedChecks prog = .ok optimized) :
    OptimizedFrom checks prog.countHeaders.headerV optimized := by
  obtain ⟨checkV, hcheckV, hrest⟩ := bind_eq_ok_iff.mp hopt
  rw [hchecks] at hcheckV
  cases hcheckV
  obtain ⟨merged, hmerged, hdone⟩ := bind_eq_ok_iff.mp hrest
  cases hdone
  obtain ⟨hitems, rfl⟩ := (mergeSameHeaders_eq_ok_iff (nodup_countHeaders prog)).mp hmerged
  have hstart : ∀ c, c ∈ checks → OnDeclared prog.countHeaders.monitorV c :=
    forall_processMatchexprsFrom (fun _ _ => parseMatch_onDeclared) (fun _ _ hc => hc) hchecks
  have hdeclared : ∀ c, c ∈ keptChecks checks prog.countHeaders.headerV ++
      mergedChecks checks prog.countHeaders.headerV →
      OnDeclared prog.countHeaders.monitorV c := by
    intro c hc
    rcases List.mem_append.mp hc with hc | hc
    · exact hstart c (mem_keptChecks.mp hc).1
    · obtain ⟨h, _, _, rfl⟩ := mem_mergedChecks.mp hc
      simp [OnDeclared, mergedOn, mergedCheck]
  refine ⟨hitems, ?_, ?_, ?_⟩
  · rw [mergeMonitors_filter_plain, filter_plain_merged]
  · intro x
    rw [mergeMonitors_filter_monitor hdeclared, filter_monitor_merged]
  · intro c hc
    simpa using (List.mem_filter.mp hc).2

namespace OptimizedFrom

variable {checks : List Check} {hs : List String} {optimized : List Check}

/-- A check that is not on a monitor was kept or is new. -/
theorem kept_or_merged
    (hfrom : OptimizedFrom checks hs optimized)
    {c : Check}
    (hc : c ∈ optimized)
    (htype : c.type ≠ .monitor) :
    c ∈ keptPlain checks hs ∨ c ∈ mergedChecks checks hs := by
  have hplain : c ∈ optimized.filter isPlain :=
    List.mem_filter.mpr ⟨hc, by simp [isPlain, htype, hfrom.live c hc]⟩
  rw [hfrom.plain] at hplain
  exact List.mem_append.mp hplain

/-- A comparison that reaches code generation is one of the program. -/
theorem comparison_mem
    (hfrom : OptimizedFrom checks hs optimized)
    {c : Check}
    (hc : c ∈ optimized)
    (hkind : c.type = .exact ∨ c.type = .range) :
    c ∈ checks := by
  have htype : c.type ≠ .monitor := by
    rcases hkind with ht | ht <;> simp [ht]
  rcases hfrom.kept_or_merged hc htype with hkept | hmerged
  · exact (mem_keptPlain.mp hkept).1
  · obtain ⟨h, _, _, rfl⟩ := mem_mergedChecks.mp hmerged
    rcases hkind with ht | ht <;> cases ht

/-- Kept checks reach code generation. -/
theorem mem_of_kept
    (hfrom : OptimizedFrom checks hs optimized)
    {c : Check}
    (hc : c ∈ keptPlain checks hs) :
    c ∈ optimized :=
  List.mem_of_mem_filter (hfrom.plain ▸ List.mem_append_left _ hc)

/-- So do the new ones. -/
theorem mem_of_merged
    (hfrom : OptimizedFrom checks hs optimized)
    {c : Check}
    (hc : c ∈ mergedChecks checks hs) :
    c ∈ optimized :=
  List.mem_of_mem_filter (hfrom.plain ▸ List.mem_append_right _ hc)

end OptimizedFrom

/-- The value an extra header is compared with: that of the last check that names it. -/
def extraValue (group : List Check) (h : String) : String :=
  match group.reverse.find? (fun c => decide (h ∈ c.extraHeader)) with
  | none => ""
  | some c => mapGet c.hToVal h

theorem extraValue_concat
    (group : List Check)
    (c : Check)
    (h : String) :
    extraValue (group ++ [c]) h =
      if h ∈ c.extraHeader then mapGet c.hToVal h else extraValue group h := by
  rw [extraValue, List.reverse_append, List.reverse_singleton, List.singleton_append,
    List.find?_cons]
  by_cases hin : h ∈ c.extraHeader
  · simp [hin]
  · simp [hin, extraValue]

/-- The values of a folded group. -/
theorem mapGet_foldl_absorbMonitor
    {first : Check}
    (hfirst : MonitorCheck first)
    (rest : List Check)
    (h : String) :
    mapGet (rest.foldl absorbMonitor first).hToVal h = extraValue (first :: rest) h := by
  induction rest using List.reverseRecOn with
  | nil =>
      have hone : extraValue [first] h =
          if h ∈ first.extraHeader then mapGet first.hToVal h else "" :=
        extraValue_concat [] first h
      rw [hone]
      split
      · rfl
      · rename_i hout
        rcases hfirst.extra with ⟨_, _, hmap⟩ | ⟨k, v, _, hkeys, hmap⟩
        · simp [hmap, mapGet]
        · have hne : h ≠ k := by
            simpa [hkeys] using hout
          simp [hmap, mapGet, beq_false_of_ne hne]
  | append_singleton rest c ih =>
      rw [List.foldl_append, List.foldl_cons, List.foldl_nil, absorbMonitor_eq,
        mapGet_foldl_mapInsert, ← List.cons_append, extraValue_concat, ih]

/-- A check on a monitor after folding, from the checks on the monitor. -/
structure FoldedFrom (first : Check) (rest : List Check) (c : Check) : Prop where
  type : c.type = first.type
  id : c.id = first.id
  header : c.header = first.header
  monName : c.monName = first.monName
  fieldLen : c.fieldLen = first.fieldLen
  extraCheck : c.extraCheck = first.extraCheck
  extraHeader : c.extraHeader = (first :: rest).flatMap Check.extraHeader
  values : ∀ h, mapGet c.hToVal h = extraValue (first :: rest) h

theorem foldedFrom_foldl
    {first : Check}
    (hfirst : MonitorCheck first)
    (rest : List Check) :
    FoldedFrom first rest (rest.foldl absorbMonitor first) := by
  have heq := foldl_absorbMonitor_eq first rest
  exact ⟨by rw [heq], by rw [heq], by rw [heq], by rw [heq], by rw [heq], by rw [heq],
    by rw [heq, List.flatMap_cons], mapGet_foldl_absorbMonitor hfirst rest⟩

/-- The one check that is left on a monitor. -/
theorem mem_absorbedGroup
    {group : List Check}
    (hform : ∀ c, c ∈ group → MonitorCheck c)
    {c : Check} :
    c ∈ absorbedGroup group →
      ∃ first rest, group = first :: rest ∧ FoldedFrom first rest c := by
  intro hc
  match group with
  | [] =>
      cases hc
  | [first] =>
      rw [absorbedGroup, List.mem_singleton] at hc
      · subst hc
        exact ⟨c, [], rfl, foldedFrom_foldl (hform c (by simp)) []⟩
      · intro a b l h
        cases h
  | first :: second :: rest =>
      rw [absorbedGroup, List.mem_singleton] at hc
      subst hc
      have h := foldedFrom_foldl (hform first (by simp)) (second :: rest)
      exact ⟨first, second :: rest, rfl, h.type, h.id, h.header, h.monName, h.fieldLen,
        h.extraCheck, h.extraHeader, h.values⟩

/-- Some check is left on every monitor that had one. -/
theorem exists_mem_absorbedGroup
    (first : Check)
    (rest : List Check) :
    ∃ c, c ∈ absorbedGroup (first :: rest) := by
  cases rest with
  | nil =>
      exact ⟨first, by simp [absorbedGroup]⟩
  | cons second rest =>
      exact ⟨_, List.mem_singleton.mpr rfl⟩

/-- The extra headers that are read for a monitor. -/
def extrasRead (checks : List Check) (x : String) : List String :=
  match monitorGroup checks x with
  | [] => []
  | first :: rest =>
      if first.extraCheck then (first :: rest).flatMap Check.extraHeader else []

theorem mem_monitorGroup
    {checks : List Check} {x : String} {c : Check} :
    c ∈ monitorGroup checks x ↔ c ∈ checks ∧ c.type = .monitor ∧ c.monName = x := by
  rw [monitorGroup, List.mem_filter, isOnMonitor_iff]

/-- Only headers of extra conditions on the monitor are read. -/
theorem exists_of_mem_extrasRead
    {checks : List Check} {x h : String}
    (hh : h ∈ extrasRead checks x) :
    ∃ c, c ∈ checks ∧ c.type = .monitor ∧ c.monName = x ∧ h ∈ c.extraHeader := by
  rw [extrasRead] at hh
  split at hh
  · cases hh
  · rename_i first rest hgroup
    split at hh
    · obtain ⟨c, hc, hin⟩ := List.mem_flatMap.mp hh
      rw [← hgroup] at hc
      obtain ⟨hmem, htype, hname⟩ := mem_monitorGroup.mp hc
      exact ⟨c, hmem, htype, hname, hin⟩
    · cases hh

namespace OptimizedFrom

variable {checks : List Check} {hs : List String} {optimized : List Check}

/-- A monitor check that reaches code generation. -/
theorem folded
    (hfrom : OptimizedFrom checks hs optimized)
    (hsrc : SourceChecks checks)
    {c : Check}
    (hc : c ∈ optimized)
    (htype : c.type = .monitor) :
    ∃ first rest, monitorGroup checks c.monName = first :: rest ∧ FoldedFrom first rest c := by
  have hmem : c ∈ absorbedGroup (monitorGroup checks c.monName) := by
    rw [← hfrom.monitors, List.mem_filter]
    exact ⟨hc, isOnMonitor_iff.mpr ⟨htype, rfl⟩⟩
  refine mem_absorbedGroup ?_ hmem
  intro d hd
  obtain ⟨hin, hdt, _⟩ := mem_monitorGroup.mp hd
  exact hsrc.monitor hin hdt

/-- Every monitor with a check has a check that reaches code generation. -/
theorem exists_folded
    (hfrom : OptimizedFrom checks hs optimized)
    (hsrc : SourceChecks checks)
    {x : String} {first : Check} {rest : List Check}
    (hgroup : monitorGroup checks x = first :: rest) :
    ∃ c, c ∈ optimized ∧ c.type = .monitor ∧ c.monName = x ∧ FoldedFrom first rest c := by
  obtain ⟨c, hc⟩ := exists_mem_absorbedGroup first rest
  rw [← hgroup, ← hfrom.monitors, List.mem_filter, isOnMonitor_iff] at hc
  obtain ⟨hmem, htype, hname⟩ := hc
  obtain ⟨first', rest', hgroup', hfold⟩ := hfrom.folded hsrc hmem htype
  rw [hname, hgroup] at hgroup'
  cases hgroup'
  exact ⟨c, hmem, htype, hname, hfold⟩

/-- The headers of the checks are those of the checks the program started with. -/
theorem header_iff
    (hfrom : OptimizedFrom checks hs optimized)
    (hsrc : SourceChecks checks)
    {h : String} :
    (∃ c, c ∈ optimized ∧ c.header = h) ↔
      ∃ c, c ∈ checks ∧ c.type ≠ .invalid ∧ c.header = h := by
  constructor
  · rintro ⟨c, hc, rfl⟩
    by_cases htype : c.type = .monitor
    · obtain ⟨first, rest, hgroup, hfold⟩ := hfrom.folded hsrc hc htype
      obtain ⟨hmem, hfirst, _⟩ := mem_monitorGroup.mp (hgroup ▸ List.mem_cons_self)
      exact ⟨first, hmem, by simp [hfirst], hfold.header.symm⟩
    · rcases hfrom.kept_or_merged hc htype with hkept | hmerged
      · exact ⟨c, (mem_keptPlain.mp hkept).1, hfrom.live c hc, rfl⟩
      · obtain ⟨h, _, hm, rfl⟩ := mem_mergedChecks.mp hmerged
        obtain ⟨d, hd, hdh, hkind⟩ := exists_mergeable hm
        refine ⟨d, hd, ?_, hdh.trans (leader_mem hm).2.symm⟩
        rcases isMergeable_iff.mp hkind with ht | ht <;> simp [ht]
  · rintro ⟨c, hc, hlive, rfl⟩
    by_cases htype : c.type = .monitor
    · have hmem : c ∈ monitorGroup checks c.monName := mem_monitorGroup.mpr ⟨hc, htype, rfl⟩
      match hgroup : monitorGroup checks c.monName with
      | [] =>
          rw [hgroup] at hmem
          cases hmem
      | first :: rest =>
          obtain ⟨d, hd, _, _, hfold⟩ := hfrom.exists_folded hsrc hgroup
          obtain ⟨hin, hfirst, hname⟩ := mem_monitorGroup.mp (hgroup ▸ List.mem_cons_self)
          refine ⟨d, hd, hfold.header.trans ?_⟩
          exact hsrc.watched first hin c hc hfirst htype hname
    · by_cases haway : mergedAway checks hs c = true
      · obtain ⟨hh, hm, _⟩ := mergedAway_iff.mp haway
        exact ⟨mergedOn checks c.header,
          hfrom.mem_of_merged (mem_mergedChecks.mpr ⟨c.header, hh, hm, rfl⟩), (leader_mem hm).2⟩
      · exact ⟨c, hfrom.mem_of_kept (mem_keptPlain.mpr
          ⟨hc, by simp [isPlain, htype, hlive], by simpa using haway⟩), rfl⟩

end OptimizedFrom

end OptimizedChecks

end Poise
