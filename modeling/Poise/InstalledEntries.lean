import Mathlib.Tactic
import Poise.GeneratedTables

/-!
# Poise compiler: installing the generated entries

The entries that are generated for a table can be installed when they are not
more than the size of the table, each of them gives a value to every field the
table reads exactly once, and no two of them have the same key.

Sizes come from the defaults of the checks, from the lengths of lists and from a
constant of the monitor template; entries come from another loop over the same
checks.  An entry for one of several extra conditions of a monitor leaves the
others out, and merged lists keep the values that occur twice.
-/

namespace Poise

open Foundations

section InstalledEntries

/-- The names under which an entry gives the values for a field. -/
def keyNames : Field × MatchKind → List String
  | (f, .exact) => [f.key]
  | (f, .range) => [f.key ++ "_start", f.key ++ "_end"]

/-- A list of entries that can be installed in a table. -/
structure Installable (t : TableDef) (es : List TableEntry) : Prop where
  fits : es.length ≤ t.size
  complete : ∀ e, e ∈ es → ∀ r, r ∈ t.reads → ∀ k, k ∈ keyNames r →
    (e.keys.map Prod.fst).count k = 1
  distinct : (es.map TableEntry.keys).Nodup

/-- The entries under the name of a table. -/
def entriesFor (code : PolicyCode) (t : TableDef) : List TableEntry :=
  code.entries.filter (fun e => e.table == t.name)

theorem installable_nil
    (t : TableDef) :
    Installable t [] :=
  ⟨Nat.zero_le _, by simp, by simp⟩

theorem installable_single
    {t : TableDef} {e : TableEntry}
    (hsize : 1 ≤ t.size)
    (hkeys : ∀ r, r ∈ t.reads → ∀ k, k ∈ keyNames r → (e.keys.map Prod.fst).count k = 1) :
    Installable t [e] := by
  refine ⟨hsize, ?_, by simp⟩
  intro e' he'
  rw [List.mem_singleton.mp he']
  exact hkeys

theorem poiseH_key_injective
    {h k : String}
    (heq : (Field.poiseH h).key = (Field.poiseH k).key) :
    h = k :=
  (String.append_right_inj _).mp heq

/-- The activity of a monitor and a header field have different names. -/
theorem monActive_key_ne
    {m : String}
    (hm : isMonitorName m = true)
    (h : String) :
    (Field.monActive m).key ≠ (Field.poiseH h).key := by
  intro heq
  rw [isMonitorName] at hm
  split at hm
  · rename_i ds hds
    have hchars := congrArg String.toList heq
    simp [Field.key, hds] at hchars
  · cases hm

theorem toString_int_injective
    {a b : Int}
    (h : toString a = toString b) :
    a = b := by
  have hread := congrArg readInt h
  change readInt a.repr = readInt b.repr at hread
  simpa using hread

/-- What sizes and names the tables of a check rest on. -/
structure SizedCheck (c : Check) : Prop where
  comparison : c.type = .exact ∨ c.type = .range → c.tableSize = 2
  list : c.type = .list → c.tableSize = c.list.length
  monitor : c.type = .monitor → isMonitorName c.monName = true

section OneCheck

variable {c : Check} {t : TableDef}

/-- The entries of a list check can be installed when no value occurs twice. -/
theorem installable_list_iff
    (hsized : SizedCheck c)
    (htype : c.type = .list)
    (ht : tableDefOf c = .ok t) :
    Installable t (entriesOf c) ↔ c.list.Nodup := by
  simp only [tableDefOf, htype] at ht
  cases ht
  simp only [entriesOf, htype]
  have hinj : Function.Injective
      (fun n : Int => [((Field.poiseH c.header).key, toString n)]) := by
    intro a b hab
    simp only [List.cons.injEq, Prod.mk.injEq, true_and, and_true] at hab
    exact toString_int_injective hab
  have hkeys : ∀ l : List Int,
      (l.map (fun n => ({ table := c.tableName
                          keys := [((Field.poiseH c.header).key, toString n)]
                          actionX := c.ifActionVal } : TableEntry))).map TableEntry.keys =
        l.map (fun n => [((Field.poiseH c.header).key, toString n)]) := by
    intro l
    rw [List.map_map]
    rfl
  constructor
  · intro h
    have hdistinct := h.distinct
    rw [hkeys] at hdistinct
    exact hdistinct.of_map _
  · intro hnodup
    refine ⟨?_, ?_, ?_⟩
    · rw [List.length_map, hsized.list htype]
    · intro e he r hr k hk
      obtain ⟨n, _, rfl⟩ := List.mem_map.mp he
      rw [List.mem_singleton.mp hr] at hk
      rw [List.mem_singleton.mp hk]
      simp
    · rw [hkeys]
      exact hnodup.map hinj

/-- The entries of a monitor check can be installed when it has at most one extra condition. -/
theorem installable_monitor_iff
    (hsized : SizedCheck c)
    (htype : c.type = .monitor)
    (ht : tableDefOf c = .ok t) :
    Installable t (entriesOf c) ↔ (c.extraCheck = true → c.extraHeader.length ≤ 1) := by
  have hne := monActive_key_ne (hsized.monitor htype)
  simp only [tableDefOf, htype] at ht
  cases ht
  simp only [entriesOf, htype]
  cases hcheck : c.extraCheck with
  | false =>
      simp only [Bool.false_eq_true, if_false, false_implies, iff_true]
      refine installable_single (by simp) ?_
      intro r hr k hk
      rw [List.mem_singleton.mp hr] at hk
      rw [List.mem_singleton.mp hk]
      simp
  | true =>
      simp only [if_true, true_implies]
      cases hextra : c.extraHeader with
      | nil =>
          exact iff_of_true (installable_nil _) (Nat.zero_le _)
      | cons h others =>
          cases others with
          | nil =>
              refine iff_of_true (installable_single (by simp) ?_) (Nat.le_refl _)
              intro r hr k hk
              simp only [List.map_cons, List.map_nil, List.mem_cons, List.not_mem_nil,
                or_false] at hr
              rcases hr with rfl | rfl
              · rw [List.mem_singleton.mp hk]
                simp [(hne h).symm]
              · rw [List.mem_singleton.mp hk]
                simp [hne h]
          | cons k rest =>
              refine iff_of_false ?_ (by simp)
              intro hinst
              -- the first entry must name both headers, so they are the same
              have hcount := hinst.complete _ List.mem_cons_self
                (Field.poiseH k, MatchKind.exact) (by simp) _ List.mem_cons_self
              have hsame : k = h := by
                by_contra hkh
                have hkey : (Field.poiseH h).key ≠ (Field.poiseH k).key :=
                  fun heq => hkh (poiseH_key_injective heq).symm
                simp [hne k, hkey] at hcount
              subst hsame
              have hdistinct := hinst.distinct
              simp at hdistinct

/-- The entries of a comparison can be installed. -/
theorem installable_comparison
    (hsized : SizedCheck c)
    (hkind : c.type = .exact ∨ c.type = .range)
    (ht : tableDefOf c = .ok t) :
    Installable t (entriesOf c) := by
  have hsize := hsized.comparison hkind
  rcases hkind with htype | htype
  · simp only [tableDefOf, htype] at ht
    cases ht
    simp only [entriesOf, htype]
    refine installable_single (by simp [hsize]) ?_
    intro r hr k hk
    rw [List.mem_singleton.mp hr] at hk
    rw [List.mem_singleton.mp hk]
    simp
  · simp only [tableDefOf, htype] at ht
    cases ht
    simp only [entriesOf, htype]
    refine installable_single (by simp [hsize]) ?_
    have hends :
        (Field.poiseH c.header).key ++ "_start" ≠ (Field.poiseH c.header).key ++ "_end" := by
      rw [Ne, String.append_right_inj]
      decide
    intro r hr k hk
    rw [List.mem_singleton.mp hr] at hk
    simp only [keyNames, List.mem_cons, List.not_mem_nil, or_false] at hk
    rcases hk with rfl | rfl
    · simp
    · simp [hends]

/-- What the entries of one check need. -/
def InstallableCheck (c : Check) : Prop :=
  (c.type = .list → c.list.Nodup) ∧
    (c.type = .monitor → c.extraCheck = true → c.extraHeader.length ≤ 1)

theorem installable_entriesOf_iff
    (hsized : SizedCheck c)
    (ht : tableDefOf c = .ok t) :
    Installable t (entriesOf c) ↔ InstallableCheck c := by
  rw [InstallableCheck]
  cases htype : c.type with
  | exact =>
      simp [installable_comparison hsized (Or.inl htype) ht]
  | range =>
      simp [installable_comparison hsized (Or.inr htype) ht]
  | list =>
      simp [installable_list_iff hsized htype ht]
  | monitor =>
      simp [installable_monitor_iff hsized htype ht]
  | invalid =>
      simp [tableDefOf, htype] at ht

end OneCheck

/--
The policies whose entries can be installed: no table name is used twice, no
value occurs twice in a list or in a merged group of comparisons and lists, and
no monitor has two extra conditions that are read.
-/
structure InstallableSource
    (checks : List Check) (hs : List String) (placed : List Check) : Prop where
  apart : ApartInRounds checks hs placed
  lists : ∀ c, c ∈ checks → c.type = .list → mergedAway checks hs c = false → c.list.Nodup
  merged : ∀ h, h ∈ hs → merges checks h = true → (itemsOn checks h).Nodup
  extras : ∀ x, (extrasRead checks x).length ≤ 1

section OneVector

variable {checks : List Check} {hs : List String} {optimized : List Check}

theorem OptimizedFrom.sized
    (hfrom : OptimizedFrom checks hs optimized)
    (hsrc : SourceChecks checks)
    {c : Check}
    (hc : c ∈ optimized) :
    SizedCheck c := by
  refine ⟨?_, ?_, ?_⟩
  · intro hkind
    have hmem := hfrom.comparison_mem hc hkind
    have hnot : c.type ≠ .monitor := by
      rcases hkind with ht | ht <;> simp [ht]
    exact (hsrc.plain hmem hnot).smallTable hkind
  · intro htype
    rcases hfrom.kept_or_merged hc (by simp [htype]) with hkept | hmerged
    · exact (hsrc.plain (mem_keptPlain.mp hkept).1 (by simp [htype])).listTable htype
    · obtain ⟨h, _, _, rfl⟩ := mem_mergedChecks.mp hmerged
      rfl
  · intro htype
    obtain ⟨first, hfirst, hft, hname, _⟩ := hfrom.exists_monitor hsrc hc htype
    rw [← hname]
    exact ((hsrc.parsed first hfirst).names hft).1

/-- The lists that reach code generation. -/
theorem OptimizedFrom.lists_iff
    (hfrom : OptimizedFrom checks hs optimized) :
    (∀ c, c ∈ optimized → c.type = .list → c.list.Nodup) ↔
      (∀ c, c ∈ checks → c.type = .list → mergedAway checks hs c = false → c.list.Nodup) ∧
        ∀ h, h ∈ hs → merges checks h = true → (itemsOn checks h).Nodup := by
  constructor
  · intro hall
    refine ⟨?_, ?_⟩
    · intro c hc htype haway
      exact hall c (hfrom.mem_of_kept (mem_keptPlain.mpr
        ⟨hc, by simp [isPlain, htype], haway⟩)) htype
    · intro h hh hm
      exact hall (mergedOn checks h)
        (hfrom.mem_of_merged (mem_mergedChecks.mpr ⟨h, hh, hm, rfl⟩)) rfl
  · rintro ⟨hlists, hmerged⟩ c hc htype
    rcases hfrom.kept_or_merged hc (by simp [htype]) with hkept | hnew
    · obtain ⟨hmem, _, haway⟩ := mem_keptPlain.mp hkept
      exact hlists c hmem htype haway
    · obtain ⟨h, hh, hm, rfl⟩ := mem_mergedChecks.mp hnew
      exact hmerged h hh hm

/-- The extra conditions that reach code generation. -/
theorem OptimizedFrom.extrasLength_iff
    (hfrom : OptimizedFrom checks hs optimized)
    (hsrc : SourceChecks checks) :
    (∀ c, c ∈ optimized → c.type = .monitor → c.extraCheck = true →
        c.extraHeader.length ≤ 1) ↔
      ∀ x, (extrasRead checks x).length ≤ 1 := by
  constructor
  · intro hall x
    rw [extrasRead]
    split
    · exact Nat.zero_le _
    · rename_i first rest hgroup
      split
      · rename_i hcheck
        obtain ⟨c, hc, htype, _, hfold⟩ := hfrom.exists_folded hsrc hgroup
        rw [← hfold.extraHeader]
        exact hall c hc htype (hfold.extraCheck.trans hcheck)
      · exact Nat.zero_le _
  · intro hall c hc htype hcheck
    obtain ⟨first, rest, hgroup, hfold⟩ := hfrom.folded hsrc hc htype
    have hlen := hall c.monName
    rw [extrasRead, hgroup] at hlen
    simp only [← hfold.extraCheck, hcheck, if_true] at hlen
    rw [hfold.extraHeader]
    exact hlen

end OneVector

section OneProgram

variable {S : UnstableSort Check Check.priority} {policy : List Statement} {prog : Program}
variable {code : PolicyCode} {checks optimized placed : List Check} {tables : List TableDef}

/-- No entry is under the name of a template table. -/
theorem Compiled.entriesFor_template
    (hcomp : Compiled S prog code optimized placed tables)
    {d : MonitorDef} {t : TableDef}
    (ht : t ∈ d.templateTables) :
    entriesFor code t = [] := by
  rw [entriesFor, List.filter_eq_nil_iff]
  intro e he
  rw [hcomp.emitted] at he
  obtain ⟨c, hc, he⟩ := List.mem_flatMap.mp he
  obtain ⟨c, _, rfl⟩ := List.mem_map.mp hc
  rw [entriesOf_table he]
  simp only [beq_iff_eq]
  intro heq
  have hchars := congrArg String.toList heq
  simp only [MonitorDef.templateTables, List.mem_cons, List.not_mem_nil, or_false] at ht
  rcases ht with rfl | rfl | rfl <;> simp [nameTable, tableNameOf, refreshTable] at hchars

/-- Two checks with one table name put all their entries under it. -/
theorem Compiled.le_length_entriesFor
    (hcomp : Compiled S prog code optimized placed tables)
    {c d : Check}
    (hc : c ∈ placed.map nameTable)
    (hd : d ∈ placed.map nameTable)
    (hne : d ≠ c)
    {t : TableDef}
    (hcname : c.tableName = t.name)
    (hdname : d.tableName = t.name) :
    (entriesOf c).length + (entriesOf d).length ≤ (entriesFor code t).length := by
  have hperm : (placed.map nameTable).Perm
      (c :: d :: ((placed.map nameTable).erase c).erase d) :=
    (List.perm_cons_erase hc).trans
      ((List.perm_cons_erase ((List.mem_erase_of_ne hne).mpr hd)).cons c)
  have hown : ∀ a : Check, a.tableName = t.name →
      (entriesOf a).filter (fun e => e.table == t.name) = entriesOf a := by
    intro a ha
    rw [List.filter_eq_self]
    intro e he
    rw [entriesOf_table he, ha]
    simp
  have hlen : (entriesFor code t).length =
      (((c :: d :: ((placed.map nameTable).erase c).erase d).flatMap entriesOf).filter
        (fun e => e.table == t.name)).length := by
    rw [entriesFor, hcomp.emitted]
    exact ((hperm.flatMap_right entriesOf).filter _).length_eq
  rw [hlen, List.flatMap_cons, List.flatMap_cons, List.filter_append, List.filter_append,
    hown c hcname, hown d hdname, List.length_append, List.length_append]
  omega

theorem Compiled.sized
    (hcomp : Compiled S prog code optimized placed tables)
    (hchecks : processMatchexprs prog.countHeaders = .ok checks)
    (hsrc : SourceChecks checks) :
    ∀ c, c ∈ placed.map nameTable → SizedCheck c :=
  hcomp.forall_placed
    (fun _ => ⟨fun h => ⟨h.comparison, h.list, h.monitor⟩,
      fun h => ⟨h.comparison, h.list, h.monitor⟩⟩)
    (fun _ hc => (optimizedChecks_from hchecks hcomp.checks).sized hsrc hc)

/-- When all entries fit, the table names are distinct. -/
theorem Compiled.nodup_of_fits
    (hcomp : Compiled S prog code optimized placed tables)
    (hchecks : processMatchexprs prog.countHeaders = .ok checks)
    (hsrc : SourceChecks checks)
    (hfits : ∀ t, t ∈ tables → (entriesFor code t).length ≤ t.size) :
    (placed.map tableNameOf).Nodup := by
  rw [nodup_tableNameOf_iff (hcomp.pairwise_namedApart hchecks hsrc)]
  intro c hc d hd hrange hlist hheader hid hrec
  have hname := tableNameOf_congr (by simp [hrange]) (by simp [hlist]) hheader hrec hid
  have hcin : nameTable c ∈ placed.map nameTable := List.mem_map_of_mem hc
  have hdin : nameTable d ∈ placed.map nameTable := List.mem_map_of_mem hd
  have hne : nameTable d ≠ nameTable c := by
    intro heq
    have htype : d.type = c.type := (congrArg Check.type heq :)
    rw [hrange, hlist] at htype
    cases htype
  obtain ⟨t, ht⟩ := exists_tableDefOf (c := nameTable d) (by simp [nameTable, hlist])
  have htname : (nameTable d).tableName = t.name := (tableDefOf_name ht).symm
  -- the table of the list has room for the list and gets one entry more
  have hmany := hcomp.le_length_entriesFor hcin hdin hne (hname.trans htname) htname
  have hroom := hfits t ((mem_generateTableDef hcomp.tableDefs).mpr ⟨_, hdin, ht⟩)
  have hsized : d.tableSize = d.list.length := (hcomp.sized hchecks hsrc _ hdin).list hlist
  have hsize : t.size = d.tableSize := by
    simp only [tableDefOf, nameTable, hlist] at ht
    cases ht
    rfl
  have hone : (entriesOf (nameTable c)).length = 1 := by
    simp [entriesOf, nameTable, hrange]
  have hall : (entriesOf (nameTable d)).length = d.list.length := by
    simp [entriesOf, nameTable, hlist]
  omega

/-- With distinct names, the entries of the tables can be installed check by check. -/
theorem Compiled.installable_iff
    (hcomp : Compiled S prog code optimized placed tables)
    (hchecks : processMatchexprs prog.countHeaders = .ok checks)
    (hsrc : SourceChecks checks)
    (hnodup : (placed.map tableNameOf).Nodup) :
    (∀ t, t ∈ tables → Installable t (entriesFor code t)) ↔
      ∀ c, c ∈ optimized → InstallableCheck c := by
  have hown : ∀ c t, c ∈ placed.map nameTable → tableDefOf c = .ok t →
      (Installable t (entriesFor code t) ↔ InstallableCheck c) := by
    intro c t hc ht
    rw [entriesFor, tableDefOf_name ht, hcomp.entries_of_nodup hnodup hc]
    exact installable_entriesOf_iff (hcomp.sized hchecks hsrc c hc) ht
  have hlive : ∀ c, c ∈ placed.map nameTable → c.type ≠ .invalid :=
    hcomp.forall_placed (fun _ => Iff.rfl) (optimizedChecks_from hchecks hcomp.checks).live
  rw [← hcomp.forall_placed_iff (fun _ => Iff.rfl)]
  constructor
  · intro hall c hc
    obtain ⟨t, ht⟩ := exists_tableDefOf (hlive c hc)
    exact (hown c t hc ht).mp
      (hall t ((mem_generateTableDef hcomp.tableDefs).mpr ⟨c, hc, ht⟩))
  · intro hall t ht
    obtain ⟨c, hc, hdef⟩ := (mem_generateTableDef hcomp.tableDefs).mp ht
    exact (hown c t hc hdef).mpr (hall c hc)

/--
For every parsed policy that the compiler accepts, the generated entries can be
installed in every generated table exactly when the policy meets the conditions
of `InstallableSource`.
-/
theorem generatedEntries_installable_iff
    {rounds : Nat}
    (hparse : parsePolicy policy = .ok prog)
    (hchecks : processMatchexprs prog.countHeaders = .ok checks)
    (hopt : optimizedChecks prog = .ok optimized)
    (halloc : allocateResources (S.sort optimized) = .ok (some (placed, rounds)))
    (hcompile : compileTofino S prog = .ok code) :
    (∀ t, t ∈ code.allTables → Installable t (entriesFor code t)) ↔
      InstallableSource checks prog.countHeaders.headerV placed := by
  have hsrc := processMatchexprs_source (parsePolicy_wellFormed hparse) hchecks
  obtain ⟨tables, hcomp⟩ := compileTofino_compiled_of hcompile hopt halloc
  have hfrom := optimizedChecks_from hchecks hcomp.checks
  have htables : code.tables = tables := by
    rw [hcomp.emitted]
    rfl
  constructor
  · intro hall
    have hevery : ∀ t, t ∈ tables → Installable t (entriesFor code t) :=
      fun t ht => hall t (List.mem_append_left _ (htables ▸ ht))
    have hnodup := hcomp.nodup_of_fits hchecks hsrc (fun t ht => (hevery t ht).fits)
    have hsingle := (hcomp.installable_iff hchecks hsrc hnodup).mp hevery
    obtain ⟨hlists, hmerged⟩ := hfrom.lists_iff.mp (fun c hc => (hsingle c hc).1)
    exact ⟨(hcomp.nodup_tableNames_iff hchecks hsrc).mp hnodup, hlists, hmerged,
      (hfrom.extrasLength_iff hsrc).mp (fun c hc => (hsingle c hc).2)⟩
  · intro hsource t ht
    have hnodup := (hcomp.nodup_tableNames_iff hchecks hsrc).mpr hsource.apart
    rcases List.mem_append.mp ht with ht | ht
    · refine (hcomp.installable_iff hchecks hsrc hnodup).mpr ?_ t (htables ▸ ht)
      intro c hc
      exact ⟨hfrom.lists_iff.mpr ⟨hsource.lists, hsource.merged⟩ c hc,
        (hfrom.extrasLength_iff hsrc).mpr hsource.extras c hc⟩
    · obtain ⟨d, _, htemplate⟩ := List.mem_flatMap.mp ht
      rw [hcomp.entriesFor_template htemplate]
      exact installable_nil t

end OneProgram

/-- A list and two comparisons of one header, which are merged. -/
def mergedListPolicy (repeated : Int) : List Statement :=
  [.defList "list1" 1 [2],
   .ifThenElse (.list { var := "h1", op := .isIn, listvar := "list1" }) .drop .fwd1,
   .ifThenElse (.pred (.varConst "h1" (.op .eq) repeated)) .drop .fwd1]

/-- The theorem on a policy whose merged values are distinct. -/
theorem mergedList_installable :
    parsePolicy (mergedListPolicy 7) = .ok (programOf (mergedListPolicy 7)) ∧
      ∀ t, t ∈ (codeOf (mergedListPolicy 7)).allTables →
        Installable t (entriesFor (codeOf (mergedListPolicy 7)) t) := by
  have h : AcceptedPolicy (mergedListPolicy 7) := ⟨by decide +kernel, by decide +kernel⟩
  refine ⟨h.parsed, (generatedEntries_installable_iff h.parsed h.checks h.optimized h.placed
    h.compiled).mpr ⟨?_, ?_, ?_, ?_⟩⟩
  · unfold ApartInRounds RangeLed
    decide +kernel
  · decide +kernel
  · decide +kernel
  · intro x
    have hnone : ∀ c, c ∈ checksOf (mergedListPolicy 7) → c.type ≠ .monitor := by
      decide +kernel
    match hextras : extrasRead (checksOf (mergedListPolicy 7)) x with
    | [] =>
        exact Nat.zero_le _
    | h :: rest =>
        obtain ⟨c, hc, htype, _⟩ := exists_of_mem_extrasRead (hextras ▸ List.mem_cons_self)
        exact absurd htype (hnone c hc)

/-- A value that a list and a comparison share is installed twice under the same key. -/
theorem mergedList_not_installable :
    parsePolicy (mergedListPolicy 2) = .ok (programOf (mergedListPolicy 2)) ∧
      compileTofino (UnstableSort.insertion _) (programOf (mergedListPolicy 2)) =
        .ok (codeOf (mergedListPolicy 2)) ∧
      ∃ t, t ∈ (codeOf (mergedListPolicy 2)).allTables ∧
        ((entriesFor (codeOf (mergedListPolicy 2)) t).map TableEntry.keys) =
          [[("poise_h_h1", "1")], [("poise_h_h1", "2")], [("poise_h_h1", "2")]] ∧
        ¬ Installable t (entriesFor (codeOf (mergedListPolicy 2)) t) := by
  have hkeys : ∃ t, t ∈ (codeOf (mergedListPolicy 2)).allTables ∧
      ((entriesFor (codeOf (mergedListPolicy 2)) t).map TableEntry.keys) =
        [[("poise_h_h1", "1")], [("poise_h_h1", "2")], [("poise_h_h1", "2")]] := by
    decide +kernel
  refine ⟨by decide +kernel, by decide +kernel, ?_⟩
  obtain ⟨t, ht, heq⟩ := hkeys
  refine ⟨t, ht, heq, ?_⟩
  intro hinst
  have hnodup := hinst.distinct
  rw [heq] at hnodup
  revert hnodup
  decide

end InstalledEntries

end Poise
