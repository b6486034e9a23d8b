import Mathlib.Tactic
import Poise.OptimizedChecks
import Poise.Foundations.KeyedLookup

/-!
# Poise compiler: names and entries of the generated tables

A table is named after the header or monitor of its check, its round and its
number.  Numbers are distinct when they are given out, but the check a header is
merged into takes the number of the first check on the header, and that one
survives when it is a range comparison: then two tables have the same name,
unless they are in different rounds.

The entries of a table can be installed when they are not more than its size,
each of them gives every field that is read once, and their keys differ.  With
distinct names this is a matter of single checks: list checks must not repeat a
value, and a monitor must not have more than one extra condition.
-/

namespace Poise

open Foundations

section GeneratedTables

/-- The checks of two different tables that have one stem and one number. -/
def NamedApart (c d : Check) : Prop :=
  tableStem c = tableStem d → c.id = d.id →
    (c.type = .range ∧ d.type = .list) ∨ (c.type = .list ∧ d.type = .range)

theorem NamedApart.symm
    {c d : Check}
    (h : NamedApart c d) :
    NamedApart d c := by
  intro hstem hid
  rcases h hstem.symm hid.symm with ⟨hc, hd⟩ | ⟨hc, hd⟩
  · exact Or.inr ⟨hd, hc⟩
  · exact Or.inl ⟨hd, hc⟩

theorem tableStem_monitor
    {c : Check}
    (h : c.type = .monitor) :
    tableStem c = c.monName := by
  simp [tableStem, h]

theorem tableStem_plain
    {c : Check}
    (h : c.type ≠ .monitor) :
    tableStem c = c.header := by
  rw [tableStem]
  split
  · rename_i hmon
    exact absurd hmon h
  · rfl

theorem tableNameOf_congr
    {c d : Check}
    (hc : c.type ≠ .monitor)
    (hd : d.type ≠ .monitor)
    (hheader : c.header = d.header)
    (hrec : c.recNum = d.recNum)
    (hid : c.id = d.id) :
    tableNameOf c = tableNameOf d := by
  rw [tableNameOf, tableNameOf, tableStem_plain hc, tableStem_plain hd, hheader, hrec, hid]

/-- Names of headers and of monitors are apart. -/
theorem headerName_ne_monitorName
    {s t : String}
    (hs : isHeaderName s = true)
    (ht : isMonitorName t = true) :
    s ≠ t := by
  rintro rfl
  rw [isHeaderName] at hs
  rw [isMonitorName] at ht
  split at hs
  · rename_i ds hds
    rw [hds] at ht
    cases ht
  · cases hs

/-- A merged header whose first check is a range comparison. -/
def RangeLed (checks : List Check) (hs : List String) (h : String) : Prop :=
  h ∈ hs ∧ merges checks h = true ∧ (leader checks h).type = .range

section OneVector

variable {checks : List Check} {hs : List String} {optimized : List Check}

/-- A kept check has the stem and the number of a new one only as its range comparison. -/
theorem namedApart_kept_merged
    (hsrc : SourceChecks checks)
    {c d : Check}
    (hc : c ∈ keptPlain checks hs)
    (hd : d ∈ mergedChecks checks hs) :
    NamedApart c d := by
  obtain ⟨hmem, hplain, haway⟩ := mem_keptPlain.mp hc
  obtain ⟨h, hh, hm, rfl⟩ := mem_mergedChecks.mp hd
  intro hstem hid
  have hleader : c = leader checks h := hsrc.eq_of_id hmem (leader_mem hm).1 hid
  have hheader : c.header = h := by
    rw [hleader]
    exact (leader_mem hm).2
  -- exact and list checks on the header would have been merged
  have hnot : isMergeable c = false := by
    by_contra hkind
    rw [mergedAway_iff.mpr ⟨hheader ▸ hh, hheader ▸ hm, by simpa using hkind⟩] at haway
    cases haway
  refine Or.inl ⟨?_, rfl⟩
  cases htype : c.type with
  | range =>
      rfl
  | exact =>
      simp [isMergeable, htype] at hnot
  | list =>
      simp [isMergeable, htype] at hnot
  | monitor =>
      simp [isPlain, htype] at hplain
  | invalid =>
      simp [isPlain, htype] at hplain

/-- A monitor check has its number from a monitor check of the program. -/
theorem OptimizedFrom.exists_monitor
    (hfrom : OptimizedFrom checks hs optimized)
    (hsrc : SourceChecks checks)
    {c : Check}
    (hc : c ∈ optimized)
    (htype : c.type = .monitor) :
    ∃ first, first ∈ checks ∧ first.type = .monitor ∧ first.monName = c.monName ∧
      first.id = c.id := by
  obtain ⟨first, rest, hgroup, hfold⟩ := hfrom.folded hsrc hc htype
  obtain ⟨hmem, hfirst, hname⟩ := mem_monitorGroup.mp (hgroup ▸ List.mem_cons_self)
  exact ⟨first, hmem, hfirst, hname, hfold.id.symm⟩

/-- The tables of monitors are named apart from all others. -/
theorem namedApart_monitor
    (hfrom : OptimizedFrom checks hs optimized)
    (hsrc : SourceChecks checks)
    {c d : Check}
    (hc : c ∈ keptPlain checks hs ++ mergedChecks checks hs)
    (hd : d ∈ optimized)
    (htype : d.type = .monitor) :
    NamedApart c d := by
  obtain ⟨first, hfirst, hft, hname, hfid⟩ := hfrom.exists_monitor hsrc hd htype
  intro hstem hid
  exfalso
  rcases List.mem_append.mp hc with hc | hc
  · obtain ⟨hmem, hplain, _⟩ := mem_keptPlain.mp hc
    have hsame : c = first := hsrc.eq_of_id hmem hfirst (hid.trans hfid.symm)
    simp [isPlain, hsame, hft] at hplain
  · obtain ⟨h, _, hm, rfl⟩ := mem_mergedChecks.mp hc
    obtain ⟨hmem, hheader⟩ := leader_mem hm
    have hsame : leader checks h = first := hsrc.eq_of_id hmem hfirst (hid.trans hfid.symm)
    obtain ⟨hmon, hhead⟩ := (hsrc.parsed first hfirst).names hft
    have hleft : tableStem (mergedOn checks h) = first.header := by
      rw [← hsame]
      exact tableStem_plain (by simp [mergedOn, mergedCheck])
    rw [hleft, tableStem_monitor htype, ← hname] at hstem
    exact headerName_ne_monitorName hhead hmon hstem

/-- The checks that reach code generation are named apart, up to their rounds. -/
theorem OptimizedFrom.pairwise_namedApart
    (hfrom : OptimizedFrom checks hs optimized)
    (hsrc : SourceChecks checks)
    (hheaders : hs.Nodup)
    (hmonitors : (monitorNames optimized).Nodup) :
    optimized.Pairwise NamedApart := by
  have hrest : optimized.filter (fun c => !isPlain c) =
      optimized.filter (fun c => c.type == .monitor) := by
    apply List.filter_congr
    intro c hc
    rw [isPlain]
    cases htype : c.type with
    | invalid =>
        exact absurd htype (hfrom.live c hc)
    | _ =>
        rfl
  have hperm : ((keptPlain checks hs ++ mergedChecks checks hs) ++
      optimized.filter (fun c => c.type == .monitor)).Perm optimized := by
    rw [← hfrom.plain, ← hrest]
    exact List.filter_append_perm isPlain optimized
  rw [← hperm.pairwise_iff (fun h => NamedApart.symm h), List.pairwise_append,
    List.pairwise_append]
  refine ⟨⟨?_, ?_, ?_⟩, ?_, ?_⟩
  · -- the kept checks have their own numbers
    have hids : checks.Pairwise (fun c d => c.id ≠ d.id) := List.pairwise_map.mp hsrc.ids
    exact (hids.sublist List.filter_sublist).imp (fun hne _ hid => absurd hid hne)
  · -- the new checks have their own headers
    rw [mergedChecks, List.pairwise_map]
    refine (hheaders.filter _).imp_of_mem ?_
    intro a b ha hb hne hstem _
    rw [tableStem_plain (by simp [mergedOn, mergedCheck]),
      tableStem_plain (by simp [mergedOn, mergedCheck])] at hstem
    have hleft := (leader_mem (List.mem_filter.mp ha).2).2
    have hright := (leader_mem (List.mem_filter.mp hb).2).2
    exact absurd (hleft.symm.trans (Eq.trans hstem hright)) hne
  · intro c hc d hd
    exact namedApart_kept_merged hsrc hc hd
  · -- every monitor has one check
    refine (List.pairwise_map.mp hmonitors).imp_of_mem ?_
    intro c d hc hd hne hstem _
    rw [tableStem_monitor (by simpa using (List.mem_filter.mp hc).2),
      tableStem_monitor (by simpa using (List.mem_filter.mp hd).2)] at hstem
    exact absurd hstem hne
  · intro c hc d hd
    obtain ⟨hmem, htype⟩ := List.mem_filter.mp hd
    exact namedApart_monitor hfrom hsrc hc hmem (by simpa using htype)

/-- A range check and a list check are named alike when the one leads the header of the other. -/
theorem OptimizedFrom.rangeLed_iff
    (hfrom : OptimizedFrom checks hs optimized)
    (hsrc : SourceChecks checks)
    {c d : Check}
    (hc : c ∈ optimized)
    (hd : d ∈ optimized)
    (hrange : c.type = .range)
    (hlist : d.type = .list) :
    c.header = d.header ∧ c.id = d.id ↔
      RangeLed checks hs d.header ∧ c.id = (leader checks d.header).id := by
  have hcmem := hfrom.comparison_mem hc (Or.inr hrange)
  rcases hfrom.kept_or_merged hd (by simp [hlist]) with hkept | hmerged
  · obtain ⟨hdmem, _, haway⟩ := mem_keptPlain.mp hkept
    constructor
    · rintro ⟨_, hid⟩
      rw [hsrc.eq_of_id hcmem hdmem hid, hlist] at hrange
      cases hrange
    · rintro ⟨⟨hh, hm, _⟩, _⟩
      rw [mergedAway_iff.mpr ⟨hh, hm, by simp [isMergeable, hlist]⟩] at haway
      cases haway
  · obtain ⟨h, hh, hm, rfl⟩ := mem_mergedChecks.mp hmerged
    obtain ⟨hlmem, hlheader⟩ := leader_mem hm
    have hheader : (mergedOn checks h).header = h := hlheader
    have hnumber : (mergedOn checks h).id = (leader checks h).id := rfl
    rw [hheader, hnumber]
    constructor
    · rintro ⟨_, hid⟩
      refine ⟨⟨hh, hm, ?_⟩, hid⟩
      rw [← hsrc.eq_of_id hcmem hlmem hid]
      exact hrange
    · rintro ⟨_, hid⟩
      refine ⟨?_, hid⟩
      rw [hsrc.eq_of_id hcmem hlmem hid]
      exact hlheader

end OneVector

/-- Names collide for a range check and a list check of one header, number and round. -/
theorem nodup_tableNameOf_iff
    {placed : List Check}
    (hapart : placed.Pairwise NamedApart) :
    (placed.map tableNameOf).Nodup ↔
      ∀ c, c ∈ placed → ∀ d, d ∈ placed → c.type = .range → d.type = .list →
        c.header = d.header → c.id = d.id → c.recNum ≠ d.recNum := by
  constructor
  · intro hnodup c hc d hd hrange hlist hheader hid hrec
    have hname := tableNameOf_congr (by simp [hrange]) (by simp [hlist]) hheader hrec hid
    rw [List.inj_on_of_nodup_map hnodup hc hd hname, hlist] at hrange
    cases hrange
  · intro h
    rw [List.Nodup, List.pairwise_map]
    refine hapart.imp_of_mem ?_
    intro c d hc hd hcd hname
    obtain ⟨hstem, hrec, hid⟩ := tableNameOf_injective hname
    rcases hcd hstem hid with ⟨hct, hdt⟩ | ⟨hct, hdt⟩
    · rw [tableStem_plain (by simp [hct]), tableStem_plain (by simp [hdt])] at hstem
      exact h c hc d hd hct hdt hstem hid hrec
    · rw [tableStem_plain (by simp [hct]), tableStem_plain (by simp [hdt])] at hstem
      exact h d hd c hc hdt hct hstem.symm hid.symm hrec.symm

/--
The range comparison that leads a merged header, and the check the header is
merged into, are in different rounds.
-/
def ApartInRounds (checks : List Check) (hs : List String) (placed : List Check) : Prop :=
  ∀ c, c ∈ placed → ∀ d, d ∈ placed → c.type = .range → d.type = .list →
    RangeLed checks hs d.header → c.id = (leader checks d.header).id → c.recNum ≠ d.recNum

section OneProgram

variable {S : UnstableSort Check Check.priority} {policy : List Statement} {prog : Program}
variable {code : PolicyCode} {checks optimized placed : List Check} {tables : List TableDef}

theorem Compiled.pairwise_namedApart
    (hcomp : Compiled S prog code optimized placed tables)
    (hchecks : processMatchexprs prog.countHeaders = .ok checks)
    (hsrc : SourceChecks checks) :
    placed.Pairwise NamedApart :=
  hcomp.pairwise_placed (fun _ _ => Iff.rfl) (fun h => NamedApart.symm h)
    ((optimizedChecks_from hchecks hcomp.checks).pairwise_namedApart hsrc
      (nodup_countHeaders prog) (nodup_monitorNames_optimized hcomp.checks))

/-- The names are distinct when no merged header shares a round with its range comparison. -/
theorem Compiled.nodup_tableNames_iff
    (hcomp : Compiled S prog code optimized placed tables)
    (hchecks : processMatchexprs prog.countHeaders = .ok checks)
    (hsrc : SourceChecks checks) :
    (placed.map tableNameOf).Nodup ↔
      ApartInRounds checks prog.countHeaders.headerV placed := by
  have hfrom := optimizedChecks_from hchecks hcomp.checks
  rw [nodup_tableNameOf_iff (hcomp.pairwise_namedApart hchecks hsrc)]
  refine forall₂_congr fun c hc => forall₂_congr fun d hd => forall₂_congr fun hrange hlist => ?_
  obtain ⟨c', hc', hceq⟩ := hcomp.exists_optimized hc
  obtain ⟨d', hd', hdeq⟩ := hcomp.exists_optimized hd
  obtain ⟨hctype, hchead, hcid⟩ := fields_of_unplaced_eq hceq
  obtain ⟨hdtype, hdhead, hdid⟩ := fields_of_unplaced_eq hdeq
  have hiff := hfrom.rangeLed_iff hsrc hc' hd' (hctype.trans hrange) (hdtype.trans hlist)
  rw [hchead, hdhead, hcid, hdid] at hiff
  rw [← and_imp, hiff, and_imp]

/-- With distinct names the entries under the name of a table are those of its check. -/
theorem Compiled.entries_of_nodup
    (hcomp : Compiled S prog code optimized placed tables)
    (hnodup : (placed.map tableNameOf).Nodup)
    {c : Check}
    (hc : c ∈ placed.map nameTable) :
    code.entries.filter (fun e => e.table == c.tableName) = entriesOf c := by
  have htag : ∀ a, a ∈ placed.map nameTable → ∀ e, e ∈ entriesOf a → e.table = a.tableName :=
    fun _ _ _ he => entriesOf_table he
  have hnames : ((placed.map nameTable).map Check.tableName).Nodup := by
    rw [List.map_map]
    exact hnodup
  rw [hcomp.emitted]
  exact filter_flatMap_key hnames htag hc

/--
For every parsed policy that the compiler accepts, the table names of the checks
are distinct and every entry is under the name of its own check only, exactly
when no merged header shares a round with the range comparison that leads it.
-/
theorem tableNames_distinct_iff
    {rounds : Nat}
    (hparse : parsePolicy policy = .ok prog)
    (hchecks : processMatchexprs prog.countHeaders = .ok checks)
    (hopt : optimizedChecks prog = .ok optimized)
    (halloc : allocateResources (S.sort optimized) = .ok (some (placed, rounds)))
    (hcompile : compileTofino S prog = .ok code) :
    ((placed.map nameTable).map Check.tableName).Nodup ∧
        (∀ c, c ∈ placed.map nameTable →
          code.entries.filter (fun e => e.table == c.tableName) = entriesOf c) ↔
      ApartInRounds checks prog.countHeaders.headerV placed := by
  have hsrc := processMatchexprs_source (parsePolicy_wellFormed hparse) hchecks
  obtain ⟨tables, hcomp⟩ := compileTofino_compiled_of hcompile hopt halloc
  have hnames : (placed.map nameTable).map Check.tableName = placed.map tableNameOf := by
    rw [List.map_map]
    rfl
  rw [← hcomp.nodup_tableNames_iff hchecks hsrc, hnames]
  constructor
  · intro h
    exact h.1
  · intro hnodup
    exact ⟨hnodup, fun c hc => hcomp.entries_of_nodup hnodup hc⟩

end OneProgram

/-- A range comparison of one header and two comparisons of another, all of which drop. -/
def twoHeadersPolicy : List Statement :=
  [.ifThenElse (.pred (.varConst "h1" (.op .lt) 5)) .drop .fwd1,
   .ifThenElse (.pred (.varConst "h2" (.op .eq) 7)) .drop .fwd1,
   .ifThenElse (.pred (.varConst "h2" (.op .eq) 9)) .drop .fwd1]

/-- The same statements on one header. -/
def oneHeaderPolicy : List Statement :=
  [.ifThenElse (.pred (.varConst "h1" (.op .lt) 5)) .drop .fwd1,
   .ifThenElse (.pred (.varConst "h1" (.op .eq) 7)) .drop .fwd1,
   .ifThenElse (.pred (.varConst "h1" (.op .eq) 9)) .drop .fwd1]

/-- The theorem on a policy whose range comparison is on a header of its own. -/
theorem twoHeaders_names_distinct :
    (((placedOf twoHeadersPolicy).map nameTable).map Check.tableName).Nodup ∧
      ∀ c, c ∈ (placedOf twoHeadersPolicy).map nameTable →
        (codeOf twoHeadersPolicy).entries.filter (fun e => e.table == c.tableName) =
          entriesOf c := by
  have h : AcceptedPolicy twoHeadersPolicy := ⟨by decide +kernel, by decide +kernel⟩
  refine (tableNames_distinct_iff h.parsed h.checks h.optimized h.placed h.compiled).mpr ?_
  unfold ApartInRounds RangeLed
  decide +kernel

/-- On one header, the table of the range comparison and the merged one have the same name. -/
theorem oneHeader_names_collide :
    parsePolicy oneHeaderPolicy = .ok (programOf oneHeaderPolicy) ∧
      compileTofino (UnstableSort.insertion _) (programOf oneHeaderPolicy) =
        .ok (codeOf oneHeaderPolicy) ∧
      ((placedOf oneHeaderPolicy).map nameTable).map Check.tableName =
        ["eval_h1_tab_rec0_id0", "eval_h1_tab_rec0_id0"] ∧
      (codeOf oneHeaderPolicy).tables.map TableDef.name =
        ["eval_h1_tab_rec0_id0", "eval_h1_tab_rec0_id0"] := by
  decide +kernel

end GeneratedTables

end Poise
