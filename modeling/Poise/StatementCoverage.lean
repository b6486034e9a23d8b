import Mathlib.Tactic
import Poise.OptimizedChecks
import Poise.MergingCorrectness

/-!
# Poise compiler: no statement is lost

Every if-statement of an accepted policy should reach code generation, as its own
check or as part of a merged one, and there have at least one entry.  The stages
that erase checks erase those that were merged, and their contents are in the
check they were merged into.

They also erase what was never filled in.  A comparison with `<=` or `>=` leaves
its check invalid without failing, and the statement disappears.
-/

namespace Poise

open Foundations

section StatementCoverage

/-- The header of a statement; of a monitor the one its declaration watches. -/
def statementHeader (prog : Program) (me : MatchExpr) : Option String :=
  match me.body with
  | .pred bp => some bp.lhs
  | .list lp => some lp.listvar
  | .monitor m _ => (prog.getMonByName m).map (fun mon => mon.lp.listvar)

/-- A check is the given one up to its place, or one that the given one was merged into. -/
def CarriedBy (own c : Check) : Prop :=
  unplaced c = unplaced own ∨
    (isMergeable own = true ∧ c.type = .list ∧ ∀ n, n ∈ checkItems own → n ∈ c.list) ∨
    (own.type = .monitor ∧ c.type = .monitor ∧ c.monName = own.monName ∧
      ∀ h, h ∈ own.extraHeader → h ∈ c.extraHeader)

/--
The match expression with the given number has a check in the vector, its own or
the one it was merged into, with its header and with an entry.
-/
def Represented (prog : Program) (checkV : List Check) (i : Nat) (me : MatchExpr) : Prop :=
  ∃ check c, parseMatch prog.countHeaders me = .ok check ∧
    c ∈ checkV ∧ CarriedBy { check with id := i } c ∧
    statementHeader prog me = some c.header ∧ entriesOf c ≠ []

/-- Match expressions other than comparisons with `<=` and `>=`. -/
def OperatorHandled : MatchBody → Prop
  | .pred bp => bp.op ≠ .le ∧ bp.op ≠ .ge
  | _ => True

instance (body : MatchBody) : Decidable (OperatorHandled body) :=
  match body with
  | .pred _ => inferInstanceAs (Decidable (_ ∧ _))
  | .list _ => inferInstanceAs (Decidable True)
  | .monitor _ _ => inferInstanceAs (Decidable True)

/-- The check of a match expression has the header of the statement. -/
theorem statementHeader_of_parseMatch
    {prog : Program} {me : MatchExpr} {check : Check}
    (h : parseMatch prog.countHeaders me = .ok check) :
    statementHeader prog me = some check.header := by
  cases hbody : me.body with
  | pred bp =>
      simp only [parseMatch, hbody] at h
      obtain ⟨a, b, _, _, rfl⟩ := parseMatchPred_eq h
      obtain ⟨lhs, op, rhs⟩ := bp
      rw [statementHeader, hbody]
      cases op <;> rfl
  | list lp =>
      simp only [parseMatch, hbody] at h
      obtain ⟨a, b, items, _, _, _, rfl⟩ := parseMatchList_eq h
      rw [statementHeader, hbody]
  | monitor m bp =>
      simp only [parseMatch, hbody] at h
      obtain ⟨_, _, _, mon, hmon, hheader, _⟩ := parseMatchMon_spec h
      have hfound : prog.getMonByName m = some mon := hmon
      rw [statementHeader, hbody, hheader]
      simp only [hfound, Option.map_some]

/-- A check is filled in exactly when its operator is handled. -/
theorem parseMatch_live_iff
    {prog : Program} {me : MatchExpr} {check : Check}
    (h : parseMatch prog me = .ok check) :
    check.type ≠ .invalid ↔ OperatorHandled me.body := by
  cases hbody : me.body with
  | pred bp =>
      simp only [parseMatch, hbody] at h
      obtain ⟨a, b, _, _, rfl⟩ := parseMatchPred_eq h
      obtain ⟨lhs, op, rhs⟩ := bp
      cases op <;> simp [fillComparison, OperatorHandled]
  | list lp =>
      simp only [parseMatch, hbody] at h
      obtain ⟨htype, _⟩ := parseMatchList_spec h
      exact iff_of_true (by simp [htype]) trivial
  | monitor m bp =>
      simp only [parseMatch, hbody] at h
      obtain ⟨htype, _⟩ := parseMatchMon_spec h
      exact iff_of_true (by simp [htype]) trivial

/-- The loop over the match expressions, by position. -/
theorem mem_of_getElem?_matchexprs
    {prog : Program} {k : Nat} {mes : List MatchExpr} {checks : List Check}
    (h : processMatchexprsFrom prog k mes = .ok checks)
    {i : Nat} {me : MatchExpr}
    (hi : mes[i]? = some me) :
    ∃ check, parseMatch prog me = .ok check ∧ { check with id := k + i } ∈ checks := by
  induction mes generalizing k checks i with
  | nil =>
      simp at hi
  | cons head mes ih =>
      obtain ⟨check, hcheck, h⟩ := bind_eq_ok_iff.mp h
      obtain ⟨rest, hrest, h⟩ := bind_eq_ok_iff.mp h
      cases h
      cases i with
      | zero =>
          simp only [List.getElem?_cons_zero, Option.some.injEq] at hi
          subst hi
          exact ⟨check, hcheck, List.mem_cons_self⟩
      | succ i =>
          obtain ⟨check', hcheck', hmem⟩ := ih hrest hi
          refine ⟨check', hcheck', List.mem_cons_of_mem _ ?_⟩
          rw [Nat.add_right_comm] at hmem
          exact hmem

/-- List checks of a parsed policy have values. -/
theorem list_ne_nil_of_parsed
    {policy : List Statement} {prog : Program} {checks : List Check}
    (hparse : parsePolicy policy = .ok prog)
    (hchecks : processMatchexprs prog.countHeaders = .ok checks)
    {c : Check}
    (hc : c ∈ checks)
    (htype : c.type = .list) :
    c.list ≠ [] := by
  obtain ⟨me, check, j, _, hcheck, rfl⟩ := exists_matchexpr_of_mem hchecks hc
  rw [parseMatch] at hcheck
  split at hcheck
  · obtain ⟨hmon, _⟩ := parseMatchMon_spec hcheck
    exact absurd (hmon.symm.trans htype) (by decide)
  · obtain ⟨hkind, _⟩ := parseMatchPred_spec hcheck
    simp only at htype
    simp [htype] at hkind
  · obtain ⟨a, b, items, _, _, hitems, rfl⟩ := parseMatchList_eq hcheck
    have hfound : prog.getListByName _ = some items := hitems
    exact ne_nil_of_getListByName hparse hfound

/-- A check with something to test for has an entry. -/
theorem entriesOf_ne_nil
    {c : Check}
    (hlive : c.type ≠ .invalid)
    (hlist : c.type = .list → c.list ≠ [])
    (hextra : c.type = .monitor → c.extraCheck = true → c.extraHeader ≠ []) :
    entriesOf c ≠ [] := by
  rw [entriesOf.eq_def]
  split
  · simp
  · simp
  · rename_i htype
    simpa using hlist htype
  · rename_i htype
    split
    · rename_i hcheck
      simpa using hextra htype hcheck
    · simp
  · rename_i htype
    exact absurd htype hlive

theorem entriesOf_unplaced_ne_nil
    (c : Check) :
    entriesOf (unplaced c) ≠ [] ↔ entriesOf c ≠ [] := by
  cases ht : c.type with
  | monitor =>
      cases he : c.extraCheck <;> simp [entriesOf, unplaced, ht, he]
  | _ =>
      simp [entriesOf, unplaced, ht]

namespace OptimizedFrom

variable {checks : List Check} {hs : List String} {optimized : List Check}

/-- The values of a merged check are those of the checks that went into it. -/
theorem items_subset
    (hfrom : OptimizedFrom checks hs optimized)
    (hsrc : SourceChecks checks)
    {own : Check}
    (hown : own ∈ checks)
    (haway : mergedAway checks hs own = true) :
    ∀ n, n ∈ checkItems own → n ∈ itemsOn checks own.header := by
  obtain ⟨hh, hm, hkind⟩ := mergedAway_iff.mp haway
  have htext : ∀ c, c ∈ (groupOf checks own.header).filter isMergeable →
      c.type = .exact → c.predHi = c.predLo := by
    intro c hc hexact
    exact (hsrc.plain (mem_mergeables.mp hc).1 (by simp [hexact])).exactText hexact
  intro n hn
  rw [mem_gatherItems (fun c hc => (mem_mergeables.mp hc).2.2) htext (hfrom.items _ hh hm)]
  exact ⟨own, mem_mergeables.mpr ⟨hown, rfl, hkind⟩, hn⟩

/-- A check that was merged on its header is carried by the new check. -/
theorem carried_merged
    (hfrom : OptimizedFrom checks hs optimized)
    (hsrc : SourceChecks checks)
    (hlists : ∀ c, c ∈ checks → c.type = .list → c.list ≠ [])
    {own : Check}
    (hown : own ∈ checks)
    (haway : mergedAway checks hs own = true) :
    ∃ c, c ∈ optimized ∧ c.header = own.header ∧ CarriedBy own c ∧ entriesOf c ≠ [] := by
  obtain ⟨hh, hm, hkind⟩ := mergedAway_iff.mp haway
  have hsub := hfrom.items_subset hsrc hown haway
  have hitem : ∃ n, n ∈ checkItems own := by
    rcases isMergeable_iff.mp hkind with hexact | hlist
    · obtain ⟨n, hn⟩ := (groupItems_ok_iff checks hs).mp hfrom.items own hown haway hexact
      have hread := stoi_readInt hn
      rw [← (hsrc.plain hown (by simp [hexact])).exactText hexact] at hread
      exact ⟨n, by simp [checkItems, hexact, hread]⟩
    · obtain ⟨n, hn⟩ := List.exists_mem_of_ne_nil _ (hlists own hown hlist)
      exact ⟨n, by simpa [checkItems, hlist] using hn⟩
  refine ⟨mergedOn checks own.header,
    hfrom.mem_of_merged (mem_mergedChecks.mpr ⟨own.header, hh, hm, rfl⟩), (leader_mem hm).2,
    Or.inr (Or.inl ⟨hkind, rfl, hsub⟩), ?_⟩
  obtain ⟨n, hn⟩ := hitem
  have hlist : (mergedOn checks own.header).type = .list := rfl
  exact entriesOf_ne_nil (by simp [hlist]) (fun _ => List.ne_nil_of_mem (hsub n hn))
    (by simp [hlist])

/-- A check on a monitor is carried by the one it was folded into. -/
theorem carried_monitor
    (hfrom : OptimizedFrom checks hs optimized)
    (hsrc : SourceChecks checks)
    {own : Check}
    (hown : own ∈ checks)
    (htype : own.type = .monitor) :
    ∃ c, c ∈ optimized ∧ c.header = own.header ∧ CarriedBy own c ∧ entriesOf c ≠ [] := by
  have hmem : own ∈ monitorGroup checks own.monName := mem_monitorGroup.mpr ⟨hown, htype, rfl⟩
  cases hgroup : monitorGroup checks own.monName with
  | nil =>
      rw [hgroup] at hmem
      cases hmem
  | cons first rest =>
      obtain ⟨c, hc, hctype, hname, hfold⟩ := hfrom.exists_folded hsrc hgroup
      obtain ⟨hin, hfirst, hfname⟩ := mem_monitorGroup.mp (hgroup ▸ List.mem_cons_self)
      refine ⟨c, hc, hfold.header.trans ?_, Or.inr (Or.inr ⟨htype, hctype, hname, ?_⟩), ?_⟩
      · exact hsrc.watched first hin own hown hfirst htype hfname
      · intro h hh
        rw [hfold.extraHeader]
        exact List.mem_flatMap.mpr ⟨own, hgroup ▸ hmem, hh⟩
      · refine entriesOf_ne_nil (by simp [hctype]) (by simp [hctype]) (fun _ hextra => ?_)
        -- the first check brings at least its own extra header
        rw [hfold.extraCheck] at hextra
        rcases (hsrc.monitor hin hfirst).extra with ⟨hnone, _⟩ | ⟨h, v, _, hkeys, _⟩
        · rw [hnone] at hextra
          cases hextra
        · rw [hfold.extraHeader]
          exact List.ne_nil_of_mem (List.mem_flatMap.mpr
            ⟨first, List.mem_cons_self, by rw [hkeys]; exact List.mem_singleton_self h⟩)

/-- Every check that was filled in is carried to code generation. -/
theorem exists_carrier
    (hfrom : OptimizedFrom checks hs optimized)
    (hsrc : SourceChecks checks)
    (hlists : ∀ c, c ∈ checks → c.type = .list → c.list ≠ [])
    {own : Check}
    (hown : own ∈ checks)
    (hlive : own.type ≠ .invalid) :
    ∃ c, c ∈ optimized ∧ c.header = own.header ∧ CarriedBy own c ∧ entriesOf c ≠ [] := by
  by_cases htype : own.type = .monitor
  · exact hfrom.carried_monitor hsrc hown htype
  · by_cases haway : mergedAway checks hs own = true
    · exact hfrom.carried_merged hsrc hlists hown haway
    · have hkept : own ∈ keptPlain checks hs :=
        mem_keptPlain.mpr ⟨hown, by simp [isPlain, htype, hlive], by simpa using haway⟩
      exact ⟨own, hfrom.mem_of_kept hkept, rfl, Or.inl rfl,
        entriesOf_ne_nil hlive (hlists own hown) (fun h => absurd h htype)⟩

end OptimizedFrom

/-- A check that was never filled in is carried by no check that is. -/
theorem not_carriedBy_of_invalid
    {own c : Check}
    (hown : own.type = .invalid)
    (hc : c.type ≠ .invalid) :
    ¬ CarriedBy own c := by
  rintro (heq | ⟨hkind, _⟩ | ⟨htype, _⟩)
  · exact hc ((fields_of_unplaced_eq heq).1.trans hown)
  · simp [isMergeable, hown] at hkind
  · rw [hown] at htype
    cases htype

/--
For every parsed policy that the compiler accepts, every match expression is
represented at code generation, with its header and an entry, if and only if
none of them is a comparison with `<=` or `>=`.
-/
theorem statements_represented_iff
    {S : UnstableSort Check Check.priority} {policy : List Statement} {prog : Program}
    {code : PolicyCode} {optimized placed : List Check} {rounds : Nat}
    (hparse : parsePolicy policy = .ok prog)
    (hopt : optimizedChecks prog = .ok optimized)
    (halloc : allocateResources (S.sort optimized) = .ok (some (placed, rounds)))
    (hcompile : compileTofino S prog = .ok code) :
    (∀ i me, prog.matchexprV[i]? = some me →
        Represented prog (placed.map nameTable) i me) ↔
      ∀ me, me ∈ prog.matchexprV → OperatorHandled me.body := by
  obtain ⟨tables, hcomp⟩ := compileTofino_compiled_of hcompile hopt halloc
  obtain ⟨checks, _, hchecks, _⟩ := optimizedChecks_eq_ok hopt
  have hsrc := processMatchexprs_source (parsePolicy_wellFormed hparse) hchecks
  have hfrom := optimizedChecks_from hchecks hopt
  have hlists : ∀ c, c ∈ checks → c.type = .list → c.list ≠ [] :=
    fun c hc htype => list_ne_nil_of_parsed hparse hchecks hc htype
  have hlive : ∀ c, c ∈ placed.map nameTable → c.type ≠ .invalid :=
    hcomp.forall_placed (fun _ => Iff.rfl) hfrom.live
  constructor
  · intro hall me hme
    obtain ⟨i, hi⟩ := List.getElem?_of_mem hme
    obtain ⟨check, c, hcheck, hc, hcarried, _⟩ := hall i me hi
    rw [← parseMatch_live_iff hcheck]
    intro hinvalid
    have hown : ({ check with id := i } : Check).type = .invalid := hinvalid
    exact not_carriedBy_of_invalid hown (hlive c hc) hcarried
  · intro hhandled i me hi
    obtain ⟨check, hcheck, hmem⟩ := mem_of_getElem?_matchexprs hchecks hi
    rw [Nat.zero_add] at hmem
    have hfilled : check.type ≠ .invalid :=
      (parseMatch_live_iff hcheck).mpr (hhandled me (List.mem_of_getElem? hi))
    have hplaced := (hcomp.exists_placed_iff
      (P := fun c => c.header = check.header ∧ CarriedBy { check with id := i } c ∧
        entriesOf c ≠ [])
      (fun c => and_congr Iff.rfl (and_congr Iff.rfl (entriesOf_unplaced_ne_nil c)))).mpr
      (hfrom.exists_carrier hsrc hlists hmem hfilled)
    obtain ⟨c, hc, hheader, hcarried, hentries⟩ := hplaced
    refine ⟨check, c, hcheck, hc, hcarried, ?_, hentries⟩
    rw [statementHeader_of_parseMatch hcheck, hheader]

/-- A comparison with the given operator and one that drops a single value. -/
def twoComparisons (op : BinOp) : List Statement :=
  [.ifThenElse (.pred (.varConst "h1" (.op op) 5)) .drop .fwd1,
   .ifThenElse (.pred (.varConst "h2" (.op .eq) 7)) .drop .fwd1]

/-- The theorem on a comparison with `<`. -/
theorem twoComparisons_represented :
    (programOf (twoComparisons .lt)).matchexprV.length = 2 ∧
      ∀ i me, (programOf (twoComparisons .lt)).matchexprV[i]? = some me →
        Represented (programOf (twoComparisons .lt)) ((placedOf (twoComparisons .lt)).map nameTable)
          i me := by
  have h : AcceptedPolicy (twoComparisons .lt) := ⟨by decide +kernel, by decide +kernel⟩
  refine ⟨by decide +kernel, ?_⟩
  refine (statements_represented_iff h.parsed h.optimized h.placed h.compiled).mpr ?_
  decide +kernel

/-- With `<=` the compiler accepts the policy, and no check, table or entry is left of `h1`. -/
theorem twoComparisons_le_lost :
    AcceptedPolicy (twoComparisons .le) ∧
      (placedOf (twoComparisons .le)).map Check.header = ["h2"] ∧
      (codeOf (twoComparisons .le)).tables.map TableDef.reads = [[(.poiseH "h2", .exact)]] ∧
      (codeOf (twoComparisons .le)).entries.map TableEntry.keys = [[("poise_h_h2", "7")]] :=
  ⟨⟨by decide +kernel, by decide +kernel⟩, by decide +kernel⟩

end StatementCoverage

end Poise
