import Mathlib.Tactic
import Poise.ActionAssociation
import Poise.CompilerCorrectness
import Poise.MonitorMerging

/-!
# Poise compiler: policies with one if-statement

A policy whose only if-statement is an if-then-else, with any declarations
around it, is followed through the parser and the compiler to its one table and
the entries of that table.  Three translations are compared with what the
statement says.

* Comparisons: the interval of `<` and `>` contains the constant itself, and the
  interval of `>` ends at 10000.
* List tests: `notin` is translated as `in`.
* Monitors: the actions and the operator of the extra comparison are not read.
-/

namespace Poise

open Foundations

section SingleStatements

/-- Match expressions without Boolean combinations and arithmetic, with what they are parsed to. -/
inductive PlainMatch : MatchSyntax → MatchBody → Prop
  | comparison
      (h : String) (op : BinOp) (c : Int) :
      PlainMatch (.pred (.varConst h (.op op) c))
        (.pred { lhs := h, op := op, rhs := toString c })
  | membership
      (h : String) (op : ListOp) (l : String) :
      PlainMatch (.list { var := h, op := op, listvar := l })
        (.list { listvar := h, listop := op, listbodyvar := l })
  | monitor
      (m : String) :
      PlainMatch (.monitor m) (.monitor m none)
  | monitorAnd
      (m h : String) (op : BinOp) (c : Int) :
      PlainMatch (.monitorAnd m (.varConst h (.op op) c))
        (.monitor m (some { lhs := h, op := op, rhs := toString c }))

/-- The predicate a comparison with a constant leaves. -/
theorem BinaryExpr.act_varConst
    {h : String} {op : BinOp} {c : Int} {s s' : ParserState}
    (hact : (BinaryExpr.varConst h (.op op) c).act s = .ok s') :
    s'.bp = some { lhs := h, op := op, rhs := toString c } := by
  rw [BinaryExpr.act, BinaryOp.act] at hact
  obtain ⟨t, ht, hact⟩ := bind_eq_ok_iff.mp hact
  cases ht
  obtain ⟨bp, hbp, hact⟩ := bind_eq_ok_iff.mp hact
  cases hbp
  obtain ⟨u, _, hact⟩ := bind_eq_ok_iff.mp hact
  cases hact
  rfl

/-- The match expression that is added is the one that is written. -/
theorem PlainMatch.act_adds
    {m : MatchSyntax} {body : MatchBody} {s s' : ParserState}
    (hm : PlainMatch m body)
    (h : m.act s = .ok s') :
    s'.prog.matchexprV = s.prog.matchexprV ++ [{ body := body }] := by
  cases hm with
  | comparison hd op c =>
      obtain ⟨t, ht, h⟩ := bind_eq_ok_iff.mp h
      obtain ⟨hframe, _⟩ := BinaryExpr.act_spec _ ht
      rw [BinaryExpr.act_varConst ht] at h
      cases h
      rw [← hframe.matchexprs]
      rfl
  | membership hd op l =>
      obtain ⟨t, ht, h⟩ := bind_eq_ok_iff.mp h
      obtain ⟨hframe, hlp, _⟩ := ListExprSyntax.act_spec ht
      rw [hlp] at h
      cases h
      rw [← hframe.matchexprs]
      rfl
  | monitor v =>
      obtain ⟨u, _, h⟩ := bind_eq_ok_iff.mp h
      cases h
      rfl
  | monitorAnd v hd op c =>
      obtain ⟨t, ht, h⟩ := bind_eq_ok_iff.mp h
      obtain ⟨hframe, _⟩ := BinaryExpr.act_spec _ ht
      rw [BinaryExpr.act_varConst ht] at h
      obtain ⟨u, _, h⟩ := bind_eq_ok_iff.mp h
      cases h
      rw [← hframe.matchexprs]
      rfl

theorem runStatements_append
    {before after : List Statement} {s s' : ParserState}
    (h : runStatements (before ++ after) s = .ok s') :
    ∃ t, runStatements before s = .ok t ∧ runStatements after t = .ok s' := by
  induction before generalizing s with
  | nil =>
      exact ⟨s, rfl, h⟩
  | cons st before ih =>
      obtain ⟨u, hu, h⟩ := bind_eq_ok_iff.mp h
      obtain ⟨t, ht, h⟩ := ih h
      exact ⟨t, bind_eq_ok_iff.mpr ⟨u, hu, ht⟩, h⟩

/-- Statements without an if add no match expression and no action. -/
theorem runStatements_of_no_branch
    {policy : List Statement} {s s' : ParserState}
    (hnone : policyBranches policy = [])
    (h : runStatements policy s = .ok s') :
    s'.prog.matchexprV = s.prog.matchexprV ∧ s'.actionV = s.actionV := by
  obtain ⟨mes, hmes, hrec⟩ := runStatements_receives h
  rw [hnone] at hrec
  generalize hleft : s'.actionV = left at hrec
  cases hrec
  exact ⟨by rw [hmes, List.append_nil], rfl⟩

/-- A policy with one if-then-else and otherwise no if. -/
structure OneStatement (policy : List Statement) (m : MatchSyntax) (a b : PolicyAction) : Prop where
  split : ∃ before after, policy = before ++ .ifThenElse m a b :: after ∧
    policyBranches before = [] ∧ policyBranches after = []

/-- The program of such a policy has the one match expression with the actions written in it. -/
theorem OneStatement.matchexprV
    {policy : List Statement} {m : MatchSyntax} {a b : PolicyAction} {body : MatchBody}
    {prog : Program}
    (hone : OneStatement policy m a b)
    (hm : PlainMatch m body)
    (hparse : parsePolicy policy = .ok prog) :
    prog.matchexprV =
      [{ body := body, ifAction := some a, elseAction := some b, numActions := 2 }] := by
  obtain ⟨before, after, rfl, hbefore, hafter⟩ := hone.split
  obtain ⟨s, hs, hdone⟩ := bind_eq_ok_iff.mp hparse
  cases hdone
  obtain ⟨t, ht, hs⟩ := runStatements_append hs
  obtain ⟨u, hu, hs⟩ := bind_eq_ok_iff.mp hs
  obtain ⟨hmes, hact⟩ := runStatements_of_no_branch hbefore ht
  obtain ⟨hlast, _⟩ := runStatements_of_no_branch hafter hs
  obtain ⟨w, hw, hu⟩ := bind_eq_ok_iff.mp hu
  have hadd := hm.act_adds hw
  obtain ⟨x, y, rest, hfirst, rfl⟩ := setBranchActions_latest hu hadd
  have hpending : w.actionV = [] := (MatchSyntax.act_adds hw).1.trans hact
  simp only [pushAction, hpending, List.nil_append, List.cons_append, List.cons.injEq] at hfirst
  obtain ⟨rfl, rfl, _⟩ := hfirst
  rw [hlast, hmes]
  rfl

/-- One check is not merged. -/
theorem mergeHeaders_single
    (hs : List String)
    (c : Check) :
    mergeHeaders hs [c] = .ok [c] := by
  induction hs with
  | nil =>
      rfl
  | cons h hs ih =>
      have hone : mergeHeader [c] h = .ok [c] := by
        rw [mergeHeader, if_neg]
        have := List.length_filter_le (fun c : Check => c.header == h) [c]
        simpa using this
      rw [mergeHeaders, hone]
      exact ih

theorem mergeMonitors_single
    (ms : List Monitor)
    {c : Check}
    (hlive : c.type ≠ .invalid) :
    mergeMonitors ms [c] = [c] := by
  have hfold : ms.foldl mergeMonitor [c] = [c] := by
    induction ms with
    | nil =>
        rfl
    | cons m ms ih =>
        have hone : mergeMonitor [c] m = [c] := by
          cases hon : isOnMonitor m.mvar c <;> simp [mergeMonitor, hon]
        rw [List.foldl_cons, hone, ih]
  rw [mergeMonitors, hfold]
  simp [removeInvalidChecks, hlive]

/-- A check as it is placed and named when it is the only one. -/
def onlyCheck (need : Nat) (check : Check) : Check :=
  nameTable { check with id := 0, startStage := 0, stageNum := need, recNum := 0 }

/-- A single check starts the first round. -/
theorem allocateFrom_single
    {c : Check} {placed : List Check} {last : Nat}
    (h : allocateFrom 0 0 [c] = .ok (placed, last)) :
    ∃ need, placed = [{ c with startStage := 0, stageNum := need, recNum := 0 }] := by
  obtain ⟨need, r, s, out, hneed, hplace, hrest, rfl⟩ := allocateFrom_cons h
  have hle : need ≤ stagesPerRec := by
    rw [stagesNeeded.eq_def] at hneed
    split at hneed <;> cases hneed <;> decide
  rw [placeCheck, if_neg (by omega)] at hplace
  cases hplace
  cases hrest
  exact ⟨need, rfl⟩

/-- The check of a single match expression. -/
theorem parseMatch_of_compiled
    {S : UnstableSort Check Check.priority} {prog : Program} {code : PolicyCode} {me : MatchExpr}
    (hone : prog.matchexprV = [me])
    (hcomp : compileTofino S prog = .ok code) :
    ∃ check, parseMatch prog.countHeaders me = .ok check := by
  obtain ⟨optimized, placed, tables, h⟩ := compileTofino_compiled hcomp
  obtain ⟨checks, marked, hchecks, _⟩ := optimizedChecks_eq_ok h.checks
  have hmes : prog.countHeaders.matchexprV = [me] := hone
  rw [processMatchexprs, hmes, processMatchexprsFrom] at hchecks
  obtain ⟨check, hcheck, _⟩ := bind_eq_ok_iff.mp hchecks
  exact ⟨check, hcheck⟩

/-- The code for a single match expression whose check is valid. -/
theorem compileTofino_single
    {S : UnstableSort Check Check.priority} {prog : Program} {code : PolicyCode} {me : MatchExpr}
    {check : Check}
    (hone : prog.matchexprV = [me])
    (hcomp : compileTofino S prog = .ok code)
    (hcheck : parseMatch prog.countHeaders me = .ok check)
    (hlive : check.type ≠ .invalid) :
    ∃ need t,
      tableDefOf (onlyCheck need check) = .ok t ∧
        code.tables = [t] ∧ code.entries = entriesOf (onlyCheck need check) := by
  obtain ⟨optimized, placed, tables, h⟩ := compileTofino_compiled hcomp
  obtain ⟨checks, marked, hchecks, hmarked, rfl⟩ := optimizedChecks_eq_ok h.checks
  have hfirst : checks = [{ check with id := 0 }] := by
    have hmes : prog.countHeaders.matchexprV = [me] := hone
    rw [processMatchexprs, hmes, processMatchexprsFrom, hcheck] at hchecks
    cases hchecks
    rfl
  rw [hfirst, mergeHeaders_single] at hmarked
  cases hmarked
  have hkept : removeInvalidChecks [{ check with id := 0 }] = [{ check with id := 0 }] := by
    simp [removeInvalidChecks, hlive]
  have hwalk := h.walk
  rw [hkept, mergeMonitors_single prog.monitorV (c := { check with id := 0 }) hlive,
    List.perm_singleton.mp (S.perm _)] at hwalk
  obtain ⟨need, rfl⟩ := allocateFrom_single hwalk
  obtain ⟨t, ht, htables⟩ := bind_eq_ok_iff.mp h.tableDefs
  cases htables
  refine ⟨need, t, ht, ?_, ?_⟩
  · rw [h.emitted]
    rfl
  · rw [h.emitted]
    exact List.append_nil _

/-- Applying the only table: the first of its entries that matches. -/
theorem applyTable_single
    {code : PolicyCode} {c : Check} {t : TableDef}
    (ht : tableDefOf c = .ok t)
    (htables : code.tables = [t])
    (hentries : code.entries = entriesOf c)
    (val : Field → Int) :
    applyTable code t.name val =
      ((entriesOf c).find? (fun e => entryMatches t e val)).map TableEntry.actionX := by
  have hname := tableDefOf_name ht
  have hown : ∀ e, e ∈ entriesOf c →
      (e.table == t.name && entryMatches t e val) = entryMatches t e val := by
    intro e he
    rw [entriesOf_table he, hname, beq_self_eq_true, Bool.true_and]
  rw [applyTable, htables, hentries, List.find?_singleton, beq_self_eq_true]
  simp only [if_true]
  rw [List.find?_congr hown]

/-- What a comparison of the grammar says. -/
def BinOp.Holds (v c : Int) : BinOp → Prop
  | .gt => c < v
  | .lt => v < c
  | .le => v ≤ c
  | .ge => c ≤ v
  | .eq => v = c

instance (v c : Int) (op : BinOp) : Decidable (op.Holds v c) :=
  match op with
  | .gt => inferInstanceAs (Decidable (c < v))
  | .lt => inferInstanceAs (Decidable (v < c))
  | .le => inferInstanceAs (Decidable (v ≤ c))
  | .ge => inferInstanceAs (Decidable (c ≤ v))
  | .eq => inferInstanceAs (Decidable (v = c))

/-- The comparisons whose entry agrees with them on a given value. -/
def ComparesExactly (v c : Int) : BinOp → Prop
  | .lt => v ≠ c
  | .gt => (v = c → 10000 < c) ∧ (c < v → v ≤ 10000)
  | _ => True

/-- An exact comparison has one entry, which matches its value. -/
theorem exists_exactEntry
    {c : Check} {t : TableDef}
    (htype : c.type = .exact)
    (ht : tableDefOf c = .ok t)
    {n : Int}
    (hn : readInt c.predHi = some n) :
    ∃ e, entriesOf c = [e] ∧
      ∀ hdr active,
        entryMatches t e (fieldVal hdr active) = true ↔ ((hdr c.header).toNat : Int) = n := by
  simp only [tableDefOf, htype, Except.ok.injEq] at ht
  subst ht
  simp only [entriesOf, htype]
  refine ⟨_, rfl, fun hdr active => ?_⟩
  rw [entryMatches_poiseH, hn, beq_iff_eq, Option.some_inj]
  exact eq_comm

/-- An interval has one entry; both ends belong to it. -/
theorem exists_rangeEntry
    {c : Check} {t : TableDef}
    (htype : c.type = .range)
    (ht : tableDefOf c = .ok t)
    {lo hi : Int}
    (hlo : readInt c.predLo = some lo)
    (hhi : readInt c.predHi = some hi) :
    ∃ e, entriesOf c = [e] ∧
      ∀ hdr active,
        entryMatches t e (fieldVal hdr active) = true ↔
          lo ≤ ((hdr c.header).toNat : Int) ∧ ((hdr c.header).toNat : Int) ≤ hi := by
  simp only [tableDefOf, htype, Except.ok.injEq] at ht
  subst ht
  simp only [entriesOf, htype]
  refine ⟨_, rfl, fun hdr active => ?_⟩
  have hne : (Field.poiseH c.header).key ++ "_end" ≠ (Field.poiseH c.header).key ++ "_start" := by
    intro h
    exact absurd ((String.append_right_inj _).mp h) (by decide)
  simp only [entryMatches, List.all_cons, List.all_nil, Bool.and_true, keyMatches,
    List.lookup_cons, beq_self_eq_true, beq_false_of_ne hne, hlo, hhi, fieldVal]
  exact decide_eq_true_iff

/-- Where the entry of a comparison agrees with the comparison. -/
theorem comparison_entry_iff
    {a b : PolicyAction} {h : String} {op : BinOp} {n : Int} {need : Nat} {check : Check}
    {t : TableDef}
    (hcheck : check = fillComparison { lhs := h, op := op, rhs := toString n }
      { ifActionVal := actionToVal a
        elseActionVal := actionToVal b
        priority := actionToVal a
        header := h })
    (hop : op = .eq ∨ op = .lt ∨ op = .gt)
    (ht : tableDefOf (onlyCheck need check) = .ok t) :
    ∃ e, entriesOf (onlyCheck need check) = [e] ∧
      ∀ hdr active,
        (entryMatches t e (fieldVal hdr active) = true ↔ op.Holds (hdr h).toNat n) ↔
          ComparesExactly (hdr h).toNat n op := by
  have hread : readInt (toString n) = some n := readInt_intRepr n
  have hlow : readInt defaultLow = some 0 := by decide
  have hhigh : readInt defaultHigh = some 10000 := by decide
  subst hcheck
  rcases hop with rfl | rfl | rfl
  · obtain ⟨e, he, hmatch⟩ := exists_exactEntry rfl ht hread
    refine ⟨e, he, fun hdr active => ?_⟩
    rw [hmatch]
    exact iff_of_true Iff.rfl trivial
  · obtain ⟨e, he, hmatch⟩ := exists_rangeEntry rfl ht hlow hread
    refine ⟨e, he, fun hdr active => ?_⟩
    rw [hmatch, BinOp.Holds, ComparesExactly]
    change (_ ≤ ((hdr h).toNat : Int) ∧ ((hdr h).toNat : Int) ≤ n ↔ _) ↔ _
    omega
  · obtain ⟨e, he, hmatch⟩ := exists_rangeEntry rfl ht hread hhigh
    refine ⟨e, he, fun hdr active => ?_⟩
    rw [hmatch, BinOp.Holds, ComparesExactly]
    change (n ≤ ((hdr h).toNat : Int) ∧ ((hdr h).toNat : Int) ≤ 10000 ↔ _) ↔ _
    omega

/--
The one entry of `if match (h op n) then a else fwd1`, for every operator among
`==`, `<` and `>` and every constant: it matches exactly the values for which
the comparison holds, except for the constant itself under `<` and `>` and for
values above 10000 under `>`.
-/
theorem comparison_matches_iff
    {S : UnstableSort Check Check.priority} {policy : List Statement} {prog : Program}
    {code : PolicyCode} {h : String} {op : BinOp} {n : Int} {a : PolicyAction}
    (hone : OneStatement policy (.pred (.varConst h (.op op) n)) a .fwd1)
    (hop : op = .eq ∨ op = .lt ∨ op = .gt)
    (hparse : parsePolicy policy = .ok prog)
    (hcomp : compileTofino S prog = .ok code) :
    ∃ t e, code.tables = [t] ∧ code.entries = [e] ∧
      ∀ hdr active,
        (entryMatches t e (fieldVal hdr active) = true ↔ op.Holds (hdr h).toNat n) ↔
          ComparesExactly (hdr h).toNat n op := by
  have hmes := hone.matchexprV (.comparison h op n) hparse
  obtain ⟨check, hcheck⟩ := parseMatch_of_compiled hmes hcomp
  obtain ⟨x, y, _, _, heq⟩ := parseMatchPred_eq hcheck
  have hlive : check.type ≠ .invalid := by
    rw [heq]
    rcases hop with rfl | rfl | rfl <;> simp [fillComparison]
  obtain ⟨need, t, ht, htables, hentries⟩ := compileTofino_single hmes hcomp hcheck hlive
  obtain ⟨e, he, hall⟩ := comparison_entry_iff heq hop ht
  exact ⟨t, e, htables, hentries.trans he, hall⟩

/-- A policy that is one comparison. -/
def comparisonPolicy (op : BinOp) (n : Int) : List Statement :=
  [.ifThenElse (.pred (.varConst "h1" (.op op) n)) .drop .fwd1]

/-- The theorem on the first statement of the policy on working hours. -/
theorem comparison_matches_workingHours :
    ∃ t e, (codeOf (comparisonPolicy .lt 9)).tables = [t] ∧
      (codeOf (comparisonPolicy .lt 9)).entries = [e] ∧
        ∀ hdr active,
          (entryMatches t e (fieldVal hdr active) = true ↔ BinOp.lt.Holds (hdr "h1").toNat 9) ↔
            ComparesExactly (hdr "h1").toNat 9 .lt := by
  have h : AcceptedPolicy (comparisonPolicy .lt 9) := ⟨by decide +kernel, by decide +kernel⟩
  exact comparison_matches_iff ⟨[], [], rfl, rfl, rfl⟩ (Or.inr (Or.inl rfl)) h.parsed h.compiled

/-- The results of all entries of a policy in all its tables, on a packet with equal headers. -/
def matchesAt (policy : List Statement) (v : BitVec 16) : List (List Bool) :=
  (codeOf policy).entries.map (fun e =>
    (codeOf policy).tables.map (fun t => entryMatches t e (fieldVal (fun _ => v) (fun _ => 0))))

/--
The entry of `h1 < 9` matches 9, the entry of `h1 > 17` matches 17, and it does
not match 20000.
-/
theorem comparison_boundaries_differ :
    AcceptedPolicy (comparisonPolicy .lt 9) ∧ AcceptedPolicy (comparisonPolicy .gt 17) ∧
      matchesAt (comparisonPolicy .lt 9) 9 = [[true]] ∧ ¬ BinOp.lt.Holds 9 9 ∧
      matchesAt (comparisonPolicy .gt 17) 17 = [[true]] ∧ ¬ BinOp.gt.Holds 17 17 ∧
      matchesAt (comparisonPolicy .gt 17) 20000 = [[false]] ∧ BinOp.gt.Holds 20000 17 :=
  ⟨⟨by decide +kernel, by decide +kernel⟩, ⟨by decide +kernel, by decide +kernel⟩,
    by decide +kernel⟩

/-- What a list test says. -/
def ListOp.Holds (v : Int) (items : List Int) : ListOp → Prop
  | .isIn => v ∈ items
  | .notIn => v ∉ items

instance (v : Int) (items : List Int) (op : ListOp) : Decidable (op.Holds v items) :=
  match op with
  | .isIn => inferInstanceAs (Decidable (v ∈ items))
  | .notIn => inferInstanceAs (Decidable (v ∉ items))

/--
The table of `if match (h in l) then a else fwd1` and of the same statement with
`notin`: on every value it writes the action exactly when the test holds, if and
only if the operator is `in`.  The name stands for the last list declared under it.
-/
theorem list_polarity_iff
    {S : UnstableSort Check Check.priority} {policy : List Statement} {prog : Program}
    {code : PolicyCode} {h l : String} {op : ListOp} {a : PolicyAction}
    (hone : OneStatement policy (.list { var := h, op := op, listvar := l }) a .fwd1)
    (hparse : parsePolicy policy = .ok prog)
    (hcomp : compileTofino S prog = .ok code) :
    ∃ t items, code.tables = [t] ∧ (declaredLists policy).reverse.lookup l = some items ∧
      ∀ hdr active,
        (applyTable code t.name (fieldVal hdr active) = some (actionToVal a) ↔
            op.Holds (hdr h).toNat items) ↔
          op = .isIn := by
  have hmes := hone.matchexprV (.membership h op l) hparse
  obtain ⟨check, hcheck⟩ := parseMatch_of_compiled hmes hcomp
  obtain ⟨x, y, items, hx, _, hitems, heq⟩ := parseMatchList_eq hcheck
  cases hx
  have hdeclared : (declaredLists policy).reverse.lookup l = some items := by
    rw [← parsePolicy_listV hparse]
    exact hitems
  have hlive : check.type ≠ .invalid := by
    rw [heq]
    simp
  obtain ⟨need, t, ht, htables, hentries⟩ := compileTofino_single hmes hcomp hcheck hlive
  refine ⟨t, items, htables, hdeclared, fun hdr active => ?_⟩
  have hform : MembershipCheck (onlyCheck need check) := by
    subst heq
    exact ⟨Or.inr rfl, rfl, actionToVal_bounds a, actionToVal_bounds y⟩
  rw [applyTable_single ht htables hentries, find?_entriesOf hform ht]
  have hfires : checkFires hdr (onlyCheck need check) =
      decide (((hdr h).toNat : Int) ∈ items) := by
    rw [heq]
    rfl
  have hval : (onlyCheck need check).ifActionVal = actionToVal a := by
    rw [heq]
    rfl
  rw [hfires, hval]
  by_cases hin : ((hdr h).toNat : Int) ∈ items
  · cases op <;> simp [hin, ListOp.Holds]
  · cases op <;> simp [hin, ListOp.Holds]

/-- A policy that is one list test. -/
def listTestPolicy (op : ListOp) : List Statement :=
  [.defList "list1" 1 [2],
   .ifThenElse (.list { var := "h1", op := op, listvar := "list1" }) .drop .fwd1]

/-- The theorem on a test for membership. -/
theorem list_polarity_isIn :
    ∃ t items, (codeOf (listTestPolicy .isIn)).tables = [t] ∧
      (declaredLists (listTestPolicy .isIn)).reverse.lookup "list1" = some items ∧
        ∀ hdr active,
          (applyTable (codeOf (listTestPolicy .isIn)) t.name (fieldVal hdr active) =
                some (actionToVal .drop) ↔
              ListOp.isIn.Holds (hdr "h1").toNat items) ↔
            ListOp.isIn = ListOp.isIn := by
  have h : AcceptedPolicy (listTestPolicy .isIn) := ⟨by decide +kernel, by decide +kernel⟩
  exact list_polarity_iff ⟨[.defList "list1" 1 [2]], [], rfl, rfl, rfl⟩ h.parsed h.compiled

/-- The value 1 is in the list, and the statement with `notin` drops it; 5 is not, and passes. -/
theorem list_polarity_notIn_lost :
    AcceptedPolicy (listTestPolicy .notIn) ∧
      (declaredLists (listTestPolicy .notIn)).reverse.lookup "list1" = some [1, 2] ∧
      (codeOf (listTestPolicy .notIn)).tables.map (fun t =>
          applyTable (codeOf (listTestPolicy .notIn)) t.name
            (fieldVal (fun _ => 1) (fun _ => 0))) = [some dropActionVal] ∧
      ¬ ListOp.notIn.Holds 1 [1, 2] ∧
      (codeOf (listTestPolicy .notIn)).tables.map (fun t =>
          applyTable (codeOf (listTestPolicy .notIn)) t.name
            (fieldVal (fun _ => 5) (fun _ => 0))) = [none] ∧
      ListOp.notIn.Holds 5 [1, 2] :=
  ⟨⟨by decide +kernel, by decide +kernel⟩, by decide +kernel⟩

/-- A match on a monitor, with or without a comparison of a header with a constant. -/
def monitorMatch (m : String) : Option (String × BinOp × Int) → MatchSyntax
  | none => .monitor m
  | some (h, op, n) => .monitorAnd m (.varConst h (.op op) n)

/-- The comparison of the statement holds, or there is none. -/
def ExtraHolds (hdr : PoiseH) : Option (String × BinOp × Int) → Prop
  | none => True
  | some (h, op, n) => op.Holds (hdr h).toNat n

/-- The header of the comparison is equal to the constant, or there is none. -/
def ExtraEqual (hdr : PoiseH) : Option (String × BinOp × Int) → Prop
  | none => True
  | some (h, _, n) => ((hdr h).toNat : Int) = n

/-- A decision is that of an action; zero stands for the normal one. -/
def StandsFor (d : Nat) (a : PolicyAction) : Prop :=
  d = actionToVal a ∨ (d = 0 ∧ a = .fwd1)

instance (d : Nat) (a : PolicyAction) : Decidable (StandsFor d a) :=
  inferInstanceAs (Decidable (_ ∨ _))

/-- What the statement says the decision is: that of `a` when the match holds, of `b` otherwise. -/
def FollowsBranches (matched : Prop) (a b : PolicyAction) (d : Nat) : Prop :=
  (matched → StandsFor d a) ∧ (¬ matched → StandsFor d b)

/-- The statements and packets on which the fixed translation agrees with the statement. -/
structure FixedActionsAgree
    (inactive equal holds : Prop) (a b : PolicyAction) : Prop where
  dropped : inactive → equal → b = .drop
  unequal : inactive → ¬ equal → b = .fwd1
  active : ¬ inactive → holds → a = .fwd1
  failed : ¬ inactive → ¬ holds → b = .fwd1

theorem standsFor_drop_iff
    (a : PolicyAction) :
    StandsFor dropActionVal a ↔ a = .drop := by
  cases a <;> decide

theorem standsFor_zero_iff
    (a : PolicyAction) :
    StandsFor 0 a ↔ a = .fwd1 := by
  cases a <;> decide

/-- The fixed actions of a check that fires when its monitor is inactive and the header equal. -/
theorem followsBranches_fixed_iff
    {fires inactive equal holds : Prop} [Decidable fires] {a b : PolicyAction}
    (hfires : fires ↔ inactive ∧ equal) :
    FollowsBranches (¬ inactive ∧ holds) a b (if fires then dropActionVal else 0) ↔
      FixedActionsAgree inactive equal holds a b := by
  by_cases hinactive : inactive
  · have hunmatched : ¬ (¬ inactive ∧ holds) := fun h => h.1 hinactive
    by_cases hequal : equal
    · rw [if_pos (hfires.mpr ⟨hinactive, hequal⟩), FollowsBranches, standsFor_drop_iff,
        standsFor_drop_iff]
      constructor
      · rintro ⟨_, hb⟩
        exact ⟨fun _ _ => hb hunmatched, fun _ h => absurd hequal h, fun h => absurd hinactive h,
          fun h => absurd hinactive h⟩
      · intro h
        exact ⟨fun hm => absurd hm hunmatched, fun _ => h.dropped hinactive hequal⟩
    · rw [if_neg (fun h => hequal (hfires.mp h).2), FollowsBranches, standsFor_zero_iff,
        standsFor_zero_iff]
      constructor
      · rintro ⟨_, hb⟩
        exact ⟨fun _ h => absurd h hequal, fun _ _ => hb hunmatched, fun h => absurd hinactive h,
          fun h => absurd hinactive h⟩
      · intro h
        exact ⟨fun hm => absurd hm hunmatched, fun _ => h.unequal hinactive hequal⟩
  · rw [if_neg (fun h => hinactive (hfires.mp h).1), FollowsBranches, standsFor_zero_iff,
      standsFor_zero_iff]
    constructor
    · rintro ⟨ha, hb⟩
      exact ⟨fun h => absurd h hinactive, fun h => absurd h hinactive,
        fun _ hholds => ha ⟨hinactive, hholds⟩, fun _ hfails => hb (fun hm => hfails hm.2)⟩
    · intro h
      exact ⟨fun hm => h.active hinactive hm.2,
        fun hnot => h.failed hinactive (fun hholds => hnot ⟨hinactive, hholds⟩)⟩

/-- Every entry of a monitor check writes the second value of the check. -/
theorem actionX_of_monitor
    {c : Check} {e : TableEntry}
    (htype : c.type = .monitor)
    (he : e ∈ entriesOf c) :
    e.actionX = c.elseActionVal := by
  simp only [entriesOf, htype] at he
  split at he
  · obtain ⟨h, _, rfl⟩ := List.mem_map.mp he
    rfl
  · rw [List.mem_singleton.mp he]

/-- The table of a single monitor check writes the drop action when the check fires. -/
theorem applyTable_monitor
    {code : PolicyCode} {c : Check} {t : TableDef}
    (hname : isMonitorName c.monName = true)
    (htype : c.type = .monitor)
    (hval : c.elseActionVal = dropActionVal)
    (ht : tableDefOf c = .ok t)
    (htables : code.tables = [t])
    (hentries : code.entries = entriesOf c)
    (hdr : PoiseH) (active : String → BitVec 16) :
    (applyTable code t.name (fieldVal hdr active)).getD 0 =
      if monitorFires hdr active c then dropActionVal else 0 := by
  rw [applyTable_single ht htables hentries]
  have hfires := monitorFires_iff_entryMatches hname htype ht hdr active
  cases hfind : (entriesOf c).find? (fun e => entryMatches t e (fieldVal hdr active)) with
  | none =>
      have hnone := List.find?_eq_none.mp hfind
      have hnot : ¬ monitorFires hdr active c := by
        rw [hfires]
        rintro ⟨e, he, hmatch⟩
        exact hnone e he hmatch
      rw [if_neg hnot]
      rfl
  | some e =>
      have he := List.mem_of_find?_eq_some hfind
      have hmatch : entryMatches t e (fieldVal hdr active) = true := by
        simpa using List.find?_some hfind
      rw [if_pos (hfires.mpr ⟨e, he, hmatch⟩), ← hval, ← actionX_of_monitor htype he]
      rfl

theorem PlainMatch.ofMonitorMatch
    (m : String)
    (extra : Option (String × BinOp × Int)) :
    PlainMatch (monitorMatch m extra)
      (.monitor m (extra.map (fun x => { lhs := x.1, op := x.2.1, rhs := toString x.2.2 }))) := by
  cases extra with
  | none =>
      exact .monitor m
  | some x =>
      exact .monitorAnd m x.1 x.2.1 x.2.2

/-- When the check of a monitor statement fires. -/
theorem monitorFires_onlyCheck
    {prog : Program} {m : String} {extra : Option (String × BinOp × Int)} {check : Check}
    (hcheck : parseMatchMon prog m
      (extra.map (fun x => { lhs := x.1, op := x.2.1, rhs := toString x.2.2 })) {} = .ok check)
    (need : Nat)
    (hdr : PoiseH) (active : String → BitVec 16) :
    monitorFires hdr active (onlyCheck need check) ↔ active m = 0 ∧ ExtraEqual hdr extra := by
  obtain ⟨_, hmon, hname, _, _, _, hmap⟩ := parseMatchMon_spec hcheck
  have hfields : monitorFires hdr active (onlyCheck need check) ↔
      monitorFires hdr active check := Iff.rfl
  rw [hfields, monitorFires, hname]
  rcases hmon.extra with ⟨hextra, _, hnil⟩ | ⟨k, v, hextra, hkeys, hpair⟩
  · cases extra with
    | none =>
        simp [hextra, ExtraEqual]
    | some x =>
        rw [hnil] at hmap
        cases hmap
  · cases extra with
    | none =>
        rw [hpair] at hmap
        cases hmap
    | some x =>
        obtain ⟨h, op, n⟩ := x
        rw [hpair] at hmap
        cases hmap
        have hread : readInt (toString n) = some n := readInt_intRepr n
        have hcond : conditionHolds hdr (h, toString n) ↔ ((hdr h).toNat : Int) = n := by
          rw [conditionHolds, hread, Option.some_inj]
          exact eq_comm
        have hemitted : emittedConditions check = [(h, toString n)] := by
          simp [emittedConditions, hkeys, hpair, mapGet]
        rw [hemitted]
        simp only [hextra, List.mem_singleton, exists_eq_left, true_implies, hcond, ExtraEqual]

/--
The decision of `if match (m) then a else b` and `if match (m and h op n) then a
else b`, for all actions, operators and constants and on every packet: it is the
one the statement asks for if and only if the statement asks for the fixed
actions of monitor checks.
-/
theorem monitorStatement_decision_iff
    {S : UnstableSort Check Check.priority} {policy : List Statement} {prog : Program}
    {code : PolicyCode} {m : String} {extra : Option (String × BinOp × Int)}
    {a b : PolicyAction}
    (hone : OneStatement policy (monitorMatch m extra) a b)
    (hparse : parsePolicy policy = .ok prog)
    (hcomp : compileTofino S prog = .ok code) :
    ∃ t, code.tables = [t] ∧
      ∀ hdr active,
        FollowsBranches (active m ≠ 0 ∧ ExtraHolds hdr extra) a b
            ((applyTable code t.name (fieldVal hdr active)).getD 0) ↔
          FixedActionsAgree (active m = 0) (ExtraEqual hdr extra) (ExtraHolds hdr extra) a b := by
  have hmes := hone.matchexprV (PlainMatch.ofMonitorMatch m extra) hparse
  obtain ⟨check, hcheck⟩ := parseMatch_of_compiled hmes hcomp
  obtain ⟨htype, hmon, hname, _⟩ := parseMatchMon_spec hcheck
  obtain ⟨need, t, ht, htables, hentries⟩ :=
    compileTofino_single hmes hcomp hcheck (by simp [htype])
  have hmonitor : isMonitorName check.monName = true := by
    have hwf := (parsePolicy_wellFormed hparse).bodies _ (hmes ▸ List.mem_singleton_self _)
    rw [hname]
    exact hwf.1
  refine ⟨t, htables, fun hdr active => ?_⟩
  rw [applyTable_monitor (c := onlyCheck need check) hmonitor htype hmon.elseVal ht htables
    hentries]
  have hfires := monitorFires_onlyCheck hcheck need hdr active
  exact followsBranches_fixed_iff hfires

/-- A policy that is one match on a monitor. -/
def monitorTestPolicy (extra : Option (String × BinOp × Int)) (a b : PolicyAction) :
    List Statement :=
  [.defList "list1" 1 [2],
   .monitor "m0" { var := "h1", op := .isIn, listvar := "list1" },
   .ifThenElse (monitorMatch "m0" extra) a b]

/-- The theorem on the statement `if match (m0) then fwd1 else drop`. -/
theorem monitorStatement_forward_drop :
    ∃ t, (codeOf (monitorTestPolicy none .fwd1 .drop)).tables = [t] ∧
      ∀ hdr active,
        FollowsBranches (active "m0" ≠ 0 ∧ ExtraHolds hdr none) .fwd1 .drop
            ((applyTable (codeOf (monitorTestPolicy none .fwd1 .drop)) t.name
              (fieldVal hdr active)).getD 0) ↔
          FixedActionsAgree (active "m0" = 0) (ExtraEqual hdr none) (ExtraHolds hdr none)
            .fwd1 .drop := by
  have h : AcceptedPolicy (monitorTestPolicy none .fwd1 .drop) :=
    ⟨by decide +kernel, by decide +kernel⟩
  exact monitorStatement_decision_iff
    ⟨[.defList "list1" 1 [2], .monitor "m0" { var := "h1", op := .isIn, listvar := "list1" }], [],
      rfl, rfl, rfl⟩ h.parsed h.compiled

/--
With `if match (m0 and h2 > 5) then fwd1 else drop`, an active monitor and `h2`
equal to 3, nothing is written although the packet is to be dropped.
-/
theorem monitorStatement_not_dropped :
    AcceptedPolicy (monitorTestPolicy (some ("h2", .gt, 5)) .fwd1 .drop) ∧
      (codeOf (monitorTestPolicy (some ("h2", .gt, 5)) .fwd1 .drop)).tables.map (fun t =>
          applyTable (codeOf (monitorTestPolicy (some ("h2", .gt, 5)) .fwd1 .drop)) t.name
            (fieldVal (fun _ => 3) (fun _ => 1))) = [none] ∧
      ¬ BinOp.gt.Holds 3 5 ∧ ¬ StandsFor 0 .drop :=
  ⟨⟨by decide +kernel, by decide +kernel⟩, by decide +kernel⟩

end SingleStatements

end Poise
