import Poise.PolicyAst

/-!
# Poise compiler: from match expressions to checks

Each match expression becomes one sequential check.  This module embeds the
class `Check` with its default values and the three functions that fill a check
in, `parse_match_mon`, `parse_match_list` and `parse_match_pred`, together with
the loop over all match expressions.

An operator that no branch of `parse_match_pred` handles leaves the check with
the invalid type, as in the source.  One lemma for each of the three functions
says what the check looks like when it leaves it.
-/

namespace Poise

section CheckGeneration

/-- Check types. -/
inductive CheckType where
  | invalid
  | exact
  | range
  | list
  | monitor
deriving DecidableEq, Repr

/-- One sequential check; the resource and name fields are filled in later. -/
structure Check where
  startStage : Nat := 0
  stageNum : Nat := 0
  recNum : Nat := 0
  type : CheckType := .invalid
  id : Nat := 0
  ifActionVal : Nat := 0
  elseActionVal : Nat := 0
  priority : Nat := 0
  tableSize : Nat := 2
  fieldLen : Nat := 16
  header : String := ""
  predHi : String := ""
  predLo : String := ""
  list : List Int := []
  monName : String := ""
  extraCheck : Bool := false
  extraHeader : List String := []
  hToVal : List (String × String) := []
  timeoutVal : Nat := 100000
  tableName : String := ""
deriving DecidableEq, Repr

/-- Assignment to a key of a map. -/
def mapInsert (m : List (String × String)) (k v : String) : List (String × String) :=
  (k, v) :: m.filter (fun e => e.1 ≠ k)

/-- Lookup in a map; an absent key is created with the empty string. -/
def mapGet (m : List (String × String)) (k : String) : String :=
  (m.lookup k).getD ""

/-- Reading a map after an assignment. -/
theorem mapGet_mapInsert
    (m : List (String × String))
    (k v x : String) :
    mapGet (mapInsert m k v) x = if x = k then v else mapGet m x := by
  unfold mapGet mapInsert
  by_cases hx : x = k
  · subst hx
    simp
  · have hfilter : (m.filter (fun e => e.1 ≠ k)).lookup x = m.lookup x := by
      induction m with
      | nil =>
          rfl
      | cons e m ih =>
          obtain ⟨a, b⟩ := e
          by_cases ha : a = k
          · subst ha
            rw [List.filter_cons_of_neg (by simp), ih, List.lookup_cons, beq_false_of_ne hx]
          · rw [List.filter_cons_of_pos (by simpa using ha), List.lookup_cons, List.lookup_cons, ih]
    rw [if_neg hx, List.lookup_cons, beq_false_of_ne hx, ← hfilter]

/-- Reading a map after a series of assignments. -/
theorem mapGet_foldl_mapInsert
    (f : String → String)
    (hs : List String)
    (m : List (String × String))
    (x : String) :
    mapGet (hs.foldl (fun m h => mapInsert m h (f h)) m) x =
      if x ∈ hs then f x else mapGet m x := by
  induction hs generalizing m with
  | nil =>
      simp
  | cons h hs ih =>
      rw [List.foldl_cons, ih, mapGet_mapInsert]
      by_cases hx : x = h
      · subst hx
        simp
      · simp [hx]

def defaultLow : String := "0"

def defaultHigh : String := "10000"

/-- A monitor check: the actions are fixed and the priority is the highest. -/
def parseMatchMon
    (prog : Program) (mvar : String) (bp : Option BinaryPred) (check : Check) :
    Except Failure Check :=
  match prog.getMonByName mvar with
  | none => .error .nullPointer
  | some mon =>
      let check := { check with
        ifActionVal := normalActionVal
        elseActionVal := dropActionVal
        priority := dropActionVal
        type := .monitor
        header := mon.lp.listvar
        monName := mvar }
      match bp with
      | some bp =>
          .ok { check with
            extraCheck := true
            extraHeader := check.extraHeader ++ [bp.lhs]
            hToVal := mapInsert check.hToVal bp.lhs bp.rhs }
      | none =>
          .ok { check with extraCheck := false }

/-- Action values and priority shared by list and comparison checks. -/
def fillActions (me : MatchExpr) (check : Check) : Except Failure Check := do
  let ifAction ← me.getIfAction
  let elseAction ← me.getElseAction
  .ok { check with
    ifActionVal := actionToVal ifAction
    elseActionVal := actionToVal elseAction
    priority := actionToVal ifAction }

/-- The actions a check may have: the else action forwards normally, the if action differs. -/
def actionsMeetRequirements (check : Check) : Bool :=
  !(check.elseActionVal != normalActionVal || check.ifActionVal == check.elseActionVal)

/-- A membership check; the operator of the list predicate is not read. -/
def parseMatchList
    (prog : Program) (me : MatchExpr) (lp : ListPred) (check : Check) :
    Except Failure Check :=
  if me.getIfthenelse then
    match prog.getListByName lp.listbodyvar with
    | none => .error .nullPointer
    | some items => do
        let check ← fillActions me
          { check with header := lp.listvar, list := items, type := .list }
        if actionsMeetRequirements check then
          .ok { check with tableSize := check.list.length }
        else
          .error .assertion
  else
    .error .assertion

/-- The match values of a comparison. -/
def fillComparison (bp : BinaryPred) (check : Check) : Check :=
  match bp.op with
  | .eq => { check with type := .exact, predHi := bp.rhs, predLo := bp.rhs }
  | .lt => { check with type := .range, predLo := defaultLow, predHi := bp.rhs }
  | .gt => { check with type := .range, predHi := defaultHigh, predLo := bp.rhs }
  | _ => check

/-- A comparison check. -/
def parseMatchPred
    (me : MatchExpr) (bp : BinaryPred) (check : Check) : Except Failure Check :=
  if me.getIfthenelse then do
    let check ← fillActions me check
    if actionsMeetRequirements check then
      .ok (fillComparison bp { check with header := bp.lhs })
    else
      .error .assertion
  else
    .error .assertion

/-- The check of one match expression. -/
def parseMatch (prog : Program) (me : MatchExpr) : Except Failure Check :=
  match me.body with
  | .monitor mvar bp => parseMatchMon prog mvar bp {}
  | .pred bp => parseMatchPred me bp {}
  | .list lp => parseMatchList prog me lp {}

/-- The loop over the match expressions, numbering the checks from `i`. -/
def processMatchexprsFrom (prog : Program) : Nat → List MatchExpr → Except Failure (List Check)
  | _, [] => .ok []
  | i, me :: rest => do
      let check ← parseMatch prog me
      let checks ← processMatchexprsFrom prog (i + 1) rest
      .ok ({ check with id := i } :: checks)

def processMatchexprs (prog : Program) : Except Failure (List Check) :=
  processMatchexprsFrom prog 0 prog.matchexprV

/-- Of an accepted pair the written value is its own priority and not the normal one. -/
theorem fillActions_spec
    {me : MatchExpr} {check check' : Check}
    (h : fillActions me check = .ok check') :
    ∃ a b,
      me.ifAction = some a ∧
      me.elseAction = some b ∧
      check' = { check with
        ifActionVal := actionToVal a
        elseActionVal := actionToVal b
        priority := actionToVal a } := by
  unfold fillActions MatchExpr.getIfAction MatchExpr.getElseAction at h
  cases hif : me.ifAction with
  | none =>
      simp [hif, bind, Except.bind] at h
  | some a =>
      cases helse : me.elseAction with
      | none =>
          simp [hif, helse, bind, Except.bind] at h
      | some b =>
          refine ⟨a, b, rfl, rfl, ?_⟩
          simpa [hif, helse, bind, Except.bind] using h.symm

/-- The decision values a check of any kind can write. -/
def Check.ValuesInRange (c : Check) : Prop :=
  (1 ≤ c.ifActionVal ∧ c.ifActionVal ≤ 15) ∧
    (1 ≤ c.elseActionVal ∧ c.elseActionVal ≤ 15)

/-- What holds of every check that is not of the monitor kind, for any program. -/
structure PlainCheck (c : Check) : Prop where
  fieldLen : c.fieldLen = 16
  value : c.ifActionVal = c.priority
  exactText : c.type = .exact → c.predHi = c.predLo
  smallTable : c.type = .exact ∨ c.type = .range → c.tableSize = 2
  listTable : c.type = .list → c.tableSize = c.list.length

/-- What holds of every monitor check, for any program. -/
structure MonitorCheck (c : Check) : Prop where
  fieldLen : c.fieldLen = 16
  ifVal : c.ifActionVal = normalActionVal
  elseVal : c.elseActionVal = dropActionVal
  priority : c.priority = dropActionVal
  extra :
    (c.extraCheck = false ∧ c.extraHeader = [] ∧ c.hToVal = []) ∨
      ∃ h v, c.extraCheck = true ∧ c.extraHeader = [h] ∧ c.hToVal = [(h, v)]

/-- A monitor check comes from a match on a monitor and takes its header from the declaration. -/
theorem parseMatchMon_spec
    {prog : Program} {mvar : String} {bp : Option BinaryPred} {check : Check}
    (h : parseMatchMon prog mvar bp {} = .ok check) :
    check.type = .monitor ∧ MonitorCheck check ∧ check.monName = mvar ∧
      ∃ mon, prog.getMonByName mvar = some mon ∧ check.header = mon.lp.listvar ∧
        check.hToVal = bp.toList.map (fun b => (b.lhs, b.rhs)) := by
  unfold parseMatchMon at h
  cases hmon : prog.getMonByName mvar with
  | none =>
      simp [hmon] at h
  | some mon =>
      cases bp with
      | none =>
          simp only [hmon, Except.ok.injEq] at h
          subst h
          exact ⟨rfl, ⟨rfl, rfl, rfl, rfl, Or.inl ⟨rfl, rfl, rfl⟩⟩, rfl, mon, rfl, rfl, rfl⟩
      | some b =>
          simp only [hmon, Except.ok.injEq] at h
          subst h
          exact ⟨rfl, ⟨rfl, rfl, rfl, rfl, Or.inr ⟨b.lhs, b.rhs, rfl, rfl, rfl⟩⟩, rfl, mon, rfl,
            rfl, rfl⟩

/-- The check of an accepted membership test. -/
theorem parseMatchList_eq
    {prog : Program} {me : MatchExpr} {lp : ListPred} {check : Check}
    (h : parseMatchList prog me lp {} = .ok check) :
    ∃ a b items,
      me.ifAction = some a ∧
      me.elseAction = some b ∧
      prog.getListByName lp.listbodyvar = some items ∧
      check =
        { type := .list
          ifActionVal := actionToVal a
          elseActionVal := actionToVal b
          priority := actionToVal a
          header := lp.listvar
          list := items
          tableSize := items.length } := by
  unfold parseMatchList at h
  split at h
  · split at h
    · cases h
    · rename_i items hitems
      obtain ⟨c₁, hfill, h⟩ := bind_eq_ok_iff.mp h
      obtain ⟨a, b, ha, hb, rfl⟩ := fillActions_spec hfill
      split at h
      · cases h
        exact ⟨a, b, items, ha, hb, hitems, rfl⟩
      · cases h
  · cases h

/-- A membership check. -/
theorem parseMatchList_spec
    {prog : Program} {me : MatchExpr} {lp : ListPred} {check : Check}
    (h : parseMatchList prog me lp {} = .ok check) :
    check.type = .list ∧ PlainCheck check ∧ check.ValuesInRange := by
  obtain ⟨a, b, items, _, _, _, rfl⟩ := parseMatchList_eq h
  exact ⟨rfl, ⟨rfl, rfl, by simp, by simp, fun _ => rfl⟩, actionToVal_bounds a,
    actionToVal_bounds b⟩

/-- The check of an accepted comparison. -/
theorem parseMatchPred_eq
    {me : MatchExpr} {bp : BinaryPred} {check : Check}
    (h : parseMatchPred me bp {} = .ok check) :
    ∃ a b,
      me.ifAction = some a ∧
      me.elseAction = some b ∧
      check = fillComparison bp
        { ifActionVal := actionToVal a
          elseActionVal := actionToVal b
          priority := actionToVal a
          header := bp.lhs } := by
  unfold parseMatchPred at h
  split at h
  · obtain ⟨c₁, hfill, h⟩ := bind_eq_ok_iff.mp h
    obtain ⟨a, b, ha, hb, rfl⟩ := fillActions_spec hfill
    split at h
    · cases h
      exact ⟨a, b, ha, hb, rfl⟩
    · cases h
  · cases h

/-- A comparison check; with the operators that are not supported it stays invalid. -/
theorem parseMatchPred_spec
    {me : MatchExpr} {bp : BinaryPred} {check : Check}
    (h : parseMatchPred me bp {} = .ok check) :
    (check.type = .exact ∨ check.type = .range ∨ check.type = .invalid) ∧
      PlainCheck check ∧ check.ValuesInRange ∧
      (check.type = .exact ∨ check.type = .range →
        (check.predLo = bp.rhs ∨ check.predLo = defaultLow) ∧
          (check.predHi = bp.rhs ∨ check.predHi = defaultHigh)) := by
  obtain ⟨a, b, _, _, rfl⟩ := parseMatchPred_eq h
  have hrange := And.intro (actionToVal_bounds a) (actionToVal_bounds b)
  obtain ⟨lhs, op, rhs⟩ := bp
  cases op with
  | eq =>
      exact ⟨Or.inl rfl, ⟨rfl, rfl, fun _ => rfl, fun _ => rfl, by simp [fillComparison]⟩,
        hrange, fun _ => ⟨Or.inl rfl, Or.inl rfl⟩⟩
  | lt =>
      exact ⟨Or.inr (Or.inl rfl),
        ⟨rfl, rfl, by simp [fillComparison], fun _ => rfl, by simp [fillComparison]⟩,
        hrange, fun _ => ⟨Or.inr rfl, Or.inl rfl⟩⟩
  | gt =>
      exact ⟨Or.inr (Or.inl rfl),
        ⟨rfl, rfl, by simp [fillComparison], fun _ => rfl, by simp [fillComparison]⟩,
        hrange, fun _ => ⟨Or.inl rfl, Or.inr rfl⟩⟩
  | le =>
      exact ⟨Or.inr (Or.inr rfl),
        ⟨rfl, rfl, by simp [fillComparison], fun _ => rfl, by simp [fillComparison]⟩,
        hrange, by simp [fillComparison]⟩
  | ge =>
      exact ⟨Or.inr (Or.inr rfl),
        ⟨rfl, rfl, by simp [fillComparison], fun _ => rfl, by simp [fillComparison]⟩,
        hrange, by simp [fillComparison]⟩

/-- The two forms of a check, for any program. -/
def CheckForm (c : Check) : Prop :=
  (c.type = .monitor ∧ MonitorCheck c) ∨ (c.type ≠ .monitor ∧ PlainCheck c)

theorem parseMatch_form
    {prog : Program} {me : MatchExpr} {check : Check}
    (h : parseMatch prog me = .ok check) :
    CheckForm check := by
  unfold parseMatch at h
  split at h
  · obtain ⟨ht, hmon, _⟩ := parseMatchMon_spec h
    exact Or.inl ⟨ht, hmon⟩
  · obtain ⟨ht, hplain, _⟩ := parseMatchPred_spec h
    refine Or.inr ⟨?_, hplain⟩
    rcases ht with ht | ht | ht <;> simp [ht]
  · obtain ⟨ht, hplain, _⟩ := parseMatchList_spec h
    exact Or.inr ⟨by simp [ht], hplain⟩

/-- Only a match on a monitor gives a monitor check. -/
theorem parseMatch_monitor
    {prog : Program} {me : MatchExpr} {check : Check}
    (h : parseMatch prog me = .ok check)
    (htype : check.type = .monitor) :
    ∃ mvar bp, me.body = .monitor mvar bp ∧ parseMatchMon prog mvar bp {} = .ok check := by
  rw [parseMatch] at h
  split at h
  · rename_i mvar bp hbody
    exact ⟨mvar, bp, hbody, h⟩
  · obtain ⟨hkind, _⟩ := parseMatchPred_spec h
    simp [htype] at hkind
  · obtain ⟨hkind, _⟩ := parseMatchList_spec h
    simp [htype] at hkind

/-- Every check the parser of match expressions produces writes values between 1 and 15. -/
theorem parseMatch_valuesInRange
    {prog : Program} {me : MatchExpr} {check : Check}
    (h : parseMatch prog me = .ok check) :
    check.ValuesInRange := by
  rw [parseMatch] at h
  split at h
  · obtain ⟨_, hmon, _⟩ := parseMatchMon_spec h
    rw [Check.ValuesInRange, hmon.ifVal, hmon.elseVal]
    decide
  · exact (parseMatchPred_spec h).2.2.1
  · exact (parseMatchList_spec h).2.2

/-- What holds of the check of every match expression, whatever its number, holds of all checks. -/
theorem forall_processMatchexprsFrom
    {prog : Program} {P : Check → Prop}
    (hparse : ∀ me check, parseMatch prog me = .ok check → P check)
    (hid : ∀ c i, P c → P { c with id := i })
    {mes : List MatchExpr} {i : Nat} {checks : List Check}
    (h : processMatchexprsFrom prog i mes = .ok checks) :
    ∀ c, c ∈ checks → P c := by
  induction mes generalizing i checks with
  | nil =>
      cases h
      simp
  | cons me mes ih =>
      rw [processMatchexprsFrom] at h
      obtain ⟨check, hcheck, h⟩ := bind_eq_ok_iff.mp h
      obtain ⟨rest, hrest, h⟩ := bind_eq_ok_iff.mp h
      cases h
      intro c hc
      rcases List.mem_cons.mp hc with rfl | hc
      · exact hid check i (hparse me check hcheck)
      · exact ih hrest c hc

end CheckGeneration

end Poise
