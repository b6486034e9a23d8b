import Poise.PolicyParser
import Poise.ContextEvaluation

/-!
# Poise compiler: exact and membership policies

The fragment of the policy language whose statements compare a header with a
constant or test it for membership in a declared list, always with the normal
forward action in the else branch.

The meaning of such a policy is stated on the policy itself: the decision is the
largest action value among the statements whose predicate is true, and zero when
none is.  The second half follows a policy of the fragment through the parser and
through the generation of checks.
-/

namespace Poise

open Foundations

section MembershipPolicy

/-- Statements of the fragment; lists are declared anywhere in the policy. -/
inductive MembershipStatement where
  | exact (h : String) (c : Int) (a : PolicyAction)
  | member (h : String) (listvar : String) (a : PolicyAction)
  | declare (listvar : String) (first : Int) (rest : List Int)
deriving DecidableEq, Repr

namespace MembershipStatement

/-- The statement of the grammar. -/
def toStatement : MembershipStatement → Statement
  | exact h c a => .ifThenElse (.pred (.varConst h (.op .eq) c)) a .fwd1
  | member h l a => .ifThenElse (.list { var := h, op := .isIn, listvar := l }) a .fwd1
  | declare l first rest => .defList l first rest

/-- The list a statement declares. -/
def declared : MembershipStatement → Option (String × List Int)
  | declare l first rest => some (l, first :: rest)
  | _ => none

/-- The action value of a statement. -/
def value : MembershipStatement → Nat
  | exact _ _ a => actionToVal a
  | member _ _ a => actionToVal a
  | declare _ _ _ => 0

/-- Whether the predicate of a statement is true of the header values. -/
def holds (lists : String → Option (List Int)) (hdr : PoiseH) : MembershipStatement → Bool
  | exact h c _ => decide (((hdr h).toNat : Int) = c)
  | member h l _ =>
      match lists l with
      | none => false
      | some items => decide (((hdr h).toNat : Int) ∈ items)
  | declare _ _ _ => false

/-- The match expression the parser builds for a statement. -/
def matchExpr : MembershipStatement → Option MatchExpr
  | exact h c a =>
      some {
        body := .pred { lhs := h, op := .eq, rhs := toString c }
        ifAction := some a
        elseAction := some .fwd1
        numActions := 2 }
  | member h l a =>
      some {
        body := .list { listvar := h, listop := .isIn, listbodyvar := l }
        ifAction := some a
        elseAction := some .fwd1
        numActions := 2 }
  | declare _ _ _ => none

/-- The header a statement records. -/
def header : MembershipStatement → Option String
  | exact h _ _ => some h
  | member h _ _ => some h
  | declare _ _ _ => none

end MembershipStatement

/-- The lists of a policy: a name stands for its last declaration. -/
def policyLists (policy : List MembershipStatement) (l : String) : Option (List Int) :=
  (policy.filterMap MembershipStatement.declared).reverse.lookup l

/-- The action values of the true statements. -/
def trueValues (policy : List MembershipStatement) (hdr : PoiseH) : List Nat :=
  (policy.filter (MembershipStatement.holds (policyLists policy) hdr)).map
    MembershipStatement.value

/-- The decision a policy asks for. -/
def policyDecision (policy : List MembershipStatement) (hdr : PoiseH) : Nat :=
  largest 0 (trueValues policy hdr)

/-- The program a policy of the fragment stands for. -/
def membershipProgram (policy : List MembershipStatement) : Program :=
  { listV := policy.filterMap MembershipStatement.declared
    matchexprV := policy.filterMap MembershipStatement.matchExpr
    monitorV := []
    headerV := policy.filterMap MembershipStatement.header }

/-- Add the program of further statements behind a program. -/
def Program.followedBy (p q : Program) : Program :=
  { listV := p.listV ++ q.listV
    matchexprV := p.matchexprV ++ q.matchexprV
    monitorV := p.monitorV ++ q.monitorV
    headerV := p.headerV ++ q.headerV }

/-- A new match expression takes the two pending actions. -/
theorem setBranchActions_fresh
    {s s' : ParserState} {p : Program} {body : MatchBody} {a b : PolicyAction}
    (h : setBranchActions (pushAction (pushAction s a) b) = .ok s')
    (hprog : s.prog = p.addMatchexpr { body := body })
    (hact : s.actionV = []) :
    s' = { s with
      prog := { p with
        matchexprV := p.matchexprV ++
          [{ body := body, ifAction := some a, elseAction := some b, numActions := 2 }] }
      actionV := [] } := by
  have hlatest : (pushAction (pushAction s a) b).prog.matchexprV =
      p.matchexprV ++ [{ body := body }] := by
    simp only [pushAction, hprog, Program.addMatchexpr]
  obtain ⟨x, y, rest, hfirst, rfl⟩ := setBranchActions_latest h hlatest
  simp only [pushAction, hact, List.nil_append, List.cons_append, List.cons.injEq] at hfirst
  obtain ⟨rfl, rfl, _⟩ := hfirst
  simp only [pushAction, hprog, Program.addMatchexpr]

/-- Parsing one statement of the fragment appends its program. -/
theorem act_toStatement
    {st : MembershipStatement} {s s' : ParserState}
    (hact : s.actionV = [])
    (h : st.toStatement.act s = .ok s') :
    s'.prog = s.prog.followedBy (membershipProgram [st]) ∧ s'.actionV = [] := by
  cases st with
  | exact hd c a =>
      obtain ⟨t, ht, h⟩ := bind_eq_ok_iff.mp h
      obtain ⟨t₁, ht₁, ht⟩ := bind_eq_ok_iff.mp ht
      obtain ⟨t₂, ht₂, ht₁⟩ := bind_eq_ok_iff.mp ht₁
      cases ht₂
      obtain ⟨bp, hbp, ht₁⟩ := bind_eq_ok_iff.mp ht₁
      cases hbp
      obtain ⟨u, _, ht₁⟩ := bind_eq_ok_iff.mp ht₁
      cases ht₁
      cases ht
      have hs := setBranchActions_fresh h rfl hact
      rw [hs]
      simp [Program.followedBy, membershipProgram, Program.addHeader,
        MembershipStatement.declared, MembershipStatement.matchExpr,
        MembershipStatement.header]
  | member hd l a =>
      obtain ⟨t, ht, h⟩ := bind_eq_ok_iff.mp h
      obtain ⟨t₁, ht₁, ht⟩ := bind_eq_ok_iff.mp ht
      obtain ⟨u, _, ht₁⟩ := bind_eq_ok_iff.mp ht₁
      cases ht₁
      cases ht
      have hs := setBranchActions_fresh h rfl hact
      rw [hs]
      simp [Program.followedBy, membershipProgram, Program.addHeader,
        MembershipStatement.declared, MembershipStatement.matchExpr,
        MembershipStatement.header]
  | declare l first rest =>
      cases h
      refine ⟨?_, hact⟩
      simp [Program.followedBy, membershipProgram, Program.addListexpr,
        MembershipStatement.declared, MembershipStatement.matchExpr,
        MembershipStatement.header]

theorem followedBy_assoc
    (p q r : Program) :
    (p.followedBy q).followedBy r = p.followedBy (q.followedBy r) := by
  simp [Program.followedBy]

/-- The program of a policy is built statement by statement. -/
theorem membershipProgram_cons
    (st : MembershipStatement)
    (policy : List MembershipStatement) :
    membershipProgram (st :: policy) =
      (membershipProgram [st]).followedBy (membershipProgram policy) := by
  have happ : st :: policy = [st] ++ policy := rfl
  rw [happ]
  simp only [membershipProgram, Program.followedBy, List.filterMap_append, List.append_nil]

theorem runStatements_membership
    {policy : List MembershipStatement} {s s' : ParserState}
    (hact : s.actionV = [])
    (h : runStatements (policy.map MembershipStatement.toStatement) s = .ok s') :
    s'.prog = s.prog.followedBy (membershipProgram policy) := by
  induction policy generalizing s with
  | nil =>
      cases h
      simp [Program.followedBy, membershipProgram]
  | cons st policy ih =>
      obtain ⟨t, ht, h⟩ := bind_eq_ok_iff.mp h
      obtain ⟨hprog, hact'⟩ := act_toStatement hact ht
      rw [ih hact' h, hprog, membershipProgram_cons st policy, followedBy_assoc]

/-- The parser builds exactly the program of the policy. -/
theorem parsePolicy_membership
    {policy : List MembershipStatement} {prog : Program}
    (h : parsePolicy (policy.map MembershipStatement.toStatement) = .ok prog) :
    prog = membershipProgram policy := by
  obtain ⟨s, hs, h⟩ := bind_eq_ok_iff.mp h
  cases h
  rw [runStatements_membership rfl hs]
  simp [Program.followedBy, membershipProgram]

/-- The values an exact or list check tests for. -/
def checkItems (c : Check) : List Int :=
  match c.type with
  | .exact => (readInt c.predHi).toList
  | .list => c.list
  | _ => []

/-- Whether a check matches the header values. -/
def checkFires (hdr : PoiseH) (c : Check) : Bool :=
  decide (((hdr c.header).toNat : Int) ∈ checkItems c)

/-- The values written by the checks that match. -/
def firedValues (hdr : PoiseH) (checkV : List Check) : List Nat :=
  (checkV.filter (checkFires hdr)).map Check.ifActionVal

/-- What holds of every check of the fragment that has not been merged away. -/
structure MembershipCheck (c : Check) : Prop where
  kind :
    (c.type = .exact ∧ c.predHi = c.predLo ∧ ∃ n : Int, c.predLo = toString n) ∨
      c.type = .list
  prio : c.ifActionVal = c.priority
  range : c.ValuesInRange

/-- A check of the fragment is exact or list. -/
theorem MembershipCheck.mergeable
    {c : Check}
    (h : MembershipCheck c) :
    isMergeable c = true := by
  rcases h.kind with ⟨ht, _⟩ | ht <;> simp [isMergeable, ht]

/-- The two texts of an exact check are the same. -/
theorem MembershipCheck.exactText
    {c : Check}
    (h : MembershipCheck c)
    (hexact : c.type = .exact) :
    c.predHi = c.predLo := by
  rcases h.kind with ⟨_, htext, _⟩ | ht
  · exact htext
  · rw [ht] at hexact
    cases hexact

/-- The check of a statement tests for what the statement says. -/
theorem parseMatch_membership
    {prog : Program} {st : MembershipStatement} {me : MatchExpr} {check : Check}
    (hme : st.matchExpr = some me)
    (h : parseMatch prog me = .ok check)
    (hdr : PoiseH) :
    MembershipCheck check ∧
      some check.header = st.header ∧
      check.ifActionVal = st.value ∧
      checkFires hdr check = st.holds prog.getListByName hdr := by
  have hrange := parseMatch_valuesInRange h
  cases st with
  | exact hd c a =>
      cases hme
      rw [parseMatch] at h
      obtain ⟨a', b', ha, hb, rfl⟩ := parseMatchPred_eq h
      cases ha
      cases hb
      refine ⟨⟨Or.inl ⟨rfl, rfl, c, rfl⟩, rfl, hrange⟩, rfl, rfl, ?_⟩
      simp [checkFires, checkItems, fillComparison, MembershipStatement.holds, eq_comm]
  | member hd l a =>
      cases hme
      rw [parseMatch] at h
      obtain ⟨a', b', items, ha, hb, hitems, rfl⟩ := parseMatchList_eq h
      cases ha
      cases hb
      refine ⟨⟨Or.inr rfl, rfl, hrange⟩, rfl, rfl, ?_⟩
      simp only [MembershipStatement.holds, hitems]
      rfl
  | declare l first rest =>
      cases hme

/-- Numbering a check changes nothing the fragment looks at. -/
theorem MembershipCheck.withId
    {c : Check}
    (h : MembershipCheck c)
    (i : Nat) :
    MembershipCheck { c with id := i } :=
  ⟨h.kind, h.prio, h.range⟩

/-- The checks of a policy: their form, their numbers and the values they write. -/
theorem processMatchexprsFrom_membership
    {prog : Program} {policy : List MembershipStatement} {i : Nat} {checks : List Check}
    (h :
      processMatchexprsFrom prog i (policy.filterMap MembershipStatement.matchExpr) =
        .ok checks)
    (hdr : PoiseH) :
    (∀ c, c ∈ checks → MembershipCheck c) ∧
      checks.map Check.id = List.range' i checks.length ∧
      firedValues hdr checks =
        (policy.filter (MembershipStatement.holds prog.getListByName hdr)).map
          MembershipStatement.value := by
  induction policy generalizing i checks with
  | nil =>
      cases h
      simp [firedValues]
  | cons st policy ih =>
      cases hme : st.matchExpr with
      | none =>
          rw [List.filterMap_cons_none hme] at h
          have hfalse : st.holds prog.getListByName hdr = false := by
            cases st with
            | declare l first rest =>
                rfl
            | _ =>
                simp [MembershipStatement.matchExpr] at hme
          simpa [hfalse] using ih h
      | some me =>
          rw [List.filterMap_cons_some hme, processMatchexprsFrom] at h
          obtain ⟨check, hcheck, h⟩ := bind_eq_ok_iff.mp h
          obtain ⟨rest, hrest, h⟩ := bind_eq_ok_iff.mp h
          cases h
          obtain ⟨hform, _, hval, hfire⟩ := parseMatch_membership hme hcheck hdr
          obtain ⟨ihform, ihids, ihvals⟩ := ih hrest
          have hfire' : checkFires hdr { check with id := i } = checkFires hdr check := rfl
          refine ⟨?_, ?_, ?_⟩
          · intro c hc
            rcases List.mem_cons.mp hc with rfl | hc
            · exact hform.withId i
            · exact ihform c hc
          · simp [ihids, List.range'_succ]
          · unfold firedValues at ihvals ⊢
            by_cases hholds : st.holds prog.getListByName hdr = true
            · rw [List.filter_cons_of_pos (by rw [hfire', hfire]; exact hholds),
                List.filter_cons_of_pos hholds, List.map_cons, List.map_cons, ihvals]
              exact congrArg (· :: _) hval
            · rw [List.filter_cons_of_neg (by rw [hfire', hfire]; exact hholds),
                List.filter_cons_of_neg hholds, ihvals]

end MembershipPolicy

end Poise
