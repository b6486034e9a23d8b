import Mathlib.Tactic
import Poise.AcceptedPolicies

/-!
# Poise compiler: which actions an if-statement is given

The actions of a statement reach its match expression through a vector that all
productions share.  An action is appended when it is read, an if-then-else takes
the first two and clears the vector, and an if-then without else leaves its
action there.

This module follows the vector through a whole policy.  An if-then-else is given
its own actions exactly when the actions that are still pending do not get in
front of them.
-/

namespace Poise

section ActionAssociation

/-- The three kinds of if-statements with the actions written in them. -/
inductive BranchForm where
  | outer
  | thenOnly (a : PolicyAction)
  | thenElse (a b : PolicyAction)
deriving DecidableEq, Repr

/-- The ifs of a statement, from the outside to the inside. -/
def Statement.branches : Statement → List BranchForm
  | .ifThen _ a => [.thenOnly a]
  | .ifThenElse _ a b => [.thenElse a b]
  | .ifNested _ s => .outer :: s.branches
  | .count _ _ => []
  | .monitor _ _ => []
  | .defList _ _ _ => []

/-- The ifs of a policy in the order of their match expressions. -/
def policyBranches (policy : List Statement) : List BranchForm :=
  policy.flatMap Statement.branches

/-- A match expression has exactly the actions written in its if-then-else. -/
def HasOwnActions : BranchForm → MatchExpr → Prop
  | .thenElse a b, me => me.ifAction = some a ∧ me.elseAction = some b
  | _, _ => True

instance (f : BranchForm) (me : MatchExpr) : Decidable (HasOwnActions f me) :=
  match f with
  | .outer => inferInstanceAs (Decidable True)
  | .thenOnly _ => inferInstanceAs (Decidable True)
  | .thenElse _ _ => inferInstanceAs (Decidable (_ ∧ _))

/--
Every if-then-else has its own actions in front, when the actions of the
if-thens since the last if-then-else are put before them.
-/
def OwnActionsFirst : List PolicyAction → List BranchForm → Prop
  | _, [] => True
  | pending, .outer :: bs => OwnActionsFirst pending bs
  | pending, .thenOnly a :: bs => OwnActionsFirst (pending ++ [a]) bs
  | pending, .thenElse a b :: bs =>
      (pending ++ [a, b]).take 2 = [a, b] ∧ OwnActionsFirst [] bs

/-- What the parser makes of the ifs: their match expressions, and what is left pending. -/
inductive Receives : List PolicyAction → List BranchForm → List MatchExpr →
    List PolicyAction → Prop
  | nil
      (pending : List PolicyAction) :
      Receives pending [] [] pending
  | outer
      {pending left : List PolicyAction} {bs : List BranchForm} {mes : List MatchExpr}
      (body : MatchBody)
      (hrest : Receives pending bs mes left) :
      Receives pending (.outer :: bs) ({ body := body } :: mes) left
  | thenOnly
      {pending left : List PolicyAction} {bs : List BranchForm} {mes : List MatchExpr}
      {a : PolicyAction}
      (body : MatchBody)
      (hrest : Receives (pending ++ [a]) bs mes left) :
      Receives pending (.thenOnly a :: bs) ({ body := body } :: mes) left
  | thenElse
      {pending left rest : List PolicyAction} {bs : List BranchForm} {mes : List MatchExpr}
      {a b x y : PolicyAction}
      (body : MatchBody)
      (hfirst : pending ++ [a, b] = x :: y :: rest)
      (hrest : Receives [] bs mes left) :
      Receives pending (.thenElse a b :: bs)
        ({ body := body, ifAction := some x, elseAction := some y, numActions := 2 } :: mes) left

theorem Receives.append
    {p q r : List PolicyAction} {bs bs' : List BranchForm} {mes mes' : List MatchExpr}
    (h : Receives p bs mes q)
    (h' : Receives q bs' mes' r) :
    Receives p (bs ++ bs') (mes ++ mes') r := by
  induction h with
  | nil pending =>
      exact h'
  | outer body _ ih =>
      exact .outer body (ih h')
  | thenOnly body _ ih =>
      exact .thenOnly body (ih h')
  | thenElse body hfirst _ ih =>
      exact .thenElse body hfirst (ih h')

/-- One statement. -/
theorem Statement.act_receives
    (st : Statement)
    {s s' : ParserState}
    (h : st.act s = .ok s') :
    ∃ mes, s'.prog.matchexprV = s.prog.matchexprV ++ mes ∧
      Receives s.actionV st.branches mes s'.actionV := by
  induction st generalizing s s' with
  | ifThen m a =>
      obtain ⟨t, ht, h⟩ := bind_eq_ok_iff.mp h
      obtain ⟨hact, _, body, hadd⟩ := MatchSyntax.act_adds ht
      cases h
      refine ⟨[{ body := body }], hadd, .thenOnly body ?_⟩
      rw [← hact]
      exact .nil _
  | ifThenElse m a b =>
      obtain ⟨t, ht, h⟩ := bind_eq_ok_iff.mp h
      obtain ⟨hact, _, body, hadd⟩ := MatchSyntax.act_adds ht
      obtain ⟨x, y, rest, hfirst, rfl⟩ := setBranchActions_latest h hadd
      refine ⟨_, rfl, ?_⟩
      have hpending : s.actionV ++ [a, b] = x :: y :: rest := by
        rw [← hact, ← hfirst]
        simp [pushAction]
      exact .thenElse body hpending (.nil _)
  | ifNested m st ih =>
      obtain ⟨t, ht, h⟩ := bind_eq_ok_iff.mp h
      obtain ⟨hact, _, body, hadd⟩ := MatchSyntax.act_adds ht
      obtain ⟨mes, hmes, hrec⟩ := ih h
      rw [hact] at hrec
      refine ⟨{ body := body } :: mes, ?_, .outer body hrec⟩
      rw [hmes, hadd, List.append_assoc]
      rfl
  | count v e =>
      obtain ⟨t, _, h⟩ := bind_eq_ok_iff.mp h
      cases h
  | monitor v e =>
      obtain ⟨t, ht, h⟩ := bind_eq_ok_iff.mp h
      obtain ⟨hframe, hlp, _⟩ := ListExprSyntax.act_spec ht
      rw [hlp] at h
      obtain ⟨u, _, h⟩ := bind_eq_ok_iff.mp h
      cases h
      refine ⟨[], ?_, ?_⟩
      · rw [List.append_nil, ← hframe.matchexprs]
        rfl
      · rw [← hframe.actions]
        exact .nil _
  | defList l first rest =>
      cases h
      exact ⟨[], (List.append_nil _).symm, .nil _⟩

/-- A sequence of statements. -/
theorem runStatements_receives
    {policy : List Statement} {s s' : ParserState}
    (h : runStatements policy s = .ok s') :
    ∃ mes, s'.prog.matchexprV = s.prog.matchexprV ++ mes ∧
      Receives s.actionV (policyBranches policy) mes s'.actionV := by
  induction policy generalizing s with
  | nil =>
      cases h
      exact ⟨[], (List.append_nil _).symm, .nil _⟩
  | cons st policy ih =>
      obtain ⟨t, ht, h⟩ := bind_eq_ok_iff.mp h
      obtain ⟨mes, hmes, hrec⟩ := st.act_receives ht
      obtain ⟨mes', hmes', hrec'⟩ := ih h
      refine ⟨mes ++ mes', ?_, hrec.append hrec'⟩
      rw [hmes', hmes, List.append_assoc]

/-- Own actions arrive exactly when they are in front of the pending ones. -/
theorem Receives.hasOwnActions_iff
    {pending left : List PolicyAction} {bs : List BranchForm} {mes : List MatchExpr}
    (h : Receives pending bs mes left) :
    List.Forall₂ HasOwnActions bs mes ↔ OwnActionsFirst pending bs := by
  induction h with
  | nil pending =>
      exact iff_of_true .nil trivial
  | outer body _ ih =>
      rw [List.forall₂_cons, OwnActionsFirst, ih]
      exact and_iff_right trivial
  | thenOnly body _ ih =>
      rw [List.forall₂_cons, OwnActionsFirst, ih]
      exact and_iff_right trivial
  | thenElse body hfirst _ ih =>
      rw [List.forall₂_cons, OwnActionsFirst, ih, hfirst]
      simp [HasOwnActions]

/--
For every policy that is parsed, each if-then-else has exactly the actions
written in it if and only if, in each of them, the actions that if-thens without
else left pending do not displace its own.
-/
theorem parsePolicy_ownActions_iff
    {policy : List Statement} {prog : Program}
    (hparse : parsePolicy policy = .ok prog) :
    List.Forall₂ HasOwnActions (policyBranches policy) prog.matchexprV ↔
      OwnActionsFirst [] (policyBranches policy) := by
  obtain ⟨s, hs, h⟩ := bind_eq_ok_iff.mp hparse
  cases h
  obtain ⟨mes, hmes, hrec⟩ := runStatements_receives hs
  rw [hmes]
  exact hrec.hasOwnActions_iff

/-- Two matches on a monitor in front of a comparison. -/
def behindMonitors (first second : Statement) : List Statement :=
  [.defList "list1" 1 [2],
   .monitor "m0" { var := "h2", op := .isIn, listvar := "list1" },
   first,
   second,
   .ifThenElse (.pred (.varConst "h1" (.op .eq) 1)) .drop .fwd1]

/-- The statement `if match (m0) then a`. -/
def ifMonitor (a : PolicyAction) : Statement :=
  .ifThen (.monitor "m0") a

/-- The statement `if match (m0) then fwd1 else drop`. -/
def ifMonitorElse : Statement :=
  .ifThenElse (.monitor "m0") .fwd1 .drop

/-- The theorem on a policy without an if-then. -/
theorem ownActions_behind_ifThenElse :
    List.Forall₂ HasOwnActions (policyBranches (behindMonitors ifMonitorElse ifMonitorElse))
      (programOf (behindMonitors ifMonitorElse ifMonitorElse)).matchexprV := by
  have h : AcceptedPolicy (behindMonitors ifMonitorElse ifMonitorElse) :=
    ⟨by decide +kernel, by decide +kernel⟩
  refine (parsePolicy_ownActions_iff h.parsed).mpr ?_
  simp [policyBranches, behindMonitors, ifMonitorElse, Statement.branches, OwnActionsFirst]

/--
Two if-thens in front of `if match (h1 == 1) then drop else fwd1`: the policy
compiles, the comparison has the actions of the if-thens, and the packets it
should drop are forwarded to the second port.
-/
theorem displacedActions_compiled :
    AcceptedPolicy (behindMonitors (ifMonitor .fwd2) (ifMonitor .fwd1)) ∧
      (programOf (behindMonitors (ifMonitor .fwd2) (ifMonitor .fwd1))).matchexprV.getLast? =
        some {
          body := .pred { lhs := "h1", op := .eq, rhs := "1" }
          ifAction := some .fwd2
          elseAction := some .fwd1
          numActions := 2 } ∧
      ¬ List.Forall₂ HasOwnActions
        (policyBranches (behindMonitors (ifMonitor .fwd2) (ifMonitor .fwd1)))
        (programOf (behindMonitors (ifMonitor .fwd2) (ifMonitor .fwd1))).matchexprV :=
  ⟨⟨by decide +kernel, by decide +kernel⟩, by decide +kernel, by decide +kernel⟩

end ActionAssociation

end Poise
