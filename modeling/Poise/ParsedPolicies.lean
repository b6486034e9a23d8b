import Poise.PolicyParser
import Poise.CheckGeneration

/-!
# Poise compiler: what the parser guarantees

The assertions of the grammar leave their trace in the program: monitors are
matched under monitor names and watch proper headers, and the right side of a
comparison is a printed number or the name of a header.

The second half carries this over to the checks, for later stages that copy
their fields.
-/

namespace Poise

section ParsedPolicies

/-- A decimal integer, as the code generator prints it. -/
def IsIntLiteral (t : String) : Prop :=
  ∃ n : Int, t = toString n

/-- The texts a comparison can have on its right side. -/
def NumberOrHeader (t : String) : Prop :=
  IsIntLiteral t ∨ isHeaderName t = true

/-- The parts of the parser state that expressions do not touch. -/
structure ParserFrame (s t : ParserState) : Prop where
  matchexprs : t.prog.matchexprV = s.prog.matchexprV
  monitors : t.prog.monitorV = s.prog.monitorV

theorem ParserFrame.refl
    (s : ParserState) :
    ParserFrame s s :=
  ⟨rfl, rfl⟩

theorem ParserFrame.trans
    {s t u : ParserState}
    (h₁ : ParserFrame s t)
    (h₂ : ParserFrame t u) :
    ParserFrame s u :=
  ⟨h₂.matchexprs.trans h₁.matchexprs, h₂.monitors.trans h₁.monitors⟩

/-- With them expressions leave the lists and the pending actions. -/
structure ExpressionFrame (s t : ParserState) : Prop extends ParserFrame s t where
  lists : t.prog.listV = s.prog.listV
  actions : t.actionV = s.actionV

theorem ExpressionFrame.refl
    (s : ParserState) :
    ExpressionFrame s s :=
  ⟨ParserFrame.refl s, rfl, rfl⟩

theorem ExpressionFrame.trans
    {s t u : ParserState}
    (h₁ : ExpressionFrame s t)
    (h₂ : ExpressionFrame t u) :
    ExpressionFrame s u :=
  ⟨h₁.toParserFrame.trans h₂.toParserFrame, h₂.lists.trans h₁.lists,
    h₂.actions.trans h₁.actions⟩

theorem require_eq_ok
    {b : Bool} {u : Unit}
    (h : require b = .ok u) :
    b = true := by
  unfold require at h
  split at h
  · assumption
  · cases h

/-- Recording a header asserts its name and changes the headers only. -/
theorem recordHeader_spec
    {s s' : ParserState} {v : String}
    (h : recordHeader s v = .ok s') :
    isHeaderName v = true ∧ s' = { s with prog := s.prog.addHeader v } := by
  obtain ⟨u, hu, h⟩ := bind_eq_ok_iff.mp h
  cases h
  exact ⟨require_eq_ok hu, rfl⟩

theorem ArithSyntax.act_frame
    (a : ArithSyntax)
    {s s' : ParserState}
    (h : a.act s = .ok s') :
    ExpressionFrame s s' := by
  induction a generalizing s s' with
  | varVar v op w =>
      obtain ⟨t, ht, h⟩ := bind_eq_ok_iff.mp h
      obtain ⟨_, rfl⟩ := recordHeader_spec ht
      obtain ⟨_, rfl⟩ := recordHeader_spec h
      exact ⟨⟨rfl, rfl⟩, rfl, rfl⟩
  | arithVar a op w ih =>
      obtain ⟨t, ht, h⟩ := bind_eq_ok_iff.mp h
      apply (ih ht).trans
      split at h
      · cases h
      · obtain ⟨_, rfl⟩ := recordHeader_spec h
        exact ⟨⟨rfl, rfl⟩, rfl, rfl⟩
  | arithConst a op c ih =>
      obtain ⟨t, ht, h⟩ := bind_eq_ok_iff.mp h
      apply (ih ht).trans
      split at h
      · cases h
      · cases h
        exact ⟨⟨rfl, rfl⟩, rfl, rfl⟩
  | const c =>
      cases h
      exact ExpressionFrame.refl _

theorem mkBinaryPred_rhs
    {s : ParserState} {lhs rhs : String} {bp : BinaryPred}
    (h : mkBinaryPred s lhs rhs = .ok bp) :
    bp.rhs = rhs := by
  unfold mkBinaryPred at h
  split at h
  · cases h
    rfl
  · cases h

mutual

/-- A comparison leaves a predicate whose right side is a number or a header. -/
theorem BinaryExpr.act_spec :
    ∀ (e : BinaryExpr) {s s' : ParserState},
      e.act s = .ok s' →
        ExpressionFrame s s' ∧ ∃ bp, s'.bp = some bp ∧ NumberOrHeader bp.rhs
  | .varConst v op c, s, s', h => by
      rw [BinaryExpr.act] at h
      obtain ⟨t, ht, h⟩ := bind_eq_ok_iff.mp h
      obtain ⟨bp, hbp, h⟩ := bind_eq_ok_iff.mp h
      obtain ⟨u, _, h⟩ := bind_eq_ok_iff.mp h
      cases h
      exact ⟨(BinaryOp.act_spec op ht).trans ⟨⟨rfl, rfl⟩, rfl, rfl⟩, bp, rfl,
        Or.inl ⟨c, mkBinaryPred_rhs hbp⟩⟩
  | .varVar v op w, s, s', h => by
      rw [BinaryExpr.act] at h
      obtain ⟨t, ht, h⟩ := bind_eq_ok_iff.mp h
      obtain ⟨bp, hbp, h⟩ := bind_eq_ok_iff.mp h
      obtain ⟨t₁, ht₁, h⟩ := bind_eq_ok_iff.mp h
      obtain ⟨_, rfl⟩ := recordHeader_spec ht₁
      obtain ⟨hw, rfl⟩ := recordHeader_spec h
      refine ⟨(BinaryOp.act_spec op ht).trans ⟨⟨rfl, rfl⟩, rfl, rfl⟩, bp, rfl, Or.inr ?_⟩
      rw [mkBinaryPred_rhs hbp]
      exact hw
  | .arithConst a op c, s, s', h => by
      rw [BinaryExpr.act] at h
      obtain ⟨t, ht, h⟩ := bind_eq_ok_iff.mp h
      obtain ⟨t₁, ht₁, h⟩ := bind_eq_ok_iff.mp h
      split at h
      · cases h
      · obtain ⟨bp, hbp, h⟩ := bind_eq_ok_iff.mp h
        cases h
        have hframe := (ArithSyntax.act_frame a ht).trans (BinaryOp.act_spec op ht₁)
        exact ⟨hframe.trans ⟨⟨rfl, rfl⟩, rfl, rfl⟩, bp, rfl, Or.inl ⟨c, mkBinaryPred_rhs hbp⟩⟩

/-- Operators touch no part of the program but the headers. -/
theorem BinaryOp.act_spec :
    ∀ (o : BinaryOp) {s s' : ParserState},
      o.act s = .ok s' → ExpressionFrame s s'
  | .op o, s, s', h => by
      rw [BinaryOp.act] at h
      cases h
      exact ⟨⟨rfl, rfl⟩, rfl, rfl⟩
  | .boolop left right, s, s', h => by
      rw [BinaryOp.act] at h
      obtain ⟨t, ht, h⟩ := bind_eq_ok_iff.mp h
      exact (BinaryExpr.act_spec left ht).1.trans (BinaryExpr.act_spec right h).1

end

/-- The form of a match expression of a parsed policy. -/
def MatchBody.WellFormed : MatchBody → Prop
  | .pred bp => NumberOrHeader bp.rhs
  | .list _ => True
  | .monitor v bp => isMonitorName v = true ∧ ∀ b, bp = some b → NumberOrHeader b.rhs

/-- The form of a parsed policy. -/
structure Program.WellFormed (p : Program) : Prop where
  bodies : ∀ me, me ∈ p.matchexprV → me.body.WellFormed
  monitors : ∀ m, m ∈ p.monitorV → isHeaderName m.lp.listvar = true

/-- Expressions keep the form. -/
theorem ParserFrame.wellFormed
    {s t : ParserState}
    (h : ParserFrame s t)
    (hs : s.prog.WellFormed) :
    t.prog.WellFormed :=
  ⟨by rw [h.matchexprs]; exact hs.bodies, by rw [h.monitors]; exact hs.monitors⟩

theorem forall_mem_addMatchexpr
    {P : MatchExpr → Prop} {p : Program}
    (hp : ∀ me, me ∈ p.matchexprV → P me)
    {me : MatchExpr}
    (hme : P me) :
    ∀ x, x ∈ (p.addMatchexpr me).matchexprV → P x := by
  intro x hx
  rcases List.mem_append.mp hx with hx | hx
  · exact hp x hx
  · rw [List.mem_singleton.mp hx]
    exact hme

/-- A well-formed match expression may be added. -/
theorem Program.WellFormed.addMatchexpr
    {p : Program}
    (hp : p.WellFormed)
    {me : MatchExpr}
    (hme : me.body.WellFormed) :
    (p.addMatchexpr me).WellFormed :=
  ⟨forall_mem_addMatchexpr hp.bodies hme, hp.monitors⟩

/-- The parse of a list test asserts its header. -/
theorem ListExprSyntax.act_spec
    {e : ListExprSyntax} {s s' : ParserState}
    (h : e.act s = .ok s') :
    ExpressionFrame s s' ∧
      s'.lp = some { listvar := e.var, listop := e.op, listbodyvar := e.listvar } ∧
      isHeaderName e.var = true := by
  obtain ⟨hname, rfl⟩ := recordHeader_spec h
  exact ⟨⟨⟨rfl, rfl⟩, rfl, rfl⟩, rfl, hname⟩

theorem MatchSyntax.act_wellFormed
    {m : MatchSyntax} {s s' : ParserState}
    (h : m.act s = .ok s')
    (hs : s.prog.WellFormed) :
    s'.prog.WellFormed := by
  cases m with
  | pred e =>
      obtain ⟨t, ht, h⟩ := bind_eq_ok_iff.mp h
      obtain ⟨hframe, bp, hbp, hrhs⟩ := BinaryExpr.act_spec e ht
      rw [hbp] at h
      cases h
      exact (hframe.wellFormed hs).addMatchexpr hrhs
  | list e =>
      obtain ⟨t, ht, h⟩ := bind_eq_ok_iff.mp h
      obtain ⟨hframe, hlp, _⟩ := ListExprSyntax.act_spec ht
      rw [hlp] at h
      cases h
      exact (hframe.wellFormed hs).addMatchexpr trivial
  | monitor v =>
      obtain ⟨u, hu, h⟩ := bind_eq_ok_iff.mp h
      cases h
      exact hs.addMatchexpr ⟨require_eq_ok hu, by simp⟩
  | monitorAnd v e =>
      obtain ⟨t, ht, h⟩ := bind_eq_ok_iff.mp h
      obtain ⟨hframe, bp, hbp, hrhs⟩ := BinaryExpr.act_spec e ht
      rw [hbp] at h
      obtain ⟨u, hu, h⟩ := bind_eq_ok_iff.mp h
      cases h
      refine (hframe.wellFormed hs).addMatchexpr ⟨require_eq_ok hu, ?_⟩
      intro b hb
      cases hb
      exact hrhs

/-- Giving a match expression its actions keeps its body. -/
theorem setActions_body
    {me me' : MatchExpr} {a b : PolicyAction}
    (h : (do let m ← me.setIfAction a; m.setElseAction b) = .ok me') :
    me'.body = me.body := by
  obtain ⟨m, hm, h⟩ := bind_eq_ok_iff.mp h
  unfold MatchExpr.setIfAction at hm
  unfold MatchExpr.setElseAction at h
  split at hm
  · cases hm
  · cases hm
    split at h
    · cases h
    · cases h
      rfl

/-- Giving the latest match expression its actions keeps what holds of all bodies. -/
theorem setBranchActions_bodies
    {P : MatchBody → Prop} {s s' : ParserState}
    (h : setBranchActions s = .ok s')
    (hs : ∀ me, me ∈ s.prog.matchexprV → P me.body) :
    (∀ me, me ∈ s'.prog.matchexprV → P me.body) ∧
      s'.prog.monitorV = s.prog.monitorV ∧ s'.aeStack = s.aeStack := by
  unfold setBranchActions at h
  split at h
  · obtain ⟨p, hp, h⟩ := bind_eq_ok_iff.mp h
    cases h
    unfold Program.updateLatestmatchexpr at hp
    split at hp
    · cases hp
    · rename_i me hlast
      obtain ⟨me', hme', hp⟩ := bind_eq_ok_iff.mp hp
      cases hp
      refine ⟨?_, rfl, rfl⟩
      intro x hx
      rcases List.mem_append.mp hx with hx | hx
      · exact hs x (List.dropLast_subset _ hx)
      · rw [List.mem_singleton.mp hx, setActions_body hme']
        exact hs me (List.mem_of_getLast? hlast)
  · cases h

theorem setBranchActions_wellFormed
    {s s' : ParserState}
    (h : setBranchActions s = .ok s')
    (hs : s.prog.WellFormed) :
    s'.prog.WellFormed := by
  obtain ⟨hbodies, hmonitors, _⟩ := setBranchActions_bodies h hs.bodies
  refine ⟨hbodies, ?_⟩
  rw [hmonitors]
  exact hs.monitors

theorem Statement.act_wellFormed
    (st : Statement)
    {s s' : ParserState}
    (h : st.act s = .ok s')
    (hs : s.prog.WellFormed) :
    s'.prog.WellFormed := by
  induction st generalizing s s' with
  | ifThen m a =>
      obtain ⟨t, ht, h⟩ := bind_eq_ok_iff.mp h
      cases h
      have htwf := MatchSyntax.act_wellFormed ht hs
      exact htwf
  | ifThenElse m a b =>
      obtain ⟨t, ht, h⟩ := bind_eq_ok_iff.mp h
      have htwf := MatchSyntax.act_wellFormed ht hs
      exact setBranchActions_wellFormed h htwf
  | ifNested m st ih =>
      obtain ⟨t, ht, h⟩ := bind_eq_ok_iff.mp h
      exact ih h (MatchSyntax.act_wellFormed ht hs)
  | count v e =>
      obtain ⟨t, ht, h⟩ := bind_eq_ok_iff.mp h
      cases h
  | monitor v e =>
      obtain ⟨t, ht, h⟩ := bind_eq_ok_iff.mp h
      obtain ⟨hframe, hlp, hname⟩ := ListExprSyntax.act_spec ht
      rw [hlp] at h
      obtain ⟨u, _, h⟩ := bind_eq_ok_iff.mp h
      cases h
      have ht' := hframe.wellFormed hs
      refine ⟨ht'.bodies, ?_⟩
      intro m hm
      rcases List.mem_append.mp hm with hm | hm
      · exact ht'.monitors m hm
      · rw [List.mem_singleton.mp hm]
        exact hname
  | defList l first rest =>
      cases h
      exact ⟨hs.bodies, hs.monitors⟩

/-- What every statement keeps, a sequence of statements keeps. -/
theorem runStatements_keeps
    {P : ParserState → Prop}
    (hstep : ∀ (st : Statement) {s s' : ParserState}, st.act s = .ok s' → P s → P s')
    {policy : List Statement} {s s' : ParserState}
    (h : runStatements policy s = .ok s')
    (hs : P s) :
    P s' := by
  induction policy generalizing s with
  | nil =>
      cases h
      exact hs
  | cons st policy ih =>
      obtain ⟨t, ht, h⟩ := bind_eq_ok_iff.mp h
      exact ih h (hstep st ht hs)

/-- Every parsed policy is well formed. -/
theorem parsePolicy_wellFormed
    {policy : List Statement} {prog : Program}
    (h : parsePolicy policy = .ok prog) :
    prog.WellFormed := by
  obtain ⟨s, hs, h⟩ := bind_eq_ok_iff.mp h
  cases h
  exact runStatements_keeps (P := fun s => s.prog.WellFormed)
    (fun st _ _ => Statement.act_wellFormed st) hs ⟨by simp, by simp⟩

/-- A match expression is added without actions; the pending actions and the lists stay. -/
theorem MatchSyntax.act_adds
    {m : MatchSyntax} {s s' : ParserState}
    (h : m.act s = .ok s') :
    s'.actionV = s.actionV ∧ s'.prog.listV = s.prog.listV ∧
      ∃ body, s'.prog.matchexprV = s.prog.matchexprV ++ [{ body := body }] := by
  cases m with
  | pred e =>
      obtain ⟨t, ht, h⟩ := bind_eq_ok_iff.mp h
      obtain ⟨hframe, bp, hbp, _⟩ := BinaryExpr.act_spec e ht
      rw [hbp] at h
      cases h
      exact ⟨hframe.actions, hframe.lists, .pred bp, by rw [← hframe.matchexprs]; rfl⟩
  | list e =>
      obtain ⟨t, ht, h⟩ := bind_eq_ok_iff.mp h
      obtain ⟨hframe, hlp, _⟩ := ListExprSyntax.act_spec ht
      rw [hlp] at h
      cases h
      exact ⟨hframe.actions, hframe.lists, .list _, by rw [← hframe.matchexprs]; rfl⟩
  | monitor v =>
      obtain ⟨u, _, h⟩ := bind_eq_ok_iff.mp h
      cases h
      exact ⟨rfl, rfl, .monitor v none, rfl⟩
  | monitorAnd v e =>
      obtain ⟨t, ht, h⟩ := bind_eq_ok_iff.mp h
      obtain ⟨hframe, bp, hbp, _⟩ := BinaryExpr.act_spec e ht
      rw [hbp] at h
      obtain ⟨u, _, h⟩ := bind_eq_ok_iff.mp h
      cases h
      exact ⟨hframe.actions, hframe.lists, .monitor v (some bp),
        by rw [← hframe.matchexprs]; rfl⟩

/-- The lists a statement declares. -/
def Statement.declaredLists : Statement → List (String × List Int)
  | .ifNested _ s => s.declaredLists
  | .defList listvar first rest => [(listvar, first :: rest)]
  | _ => []

/-- The lists a policy declares, in order. -/
def declaredLists (policy : List Statement) : List (String × List Int) :=
  policy.flatMap Statement.declaredLists

theorem Statement.act_listV
    (st : Statement)
    {s s' : ParserState}
    (h : st.act s = .ok s') :
    s'.prog.listV = s.prog.listV ++ st.declaredLists := by
  induction st generalizing s s' with
  | ifThen m a =>
      obtain ⟨t, ht, h⟩ := bind_eq_ok_iff.mp h
      cases h
      exact (MatchSyntax.act_adds ht).2.1.trans (List.append_nil _).symm
  | ifThenElse m a b =>
      obtain ⟨t, ht, h⟩ := bind_eq_ok_iff.mp h
      obtain ⟨_, hlists, body, hadd⟩ := MatchSyntax.act_adds ht
      obtain ⟨_, _, _, _, rfl⟩ := setBranchActions_latest h hadd
      exact hlists.trans (List.append_nil _).symm
  | ifNested m st ih =>
      obtain ⟨t, ht, h⟩ := bind_eq_ok_iff.mp h
      rw [ih h, (MatchSyntax.act_adds ht).2.1]
      rfl
  | count v e =>
      obtain ⟨t, _, h⟩ := bind_eq_ok_iff.mp h
      cases h
  | monitor v e =>
      obtain ⟨t, ht, h⟩ := bind_eq_ok_iff.mp h
      obtain ⟨hframe, hlp, _⟩ := ListExprSyntax.act_spec ht
      rw [hlp] at h
      obtain ⟨u, _, h⟩ := bind_eq_ok_iff.mp h
      cases h
      exact hframe.lists.trans (List.append_nil _).symm
  | defList l first rest =>
      cases h
      rfl

theorem runStatements_listV
    {policy : List Statement} {s s' : ParserState}
    (h : runStatements policy s = .ok s') :
    s'.prog.listV = s.prog.listV ++ declaredLists policy := by
  induction policy generalizing s with
  | nil =>
      cases h
      exact (List.append_nil _).symm
  | cons st policy ih =>
      obtain ⟨t, ht, h⟩ := bind_eq_ok_iff.mp h
      rw [ih h, st.act_listV ht, List.append_assoc]
      rfl

/-- The lists of a parsed policy are those it declares. -/
theorem parsePolicy_listV
    {policy : List Statement} {prog : Program}
    (h : parsePolicy policy = .ok prog) :
    prog.listV = declaredLists policy := by
  obtain ⟨s, hs, h⟩ := bind_eq_ok_iff.mp h
  cases h
  exact runStatements_listV hs

/-- The grammar has no empty list. -/
theorem ne_nil_of_mem_declaredLists
    {policy : List Statement} {l : String} {items : List Int}
    (h : (l, items) ∈ declaredLists policy) :
    items ≠ [] := by
  obtain ⟨st, -, hst⟩ := List.mem_flatMap.mp h
  induction st with
  | ifNested m st ih =>
      exact ih hst
  | defList l first rest =>
      rw [Statement.declaredLists, List.mem_singleton] at hst
      cases hst
      simp
  | _ =>
      cases hst

/-- A list of a parsed policy has a value. -/
theorem ne_nil_of_getListByName
    {policy : List Statement} {prog : Program}
    (hparse : parsePolicy policy = .ok prog)
    {l : String} {items : List Int}
    (h : prog.getListByName l = some items) :
    items ≠ [] := by
  rw [Program.getListByName, parsePolicy_listV hparse] at h
  obtain ⟨l₁, l₂, hsplit, _⟩ := List.lookup_eq_some_iff.mp h
  have hmem : (l, items) ∈ (declaredLists policy).reverse := by
    rw [hsplit]
    simp
  exact ne_nil_of_mem_declaredLists (List.mem_reverse.mp hmem)

/-- What the assertions of the parser add for the checks of a parsed policy. -/
structure ParsedCheck (c : Check) : Prop where
  form : CheckForm c
  texts : c.type = .exact ∨ c.type = .range → NumberOrHeader c.predLo ∧ NumberOrHeader c.predHi
  names : c.type = .monitor → isMonitorName c.monName = true ∧ isHeaderName c.header = true
  extraTexts : c.type = .monitor → ∀ e, e ∈ c.hToVal → NumberOrHeader e.2

theorem parseMatch_parsed
    {prog : Program}
    (hprog : prog.WellFormed)
    {me : MatchExpr} {check : Check}
    (hme : me ∈ prog.matchexprV)
    (h : parseMatch prog me = .ok check) :
    ParsedCheck check := by
  have hform := parseMatch_form h
  have hbody := hprog.bodies me hme
  unfold parseMatch at h
  split at h
  · rename_i mvar bp hmatch
    rw [hmatch] at hbody
    obtain ⟨ht, _, hname, mon, hmon, hheader, hvals⟩ := parseMatchMon_spec h
    refine ⟨hform, by simp [ht], ?_, ?_⟩
    · intro _
      rw [hname, hheader]
      refine ⟨hbody.1, hprog.monitors mon ?_⟩
      exact List.mem_reverse.mp (List.mem_of_find?_eq_some hmon)
    · intro _ e he
      rw [hvals] at he
      obtain ⟨b, hb, rfl⟩ := List.mem_map.mp he
      exact hbody.2 b (by simpa using hb)
  · rename_i bp hmatch
    rw [hmatch] at hbody
    obtain ⟨ht, _, _, htexts⟩ := parseMatchPred_spec h
    have hnot : check.type ≠ .monitor := by
      rcases ht with ht | ht | ht <;> simp [ht]
    refine ⟨hform, ?_, fun hmon => absurd hmon hnot, fun hmon => absurd hmon hnot⟩
    intro hkind
    obtain ⟨hlo, hhi⟩ := htexts hkind
    constructor
    · rcases hlo with hlo | hlo
      · rw [hlo]
        exact hbody
      · exact Or.inl ⟨0, hlo⟩
    · rcases hhi with hhi | hhi
      · rw [hhi]
        exact hbody
      · exact Or.inl ⟨10000, hhi⟩
  · obtain ⟨ht, _⟩ := parseMatchList_spec h
    exact ⟨hform, by simp [ht], by simp [ht], by simp [ht]⟩

/-- The loop over the match expressions numbers the checks and nothing else. -/
theorem processMatchexprsFrom_forall₂
    {prog : Program} {i : Nat} {mes : List MatchExpr} {checks : List Check}
    (h : processMatchexprsFrom prog i mes = .ok checks) :
    checks.map Check.id = List.range' i checks.length ∧
      List.Forall₂
        (fun me c => ∃ check j, parseMatch prog me = .ok check ∧ c = { check with id := j })
        mes checks := by
  induction mes generalizing i checks with
  | nil =>
      cases h
      exact ⟨rfl, List.Forall₂.nil⟩
  | cons me mes ih =>
      rw [processMatchexprsFrom] at h
      obtain ⟨check, hcheck, h⟩ := bind_eq_ok_iff.mp h
      obtain ⟨rest, hrest, h⟩ := bind_eq_ok_iff.mp h
      cases h
      obtain ⟨hids, hall⟩ := ih hrest
      refine ⟨?_, List.Forall₂.cons ⟨check, i, hcheck, rfl⟩ hall⟩
      simp [hids, List.range'_succ]

/-- The numbers of the checks are distinct. -/
theorem nodup_ids_processMatchexprs
    {prog : Program} {checks : List Check}
    (h : processMatchexprs prog = .ok checks) :
    (checks.map Check.id).Nodup := by
  rw [(processMatchexprsFrom_forall₂ h).1]
  exact List.nodup_range'

/-- Every check comes from a match expression of the program. -/
theorem exists_matchexpr_of_mem
    {prog : Program} {checks : List Check} {c : Check}
    (h : processMatchexprs prog = .ok checks)
    (hc : c ∈ checks) :
    ∃ me check j, me ∈ prog.matchexprV ∧ parseMatch prog me = .ok check ∧
      c = { check with id := j } := by
  have hall := (processMatchexprsFrom_forall₂ h).2
  have hmem : ∀ {mes : List MatchExpr} {cs : List Check},
      List.Forall₂
        (fun me c => ∃ check j, parseMatch prog me = .ok check ∧ c = { check with id := j })
        mes cs → c ∈ cs →
      ∃ me, me ∈ mes ∧
        ∃ check j, parseMatch prog me = .ok check ∧ c = { check with id := j } := by
    intro mes cs hrel
    induction hrel with
    | nil =>
        intro hc
        cases hc
    | cons hhead _ ih =>
        intro hc
        rcases List.mem_cons.mp hc with rfl | hc
        · exact ⟨_, by simp, hhead⟩
        · obtain ⟨me, hme, hrel⟩ := ih hc
          exact ⟨me, List.mem_cons_of_mem _ hme, hrel⟩
  obtain ⟨me, hme, check, j, hcheck, heq⟩ := hmem hall hc
  exact ⟨me, check, j, hme, hcheck, heq⟩

/-- The checks of any program have one of the two forms. -/
theorem processMatchexprs_form
    {prog : Program} {checks : List Check}
    (h : processMatchexprs prog = .ok checks) :
    ∀ c, c ∈ checks → CheckForm c := by
  intro c hc
  obtain ⟨me, check, j, _, hcheck, rfl⟩ := exists_matchexpr_of_mem h hc
  rcases parseMatch_form hcheck with ⟨ht, hm⟩ | ⟨ht, hp⟩
  · exact Or.inl ⟨ht, ⟨hm.fieldLen, hm.ifVal, hm.elseVal, hm.priority, hm.extra⟩⟩
  · exact Or.inr ⟨ht, ⟨hp.fieldLen, hp.value, hp.exactText, hp.smallTable, hp.listTable⟩⟩

/-- The checks of a parsed policy. -/
theorem processMatchexprs_parsed
    {prog : Program} {checks : List Check}
    (hprog : prog.WellFormed)
    (h : processMatchexprs prog.countHeaders = .ok checks) :
    ∀ c, c ∈ checks → ParsedCheck c := by
  intro c hc
  have hform := processMatchexprs_form h c hc
  obtain ⟨me, check, j, hme, hcheck, rfl⟩ := exists_matchexpr_of_mem h hc
  have hcounted : prog.countHeaders.WellFormed := ⟨hprog.bodies, hprog.monitors⟩
  have hparsed := parseMatch_parsed hcounted hme hcheck
  exact ⟨hform, hparsed.texts, hparsed.names, hparsed.extraTexts⟩

/-- What later stages use of the vector of checks of a parsed policy. -/
structure SourceChecks (checks : List Check) : Prop where
  parsed : ∀ c, c ∈ checks → ParsedCheck c
  ids : (checks.map Check.id).Nodup
  watched : ∀ c, c ∈ checks → ∀ d, d ∈ checks → c.type = .monitor → d.type = .monitor →
    c.monName = d.monName → c.header = d.header

/-- A monitor check is on a declared monitor and watches its header. -/
theorem header_of_monitor
    {prog : Program} {checks : List Check}
    (h : processMatchexprs prog = .ok checks)
    {c : Check}
    (hc : c ∈ checks)
    (htype : c.type = .monitor) :
    (prog.getMonByName c.monName).map (fun mon => mon.lp.listvar) = some c.header := by
  obtain ⟨me, check, j, _, hcheck, rfl⟩ := exists_matchexpr_of_mem h hc
  obtain ⟨mvar, bp, _, hcheck⟩ := parseMatch_monitor hcheck htype
  obtain ⟨_, _, hname, mon, hmon, hheader, _⟩ := parseMatchMon_spec hcheck
  simp only [hname, hmon, hheader, Option.map_some]

theorem processMatchexprs_source
    {prog : Program} {checks : List Check}
    (hprog : prog.WellFormed)
    (h : processMatchexprs prog.countHeaders = .ok checks) :
    SourceChecks checks := by
  refine ⟨processMatchexprs_parsed hprog h, nodup_ids_processMatchexprs h, ?_⟩
  intro c hc d hd hct hdt hname
  have hch := header_of_monitor h hc hct
  have hdh := header_of_monitor h hd hdt
  rw [hname, hdh] at hch
  exact (Option.some.inj hch).symm

namespace SourceChecks

variable {checks : List Check}

/-- The number of a check determines it. -/
theorem eq_of_id
    (hsrc : SourceChecks checks)
    {c d : Check}
    (hc : c ∈ checks)
    (hd : d ∈ checks)
    (hid : c.id = d.id) :
    c = d :=
  List.inj_on_of_nodup_map hsrc.ids hc hd hid

/-- The monitor checks. -/
theorem monitor
    (hsrc : SourceChecks checks)
    {c : Check}
    (hc : c ∈ checks)
    (htype : c.type = .monitor) :
    MonitorCheck c := by
  rcases (hsrc.parsed c hc).form with ⟨_, hmonitor⟩ | ⟨hnot, _⟩
  · exact hmonitor
  · exact absurd htype hnot

/-- The other checks. -/
theorem plain
    (hsrc : SourceChecks checks)
    {c : Check}
    (hc : c ∈ checks)
    (htype : c.type ≠ .monitor) :
    PlainCheck c := by
  rcases (hsrc.parsed c hc).form with ⟨hmonitor, _⟩ | ⟨_, hplain⟩
  · exact absurd hmonitor htype
  · exact hplain

theorem fieldLen
    (hsrc : SourceChecks checks)
    {c : Check}
    (hc : c ∈ checks) :
    c.fieldLen = 16 := by
  rcases (hsrc.parsed c hc).form with ⟨_, hmonitor⟩ | ⟨_, hplain⟩
  · exact hmonitor.fieldLen
  · exact hplain.fieldLen

end SourceChecks

end ParsedPolicies

end Poise
