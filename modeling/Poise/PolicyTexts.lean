import Poise.OptimizedChecks

/-!
# Poise compiler: the texts of a parsed policy

Names and expressions of a policy reach the generated program as text.  The
assertions of the grammar leave few characters for them: names are a letter and
digits, and the text of an arithmetic expression has names, numbers, blanks and the
four operators.

The stack of arithmetic expressions outlives a statement, so the texts on it are part
of the invariant of the parser.  The second half carries the invariant to the monitor
checks that code is generated for.
-/

namespace Poise

open Foundations

section PolicyTexts

/-- The characters of names and of natural numbers. -/
def isNameChar (x : Char) : Bool :=
  x.isDigit || x == 'h' || x == 'm'

/-- The characters of arithmetic expressions. -/
def isExprChar (x : Char) : Bool :=
  isNameChar x || x == ' ' || x == '+' || x == '-' || x == '*' || x == '%'

def NameText (t : String) : Prop :=
  t.toList ≠ [] ∧ ∀ x, x ∈ t.toList → isNameChar x = true

def ExprText (t : String) : Prop :=
  ∀ x, x ∈ t.toList → isExprChar x = true

theorem NameText.expr
    {t : String}
    (h : NameText t) :
    ExprText t := by
  intro x hx
  simp [isExprChar, h.2 x hx]

theorem ExprText.append
    {t u : String}
    (ht : ExprText t)
    (hu : ExprText u) :
    ExprText (t ++ u) := by
  intro x hx
  rw [String.toList_append] at hx
  rcases List.mem_append.mp hx with hx | hx
  · exact ht x hx
  · exact hu x hx

/-- A letter and digits behind it. -/
theorem nameText_of_digits
    {t : String} {a : Char} {ds : List Char}
    (ht : t.toList = a :: ds)
    (ha : isNameChar a = true)
    (hds : ds.all Char.isDigit = true) :
    NameText t := by
  rw [NameText, ht]
  refine ⟨List.cons_ne_nil a ds, ?_⟩
  intro x hx
  rcases List.mem_cons.mp hx with rfl | hx
  · exact ha
  · simp [isNameChar, List.all_eq_true.mp hds x hx]

theorem nameText_of_isHeaderName
    {t : String}
    (h : isHeaderName t = true) :
    NameText t := by
  rw [isHeaderName] at h
  split at h
  · rename_i ds ht
    exact nameText_of_digits ht rfl h
  · cases h

theorem nameText_of_isMonitorName
    {t : String}
    (h : isMonitorName t = true) :
    NameText t := by
  rw [isMonitorName] at h
  split at h
  · rename_i ds ht
    exact nameText_of_digits ht rfl h
  · cases h

theorem nameText_repr
    (n : Nat) :
    NameText n.repr := by
  constructor
  · rw [Nat.toList_repr]
    exact Nat.toDigits_ne_nil
  · intro x hx
    simp [isNameChar, isDigit_of_mem_repr hx]

theorem exprText_int
    (n : Int) :
    ExprText (toString n) := by
  cases n with
  | ofNat n =>
      exact (nameText_repr n).expr
  | negSucc n =>
      have hsign : ExprText "-" := by
        intro x hx
        rw [List.mem_singleton.mp hx]
        rfl
      exact hsign.append (nameText_repr (n + 1)).expr

theorem exprText_op
    (op : ArithOp) :
    ExprText op.text := by
  intro x hx
  cases op <;> rw [List.mem_singleton.mp hx] <;> rfl

theorem exprText_stringify
    {e : ArithExpr}
    (hlhs : ExprText e.lhsStr)
    (hop : ExprText e.op)
    (hrhs : ExprText e.rhs) :
    ExprText e.stringify := by
  have hblank : ExprText " " := by
    intro x hx
    rw [List.mem_singleton.mp hx]
    rfl
  exact (((hlhs.append hblank).append hop).append hblank).append hrhs

/-- The texts on the stack of arithmetic expressions. -/
def StackTexts (s : ParserState) : Prop :=
  ∀ e, e ∈ s.aeStack → ExprText e.stringify

theorem stackTexts_cons
    {e : ArithExpr} {rest : List ArithExpr}
    (he : ExprText e.stringify)
    (hrest : ∀ f, f ∈ rest → ExprText f.stringify) :
    ∀ f, f ∈ e :: rest → ExprText f.stringify := by
  intro f hf
  rcases List.mem_cons.mp hf with rfl | hf
  · exact he
  · exact hrest f hf

theorem ArithSyntax.act_stackTexts
    (a : ArithSyntax)
    {s s' : ParserState}
    (h : a.act s = .ok s')
    (hs : StackTexts s) :
    StackTexts s' := by
  have hempty : ExprText "" := by
    intro x hx
    cases hx
  induction a generalizing s s' with
  | varVar v op w =>
      obtain ⟨t, ht, h⟩ := bind_eq_ok_iff.mp h
      obtain ⟨hv, rfl⟩ := recordHeader_spec ht
      obtain ⟨hw, rfl⟩ := recordHeader_spec h
      exact stackTexts_cons (exprText_stringify (nameText_of_isHeaderName hv).expr
        (exprText_op op) (nameText_of_isHeaderName hw).expr) hs
  | arithVar a op w ih =>
      obtain ⟨t, ht, h⟩ := bind_eq_ok_iff.mp h
      have hstack := ih ht hs
      split at h
      · cases h
      · rename_i top rest htop
        rw [StackTexts, htop] at hstack
        obtain ⟨hw, rfl⟩ := recordHeader_spec h
        exact stackTexts_cons (exprText_stringify hempty (exprText_op op)
          (nameText_of_isHeaderName hw).expr) fun f hf => hstack f (List.mem_cons_of_mem top hf)
  | arithConst a op n ih =>
      obtain ⟨t, ht, h⟩ := bind_eq_ok_iff.mp h
      have hstack := ih ht hs
      split at h
      · cases h
      · rename_i top rest htop
        rw [StackTexts, htop] at hstack
        cases h
        exact stackTexts_cons (exprText_stringify hempty (exprText_op op) (exprText_int n))
          fun f hf => hstack f (List.mem_cons_of_mem top hf)
  | const n =>
      cases h
      exact hs

theorem mkBinaryPred_lhs
    {s : ParserState} {lhs rhs : String} {bp : BinaryPred}
    (h : mkBinaryPred s lhs rhs = .ok bp) :
    bp.lhs = lhs := by
  unfold mkBinaryPred at h
  split at h
  · cases h
    rfl
  · cases h

mutual

/-- A comparison leaves a predicate whose left side is a name or an arithmetic expression. -/
theorem BinaryExpr.act_texts :
    ∀ (e : BinaryExpr) {s s' : ParserState},
      e.act s = .ok s' → StackTexts s →
        StackTexts s' ∧ ∃ bp, s'.bp = some bp ∧ ExprText bp.lhs
  | .varConst v op n, s, s', h, hs => by
      rw [BinaryExpr.act] at h
      obtain ⟨t, ht, h⟩ := bind_eq_ok_iff.mp h
      obtain ⟨bp, hbp, h⟩ := bind_eq_ok_iff.mp h
      obtain ⟨u, hu, h⟩ := bind_eq_ok_iff.mp h
      cases h
      have hstack := BinaryOp.act_texts op ht hs
      refine ⟨hstack, bp, rfl, ?_⟩
      rw [mkBinaryPred_lhs hbp]
      rcases Bool.or_eq_true_iff.mp (require_eq_ok hu) with hv | hv
      · exact (nameText_of_isHeaderName hv).expr
      · exact (nameText_of_isMonitorName hv).expr
  | .varVar v op w, s, s', h, hs => by
      rw [BinaryExpr.act] at h
      obtain ⟨t, ht, h⟩ := bind_eq_ok_iff.mp h
      obtain ⟨bp, hbp, h⟩ := bind_eq_ok_iff.mp h
      obtain ⟨t₁, ht₁, h⟩ := bind_eq_ok_iff.mp h
      obtain ⟨hv, rfl⟩ := recordHeader_spec ht₁
      obtain ⟨_, rfl⟩ := recordHeader_spec h
      have hstack := BinaryOp.act_texts op ht hs
      refine ⟨hstack, bp, rfl, ?_⟩
      rw [mkBinaryPred_lhs hbp]
      exact (nameText_of_isHeaderName hv).expr
  | .arithConst a op n, s, s', h, hs => by
      rw [BinaryExpr.act] at h
      obtain ⟨t, ht, h⟩ := bind_eq_ok_iff.mp h
      obtain ⟨t₁, ht₁, h⟩ := bind_eq_ok_iff.mp h
      have hstack := BinaryOp.act_texts op ht₁ (ArithSyntax.act_stackTexts a ht hs)
      split at h
      · cases h
      · rename_i ae rest htop
        rw [StackTexts, htop] at hstack
        obtain ⟨bp, hbp, h⟩ := bind_eq_ok_iff.mp h
        cases h
        refine ⟨fun f hf => hstack f (List.mem_cons_of_mem ae hf), bp, rfl, ?_⟩
        rw [mkBinaryPred_lhs hbp]
        exact hstack ae List.mem_cons_self

theorem BinaryOp.act_texts :
    ∀ (o : BinaryOp) {s s' : ParserState},
      o.act s = .ok s' → StackTexts s → StackTexts s'
  | .op o, s, s', h, hs => by
      rw [BinaryOp.act] at h
      cases h
      exact hs
  | .boolop left right, s, s', h, hs => by
      rw [BinaryOp.act] at h
      obtain ⟨t, ht, h⟩ := bind_eq_ok_iff.mp h
      exact (BinaryExpr.act_texts right h (BinaryExpr.act_texts left ht hs).1).1

end

/-- The left side of the extra condition of a match on a monitor. -/
def MatchBody.ExtraText : MatchBody → Prop
  | .monitor _ (some bp) => ExprText bp.lhs
  | _ => True

/-- The texts that the parser keeps. -/
structure ParserTexts (s : ParserState) : Prop where
  stack : StackTexts s
  bodies : ∀ me, me ∈ s.prog.matchexprV → me.body.ExtraText

theorem MatchSyntax.act_texts
    {m : MatchSyntax} {s s' : ParserState}
    (h : m.act s = .ok s')
    (hs : ParserTexts s) :
    ParserTexts s' := by
  cases m with
  | pred e =>
      obtain ⟨t, ht, h⟩ := bind_eq_ok_iff.mp h
      obtain ⟨hframe, _⟩ := BinaryExpr.act_spec e ht
      obtain ⟨hstack, bp, hbp, _⟩ := BinaryExpr.act_texts e ht hs.stack
      rw [hbp] at h
      cases h
      exact ⟨hstack, forall_mem_addMatchexpr (by rw [hframe.matchexprs]; exact hs.bodies) trivial⟩
  | list e =>
      obtain ⟨t, ht, h⟩ := bind_eq_ok_iff.mp h
      obtain ⟨_, rfl⟩ := recordHeader_spec ht
      cases h
      exact ⟨hs.stack, forall_mem_addMatchexpr hs.bodies trivial⟩
  | monitor v =>
      obtain ⟨u, _, h⟩ := bind_eq_ok_iff.mp h
      cases h
      exact ⟨hs.stack, forall_mem_addMatchexpr hs.bodies trivial⟩
  | monitorAnd v e =>
      obtain ⟨t, ht, h⟩ := bind_eq_ok_iff.mp h
      obtain ⟨hframe, _⟩ := BinaryExpr.act_spec e ht
      obtain ⟨hstack, bp, hbp, hlhs⟩ := BinaryExpr.act_texts e ht hs.stack
      rw [hbp] at h
      obtain ⟨u, _, h⟩ := bind_eq_ok_iff.mp h
      cases h
      exact ⟨hstack, forall_mem_addMatchexpr (by rw [hframe.matchexprs]; exact hs.bodies) hlhs⟩

theorem setBranchActions_texts
    {s s' : ParserState}
    (h : setBranchActions s = .ok s')
    (hs : ParserTexts s) :
    ParserTexts s' := by
  obtain ⟨hbodies, _, hstack⟩ := setBranchActions_bodies h hs.bodies
  refine ⟨?_, hbodies⟩
  rw [StackTexts, hstack]
  exact hs.stack

theorem Statement.act_texts
    (st : Statement)
    {s s' : ParserState}
    (h : st.act s = .ok s')
    (hs : ParserTexts s) :
    ParserTexts s' := by
  induction st generalizing s s' with
  | ifThen m a =>
      obtain ⟨t, ht, h⟩ := bind_eq_ok_iff.mp h
      cases h
      obtain ⟨hstack, hbodies⟩ := MatchSyntax.act_texts ht hs
      exact ⟨hstack, hbodies⟩
  | ifThenElse m a b =>
      obtain ⟨t, ht, h⟩ := bind_eq_ok_iff.mp h
      obtain ⟨hstack, hbodies⟩ := MatchSyntax.act_texts ht hs
      exact setBranchActions_texts h ⟨hstack, hbodies⟩
  | ifNested m st ih =>
      obtain ⟨t, ht, h⟩ := bind_eq_ok_iff.mp h
      exact ih h (MatchSyntax.act_texts ht hs)
  | count v e =>
      obtain ⟨t, ht, h⟩ := bind_eq_ok_iff.mp h
      cases h
  | monitor v e =>
      obtain ⟨t, ht, h⟩ := bind_eq_ok_iff.mp h
      obtain ⟨_, rfl⟩ := recordHeader_spec ht
      obtain ⟨u, _, h⟩ := bind_eq_ok_iff.mp h
      cases h
      exact ⟨hs.stack, hs.bodies⟩
  | defList l first rest =>
      cases h
      exact ⟨hs.stack, hs.bodies⟩

theorem parsePolicy_texts
    {policy : List Statement} {prog : Program}
    (h : parsePolicy policy = .ok prog) :
    ∀ me, me ∈ prog.matchexprV → me.body.ExtraText := by
  obtain ⟨s, hs, h⟩ := bind_eq_ok_iff.mp h
  cases h
  have hempty : ParserTexts {} := ⟨by simp [StackTexts], by simp⟩
  exact (runStatements_keeps (fun st _ _ => Statement.act_texts st) hs hempty).bodies

/-- The texts of a monitor check that the generated program contains. -/
structure MonitorTexts (c : Check) : Prop where
  monName : NameText c.monName
  header : NameText c.header
  extras : ∀ h, h ∈ c.extraHeader → ExprText h

/-- The monitor checks of a parsed policy. -/
theorem processMatchexprs_texts
    {policy : List Statement} {prog : Program} {checks : List Check} {c : Check}
    (hparse : parsePolicy policy = .ok prog)
    (hchecks : processMatchexprs prog.countHeaders = .ok checks)
    (hc : c ∈ checks)
    (htype : c.type = .monitor) :
    MonitorTexts c := by
  have hparsed := processMatchexprs_parsed (parsePolicy_wellFormed hparse) hchecks c hc
  obtain ⟨hmon, hheader⟩ := hparsed.names htype
  refine ⟨nameText_of_isMonitorName hmon, nameText_of_isHeaderName hheader, ?_⟩
  obtain ⟨me, check, j, hme, hcheck, rfl⟩ := exists_matchexpr_of_mem hchecks hc
  have hbody := parsePolicy_texts hparse me hme
  obtain ⟨mvar, bp, hmatch, hcheck⟩ := parseMatch_monitor hcheck htype
  rw [hmatch] at hbody
  obtain ⟨_, hform, _, mon, _, _, hvals⟩ := parseMatchMon_spec hcheck
  intro h hh
  rcases hform.extra with ⟨_, hnone, _⟩ | ⟨k, v, _, hone, hval⟩
  · simp only [hnone] at hh
    cases hh
  · simp only [hone, List.mem_singleton] at hh
    subst hh
    cases bp with
    | none =>
        rw [hval] at hvals
        cases hvals
    | some bp =>
        rw [hval] at hvals
        cases hvals
        exact hbody

/-- The monitor checks that code is generated for. -/
theorem Compiled.monitorTexts
    {S : UnstableSort Check Check.priority} {policy : List Statement} {prog : Program}
    {code : PolicyCode} {optimized placed : List Check} {tables : List TableDef}
    (hparse : parsePolicy policy = .ok prog)
    (hcomp : Compiled S prog code optimized placed tables) :
    ∀ c, c ∈ placed.map nameTable → c.type = .monitor → MonitorTexts c := by
  refine hcomp.forall_placed (P := fun c => c.type = .monitor → MonitorTexts c) ?_ ?_
  · intro c
    constructor
    · intro h htype
      obtain ⟨hmon, hheader, hextras⟩ := h htype
      exact ⟨hmon, hheader, hextras⟩
    · intro h htype
      obtain ⟨hmon, hheader, hextras⟩ := h htype
      exact ⟨hmon, hheader, hextras⟩
  · intro c hc htype
    obtain ⟨checks, marked, hchecks, _, _⟩ := optimizedChecks_eq_ok hcomp.checks
    have hfrom := optimizedChecks_from hchecks hcomp.checks
    have hsrc := processMatchexprs_source (parsePolicy_wellFormed hparse) hchecks
    obtain ⟨first, rest, hgroup, hfold⟩ := hfrom.folded hsrc hc htype
    have htexts : ∀ d, d ∈ first :: rest → MonitorTexts d := by
      intro d hd
      rw [← hgroup] at hd
      obtain ⟨hmem, hdt, _⟩ := mem_monitorGroup.mp hd
      exact processMatchexprs_texts hparse hchecks hmem hdt
    have hfirst := htexts first List.mem_cons_self
    refine ⟨?_, ?_, ?_⟩
    · rw [hfold.monName]
      exact hfirst.monName
    · rw [hfold.header]
      exact hfirst.header
    · intro h hh
      rw [hfold.extraHeader] at hh
      obtain ⟨d, hd, hin⟩ := List.mem_flatMap.mp hh
      exact (htexts d hd).extras h hin

end PolicyTexts

end Poise
