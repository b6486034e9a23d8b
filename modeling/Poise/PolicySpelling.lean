import Poise.PolicyGrammar

/-!
# Poise compiler: the spellings and the actions of policies

The tokens a derivation tree stands for, the actions the rules of the grammar
run for it, and the room its derivation needs on the stack of the parser.  The
actions of the rules agree with the actions of the tree: the operator of an
arithmetic expression is the one reduced last, and the items of a list are
collected for that list alone.
-/

namespace Poise

open Foundations

section PolicySpelling

/-- The tokens of an arithmetic expression. -/
def ArithSyntax.tokens : ArithSyntax → List Token
  | .varVar v op w => [.var v, .arith op, .var w]
  | .arithVar a op w => a.tokens ++ [.arith op, .var w]
  | .arithConst a op c => a.tokens ++ [.arith op, .const c]
  | .const c => [.const c]

mutual

/-- The tokens spell a comparison. -/
def BinaryExpr.Spelled : BinaryExpr → List Token → Prop
  | .varConst v op c, w => ∃ u, op.Spelled u ∧ w = .var v :: (u ++ [.const c])
  | .varVar v op x, w => ∃ u, op.Spelled u ∧ w = .var v :: (u ++ [.var x])
  | .arithConst a op c, w => ∃ u, op.Spelled u ∧ w = a.tokens ++ (u ++ [.const c])

/-- The tokens spell an operator; between two comparisons stands any Boolean operator. -/
def BinaryOp.Spelled : BinaryOp → List Token → Prop
  | .op o, w => w = [.compare o]
  | .boolop left right, w =>
      ∃ u b v, left.Spelled u ∧ right.Spelled v ∧ w = u ++ .bool b :: v

end

/-- The tokens of a test on list membership. -/
def ListExprSyntax.tokens (e : ListExprSyntax) : List Token :=
  [.var e.var, .member e.op, .listvar e.listvar]

/-- The tokens spell a match expression. -/
def MatchSyntax.Spelled : MatchSyntax → List Token → Prop
  | .pred e, w => ∃ u, e.Spelled u ∧ w = .kwMatch :: .lp :: (u ++ [.rp])
  | .list e, w => w = .kwMatch :: .lp :: (e.tokens ++ [.rp])
  | .monitor v, w => w = [.kwMatch, .lp, .var v, .rp]
  | .monitorAnd v e, w =>
      ∃ u, e.Spelled u ∧ w = .kwMatch :: .lp :: .var v :: .bool .and :: (u ++ [.rp])

/-- The tokens spell a statement. -/
def Statement.Spelled : Statement → List Token → Prop
  | .ifThen m a, w => ∃ u, m.Spelled u ∧ w = .kwIf :: (u ++ [.kwThen, .action a])
  | .ifThenElse m a b, w =>
      ∃ u, m.Spelled u ∧ w = .kwIf :: (u ++ [.kwThen, .action a, .kwElse, .action b])
  | .ifNested m s, w =>
      ∃ u v, m.Spelled u ∧ s.Spelled v ∧ w = .kwIf :: (u ++ .kwThen :: v)
  | .count v e, w => w = .var v :: .assign :: .kwCount :: .lp :: (e.tokens ++ [.rp])
  | .monitor v e, w => w = .var v :: .assign :: .kwMonitor :: .lp :: (e.tokens ++ [.rp])
  | .defList l c cs, w =>
      w = .kwDef :: .listvar l :: .assign :: .lb :: ((c :: cs).map Token.const ++ [.rb])

/-- The tokens spell a sequence of statements. -/
def policySpelled : List Statement → List Token → Prop
  | [], w => w = []
  | s :: ss, w => ∃ u v, s.Spelled u ∧ policySpelled ss v ∧ w = u ++ v

/-- The tokens spell a phrase. -/
def Phrase.Spelled : Phrase → List Token → Prop
  | .token t, w => w = [t]
  | .poise s ss, w => policySpelled (s :: ss) w
  | .statements s ss, w => policySpelled (s :: ss) w
  | .matchexpr m, w => m.Spelled w
  | .statement s, w => s.Spelled w
  | .listbody c cs, w => w = .lb :: ((c :: cs).map Token.const ++ [.rb])
  | .listcontent c cs, w => w = (c :: cs).map Token.const
  | .action a, w => w = [.action a]
  | .listexpr e, w => w = e.tokens
  | .binaryexpr e, w => e.Spelled w
  | .arithexpr a, w => w = a.tokens
  | .arithop o, w => w = [.arith o]
  | .binaryop o, w => o.Spelled w
  | .boolop b, w => w = [.bool b]

/-- The tokens spell phrases one after the other. -/
def spelledAll : List Phrase → List Token → Prop
  | [], w => w = []
  | p :: ps, w => ∃ u v, p.Spelled u ∧ spelledAll ps v ∧ w = u ++ v

@[simp] theorem spelledAll_nil
    {w : List Token} :
    spelledAll [] w ↔ w = [] :=
  Iff.rfl

@[simp] theorem spelledAll_token
    {t : Token} {ps : List Phrase} {w : List Token} :
    spelledAll (.token t :: ps) w ↔ ∃ v, spelledAll ps v ∧ w = t :: v := by
  simp [spelledAll, Phrase.Spelled]

theorem policySpelled_snoc
    {ss : List Statement} {t : Statement} {w : List Token} :
    policySpelled (ss ++ [t]) w ↔
      ∃ u v, policySpelled ss u ∧ t.Spelled v ∧ w = u ++ v := by
  induction ss generalizing w with
  | nil =>
      simp [policySpelled]
  | cons s ss ih =>
      simp only [List.cons_append, policySpelled, ih]
      constructor
      · rintro ⟨x, _, hx, ⟨u, v, hu, hv, rfl⟩, rfl⟩
        exact ⟨x ++ u, v, ⟨x, u, hx, hu, rfl⟩, hv, (List.append_assoc _ _ _).symm⟩
      · rintro ⟨_, v, ⟨x, u, hx, hu, rfl⟩, hv, rfl⟩
        exact ⟨x, u ++ v, hx, ⟨u, v, hu, hv, rfl⟩, List.append_assoc _ _ _⟩

/-- A phrase is spelled by what spells the phrases it is made of. -/
theorem Produces.spelled
    {r : Rule} {ps : List Phrase} {p : Phrase} {w : List Token}
    (h : Produces r ps p)
    (hw : spelledAll ps w) :
    p.Spelled w := by
  cases h with
  | poise | statementsOne =>
      simpa [spelledAll, Phrase.Spelled, policySpelled] using hw
  | statementsMore =>
      obtain ⟨u, _, hu, ⟨v, _, hv, rfl, rfl⟩, rfl⟩ := hw
      rw [List.append_nil]
      exact policySpelled_snoc.mpr ⟨u, v, hu, hv, rfl⟩
  | matchBinary | matchMonitorAnd | matchList | matchMonitor =>
      simpa [spelledAll, Phrase.Spelled, MatchSyntax.Spelled] using hw
  | ifThen | ifThenElse | count | monitor | defList =>
      simpa [spelledAll, Phrase.Spelled, Statement.Spelled] using hw
  | ifNested =>
      simp only [spelledAll, Phrase.Spelled] at hw
      obtain ⟨_, _, rfl, ⟨u, _, hu, ⟨_, _, rfl, ⟨v, _, hv, rfl, rfl⟩, rfl⟩, rfl⟩, rfl⟩ := hw
      exact ⟨u, v, hu, hv, by simp⟩
  | listbody | listcontentOne | listcontentMore | action | arithop | boolop =>
      simpa [spelledAll, Phrase.Spelled] using hw
  | listexpr =>
      simpa [spelledAll, Phrase.Spelled, ListExprSyntax.tokens] using hw
  | binaryVarConst | binaryVarVar | binaryArithConst =>
      simpa [spelledAll, Phrase.Spelled, BinaryExpr.Spelled] using hw
  | arithVarVar | arithVar | arithConst | arithLeaf =>
      simpa [spelledAll, Phrase.Spelled, ArithSyntax.tokens] using hw
  | binaryop =>
      simpa [spelledAll, Phrase.Spelled, BinaryOp.Spelled] using hw
  | @binaryopBool _ _ b =>
      obtain ⟨u, _, hu, ⟨_, _, rfl, ⟨v, _, hv, rfl, rfl⟩, rfl⟩, rfl⟩ := hw
      exact ⟨u, b, v, hu, hv, by simp⟩

/-- What is derived spells its phrases. -/
theorem spelledAll_of_derives
    {ps : List Phrase} {w : List Token}
    (h : DerivesAll Phrase.token Produces ps w) :
    spelledAll ps w := by
  induction h with
  | nil =>
      rfl
  | token t _ ih =>
      exact ⟨[t], _, rfl, ih, rfl⟩
  | node _ hp _ ihq ih =>
      exact ⟨_, _, hp.spelled ihq, ih, rfl⟩

theorem ArithSyntax.derives
    (a : ArithSyntax) :
    DerivesAll Phrase.token Produces [.arithexpr a] a.tokens := by
  induction a with
  | varVar v op w =>
      exact .make (.token _ (.node (.leaf _) .arithop (.leaf _))) .arithVarVar
  | arithVar a op w ih =>
      exact .make (ih.append (.node (.leaf _) .arithop (.leaf _))) .arithVar
  | arithConst a op c ih =>
      exact .make (ih.append (.node (.leaf _) .arithop (.leaf _))) .arithConst
  | const c =>
      exact .make (.leaf _) .arithLeaf

mutual

theorem BinaryExpr.derives
    (e : BinaryExpr)
    {w : List Token}
    (h : e.Spelled w) :
    DerivesAll Phrase.token Produces [.binaryexpr e] w := by
  cases e with
  | varConst v op c =>
      obtain ⟨u, hu, rfl⟩ := h
      exact .make (.token _ ((op.derives hu).append (.leaf _))) .binaryVarConst
  | varVar v op x =>
      obtain ⟨u, hu, rfl⟩ := h
      exact .make (.token _ ((op.derives hu).append (.leaf _))) .binaryVarVar
  | arithConst a op c =>
      obtain ⟨u, hu, rfl⟩ := h
      exact .make (a.derives.append ((op.derives hu).append (.leaf _))) .binaryArithConst

theorem BinaryOp.derives
    (o : BinaryOp)
    {w : List Token}
    (h : o.Spelled w) :
    DerivesAll Phrase.token Produces [.binaryop o] w := by
  cases o with
  | op o =>
      cases h
      exact .make (.leaf _) .binaryop
  | boolop left right =>
      obtain ⟨u, b, v, hu, hv, rfl⟩ := h
      exact .make ((left.derives hu).append (.node (.leaf _) .boolop (right.derives hv)))
        .binaryopBool

end

theorem ListExprSyntax.derives
    (e : ListExprSyntax) :
    DerivesAll Phrase.token Produces [.listexpr e] e.tokens :=
  .make (.token _ (.token _ (.leaf _))) .listexpr

theorem MatchSyntax.derives
    (m : MatchSyntax)
    {w : List Token}
    (h : m.Spelled w) :
    DerivesAll Phrase.token Produces [.matchexpr m] w := by
  cases m with
  | pred e =>
      obtain ⟨u, hu, rfl⟩ := h
      exact .make (.token _ (.token _ ((e.derives hu).append (.leaf _)))) .matchBinary
  | list e =>
      cases h
      exact .make (.token _ (.token _ (e.derives.append (.leaf _)))) .matchList
  | monitor v =>
      cases h
      exact .make (.token _ (.token _ (.token _ (.leaf _)))) .matchMonitor
  | monitorAnd v e =>
      obtain ⟨u, hu, rfl⟩ := h
      exact .make (.token _ (.token _ (.token _ (.token _ ((e.derives hu).append (.leaf _))))))
        .matchMonitorAnd

theorem listcontent_derives
    (c : Int)
    (cs : List Int) :
    DerivesAll Phrase.token Produces [.listcontent c cs] ((c :: cs).map Token.const) := by
  induction cs using List.reverseRecOn with
  | nil =>
      exact .make (.leaf _) .listcontentOne
  | append_singleton cs d ih =>
      rw [← List.cons_append, List.map_append]
      exact .make (ih.append (.leaf _)) .listcontentMore

theorem listbody_derives
    (c : Int)
    (cs : List Int) :
    DerivesAll Phrase.token Produces [.listbody c cs]
      (.lb :: ((c :: cs).map Token.const ++ [.rb])) :=
  .make (.token _ ((listcontent_derives c cs).append (.leaf _))) .listbody

theorem action_derives
    (a : PolicyAction) :
    DerivesAll Phrase.token Produces [.action a] [.action a] :=
  .make (.leaf _) .action

theorem Statement.derives
    (s : Statement)
    {w : List Token}
    (h : s.Spelled w) :
    DerivesAll Phrase.token Produces [.statement s] w := by
  induction s generalizing w with
  | ifThen m a =>
      obtain ⟨u, hu, rfl⟩ := h
      exact .make (.token _ ((m.derives hu).append (.token _ (action_derives a)))) .ifThen
  | ifThenElse m a b =>
      obtain ⟨u, hu, rfl⟩ := h
      refine .make (.token _ ((m.derives hu).append (.token _ ?_))) .ifThenElse
      exact (action_derives a).append (.token _ (action_derives b))
  | ifNested m s ih =>
      obtain ⟨u, v, hu, hv, rfl⟩ := h
      exact .make (.token _ ((m.derives hu).append (.token _ (ih hv)))) .ifNested
  | count v e =>
      cases h
      exact .make (.token _ (.token _ (.token _ (.token _ (e.derives.append (.leaf _)))))) .count
  | monitor v e =>
      cases h
      exact .make (.token _ (.token _ (.token _ (.token _ (e.derives.append (.leaf _))))))
        .monitor
  | defList l c cs =>
      cases h
      exact .make (.token _ (.token _ (.token _ (listbody_derives c cs)))) .defList

theorem statements_derives
    {s : Statement} {ss : List Statement} {w : List Token}
    (h : policySpelled (s :: ss) w) :
    DerivesAll Phrase.token Produces [.statements s ss] w := by
  induction ss using List.reverseRecOn generalizing w with
  | nil =>
      obtain ⟨u, _, hu, rfl, rfl⟩ := h
      rw [List.append_nil]
      exact .make (s.derives hu) .statementsOne
  | append_singleton ss t ih =>
      rw [← List.cons_append, policySpelled_snoc] at h
      obtain ⟨u, v, hu, hv, rfl⟩ := h
      exact .make ((ih hu).append (t.derives hv)) .statementsMore

/-- The grammar derives a policy from the tokens that spell it. -/
theorem poise_derives_iff
    {s : Statement} {ss : List Statement} {w : List Token} :
    DerivesAll Phrase.token Produces [.poise s ss] w ↔ policySpelled (s :: ss) w := by
  constructor
  · intro h
    obtain ⟨u, _, hu, rfl, rfl⟩ := spelledAll_of_derives h
    rwa [List.append_nil]
  · intro h
    exact .make (statements_derives h) .poise

/-- The value of the first token of an arithmetic expression. -/
def ArithSyntax.value : ArithSyntax → YyStype
  | .varVar v _ _ => .sval v
  | .arithVar a _ _ => a.value
  | .arithConst a _ _ => a.value
  | .const c => .ival c

mutual

/-- The value of the first token of a comparison. -/
def BinaryExpr.value : BinaryExpr → YyStype
  | .varConst v _ _ => .sval v
  | .varVar v _ _ => .sval v
  | .arithConst a _ _ => a.value

/-- The value of the first token of an operator. -/
def BinaryOp.value : BinaryOp → YyStype
  | .op _ => .unset
  | .boolop left _ => left.value

end

/-- The value of the first token of a statement. -/
def Statement.value : Statement → YyStype
  | .count v _ => .sval v
  | .monitor v _ => .sval v
  | _ => .unset

/-- The value of a phrase on the stack. -/
def Phrase.value : Phrase → YyStype
  | .token t => t.value
  | .poise s _ => s.value
  | .statements s _ => s.value
  | .matchexpr _ => .unset
  | .statement s => s.value
  | .listbody _ _ => .unset
  | .listcontent c _ => .ival c
  | .action _ => .unset
  | .listexpr e => .sval e.var
  | .binaryexpr e => e.value
  | .arithexpr a => a.value
  | .arithop _ => .unset
  | .binaryop o => o.value
  | .boolop _ => .unset

theorem Produces.value
    {r : Rule} {ps : List Phrase} {p : Phrase}
    (h : Produces r ps p) :
    p.value = (ps.map Phrase.value).headD .unset := by
  cases h <;>
    simp [Phrase.value, Token.value, ArithSyntax.value, BinaryExpr.value, BinaryOp.value,
      Statement.value]

/-- The reductions of an arithmetic expression. -/
def ArithSyntax.reduce : ArithSyntax → YyState → Except Failure YyState
  | .varVar v op w, s =>
      Rule.arithVarVar.semantic [.sval v, .unset, .sval w] { s with ao := op.text }
  | .arithVar a op w, s => do
      let s ← a.reduce s
      Rule.arithVar.semantic [a.value, .unset, .sval w] { s with ao := op.text }
  | .arithConst a op c, s => do
      let s ← a.reduce s
      Rule.arithConst.semantic [a.value, .unset, .ival c] { s with ao := op.text }
  | .const _, s => .ok s

mutual

/-- The reductions of a comparison. -/
def BinaryExpr.reduce : BinaryExpr → YyState → Except Failure YyState
  | .varConst v op c, s => do
      let s ← op.reduce s
      Rule.binaryVarConst.semantic [.sval v, op.value, .ival c] s
  | .varVar v op w, s => do
      let s ← op.reduce s
      Rule.binaryVarVar.semantic [.sval v, op.value, .sval w] s
  | .arithConst a op c, s => do
      let s ← a.reduce s
      let s ← op.reduce s
      Rule.binaryArithConst.semantic [a.value, op.value, .ival c] s

/-- The reductions of an operator. -/
def BinaryOp.reduce : BinaryOp → YyState → Except Failure YyState
  | .op o, s => (Rule.binaryop o).semantic [.unset] s
  | .boolop left right, s => do
      let s ← left.reduce s
      right.reduce s

end

/-- The reduction of a test on list membership. -/
def ListExprSyntax.reduce (e : ListExprSyntax) (s : YyState) : Except Failure YyState :=
  (Rule.listexpr e.op).semantic [.sval e.var, .unset, .sval e.listvar] s

/-- The reductions of a match expression. -/
def MatchSyntax.reduce : MatchSyntax → YyState → Except Failure YyState
  | .pred e, s => do
      let s ← e.reduce s
      Rule.matchBinary.semantic [.unset, .unset, e.value, .unset] s
  | .list e, s => do
      let s ← e.reduce s
      Rule.matchList.semantic [.unset, .unset, .sval e.var, .unset] s
  | .monitor v, s => Rule.matchMonitor.semantic [.unset, .unset, .sval v, .unset] s
  | .monitorAnd v e, s => do
      let s ← e.reduce s
      Rule.matchMonitorAnd.semantic [.unset, .unset, .sval v, .unset, e.value, .unset] s

/-- The reductions of a statement. -/
def Statement.reduce : Statement → YyState → Except Failure YyState
  | .ifThen m a, s => do
      let s ← m.reduce s
      (Rule.action a).semantic [.unset] s
  | .ifThenElse m a b, s => do
      let s ← m.reduce s
      let s ← (Rule.action a).semantic [.unset] s
      let s ← (Rule.action b).semantic [.unset] s
      Rule.ifThenElse.semantic [.unset, .unset, .unset, .unset, .unset, .unset] s
  | .ifNested m t, s => do
      let s ← m.reduce s
      t.reduce s
  | .count v e, s => do
      let s ← e.reduce s
      Rule.count.semantic [.sval v, .unset, .unset, .unset, .sval e.var, .unset] s
  | .monitor v e, s => do
      let s ← e.reduce s
      Rule.monitor.semantic [.sval v, .unset, .unset, .unset, .sval e.var, .unset] s
  | .defList l c cs, s =>
      Rule.defList.semantic [.unset, .sval l, .unset, .unset]
        { s with listItems := s.listItems ++ c :: cs }

/-- The reductions of a sequence of statements. -/
def policyReduce : List Statement → YyState → Except Failure YyState
  | [], s => .ok s
  | t :: ts, s => do
      let s ← t.reduce s
      policyReduce ts s

/-- The reductions of a phrase. -/
def Phrase.act : Phrase → YyState → Except Failure YyState
  | .token _, s => .ok s
  | .poise t ts, s => policyReduce (t :: ts) s
  | .statements t ts, s => policyReduce (t :: ts) s
  | .matchexpr m, s => m.reduce s
  | .statement t, s => t.reduce s
  | .listbody c cs, s => .ok { s with listItems := s.listItems ++ c :: cs }
  | .listcontent c cs, s => .ok { s with listItems := s.listItems ++ c :: cs }
  | .action a, s => (Rule.action a).semantic [.unset] s
  | .listexpr e, s => e.reduce s
  | .binaryexpr e, s => e.reduce s
  | .arithexpr a, s => a.reduce s
  | .arithop o, s => (Rule.arithop o).semantic [.unset] s
  | .binaryop o, s => o.reduce s
  | .boolop b, s => (Rule.boolop b).semantic [.unset] s

theorem policyReduce_append
    (ss ts : List Statement)
    (s : YyState) :
    policyReduce (ss ++ ts) s = policyReduce ss s >>= policyReduce ts := by
  induction ss generalizing s with
  | nil =>
      rfl
  | cons t ss ih =>
      simp only [List.cons_append, policyReduce, bind_assoc, ih]

theorem bind_ok_self
    (x : Except Failure YyState) :
    x >>= Except.ok = x := by
  cases x <;> rfl

/-- A rule runs the actions of its right side and then its own. -/
theorem Produces.act
    {r : Rule} {ps : List Phrase} {p : Phrase}
    (h : Produces r ps p)
    (s : YyState) :
    p.act s = actAll Phrase.act ps s >>= r.semantic (ps.map Phrase.value) := by
  -- A rule without an action of its own has `Except.ok` as its action.
  cases h with
  | @poise t ts =>
      have hrule : Rule.poise.semantic [t.value] = Except.ok := rfl
      simp only [List.map_cons, List.map_nil, Phrase.value, hrule, bind_ok_self]
      exact (bind_ok_self (policyReduce (t :: ts) s)).symm
  | @statementsMore t t' ts =>
      have hrule : Rule.statementsMore.semantic [t.value, t'.value] = Except.ok := rfl
      have happ : t :: (ts ++ [t']) = (t :: ts) ++ [t'] := rfl
      simp only [List.map_cons, List.map_nil, Phrase.value, hrule, bind_ok_self, Phrase.act,
        happ, policyReduce_append]
      rfl
  | @ifNested m t =>
      have hrule : Rule.ifNested.semantic [.unset, .unset, .unset, t.value] = Except.ok := rfl
      simp only [List.map_cons, List.map_nil, Phrase.value, Token.value, hrule, bind_ok_self]
      exact congrArg (m.reduce s >>= ·) (funext fun s' => (bind_ok_self (t.reduce s')).symm)
  | listcontentMore =>
      simp [actAll, Phrase.act, Rule.semantic, dollarNum, Phrase.value, Token.value, bind,
        Except.bind]
  | @binaryopBool e f b =>
      have hrule : Rule.binaryopBool.semantic [e.value, .unset, f.value] = Except.ok := rfl
      simp only [List.map_cons, List.map_nil, Phrase.value, hrule, bind_ok_self]
      rw [Phrase.act, BinaryOp.reduce]
      exact congrArg (e.reduce s >>= ·) (funext fun s' => (bind_ok_self (f.reduce s')).symm)
  | _ =>
      simp only [actAll, bind_assoc, Phrase.act, List.map_cons, List.map_nil, Phrase.value]
      rfl

/-- The reductions end as the actions of the tree do, with the same list being read. -/
inductive Agrees (items : List Int) :
    Except Failure YyState → Except Failure ParserState → Prop
  | ok {s : YyState} : s.listItems = items → Agrees items (.ok s) (.ok s.toParserState)
  | error (e : Failure) : Agrees items (.error e) (.error e)

theorem Agrees.bind
    {items : List Int} {x : Except Failure YyState} {y : Except Failure ParserState}
    {f : YyState → Except Failure YyState} {g : ParserState → Except Failure ParserState}
    (h : Agrees items x y)
    (hf : ∀ s : YyState, s.listItems = items → Agrees items (f s) (g s.toParserState)) :
    Agrees items (x >>= f) (y >>= g) := by
  cases h with
  | ok hs =>
      exact hf _ hs
  | error e =>
      exact .error e

theorem agrees_update
    {items : List Int} {s : YyState} {f : ParserState → Except Failure ParserState}
    (hs : s.listItems = items) :
    Agrees items (s.update f) (f s.toParserState) := by
  unfold YyState.update
  cases f s.toParserState with
  | ok p =>
      exact .ok (s := { s with toParserState := p }) hs
  | error e =>
      exact .error e

theorem ArithSyntax.reduce_agrees
    (a : ArithSyntax)
    (s : YyState) :
    Agrees s.listItems (a.reduce s) (a.act s.toParserState) := by
  induction a generalizing s with
  | varVar v op w =>
      rw [ArithSyntax.reduce, Rule.semantic]
      exact agrees_update rfl
  | arithVar a op w ih =>
      refine (ih s).bind fun s' hs' => ?_
      rw [Rule.semantic]
      exact agrees_update hs'
  | arithConst a op c ih =>
      refine (ih s).bind fun s' hs' => ?_
      rw [Rule.semantic]
      exact agrees_update hs'
  | const c =>
      exact .ok rfl

mutual

theorem BinaryExpr.reduce_agrees
    (e : BinaryExpr)
    (s : YyState) :
    Agrees s.listItems (e.reduce s) (e.act s.toParserState) := by
  cases e with
  | varConst v op c =>
      rw [BinaryExpr.reduce, BinaryExpr.act]
      refine (op.reduce_agrees s).bind fun s' hs' => ?_
      rw [Rule.semantic]
      exact agrees_update hs'
  | varVar v op w =>
      rw [BinaryExpr.reduce, BinaryExpr.act]
      refine (op.reduce_agrees s).bind fun s' hs' => ?_
      rw [Rule.semantic]
      exact agrees_update hs'
  | arithConst a op c =>
      rw [BinaryExpr.reduce, BinaryExpr.act]
      refine (a.reduce_agrees s).bind fun s₁ hs₁ => ?_
      rw [← hs₁]
      refine (op.reduce_agrees s₁).bind fun s' hs' => ?_
      rw [Rule.semantic]
      exact agrees_update hs'

theorem BinaryOp.reduce_agrees
    (o : BinaryOp)
    (s : YyState) :
    Agrees s.listItems (o.reduce s) (o.act s.toParserState) := by
  cases o with
  | op o =>
      rw [BinaryOp.reduce, BinaryOp.act, Rule.semantic]
      exact agrees_update rfl
  | boolop left right =>
      rw [BinaryOp.reduce, BinaryOp.act]
      refine (left.reduce_agrees s).bind fun s' hs' => ?_
      rw [← hs']
      exact right.reduce_agrees s'

end

theorem ListExprSyntax.reduce_agrees
    (e : ListExprSyntax)
    (s : YyState) :
    Agrees s.listItems (e.reduce s) (e.act s.toParserState) := by
  rw [ListExprSyntax.reduce, Rule.semantic]
  exact agrees_update rfl

theorem MatchSyntax.reduce_agrees
    (m : MatchSyntax)
    (s : YyState) :
    Agrees s.listItems (m.reduce s) (m.act s.toParserState) := by
  cases m with
  | pred e =>
      refine (e.reduce_agrees s).bind fun s' hs' => ?_
      rw [Rule.semantic]
      exact agrees_update hs'
  | list e =>
      refine (e.reduce_agrees s).bind fun s' hs' => ?_
      rw [Rule.semantic]
      exact agrees_update hs'
  | monitor v =>
      rw [MatchSyntax.reduce, Rule.semantic]
      exact agrees_update rfl
  | monitorAnd v e =>
      refine (e.reduce_agrees s).bind fun s' hs' => ?_
      rw [Rule.semantic]
      exact agrees_update hs'

/-- A statement leaves no list half read, so the next list starts empty. -/
theorem Statement.reduce_agrees
    (t : Statement)
    (s : YyState)
    (h : s.listItems = []) :
    Agrees [] (t.reduce s) (t.act s.toParserState) := by
  induction t generalizing s with
  | ifThen m a =>
      rw [← h]
      refine (m.reduce_agrees s).bind fun s' hs' => ?_
      rw [Rule.semantic]
      exact agrees_update hs'
  | ifThenElse m a b =>
      rw [← h]
      refine (m.reduce_agrees s).bind fun s' hs' => ?_
      exact agrees_update (s := { s' with
        toParserState := pushAction (pushAction s'.toParserState a) b }) hs'
  | ifNested m t ih =>
      rw [Statement.reduce, Statement.act]
      have hm := m.reduce_agrees s
      rw [h] at hm
      exact hm.bind fun s' hs' => ih s' hs'
  | count v e =>
      have he := e.reduce_agrees s
      rw [h] at he
      exact he.bind fun s' _ => .error _
  | monitor v e =>
      rw [← h]
      refine (e.reduce_agrees s).bind fun s' hs' => ?_
      rw [Rule.semantic]
      exact agrees_update hs'
  | defList l c cs =>
      rw [Statement.reduce, Rule.semantic, h]
      exact .ok (s := { s with
        prog := s.prog.addListexpr l (c :: cs)
        listItems := [] }) rfl

theorem policyReduce_agrees
    (ts : List Statement)
    (s : YyState)
    (h : s.listItems = []) :
    Agrees [] (policyReduce ts s) (runStatements ts s.toParserState) := by
  induction ts generalizing s with
  | nil =>
      exact .ok h
  | cons t ts ih =>
      exact (t.reduce_agrees s h).bind fun s' hs' => ih s' hs'

/-- The parser builds the program of the policy it found. -/
theorem policyReduce_program
    (ts : List Statement)
    (prog : Program) :
    (∃ s, policyReduce ts {} = .ok s ∧ s.prog = prog) ↔ parsePolicy ts = .ok prog := by
  have h := policyReduce_agrees ts {} rfl
  unfold parsePolicy
  revert h
  generalize policyReduce ts {} = x
  generalize runStatements ts ({} : YyState).toParserState = y
  rintro (hs | e)
  · constructor
    · rintro ⟨_, hs, rfl⟩
      cases hs
      rfl
    · intro hp
      cases hp
      exact ⟨_, rfl, rfl⟩
  · constructor
    · rintro ⟨_, hs, _⟩
      cases hs
    · intro hp
      cases hp

/-- The room an arithmetic expression needs on the stack. -/
def ArithSyntax.depth : ArithSyntax → Nat
  | .varVar _ _ _ => 3
  | .arithVar a _ _ => max a.depth 3
  | .arithConst a _ _ => max a.depth 3
  | .const _ => 1

mutual

/-- The room a comparison needs on the stack. -/
def BinaryExpr.depth : BinaryExpr → Nat
  | .varConst _ op _ => max (1 + op.depth) 3
  | .varVar _ op _ => max (1 + op.depth) 3
  | .arithConst a op _ => max a.depth (max (1 + op.depth) 3)

/-- The room an operator needs on the stack. -/
def BinaryOp.depth : BinaryOp → Nat
  | .op _ => 1
  | .boolop left right => max left.depth (2 + right.depth)

end

/-- The room a match expression needs on the stack. -/
def MatchSyntax.depth : MatchSyntax → Nat
  | .pred e => max (2 + e.depth) 4
  | .list _ => 5
  | .monitor _ => 4
  | .monitorAnd _ e => max (4 + e.depth) 6

/-- The room a statement needs on the stack. -/
def Statement.depth : Statement → Nat
  | .ifThen m _ => max (1 + m.depth) 4
  | .ifThenElse m _ _ => max (1 + m.depth) 6
  | .ifNested m t => max (1 + m.depth) (3 + t.depth)
  | .count _ _ => 7
  | .monitor _ _ => 7
  | .defList _ _ _ => 6

/-- The room a sequence of statements needs: a later statement lies above the earlier ones,
which are one symbol by then. -/
def policyDepth : List Statement → Nat
  | [] => 0
  | t :: ts => ts.foldl (fun d t' => max d (1 + t'.depth)) t.depth

/-- The room a phrase needs on the stack. -/
def Phrase.depth : Phrase → Nat
  | .token _ => 1
  | .poise t ts => policyDepth (t :: ts)
  | .statements t ts => policyDepth (t :: ts)
  | .matchexpr m => m.depth
  | .statement t => t.depth
  | .listbody _ _ => 3
  | .listcontent _ cs => if cs = [] then 1 else 2
  | .action _ => 1
  | .listexpr _ => 3
  | .binaryexpr e => e.depth
  | .arithexpr a => a.depth
  | .arithop _ => 1
  | .binaryop o => o.depth
  | .boolop _ => 1

theorem ArithSyntax.depth_pos
    (a : ArithSyntax) :
    1 ≤ a.depth := by
  cases a <;> simp [ArithSyntax.depth]

theorem BinaryExpr.depth_pos
    (e : BinaryExpr) :
    1 ≤ e.depth := by
  cases e <;> simp [BinaryExpr.depth]

theorem Statement.depth_pos
    (t : Statement) :
    1 ≤ t.depth := by
  cases t <;> simp [Statement.depth]

theorem policyDepth_pos
    (t : Statement)
    (ts : List Statement) :
    1 ≤ policyDepth (t :: ts) := by
  have hfold : ∀ d, 1 ≤ d → 1 ≤ ts.foldl (fun d t' => max d (1 + t'.depth)) d := by
    induction ts with
    | nil =>
        exact fun d hd => hd
    | cons t' ts ih =>
        intro d hd
        exact ih _ (le_max_of_le_left hd)
  exact hfold _ t.depth_pos

/-- A rule needs the room of its right side. -/
theorem Produces.depth
    {r : Rule} {ps : List Phrase} {p : Phrase}
    (h : Produces r ps p) :
    p.depth = depthAll Phrase.depth ps := by
  cases h with
  | @poise t ts =>
      have hpos := policyDepth_pos t ts
      simp only [Phrase.depth, depthAll]
      omega
  | @statementsMore t t' ts =>
      have hpos := t'.depth_pos
      simp only [Phrase.depth, depthAll, policyDepth, List.foldl_append, List.foldl_cons,
        List.foldl_nil]
      omega
  | @statementsOne t =>
      have hpos := t.depth_pos
      simp only [Phrase.depth, depthAll, policyDepth, List.foldl_nil]
      omega
  | @listbody c cs =>
      simp only [Phrase.depth, depthAll]
      split <;> omega
  | @listcontentMore c d cs =>
      simp only [Phrase.depth, depthAll, List.append_eq_nil_iff, List.cons_ne_self, and_false,
        if_false]
      split <;> simp
  | @binaryArithConst a o c =>
      have hpos := a.depth_pos
      simp only [Phrase.depth, depthAll, BinaryExpr.depth]
      omega
  | @ifNested m t =>
      have hpos := t.depth_pos
      simp only [Phrase.depth, depthAll, Statement.depth]
      omega
  | @binaryopBool e f b =>
      have hpos := f.depth_pos
      simp only [Phrase.depth, depthAll, BinaryOp.depth]
      omega
  | _ =>
      simp only [Phrase.depth, depthAll, ArithSyntax.depth, BinaryExpr.depth, BinaryOp.depth,
        MatchSyntax.depth, Statement.depth]
      simp <;> omega

end PolicySpelling

end Poise
