import Poise.PolicyParser
import Poise.Foundations.ShiftReduceSoundness

/-!
# Poise compiler: the grammar of policies

The rules of `poise.y` with their actions on the global variables, and the
phrases they make.  A policy is spelled by a list of tokens when the grammar
derives the tokens with the policy as derivation tree; a Boolean operator leaves
no trace in the tree, so a policy may be spelled in several ways.

A reduction finds the values of the symbols it replaces in a list; `$1` is the
first of them.  No rule assigns `$$`, so a nonterminal has the value of the first
symbol of its right side.
-/

namespace Poise

open Foundations

section PolicyGrammar

/-- Boolean operators. -/
inductive BoolOp where
  | and
  | or
  | not
deriving DecidableEq, Repr

/-- The tokens of the grammar, with their values. -/
inductive Token where
  | kwIf
  | kwThen
  | kwElse
  | kwMatch
  | kwCount
  | kwMonitor
  | action (a : PolicyAction)
  | lp
  | rp
  | lb
  | rb
  | compare (o : BinOp)
  | arith (o : ArithOp)
  | bool (b : BoolOp)
  | assign
  | kwDef
  | member (o : ListOp)
  | listvar (s : String)
  | const (c : Int)
  | var (s : String)
deriving DecidableEq, Repr

/-- The kinds of token, with the end of the input. -/
inductive Terminal where
  | eof
  | kwIf
  | kwThen
  | kwElse
  | kwMatch
  | kwCount
  | kwMonitor
  | action (a : PolicyAction)
  | lp
  | rp
  | lb
  | rb
  | compare (o : BinOp)
  | arith (o : ArithOp)
  | bool (b : BoolOp)
  | assign
  | kwDef
  | member (o : ListOp)
  | listvar
  | const
  | var
deriving DecidableEq, Repr

def Token.kind : Token → Terminal
  | .kwIf => .kwIf
  | .kwThen => .kwThen
  | .kwElse => .kwElse
  | .kwMatch => .kwMatch
  | .kwCount => .kwCount
  | .kwMonitor => .kwMonitor
  | .action a => .action a
  | .lp => .lp
  | .rp => .rp
  | .lb => .lb
  | .rb => .rb
  | .compare o => .compare o
  | .arith o => .arith o
  | .bool b => .bool b
  | .assign => .assign
  | .kwDef => .kwDef
  | .member o => .member o
  | .listvar _ => .listvar
  | .const _ => .const
  | .var _ => .var

/-- The nonterminals of the grammar. -/
inductive Nonterminal where
  | accept
  | poise
  | statements
  | matchexpr
  | statement
  | listbody
  | listcontent
  | action
  | listexpr
  | binaryexpr
  | arithexpr
  | arithop
  | binaryop
  | boolop
deriving DecidableEq, Repr

/-- The rules of the grammar. -/
inductive Rule where
  | accept
  | poise
  | statementsMore
  | statementsOne
  | matchBinary
  | matchList
  | matchMonitor
  | matchMonitorAnd
  | ifThen
  | ifThenElse
  | ifNested
  | count
  | monitor
  | defList
  | listbody
  | listcontentOne
  | listcontentMore
  | action (a : PolicyAction)
  | listexpr (o : ListOp)
  | binaryVarConst
  | binaryVarVar
  | binaryArithConst
  | arithVarVar
  | arithVar
  | arithConst
  | arithLeaf
  | arithop (o : ArithOp)
  | binaryop (o : BinOp)
  | binaryopBool
  | boolop (b : BoolOp)
deriving DecidableEq, Repr

/-- The left side of a rule. -/
def Rule.lhs : Rule → Nonterminal
  | .accept => .accept
  | .poise => .poise
  | .statementsMore | .statementsOne => .statements
  | .matchBinary | .matchList | .matchMonitor | .matchMonitorAnd => .matchexpr
  | .ifThen | .ifThenElse | .ifNested | .count | .monitor | .defList => .statement
  | .listbody => .listbody
  | .listcontentOne | .listcontentMore => .listcontent
  | .action _ => .action
  | .listexpr _ => .listexpr
  | .binaryVarConst | .binaryVarVar | .binaryArithConst => .binaryexpr
  | .arithVarVar | .arithVar | .arithConst | .arithLeaf => .arithexpr
  | .arithop _ => .arithop
  | .binaryop _ | .binaryopBool => .binaryop
  | .boolop _ => .boolop

/-- The right side of a rule. -/
def Rule.rhs : Rule → List (GrammarSymbol Terminal Nonterminal)
  | .accept => [.nonterminal .poise, .terminal .eof]
  | .poise => [.nonterminal .statements]
  | .statementsMore => [.nonterminal .statements, .nonterminal .statement]
  | .statementsOne => [.nonterminal .statement]
  | .matchBinary =>
      [.terminal .kwMatch, .terminal .lp, .nonterminal .binaryexpr, .terminal .rp]
  | .matchList =>
      [.terminal .kwMatch, .terminal .lp, .nonterminal .listexpr, .terminal .rp]
  | .matchMonitor => [.terminal .kwMatch, .terminal .lp, .terminal .var, .terminal .rp]
  | .matchMonitorAnd =>
      [.terminal .kwMatch, .terminal .lp, .terminal .var, .terminal (.bool .and),
        .nonterminal .binaryexpr, .terminal .rp]
  | .ifThen =>
      [.terminal .kwIf, .nonterminal .matchexpr, .terminal .kwThen, .nonterminal .action]
  | .ifThenElse =>
      [.terminal .kwIf, .nonterminal .matchexpr, .terminal .kwThen, .nonterminal .action,
        .terminal .kwElse, .nonterminal .action]
  | .ifNested =>
      [.terminal .kwIf, .nonterminal .matchexpr, .terminal .kwThen, .nonterminal .statement]
  | .count =>
      [.terminal .var, .terminal .assign, .terminal .kwCount, .terminal .lp,
        .nonterminal .listexpr, .terminal .rp]
  | .monitor =>
      [.terminal .var, .terminal .assign, .terminal .kwMonitor, .terminal .lp,
        .nonterminal .listexpr, .terminal .rp]
  | .defList =>
      [.terminal .kwDef, .terminal .listvar, .terminal .assign, .nonterminal .listbody]
  | .listbody => [.terminal .lb, .nonterminal .listcontent, .terminal .rb]
  | .listcontentOne => [.terminal .const]
  | .listcontentMore => [.nonterminal .listcontent, .terminal .const]
  | .action a => [.terminal (.action a)]
  | .listexpr o => [.terminal .var, .terminal (.member o), .terminal .listvar]
  | .binaryVarConst => [.terminal .var, .nonterminal .binaryop, .terminal .const]
  | .binaryVarVar => [.terminal .var, .nonterminal .binaryop, .terminal .var]
  | .binaryArithConst => [.nonterminal .arithexpr, .nonterminal .binaryop, .terminal .const]
  | .arithVarVar => [.terminal .var, .nonterminal .arithop, .terminal .var]
  | .arithVar => [.nonterminal .arithexpr, .nonterminal .arithop, .terminal .var]
  | .arithConst => [.nonterminal .arithexpr, .nonterminal .arithop, .terminal .const]
  | .arithLeaf => [.terminal .const]
  | .arithop o => [.terminal (.arith o)]
  | .binaryop o => [.terminal (.compare o)]
  | .binaryopBool =>
      [.nonterminal .binaryexpr, .nonterminal .boolop, .nonterminal .binaryexpr]
  | .boolop b => [.terminal (.bool b)]

/-- The union of semantic values; tokens without a value leave it as it is. -/
inductive YyStype where
  | unset
  | ival (c : Int)
  | sval (s : String)
deriving DecidableEq, Repr

def Token.value : Token → YyStype
  | .listvar s => .sval s
  | .const c => .ival c
  | .var s => .sval s
  | _ => .unset

/-- The text value `$k` of a reduction. -/
def dollarText (vs : List YyStype) (k : Nat) : String :=
  match vs[k - 1]? with
  | some (.sval s) => s
  | _ => ""

/-- The number value `$k` of a reduction. -/
def dollarNum (vs : List YyStype) (k : Nat) : Int :=
  match vs[k - 1]? with
  | some (.ival c) => c
  | _ => 0

/-- The global variables of the parser, with the operator and the list being read. -/
structure YyState extends ParserState where
  ao : String := ""
  listItems : List Int := []
deriving DecidableEq, Repr

/-- An action that leaves the operator and the list being read as they are. -/
def YyState.update (s : YyState) (f : ParserState → Except Failure ParserState) :
    Except Failure YyState := do
  let p ← f s.toParserState
  .ok { s with toParserState := p }

/-- The action of a rule. -/
def Rule.semantic : Rule → List YyStype → YyState → Except Failure YyState
  | .accept, _, s => .ok s
  | .poise, _, s => .ok s
  | .statementsMore, _, s => .ok s
  | .statementsOne, _, s => .ok s
  | .matchBinary, _, s =>
      s.update fun p =>
        match p.bp with
        | none => .error .assertion
        | some bp => .ok { p with prog := p.prog.addMatchexpr { body := .pred bp }, bp := none }
  | .matchList, _, s =>
      s.update fun p =>
        match p.lp with
        | none => .error .assertion
        | some lp => .ok { p with prog := p.prog.addMatchexpr { body := .list lp }, lp := none }
  | .matchMonitor, vs, s =>
      s.update fun p => do
        require (isMonitorName (dollarText vs 3))
        .ok { p with
          prog := p.prog.addMatchexpr { body := .monitor (dollarText vs 3) none } }
  | .matchMonitorAnd, vs, s =>
      s.update fun p =>
        match p.bp with
        | none => .error .assertion
        | some bp => do
            require (isMonitorName (dollarText vs 3))
            .ok { p with
              prog := p.prog.addMatchexpr { body := .monitor (dollarText vs 3) (some bp) }
              bp := none }
  | .ifThen, _, s => .ok s
  | .ifThenElse, _, s => s.update setBranchActions
  | .ifNested, _, s => .ok s
  | .count, _, _ => .error .assertion
  | .monitor, vs, s =>
      s.update fun p =>
        match p.lp with
        | none => .error .nullPointer
        | some lp => do
            require (!isHeaderName (dollarText vs 1))
            .ok { p with prog := p.prog.addMonitor { mvar := dollarText vs 1, lp := lp } }
  | .defList, vs, s =>
      .ok { s with
        prog := s.prog.addListexpr (dollarText vs 2) s.listItems
        listItems := [] }
  | .listbody, _, s => .ok s
  | .listcontentOne, vs, s => .ok { s with listItems := s.listItems ++ [dollarNum vs 1] }
  | .listcontentMore, vs, s => .ok { s with listItems := s.listItems ++ [dollarNum vs 2] }
  | .action a, _, s => s.update fun p => .ok (pushAction p a)
  | .listexpr o, vs, s =>
      s.update fun p =>
        recordHeader
          { p with lp := some {
              listvar := dollarText vs 1, listop := o, listbodyvar := dollarText vs 3 } }
          (dollarText vs 1)
  | .binaryVarConst, vs, s =>
      s.update fun p => do
        let bp ← mkBinaryPred p (dollarText vs 1) (toString (dollarNum vs 3))
        require (isHeaderName (dollarText vs 1) || isMonitorName (dollarText vs 1))
        .ok { p with bp := some bp, prog := p.prog.addHeader (dollarText vs 1) }
  | .binaryVarVar, vs, s =>
      s.update fun p => do
        let bp ← mkBinaryPred p (dollarText vs 1) (dollarText vs 3)
        let p ← recordHeader { p with bp := some bp } (dollarText vs 1)
        recordHeader p (dollarText vs 3)
  | .binaryArithConst, vs, s =>
      s.update fun p =>
        match p.aeStack with
        | [] => .error .emptyStack
        | ae :: rest => do
            let bp ← mkBinaryPred p ae.stringify (toString (dollarNum vs 3))
            .ok { p with aeStack := rest, bp := some bp }
  | .arithVarVar, vs, s =>
      s.update fun p => do
        let ae : ArithExpr := { lhsStr := dollarText vs 1, op := s.ao, rhs := dollarText vs 3 }
        let p ← recordHeader { p with aeStack := ae :: p.aeStack } (dollarText vs 1)
        recordHeader p (dollarText vs 3)
  | .arithVar, vs, s =>
      s.update fun p =>
        match p.aeStack with
        | [] => .error .emptyStack
        | _ :: rest =>
            let ae : ArithExpr := { lhsStr := "", op := s.ao, rhs := dollarText vs 3 }
            recordHeader { p with aeStack := ae :: rest } (dollarText vs 3)
  | .arithConst, vs, s =>
      s.update fun p =>
        match p.aeStack with
        | [] => .error .emptyStack
        | _ :: rest =>
            let ae : ArithExpr := { lhsStr := "", op := s.ao, rhs := toString (dollarNum vs 3) }
            .ok { p with aeStack := ae :: rest }
  | .arithLeaf, _, s => .ok s
  | .arithop o, _, s => .ok { s with ao := o.text }
  | .binaryop o, _, s => s.update fun p => .ok { p with thebinaryop := some o }
  | .binaryopBool, _, s => .ok s
  | .boolop _, _, s => .ok s

/-- The phrases the symbols of the grammar stand for. -/
inductive Phrase where
  | token (t : Token)
  | poise (first : Statement) (rest : List Statement)
  | statements (first : Statement) (rest : List Statement)
  | matchexpr (m : MatchSyntax)
  | statement (s : Statement)
  | listbody (first : Int) (rest : List Int)
  | listcontent (first : Int) (rest : List Int)
  | action (a : PolicyAction)
  | listexpr (e : ListExprSyntax)
  | binaryexpr (e : BinaryExpr)
  | arithexpr (a : ArithSyntax)
  | arithop (o : ArithOp)
  | binaryop (o : BinaryOp)
  | boolop (b : BoolOp)

/-- The symbol a phrase belongs to. -/
def Phrase.symbol : Phrase → GrammarSymbol Terminal Nonterminal
  | .token t => .terminal t.kind
  | .poise _ _ => .nonterminal .poise
  | .statements _ _ => .nonterminal .statements
  | .matchexpr _ => .nonterminal .matchexpr
  | .statement _ => .nonterminal .statement
  | .listbody _ _ => .nonterminal .listbody
  | .listcontent _ _ => .nonterminal .listcontent
  | .action _ => .nonterminal .action
  | .listexpr _ => .nonterminal .listexpr
  | .binaryexpr _ => .nonterminal .binaryexpr
  | .arithexpr _ => .nonterminal .arithexpr
  | .arithop _ => .nonterminal .arithop
  | .binaryop _ => .nonterminal .binaryop
  | .boolop _ => .nonterminal .boolop

/-- The phrase a rule makes of the phrases of its right side. -/
inductive Produces : Rule → List Phrase → Phrase → Prop
  | poise {s : Statement} {ss : List Statement} :
      Produces .poise [.statements s ss] (.poise s ss)
  | statementsMore {s t : Statement} {ss : List Statement} :
      Produces .statementsMore [.statements s ss, .statement t] (.statements s (ss ++ [t]))
  | statementsOne {s : Statement} :
      Produces .statementsOne [.statement s] (.statements s [])
  | matchBinary {e : BinaryExpr} :
      Produces .matchBinary [.token .kwMatch, .token .lp, .binaryexpr e, .token .rp]
        (.matchexpr (.pred e))
  | matchList {e : ListExprSyntax} :
      Produces .matchList [.token .kwMatch, .token .lp, .listexpr e, .token .rp]
        (.matchexpr (.list e))
  | matchMonitor {v : String} :
      Produces .matchMonitor [.token .kwMatch, .token .lp, .token (.var v), .token .rp]
        (.matchexpr (.monitor v))
  | matchMonitorAnd {v : String} {e : BinaryExpr} :
      Produces .matchMonitorAnd
        [.token .kwMatch, .token .lp, .token (.var v), .token (.bool .and), .binaryexpr e,
          .token .rp]
        (.matchexpr (.monitorAnd v e))
  | ifThen {m : MatchSyntax} {a : PolicyAction} :
      Produces .ifThen [.token .kwIf, .matchexpr m, .token .kwThen, .action a]
        (.statement (.ifThen m a))
  | ifThenElse {m : MatchSyntax} {a b : PolicyAction} :
      Produces .ifThenElse
        [.token .kwIf, .matchexpr m, .token .kwThen, .action a, .token .kwElse, .action b]
        (.statement (.ifThenElse m a b))
  | ifNested {m : MatchSyntax} {s : Statement} :
      Produces .ifNested [.token .kwIf, .matchexpr m, .token .kwThen, .statement s]
        (.statement (.ifNested m s))
  | count {v : String} {e : ListExprSyntax} :
      Produces .count
        [.token (.var v), .token .assign, .token .kwCount, .token .lp, .listexpr e, .token .rp]
        (.statement (.count v e))
  | monitor {v : String} {e : ListExprSyntax} :
      Produces .monitor
        [.token (.var v), .token .assign, .token .kwMonitor, .token .lp, .listexpr e,
          .token .rp]
        (.statement (.monitor v e))
  | defList {l : String} {c : Int} {cs : List Int} :
      Produces .defList
        [.token .kwDef, .token (.listvar l), .token .assign, .listbody c cs]
        (.statement (.defList l c cs))
  | listbody {c : Int} {cs : List Int} :
      Produces .listbody [.token .lb, .listcontent c cs, .token .rb] (.listbody c cs)
  | listcontentOne {c : Int} :
      Produces .listcontentOne [.token (.const c)] (.listcontent c [])
  | listcontentMore {c d : Int} {cs : List Int} :
      Produces .listcontentMore [.listcontent c cs, .token (.const d)]
        (.listcontent c (cs ++ [d]))
  | action {a : PolicyAction} :
      Produces (.action a) [.token (.action a)] (.action a)
  | listexpr {v l : String} {o : ListOp} :
      Produces (.listexpr o) [.token (.var v), .token (.member o), .token (.listvar l)]
        (.listexpr { var := v, op := o, listvar := l })
  | binaryVarConst {v : String} {o : BinaryOp} {c : Int} :
      Produces .binaryVarConst [.token (.var v), .binaryop o, .token (.const c)]
        (.binaryexpr (.varConst v o c))
  | binaryVarVar {v w : String} {o : BinaryOp} :
      Produces .binaryVarVar [.token (.var v), .binaryop o, .token (.var w)]
        (.binaryexpr (.varVar v o w))
  | binaryArithConst {a : ArithSyntax} {o : BinaryOp} {c : Int} :
      Produces .binaryArithConst [.arithexpr a, .binaryop o, .token (.const c)]
        (.binaryexpr (.arithConst a o c))
  | arithVarVar {v w : String} {o : ArithOp} :
      Produces .arithVarVar [.token (.var v), .arithop o, .token (.var w)]
        (.arithexpr (.varVar v o w))
  | arithVar {a : ArithSyntax} {o : ArithOp} {w : String} :
      Produces .arithVar [.arithexpr a, .arithop o, .token (.var w)]
        (.arithexpr (.arithVar a o w))
  | arithConst {a : ArithSyntax} {o : ArithOp} {c : Int} :
      Produces .arithConst [.arithexpr a, .arithop o, .token (.const c)]
        (.arithexpr (.arithConst a o c))
  | arithLeaf {c : Int} :
      Produces .arithLeaf [.token (.const c)] (.arithexpr (.const c))
  | arithop {o : ArithOp} :
      Produces (.arithop o) [.token (.arith o)] (.arithop o)
  | binaryop {o : BinOp} :
      Produces (.binaryop o) [.token (.compare o)] (.binaryop (.op o))
  | binaryopBool {e f : BinaryExpr} {b : BoolOp} :
      Produces .binaryopBool [.binaryexpr e, .boolop b, .binaryexpr f] (.binaryop (.boolop e f))
  | boolop {b : BoolOp} :
      Produces (.boolop b) [.token (.bool b)] (.boolop b)

theorem Produces.ne_accept
    {r : Rule} {ps : List Phrase} {p : Phrase}
    (h : Produces r ps p) :
    r ≠ .accept := by
  cases h <;> simp

/-- A rule applies to phrases of the symbols of its right side. -/
theorem Produces.rhs
    {r : Rule} {ps : List Phrase} {p : Phrase}
    (h : Produces r ps p) :
    ps.map Phrase.symbol = r.rhs := by
  cases h <;> rfl

theorem Produces.symbol
    {r : Rule} {ps : List Phrase} {p : Phrase}
    (h : Produces r ps p) :
    p.symbol = .nonterminal r.lhs := by
  cases h <;> rfl

@[simp] theorem symbol_eq_terminal_iff
    {p : Phrase} {a : Terminal} :
    p.symbol = .terminal a ↔ ∃ t : Token, p = .token t ∧ t.kind = a := by
  cases p <;> simp [Phrase.symbol]

@[simp] theorem symbol_eq_nonterminal_iff
    {p : Phrase} {A : Nonterminal} :
    p.symbol = .nonterminal A ↔
      match A with
      | .accept => False
      | .poise => ∃ s ss, p = .poise s ss
      | .statements => ∃ s ss, p = .statements s ss
      | .matchexpr => ∃ m, p = .matchexpr m
      | .statement => ∃ s, p = .statement s
      | .listbody => ∃ c cs, p = .listbody c cs
      | .listcontent => ∃ c cs, p = .listcontent c cs
      | .action => ∃ a, p = .action a
      | .listexpr => ∃ e, p = .listexpr e
      | .binaryexpr => ∃ e, p = .binaryexpr e
      | .arithexpr => ∃ a, p = .arithexpr a
      | .arithop => ∃ o, p = .arithop o
      | .binaryop => ∃ o, p = .binaryop o
      | .boolop => ∃ b, p = .boolop b := by
  cases p <;> cases A <;> simp [Phrase.symbol]

@[simp] theorem kind_eq_iff
    {t : Token} {a : Terminal} :
    t.kind = a ↔
      match a with
      | .eof => False
      | .kwIf => t = .kwIf
      | .kwThen => t = .kwThen
      | .kwElse => t = .kwElse
      | .kwMatch => t = .kwMatch
      | .kwCount => t = .kwCount
      | .kwMonitor => t = .kwMonitor
      | .action b => t = .action b
      | .lp => t = .lp
      | .rp => t = .rp
      | .lb => t = .lb
      | .rb => t = .rb
      | .compare o => t = .compare o
      | .arith o => t = .arith o
      | .bool b => t = .bool b
      | .assign => t = .assign
      | .kwDef => t = .kwDef
      | .member o => t = .member o
      | .listvar => ∃ s, t = .listvar s
      | .const => ∃ c, t = .const c
      | .var => ∃ s, t = .var s := by
  cases t <;> cases a <;> simp [Token.kind]

/-- Every sequence of phrases with the symbols of a right side makes a phrase. -/
theorem exists_produces
    (r : Rule)
    (ps : List Phrase)
    (hr : r ≠ .accept)
    (h : ps.map Phrase.symbol = r.rhs) :
    ∃ p, Produces r ps p := by
  cases r <;> simp [Rule.rhs, List.map_eq_cons_iff] at h
  all_goals
    first
    | obtain rfl := h
      exact ⟨_, by constructor⟩
    | obtain ⟨_, rfl⟩ := h
      exact ⟨_, by constructor⟩
    | obtain ⟨_, _, rfl⟩ := h
      exact ⟨_, by constructor⟩
    | obtain ⟨_, _, _, rfl⟩ := h
      exact ⟨_, by constructor⟩

end PolicyGrammar

end Poise
