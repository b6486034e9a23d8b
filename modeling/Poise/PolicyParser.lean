import Poise.PolicyAst

/-!
# Poise compiler: the semantic actions of the grammar

The parser is generated from a grammar whose productions carry actions on a
handful of global variables.  A policy text that the grammar derives is given
here by its derivation tree, and each production runs its action after the
actions of its children, from left to right, as a bottom-up parser does.

The variables that outlive one production (`bp`, `lp`, `thebinaryop`, the stack
of arithmetic expressions and the vector of pending actions) are fields of the
parser state.
-/

namespace Poise

section PolicyParser

/-- Header names are an `h` followed by digits. -/
def isHeaderName (s : String) : Bool :=
  match s.toList with
  | 'h' :: ds => ds.all Char.isDigit
  | _ => false

/-- Monitor names are an `m` followed by digits. -/
def isMonitorName (s : String) : Bool :=
  match s.toList with
  | 'm' :: ds => ds.all Char.isDigit
  | _ => false

/-- Arithmetic operators. -/
inductive ArithOp where
  | plus
  | minus
  | multi
  | mod
deriving DecidableEq, Repr

/-- Derivations of `arithexpr`. -/
inductive ArithSyntax where
  | varVar (v : String) (op : ArithOp) (w : String)
  | arithVar (a : ArithSyntax) (op : ArithOp) (w : String)
  | arithConst (a : ArithSyntax) (op : ArithOp) (c : Int)
  | const (c : Int)
deriving Repr

mutual

/-- Derivations of `binaryexpr`. -/
inductive BinaryExpr where
  | varConst (v : String) (op : BinaryOp) (c : Int)
  | varVar (v : String) (op : BinaryOp) (w : String)
  | arithConst (a : ArithSyntax) (op : BinaryOp) (c : Int)

/-- Derivations of `binaryop`. -/
inductive BinaryOp where
  | op (o : BinOp)
  | boolop (left right : BinaryExpr)

end

/-- Derivations of `listexpr`. -/
structure ListExprSyntax where
  var : String
  op : ListOp
  listvar : String
deriving DecidableEq, Repr

/-- Derivations of `matchexpr`. -/
inductive MatchSyntax where
  | pred (e : BinaryExpr)
  | list (e : ListExprSyntax)
  | monitor (v : String)
  | monitorAnd (v : String) (e : BinaryExpr)

/-- Derivations of `statement`. -/
inductive Statement where
  | ifThen (m : MatchSyntax) (a : PolicyAction)
  | ifThenElse (m : MatchSyntax) (a b : PolicyAction)
  | ifNested (m : MatchSyntax) (s : Statement)
  | count (v : String) (e : ListExprSyntax)
  | monitor (v : String) (e : ListExprSyntax)
  | defList (listvar : String) (first : Int) (rest : List Int)

/-- The text kept for an arithmetic expression; a nested left side is printed as empty. -/
structure ArithExpr where
  lhsStr : String
  op : String
  rhs : String
deriving DecidableEq, Repr

def ArithExpr.stringify (e : ArithExpr) : String :=
  e.lhsStr ++ " " ++ e.op ++ " " ++ e.rhs

/-- The global variables of the parser. -/
structure ParserState where
  prog : Program := {}
  lp : Option ListPred := none
  bp : Option BinaryPred := none
  thebinaryop : Option BinOp := none
  aeStack : List ArithExpr := []
  actionV : List PolicyAction := []
deriving DecidableEq, Repr

def ArithOp.text : ArithOp → String
  | .plus => "+"
  | .minus => "-"
  | .multi => "*"
  | .mod => "%"

/-- The library assertion. -/
def require (b : Bool) : Except Failure Unit :=
  if b then .ok () else .error .assertion

/-- Record a header after the assertion on its name. -/
def recordHeader (s : ParserState) (v : String) : Except Failure ParserState := do
  require (isHeaderName v)
  .ok { s with prog := s.prog.addHeader v }

/-- Actions of the productions of `arithexpr`. -/
def ArithSyntax.act : ArithSyntax → ParserState → Except Failure ParserState
  | .varVar v op w, s => do
      let ae : ArithExpr := { lhsStr := v, op := op.text, rhs := w }
      let s := { s with aeStack := ae :: s.aeStack }
      let s ← recordHeader s v
      recordHeader s w
  | .arithVar a op w, s => do
      let s ← a.act s
      match s.aeStack with
      | [] => .error .emptyStack
      | _ :: rest =>
          let ae : ArithExpr := { lhsStr := "", op := op.text, rhs := w }
          recordHeader { s with aeStack := ae :: rest } w
  | .arithConst a op c, s => do
      let s ← a.act s
      match s.aeStack with
      | [] => .error .emptyStack
      | _ :: rest =>
          let ae : ArithExpr := { lhsStr := "", op := op.text, rhs := toString c }
          .ok { s with aeStack := ae :: rest }
  | .const _, s => .ok s

/-- Use the operator that was recognised last. -/
def mkBinaryPred (s : ParserState) (lhs rhs : String) : Except Failure BinaryPred :=
  match s.thebinaryop with
  | some op => .ok { lhs := lhs, op := op, rhs := rhs }
  | none => .error .assertion

mutual

/-- Actions of the productions of `binaryexpr`. -/
def BinaryExpr.act : BinaryExpr → ParserState → Except Failure ParserState
  | .varConst v op c, s => do
      let s ← op.act s
      let bp ← mkBinaryPred s v (toString c)
      require (isHeaderName v || isMonitorName v)
      .ok { s with bp := some bp, prog := s.prog.addHeader v }
  | .varVar v op w, s => do
      let s ← op.act s
      let bp ← mkBinaryPred s v w
      let s := { s with bp := some bp }
      let s ← recordHeader s v
      recordHeader s w
  | .arithConst a op c, s => do
      let s ← a.act s
      let s ← op.act s
      match s.aeStack with
      | [] => .error .emptyStack
      | ae :: rest =>
          let bp ← mkBinaryPred s ae.stringify (toString c)
          .ok { s with aeStack := rest, bp := some bp }

/-- Actions of the productions of `binaryop`; a Boolean combination has none of its own. -/
def BinaryOp.act : BinaryOp → ParserState → Except Failure ParserState
  | .op o, s => .ok { s with thebinaryop := some o }
  | .boolop left right, s => do
      let s ← left.act s
      right.act s

end

/-- Actions of the productions of `listexpr`. -/
def ListExprSyntax.act (e : ListExprSyntax) (s : ParserState) : Except Failure ParserState :=
  recordHeader
    { s with lp := some { listvar := e.var, listop := e.op, listbodyvar := e.listvar } } e.var

/-- Actions of the productions of `matchexpr`. -/
def MatchSyntax.act : MatchSyntax → ParserState → Except Failure ParserState
  | .pred e, s => do
      let s ← e.act s
      match s.bp with
      | none => .error .assertion
      | some bp => .ok { s with prog := s.prog.addMatchexpr { body := .pred bp }, bp := none }
  | .list e, s => do
      let s ← e.act s
      match s.lp with
      | none => .error .assertion
      | some lp => .ok { s with prog := s.prog.addMatchexpr { body := .list lp }, lp := none }
  | .monitor v, s => do
      require (isMonitorName v)
      .ok { s with prog := s.prog.addMatchexpr { body := .monitor v none } }
  | .monitorAnd v e, s => do
      let s ← e.act s
      match s.bp with
      | none => .error .assertion
      | some bp => do
          require (isMonitorName v)
          .ok { s with
            prog := s.prog.addMatchexpr { body := .monitor v (some bp) }, bp := none }

/-- Actions of the productions of `action`. -/
def pushAction (s : ParserState) (a : PolicyAction) : ParserState :=
  { s with actionV := s.actionV ++ [a] }

/-- Give the first two pending actions to the latest match expression and clear them. -/
def setBranchActions (s : ParserState) : Except Failure ParserState :=
  match s.actionV with
  | a :: b :: _ => do
      let prog ← s.prog.updateLatestmatchexpr (fun me => do
        let me ← me.setIfAction a
        me.setElseAction b)
      .ok { s with prog := prog, actionV := [] }
  | _ => .error .outOfRange

/-- The latest match expression is given the first two pending actions. -/
theorem setBranchActions_latest
    {s s' : ParserState} {before : List MatchExpr} {body : MatchBody}
    (h : setBranchActions s = .ok s')
    (hlatest : s.prog.matchexprV = before ++ [{ body := body }]) :
    ∃ x y rest, s.actionV = x :: y :: rest ∧
      s' = { s with
        prog := { s.prog with
          matchexprV := before ++
            [{ body := body, ifAction := some x, elseAction := some y, numActions := 2 }] }
        actionV := [] } := by
  rw [setBranchActions.eq_def] at h
  split at h
  · rename_i x y rest hact
    obtain ⟨p, hp, h⟩ := bind_eq_ok_iff.mp h
    cases h
    simp only [Program.updateLatestmatchexpr, hlatest, List.getLast?_append,
      List.getLast?_singleton, Option.some_or, List.dropLast_concat, MatchExpr.setIfAction,
      MatchExpr.setElseAction, bind, Except.bind] at hp
    cases hp
    exact ⟨x, y, rest, hact, rfl⟩
  · cases h

/-- Actions of the productions of `statement`. -/
def Statement.act : Statement → ParserState → Except Failure ParserState
  | .ifThen m a, s => do
      let s ← m.act s
      .ok (pushAction s a)
  | .ifThenElse m a b, s => do
      let s ← m.act s
      setBranchActions (pushAction (pushAction s a) b)
  | .ifNested m t, s => do
      let s ← m.act s
      t.act s
  | .count _ e, s => do
      let _ ← e.act s
      .error .assertion
  | .monitor v e, s => do
      let s ← e.act s
      match s.lp with
      | none => .error .nullPointer
      | some lp => do
          require (!isHeaderName v)
          .ok { s with prog := s.prog.addMonitor { mvar := v, lp := lp } }
  | .defList listvar first rest, s =>
      .ok { s with prog := s.prog.addListexpr listvar (first :: rest) }

/-- Actions of a sequence of statements. -/
def runStatements : List Statement → ParserState → Except Failure ParserState
  | [], s => .ok s
  | st :: rest, s => do
      let s ← st.act s
      runStatements rest s

/-- The program the parser builds for a policy. -/
def parsePolicy (policy : List Statement) : Except Failure Program := do
  let s ← runStatements policy {}
  .ok s.prog

end PolicyParser

end Poise
