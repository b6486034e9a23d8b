import Poise.PolicyGrammar

/-!
# Poise compiler: the generated parser

The tables and the driver that the parser generator wrote for the grammar
(`poise.tab.c`).  States, tokens, nonterminals and rules are numbers there; the
driver is the shift-reduce parser of the library with its table entries decoded
as `yyparse` decodes them.

The stacks grow by doubling up to `YYMAXDEPTH` symbols with the initial state
among them, and a push that fills them ends the parse, so 9998 symbols fit.
Both kinds of error call `yyerror`, which ends the process.
-/

namespace Poise

open Foundations

section GeneratedParser

/-- The marker for states without entries. -/
def yypactNinf : Int := -42

/-- The last index of `yytable`. -/
def yylast : Int := 110

/-- The number of tokens; the numbers of nonterminals begin here. -/
def yyntokens : Nat := 47

/-- The accepting state. -/
def yyfinal : Fin 91 := 11

/-- The largest size of the stacks. -/
def yymaxdepth : Nat := 10000

/-- Where the entries of a state begin in `yytable`. -/
def yypact : List Int :=
  [-1, 30, -41, 7, 38, -1, -42, 43, 87, 52, 16, -42, -42, -40, -2, 67, 70, 71, -42, 23, 72, 73,
   -3, -42, -42, -42, -42, -42, -42, -42, -42, -42, -42, -42, -42, -42, -42, -42, -42, 91, 54,
   -42, 55, 55, -42, -42, -42, -42, -42, -42, -42, -42, -42, -42, -11, 56, 58, -3, 24, 57, 4,
   -42, -42, 40, 59, 61, -42, -23, 45, 80, 81, 82, -42, -42, -42, -42, -42, -11, -42, -42, -42,
   -42, -42, -42, -42, -42, -42, -42, -42, -42, -42]

/-- The rule reduced in a state for want of an entry; zero is an error. -/
def yydefact : List Nat :=
  [0, 0, 0, 0, 0, 2, 4, 0, 0, 0, 0, 1, 3, 0, 0, 0, 0, 0, 41, 0, 0, 0, 0, 18, 19, 20, 21, 22, 23,
   24, 25, 26, 27, 28, 29, 30, 31, 32, 11, 9, 0, 14, 0, 0, 7, 47, 46, 49, 48, 50, 42, 43, 44,
   45, 0, 0, 0, 0, 0, 0, 0, 6, 5, 0, 0, 0, 16, 0, 0, 0, 0, 0, 33, 34, 52, 53, 54, 0, 38, 35, 36,
   40, 39, 37, 10, 15, 17, 12, 13, 8, 51]

/-- Where the entries of a nonterminal begin in `yytable`. -/
def yypgoto : List Int :=
  [-42, -42, -42, -42, 32, -42, -42, 44, 47, -13, -42, 86, 88, -42]

/-- The state after a nonterminal for want of an entry. -/
def yydefgoto : List Int :=
  [-1, 4, 5, 8, 6, 41, 67, 39, 20, 58, 22, 59, 60, 77]

/-- The entries of all states and nonterminals. -/
def yytable : List Nat :=
  [21, 1, 1, 9, 85, 18, 19, 23, 24, 25, 26, 27, 28, 29, 30, 31, 32, 33, 34, 35, 36, 37, 86, 16,
   17, 45, 46, 47, 48, 49, 50, 51, 52, 53, 18, 57, 7, 12, 11, 2, 2, 71, 18, 57, 3, 3, 38, 10,
   44, 79, 80, 45, 46, 47, 48, 49, 50, 51, 52, 53, 54, 74, 75, 76, 90, 55, 56, 13, 18, 57, 23,
   24, 25, 26, 27, 28, 29, 30, 31, 32, 33, 34, 35, 36, 37, 81, 82, 55, 56, 69, 70, 14, 15, 40,
   42, 43, 65, 61, 62, 66, 72, 68, 73, 78, 83, 87, 88, 89, 63, 84, 64]

/-- The token or the state an entry is for. -/
def yycheck : List Nat :=
  [13, 3, 3, 44, 27, 45, 46, 9, 10, 11, 12, 13, 14, 15, 16, 17, 18, 19, 20, 21, 22, 23, 45, 7,
   8, 28, 29, 30, 31, 32, 33, 34, 35, 36, 45, 46, 6, 5, 0, 41, 41, 54, 45, 46, 46, 46, 14, 40,
   25, 45, 46, 28, 29, 30, 31, 32, 33, 34, 35, 36, 37, 37, 38, 39, 77, 42, 43, 24, 45, 46, 9,
   10, 11, 12, 13, 14, 15, 16, 17, 18, 19, 20, 21, 22, 23, 45, 46, 42, 43, 42, 43, 4, 40, 26,
   24, 24, 5, 25, 25, 45, 44, 46, 44, 46, 45, 25, 25, 25, 22, 65, 22]

/-- The symbol on the left side of a rule. -/
def yyr1 : List Nat :=
  [0, 47, 48, 49, 49, 50, 50, 50, 50, 51, 51, 51, 51, 51, 51, 52, 53, 53, 54, 54, 54, 54, 54,
   54, 54, 54, 54, 54, 54, 54, 54, 54, 54, 55, 55, 56, 56, 56, 57, 57, 57, 57, 58, 58, 58, 58,
   59, 59, 59, 59, 59, 59, 60, 60, 60]

/-- The number of symbols on the right side of a rule. -/
def yyr2 : List Nat :=
  [0, 2, 1, 2, 1, 4, 4, 4, 6, 4, 6, 4, 6, 6, 4, 3, 1, 2, 1, 1, 1, 1, 1, 1, 1, 1, 1, 1, 1, 1, 1,
   1, 1, 3, 3, 3, 3, 3, 3, 3, 3, 1, 1, 1, 1, 1, 1, 1, 1, 1, 1, 3, 1, 1, 1]

/-- The number of an action token. -/
def PolicyAction.number : PolicyAction → Nat
  | .drop => 9
  | .fwd1 => 10
  | .fwd2 => 11
  | .fwd3 => 12
  | .fwd4 => 13
  | .fwd5 => 14
  | .fwd6 => 15
  | .fwd7 => 16
  | .fwd8 => 17
  | .fwd9 => 18
  | .fwd10 => 19
  | .fwd11 => 20
  | .fwd12 => 21
  | .fwd13 => 22
  | .fwd14 => 23

/-- The internal number of a token. -/
def Terminal.number : Terminal → Nat
  | .eof => 0
  | .kwIf => 3
  | .kwThen => 4
  | .kwElse => 5
  | .kwMatch => 6
  | .kwCount => 7
  | .kwMonitor => 8
  | .action a => a.number
  | .lp => 24
  | .rp => 25
  | .lb => 26
  | .rb => 27
  | .compare .lt => 28
  | .compare .gt => 29
  | .compare .ge => 30
  | .compare .le => 31
  | .compare .eq => 32
  | .arith .plus => 33
  | .arith .minus => 34
  | .arith .multi => 35
  | .arith .mod => 36
  | .bool .and => 37
  | .bool .or => 38
  | .bool .not => 39
  | .assign => 40
  | .kwDef => 41
  | .member .isIn => 42
  | .member .notIn => 43
  | .listvar => 44
  | .const => 45
  | .var => 46

/-- The number of a nonterminal. -/
def Nonterminal.number : Nonterminal → Nat
  | .accept => 47
  | .poise => 48
  | .statements => 49
  | .matchexpr => 50
  | .statement => 51
  | .listbody => 52
  | .listcontent => 53
  | .action => 54
  | .listexpr => 55
  | .binaryexpr => 56
  | .arithexpr => 57
  | .arithop => 58
  | .binaryop => 59
  | .boolop => 60

/-- The rules in the order of their numbers, from one on. -/
def yyRules : List Rule :=
  [.accept, .poise, .statementsMore, .statementsOne, .matchBinary, .matchList, .matchMonitor,
   .matchMonitorAnd, .ifThen, .ifThenElse, .ifNested, .count, .monitor, .defList, .listbody,
   .listcontentOne, .listcontentMore, .action .drop, .action .fwd1, .action .fwd2,
   .action .fwd3, .action .fwd4, .action .fwd5, .action .fwd6, .action .fwd7, .action .fwd8,
   .action .fwd9, .action .fwd10, .action .fwd11, .action .fwd12, .action .fwd13,
   .action .fwd14, .listexpr .isIn, .listexpr .notIn, .binaryVarConst, .binaryVarVar,
   .binaryArithConst, .arithVarVar, .arithVar, .arithConst, .arithLeaf, .arithop .plus,
   .arithop .minus, .arithop .multi, .arithop .mod, .binaryop .gt, .binaryop .lt,
   .binaryop .le, .binaryop .ge, .binaryop .eq, .binaryopBool, .boolop .and, .boolop .or,
   .boolop .not]

/-- The rule with a number. -/
def yyRule (n : Nat) : Rule :=
  yyRules.getD (n - 1) .accept

/-- The number of a rule. -/
def Rule.number (r : Rule) : Nat :=
  yyRules.idxOf r + 1

/-- The default entry of a state. -/
def yydefault (q : Fin 91) : LrAction (Fin 91) Rule :=
  match yydefact.getD q 0 with
  | 0 => .error
  | n + 1 => .reduce (yyRule (n + 1))

/-- The entry of a state for a token. -/
def yybackup (q : Fin 91) (a : Terminal) : LrAction (Fin 91) Rule :=
  let yyn := yypact.getD q 0
  if yyn = yypactNinf then
    yydefault q
  else
    let yyn := yyn + a.number
    if yyn < 0 ∨ yylast < yyn ∨ yycheck.getD yyn.toNat 0 ≠ a.number then
      yydefault q
    else
      match yytable.getD yyn.toNat 0 with
      | 0 => .reduce (yyRule 0)
      | n + 1 => .shift (Fin.ofNat 91 (n + 1))

/-- The state after a nonterminal. -/
def yygoto (q : Fin 91) (A : Nonterminal) : Fin 91 :=
  let yystate := yypgoto.getD (A.number - yyntokens) 0 + (q.val : Int)
  if 0 ≤ yystate ∧ yystate ≤ yylast ∧ yycheck.getD yystate.toNat 0 = q.val then
    Fin.ofNat 91 (yytable.getD yystate.toNat 0)
  else
    Fin.ofNat 91 (yydefgoto.getD (A.number - yyntokens) 0).toNat

/-- The generated parser. -/
def yyParser : LrParser (Fin 91) Terminal Nonterminal Rule Token YyStype YyState Failure where
  initial := 0
  final := yyfinal
  action := yybackup
  goto := yygoto
  lhs := Rule.lhs
  size := fun r => yyr2.getD r.number 0
  eof := .eof
  kind := Token.kind
  value := Token.value
  eofValue := .unset
  result := fun _ vs => vs.headD .unset
  semantic := Rule.semantic
  limit := yymaxdepth - 2

/-- Parse the tokens of a policy file; the bound on the steps is never reached. -/
def yyparse (ts : List Token) : Option (LrOutcome Token YyState Failure) :=
  yyParser.run (5 * ts.length + 1) ⟨[], {}, ts⟩

/-- The program a policy file is parsed into. -/
def yyparseProgram (ts : List Token) : Option Program :=
  match yyparse ts with
  | some (.accepted s) => some s.prog
  | _ => none

/-- The driver finds the left side of a rule under its number. -/
theorem yyr1_eq
    (r : Rule) :
    yyr1.getD r.number 0 = r.lhs.number := by
  cases r with
  | action a =>
      cases a <;> rfl
  | listexpr o =>
      cases o <;> rfl
  | arithop o =>
      cases o <;> rfl
  | binaryop o =>
      cases o <;> rfl
  | boolop b =>
      cases b <;> rfl
  | _ =>
      rfl

/-- The driver takes as many symbols off the stack as the rule has. -/
theorem yyr2_eq
    (r : Rule) :
    yyr2.getD r.number 0 = r.rhs.length := by
  cases r with
  | action a =>
      cases a <;> rfl
  | listexpr o =>
      cases o <;> rfl
  | arithop o =>
      cases o <;> rfl
  | binaryop o =>
      cases o <;> rfl
  | boolop b =>
      cases b <;> rfl
  | _ =>
      rfl

end GeneratedParser

end Poise
