import Poise.PolicyGrammar
import Poise.Foundations.LongestMatch
import Poise.Foundations.DecimalText

/-!
# Poise compiler: the lexer

The rules of `poise.l` in their order.  The scanner takes the longest match at
each point of the text, and the first of the rules that reach it.  Blanks,
comments and all characters no other rule knows are skipped, so a lone `=`, `:`
or `/` disappears.

A number is read by `atoi`: `strtol` stops at the largest `long`, and the
conversion to `int` keeps the low 32 bits.
-/

namespace Poise

open Foundations

section PolicyLexer

/-- The rules of the lexer. -/
inductive LexRule where
  | comment
  | literal (text : List Char) (t : Token)
  | listvar
  | blank
  | number
  | name
  | any
deriving DecidableEq, Repr

def lexRules : List LexRule :=
  [.comment,
   .literal ['i', 'f'] .kwIf,
   .literal ['t', 'h', 'e', 'n'] .kwThen,
   .literal ['e', 'l', 's', 'e'] .kwElse,
   .literal ['d', 'r', 'o', 'p'] (.action .drop),
   .literal ['f', 'w', 'd', '1'] (.action .fwd1),
   .literal ['f', 'w', 'd', '2'] (.action .fwd2),
   .literal ['f', 'w', 'd', '3'] (.action .fwd3),
   .literal ['f', 'w', 'd', '4'] (.action .fwd4),
   .literal ['f', 'w', 'd', '5'] (.action .fwd5),
   .literal ['f', 'w', 'd', '6'] (.action .fwd6),
   .literal ['f', 'w', 'd', '7'] (.action .fwd7),
   .literal ['f', 'w', 'd', '8'] (.action .fwd8),
   .literal ['f', 'w', 'd', '9'] (.action .fwd9),
   .literal ['f', 'w', 'd', '1', '0'] (.action .fwd10),
   .literal ['f', 'w', 'd', '1', '1'] (.action .fwd11),
   .literal ['f', 'w', 'd', '1', '2'] (.action .fwd12),
   .literal ['f', 'w', 'd', '1', '3'] (.action .fwd13),
   .literal ['f', 'w', 'd', '1', '4'] (.action .fwd14),
   .literal ['m', 'a', 't', 'c', 'h'] .kwMatch,
   .literal ['d', 'e', 'f'] .kwDef,
   .listvar,
   .literal [':', '='] .assign,
   .literal ['i', 'n'] (.member .isIn),
   .literal ['n', 'o', 't', 'i', 'n'] (.member .notIn),
   .literal ['c', 'o', 'u', 'n', 't'] .kwCount,
   .literal ['m', 'o', 'n', 'i', 't', 'o', 'r'] .kwMonitor,
   .literal ['('] .lp,
   .literal [')'] .rp,
   .literal ['['] .lb,
   .literal [']'] .rb,
   .literal ['<'] (.compare .lt),
   .literal ['<', '='] (.compare .le),
   .literal ['>'] (.compare .gt),
   .literal ['>', '='] (.compare .ge),
   .literal ['=', '='] (.compare .eq),
   .literal ['a', 'n', 'd'] (.bool .and),
   .literal ['o', 'r'] (.bool .or),
   .literal ['n', 'o', 't'] (.bool .not),
   .literal ['+'] (.arith .plus),
   .literal ['-'] (.arith .minus),
   .literal ['*'] (.arith .multi),
   .literal ['%'] (.arith .mod),
   .blank,
   .number,
   .name,
   .any]

/-- The number of characters a rule matches at the beginning of a text. -/
def LexRule.matchLength (text : List Char) : LexRule → Nat
  | .comment =>
      match text with
      | '/' :: '/' :: cs => 2 + (cs.takeWhile (· != '\n')).length
      | _ => 0
  | .literal k _ => if k.isPrefixOf text then k.length else 0
  | .listvar =>
      match text with
      | 'l' :: 'i' :: 's' :: 't' :: d :: _ => if d.isDigit then 5 else 0
      | _ => 0
  | .blank =>
      match text with
      | c :: _ => if c = ' ' ∨ c = '\t' ∨ c = '\n' then 1 else 0
      | [] => 0
  | .number => (text.takeWhile Char.isDigit).length
  | .name => (text.takeWhile Char.isAlphanum).length
  | .any =>
      match text with
      | c :: _ => if c = '\n' then 0 else 1
      | [] => 0

/-- The conversion of digits to an `int`. -/
def atoi (digits : List Char) : Int :=
  Int.bmod (min (Nat.ofDigitChars 10 digits 0) (2 ^ 63 - 1) : Nat) (2 ^ 32)

/-- The token of a matched text. -/
def LexRule.token (yytext : List Char) : LexRule → Option Token
  | .literal _ t => some t
  | .listvar => some (.listvar (String.ofList yytext))
  | .number => some (.const (atoi yytext))
  | .name => some (.var (String.ofList yytext))
  | .comment | .blank | .any => none

/-- The match at the beginning of a text. -/
def nextToken (text : List Char) : Nat × Option Token :=
  match lexRules.argmax (fun r => r.matchLength text) with
  | some r => (r.matchLength text, r.token (text.take (r.matchLength text)))
  | none => (0, none)

/-- The tokens of a policy file. -/
def yylex (text : List Char) : List Token :=
  scan nextToken 0 text

/-- The text a token is written with. -/
def Token.text : Token → List Char
  | .kwIf => ['i', 'f']
  | .kwThen => ['t', 'h', 'e', 'n']
  | .kwElse => ['e', 'l', 's', 'e']
  | .action .drop => ['d', 'r', 'o', 'p']
  | .action .fwd1 => ['f', 'w', 'd', '1']
  | .action .fwd2 => ['f', 'w', 'd', '2']
  | .action .fwd3 => ['f', 'w', 'd', '3']
  | .action .fwd4 => ['f', 'w', 'd', '4']
  | .action .fwd5 => ['f', 'w', 'd', '5']
  | .action .fwd6 => ['f', 'w', 'd', '6']
  | .action .fwd7 => ['f', 'w', 'd', '7']
  | .action .fwd8 => ['f', 'w', 'd', '8']
  | .action .fwd9 => ['f', 'w', 'd', '9']
  | .action .fwd10 => ['f', 'w', 'd', '1', '0']
  | .action .fwd11 => ['f', 'w', 'd', '1', '1']
  | .action .fwd12 => ['f', 'w', 'd', '1', '2']
  | .action .fwd13 => ['f', 'w', 'd', '1', '3']
  | .action .fwd14 => ['f', 'w', 'd', '1', '4']
  | .kwMatch => ['m', 'a', 't', 'c', 'h']
  | .kwDef => ['d', 'e', 'f']
  | .assign => [':', '=']
  | .member .isIn => ['i', 'n']
  | .member .notIn => ['n', 'o', 't', 'i', 'n']
  | .kwCount => ['c', 'o', 'u', 'n', 't']
  | .kwMonitor => ['m', 'o', 'n', 'i', 't', 'o', 'r']
  | .lp => ['(']
  | .rp => [')']
  | .lb => ['[']
  | .rb => [']']
  | .compare .lt => ['<']
  | .compare .le => ['<', '=']
  | .compare .gt => ['>']
  | .compare .ge => ['>', '=']
  | .compare .eq => ['=', '=']
  | .bool .and => ['a', 'n', 'd']
  | .bool .or => ['o', 'r']
  | .bool .not => ['n', 'o', 't']
  | .arith .plus => ['+']
  | .arith .minus => ['-']
  | .arith .multi => ['*']
  | .arith .mod => ['%']
  | .listvar s => s.toList
  | .const c => (c % 2 ^ 32).toNat.repr.toList
  | .var s => s.toList

end PolicyLexer

end Poise
