import Poise.GeneratedParser
import Poise.PolicySpelling

/-!
# Poise compiler: correctness of the generated parser

The certificate of the generated tables lists for every state the rules the
parser may be inside of; the tables are checked against it entry by entry.  With
the phrases of the grammar it gives the correctness of the front end: the parser
accepts the spellings of policies, builds the program that the actions of the
policy build, and reports an error at the first token no policy goes on with.
-/

namespace Poise

open Foundations

section ParserCertificate

/-- The rules a state is inside of, by number, with the number of symbols read. -/
def yyKernel : List (List (Nat × Nat)) :=
  [[(1, 0)], [(9, 1), (10, 1), (11, 1)], [(14, 1)], [(12, 1), (13, 1)], [(1, 1)],
   [(2, 1), (3, 1)], [(4, 1)], [(5, 1), (6, 1), (7, 1), (8, 1)], [(9, 2), (10, 2), (11, 2)],
   [(14, 2)], [(12, 2), (13, 2)], [(1, 2)], [(3, 2)], [(5, 2), (6, 2), (7, 2), (8, 2)],
   [(9, 3), (10, 3), (11, 3)], [(14, 3)], [(12, 3)], [(13, 3)], [(41, 1)],
   [(7, 3), (8, 3), (33, 1), (34, 1), (35, 1), (36, 1), (38, 1)], [(6, 3)], [(5, 3)],
   [(37, 1), (39, 1), (40, 1)], [(18, 1)], [(19, 1)], [(20, 1)], [(21, 1)], [(22, 1)], [(23, 1)],
   [(24, 1)], [(25, 1)], [(26, 1)], [(27, 1)], [(28, 1)], [(29, 1)], [(30, 1)], [(31, 1)],
   [(32, 1)], [(11, 4)], [(9, 4), (10, 4)], [(15, 1)], [(14, 4)], [(12, 4)], [(13, 4)], [(7, 4)],
   [(47, 1)], [(46, 1)], [(49, 1)], [(48, 1)], [(50, 1)], [(42, 1)], [(43, 1)], [(44, 1)],
   [(45, 1)], [(8, 4)], [(33, 2)], [(34, 2)], [(35, 1), (36, 1), (38, 1)], [(51, 1)], [(38, 2)],
   [(35, 2), (36, 2)], [(6, 4)], [(5, 4)], [(39, 2), (40, 2)], [(37, 2)], [(10, 5)], [(16, 1)],
   [(15, 2), (17, 1)], [(33, 1), (34, 1)], [(12, 5)], [(13, 5)], [(8, 5)], [(33, 3)], [(34, 3)],
   [(52, 1)], [(53, 1)], [(54, 1)], [(51, 2)], [(38, 3)], [(35, 3)], [(36, 3)], [(40, 3)],
   [(39, 3)], [(37, 3)], [(10, 6)], [(15, 3)], [(17, 2)], [(12, 6)], [(13, 6)], [(8, 6)],
   [(51, 3)]]

/-- The nonterminals that may stand first in a phrase of a nonterminal. -/
def leftCorners : Nonterminal → List Nonterminal
  | .poise => [.poise, .statements, .statement]
  | .statements => [.statements, .statement]
  | .binaryexpr => [.binaryexpr, .arithexpr]
  | .binaryop => [.binaryop, .binaryexpr, .arithexpr]
  | A => [A]

/-- The rules that begin where a symbol is expected. -/
def startedAt : Option (GrammarSymbol Terminal Nonterminal) → List Rule
  | some (.nonterminal A) => yyRules.filter fun r => r.lhs ∈ leftCorners A
  | _ => []

/-- The rules a state is inside of or at the beginning of. -/
def yyItems (q : Fin 91) : List (Rule × Nat) :=
  let kernel := (yyKernel.getD q []).map fun i => (yyRule i.1, i.2)
  kernel ++ kernel.flatMap fun i => (startedAt i.1.rhs[i.2]?).map fun r => (r, 0)

def allActions : List PolicyAction :=
  [.drop, .fwd1, .fwd2, .fwd3, .fwd4, .fwd5, .fwd6, .fwd7, .fwd8, .fwd9, .fwd10, .fwd11,
   .fwd12, .fwd13, .fwd14]

def compareTerminals : List Terminal :=
  [.compare .lt, .compare .gt, .compare .ge, .compare .le, .compare .eq]

def arithTerminals : List Terminal :=
  [.arith .plus, .arith .minus, .arith .multi, .arith .mod]

def boolTerminals : List Terminal :=
  [.bool .and, .bool .or, .bool .not]

def allTerminals : List Terminal :=
  List.flatten
    [[.eof, .kwIf, .kwThen, .kwElse, .kwMatch, .kwCount, .kwMonitor],
     allActions.map Terminal.action, [.lp, .rp, .lb, .rb], compareTerminals, arithTerminals,
     boolTerminals, [.assign, .kwDef, .member .isIn, .member .notIn, .listvar, .const, .var]]

theorem mem_allTerminals
    (a : Terminal) :
    a ∈ allTerminals := by
  cases a with
  | action a =>
      cases a <;> exact List.elem_iff.mp rfl
  | compare o =>
      cases o <;> exact List.elem_iff.mp rfl
  | arith o =>
      cases o <;> exact List.elem_iff.mp rfl
  | bool b =>
      cases b <;> exact List.elem_iff.mp rfl
  | member o =>
      cases o <;> exact List.elem_iff.mp rfl
  | _ =>
      exact List.elem_iff.mp rfl

theorem mem_yyRules
    (r : Rule) :
    r ∈ yyRules := by
  cases r with
  | action a =>
      cases a <;> exact List.elem_iff.mp rfl
  | listexpr o =>
      cases o <;> exact List.elem_iff.mp rfl
  | arithop o =>
      cases o <;> exact List.elem_iff.mp rfl
  | binaryop o =>
      cases o <;> exact List.elem_iff.mp rfl
  | boolop b =>
      cases b <;> exact List.elem_iff.mp rfl
  | _ =>
      exact List.elem_iff.mp rfl

/-- The tokens a phrase of a nonterminal may begin with. -/
def firstSet : Nonterminal → List Terminal
  | .accept | .poise | .statements | .statement => [.kwIf, .kwDef, .var]
  | .matchexpr => [.kwMatch]
  | .listbody => [.lb]
  | .listcontent => [.const]
  | .action => allActions.map .action
  | .listexpr => [.var]
  | .binaryexpr | .arithexpr => [.var, .const]
  | .arithop => arithTerminals
  | .binaryop => [.var, .const] ++ compareTerminals
  | .boolop => boolTerminals

/-- The tokens that may come behind a phrase of a nonterminal. -/
def followSet : Nonterminal → List Terminal
  | .accept => []
  | .poise => [.eof]
  | .statements | .statement | .listbody => [.eof, .kwIf, .kwDef, .var]
  | .matchexpr => [.kwThen]
  | .listcontent => [.rb, .const]
  | .action => [.kwElse, .eof, .kwIf, .kwDef, .var]
  | .listexpr => [.rp]
  | .binaryexpr => [.rp, .var, .const] ++ boolTerminals
  | .arithexpr => [.var, .const] ++ arithTerminals ++ compareTerminals
  | .arithop | .binaryop | .boolop => [.var, .const]

/-- The tokens a phrase of a symbol may begin with. -/
def firstOfSet : GrammarSymbol Terminal Nonterminal → List Terminal
  | .terminal a => [a]
  | .nonterminal A => firstSet A

/-- The tokens that may come behind a symbol of a right side. -/
def behindSet (r : Rule) : Option (GrammarSymbol Terminal Nonterminal) → List Terminal
  | some X => firstOfSet X
  | none => followSet r.lhs

/-- The order in which rules that begin at one place are begun for each other. -/
def startRank : Nonterminal → Nat
  | .accept => 0
  | .poise | .binaryop => 1
  | .statements | .binaryexpr => 2
  | _ => 3

/-- Weights under which every reduction makes the stack lighter. -/
def symbolWeight : GrammarSymbol Terminal Nonterminal → Nat
  | .terminal _ => 4
  | .nonterminal .accept => 0
  | .nonterminal .poise => 1
  | .nonterminal .statements => 2
  | .nonterminal _ => 3

instance decidableItemEdge
    (q : Fin 91)
    (X : GrammarSymbol Terminal Nonterminal)
    (q' : Fin 91) :
    Decidable (ItemEdge yyItems Rule.rhs .accept q X q') :=
  inferInstanceAs (Decidable (∀ i ∈ yyItems q', _))

/-- An entry of the action table is justified by the rules of its state. -/
def EntryJustified (q : Fin 91) (a : Terminal) : LrAction (Fin 91) Rule → Prop
  | .shift q' =>
      ItemEdge yyItems Rule.rhs .accept q (.terminal a) q' ∧ (a = .eof → q' = yyfinal)
  | .reduce r => (r, r.rhs.length) ∈ yyItems q
  | .error => True

instance decidableEntryJustified
    (q : Fin 91)
    (a : Terminal) :
    ∀ e, Decidable (EntryJustified q a e)
  | .shift _ => inferInstanceAs (Decidable (_ ∧ _))
  | .reduce _ => inferInstanceAs (Decidable (_ ∈ _))
  | .error => inferInstanceAs (Decidable True)

theorem yydefault_justified :
    ∀ q : Fin 91, EntryJustified q .eof (yydefault q) := by
  decide +kernel

theorem listed_justified :
    ∀ q : Fin 91, yypact.getD q 0 ≠ yypactNinf →
      ∀ a ∈ allTerminals, EntryJustified q a (yybackup q a) := by
  decide +kernel

/-- Every entry of the action table is justified. -/
theorem entries_justified
    (q : Fin 91)
    (a : Terminal) :
    EntryJustified q a (yybackup q a) := by
  by_cases hq : yypact.getD q 0 = yypactNinf
  · have hentry : yybackup q a = yydefault q := by
      simp only [yybackup, hq, if_true]
    have h := yydefault_justified q
    rw [hentry]
    cases hdefault : yydefault q with
    | shift q' =>
        unfold yydefault at hdefault
        split at hdefault <;> cases hdefault
    | reduce r =>
        rw [hdefault] at h
        exact h
    | error =>
        trivial
  · exact listed_justified q hq a (mem_allTerminals a)

/-- An entry shifts into a state that is inside of a rule. -/
def ShiftsInto (i : Rule × Nat) : LrAction (Fin 91) Rule → Prop
  | .shift q' => i ∈ yyItems q'
  | _ => False

instance decidableShiftsInto
    (i : Rule × Nat) :
    ∀ e, Decidable (ShiftsInto i e)
  | .shift _ => inferInstanceAs (Decidable (_ ∈ _))
  | .reduce _ => inferInstanceAs (Decidable False)
  | .error => inferInstanceAs (Decidable False)

/-- A rule a state is inside of can go on with its next symbol, or be reduced. -/
def ItemAdvances (q : Fin 91) (i : Rule × Nat) :
    Option (GrammarSymbol Terminal Nonterminal) → Prop
  | some (.terminal a) => ShiftsInto (i.1, i.2 + 1) (yybackup q a)
  | some (.nonterminal A) =>
      (i.1, i.2 + 1) ∈ yyItems (yygoto q A) ∧
      ItemEdge yyItems Rule.rhs .accept q (.nonterminal A) (yygoto q A) ∧
      ∀ r ∈ yyRules, r.lhs = A → (r, 0) ∈ yyItems q
  | none =>
      i.2 = i.1.rhs.length → i.1 ≠ .accept →
        ∀ a ∈ followSet i.1.lhs, yybackup q a = .reduce i.1

instance decidableItemAdvances
    (q : Fin 91)
    (i : Rule × Nat) :
    ∀ X, Decidable (ItemAdvances q i X)
  | some (.terminal _) => inferInstanceAs (Decidable (ShiftsInto _ _))
  | some (.nonterminal _) => inferInstanceAs (Decidable (_ ∧ _ ∧ _))
  | none => inferInstanceAs (Decidable (_ → _ → _))

theorem items_advance :
    ∀ q : Fin 91, ∀ i ∈ yyItems q, ItemAdvances q i (i.1.rhs)[i.2]? := by
  decide +kernel

/-- A rule a state begins is begun for a rule it is further inside of, or for one begun
before it. -/
theorem started_justified :
    ∀ q : Fin 91, ∀ i ∈ yyItems q, i.2 = 0 → i.1 ≠ .accept →
      ∃ j ∈ yyItems q, j.1.rhs[j.2]? = some (.nonterminal i.1.lhs) ∧
        (0 < j.2 ∨ startRank j.1.lhs < startRank i.1.lhs) := by
  decide +kernel

/-- What a right side may begin with is in the set of the left side. -/
theorem firstSet_closed :
    ∀ r ∈ yyRules, ∀ X ∈ r.rhs.take 1, ∀ a ∈ firstOfSet X, a ∈ firstSet r.lhs := by
  decide +kernel

/-- What may come behind the nonterminals of right sides is in their sets. -/
def FollowClosed (r : Rule) (k : Nat) : Option (GrammarSymbol Terminal Nonterminal) → Prop
  | some (.nonterminal A) => ∀ a ∈ behindSet r r.rhs[k + 1]?, a ∈ followSet A
  | _ => True

instance decidableFollowClosed
    (r : Rule)
    (k : Nat) :
    ∀ X, Decidable (FollowClosed r k X)
  | some (.nonterminal _) => inferInstanceAs (Decidable (∀ a ∈ _, _))
  | some (.terminal _) => inferInstanceAs (Decidable True)
  | none => inferInstanceAs (Decidable True)

theorem followSet_closed :
    ∀ r ∈ yyRules, ∀ k ∈ List.range r.rhs.length, FollowClosed r k r.rhs[k]? := by
  decide +kernel

theorem items_nonempty :
    ∀ q : Fin 91, yyItems q ≠ [] := by
  decide +kernel

theorem initial_items :
    ∀ i ∈ yyItems 0, i.2 = 0 := by
  decide +kernel

theorem symbolWeight_lhs :
    ∀ r ∈ yyRules, symbolWeight (.nonterminal r.lhs) < (r.rhs.map symbolWeight).sum := by
  decide +kernel

theorem firstOf_iff
    {X : GrammarSymbol Terminal Nonterminal} {a : Terminal} :
    FirstOf (fun A a => a ∈ firstSet A) X a ↔ a ∈ firstOfSet X := by
  cases X with
  | terminal b =>
      simp [FirstOf, firstOfSet]
  | nonterminal A =>
      rfl

theorem follow_of_behind
    {r : Rule} {k : Nat} {A : Nonterminal} {a : Terminal}
    (hA : r.rhs[k]? = some (.nonterminal A))
    (ha : a ∈ behindSet r r.rhs[k + 1]?) :
    a ∈ followSet A := by
  obtain ⟨hk, _⟩ := List.getElem?_eq_some_iff.mp hA
  have h := followSet_closed r (mem_yyRules r) k (List.mem_range.mpr hk)
  rw [hA] at h
  exact h a ha

theorem shift_justified
    {q q' : Fin 91} {a : Terminal}
    (h : yybackup q a = .shift q') :
    ItemEdge yyItems Rule.rhs .accept q (.terminal a) q' ∧ (a = .eof → q' = yyfinal) := by
  have hentry := entries_justified q a
  rwa [h] at hentry

theorem shifts_of_item
    {q : Fin 91} {i : Rule × Nat} {a : Terminal}
    (hi : i ∈ yyItems q)
    (ha : i.1.rhs[i.2]? = some (.terminal a)) :
    ∃ q', yybackup q a = .shift q' ∧ (i.1, i.2 + 1) ∈ yyItems q' := by
  have h := items_advance q i hi
  rw [ha] at h
  change ShiftsInto _ (yybackup q a) at h
  cases hentry : yybackup q a with
  | shift q' =>
      rw [hentry] at h
      exact ⟨q', rfl, h⟩
  | reduce r =>
      rw [hentry] at h
      exact h.elim
  | error =>
      rw [hentry] at h
      exact h.elim

theorem goto_of_item
    {q : Fin 91} {i : Rule × Nat} {A : Nonterminal}
    (hi : i ∈ yyItems q)
    (hA : i.1.rhs[i.2]? = some (.nonterminal A)) :
    (i.1, i.2 + 1) ∈ yyItems (yygoto q A) ∧
      ItemEdge yyItems Rule.rhs .accept q (.nonterminal A) (yygoto q A) ∧
      ∀ r ∈ yyRules, r.lhs = A → (r, 0) ∈ yyItems q := by
  have h := items_advance q i hi
  rwa [hA] at h

theorem reduce_of_item
    {q : Fin 91} {r : Rule} {a : Terminal}
    (hi : (r, r.rhs.length) ∈ yyItems q)
    (hr : r ≠ .accept)
    (ha : a ∈ followSet r.lhs) :
    yybackup q a = .reduce r := by
  have h := items_advance q (r, r.rhs.length) hi
  rw [List.getElem?_eq_none (le_refl _)] at h
  exact h rfl hr a ha

/-- No right side has the symbol of the whole input. -/
theorem accept_notMem_rhs
    (r : Rule) :
    GrammarSymbol.nonterminal Nonterminal.accept ∉ r.rhs := by
  cases r <;> simp [Rule.rhs]

/-- The end marker stands in the first rule only. -/
theorem eof_notMem_rhs
    {r : Rule}
    (hr : r ≠ .accept) :
    GrammarSymbol.terminal Terminal.eof ∉ r.rhs := by
  cases r <;> simp [Rule.rhs] at hr ⊢

/-- The certificate of the generated tables. -/
def yyCertificate : LrCertificate yyParser where
  rhs := Rule.rhs
  accept := .accept
  start := .poise
  items := yyItems
  first := fun A a => a ∈ firstSet A
  follow := fun A a => a ∈ followSet A
  rank := startRank
  weight := symbolWeight
  weightBound := 5
  size_eq := yyr2_eq
  rhs_ne_nil := by
    intro r
    cases r <;> simp [Rule.rhs]
  rhs_accept := rfl
  rhs_eof := by
    rintro r hr X hX rfl
    exact eof_notMem_rhs hr hX
  kind_ne_eof := by
    intro t
    cases t <;> simp [yyParser, Token.kind]
  two_le_limit := by
    simp [yyParser, yymaxdepth]
  initial_accept := by
    simp [yyParser, yyItems, yyKernel, yyRule, yyRules]
  initial_dot := initial_items
  final_accept := by
    simp [yyParser, yyfinal, yyItems, yyKernel, yyRule, yyRules]
  items_ne_nil := items_nonempty
  shift_eof := by
    intro q q' h
    exact (shift_justified h).2 rfl
  shift_edge := by
    intro q a q' h
    exact (shift_justified h).1
  goto_edge := by
    intro q r hi hr
    obtain ⟨j, hj, hX, _⟩ := started_justified q (r, 0) hi rfl hr
    exact (goto_of_item hj hX).2.1
  reduce_item := by
    intro q a r h
    have hentry := entries_justified q a
    rw [show yybackup q a = .reduce r from h] at hentry
    change (r, yyr2.getD r.number 0) ∈ yyItems q
    rw [yyr2_eq]
    exact hentry
  shift_item := by
    intro q i hi a ha
    exact shifts_of_item hi ha
  goto_item := by
    intro q i hi A hA
    exact (goto_of_item hi hA).1
  closure_item := by
    intro q i hi r hr
    exact (goto_of_item hi hr).2.2 r (mem_yyRules r) rfl
  reduce_action := by
    intro q r a hi hr ha
    change (r, yyr2.getD r.number 0) ∈ yyItems q at hi
    rw [yyr2_eq] at hi
    exact reduce_of_item hi hr ha
  first_rhs := by
    intro r X a hX ha
    have hmem : X ∈ r.rhs.take 1 := by
      rw [List.take_add_one, hX]
      simp
    exact firstSet_closed r (mem_yyRules r) X hmem a (firstOf_iff.mp ha)
  follow_inner := by
    intro r k A X a hA hX ha
    refine follow_of_behind hA ?_
    rw [hX]
    exact firstOf_iff.mp ha
  follow_last := by
    intro r k A a hA hnone ha
    refine follow_of_behind hA ?_
    rw [hnone]
    exact ha
  justified := by
    intro q r hi hr
    exact started_justified q (r, 0) hi rfl hr
  weight_lhs := by
    intro r
    exact symbolWeight_lhs r (mem_yyRules r)
  weight_terminal := by
    intro a
    exact Nat.lt_succ_self 4

/-- A token of every kind but the end of the input. -/
theorem exists_kind
    {a : Terminal}
    (ha : a ≠ .eof) :
    ∃ t : Token, t.kind = a := by
  cases a with
  | eof =>
      exact absurd rfl ha
  | listvar =>
      exact ⟨.listvar "", rfl⟩
  | const =>
      exact ⟨.const 0, rfl⟩
  | var =>
      exact ⟨.var "", rfl⟩
  | action a =>
      exact ⟨.action a, rfl⟩
  | compare o =>
      exact ⟨.compare o, rfl⟩
  | arith o =>
      exact ⟨.arith o, rfl⟩
  | bool b =>
      exact ⟨.bool b, rfl⟩
  | member o =>
      exact ⟨.member o, rfl⟩
  | kwIf =>
      exact ⟨.kwIf, rfl⟩
  | kwThen =>
      exact ⟨.kwThen, rfl⟩
  | kwElse =>
      exact ⟨.kwElse, rfl⟩
  | kwMatch =>
      exact ⟨.kwMatch, rfl⟩
  | kwCount =>
      exact ⟨.kwCount, rfl⟩
  | kwMonitor =>
      exact ⟨.kwMonitor, rfl⟩
  | lp =>
      exact ⟨.lp, rfl⟩
  | rp =>
      exact ⟨.rp, rfl⟩
  | lb =>
      exact ⟨.lb, rfl⟩
  | rb =>
      exact ⟨.rb, rfl⟩
  | assign =>
      exact ⟨.assign, rfl⟩
  | kwDef =>
      exact ⟨.kwDef, rfl⟩

/-- Every nonterminal of the grammar has a phrase. -/
theorem exists_phrase
    {A : Nonterminal}
    (hA : A ≠ .accept) :
    ∃ p w, DerivesAll Phrase.token Produces [p] w ∧ p.symbol = .nonterminal A := by
  have hstatement : policySpelled [.defList "" 0 []] _ := ⟨_, [], rfl, rfl, rfl⟩
  cases A with
  | accept =>
      exact absurd rfl hA
  | poise =>
      exact ⟨_, _, poise_derives_iff.mpr hstatement, rfl⟩
  | statements =>
      exact ⟨_, _, statements_derives hstatement, rfl⟩
  | matchexpr =>
      exact ⟨_, _, (MatchSyntax.monitor "").derives rfl, rfl⟩
  | statement =>
      exact ⟨_, _, (Statement.defList "" 0 []).derives rfl, rfl⟩
  | listbody =>
      exact ⟨_, _, listbody_derives 0 [], rfl⟩
  | listcontent =>
      exact ⟨_, _, listcontent_derives 0 [], rfl⟩
  | action =>
      exact ⟨_, _, action_derives .drop, rfl⟩
  | listexpr =>
      exact ⟨_, _, (ListExprSyntax.mk "" .isIn "").derives, rfl⟩
  | binaryexpr =>
      exact ⟨_, _, (BinaryExpr.varConst "" (.op .eq) 0).derives ⟨_, rfl, rfl⟩, rfl⟩
  | arithexpr =>
      exact ⟨_, _, (ArithSyntax.const 0).derives, rfl⟩
  | arithop =>
      exact ⟨_, _, .make (.leaf (.arith .plus)) .arithop, rfl⟩
  | binaryop =>
      exact ⟨_, _, (BinaryOp.op .eq).derives rfl, rfl⟩
  | boolop =>
      exact ⟨_, _, .make (.leaf (.bool .and)) .boolop, rfl⟩

/-- The phrases of the grammar with their reductions. -/
def yyPhrases : LrPhrases yyParser yyCertificate Phrase where
  token := .token
  Produces := Produces
  symbol := Phrase.symbol
  value := Phrase.value
  act := Phrase.act
  depth := Phrase.depth
  symbol_token := fun _ => rfl
  value_token := fun _ => rfl
  act_token := fun _ _ => rfl
  depth_token := fun _ => rfl
  produces_accept := Produces.ne_accept
  produces_rhs := Produces.rhs
  produces_symbol := Produces.symbol
  produces_value := Produces.value
  produces_act := Produces.act
  produces_depth := Produces.depth
  exists_produces := exists_produces
  productive := by
    intro r X hX hne
    cases X with
    | terminal a =>
        obtain ⟨t, rfl⟩ := exists_kind (a := a) (by
          rintro rfl
          exact hne rfl)
        exact ⟨.token t, [t], .leaf t, rfl⟩
    | nonterminal A =>
        refine exists_phrase (A := A) ?_
        rintro rfl
        exact accept_notMem_rhs r hX

/-- The parser stops on every token list within its bound on the steps. -/
theorem yyparse_ends
    (ts : List Token) :
    ∃ o, yyparse ts = some o :=
  yyPhrases.run_ends {} ts (Nat.lt_succ_self _)

/-- A phrase of the start symbol is a nonempty sequence of statements. -/
theorem exists_start_phrase_iff
    {P : Phrase → Prop} {w : List Token} :
    (∃ p, yyPhrases.Derives [p] w ∧ p.symbol = .nonterminal .poise ∧ P p) ↔
      ∃ t ts, policySpelled (t :: ts) w ∧ P (.poise t ts) := by
  constructor
  · rintro ⟨p, hd, hp, h⟩
    obtain ⟨t, ts, rfl⟩ := symbol_eq_nonterminal_iff.mp hp
    exact ⟨t, ts, poise_derives_iff.mp hd, h⟩
  · rintro ⟨t, ts, hw, h⟩
    exact ⟨.poise t ts, poise_derives_iff.mpr hw, rfl, h⟩

theorem yyparse_eq_accepted_iff
    {w : List Token} {s : YyState} :
    yyparse w = some (.accepted s) ↔
      ∃ t ts, policySpelled (t :: ts) w ∧ policyDepth (t :: ts) ≤ yymaxdepth - 2 ∧
        policyReduce (t :: ts) {} = .ok s := by
  refine Iff.trans (yyPhrases.accepted_iff (n := 5 * w.length + 1) (Nat.lt_succ_self _)) ?_
  exact exists_start_phrase_iff

theorem yyparseProgram_eq_some
    {w : List Token} {prog : Program} :
    yyparseProgram w = some prog ↔ ∃ s, yyparse w = some (.accepted s) ∧ s.prog = prog := by
  unfold yyparseProgram
  split
  · rename_i s hs
    simp [hs]
  · rename_i hne
    simp only [reduceCtorEq, false_iff]
    rintro ⟨s, hs, _⟩
    exact hne s hs

/-- The generated parser builds a program exactly from the spellings of nonempty policies that
fit on its stack, and it is the program the actions of the policy build. -/
theorem yyparseProgram_eq_some_iff
    (w : List Token)
    (prog : Program) :
    yyparseProgram w = some prog ↔
      ∃ policy, policy ≠ [] ∧ policySpelled policy w ∧ policyDepth policy ≤ 9998 ∧
        parsePolicy policy = .ok prog := by
  rw [yyparseProgram_eq_some]
  constructor
  · rintro ⟨s, hs, rfl⟩
    obtain ⟨t, ts, hw, hdepth, hred⟩ := yyparse_eq_accepted_iff.mp hs
    exact ⟨t :: ts, by simp, hw, hdepth, (policyReduce_program _ _).mp ⟨s, hred, rfl⟩⟩
  · rintro ⟨policy, hne, hw, hdepth, hparse⟩
    obtain ⟨t, ts, rfl⟩ := List.exists_cons_of_ne_nil hne
    obtain ⟨s, hred, hs⟩ := (policyReduce_program _ _).mpr hparse
    exact ⟨s, yyparse_eq_accepted_iff.mpr ⟨t, ts, hw, hdepth, hred⟩, hs⟩

/-- What the parser does with the spelling of a policy is decided by the policy: it accepts,
or an action of the policy fails, or the policy needs more room than the stack has. -/
theorem yyparse_spelled
    {policy : List Statement} {w : List Token}
    (hne : policy ≠ [])
    (hw : policySpelled policy w) :
    (∃ s, parsePolicy policy = .ok s.prog ∧ policyDepth policy ≤ 9998 ∧
      yyparse w = some (.accepted s)) ∨
    (∃ e, parsePolicy policy = .error e ∧ yyparse w = some (.failed e)) ∨
    (9998 < policyDepth policy ∧ yyparse w = some .exhausted) := by
  obtain ⟨t, ts, rfl⟩ := List.exists_cons_of_ne_nil hne
  obtain ⟨o, ho⟩ := yyparse_ends w
  have hagree := policyReduce_agrees (t :: ts) {} rfl
  rcases yyPhrases.stops_of_derives (poise_derives_iff.mpr hw) rfl {} with
    ⟨s, hact, hdepth, hstop⟩ | ⟨e, hact, hstop⟩ | ⟨hdepth, hstop⟩
  · refine .inl ⟨s, (policyReduce_program _ _).mp ⟨s, hact, rfl⟩, hdepth, ?_⟩
    rw [ho, LrParser.run_eq_of_stops ho hstop]
  · refine .inr (.inl ⟨e, ?_, ?_⟩)
    · rw [show policyReduce (t :: ts) {} = .error e from hact] at hagree
      unfold parsePolicy
      revert hagree
      generalize runStatements (t :: ts) ({} : YyState).toParserState = y
      rintro (_ | _)
      rfl
    · rw [ho, LrParser.run_eq_of_stops ho hstop]
  · refine .inr (.inr ⟨hdepth, ?_⟩)
    rw [ho, LrParser.run_eq_of_stops ho hstop]

/-- A syntax error is reported at the first token that no policy goes on with: what was read
begins the spelling of some policy, and the spellings it begins have another kind of token
there, or end there where the input does not. -/
theorem yyparse_syntaxError
    {w rest : List Token}
    (h : yyparse w = some (.syntaxError rest)) :
    ∃ u, w = u ++ rest ∧
      (∃ v policy, policy ≠ [] ∧ policySpelled policy (u ++ v)) ∧
      ∀ v policy, policy ≠ [] → policySpelled policy (u ++ v) →
        v.head?.map Token.kind ≠ rest.head?.map Token.kind := by
  obtain ⟨u, hw, ⟨v, p, hp, hsym⟩, hlook⟩ :=
    yyPhrases.syntaxError_position (LrParser.stops_of_run h)
  refine ⟨u, hw, ?_, ?_⟩
  · obtain ⟨t, ts, rfl⟩ := symbol_eq_nonterminal_iff.mp hsym
    exact ⟨v, t :: ts, by simp, poise_derives_iff.mp hp⟩
  · intro v policy hne hv heq
    obtain ⟨t, ts, rfl⟩ := List.exists_cons_of_ne_nil hne
    refine hlook v (.poise t ts) (poise_derives_iff.mpr hv) rfl ?_
    cases v <;> cases rest <;> simp_all [LrParser.look, yyParser]

/-- A second `if` behind the first is an error at the second. -/
theorem yyparse_syntaxError_twoIfs :
    yyparse [.kwIf, .kwIf] = some (.syntaxError [.kwIf]) ∧
    ∃ u, [Token.kwIf, .kwIf] = u ++ [.kwIf] ∧
      (∃ v policy, policy ≠ [] ∧ policySpelled policy (u ++ v)) ∧
      ∀ v policy, policy ≠ [] → policySpelled policy (u ++ v) →
        v.head?.map Token.kind ≠ [Token.kwIf].head?.map Token.kind := by
  have h : yyparse [.kwIf, .kwIf] = some (.syntaxError [.kwIf]) := by
    decide +kernel
  exact ⟨h, yyparse_syntaxError h⟩

theorem Produces.unique
    {r : Rule} {ps : List Phrase} {p p' : Phrase}
    (h : Produces r ps p)
    (h' : Produces r ps p') :
    p = p' := by
  cases h <;> cases h' <;> rfl

/-- The empty policy alone is spelled by no tokens. -/
theorem policySpelled_nil_iff
    {policy : List Statement} :
    policySpelled policy [] ↔ policy = [] := by
  constructor
  · intro h
    cases policy with
    | nil =>
        rfl
    | cons t ts =>
        obtain ⟨_, _, hw, _⟩ := yyPhrases.first_of_derives (statements_derives h)
        cases hw
  · rintro rfl
    rfl

/-- No token list spells two policies. -/
theorem spelling_unique
    {policy policy' : List Statement} {w : List Token}
    (h : policySpelled policy w)
    (h' : policySpelled policy' w) :
    policy = policy' := by
  cases policy with
  | nil =>
      cases h
      exact (policySpelled_nil_iff.mp h').symm
  | cons t ts =>
      cases policy' with
      | nil =>
          cases h'
          exact policySpelled_nil_iff.mp h
      | cons t' ts' =>
          have heq := yyPhrases.unambiguous Produces.unique (poise_derives_iff.mpr h)
            (poise_derives_iff.mpr h') rfl rfl
          cases heq
          rfl

/-- A list declaration is spelled by its tokens alone. -/
theorem spelling_unique_declaration :
    policySpelled [.defList "list1" 5 []]
      [.kwDef, .listvar "list1", .assign, .lb, .const 5, .rb] ∧
    ∀ policy, policySpelled policy [.kwDef, .listvar "list1", .assign, .lb, .const 5, .rb] →
      policy = [.defList "list1" 5 []] := by
  have h : policySpelled [.defList "list1" 5 []]
      [.kwDef, .listvar "list1", .assign, .lb, .const 5, .rb] := ⟨_, [], rfl, rfl, rfl⟩
  exact ⟨h, fun policy hpolicy => spelling_unique hpolicy h⟩

end ParserCertificate

end Poise
