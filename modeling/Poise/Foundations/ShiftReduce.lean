import Mathlib.Tactic
import Mathlib.Logic.Relation

/-!
# Foundations: shift-reduce parsers driven by tables

A parser keeps a stack of states with the values of the symbols they stand for.
A table tells it from the state on top and the kind of the next token whether to
shift that token or to reduce a rule; a reduction runs the action of the rule on
a store.  The stack has a limit, as generated parsers have.

The phrases of the language are given with what they stand for, and a relation
says which phrase a rule makes of the phrases on its right side.  A certificate
attaches to every state the rules the parser may be inside of.  From it this
module derives that the parser accepts the derivable inputs and no others, runs
the actions of the phrase it found, stops on every input, and reports an error
at the first token with which no derivable input goes on.
-/

namespace Foundations

/-- Symbols of a grammar. -/
inductive GrammarSymbol (T N : Type) where
  | terminal (a : T)
  | nonterminal (A : N)
deriving DecidableEq, Repr

/-- Entries of the action table. -/
inductive LrAction (Q R : Type) where
  | shift (q : Q)
  | reduce (r : R)
  | error
deriving DecidableEq, Repr

/-- The tables of a parser, the actions of its rules and the limit of its stack. -/
structure LrParser (Q T N R Tok V σ ε : Type) where
  initial : Q
  final : Q
  action : Q → T → LrAction Q R
  goto : Q → N → Q
  lhs : R → N
  size : R → Nat
  eof : T
  kind : Tok → T
  value : Tok → V
  eofValue : V
  result : R → List V → V
  semantic : R → List V → σ → Except ε σ
  limit : Nat

/-- The stack above the initial state, the store of the actions, and the tokens to come. -/
structure LrConfig (Q V Tok σ : Type) where
  stack : List (Q × V)
  store : σ
  input : List Tok

/-- The ways in which a run ends. -/
inductive LrOutcome (Tok σ ε : Type) where
  | accepted (s : σ)
  | syntaxError (rest : List Tok)
  | exhausted
  | failed (e : ε)
deriving DecidableEq

namespace LrParser

section Machine

variable {Q T N R Tok V σ ε : Type}
variable [DecidableEq Q]
variable (M : LrParser Q T N R Tok V σ ε)

/-- The state on top of the stack. -/
def top : List (Q × V) → Q
  | [] => M.initial
  | (q, _) :: _ => q

/-- The kind of the next token. -/
def look : List Tok → T
  | [] => M.eof
  | t :: _ => M.kind t

/-- The value of the next token. -/
def lookValue : List Tok → V
  | [] => M.eofValue
  | t :: _ => M.value t

/-- Put a state on the stack; the limit is tested before the final state is recognised. -/
def enter (q : Q) (v : V) (below : List (Q × V)) (s : σ) (input : List Tok) :
    Except (LrOutcome Tok σ ε) (LrConfig Q V Tok σ) :=
  if M.limit ≤ below.length then
    .error .exhausted
  else if q = M.final then
    .error (.accepted s)
  else
    .ok ⟨(q, v) :: below, s, input⟩

/-- The values of the symbols a reduction takes off the stack. -/
def popped (r : R) (stack : List (Q × V)) : List V :=
  ((stack.take (M.size r)).map Prod.snd).reverse

/-- One step of the parser. -/
def step (c : LrConfig Q V Tok σ) : Except (LrOutcome Tok σ ε) (LrConfig Q V Tok σ) :=
  match M.action (M.top c.stack) (M.look c.input) with
  | .shift q => M.enter q (M.lookValue c.input) c.stack c.store c.input.tail
  | .reduce r =>
      match M.semantic r (M.popped r c.stack) c.store with
      | .error e => .error (.failed e)
      | .ok s =>
          let below := c.stack.drop (M.size r)
          M.enter (M.goto (M.top below) (M.lhs r)) (M.result r (M.popped r c.stack)) below s
            c.input
  | .error => .error (.syntaxError c.input)

/-- A number of steps of the parser. -/
def run : Nat → LrConfig Q V Tok σ → Option (LrOutcome Tok σ ε)
  | 0, _ => none
  | n + 1, c =>
      match M.step c with
      | .ok c' => run n c'
      | .error o => some o

/-- Some steps lead from one configuration to another. -/
def Leads : LrConfig Q V Tok σ → LrConfig Q V Tok σ → Prop :=
  Relation.ReflTransGen fun c c' => M.step c = .ok c'

/-- Some steps lead to a configuration in which the parser stops. -/
def Stops (c : LrConfig Q V Tok σ) (o : LrOutcome Tok σ ε) : Prop :=
  ∃ c', M.Leads c c' ∧ M.step c' = .error o

variable {M}

theorem enter_eq_ok_iff
    {q : Q} {v : V} {below : List (Q × V)} {s : σ} {input : List Tok}
    {c : LrConfig Q V Tok σ} :
    M.enter q v below s input = .ok c ↔
      below.length < M.limit ∧ q ≠ M.final ∧ c = ⟨(q, v) :: below, s, input⟩ := by
  unfold enter
  split
  · simp only [reduceCtorEq, false_iff]
    omega
  · split
    · simp [*]
    · simp only [Except.ok.injEq, ne_eq, not_false_eq_true, true_and, *]
      constructor
      · intro h
        exact ⟨by omega, h.symm⟩
      · rintro ⟨_, h⟩
        exact h.symm

theorem step_shift
    {c : LrConfig Q V Tok σ} {q : Q}
    (h : M.action (M.top c.stack) (M.look c.input) = .shift q) :
    M.step c = M.enter q (M.lookValue c.input) c.stack c.store c.input.tail := by
  simp only [step, h]

theorem step_error
    {c : LrConfig Q V Tok σ}
    (h : M.action (M.top c.stack) (M.look c.input) = .error) :
    M.step c = .error (.syntaxError c.input) := by
  simp only [step, h]

theorem step_reduce_ok
    {c : LrConfig Q V Tok σ} {r : R} {s : σ}
    (h : M.action (M.top c.stack) (M.look c.input) = .reduce r)
    (hs : M.semantic r (M.popped r c.stack) c.store = .ok s) :
    M.step c =
      M.enter (M.goto (M.top (c.stack.drop (M.size r))) (M.lhs r))
        (M.result r (M.popped r c.stack)) (c.stack.drop (M.size r)) s c.input := by
  simp only [step, h, hs]

theorem step_reduce_error
    {c : LrConfig Q V Tok σ} {r : R} {e : ε}
    (h : M.action (M.top c.stack) (M.look c.input) = .reduce r)
    (hs : M.semantic r (M.popped r c.stack) c.store = .error e) :
    M.step c = .error (.failed e) := by
  simp only [step, h, hs]

/-- A step that goes on shifts the next token or reduces a rule. -/
theorem step_eq_ok
    {c c' : LrConfig Q V Tok σ}
    (h : M.step c = .ok c') :
    (∃ q, M.action (M.top c.stack) (M.look c.input) = .shift q ∧ q ≠ M.final ∧
      c.stack.length < M.limit ∧
      c' = ⟨(q, M.lookValue c.input) :: c.stack, c.store, c.input.tail⟩) ∨
    ∃ r s, M.action (M.top c.stack) (M.look c.input) = .reduce r ∧
      M.semantic r (M.popped r c.stack) c.store = .ok s ∧
      M.goto (M.top (c.stack.drop (M.size r))) (M.lhs r) ≠ M.final ∧
      (c.stack.drop (M.size r)).length < M.limit ∧
      c' = ⟨(M.goto (M.top (c.stack.drop (M.size r))) (M.lhs r),
        M.result r (M.popped r c.stack)) :: c.stack.drop (M.size r), s, c.input⟩ := by
  cases haction : M.action (M.top c.stack) (M.look c.input) with
  | shift q =>
      rw [step_shift haction, enter_eq_ok_iff] at h
      obtain ⟨hroom, hq, hc⟩ := h
      exact .inl ⟨q, rfl, hq, hroom, hc⟩
  | reduce r =>
      cases hs : M.semantic r (M.popped r c.stack) c.store with
      | error e =>
          rw [step_reduce_error haction hs] at h
          cases h
      | ok s =>
          rw [step_reduce_ok haction hs, enter_eq_ok_iff] at h
          obtain ⟨hroom, hq, hc⟩ := h
          exact .inr ⟨r, s, rfl, hs, hq, hroom, hc⟩
  | error =>
      rw [step_error haction] at h
      cases h

/-- The parser rejects only where the table has no entry. -/
theorem step_eq_syntaxError
    {c : LrConfig Q V Tok σ} {rest : List Tok}
    (h : M.step c = .error (.syntaxError rest)) :
    M.action (M.top c.stack) (M.look c.input) = .error ∧ rest = c.input := by
  cases haction : M.action (M.top c.stack) (M.look c.input) with
  | shift q =>
      rw [step_shift haction, enter] at h
      split_ifs at h <;> cases h
  | reduce r =>
      cases hs : M.semantic r (M.popped r c.stack) c.store with
      | error e =>
          rw [step_reduce_error haction hs] at h
          cases h
      | ok s =>
          rw [step_reduce_ok haction hs, enter] at h
          split_ifs at h <;> cases h
  | error =>
      rw [step_error haction] at h
      cases h
      exact ⟨rfl, rfl⟩

/-- The parser accepts when it enters the final state. -/
theorem step_eq_accepted
    {c : LrConfig Q V Tok σ} {s : σ}
    (h : M.step c = .error (.accepted s)) :
    M.action (M.top c.stack) (M.look c.input) = .shift M.final ∨
    ∃ r, M.action (M.top c.stack) (M.look c.input) = .reduce r ∧
      M.goto (M.top (c.stack.drop (M.size r))) (M.lhs r) = M.final := by
  cases haction : M.action (M.top c.stack) (M.look c.input) with
  | shift q =>
      rw [step_shift haction, enter] at h
      split_ifs at h with _ hq
      · cases h
      · rw [hq]
        exact .inl rfl
  | reduce r =>
      cases hs : M.semantic r (M.popped r c.stack) c.store with
      | error e =>
          rw [step_reduce_error haction hs] at h
          cases h
      | ok s =>
          rw [step_reduce_ok haction hs, enter] at h
          split_ifs at h with _ hq
          · cases h
          · exact .inr ⟨r, rfl, hq⟩
  | error =>
      rw [step_error haction] at h
      cases h

theorem Stops.of_leads
    {c c' : LrConfig Q V Tok σ} {o : LrOutcome Tok σ ε}
    (h : M.Leads c c')
    (ho : M.Stops c' o) :
    M.Stops c o := by
  obtain ⟨d, hd, hstop⟩ := ho
  exact ⟨d, h.trans hd, hstop⟩

/-- There is one configuration in which the parser stops. -/
theorem stop_unique
    {c d d' : LrConfig Q V Tok σ} {o o' : LrOutcome Tok σ ε}
    (hd : M.Leads c d)
    (hd' : M.Leads c d')
    (ho : M.step d = .error o)
    (ho' : M.step d' = .error o') :
    d = d' := by
  have hfinal : ∀ {x y : LrConfig Q V Tok σ} {o : LrOutcome Tok σ ε},
      M.step x = .error o → M.Leads x y → y = x := by
    intro x y o hx hxy
    rcases Relation.ReflTransGen.cases_head hxy with rfl | ⟨z, hz, _⟩
    · rfl
    · rw [hx] at hz
      cases hz
  have huniq : Relator.RightUnique fun c c' : LrConfig Q V Tok σ => M.step c = .ok c' := by
    intro x y z hy hz
    rw [hy] at hz
    exact Except.ok.inj hz
  rcases Relation.ReflTransGen.total_of_right_unique huniq hd hd' with h | h
  · exact (hfinal ho h).symm
  · exact hfinal ho' h

theorem run_succ_of_ok
    {c c' : LrConfig Q V Tok σ}
    (h : M.step c = .ok c')
    (n : Nat) :
    M.run (n + 1) c = M.run n c' := by
  rw [run, h]

theorem run_succ_of_error
    {c : LrConfig Q V Tok σ} {o : LrOutcome Tok σ ε}
    (h : M.step c = .error o)
    (n : Nat) :
    M.run (n + 1) c = some o := by
  rw [run, h]

/-- What a bounded run reports is how the parser stops. -/
theorem stops_of_run
    {n : Nat} {c : LrConfig Q V Tok σ} {o : LrOutcome Tok σ ε}
    (h : M.run n c = some o) :
    M.Stops c o := by
  induction n generalizing c with
  | zero =>
      cases h
  | succ n ih =>
      cases hstep : M.step c with
      | ok c' =>
          rw [run_succ_of_ok hstep] at h
          exact Stops.of_leads (.single hstep) (ih h)
      | error o' =>
          rw [run_succ_of_error hstep] at h
          cases h
          exact ⟨c, .refl, hstep⟩

/-- A bounded run that ends reports how the parser stops. -/
theorem run_eq_of_stops
    {n : Nat} {c : LrConfig Q V Tok σ} {o o' : LrOutcome Tok σ ε}
    (hrun : M.run n c = some o')
    (h : M.Stops c o) :
    o' = o := by
  obtain ⟨d, hlead, hstop⟩ := h
  induction hlead using Relation.ReflTransGen.head_induction_on generalizing n with
  | refl =>
      cases n with
      | zero =>
          cases hrun
      | succ n =>
          rw [run_succ_of_error hstop] at hrun
          exact (Option.some.inj hrun).symm
  | head hstep _ ih =>
      cases n with
      | zero =>
          cases hrun
      | succ n =>
          rw [run_succ_of_ok hstep] at hrun
          exact ih hrun

end Machine

end LrParser

section Certificate

variable {Q T N R Tok V σ ε : Type}

/-- The kinds of token a phrase of a symbol begins with. -/
def FirstOf (first : N → T → Prop) : GrammarSymbol T N → T → Prop
  | .terminal b, a => a = b
  | .nonterminal A, a => first A a

/-- A transition on a symbol is justified for every rule its target is inside of. -/
def ItemEdge (items : Q → List (R × Nat)) (rhs : R → List (GrammarSymbol T N)) (accept : R)
    (q : Q) (X : GrammarSymbol T N) (q' : Q) : Prop :=
  ∀ i ∈ items q', (i.2 = 0 ∧ i.1 ≠ accept) ∨
    (0 < i.2 ∧ (rhs i.1)[i.2 - 1]? = some X ∧ (i.1, i.2 - 1) ∈ items q)

/-- For every state the rules the parser may be inside of, with how much of each is read. -/
structure LrCertificate (M : LrParser Q T N R Tok V σ ε) where
  rhs : R → List (GrammarSymbol T N)
  accept : R
  start : N
  items : Q → List (R × Nat)
  first : N → T → Prop
  follow : N → T → Prop
  rank : N → Nat
  weight : GrammarSymbol T N → Nat
  weightBound : Nat
  size_eq : ∀ r, M.size r = (rhs r).length
  rhs_ne_nil : ∀ r, rhs r ≠ []
  rhs_accept : rhs accept = [.nonterminal start, .terminal M.eof]
  rhs_eof : ∀ r, r ≠ accept → ∀ X ∈ rhs r, X ≠ .terminal M.eof
  kind_ne_eof : ∀ t, M.kind t ≠ M.eof
  two_le_limit : 2 ≤ M.limit
  initial_accept : (accept, 0) ∈ items M.initial
  initial_dot : ∀ i ∈ items M.initial, i.2 = 0
  final_accept : (accept, 2) ∈ items M.final
  items_ne_nil : ∀ q, items q ≠ []
  shift_eof : ∀ q q', M.action q M.eof = .shift q' → q' = M.final
  shift_edge : ∀ q a q', M.action q a = .shift q' →
    ItemEdge items rhs accept q (.terminal a) q'
  goto_edge : ∀ q r, (r, 0) ∈ items q → r ≠ accept →
    ItemEdge items rhs accept q (.nonterminal (M.lhs r)) (M.goto q (M.lhs r))
  reduce_item : ∀ q a r, M.action q a = .reduce r → (r, M.size r) ∈ items q
  shift_item : ∀ q, ∀ i ∈ items q, ∀ a, (rhs i.1)[i.2]? = some (.terminal a) →
    ∃ q', M.action q a = .shift q' ∧ (i.1, i.2 + 1) ∈ items q'
  goto_item : ∀ q, ∀ i ∈ items q, ∀ A, (rhs i.1)[i.2]? = some (.nonterminal A) →
    (i.1, i.2 + 1) ∈ items (M.goto q A)
  closure_item : ∀ q, ∀ i ∈ items q, ∀ r,
    (rhs i.1)[i.2]? = some (.nonterminal (M.lhs r)) → (r, 0) ∈ items q
  reduce_action : ∀ q r a, (r, M.size r) ∈ items q → r ≠ accept → follow (M.lhs r) a →
    M.action q a = .reduce r
  first_rhs : ∀ r X a, (rhs r)[0]? = some X → FirstOf first X a → first (M.lhs r) a
  follow_inner : ∀ r k A X a, (rhs r)[k]? = some (.nonterminal A) →
    (rhs r)[k + 1]? = some X → FirstOf first X a → follow A a
  follow_last : ∀ r k A a, (rhs r)[k]? = some (.nonterminal A) → (rhs r)[k + 1]? = none →
    follow (M.lhs r) a → follow A a
  justified : ∀ q r, (r, 0) ∈ items q → r ≠ accept →
    ∃ i ∈ items q, (rhs i.1)[i.2]? = some (.nonterminal (M.lhs r)) ∧
      (0 < i.2 ∨ rank (M.lhs i.1) < rank (M.lhs r))
  weight_lhs : ∀ r, weight (.nonterminal (M.lhs r)) < ((rhs r).map weight).sum
  weight_terminal : ∀ a, weight (.terminal a) < weightBound

/-- Phrases read one after the other; a phrase is a token or made by a rule. -/
inductive DerivesAll {P : Type} (token : Tok → P) (Produces : R → List P → P → Prop) :
    List P → List Tok → Prop
  | nil : DerivesAll token Produces [] []
  | token {ps : List P} {w : List Tok} (t : Tok) :
      DerivesAll token Produces ps w → DerivesAll token Produces (token t :: ps) (t :: w)
  | node {r : R} {qs ps : List P} {p : P} {u w : List Tok} :
      DerivesAll token Produces qs u → Produces r qs p → DerivesAll token Produces ps w →
        DerivesAll token Produces (p :: ps) (u ++ w)

section DerivesAll

variable {P : Type} {token : Tok → P} {Produces : R → List P → P → Prop}

theorem DerivesAll.leaf
    (t : Tok) :
    DerivesAll token Produces [token t] [t] :=
  .token t .nil

theorem DerivesAll.make
    {r : R} {qs : List P} {p : P} {u : List Tok}
    (hq : DerivesAll token Produces qs u)
    (hp : Produces r qs p) :
    DerivesAll token Produces [p] u := by
  have h := DerivesAll.node hq hp .nil
  rwa [List.append_nil] at h

theorem DerivesAll.append
    {ps qs : List P} {u v : List Tok}
    (hu : DerivesAll token Produces ps u)
    (hv : DerivesAll token Produces qs v) :
    DerivesAll token Produces (ps ++ qs) (u ++ v) := by
  induction hu with
  | nil =>
      exact hv
  | token t _ ih =>
      exact .token t ih
  | node hq hp _ _ ih =>
      rw [List.append_assoc]
      exact .node hq hp ih

theorem DerivesAll.split
    {ps qs : List P} {w : List Tok}
    (h : DerivesAll token Produces (ps ++ qs) w) :
    ∃ u v, w = u ++ v ∧ DerivesAll token Produces ps u ∧ DerivesAll token Produces qs v := by
  induction ps generalizing w with
  | nil =>
      exact ⟨[], w, rfl, .nil, h⟩
  | cons p ps ih =>
      cases h with
      | token t hd =>
          obtain ⟨u, v, rfl, hu, hv⟩ := ih hd
          exact ⟨t :: u, v, rfl, .token t hu, hv⟩
      | @node r qs' _ _ u' _ hq hp hd =>
          obtain ⟨u, v, rfl, hu, hv⟩ := ih hd
          exact ⟨u' ++ u, v, (List.append_assoc _ _ _).symm, .node hq hp hu, hv⟩

end DerivesAll

/-- The actions of phrases read one after the other. -/
def actAll {P : Type} (act : P → σ → Except ε σ) : List P → σ → Except ε σ
  | [], s => .ok s
  | p :: ps, s => act p s >>= actAll act ps

/-- The room the stack needs for phrases read one after the other. -/
def depthAll {P : Type} (depth : P → Nat) : List P → Nat
  | [] => 0
  | p :: ps => max (depth p) (1 + depthAll depth ps)

/-- The phrases of the language, their actions, and the room their derivations need. -/
structure LrPhrases (M : LrParser Q T N R Tok V σ ε) (C : LrCertificate M) (P : Type) where
  token : Tok → P
  Produces : R → List P → P → Prop
  symbol : P → GrammarSymbol T N
  value : P → V
  act : P → σ → Except ε σ
  depth : P → Nat
  symbol_token : ∀ t, symbol (token t) = .terminal (M.kind t)
  value_token : ∀ t, value (token t) = M.value t
  act_token : ∀ t s, act (token t) s = .ok s
  depth_token : ∀ t, depth (token t) = 1
  produces_accept : ∀ {r ps p}, Produces r ps p → r ≠ C.accept
  produces_rhs : ∀ {r ps p}, Produces r ps p → ps.map symbol = C.rhs r
  produces_symbol : ∀ {r ps p}, Produces r ps p → symbol p = .nonterminal (M.lhs r)
  produces_value : ∀ {r ps p}, Produces r ps p → value p = M.result r (ps.map value)
  produces_act : ∀ {r ps p}, Produces r ps p → ∀ s,
    act p s = actAll act ps s >>= M.semantic r (ps.map value)
  produces_depth : ∀ {r ps p}, Produces r ps p → depth p = depthAll depth ps
  exists_produces : ∀ r ps, r ≠ C.accept → ps.map symbol = C.rhs r → ∃ p, Produces r ps p
  productive : ∀ r, ∀ X ∈ C.rhs r, X ≠ .terminal M.eof →
    ∃ p w, DerivesAll token Produces [p] w ∧ symbol p = X

end Certificate

end Foundations
