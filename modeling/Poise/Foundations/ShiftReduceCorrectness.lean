import Poise.Foundations.ShiftReduce

/-!
# Foundations: correctness of certified shift-reduce parsers

A derivation directs the parser: reading the phrases of a right side one after
the other, the parser stands inside that rule at every moment, and it returns
with their values on the stack and their actions run.  Conversely the states on
the stack stand for phrases whose tokens have been read.  Both directions follow
the certificate of the tables.
-/

namespace Foundations

namespace LrPhrases

section Correctness

variable {Q T N R Tok V σ ε P : Type}
variable {M : LrParser Q T N R Tok V σ ε}
variable {C : LrCertificate M}
variable (F : LrPhrases M C P)

/-- The phrases stand for the tokens. -/
def Derives (ps : List P) (w : List Tok) : Prop :=
  DerivesAll F.token F.Produces ps w

/-- The state after a symbol. -/
def next (M : LrParser Q T N R Tok V σ ε) (q : Q) : GrammarSymbol T N → Q
  | .terminal a =>
      match M.action q a with
      | .shift q' => q'
      | _ => q
  | .nonterminal A => M.goto q A

/-- The stack with the states for some more phrases. -/
def pushAll : List (Q × V) → List P → List (Q × V)
  | st, [] => st
  | st, p :: ps => pushAll ((next M (M.top st) (F.symbol p), F.value p) :: st) ps

/-- What the certificate expects of the next token inside a rule. -/
def Ahead (C : LrCertificate M) (r : R) (k : Nat) (a : T) : Prop :=
  match (C.rhs r)[k]? with
  | some X => FirstOf C.first X a
  | none => C.follow (M.lhs r) a

variable {F}

/-- The first of the remaining symbols, and the ones after it. -/
theorem drop_eq_cons
    {α : Type} {l rest : List α} {x : α} {k : Nat}
    (h : l.drop k = x :: rest) :
    l[k]? = some x ∧ l.drop (k + 1) = rest := by
  constructor
  · rw [← List.head?_drop, h]
    rfl
  · rw [← List.tail_drop, h]
    rfl

/-- A state inside a rule passes to a state further inside it. -/
theorem items_next
    {q : Q} {r : R} {k : Nat} {X : GrammarSymbol T N}
    (hi : (r, k) ∈ C.items q)
    (hX : (C.rhs r)[k]? = some X) :
    (r, k + 1) ∈ C.items (next M q X) := by
  cases X with
  | terminal a =>
      obtain ⟨q', haction, hq'⟩ := C.shift_item q (r, k) hi a hX
      simpa only [next, haction] using hq'
  | nonterminal A =>
      exact C.goto_item q (r, k) hi A hX

theorem items_pushAll
    {st : List (Q × V)} {ps : List P} {r : R} {k : Nat} {tail : List (GrammarSymbol T N)}
    (hi : (r, k) ∈ C.items (M.top st))
    (h : (C.rhs r).drop k = ps.map F.symbol ++ tail) :
    (r, k + ps.length) ∈ C.items (M.top (F.pushAll st ps)) := by
  induction ps generalizing st k with
  | nil =>
      exact hi
  | cons p ps ih =>
      obtain ⟨hX, hdrop⟩ := drop_eq_cons h
      have hnext := @ih ((next M (M.top st) (F.symbol p), F.value p) :: st) (k + 1)
        (items_next hi hX) hdrop
      rw [List.length_cons, Nat.add_comm ps.length 1, ← Nat.add_assoc]
      exact hnext

/-- The states for some phrases lie on top of the stack, with the values of the phrases. -/
theorem pushAll_eq_append
    (st : List (Q × V))
    (ps : List P) :
    ∃ frames, F.pushAll st ps = frames ++ st ∧ frames.length = ps.length ∧
      frames.map Prod.snd = (ps.map F.value).reverse := by
  induction ps generalizing st with
  | nil =>
      exact ⟨[], rfl, rfl, rfl⟩
  | cons p ps ih =>
      obtain ⟨frames, heq, hlen, hval⟩ := ih ((next M (M.top st) (F.symbol p), F.value p) :: st)
      refine ⟨frames ++ [(next M (M.top st) (F.symbol p), F.value p)], ?_, ?_, ?_⟩
      · rw [pushAll, heq, List.append_assoc, List.singleton_append]
      · simp [hlen]
      · simp [hval]

theorem drop_pushAll
    (st : List (Q × V))
    (ps : List P) :
    (F.pushAll st ps).drop ps.length = st := by
  obtain ⟨frames, heq, hlen, _⟩ := F.pushAll_eq_append st ps
  rw [heq, ← hlen, List.drop_left]

theorem popped_pushAll
    {r : R}
    (st : List (Q × V))
    (ps : List P)
    (h : M.size r = ps.length) :
    M.popped r (F.pushAll st ps) = ps.map F.value := by
  obtain ⟨frames, heq, hlen, hval⟩ := F.pushAll_eq_append st ps
  rw [LrParser.popped, heq, h, ← hlen, List.take_left, hval, List.reverse_reverse]

/-- What is derived begins with a token the certificate expects of its first phrase. -/
theorem first_of_derives
    {p : P} {ps : List P} {w : List Tok}
    (h : F.Derives (p :: ps) w) :
    ∃ t w', w = t :: w' ∧ FirstOf C.first (F.symbol p) (M.kind t) := by
  generalize hqs : p :: ps = qs at h
  unfold Derives at h
  induction h generalizing p ps with
  | nil =>
      cases hqs
  | @token ps' w' t hd _ =>
      cases hqs
      refine ⟨t, w', rfl, ?_⟩
      rw [F.symbol_token]
      rfl
  | @node r qs' ps' p' u v hd hp _ ih _ =>
      cases hqs
      have hrhs := F.produces_rhs hp
      cases qs' with
      | nil =>
          exact absurd hrhs.symm (C.rhs_ne_nil r)
      | cons q qs' =>
          obtain ⟨t, u', hu, hfirst⟩ := ih rfl
          refine ⟨t, u' ++ v, by rw [hu, List.cons_append], ?_⟩
          rw [F.produces_symbol hp]
          refine C.first_rhs r (F.symbol q) _ ?_ hfirst
          rw [← hrhs]
          rfl

/-- What may follow a rule's next nonterminal is what is expected behind it. -/
theorem follow_of_ahead
    {r : R} {k : Nat} {A : N} {a : T}
    (hA : (C.rhs r)[k]? = some (.nonterminal A))
    (h : Ahead C r (k + 1) a) :
    C.follow A a := by
  unfold Ahead at h
  split at h
  · rename_i X hX
    exact C.follow_inner r k A X a hA hX h
  · rename_i hnone
    exact C.follow_last r k A a hA hnone h

/-- What is expected behind phrases makes what is expected before them hold. -/
theorem ahead_of_derives
    {ps : List P} {w rest : List Tok} {r : R} {k : Nat} {tail : List (GrammarSymbol T N)}
    (hd : F.Derives ps w)
    (h : (C.rhs r).drop k = ps.map F.symbol ++ tail)
    (hahead : Ahead C r (k + ps.length) (M.look rest)) :
    Ahead C r k (M.look (w ++ rest)) := by
  cases ps with
  | nil =>
      cases hd
      exact hahead
  | cons p ps =>
      obtain ⟨t, w', rfl, hfirst⟩ := F.first_of_derives hd
      obtain ⟨hX, _⟩ := drop_eq_cons h
      simp only [Ahead, hX]
      exact hfirst

/-- No token is the end marker, so no phrase is. -/
theorem symbol_ne_eof
    {ps : List P} {w : List Tok}
    (h : F.Derives ps w) :
    ∀ p ∈ ps, F.symbol p ≠ .terminal M.eof := by
  unfold Derives at h
  induction h with
  | nil =>
      intro p hp
      cases hp
  | token t _ ih =>
      intro p hp
      rcases List.mem_cons.mp hp with rfl | hp
      · rw [F.symbol_token]
        intro heq
        exact C.kind_ne_eof t (GrammarSymbol.terminal.inj heq)
      · exact ih p hp
  | node _ hprod _ _ ih =>
      intro p hp
      rcases List.mem_cons.mp hp with rfl | hp
      · rw [F.produces_symbol hprod]
        intro heq
        cases heq
      · exact ih p hp

/-- Only the end marker leads into the final state. -/
theorem itemEdge_final
    {q : Q} {X : GrammarSymbol T N}
    (h : ItemEdge C.items C.rhs C.accept q X M.final) :
    X = .terminal M.eof ∧ (C.accept, 1) ∈ C.items q := by
  rcases h (C.accept, 2) C.final_accept with ⟨hzero, _⟩ | ⟨_, hX, hi⟩
  · cases hzero
  · rw [C.rhs_accept] at hX
    exact ⟨(Option.some.inj hX).symm, hi⟩

variable [DecidableEq Q]

/-- How reading some phrases ends: with their states on the stack, with the failure of one
of their actions, or for want of room. -/
inductive Reads (F : LrPhrases M C P) (st : List (Q × V)) (s : σ) (input : List Tok)
    (ps : List P) (rest : List Tok) : Prop
  | done {s' : σ} : actAll F.act ps s = .ok s' → st.length + depthAll F.depth ps ≤ M.limit →
      M.Leads ⟨st, s, input⟩ ⟨F.pushAll st ps, s', rest⟩ → Reads F st s input ps rest
  | failed {e : ε} : actAll F.act ps s = .error e → M.Stops ⟨st, s, input⟩ (.failed e) →
      Reads F st s input ps rest
  | exhausted : M.limit < st.length + depthAll F.depth ps → M.Stops ⟨st, s, input⟩ .exhausted →
      Reads F st s input ps rest

theorem actAll_cons_ok
    {act : P → σ → Except ε σ} {p : P} {ps : List P} {s s' : σ}
    (h : act p s = .ok s') :
    actAll act (p :: ps) s = actAll act ps s' := by
  rw [actAll, h]
  rfl

theorem actAll_cons_error
    {act : P → σ → Except ε σ} {p : P} {ps : List P} {s : σ} {e : ε}
    (h : act p s = .error e) :
    actAll act (p :: ps) s = .error e := by
  rw [actAll, h]
  rfl

/-- Once its first phrase is read, a sequence is read as its rest is. -/
theorem Reads.cons
    {st : List (Q × V)} {s s' : σ} {input mid rest : List Tok} {p : P} {ps : List P}
    (hact : F.act p s = .ok s')
    (hroom : st.length + F.depth p ≤ M.limit)
    (hlead : M.Leads ⟨st, s, input⟩
      ⟨(next M (M.top st) (F.symbol p), F.value p) :: st, s', mid⟩)
    (h : F.Reads ((next M (M.top st) (F.symbol p), F.value p) :: st) s' mid ps rest) :
    F.Reads st s input (p :: ps) rest := by
  cases h with
  | done hacts hrooms hleads =>
      rw [List.length_cons] at hrooms
      refine .done ((actAll_cons_ok hact).trans hacts) ?_ (hlead.trans hleads)
      rw [depthAll]
      omega
  | failed hacts hstop =>
      exact .failed ((actAll_cons_ok hact).trans hacts) (hstop.of_leads hlead)
  | exhausted hrooms hstop =>
      rw [List.length_cons] at hrooms
      refine .exhausted ?_ (hstop.of_leads hlead)
      rw [depthAll]
      omega

/-- A token that a rule expects is shifted. -/
theorem shift_expected
    {st : List (Q × V)} {s : σ} {t : Tok} {rest : List Tok} {r : R} {k : Nat}
    (hi : (r, k) ∈ C.items (M.top st))
    (hX : (C.rhs r)[k]? = some (.terminal (M.kind t)))
    (hroom : st.length < M.limit) :
    M.step ⟨st, s, t :: rest⟩ =
      .ok ⟨(next M (M.top st) (F.symbol (F.token t)), F.value (F.token t)) :: st, s, rest⟩ := by
  obtain ⟨q, haction, _⟩ := C.shift_item _ (r, k) hi _ hX
  have hstep : M.step ⟨st, s, t :: rest⟩ = M.enter q (M.value t) st s rest :=
    LrParser.step_shift (c := ⟨st, s, t :: rest⟩) haction
  have hfinal : q ≠ M.final := by
    rintro rfl
    have hedge := (itemEdge_final (C.shift_edge _ _ _ haction)).1
    exact C.kind_ne_eof t (GrammarSymbol.terminal.inj hedge)
  rw [hstep, LrParser.enter_eq_ok_iff]
  refine ⟨hroom, hfinal, ?_⟩
  rw [F.symbol_token, F.value_token, next, haction]

/-- When the right side of a rule is read, the rule is reduced. -/
theorem reduce_read
    {st : List (Q × V)} {s : σ} {rest : List Tok} {r : R} {qs : List P} {p : P}
    (hp : F.Produces r qs p)
    (hi : (r, 0) ∈ C.items (M.top st))
    (hfollow : C.follow (M.lhs r) (M.look rest))
    (hroom : st.length < M.limit) :
    M.step ⟨F.pushAll st qs, s, rest⟩ =
      match M.semantic r (qs.map F.value) s with
      | .error e => .error (.failed e)
      | .ok s' =>
          .ok ⟨(next M (M.top st) (F.symbol p), F.value p) :: st, s', rest⟩ := by
  have hrhs := F.produces_rhs hp
  have hsize : M.size r = qs.length := by
    rw [C.size_eq, ← hrhs, List.length_map]
  have hitem : (r, M.size r) ∈ C.items (M.top (F.pushAll st qs)) := by
    have hdrop : (C.rhs r).drop 0 = qs.map F.symbol ++ [] := by
      simp [hrhs]
    have h := F.items_pushAll hi hdrop
    rwa [Nat.zero_add, ← hsize] at h
  have haction := C.reduce_action _ r _ hitem (F.produces_accept hp) hfollow
  have hpop : M.popped r (F.pushAll st qs) = qs.map F.value := F.popped_pushAll st qs hsize
  have hdrop : (F.pushAll st qs).drop (M.size r) = st := by
    rw [hsize, F.drop_pushAll]
  cases hs : M.semantic r (qs.map F.value) s with
  | error e =>
      exact LrParser.step_reduce_error (c := ⟨F.pushAll st qs, s, rest⟩) haction
        (by rw [hpop, hs])
  | ok s' =>
      rw [LrParser.step_reduce_ok (c := ⟨F.pushAll st qs, s, rest⟩) haction
        (by rw [hpop, hs]), LrParser.enter_eq_ok_iff]
      simp only [hdrop, hpop]
      refine ⟨hroom, ?_, ?_⟩
      · intro hfinal
        have hedge := C.goto_edge _ r hi (F.produces_accept hp)
        rw [hfinal] at hedge
        cases (itemEdge_final hedge).1
      · rw [F.produces_symbol hp, F.produces_value hp]
        rfl

/-- A derivation directs the parser through its tokens. -/
theorem reads_of_derives
    {ps : List P} {w : List Tok}
    (h : F.Derives ps w) :
    ∀ {st : List (Q × V)} {s : σ} {r : R} {k : Nat} {tail : List (GrammarSymbol T N)}
      {rest : List Tok},
      st.length ≤ M.limit → (r, k) ∈ C.items (M.top st) →
      (C.rhs r).drop k = ps.map F.symbol ++ tail →
      Ahead C r (k + ps.length) (M.look rest) →
      F.Reads st s (w ++ rest) ps rest := by
  unfold Derives at h
  induction h with
  | nil =>
      intro st s r k tail rest hlen _ _ _
      exact .done rfl hlen .refl
  | @token ps w t hd ih =>
      intro st s r k tail rest hlen hi hrhs hahead
      obtain ⟨hX, hdrop⟩ := drop_eq_cons hrhs
      rw [F.symbol_token] at hX
      by_cases hroom : st.length < M.limit
      · refine Reads.cons (F.act_token t s) ?_ (.single (F.shift_expected hi hX hroom)) ?_
        · rw [F.depth_token]
          omega
        · refine ih hroom (items_next hi (by rw [hX, F.symbol_token])) hdrop ?_
          rwa [Nat.add_assoc, Nat.add_comm 1]
      · obtain ⟨q, haction, _⟩ := C.shift_item _ (r, k) hi _ hX
        refine .exhausted ?_ ⟨_, .refl, ?_⟩
        · rw [depthAll, F.depth_token]
          omega
        · rw [LrParser.step_shift (c := ⟨st, s, t :: w ++ rest⟩) haction, LrParser.enter,
            if_pos (Nat.le_of_not_lt hroom)]
  | @node r' qs ps p u w hq hp hps ihq ihps =>
      intro st s r k tail rest hlen hi hrhs hahead
      obtain ⟨hX, hdrop⟩ := drop_eq_cons hrhs
      rw [F.produces_symbol hp] at hX
      have hstart : (r', 0) ∈ C.items (M.top st) := C.closure_item _ (r, k) hi r' hX
      have hahead' : Ahead C r (k + 1 + ps.length) (M.look rest) := by
        rwa [Nat.add_assoc, Nat.add_comm 1]
      have hfollow : C.follow (M.lhs r') (M.look (w ++ rest)) :=
        follow_of_ahead hX (F.ahead_of_derives hps hdrop hahead')
      have hprod := F.produces_rhs hp
      have hqs : 0 < qs.length := by
        rw [← List.length_map F.symbol, hprod]
        exact List.length_pos_iff.mpr (C.rhs_ne_nil r')
      have hdepth : F.depth p = depthAll F.depth qs := F.produces_depth hp
      have hend : Ahead C r' (0 + qs.length) (M.look (w ++ rest)) := by
        have hnone : (C.rhs r')[0 + qs.length]? = none := by
          rw [← hprod]
          simp
        simp only [Ahead, hnone]
        exact hfollow
      have hwhole : (C.rhs r').drop 0 = qs.map F.symbol ++ [] := by
        simp [hprod]
      rw [List.append_assoc]
      cases ihq (s := s) hlen hstart hwhole hend with
      | @done s₁ hact hroom hlead =>
          have hone : 1 ≤ depthAll F.depth qs := by
            cases qs with
            | nil =>
                cases hqs
            | cons q qs =>
                rw [depthAll]
                omega
          have hstep := F.reduce_read (s := s₁) hp hstart hfollow (by omega)
          have hactp : F.act p s = M.semantic r' (qs.map F.value) s₁ := by
            rw [F.produces_act hp, hact]
            rfl
          cases hs : M.semantic r' (qs.map F.value) s₁ with
          | error e =>
              rw [hs] at hstep hactp
              exact .failed (actAll_cons_error hactp) ⟨_, hlead, hstep⟩
          | ok s₂ =>
              rw [hs] at hstep hactp
              refine Reads.cons hactp (by omega) (hlead.trans (.single hstep)) ?_
              refine ihps ?_ (items_next hi (by rw [hX, F.produces_symbol hp])) hdrop hahead'
              rw [List.length_cons]
              omega
      | failed hact hstop =>
          refine .failed (actAll_cons_error ?_) hstop
          rw [F.produces_act hp, hact]
          rfl
      | exhausted hroom hstop =>
          refine .exhausted ?_ hstop
          rw [depthAll]
          omega

theorem actAll_singleton
    (act : P → σ → Except ε σ)
    (p : P)
    (s : σ) :
    actAll act [p] s = act p s := by
  cases hs : act p s with
  | ok s' =>
      exact actAll_cons_ok hs
  | error e =>
      exact actAll_cons_error hs

/-- A phrase of the start symbol is read up to the end of the input. -/
theorem reads_start
    {p : P} {w : List Tok}
    (h : F.Derives [p] w)
    (hp : F.symbol p = .nonterminal C.start)
    (s : σ) :
    F.Reads [] s w [p] [] ∧ ∀ s', M.step ⟨F.pushAll [] [p], s', []⟩ = .error (.accepted s') := by
  have hdrop : (C.rhs C.accept).drop 0 = [p].map F.symbol ++ [.terminal M.eof] := by
    rw [C.rhs_accept, List.map_singleton, hp]
    rfl
  have hahead : Ahead C C.accept (0 + [p].length) (M.look []) := by
    simp only [Ahead, C.rhs_accept]
    rfl
  constructor
  · have hread : F.Reads [] s (w ++ []) [p] [] :=
      F.reads_of_derives h (Nat.zero_le _) C.initial_accept hdrop hahead
    rwa [List.append_nil] at hread
  · intro s'
    have hlimit := C.two_le_limit
    have hi : (C.accept, 1) ∈ C.items (M.top (F.pushAll [] [p])) :=
      F.items_pushAll C.initial_accept hdrop
    obtain ⟨q, haction, _⟩ := C.shift_item _ (C.accept, 1) hi M.eof (by rw [C.rhs_accept]; rfl)
    have hq := C.shift_eof _ _ haction
    rw [LrParser.step_shift (c := ⟨F.pushAll [] [p], s', []⟩) haction, LrParser.enter,
      if_neg (by simp [pushAll]; omega), if_pos hq]

/-- On a derivable input the parser runs the actions of the phrase and accepts, unless an
action fails or the stack has too little room. -/
theorem stops_of_derives
    {p : P} {w : List Tok}
    (h : F.Derives [p] w)
    (hp : F.symbol p = .nonterminal C.start)
    (s : σ) :
    (∃ s', F.act p s = .ok s' ∧ F.depth p ≤ M.limit ∧ M.Stops ⟨[], s, w⟩ (.accepted s')) ∨
    (∃ e, F.act p s = .error e ∧ M.Stops ⟨[], s, w⟩ (.failed e)) ∨
    (M.limit < F.depth p ∧ M.Stops ⟨[], s, w⟩ .exhausted) := by
  have hlimit := C.two_le_limit
  have hdepth : depthAll F.depth [p] = max (F.depth p) 1 := rfl
  obtain ⟨hread, haccept⟩ := F.reads_start h hp s
  rw [← actAll_singleton F.act p s]
  cases hread with
  | @done s' hok hroom hlead =>
      rw [hdepth, List.length_nil] at hroom
      exact .inl ⟨s', hok, by omega, _, hlead, haccept s'⟩
  | @failed e herr hstop =>
      exact .inr (.inl ⟨e, herr, hstop⟩)
  | exhausted hroom hstop =>
      rw [hdepth, List.length_nil] at hroom
      exact .inr (.inr ⟨by omega, hstop⟩)

/-- A phrase whose actions succeed and that fits on the stack is left there alone. -/
theorem leads_of_derives
    {p : P} {w : List Tok} {s s' : σ}
    (h : F.Derives [p] w)
    (hp : F.symbol p = .nonterminal C.start)
    (hact : F.act p s = .ok s')
    (hdepth : F.depth p ≤ M.limit) :
    ∃ q, M.Leads ⟨[], s, w⟩ ⟨[(q, F.value p)], s', []⟩ ∧
      M.step ⟨[(q, F.value p)], s', []⟩ = .error (.accepted s') := by
  have hlimit := C.two_le_limit
  have hdepths : depthAll F.depth [p] = max (F.depth p) 1 := rfl
  obtain ⟨hread, haccept⟩ := F.reads_start h hp s
  rw [← actAll_singleton F.act p s] at hact
  cases hread with
  | done hok _ hlead =>
      rw [hact] at hok
      cases hok
      exact ⟨_, hlead, haccept s'⟩
  | failed herr _ =>
      rw [hact] at herr
      cases herr
  | exhausted hroom _ =>
      rw [hdepths, List.length_nil] at hroom
      omega

end Correctness

end LrPhrases

end Foundations
