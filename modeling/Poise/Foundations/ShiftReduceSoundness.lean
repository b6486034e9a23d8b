import Poise.Foundations.ShiftReduceCorrectness

/-!
# Foundations: soundness, termination and errors of certified parsers

Whatever the input, the states on the stack stand for phrases, and the tokens
read so far are the tokens of these phrases.  Each step lowers a weight of the
stack and the remaining input, so the parser stops.  Since a step looks at the
next token only, an input that the parser rejects at a token is rejected there
whatever comes behind it, while the tokens before it always have a continuation.
-/

namespace Foundations

namespace LrPhrases

section Soundness

variable {Q T N R Tok V σ ε P : Type}
variable {M : LrParser Q T N R Tok V σ ε}
variable {C : LrCertificate M}
variable {F : LrPhrases M C P}

/-- The states of the stack stand for phrases. -/
inductive Tracks (F : LrPhrases M C P) : List (Q × V) → List P → Prop
  | nil : Tracks F [] []
  | cons {st : List (Q × V)} {ps : List P} {p : P} {q : Q} {v : V} :
      Tracks F st ps → ItemEdge C.items C.rhs C.accept (M.top st) (F.symbol p) q →
        Tracks F ((q, v) :: st) (p :: ps)

/-- A state inside a rule has the phrases of what is read of the rule below it. -/
theorem Tracks.pop
    {st : List (Q × V)} {ps : List P} {r : R} {k : Nat}
    (h : F.Tracks st ps)
    (hi : (r, k) ∈ C.items (M.top st)) :
    ∃ qs below, ps = qs ++ below ∧ qs.length = k ∧
      qs.reverse.map F.symbol = (C.rhs r).take k ∧
      F.Tracks (st.drop k) below ∧ (r, 0) ∈ C.items (M.top (st.drop k)) := by
  induction k generalizing st ps with
  | zero =>
      exact ⟨[], ps, rfl, rfl, rfl, h, hi⟩
  | succ k ih =>
      cases h with
      | nil =>
          exact absurd (C.initial_dot _ hi) (by simp)
      | @cons st ps p q v h hedge =>
          rcases hedge (r, k + 1) hi with ⟨hzero, _⟩ | ⟨_, hX, hi'⟩
          · cases hzero
          · obtain ⟨qs, below, rfl, hlen, hsym, htracks, hstart⟩ := ih h hi'
            refine ⟨p :: qs, below, rfl, by rw [List.length_cons, hlen], ?_, htracks, hstart⟩
            rw [List.take_add_one, ← hsym]
            simp only [Nat.add_sub_cancel] at hX
            simp [hX]

/-- The rule of the end marker is entered at the bottom of the stack only. -/
theorem Tracks.accept
    {st : List (Q × V)} {ps : List P} {u : List Tok} {k : Nat}
    (h : F.Tracks st ps)
    (hd : F.Derives ps.reverse u)
    (hi : (C.accept, k) ∈ C.items (M.top st)) :
    (k = 0 ∧ ps = []) ∨ (k = 1 ∧ ∃ p, ps = [p] ∧ F.symbol p = .nonterminal C.start) := by
  obtain ⟨qs, below, rfl, hlen, hsym, htracks, hstart⟩ := h.pop hi
  have hbelow : below = [] := by
    generalize st.drop k = st' at htracks hstart
    cases htracks with
    | nil =>
        rfl
    | cons _ hedge =>
        rcases hedge (C.accept, 0) hstart with ⟨_, hne⟩ | ⟨hpos, _⟩
        · exact absurd rfl hne
        · cases hpos
  subst hbelow
  rw [C.rhs_accept] at hsym
  match qs, hlen with
  | [], hlen =>
      exact .inl ⟨hlen.symm, rfl⟩
  | [p], hlen =>
      obtain rfl : k = 1 := hlen.symm
      refine .inr ⟨rfl, p, rfl, ?_⟩
      simpa using hsym
  | p :: p' :: qs, hlen =>
      exfalso
      have hle : k ≤ 2 := by
        have h := congrArg List.length hsym
        simp only [List.length_map, List.length_reverse, List.length_take, hlen,
          List.length_cons, List.length_nil] at h
        omega
      obtain rfl : qs = [] := by
        rw [← List.length_eq_zero_iff]
        simp only [List.length_cons] at hlen
        omega
      obtain rfl : k = 2 := hlen.symm
      have hp : F.symbol p = .terminal M.eof := by
        simpa using (List.cons.inj (List.cons.inj hsym).2).1
      exact F.symbol_ne_eof hd p (by simp) hp

/-- The stack stands for phrases whose tokens have been read from an input. -/
structure Recognised (F : LrPhrases M C P) (w : List Tok) (c : LrConfig Q V Tok σ)
    (ps : List P) : Prop where
  tracks : F.Tracks c.stack ps
  read : ∃ u, F.Derives ps.reverse u ∧ w = u ++ c.input

theorem recognised_initial
    (w : List Tok)
    (s : σ) :
    F.Recognised w ⟨[], s, w⟩ [] :=
  ⟨.nil, [], .nil, rfl⟩

/-- The weight of the phrases on the stack and of the remaining input. -/
def potential (F : LrPhrases M C P) (c : LrConfig Q V Tok σ) (ps : List P) : Nat :=
  (ps.map fun p => C.weight (F.symbol p)).sum + C.weightBound * c.input.length

/-- When a rule is reduced, the phrases of its right side are on top of the stack. -/
theorem Recognised.reduce
    {w : List Tok} {c : LrConfig Q V Tok σ} {ps : List P} {r : R}
    (h : F.Recognised w c ps)
    (haction : M.action (M.top c.stack) (M.look c.input) = .reduce r) :
    r ≠ C.accept ∧ ∃ qs below p u v, ps = qs ++ below ∧ F.Produces r qs.reverse p ∧
      F.Tracks (c.stack.drop (M.size r)) below ∧
      (r, 0) ∈ C.items (M.top (c.stack.drop (M.size r))) ∧
      F.Derives below.reverse u ∧ F.Derives [p] v ∧ w = u ++ v ++ c.input := by
  obtain ⟨htracks, x, hd, rfl⟩ := h
  have hitem := C.reduce_item _ _ _ haction
  have hr : r ≠ C.accept := by
    rintro rfl
    rw [C.size_eq, C.rhs_accept] at hitem
    rcases htracks.accept hd hitem with ⟨h, _⟩ | ⟨h, _⟩ <;> simp at h
  obtain ⟨qs, below, rfl, hlen, hsym, hbelow, hstart⟩ := htracks.pop hitem
  rw [C.size_eq, List.take_length] at hsym
  obtain ⟨p, hp⟩ := F.exists_produces r qs.reverse hr hsym
  rw [List.reverse_append] at hd
  obtain ⟨u, v, rfl, hu, hv⟩ := DerivesAll.split hd
  exact ⟨hr, qs, below, p, u, v, rfl, hp, hbelow, hstart, hu, DerivesAll.make hv hp, rfl⟩

theorem look_append
    {u v v' : List Tok}
    (h : M.look v = M.look v') :
    M.look (u ++ v) = M.look (u ++ v') := by
  cases u with
  | nil =>
      exact h
  | cons t u =>
      rfl

/-- Symbols of a right side have phrases. -/
theorem exists_fillers
    (F : LrPhrases M C P)
    (r : R)
    (Xs : List (GrammarSymbol T N))
    (h : ∀ X ∈ Xs, X ∈ C.rhs r)
    (heof : ∀ X ∈ Xs, X ≠ .terminal M.eof) :
    ∃ qs w, F.Derives qs w ∧ qs.map F.symbol = Xs := by
  induction Xs with
  | nil =>
      exact ⟨[], [], .nil, rfl⟩
  | cons X Xs ih =>
      obtain ⟨p, u, hp, hX⟩ := F.productive r X (h X (by simp)) (heof X (by simp))
      obtain ⟨qs, v, hqs, hXs⟩ := ih (fun Y hY => h Y (by simp [hY]))
        (fun Y hY => heof Y (by simp [hY]))
      exact ⟨p :: qs, u ++ v, DerivesAll.append hp hqs, by rw [List.map_cons, hX, hXs]⟩

/-- Phrases for the rest of a rule complete it to a phrase of its left side. -/
theorem Tracks.complete
    {st : List (Q × V)} {ps qs : List P} {u v : List Tok} {r : R} {k : Nat}
    (h : F.Tracks st ps)
    (hd : F.Derives ps.reverse u)
    (hi : (r, k) ∈ C.items (M.top st))
    (hr : r ≠ C.accept)
    (hq : F.Derives qs v)
    (hsym : qs.map F.symbol = (C.rhs r).drop k) :
    ∃ below p u' y, F.Tracks (st.drop k) below ∧ F.Derives below.reverse u' ∧
      (r, 0) ∈ C.items (M.top (st.drop k)) ∧ F.Derives [p] y ∧
      F.symbol p = .nonterminal (M.lhs r) ∧ u ++ v = u' ++ y := by
  obtain ⟨rs, below, rfl, _, hread, hbelow, hstart⟩ := h.pop hi
  have hrhs : (rs.reverse ++ qs).map F.symbol = C.rhs r := by
    rw [List.map_append, hread, hsym, List.take_append_drop]
  obtain ⟨p, hp⟩ := F.exists_produces r (rs.reverse ++ qs) hr hrhs
  rw [List.reverse_append] at hd
  obtain ⟨u', y, rfl, hu', hy⟩ := DerivesAll.split hd
  exact ⟨below, p, u', y ++ v, hbelow, hu', hstart, DerivesAll.make (DerivesAll.append hy hq) hp,
    F.produces_symbol hp, List.append_assoc _ _ _⟩

/-- A phrase for a symbol that some rule on the stack expects next is part of a derivable
input: complete that rule, then the rule that expects its left side, and so on. -/
theorem Tracks.extends
    {st : List (Q × V)} {ps : List P} {u y : List Tok} {r : R} {k : Nat} {p : P} {A : N}
    (h : F.Tracks st ps)
    (hd : F.Derives ps.reverse u)
    (hi : (r, k) ∈ C.items (M.top st))
    (hA : (C.rhs r)[k]? = some (.nonterminal A))
    (hp : F.Derives [p] y)
    (hsym : F.symbol p = .nonterminal A) :
    ∃ v p₀, F.Derives [p₀] (u ++ y ++ v) ∧ F.symbol p₀ = .nonterminal C.start := by
  by_cases hr : r = C.accept
  · subst hr
    rcases h.accept hd hi with ⟨rfl, rfl⟩ | ⟨rfl, _⟩
    · rw [C.rhs_accept] at hA
      cases hd
      refine ⟨[], p, by simpa using hp, ?_⟩
      rw [hsym, ← Option.some.inj hA]
    · rw [C.rhs_accept] at hA
      cases hA
  · obtain ⟨qs, z, hz, hqs⟩ := F.exists_fillers r ((C.rhs r).drop (k + 1))
      (fun X hX => List.mem_of_mem_drop hX)
      (fun X hX => C.rhs_eof r hr X (List.mem_of_mem_drop hX))
    have hrest : (p :: qs).map F.symbol = (C.rhs r).drop k := by
      obtain ⟨hk, hX⟩ := List.getElem?_eq_some_iff.mp hA
      rw [List.drop_eq_getElem_cons hk, hX, List.map_cons, hsym, hqs]
    obtain ⟨below, p', u', y', htracks, hu', hstart, hp', hsym', heq⟩ :=
      h.complete hd hi hr (DerivesAll.append hp hz) hrest
    obtain ⟨j, hj, hjX, hjrank⟩ := C.justified _ r hstart hr
    have hlength : (st.drop k).length = st.length - k := List.length_drop
    have hlonger : 0 < k → 0 < st.length := by
      intro hk
      cases h with
      | nil =>
          have := C.initial_dot _ hi
          omega
      | cons _ _ =>
          simp
    obtain ⟨v, p₀, hp₀, hsym₀⟩ := htracks.extends hu' hj hjX hp' hsym'
    refine ⟨z ++ v, p₀, ?_, hsym₀⟩
    rw [← heq] at hp₀
    simpa only [List.append_assoc] using hp₀
termination_by (st.length, if 0 < k then 0 else C.rank (M.lhs r) + 1)
decreasing_by
  by_cases hk : 0 < k
  · refine Prod.Lex.left _ _ ?_
    have := hlonger hk
    omega
  · obtain rfl : k = 0 := by omega
    rw [List.drop_zero, if_neg (lt_irrefl 0)]
    refine Prod.Lex.right _ ?_
    split
    · omega
    · rcases hjrank with hpos | hlt
      · omega
      · omega

/-- What the parser has read can always be continued to a derivable input. -/
theorem Recognised.viable
    {w : List Tok} {c : LrConfig Q V Tok σ} {ps : List P}
    (h : F.Recognised w c ps) :
    ∃ u, w = u ++ c.input ∧
      ∃ v p, F.Derives [p] (u ++ v) ∧ F.symbol p = .nonterminal C.start := by
  obtain ⟨htracks, u, hd, rfl⟩ := h
  refine ⟨u, rfl, ?_⟩
  obtain ⟨⟨r, k⟩, hi⟩ := List.exists_mem_of_ne_nil _ (C.items_ne_nil (M.top c.stack))
  by_cases hr : r = C.accept
  · subst hr
    rcases htracks.accept hd hi with ⟨_, rfl⟩ | ⟨_, p, rfl, hp⟩
    · cases hd
      obtain ⟨p, w, hp, hsym⟩ := F.productive C.accept (.nonterminal C.start)
        (by simp [C.rhs_accept]) (by simp)
      exact ⟨w, p, hp, hsym⟩
    · exact ⟨[], p, by simpa using hd, hp⟩
  · obtain ⟨qs, z, hz, hqs⟩ := F.exists_fillers r ((C.rhs r).drop k)
      (fun X hX => List.mem_of_mem_drop hX)
      (fun X hX => C.rhs_eof r hr X (List.mem_of_mem_drop hX))
    obtain ⟨below, p, u', y, hbelow, hu', hstart, hp, hsym, heq⟩ :=
      htracks.complete hd hi hr hz hqs
    obtain ⟨j, hj, hjX, _⟩ := C.justified _ r hstart hr
    obtain ⟨v, p₀, hp₀, hsym₀⟩ := hbelow.extends hu' hj hjX hp hsym
    refine ⟨z ++ v, p₀, ?_, hsym₀⟩
    rw [← heq] at hp₀
    simpa only [List.append_assoc] using hp₀

variable [DecidableEq Q]

/-- A step keeps the stack standing for what has been read, and lowers the weight. -/
theorem Recognised.step
    {w : List Tok} {c c' : LrConfig Q V Tok σ} {ps : List P}
    (h : F.Recognised w c ps)
    (hstep : M.step c = .ok c') :
    ∃ ps', F.Recognised w c' ps' ∧ F.potential c' ps' < F.potential c ps := by
  rcases LrParser.step_eq_ok hstep with
    ⟨q, haction, hfinal, _, rfl⟩ | ⟨r, s, haction, _, hfinal, _, rfl⟩
  · obtain ⟨st, s, input⟩ := c
    obtain ⟨htracks, u, hd, rfl⟩ := h
    cases input with
    | nil =>
        exact absurd (C.shift_eof _ _ haction) hfinal
    | cons t rest =>
        refine ⟨F.token t :: ps, ⟨htracks.cons ?_, u ++ [t], ?_, ?_⟩, ?_⟩
        · rw [F.symbol_token]
          exact C.shift_edge _ _ _ haction
        · rw [List.reverse_cons]
          exact DerivesAll.append hd (DerivesAll.leaf t)
        · simp
        · have hweight := C.weight_terminal (M.kind t)
          simp only [potential, List.map_cons, List.sum_cons, F.symbol_token, List.tail_cons,
            List.length_cons, Nat.mul_succ]
          omega
  · obtain ⟨hr, qs, below, p, u, v, rfl, hp, hbelow, hstart, hu, hv, rfl⟩ := h.reduce haction
    refine ⟨p :: below, ⟨hbelow.cons ?_, u ++ v, ?_, rfl⟩, ?_⟩
    · rw [F.produces_symbol hp]
      exact C.goto_edge _ r hstart hr
    · rw [List.reverse_cons]
      exact DerivesAll.append hu hv
    · have hsum : (qs.map fun q => C.weight (F.symbol q)).sum = ((C.rhs r).map C.weight).sum := by
        rw [← F.produces_rhs hp, List.map_map, List.map_reverse, List.sum_reverse]
        rfl
      have hweight := C.weight_lhs r
      simp only [potential, List.map_cons, List.map_append, List.sum_cons, List.sum_append, hsum,
        F.produces_symbol hp]
      omega

theorem Recognised.leads
    {w : List Tok} {c c' : LrConfig Q V Tok σ} {ps : List P}
    (h : F.Recognised w c ps)
    (hlead : M.Leads c c') :
    ∃ ps', F.Recognised w c' ps' := by
  induction hlead with
  | refl =>
      exact ⟨ps, h⟩
  | tail _ hstep ih =>
      obtain ⟨ps', h'⟩ := ih
      obtain ⟨ps'', h'', _⟩ := h'.step hstep
      exact ⟨ps'', h''⟩

/-- A run with more steps than the weight of its start ends. -/
theorem Recognised.run_ends
    {w : List Tok} {n : Nat} {c : LrConfig Q V Tok σ} {ps : List P}
    (h : F.Recognised w c ps)
    (hn : F.potential c ps < n) :
    ∃ o, M.run n c = some o := by
  induction n generalizing c ps with
  | zero =>
      cases hn
  | succ n ih =>
      cases hstep : M.step c with
      | error o =>
          exact ⟨o, LrParser.run_succ_of_error hstep n⟩
      | ok c' =>
          obtain ⟨ps', h', hlt⟩ := h.step hstep
          obtain ⟨o, ho⟩ := ih h' (by omega)
          exact ⟨o, (LrParser.run_succ_of_ok hstep n).trans ho⟩

/-- The parser stops on every input, after a number of steps in proportion to its length. -/
theorem run_ends
    (F : LrPhrases M C P)
    (s : σ)
    (w : List Tok)
    {n : Nat}
    (hn : C.weightBound * w.length < n) :
    ∃ o, M.run n ⟨[], s, w⟩ = some o :=
  (F.recognised_initial w s).run_ends (by simpa [potential] using hn)

/-- An accepted input is derivable. -/
theorem derives_of_accepted
    {w : List Tok} {s s' : σ}
    (h : M.Stops ⟨[], s, w⟩ (.accepted s')) :
    ∃ p, F.Derives [p] w ∧ F.symbol p = .nonterminal C.start := by
  obtain ⟨c, hlead, hstop⟩ := h
  obtain ⟨ps, hrec⟩ := (F.recognised_initial w s).leads hlead
  rcases LrParser.step_eq_accepted hstop with haction | ⟨r, haction, hgoto⟩
  · obtain ⟨heof, hi⟩ := itemEdge_final (C.shift_edge _ _ _ haction)
    have hinput : c.input = [] := by
      cases hc : c.input with
      | nil =>
          rfl
      | cons t rest =>
          rw [hc] at heof
          exact absurd (GrammarSymbol.terminal.inj heof) (C.kind_ne_eof t)
    obtain ⟨htracks, u, hd, rfl⟩ := hrec
    rw [hinput, List.append_nil]
    rcases htracks.accept hd hi with ⟨hk, _⟩ | ⟨_, p, rfl, hp⟩
    · cases hk
    · exact ⟨p, hd, hp⟩
  · obtain ⟨hr, _, _, p, _, _, _, hp, _, hstart, _⟩ := hrec.reduce haction
    have hedge := C.goto_edge _ r hstart hr
    rw [hgoto] at hedge
    cases (itemEdge_final hedge).1

/-- The parser accepts the inputs of the phrases that fit on its stack and whose actions
succeed, and leaves the store as these actions do. -/
theorem accepted_iff
    (F : LrPhrases M C P)
    {w : List Tok} {s s' : σ} {n : Nat}
    (hn : C.weightBound * w.length < n) :
    M.run n ⟨[], s, w⟩ = some (.accepted s') ↔
      ∃ p, F.Derives [p] w ∧ F.symbol p = .nonterminal C.start ∧ F.depth p ≤ M.limit ∧
        F.act p s = .ok s' := by
  constructor
  · intro h
    obtain ⟨p, hd, hp⟩ := F.derives_of_accepted (LrParser.stops_of_run h)
    refine ⟨p, hd, hp, ?_⟩
    rcases F.stops_of_derives hd hp s with
      ⟨s₁, hact, hdepth, hstop⟩ | ⟨e, _, hstop⟩ | ⟨_, hstop⟩
    · cases LrParser.run_eq_of_stops h hstop
      exact ⟨hdepth, hact⟩
    · cases LrParser.run_eq_of_stops h hstop
    · cases LrParser.run_eq_of_stops h hstop
  · rintro ⟨p, hd, hp, hdepth, hact⟩
    obtain ⟨o, ho⟩ := F.run_ends s w hn
    rcases F.stops_of_derives hd hp s with
      ⟨s₁, hact₁, _, hstop⟩ | ⟨e, hact₁, _⟩ | ⟨hlt, _⟩
    · rw [hact₁] at hact
      cases hact
      rw [ho, LrParser.run_eq_of_stops ho hstop]
    · rw [hact₁] at hact
      cases hact
    · omega

/-- A step depends on no token behind the next one. -/
theorem leads_local
    {c c' : LrConfig Q V Tok σ}
    (C : LrCertificate M)
    (h : M.Leads c c') :
    ∃ u, c.input = u ++ c'.input ∧ ∀ v, M.look v = M.look c'.input →
      M.Leads ⟨c.stack, c.store, u ++ v⟩ ⟨c'.stack, c'.store, v⟩ := by
  induction h using Relation.ReflTransGen.head_induction_on with
  | refl =>
      exact ⟨[], rfl, fun v _ => .refl⟩
  | @head c d hstep _ ih =>
      obtain ⟨u, hu, ih⟩ := ih
      obtain ⟨st, s, input⟩ := c
      rcases LrParser.step_eq_ok hstep with
        ⟨q, haction, hfinal, hroom, rfl⟩ | ⟨r, s', haction, hs, hfinal, hroom, rfl⟩
      · cases input with
        | nil =>
            exact absurd (C.shift_eof _ _ haction) hfinal
        | cons t rest =>
            refine ⟨t :: u, by rw [List.cons_append, ← hu]; rfl, fun v hv => ?_⟩
            refine Relation.ReflTransGen.head ?_ (ih v hv)
            rw [LrParser.step_shift (c := ⟨st, s, t :: u ++ v⟩) haction,
              LrParser.enter_eq_ok_iff]
            exact ⟨hroom, hfinal, rfl⟩
      · refine ⟨u, hu, fun v hv => Relation.ReflTransGen.head ?_ (ih v hv)⟩
        have haction' : M.action (M.top st) (M.look (u ++ v)) = .reduce r := by
          rw [look_append hv, ← hu]
          exact haction
        rw [LrParser.step_reduce_ok (c := ⟨st, s, u ++ v⟩) haction' hs,
          LrParser.enter_eq_ok_iff]
        exact ⟨hroom, hfinal, rfl⟩

/-- A rejected input is rejected at the first token with which no derivable input goes on. -/
theorem syntaxError_position
    (F : LrPhrases M C P)
    {w rest : List Tok} {s : σ}
    (h : M.Stops ⟨[], s, w⟩ (.syntaxError rest)) :
    ∃ u, w = u ++ rest ∧
      (∃ v p, F.Derives [p] (u ++ v) ∧ F.symbol p = .nonterminal C.start) ∧
      ∀ v p, F.Derives [p] (u ++ v) → F.symbol p = .nonterminal C.start →
        M.look v ≠ M.look rest := by
  obtain ⟨c, hlead, hstop⟩ := h
  obtain ⟨haction, rfl⟩ := LrParser.step_eq_syntaxError hstop
  obtain ⟨u, hu, hlocal⟩ := leads_local C hlead
  obtain ⟨ps, hrec⟩ := (F.recognised_initial w s).leads hlead
  obtain ⟨u', hu', hviable⟩ := hrec.viable
  obtain rfl : u' = u := List.append_cancel_right (hu'.symm.trans hu)
  refine ⟨u', hu, hviable, fun v p hp hsym hlook => ?_⟩
  -- The same steps lead to the same missing entry on the continued input.
  have hstops : M.Stops ⟨[], s, u' ++ v⟩ (.syntaxError v) := by
    refine ⟨_, hlocal v hlook, LrParser.step_error ?_⟩
    rw [← haction]
    exact congrArg _ hlook
  obtain ⟨o, ho⟩ := F.run_ends s (u' ++ v) (Nat.lt_succ_self _)
  cases LrParser.run_eq_of_stops ho hstops
  rcases F.stops_of_derives hp hsym s with ⟨_, _, _, hs⟩ | ⟨_, _, hs⟩ | ⟨_, hs⟩
  · cases LrParser.run_eq_of_stops ho hs
  · cases LrParser.run_eq_of_stops ho hs
  · cases LrParser.run_eq_of_stops ho hs

end Soundness

section Unambiguity

variable {Q T N R Tok V σ ε P : Type}
variable {M : LrParser Q T N R Tok V σ ε}
variable {C : LrCertificate M}

open Classical in
/-- The phrase a rule makes of some phrases. -/
noncomputable def produced (F : LrPhrases M C P) (p₀ : P) (r : R) (ps : List P) : P :=
  if h : ∃ p, F.Produces r ps p then h.choose else p₀

/-- The parser with the same tables that keeps phrases on its stack. -/
noncomputable def treeBuilder (F : LrPhrases M C P) (p₀ : P) (limit : Nat) :
    LrParser Q T N R Tok P Unit Empty where
  initial := M.initial
  final := M.final
  action := M.action
  goto := M.goto
  lhs := M.lhs
  size := M.size
  eof := M.eof
  kind := M.kind
  value := F.token
  eofValue := p₀
  result := F.produced p₀
  semantic := fun _ _ s => .ok s
  limit := limit + 2

/-- The certificate is one of the tables alone. -/
noncomputable def treeCertificate (F : LrPhrases M C P) (p₀ : P) (limit : Nat) :
    LrCertificate (F.treeBuilder p₀ limit) where
  rhs := C.rhs
  accept := C.accept
  start := C.start
  items := C.items
  first := C.first
  follow := C.follow
  rank := C.rank
  weight := C.weight
  weightBound := C.weightBound
  size_eq := C.size_eq
  rhs_ne_nil := C.rhs_ne_nil
  rhs_accept := C.rhs_accept
  rhs_eof := C.rhs_eof
  kind_ne_eof := C.kind_ne_eof
  two_le_limit := Nat.le_add_left 2 limit
  initial_accept := C.initial_accept
  initial_dot := C.initial_dot
  final_accept := C.final_accept
  items_ne_nil := C.items_ne_nil
  shift_eof := C.shift_eof
  shift_edge := C.shift_edge
  goto_edge := C.goto_edge
  reduce_item := C.reduce_item
  shift_item := C.shift_item
  goto_item := C.goto_item
  closure_item := C.closure_item
  reduce_action := C.reduce_action
  first_rhs := C.first_rhs
  follow_inner := C.follow_inner
  follow_last := C.follow_last
  justified := C.justified
  weight_lhs := C.weight_lhs
  weight_terminal := C.weight_terminal

theorem actAll_ok
    {act : P → Unit → Except Empty Unit}
    (hact : ∀ p s, act p s = .ok s)
    (ps : List P)
    (s : Unit) :
    actAll act ps s = .ok s := by
  induction ps with
  | nil =>
      rfl
  | cons p ps ih =>
      rw [actAll_cons_ok (hact p s), ih]

/-- The phrases themselves are the values of the tree builder. -/
noncomputable def treePhrases (F : LrPhrases M C P) (p₀ : P) (limit : Nat)
    (hfun : ∀ {r ps p p'}, F.Produces r ps p → F.Produces r ps p' → p = p') :
    LrPhrases (F.treeBuilder p₀ limit) (F.treeCertificate p₀ limit) P where
  token := F.token
  Produces := F.Produces
  symbol := F.symbol
  value := id
  act := fun _ s => .ok s
  depth := F.depth
  symbol_token := F.symbol_token
  value_token := fun _ => rfl
  act_token := fun _ _ => rfl
  depth_token := F.depth_token
  produces_accept := F.produces_accept
  produces_rhs := F.produces_rhs
  produces_symbol := F.produces_symbol
  produces_value := by
    intro r ps p hp
    have h : ∃ p, F.Produces r ps p := ⟨p, hp⟩
    change p = F.produced p₀ r (ps.map id)
    rw [List.map_id, produced, dif_pos h]
    exact hfun hp h.choose_spec
  produces_act := by
    intro r ps p hp s
    rw [actAll_ok (fun _ _ => rfl)]
    rfl
  produces_depth := F.produces_depth
  exists_produces := F.exists_produces
  productive := F.productive

/-- If every rule makes one phrase of given phrases, no input has two derivations. -/
theorem unambiguous
    [DecidableEq Q]
    (F : LrPhrases M C P)
    (hfun : ∀ {r ps p p'}, F.Produces r ps p → F.Produces r ps p' → p = p')
    {p p' : P} {w : List Tok}
    (h : DerivesAll F.token F.Produces [p] w)
    (h' : DerivesAll F.token F.Produces [p'] w)
    (hp : F.symbol p = .nonterminal C.start)
    (hp' : F.symbol p' = .nonterminal C.start) :
    p = p' := by
  let G := F.treePhrases p (max (F.depth p) (F.depth p')) hfun
  have hroom : ∀ n, n ≤ max (F.depth p) (F.depth p') →
      n ≤ (F.treeBuilder p (max (F.depth p) (F.depth p'))).limit :=
    fun n hn => hn.trans (Nat.le_add_right _ 2)
  obtain ⟨q, hlead, hstop⟩ :=
    G.leads_of_derives (s := ()) h hp rfl (hroom _ (le_max_left _ _))
  obtain ⟨q', hlead', hstop'⟩ :=
    G.leads_of_derives (s := ()) h' hp' rfl (hroom _ (le_max_right _ _))
  have hstack := congrArg LrConfig.stack (LrParser.stop_unique hlead hlead' hstop hstop')
  exact congrArg Prod.snd (List.cons.inj hstack).1

end Unambiguity

end LrPhrases

end Foundations
