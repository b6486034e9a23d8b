import Poise.PolicyLexer

/-!
# Poise compiler: layouts of a token list

The lexer undoes every way of writing a token list: between two tokens stand
blanks, comments and ignored characters in any number, and they may be left out
unless the two texts would run together.  A lone `/`, `:` or `=` is ignored too, and
a comment ends with its line or with the text.  Conversely the tokens of any text
are again the tokens of the text they are printed to.
-/

namespace Poise

open Foundations

section LexicalLayout

/-- The rules that match a whole word, when no longer word begins with it. -/
def LexRule.accepts (w : List Char) : LexRule → Bool
  | .literal k _ => k == w
  | .listvar =>
      match w with
      | ['l', 'i', 's', 't', d] => d.isDigit
      | _ => false
  | .number => w.all Char.isDigit
  | .name => true
  | .any => w.length == 1
  | .comment | .blank => false

/-- The characters of the symbols and of the layout. -/
def symbolChars : List Char :=
  ['(', ')', '[', ']', '<', '>', '=', ':', '+', '-', '*', '%', '/', ' ', '\t', '\n']

/-- A literal is a word of letters and digits, or begins with a symbol. -/
def LexRule.wellFormed : LexRule → Bool
  | .literal [] _ => false
  | .literal (c :: k) _ =>
      (c :: k).all Char.isAlphanum && !(c :: k).all Char.isDigit && k.take 3 != ['i', 's', 't'] ||
        !c.isAlphanum && c ∈ symbolChars && c ∉ ['/', ' ', '\t', '\n']
  | _ => true

theorem lexRules_wellFormed :
    ∀ r ∈ lexRules, r.wellFormed = true := by
  decide +kernel

theorem isAlphanum_of_isDigit
    {c : Char}
    (h : c.isDigit = true) :
    c.isAlphanum = true := by
  simp [Char.isAlphanum, h]

/-- A literal that begins a text of a word lies within the word. -/
theorem literal_within_word
    {k : List Char} {t : Token} {w rest : List Char}
    (hk : LexRule.literal k t ∈ lexRules)
    (hne : w ≠ [])
    (hw : ∀ c ∈ w, c.isAlphanum = true)
    (hrest : ∀ c ∈ rest.head?, c.isAlphanum = false)
    (h : k <+: w ++ rest) :
    k <+: w := by
  have hform := lexRules_wellFormed _ hk
  cases k with
  | nil =>
      exact List.nil_prefix
  | cons c k =>
      simp only [LexRule.wellFormed, Bool.or_eq_true, Bool.and_eq_true, List.all_eq_true] at hform
      rcases hform with ⟨⟨hall, _⟩, _⟩ | ⟨⟨hsym, _⟩, _⟩
      · exact class_word_within hall hrest h
      · obtain ⟨a, w, rfl⟩ := List.exists_cons_of_ne_nil hne
        rw [List.cons_append, List.cons_prefix_cons] at h
        have hc := hw c (by simp [h.1])
        simp [hc] at hsym

theorem matchLength_comment
    {c : Char} {cs : List Char}
    (h : c ≠ '/') :
    LexRule.comment.matchLength (c :: cs) = 0 := by
  simp only [LexRule.matchLength]
  split
  · rename_i heq
    exact absurd (List.cons.inj heq).1 h
  · rfl

theorem matchLength_blank
    {c : Char} {cs : List Char}
    (h : c ∉ [' ', '\t', '\n']) :
    LexRule.blank.matchLength (c :: cs) = 0 := by
  simp only [List.mem_cons, List.not_mem_nil, or_false] at h
  simp [LexRule.matchLength, h]

theorem matchLength_any
    {c : Char} {cs : List Char}
    (h : c ≠ '\n') :
    LexRule.any.matchLength (c :: cs) = 1 := by
  simp [LexRule.matchLength, h]

/-- The name of a list. -/
def listName (d : Char) : List Char :=
  ['l', 'i', 's', 't', d]

theorem accepts_listvar_iff
    {w : List Char} :
    LexRule.listvar.accepts w = true ↔ ∃ d : Char, d.isDigit = true ∧ w = listName d := by
  simp only [LexRule.accepts, listName]
  split
  · simp
  · rename_i hne
    simp only [Bool.false_eq_true, false_iff]
    rintro ⟨d, _, rfl⟩
    exact hne d rfl

theorem matchLength_listvar
    (text : List Char) :
    (∃ d : Char, d.isDigit = true ∧ listName d <+: text ∧
      LexRule.listvar.matchLength text = 5) ∨
    (LexRule.listvar.matchLength text = 0 ∧
      ∀ d : Char, d.isDigit = true → ¬ listName d <+: text) := by
  simp only [LexRule.matchLength]
  split
  · rename_i d cs
    by_cases hd : d.isDigit = true
    · exact .inl ⟨d, hd, ⟨cs, rfl⟩, if_pos hd⟩
    · refine .inr ⟨if_neg hd, ?_⟩
      rintro d' hd' ⟨cs', h⟩
      simp only [listName, List.cons_append, List.cons.injEq, true_and] at h
      exact hd (h.1 ▸ hd')
  · rename_i hne
    refine .inr ⟨rfl, ?_⟩
    rintro d _ ⟨cs, rfl⟩
    exact hne d cs rfl

theorem listName_isAlphanum
    {d : Char}
    (hd : d.isDigit = true) :
    ∀ c ∈ listName d, c.isAlphanum = true := by
  intro c hc
  simp only [listName, List.mem_cons, List.not_mem_nil, or_false] at hc
  rcases hc with rfl | rfl | rfl | rfl | rfl
  · rfl
  · rfl
  · rfl
  · rfl
  · exact isAlphanum_of_isDigit hd

/-- At a word every rule matches at most the word, and all of it if it accepts the word. -/
theorem matchLength_word
    {r : LexRule} {w rest : List Char}
    (hr : r ∈ lexRules)
    (hne : w ≠ [])
    (hw : ∀ c ∈ w, c.isAlphanum = true)
    (hrest : ∀ c ∈ rest.head?, c.isAlphanum = false) :
    r.matchLength (w ++ rest) ≤ w.length ∧
      (r.accepts w = true ↔ r.matchLength (w ++ rest) = w.length) := by
  have hpos : 0 < w.length := List.length_pos_iff.mpr hne
  obtain ⟨a, v, rfl⟩ := List.exists_cons_of_ne_nil hne
  have ha : a ∉ symbolChars := by
    intro hmem
    have halnum := hw a (by simp)
    revert halnum
    fin_cases hmem <;> decide
  have hslash : a ≠ '/' ∧ a ∉ [' ', '\t', '\n'] ∧ a ≠ '\n' := by
    refine ⟨?_, ?_, ?_⟩
    · rintro rfl
      exact ha (by decide)
    · intro hmem
      exact ha (by fin_cases hmem <;> decide)
    · rintro rfl
      exact ha (by decide)
  cases r with
  | comment =>
      rw [List.cons_append, matchLength_comment hslash.1]
      exact ⟨Nat.zero_le _, by simp [LexRule.accepts]⟩
  | literal k t =>
      simp only [LexRule.matchLength, LexRule.accepts, beq_iff_eq, List.isPrefixOf_iff_prefix]
      split
      · rename_i hk
        have hkw := literal_within_word hr hne hw hrest hk
        exact ⟨hkw.length_le, fun h => by rw [h], fun h => hkw.eq_of_length h⟩
      · rename_i hk
        refine ⟨Nat.zero_le _, fun h => absurd (h ▸ List.prefix_append _ _) hk, fun h => ?_⟩
        omega
  | listvar =>
      rw [accepts_listvar_iff]
      rcases matchLength_listvar (a :: v ++ rest) with ⟨d, hd, htext, hlen⟩ | ⟨hlen, hnot⟩
      · have hwithin := class_word_within (listName_isAlphanum hd) hrest htext
        rw [hlen]
        refine ⟨hwithin.length_le, ?_, fun h => ⟨d, hd, (hwithin.eq_of_length h).symm⟩⟩
        rintro ⟨d', _, heq⟩
        rw [heq]
        rfl
      · rw [hlen]
        refine ⟨Nat.zero_le _, ?_, fun h => by omega⟩
        rintro ⟨d, hd, heq⟩
        exact absurd (heq ▸ List.prefix_append _ _) (hnot d hd)
  | blank =>
      rw [List.cons_append, matchLength_blank hslash.2.1]
      exact ⟨Nat.zero_le _, by simp [LexRule.accepts]⟩
  | number =>
      have hdigit : ∀ c ∈ rest.head?, c.isDigit = false := by
        intro c hc
        by_contra hd
        have halnum := isAlphanum_of_isDigit (eq_true_of_ne_false hd)
        rw [hrest c hc] at halnum
        cases halnum
      simp only [LexRule.matchLength, LexRule.accepts, List.all_eq_true]
      have hwithin : (a :: v ++ rest).takeWhile Char.isDigit <+: a :: v := by
        refine class_word_within (fun c hc => ?_) hrest (List.takeWhile_prefix _)
        exact isAlphanum_of_isDigit (List.mem_takeWhile_imp hc)
      refine ⟨hwithin.length_le, fun h => by rw [takeWhile_append_stop h hdigit], fun h => ?_⟩
      intro c hc
      rw [← hwithin.eq_of_length h] at hc
      exact List.mem_takeWhile_imp hc
  | name =>
      simp only [LexRule.matchLength, LexRule.accepts, takeWhile_append_stop hw hrest]
      simp
  | any =>
      rw [List.cons_append, matchLength_any hslash.2.2]
      refine ⟨hpos, ?_⟩
      simp only [LexRule.accepts, beq_iff_eq]
      exact eq_comm

/-- The first rule that reaches the longest match gives the token. -/
theorem nextToken_of_find?
    {text : List Char} {p : LexRule → Bool} {n : Nat} {r : LexRule}
    (hle : ∀ a ∈ lexRules, a.matchLength text ≤ n)
    (hp : ∀ a ∈ lexRules, p a = true ↔ a.matchLength text = n)
    (hr : lexRules.find? p = some r) :
    nextToken text = (n, r.token (text.take n)) := by
  obtain ⟨hargmax, hlen⟩ := argmax_eq_find? (f := fun r => r.matchLength text) hle hp hr
  rw [nextToken, hargmax]
  simp only [hlen]

/-- A word is read by the first rule that accepts it. -/
theorem nextToken_word
    {w rest : List Char} {r : LexRule}
    (hne : w ≠ [])
    (hw : ∀ c ∈ w, c.isAlphanum = true)
    (hrest : ∀ c ∈ rest.head?, c.isAlphanum = false)
    (hr : lexRules.find? (LexRule.accepts w) = some r) :
    nextToken (w ++ rest) = (w.length, r.token w) := by
  rw [nextToken_of_find? (fun a ha => (matchLength_word ha hne hw hrest).1)
    (fun a ha => (matchLength_word ha hne hw hrest).2) hr, List.take_left]

/-- Where a text begins with no letter or digit, the rules for words match nothing. -/
theorem matchLength_of_not_alphanum
    {c : Char}
    (hc : c.isAlphanum = false)
    (cs : List Char) :
    LexRule.listvar.matchLength (c :: cs) = 0 ∧ LexRule.number.matchLength (c :: cs) = 0 ∧
      LexRule.name.matchLength (c :: cs) = 0 := by
  refine ⟨?_, ?_, ?_⟩
  · rcases matchLength_listvar (c :: cs) with ⟨d, _, htext, _⟩ | ⟨hlen, _⟩
    · have hl := (List.cons_prefix_cons.mp htext).1
      rw [← hl] at hc
      cases hc
    · exact hlen
  · have hdigit : c.isDigit = false := by
      by_contra hd
      rw [isAlphanum_of_isDigit (eq_true_of_ne_false hd)] at hc
      cases hc
    simp [LexRule.matchLength, hdigit]
  · simp [LexRule.matchLength, hc]

/-- A character that belongs to no token and to no layout. -/
def isJunk (c : Char) : Bool :=
  !c.isAlphanum && c ∉ symbolChars

/-- No literal begins with another character than those of words and symbols. -/
theorem literal_head
    {k : List Char} {t : Token} {c : Char} {cs : List Char}
    (hk : LexRule.literal k t ∈ lexRules)
    (hc : c.isAlphanum = false)
    (hsym : c ∉ symbolChars ∨ c ∈ ['/', ' ', '\t', '\n']) :
    (LexRule.literal k t).matchLength (c :: cs) = 0 := by
  have hform := lexRules_wellFormed _ hk
  simp only [LexRule.matchLength, List.isPrefixOf_iff_prefix, ite_eq_right_iff]
  intro hpre
  cases k with
  | nil =>
      rfl
  | cons a k =>
      obtain rfl := (List.cons_prefix_cons.mp hpre).1
      simp only [LexRule.wellFormed, Bool.or_eq_true, Bool.and_eq_true, List.all_cons, hc,
        Bool.false_and, Bool.false_eq_true, false_or, decide_eq_true_eq] at hform
      rcases hsym with h | h
      · exact absurd hform.1.2 h
      · exact absurd h hform.2

/-- A character that no rule but the last one matches is skipped. -/
theorem nextToken_ignored
    {c : Char} {cs : List Char}
    (halnum : c.isAlphanum = false)
    (hblank : c ∉ [' ', '\t', '\n'])
    (hcomment : LexRule.comment.matchLength (c :: cs) = 0)
    (hliteral : ∀ k t, LexRule.literal k t ∈ lexRules →
      (LexRule.literal k t).matchLength (c :: cs) = 0) :
    nextToken (c :: cs) = (1, none) := by
  obtain ⟨hlistvar, hnumber, hname⟩ := matchLength_of_not_alphanum halnum cs
  have hline : c ≠ '\n' := by
    rintro rfl
    exact hblank (by decide)
  have hlen : ∀ a ∈ lexRules, a.matchLength (c :: cs) = if a = .any then 1 else 0 := by
    intro a ha
    cases a with
    | comment =>
        rw [hcomment, if_neg (by simp)]
    | literal k t =>
        rw [hliteral k t ha, if_neg (by simp)]
    | listvar =>
        rw [hlistvar, if_neg (by simp)]
    | blank =>
        rw [matchLength_blank hblank, if_neg (by simp)]
    | number =>
        rw [hnumber, if_neg (by simp)]
    | name =>
        rw [hname, if_neg (by simp)]
    | any =>
        rw [matchLength_any hline, if_pos rfl]
  refine nextToken_of_find? (p := fun a => a = .any) (r := .any) ?_ ?_ (by decide +kernel)
  · intro a ha
    rw [hlen a ha]
    split <;> omega
  · intro a ha
    rw [hlen a ha]
    simp

/-- Characters of no token and no layout are skipped. -/
theorem nextToken_junk
    {c : Char} {cs : List Char}
    (hc : isJunk c = true) :
    nextToken (c :: cs) = (1, none) := by
  simp only [isJunk, Bool.and_eq_true, Bool.not_eq_true', decide_eq_true_eq] at hc
  obtain ⟨halnum, hsym⟩ := hc
  have hslash : c ≠ '/' := by
    rintro rfl
    exact hsym (by decide)
  refine nextToken_ignored halnum ?_ (matchLength_comment hslash)
    (fun k t hk => literal_head hk halnum (.inl hsym))
  intro hmem
  exact hsym (by fin_cases hmem <;> decide)

/-- The characters that begin a comment or a symbol and are neither alone. -/
def loneChars : List Char :=
  ['/', ':', '=']

/-- The character that makes a comment or a symbol of one of these characters. -/
def partnerOf (c : Char) : Char :=
  if c = '/' then '/' else '='

/-- The only symbols that begin with `:` or `=`. -/
def LexRule.partnered : LexRule → Bool
  | .literal (':' :: k) _ => k == ['=']
  | .literal ('=' :: k) _ => k == ['=']
  | _ => true

theorem lexRules_partnered :
    ∀ r ∈ lexRules, r.partnered = true := by
  decide +kernel

/-- Without `=` behind it, no symbol begins with a `:` or a `=`. -/
theorem literal_alone
    {k : List Char} {t : Token} {c : Char} {cs : List Char}
    (hk : LexRule.literal k t ∈ lexRules)
    (hc : c = ':' ∨ c = '=')
    (hnext : cs.head? ≠ some '=') :
    (LexRule.literal k t).matchLength (c :: cs) = 0 := by
  have hform := lexRules_partnered _ hk
  simp only [LexRule.matchLength, List.isPrefixOf_iff_prefix, ite_eq_right_iff]
  intro hpre
  cases k with
  | nil =>
      rfl
  | cons a k =>
      obtain ⟨rfl, htail⟩ := List.cons_prefix_cons.mp hpre
      have hrest : k = ['='] := by
        rcases hc with rfl | rfl
        · exact beq_iff_eq.mp hform
        · exact beq_iff_eq.mp hform
      obtain ⟨x, rfl⟩ := hrest ▸ htail
      exact absurd rfl hnext

/-- Without its partner behind it, such a character is skipped. -/
theorem nextToken_lone
    {c : Char} {cs : List Char}
    (hc : c ∈ loneChars)
    (hnext : cs.head? ≠ some (partnerOf c)) :
    nextToken (c :: cs) = (1, none) := by
  simp only [loneChars, List.mem_cons, List.not_mem_nil, or_false] at hc
  rcases hc with rfl | rfl | rfl
  · refine nextToken_ignored rfl (by decide) ?_
      (fun k t hk => literal_head hk rfl (.inr (by decide)))
    cases cs with
    | nil =>
        rfl
    | cons d cs =>
        have hd : d ≠ '/' := fun h => hnext (by rw [h]; rfl)
        simp [LexRule.matchLength, hd]
  · exact nextToken_ignored rfl (by decide) rfl
      (fun k t hk => literal_alone hk (.inl rfl) hnext)
  · exact nextToken_ignored rfl (by decide) rfl
      (fun k t hk => literal_alone hk (.inr rfl) hnext)

/-- A blank is skipped. -/
theorem nextToken_blank
    {c : Char} {cs : List Char}
    (hc : c ∈ [' ', '\t', '\n']) :
    nextToken (c :: cs) = (1, none) := by
  simp only [List.mem_cons, List.not_mem_nil, or_false] at hc
  rcases hc with rfl | rfl | rfl <;> rfl

/-- A comment is skipped up to the end of its line, or of the text. -/
theorem nextToken_comment
    {body rest : List Char}
    (hbody : '\n' ∉ body)
    (hrest : ∀ c ∈ rest.head?, c = '\n') :
    nextToken ('/' :: '/' :: body ++ rest) = (body.length + 2, none) := by
  have hrun : (body ++ rest).takeWhile (· != '\n') = body := by
    refine takeWhile_append_stop ?_ ?_
    · intro c hc
      simp only [bne_iff_ne, ne_eq]
      rintro rfl
      exact hbody hc
    · intro c hc
      simp [hrest c hc]
  obtain ⟨hlistvar, hnumber, hname⟩ :=
    matchLength_of_not_alphanum (c := '/') rfl ('/' :: (body ++ rest))
  have hlen : ∀ a ∈ lexRules, a.matchLength ('/' :: '/' :: body ++ rest) =
      if a = .comment then body.length + 2 else if a = .any then 1 else 0 := by
    intro a ha
    cases a with
    | comment =>
        simp only [LexRule.matchLength, List.cons_append, hrun, if_true]
        omega
    | literal k t =>
        simp only [List.cons_append]
        rw [literal_head ha rfl (.inr (by decide)), if_neg (by simp), if_neg (by simp)]
    | listvar =>
        exact hlistvar
    | blank =>
        rfl
    | number =>
        exact hnumber
    | name =>
        exact hname
    | any =>
        rfl
  refine nextToken_of_find? (p := fun a => a = .comment) (r := .comment) ?_ ?_ rfl
  · intro a ha
    rw [hlen a ha]
    split_ifs <;> omega
  · intro a ha
    rw [hlen a ha]
    by_cases hcomment : a = .comment
    · simp [hcomment]
    · rw [if_neg hcomment]
      split_ifs <;> simp [hcomment]

/-- The tokens that are not words. -/
def symbolTokens : List Token :=
  [.assign, .lp, .rp, .lb, .rb, .compare .lt, .compare .le, .compare .gt, .compare .ge,
   .compare .eq, .arith .plus, .arith .minus, .arith .multi, .arith .mod]

/-- The rules that match a symbol, when no longer symbol begins with it. -/
def LexRule.isSymbol (k : List Char) : LexRule → Bool
  | .literal k' _ => k' == k
  | .any => k.length == 1
  | _ => false

theorem symbol_found :
    ∀ t ∈ symbolTokens, lexRules.find? (LexRule.isSymbol t.text) = some (.literal t.text t) := by
  decide +kernel

/-- The longer symbols that begin with a symbol. -/
def LexRule.extensionOk (t : Token) : LexRule → Bool
  | .literal k _ =>
      !t.text.isPrefixOf k || k == t.text ||
        (t == .compare .lt || t == .compare .gt) && k == t.text ++ ['=']
  | _ => true

theorem symbol_extensions :
    ∀ t ∈ symbolTokens, ∀ r ∈ lexRules, r.extensionOk t = true := by
  decide +kernel

theorem symbol_head :
    ∀ t ∈ symbolTokens, t.text ≠ [] ∧
      ∀ c ∈ t.text.head?, c.isAlphanum = false ∧ c ∉ ['/', ' ', '\t', '\n'] := by
  have hcheck : ∀ t ∈ symbolTokens, t.text ≠ [] ∧
      t.text.head?.all (fun c => !c.isAlphanum && !(['/', ' ', '\t', '\n'].elem c)) = true := by
    decide +kernel
  intro t ht
  obtain ⟨hne, hall⟩ := hcheck t ht
  refine ⟨hne, fun c hc => ?_⟩
  rw [Option.mem_def.mp hc] at hall
  simpa using hall

theorem symbol_equals :
    ∀ t ∈ symbolTokens, t.text.head? = some '=' → t = .compare .eq := by
  decide +kernel

/-- A symbol is read whole; only `<` and `>` may be the beginning of a longer one. -/
theorem nextToken_symbol
    {t : Token} {rest : List Char}
    (ht : t ∈ symbolTokens)
    (hrest : t = .compare .lt ∨ t = .compare .gt → rest.head? ≠ some '=') :
    nextToken (t.text ++ rest) = (t.text.length, some t) := by
  obtain ⟨hne, hhead⟩ := symbol_head t ht
  have hlen : ∀ a ∈ lexRules, a.matchLength (t.text ++ rest) ≤ t.text.length ∧
      (a.isSymbol t.text = true ↔ a.matchLength (t.text ++ rest) = t.text.length) := by
    intro a ha
    have hpos : 0 < t.text.length := List.length_pos_iff.mpr hne
    have hext := symbol_extensions t ht a ha
    cases a with
    | literal k u =>
        simp only [LexRule.matchLength, LexRule.isSymbol, beq_iff_eq, List.isPrefixOf_iff_prefix]
        split
        · rename_i hk
          rcases List.prefix_or_prefix_of_prefix hk (List.prefix_append t.text rest) with h | h
          · exact ⟨h.length_le, fun h' => by rw [h'], fun h' => h.eq_of_length h'⟩
          · simp only [LexRule.extensionOk, Bool.or_eq_true, Bool.and_eq_true, beq_iff_eq,
              Bool.not_eq_true', List.isPrefixOf_iff_prefix, ← Bool.not_eq_true] at hext
            rcases hext with (h' | rfl) | ⟨hopen, rfl⟩
            · exact absurd h h'
            · exact ⟨le_refl _, by simp⟩
            · rw [List.prefix_append_right_inj] at hk
              obtain ⟨x, rfl⟩ := hk
              exact absurd rfl (hrest hopen)
        · rename_i hk
          refine ⟨Nat.zero_le _, fun h => absurd (h ▸ List.prefix_append _ _) hk, fun h => ?_⟩
          omega
    | comment | listvar | blank | number | name =>
        obtain ⟨c, k, hk⟩ := List.exists_cons_of_ne_nil hne
        obtain ⟨hc, hlayout⟩ := hhead c (by simp [hk])
        obtain ⟨hlistvar, hnumber, hname⟩ := matchLength_of_not_alphanum hc (k ++ rest)
        simp only [List.mem_cons, List.not_mem_nil, or_false, not_or] at hlayout
        rw [hk, List.cons_append]
        simp [matchLength_comment, matchLength_blank, hlistvar, hnumber, hname, hlayout,
          LexRule.isSymbol]
    | any =>
        obtain ⟨c, k, hk⟩ := List.exists_cons_of_ne_nil hne
        obtain ⟨_, hlayout⟩ := hhead c (by simp [hk])
        simp only [List.mem_cons, List.not_mem_nil, or_false, not_or] at hlayout
        rw [hk] at hpos ⊢
        rw [List.cons_append, matchLength_any hlayout.2.2.2]
        refine ⟨hpos, ?_⟩
        simp only [LexRule.isSymbol, beq_iff_eq]
        exact eq_comm
  rw [nextToken_of_find? (fun a ha => (hlen a ha).1) (fun a ha => (hlen a ha).2)
    (symbol_found t ht)]
  rfl

/-- The tokens the lexer can give. -/
def Token.Lexical : Token → Prop
  | .var s =>
      s.toList ≠ [] ∧ (∀ c ∈ s.toList, c.isAlphanum = true) ∧
        lexRules.find? (LexRule.accepts s.toList) = some .name
  | .listvar s => ∃ d : Char, d.isDigit = true ∧ s = String.ofList (listName d)
  | .const c => -2 ^ 31 ≤ c ∧ c < 2 ^ 31
  | _ => True

/-- Whether a token is written with letters and digits. -/
def Token.isWord (t : Token) : Bool :=
  t ∉ symbolTokens

/-- No literal is a number or the name of a list. -/
theorem literal_accepts
    {k w : List Char} {t : Token}
    (hk : LexRule.literal k t ∈ lexRules)
    (hw : (w ≠ [] ∧ ∀ c ∈ w, c.isDigit = true) ∨ ∃ d, w = listName d) :
    (LexRule.literal k t).accepts w = false := by
  have hform := lexRules_wellFormed _ hk
  simp only [LexRule.accepts, beq_eq_false_iff_ne]
  rintro rfl
  rcases hw with ⟨hne, hdigits⟩ | ⟨d, rfl⟩
  · obtain ⟨c, k, rfl⟩ := List.exists_cons_of_ne_nil hne
    have hall : (c :: k).all Char.isDigit = true := List.all_eq_true.mpr hdigits
    have hc := isAlphanum_of_isDigit (hdigits c (by simp))
    simp [LexRule.wellFormed, hall, hc] at hform
  · simp [LexRule.wellFormed, listName] at hform

/-- The rules that accept a number, of one digit or more. -/
def LexRule.acceptsDigits (single : Bool) : LexRule → Bool
  | .number | .name => true
  | .any => single
  | _ => false

theorem accepts_digits
    {w : List Char}
    (hne : w ≠ [])
    (hw : ∀ c ∈ w, c.isDigit = true) :
    lexRules.find? (LexRule.accepts w) = some .number := by
  have hsame : ∀ r ∈ lexRules, r.accepts w = r.acceptsDigits (w.length == 1) := by
    intro r hr
    cases r with
    | literal k t =>
        exact literal_accepts hr (.inl ⟨hne, hw⟩)
    | number =>
        simpa [LexRule.accepts, LexRule.acceptsDigits] using hw
    | listvar =>
        refine eq_false_of_ne_true fun h => ?_
        obtain ⟨d, _, rfl⟩ := accepts_listvar_iff.mp h
        exact absurd (hw 'l' (by simp [listName])) (by decide)
    | comment | blank | name | any =>
        rfl
  rw [List.find?_congr hsame]
  cases (w.length == 1) <;> rfl

/-- The rules that accept the name of a list. -/
def LexRule.acceptsListName : LexRule → Bool
  | .listvar | .name => true
  | _ => false

theorem accepts_listName
    {d : Char}
    (hd : d.isDigit = true) :
    lexRules.find? (LexRule.accepts (listName d)) = some .listvar := by
  have hsame : ∀ r ∈ lexRules, r.accepts (listName d) = r.acceptsListName := by
    intro r hr
    cases r with
    | literal k t =>
        exact literal_accepts hr (.inr ⟨d, rfl⟩)
    | listvar =>
        exact accepts_listvar_iff.mpr ⟨d, hd, rfl⟩
    | comment | blank | name | any | number =>
        rfl
  rw [List.find?_congr hsame]
  rfl

/-- A number written as its low 32 bits is read back. -/
theorem atoi_repr
    {c : Int}
    (hlow : -2 ^ 31 ≤ c)
    (hhigh : c < 2 ^ 31) :
    atoi (c % 2 ^ 32).toNat.repr.toList = c := by
  have hof : Nat.ofDigitChars 10 (c % 2 ^ 32).toNat.repr.toList 0 = (c % 2 ^ 32).toNat := by
    rw [Nat.toList_repr]
    exact Nat.ofDigitChars_ten_toDigits
  unfold atoi
  rw [hof]
  generalize hn : (c % 2 ^ 32).toNat = n
  have hmin : min n (2 ^ 63 - 1) = n := by
    omega
  rw [hmin, Int.bmod]
  omega

/-- A word is read back by the first rule that accepts it. -/
theorem word_found
    {t : Token}
    (hword : t.isWord = true)
    (ht : t.Lexical) :
    t.text ≠ [] ∧ (∀ c ∈ t.text, c.isAlphanum = true) ∧
      ∃ r, lexRules.find? (LexRule.accepts t.text) = some r ∧ r.token t.text = some t := by
  cases t with
  | var s =>
      obtain ⟨hne, hw, hfind⟩ := ht
      exact ⟨hne, hw, .name, hfind, by simp [LexRule.token, Token.text]⟩
  | listvar s =>
      obtain ⟨d, hd, rfl⟩ := ht
      rw [Token.text, String.toList_ofList]
      exact ⟨by simp [listName], listName_isAlphanum hd, .listvar, accepts_listName hd, rfl⟩
  | const c =>
      have hdigits : ∀ a ∈ (Token.const c).text, a.isDigit = true :=
        fun a ha => isDigit_of_mem_repr ha
      have hne : (Token.const c).text ≠ [] := by
        rw [Token.text, Nat.toList_repr]
        exact Nat.toDigits_ne_nil
      refine ⟨hne, fun a ha => isAlphanum_of_isDigit (hdigits a ha), .number,
        accepts_digits hne hdigits, ?_⟩
      rw [LexRule.token, Token.text, atoi_repr ht.1 ht.2]
  | action a =>
      cases a <;> exact ⟨by simp [Token.text], List.all_eq_true.mp rfl, _, rfl, rfl⟩
  | bool b =>
      cases b <;> exact ⟨by simp [Token.text], List.all_eq_true.mp rfl, _, rfl, rfl⟩
  | member o =>
      cases o <;> exact ⟨by simp [Token.text], List.all_eq_true.mp rfl, _, rfl, rfl⟩
  | kwIf | kwThen | kwElse | kwMatch | kwCount | kwMonitor | kwDef =>
      exact ⟨by simp [Token.text], List.all_eq_true.mp rfl, _, rfl, rfl⟩
  | compare o =>
      cases o <;> cases hword
  | arith o =>
      cases o <;> cases hword
  | lp | rp | lb | rb | assign =>
      cases hword

/-- What may stand between tokens. -/
inductive Layout where
  | blank (c : Char)
  | junk (c : Char)
  | lone (c : Char)
  | comment (body : List Char)
deriving DecidableEq, Repr

def Layout.text : Layout → List Char
  | .blank c => [c]
  | .junk c => [c]
  | .lone c => [c]
  | .comment body => '/' :: '/' :: body

/-- What a piece of layout asks of its characters and of the text behind it. -/
def Layout.Before (next : List Char) : Layout → Prop
  | .blank c => c ∈ [' ', '\t', '\n']
  | .junk c => isJunk c = true
  | .lone c => c ∈ loneChars ∧ next.head? ≠ some (partnerOf c)
  | .comment body => '\n' ∉ body ∧ ∀ c ∈ next.head?, c = '\n'

/-- The text of a gap between tokens. -/
def gapText (gap : List Layout) : List Char :=
  gap.flatMap Layout.text

/-- A gap in front of a text. -/
def GapBefore (next : List Char) : List Layout → Prop
  | [] => True
  | l :: gap => l.Before (gapText gap ++ next) ∧ GapBefore next gap

/-- Tokens with the gaps before them, and the gap at the end. -/
def layoutText : List (List Layout × Token) → List Layout → List Char
  | [], last => gapText last
  | (gap, t) :: rest, last => gapText gap ++ (t.text ++ layoutText rest last)

/-- All gaps are gaps in front of what follows them. -/
def LaidOut : List (List Layout × Token) → List Layout → Prop
  | [], last => GapBefore [] last
  | (gap, t) :: rest, last => GapBefore (t.text ++ layoutText rest last) gap ∧ LaidOut rest last

/-- Two texts that run together when nothing stands between them. -/
def Token.joins (t t' : Token) : Bool :=
  t.isWord && t'.isWord ||
    (t == .compare .lt || t == .compare .gt) && t' == .compare .eq

/-- A token that runs together with the gap behind it. -/
def Token.joinsGap (t : Token) (gap : List Layout) : Bool :=
  (t == .compare .lt || t == .compare .gt) && gap.head? == some (.lone '=')

/-- Nothing runs together with a token. -/
def Apart : List (List Layout × Token) → List Layout → Prop
  | [], _ => True
  | [(_, t)], last => t.joinsGap last = false
  | (_, t) :: (gap, t') :: rest, last =>
      (gap = [] → t.joins t' = false) ∧ t.joinsGap gap = false ∧ Apart ((gap, t') :: rest) last

/-- A gap is skipped. -/
theorem yylex_gap
    {gap : List Layout} {rest : List Char}
    (h : GapBefore rest gap) :
    yylex (gapText gap ++ rest) = yylex rest := by
  induction gap with
  | nil =>
      rfl
  | cons l gap ih =>
      obtain ⟨hl, hgap⟩ := h
      rw [gapText, List.flatMap_cons, List.append_assoc, ← ih hgap]
      cases l with
      | blank c =>
          exact scan_of_next (u := [c]) (by simp) (nextToken_blank hl)
      | junk c =>
          exact scan_of_next (u := [c]) (by simp) (nextToken_junk hl)
      | lone c =>
          exact scan_of_next (u := [c]) (by simp) (nextToken_lone hl.1 hl.2)
      | comment body =>
          exact scan_of_next (by simp) (nextToken_comment hl.1 hl.2)

/-- What follows a token does not continue it. -/
def Token.EndsBefore (t : Token) (rest : List Char) : Prop :=
  (t.isWord = true → ∀ c ∈ rest.head?, c.isAlphanum = false) ∧
    (t = .compare .lt ∨ t = .compare .gt → rest.head? ≠ some '=')

theorem yylex_token
    {t : Token} {rest : List Char}
    (ht : t.Lexical)
    (hrest : t.EndsBefore rest) :
    yylex (t.text ++ rest) = t :: yylex rest := by
  by_cases hword : t.isWord = true
  · obtain ⟨hne, hw, r, hr, htoken⟩ := word_found hword ht
    have hnext := nextToken_word hne hw (hrest.1 hword) hr
    rw [htoken] at hnext
    exact scan_of_next hne hnext
  · have hsym : t ∈ symbolTokens := by
      simpa [Token.isWord] using hword
    exact scan_of_next (symbol_head t hsym).1 (nextToken_symbol hsym hrest.2)

/-- A gap begins with no character that continues a token. -/
theorem endsBefore_gap
    {t : Token} {gap : List Layout} {rest : List Char}
    (h : GapBefore rest gap)
    (hne : gap ≠ [])
    (hjoins : t.joinsGap gap = false) :
    t.EndsBefore (gapText gap ++ rest) := by
  obtain ⟨l, gap, rfl⟩ := List.exists_cons_of_ne_nil hne
  have hl := h.1
  have hhead : ∃ c, (gapText (l :: gap) ++ rest).head? = some c ∧ c.isAlphanum = false ∧
      (c = '=' → l = .lone '=') := by
    rw [gapText, List.flatMap_cons]
    cases l with
    | blank c =>
        refine ⟨c, rfl, ?_⟩
        simp only [Layout.Before, List.mem_cons, List.not_mem_nil, or_false] at hl
        rcases hl with rfl | rfl | rfl <;> exact ⟨rfl, by decide⟩
    | junk c =>
        refine ⟨c, rfl, ?_⟩
        simp only [Layout.Before, isJunk, Bool.and_eq_true, Bool.not_eq_true',
          decide_eq_true_eq] at hl
        refine ⟨hl.1, ?_⟩
        rintro rfl
        exact absurd (by decide) hl.2
    | lone c =>
        refine ⟨c, rfl, ?_, fun hc => by rw [hc]⟩
        have hc := hl.1
        simp only [loneChars, List.mem_cons, List.not_mem_nil, or_false] at hc
        rcases hc with rfl | rfl | rfl <;> rfl
    | comment body =>
        exact ⟨'/', rfl, rfl, fun h => absurd h (by decide)⟩
  obtain ⟨c, hc, halnum, heq⟩ := hhead
  rw [Token.EndsBefore, hc]
  refine ⟨fun _ a ha => ?_, fun hopen h => ?_⟩
  · rw [← Option.some.inj ha]
    exact halnum
  · have hlone := heq (Option.some.inj h)
    rcases hopen with rfl | rfl <;> simp [Token.joinsGap, hlone] at hjoins

/-- A token that does not join the next one ends before it. -/
theorem endsBefore_token
    {t t' : Token}
    (ht' : t'.Lexical)
    (h : t.joins t' = false)
    (rest : List Char) :
    t.EndsBefore (t'.text ++ rest) := by
  simp only [Token.joins, Bool.or_eq_false_iff, Bool.and_eq_false_iff] at h
  by_cases hword : t'.isWord = true
  · obtain ⟨hne, hw, _⟩ := word_found hword ht'
    obtain ⟨c, k, hk⟩ := List.exists_cons_of_ne_nil hne
    have hc := hw c (by simp [hk])
    rw [hk, List.cons_append, Token.EndsBefore]
    refine ⟨fun hw' => ?_, fun _ heq => ?_⟩
    · rw [hw', hword] at h
      simp at h
    · rw [Option.some.inj heq] at hc
      cases hc
  · have hsym : t' ∈ symbolTokens := by
      simpa [Token.isWord] using hword
    obtain ⟨hne, hhead⟩ := symbol_head t' hsym
    obtain ⟨c, k, hk⟩ := List.exists_cons_of_ne_nil hne
    rw [hk, List.cons_append, Token.EndsBefore]
    refine ⟨fun _ a ha => ?_, fun hopen heq => ?_⟩
    · exact (hhead a (by rw [hk]; exact ha)).1
    · have ht' := symbol_equals t' hsym (by rw [hk]; exact heq)
      rcases hopen with rfl | rfl <;> simp [ht'] at h

/-- The lexer undoes every layout of a token list. -/
theorem yylex_layoutText
    {items : List (List Layout × Token)} {last : List Layout}
    (hlex : ∀ i ∈ items, i.2.Lexical)
    (hlaid : LaidOut items last)
    (hapart : Apart items last) :
    yylex (layoutText items last) = items.map Prod.snd := by
  induction items with
  | nil =>
      have h := yylex_gap hlaid
      rw [List.append_nil] at h
      exact h
  | cons item rest ih =>
      obtain ⟨gap, t⟩ := item
      have hends : t.EndsBefore (layoutText rest last) ∧ Apart rest last := by
        cases rest with
        | nil =>
            refine ⟨?_, trivial⟩
            by_cases hne : last = []
            · subst hne
              exact ⟨fun _ a ha => (Option.not_mem_none a ha).elim, fun _ h => by cases h⟩
            · have h := endsBefore_gap hlaid.2 hne hapart
              rw [List.append_nil] at h
              exact h
        | cons item' rest =>
            obtain ⟨gap', t'⟩ := item'
            refine ⟨?_, hapart.2.2⟩
            by_cases hne : gap' = []
            · subst hne
              exact endsBefore_token (hlex ([], t') (by simp)) (hapart.1 rfl) _
            · exact endsBefore_gap hlaid.2.1 hne hapart.2.1
      rw [layoutText, yylex_gap hlaid.1, yylex_token (hlex (gap, t) (by simp)) hends.1,
        ih (fun i hi => hlex i (by simp [hi])) hlaid.2 hends.2]
      rfl

/-- A token list written with one blank before each token. -/
def printTokens (ts : List Token) : List Char :=
  layoutText (ts.map fun t => ([.blank ' '], t)) []

theorem yylex_printTokens
    {ts : List Token}
    (h : ∀ t ∈ ts, t.Lexical) :
    yylex (printTokens ts) = ts := by
  have hspaced : LaidOut (ts.map fun t => ([Layout.blank ' '], t)) [] ∧
      Apart (ts.map fun t => ([Layout.blank ' '], t)) [] := by
    clear h
    induction ts with
    | nil =>
        exact ⟨trivial, trivial⟩
    | cons t ts ih =>
        refine ⟨⟨⟨by simp [Layout.Before], trivial⟩, ih.1⟩, ?_⟩
        cases ts with
        | nil =>
            simp [Apart, Token.joinsGap]
        | cons t' ts =>
            exact ⟨fun hne => absurd hne (by simp), by simp [Token.joinsGap], ih.2⟩
  rw [printTokens, yylex_layoutText (by simpa using h) hspaced.1 hspaced.2, List.map_map]
  exact List.map_id ts

/-- The tokens of literals have no value. -/
def LexRule.plainToken : LexRule → Bool
  | .literal _ (.var _) | .literal _ (.listvar _) | .literal _ (.const _) => false
  | _ => true

theorem lexRules_plainToken :
    ∀ r ∈ lexRules, r.plainToken = true := by
  decide +kernel

theorem literal_lexical
    {k : List Char} {t : Token}
    (hk : LexRule.literal k t ∈ lexRules) :
    t.Lexical := by
  have h := lexRules_plainToken _ hk
  cases t <;> trivial

theorem atoi_bounds
    (digits : List Char) :
    -2 ^ 31 ≤ atoi digits ∧ atoi digits < 2 ^ 31 := by
  unfold atoi
  generalize min (Nat.ofDigitChars 10 digits 0) (2 ^ 63 - 1) = n
  rw [Int.bmod]
  omega

/-- The match at a word gives a token that can be written again. -/
theorem lexical_of_word
    {w : List Char} {r : LexRule} {t : Token}
    (hne : w ≠ [])
    (hw : ∀ c ∈ w, c.isAlphanum = true)
    (hr : lexRules.find? (LexRule.accepts w) = some r)
    (ht : r.token w = some t) :
    t.Lexical := by
  have hmem := List.mem_of_find?_eq_some hr
  have haccepts := List.find?_some hr
  cases r with
  | literal k u =>
      cases ht
      exact literal_lexical hmem
  | listvar =>
      cases ht
      obtain ⟨d, hd, rfl⟩ := accepts_listvar_iff.mp haccepts
      exact ⟨d, hd, rfl⟩
  | number =>
      cases ht
      exact atoi_bounds w
  | name =>
      cases ht
      simp only [Token.Lexical, String.toList_ofList]
      exact ⟨hne, hw, hr⟩
  | comment | blank | any =>
      cases ht

/-- Every token of a text can be written again. -/
theorem yylex_lexical
    (text : List Char) :
    ∀ t ∈ yylex text, t.Lexical := by
  refine forall_mem_scan (fun text t hne ht => ?_) 0 text
  obtain ⟨c, cs, rfl⟩ := List.exists_cons_of_ne_nil hne
  by_cases hc : c.isAlphanum = true
  · have hsplit := List.takeWhile_append_dropWhile (p := Char.isAlphanum) (l := c :: cs)
    have hwne : (c :: cs).takeWhile Char.isAlphanum ≠ [] := by
      simp [hc]
    have hw : ∀ a ∈ (c :: cs).takeWhile Char.isAlphanum, a.isAlphanum = true :=
      fun a ha => List.mem_takeWhile_imp ha
    have hrest : ∀ a ∈ ((c :: cs).dropWhile Char.isAlphanum).head?, a.isAlphanum = false := by
      intro a ha
      have h := List.head?_dropWhile_not Char.isAlphanum (c :: cs)
      rw [Option.mem_def.mp ha] at h
      exact h
    obtain ⟨r, hr⟩ : ∃ r, lexRules.find?
        (LexRule.accepts ((c :: cs).takeWhile Char.isAlphanum)) = some r := by
      rw [← Option.isSome_iff_exists, List.find?_isSome]
      exact ⟨.name, by decide, rfl⟩
    rw [← hsplit, nextToken_word hwne hw hrest hr] at ht
    exact lexical_of_word hwne hw hr ht
  · rw [Bool.not_eq_true] at hc
    obtain ⟨hlistvar, hnumber, hname⟩ := matchLength_of_not_alphanum hc cs
    unfold nextToken at ht
    split at ht
    · rename_i r hr
      have hmem := List.argmax_mem hr
      have hpos : 0 < r.matchLength (c :: cs) := by
        by_cases hline : c = '\n'
        · subst hline
          exact List.le_of_mem_argmax (a := LexRule.blank) (by decide) hr
        · have hany : LexRule.any.matchLength (c :: cs) = 1 := matchLength_any hline
          have hle := List.le_of_mem_argmax (a := LexRule.any) (by decide) hr
          omega
      cases r with
      | literal k u =>
          cases ht
          exact literal_lexical hmem
      | listvar =>
          omega
      | number =>
          omega
      | name =>
          omega
      | comment | blank | any =>
          cases ht
    · cases ht

/-- Lexing what the lexer gives back changes nothing. -/
theorem yylex_printTokens_yylex
    (text : List Char) :
    yylex (printTokens (yylex text)) = yylex text :=
  yylex_printTokens (yylex_lexical text)

end LexicalLayout

end Poise
