import Mathlib.Tactic
import Mathlib.Data.List.Infix

/-!
# Foundations: replacing text

A pass over a text replaces each occurrence of a pattern that it meets and goes on
behind it.  The text is cut at its leftmost occurrences, and the pass puts the pieces
together again with the replacement between them.

A text that is put together from parts can be treated part by part when no occurrence
can reach over the border of two parts.  This is so when one of the two elements at
the border does not occur in the pattern.
-/

namespace Foundations

universe u

section TextReplacement

section Borders

variable {α : Type u} {p : List α} {x : α}

theorem prefix_append_cons_iff
    (hx : x ∉ p)
    (a b : List α) :
    p <+: a ++ x :: b ↔ p <+: a := by
  constructor
  · intro h
    rcases Nat.lt_or_ge a.length p.length with hlong | hshort
    · have hend : a ++ [x] <+: a ++ x :: b := by
        rw [List.prefix_append_right_inj]
        exact ⟨b, rfl⟩
      have hin : a ++ [x] <+: p := List.prefix_of_prefix_length_le hend h (by simpa using hlong)
      exact absurd (hin.subset (by simp)) hx
    · exact List.prefix_of_prefix_length_le h (List.prefix_append a _) hshort
  · intro h
    exact h.trans (List.prefix_append a _)

theorem infix_append_cons
    (hp : p ≠ [])
    (hx : x ∉ p)
    {a b : List α}
    (h : p <:+: a ++ x :: b) :
    p <:+: a ∨ p <:+: b := by
  induction a with
  | nil =>
      rcases List.infix_cons_iff.mp h with hin | hin
      · have hnil : p <+: [] := (prefix_append_cons_iff hx [] b).mp hin
        exact absurd (List.prefix_nil.mp hnil) hp
      · exact Or.inr hin
  | cons y a ih =>
      rcases List.infix_cons_iff.mp h with hin | hin
      · exact Or.inl ((prefix_append_cons_iff hx (y :: a) b).mp hin).isInfix
      · rcases ih hin with hin | hin
        · exact Or.inl (List.infix_cons hin)
        · exact Or.inr hin

/-- No occurrence reaches over the border of two parts. -/
def Separated (p a b : List α) : Prop :=
  (∃ x ∈ a.getLast?, x ∉ p) ∨ ∃ x ∈ b.head?, x ∉ p

/-- The border as an element that does not occur in the pattern. -/
theorem Separated.cases
    {a b : List α}
    (h : Separated p a b) :
    (∃ a' x, a = a' ++ [x] ∧ x ∉ p) ∨ ∃ x b', b = x :: b' ∧ x ∉ p := by
  rcases h with ⟨x, hmem, hx⟩ | ⟨x, hmem, hx⟩
  · obtain ⟨a', rfl⟩ := List.getLast?_eq_some_iff.mp hmem
    exact Or.inl ⟨a', x, rfl, hx⟩
  · obtain ⟨b', rfl⟩ := List.head?_eq_some_iff.mp hmem
    exact Or.inr ⟨x, b', rfl, hx⟩

theorem Separated.infix_append
    (hp : p ≠ [])
    {a b s : List α}
    (h : Separated p a b)
    (hin : p <:+: a ++ (b ++ s)) :
    p <:+: a ∨ p <:+: b ++ s := by
  rcases h.cases with ⟨a', x, rfl, hx⟩ | ⟨x, b', rfl, hx⟩
  · rw [List.append_assoc, List.singleton_append] at hin
    rcases infix_append_cons hp hx hin with hin | hin
    · exact Or.inl (hin.trans (List.prefix_append a' [x]).isInfix)
    · exact Or.inr hin
  · rw [List.cons_append] at hin
    rcases infix_append_cons hp hx hin with hin | hin
    · exact Or.inl hin
    · exact Or.inr (List.infix_cons hin)

/-- An occurrence in separated parts is in one of them. -/
theorem exists_infix_of_infix_flatten
    (hp : p ≠ [])
    {parts : List (List α)}
    (hborders : parts.IsChain (Separated p))
    (hin : p <:+: parts.flatten) :
    ∃ t, t ∈ parts ∧ p <:+: t := by
  induction parts with
  | nil =>
      exact absurd (List.infix_nil.mp hin) hp
  | cons t parts ih =>
      rw [List.flatten_cons] at hin
      cases parts with
      | nil =>
          rw [List.flatten_nil, List.append_nil] at hin
          exact ⟨t, List.mem_cons_self, hin⟩
      | cons u parts =>
          have hborder := (List.isChain_cons_cons.mp hborders).1
          rcases hborder.infix_append hp hin with hin | hin
          · exact ⟨t, List.mem_cons_self, hin⟩
          · obtain ⟨v, hv, hinv⟩ := ih hborders.tail hin
            exact ⟨v, List.mem_cons_of_mem t hv, hinv⟩

end Borders

variable {α : Type u} [DecidableEq α] {p : List α}

/-- The position of the first occurrence of a pattern. -/
def firstMatch (p : List α) : List α → Option Nat
  | [] => if p = [] then some 0 else none
  | x :: s => if p <+: x :: s then some 0 else (firstMatch p s).map (· + 1)

/-- The position of the first occurrence from a position on. -/
def findFrom (p s : List α) (pos : Nat) : Option Nat :=
  if pos ≤ s.length then (firstMatch p (s.drop pos)).map (pos + ·) else none

/-- The pass over a text. -/
def replaceAll (p r : List α) : List α → List α
  | [] => []
  | x :: s =>
      if p <+: x :: s then
        r ++ replaceAll p r (s.drop (p.length - 1))
      else
        x :: replaceAll p r s
termination_by s => s.length
decreasing_by
  · rw [List.length_drop, List.length_cons]
    omega
  · exact Nat.lt_succ_self _

/-- The pieces between leftmost occurrences: no occurrence begins inside a piece, not even one
that overlaps the occurrence behind the piece. -/
def Leftmost (p : List α) : List (List α) → Prop
  | [] => False
  | [t] => ¬ p <:+: t
  | t :: u :: pieces => ¬ p <:+: t ++ p.dropLast ∧ Leftmost p (u :: pieces)

section Search

theorem not_infix_of_firstMatch_eq_none
    {s : List α}
    (h : firstMatch p s = none) :
    ¬ p <:+: s := by
  induction s with
  | nil =>
      intro hin
      rw [firstMatch, if_pos (List.infix_nil.mp hin)] at h
      cases h
  | cons x s ih =>
      rw [firstMatch] at h
      split at h
      · cases h
      · rename_i hfront
        rw [List.infix_cons_iff]
        rintro (hin | hin)
        · exact hfront hin
        · exact ih (Option.map_eq_none_iff.mp h) hin

/-- The first occurrence: none begins in front of it. -/
theorem eq_append_of_firstMatch
    (hp : p ≠ [])
    {s : List α} {i : Nat}
    (h : firstMatch p s = some i) :
    ∃ t u, s = t ++ p ++ u ∧ t.length = i ∧ ¬ p <:+: t ++ p.dropLast := by
  induction s generalizing i with
  | nil =>
      rw [firstMatch, if_neg hp] at h
      cases h
  | cons x s ih =>
      rw [firstMatch] at h
      split at h
      · rename_i hfront
        obtain ⟨u, hu⟩ := hfront
        cases h
        refine ⟨[], u, hu.symm, rfl, ?_⟩
        intro hin
        have hlength := hin.length_le
        have hpos := List.length_pos_of_ne_nil hp
        rw [List.nil_append, List.length_dropLast] at hlength
        omega
      · rename_i hfront
        obtain ⟨j, hj, rfl⟩ := Option.map_eq_some_iff.mp h
        obtain ⟨t, u, rfl, rfl, hfirst⟩ := ih hj
        refine ⟨x :: t, u, rfl, rfl, ?_⟩
        rw [List.cons_append, List.infix_cons_iff]
        rintro (hin | hin)
        · apply hfront
          refine hin.trans ?_
          rw [List.append_assoc, List.cons_prefix_cons, List.prefix_append_right_inj]
          exact ⟨rfl, (List.dropLast_prefix p).trans (List.prefix_append p u)⟩
        · exact hfirst hin

theorem findFrom_append
    (s t : List α) :
    findFrom p (s ++ t) s.length = (firstMatch p t).map (s.length + ·) := by
  rw [findFrom, if_pos (by rw [List.length_append]; omega), List.drop_left]

end Search

section Pass

variable {r : List α}

theorem replaceAll_cons_of_unmatched
    {x : α} {s : List α}
    (h : ¬ p <+: x :: s) :
    replaceAll p r (x :: s) = x :: replaceAll p r s := by
  rw [replaceAll, if_neg h]

theorem replaceAll_append_self
    (hp : p ≠ [])
    (s : List α) :
    replaceAll p r (p ++ s) = r ++ replaceAll p r s := by
  obtain ⟨x, q, rfl⟩ := List.exists_cons_of_ne_nil hp
  have hfront : x :: q <+: x :: (q ++ s) := List.prefix_append (x :: q) s
  rw [List.cons_append, replaceAll, if_pos hfront, List.length_cons, Nat.add_sub_cancel,
    List.drop_left]

theorem replaceAll_of_absent
    {s : List α}
    (h : ¬ p <:+: s) :
    replaceAll p r s = s := by
  induction s with
  | nil =>
      rw [replaceAll]
  | cons x s ih =>
      rw [List.infix_cons_iff, not_or] at h
      rw [replaceAll_cons_of_unmatched h.1, ih h.2]

/-- Up to the first occurrence nothing changes. -/
theorem replaceAll_append
    (hp : p ≠ [])
    {t : List α}
    (h : ¬ p <:+: t ++ p.dropLast)
    (u : List α) :
    replaceAll p r (t ++ p ++ u) = t ++ (r ++ replaceAll p r u) := by
  induction t with
  | nil =>
      exact replaceAll_append_self hp u
  | cons x t ih =>
      rw [List.cons_append, List.infix_cons_iff, not_or] at h
      obtain ⟨hfront, hrest⟩ := h
      -- An occurrence here would end in front of the last element of the one that is found.
      have hnone : ¬ p <+: x :: (t ++ p ++ u) := by
        intro hin
        apply hfront
        refine List.prefix_of_prefix_length_le hin ?_ ?_
        · rw [List.append_assoc, List.cons_prefix_cons, List.prefix_append_right_inj]
          exact ⟨rfl, (List.dropLast_prefix p).trans (List.prefix_append p u)⟩
        · rw [List.length_cons, List.length_append, List.length_dropLast]
          omega
      rw [List.cons_append, List.cons_append, replaceAll_cons_of_unmatched hnone, ih hrest,
        List.cons_append]

/-- The pass replaces the leftmost occurrences and leaves the pieces between them. -/
theorem exists_leftmost
    (hp : p ≠ [])
    (s : List α) :
    ∃ pieces, Leftmost p pieces ∧ p.intercalate pieces = s ∧
      ∀ r, replaceAll p r s = r.intercalate pieces := by
  generalize hn : s.length = n
  induction n using Nat.strong_induction_on generalizing s with
  | _ n ih =>
      cases hfirst : firstMatch p s with
      | none =>
          have hnone := not_infix_of_firstMatch_eq_none hfirst
          refine ⟨[s], hnone, List.intercalate_singleton, ?_⟩
          intro r
          rw [replaceAll_of_absent hnone, List.intercalate_singleton]
      | some i =>
          obtain ⟨t, u, rfl, _, hpiece⟩ := eq_append_of_firstMatch hp hfirst
          have hpos := List.length_pos_of_ne_nil hp
          have hshorter : u.length < n := by
            rw [← hn, List.length_append, List.length_append]
            omega
          obtain ⟨pieces, hleft, hjoin, hreplace⟩ := ih u.length hshorter u rfl
          match pieces, hleft with
          | v :: pieces, hleft =>
              refine ⟨t :: v :: pieces, ⟨hpiece, hleft⟩, ?_, ?_⟩
              · rw [List.intercalate_cons_cons, hjoin]
              · intro r
                rw [replaceAll_append hp hpiece, hreplace, List.intercalate_cons_cons,
                  List.append_assoc]

end Pass

section Parts

variable {r : List α} {x : α}

/-- The pass goes over an element that does not occur in the pattern. -/
theorem replaceAll_append_cons
    (hp : p ≠ [])
    (hx : x ∉ p)
    (a b : List α) :
    replaceAll p r (a ++ x :: b) = replaceAll p r a ++ x :: replaceAll p r b := by
  induction a using replaceAll.induct p with
  | case1 =>
      have hnone : ¬ p <+: x :: b := by
        intro hin
        have hnil : p <+: [] := (prefix_append_cons_iff hx [] b).mp hin
        exact hp (List.prefix_nil.mp hnil)
      rw [List.nil_append, replaceAll_cons_of_unmatched hnone, replaceAll, List.nil_append]
  | case2 y a hfront ih =>
      have hwhole : p <+: y :: (a ++ x :: b) := (prefix_append_cons_iff hx (y :: a) b).mpr hfront
      have hlength : p.length - 1 ≤ a.length := by
        have := hfront.length_le
        rw [List.length_cons] at this
        omega
      rw [List.cons_append, replaceAll, if_pos hwhole, List.drop_append_of_le_length hlength, ih,
        replaceAll, if_pos hfront, List.append_assoc]
  | case3 y a hfront ih =>
      have hwhole : ¬ p <+: y :: (a ++ x :: b) := by
        intro hin
        exact hfront ((prefix_append_cons_iff hx (y :: a) b).mp hin)
      rw [List.cons_append, replaceAll_cons_of_unmatched hwhole, ih,
        replaceAll_cons_of_unmatched hfront, List.cons_append]

theorem Separated.replaceAll_append
    (hp : p ≠ [])
    {a b : List α}
    (h : Separated p a b)
    (s : List α) :
    replaceAll p r (a ++ (b ++ s)) = replaceAll p r a ++ replaceAll p r (b ++ s) := by
  rcases h.cases with ⟨a', x, rfl, hx⟩ | ⟨x, b', rfl, hx⟩
  · have hend : replaceAll p r (a' ++ [x]) = replaceAll p r a' ++ [x] := by
      rw [replaceAll_append_cons hp hx, replaceAll]
    rw [hend, List.append_assoc, List.append_assoc, List.singleton_append, List.singleton_append,
      replaceAll_append_cons hp hx]
  · have hbegin : replaceAll p r (x :: (b' ++ s)) = x :: replaceAll p r (b' ++ s) := by
      have h := replaceAll_append_cons (r := r) hp hx [] (b' ++ s)
      rwa [List.nil_append, replaceAll.eq_1, List.nil_append] at h
    rw [List.cons_append, hbegin, replaceAll_append_cons hp hx]

/-- The pass over separated parts, each of which is the pattern or does not contain it. -/
theorem replaceAll_flatten
    (hp : p ≠ [])
    {parts : List (List α)}
    (hborders : parts.IsChain (Separated p))
    (hparts : ∀ t, t ∈ parts → t = p ∨ ¬ p <:+: t) :
    replaceAll p r parts.flatten = (parts.map fun t => if t = p then r else t).flatten := by
  have hone (t : List α) (h : t = p ∨ ¬ p <:+: t) :
      replaceAll p r t = if t = p then r else t := by
    split
    · rename_i heq
      have h := replaceAll_append_self (r := r) hp []
      rw [List.append_nil, replaceAll.eq_1, List.append_nil] at h
      rw [heq, h]
    · rename_i hne
      exact replaceAll_of_absent (h.resolve_left hne)
  induction parts with
  | nil =>
      rw [List.flatten_nil, replaceAll]
      rfl
  | cons t parts ih =>
      rw [List.map_cons, List.flatten_cons, List.flatten_cons,
        ← ih hborders.tail fun u hu => hparts u (List.mem_cons_of_mem t hu),
        ← hone t (hparts t List.mem_cons_self)]
      cases parts with
      | nil =>
          rw [List.flatten_nil, List.append_nil, replaceAll.eq_1, List.append_nil]
      | cons u parts =>
          have hborder := (List.isChain_cons_cons.mp hborders).1
          exact hborder.replaceAll_append hp parts.flatten

end Parts

end TextReplacement

end Foundations
