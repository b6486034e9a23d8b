import Mathlib.Tactic
import Mathlib.Data.List.MinMax
import Mathlib.Data.List.TakeWhile
import Mathlib.Data.List.Find

/-!
# Foundations: scanning by longest match

A scanner tries a list of rules on the rest of the text, takes the longest match
and among equally long ones the first rule, and goes on behind it.  A match may
give a token or nothing.
-/

namespace Foundations

section LongestMatch

variable {α ρ τ : Type}

/-- The tokens of a text; the number counts the characters of the last match still to skip. -/
def scan (next : List α → Nat × Option τ) : Nat → List α → List τ
  | _, [] => []
  | k + 1, _ :: cs => scan next k cs
  | 0, c :: cs =>
      (next (c :: cs)).2.toList ++ scan next ((next (c :: cs)).1 - 1) cs

/-- The characters of a match are skipped. -/
theorem scan_length_append
    (next : List α → Nat × Option τ)
    (u rest : List α) :
    scan next u.length (u ++ rest) = scan next 0 rest := by
  induction u with
  | nil =>
      rfl
  | cons c u ih =>
      exact ih

/-- A match gives its token, and the scan goes on behind it. -/
theorem scan_of_next
    {next : List α → Nat × Option τ} {u rest : List α} {t : Option τ}
    (hu : u ≠ [])
    (h : next (u ++ rest) = (u.length, t)) :
    scan next 0 (u ++ rest) = t.toList ++ scan next 0 rest := by
  cases u with
  | nil =>
      exact absurd rfl hu
  | cons c u =>
      rw [List.cons_append] at h ⊢
      rw [scan, h, List.length_cons, Nat.add_sub_cancel, scan_length_append]

/-- What holds of every token a match can give holds of all tokens of a text. -/
theorem forall_mem_scan
    {next : List α → Nat × Option τ} {P : τ → Prop}
    (h : ∀ text t, text ≠ [] → (next text).2 = some t → P t)
    (k : Nat)
    (text : List α) :
    ∀ t ∈ scan next k text, P t := by
  induction text generalizing k with
  | nil =>
      intro t ht
      cases k <;> cases ht
  | cons c cs ih =>
      intro t ht
      cases k with
      | zero =>
          rw [scan, List.mem_append, Option.mem_toList] at ht
          rcases ht with ht | ht
          · exact h _ t (List.cons_ne_nil c cs) ht
          · exact ih _ t ht
      | succ k =>
          exact ih k t ht

/-- The first rule with the longest match is the first one that reaches its length. -/
theorem argmax_eq_find?
    [DecidableEq ρ]
    {f : ρ → Nat} {p : ρ → Bool} {l : List ρ} {n : Nat} {r : ρ}
    (hle : ∀ a ∈ l, f a ≤ n)
    (hp : ∀ a ∈ l, p a = true ↔ f a = n)
    (hr : l.find? p = some r) :
    l.argmax f = some r ∧ f r = n := by
  obtain ⟨hpr, before, after, rfl, hbefore⟩ := List.find?_eq_some_iff_append.mp hr
  have hmem : r ∈ before ++ r :: after := by
    simp
  have hfr : f r = n := (hp r hmem).mp hpr
  refine ⟨List.argmax_eq_some_iff.mpr ⟨hmem, ?_, ?_⟩, hfr⟩
  · intro a ha
    rw [hfr]
    exact hle a ha
  · intro a ha hfa
    have hpa : p a = true := by
      rw [hp a ha]
      exact le_antisymm (hle a ha) (hfr ▸ hfa)
    have hnot : a ∉ before := by
      intro hab
      have := hbefore a hab
      simp [hpa] at this
    have hrnot : r ∉ before := by
      intro hrb
      have := hbefore r hrb
      simp [hpr] at this
    rw [List.idxOf_append_of_notMem hnot, List.idxOf_append_of_notMem hrnot,
      List.idxOf_cons_self]
    exact Nat.add_le_add_left (Nat.zero_le _) _

/-- The longest run of a class of characters ends where another character follows. -/
theorem takeWhile_append_stop
    {p : α → Bool} {w rest : List α}
    (hw : ∀ c ∈ w, p c = true)
    (hrest : ∀ c ∈ rest.head?, p c = false) :
    (w ++ rest).takeWhile p = w := by
  rw [List.takeWhile_append_of_pos hw]
  cases rest with
  | nil =>
      simp
  | cons c rest =>
      simp [hrest c (by simp)]

/-- A word of a class that begins a text lies within its longest run of the class. -/
theorem class_word_within
    {p : α → Bool} {k w rest : List α}
    (hk : ∀ c ∈ k, p c = true)
    (hrest : ∀ c ∈ rest.head?, p c = false)
    (h : k <+: w ++ rest) :
    k <+: w := by
  rcases List.prefix_or_prefix_of_prefix h (List.prefix_append w rest) with hkw | ⟨x, rfl⟩
  · exact hkw
  · rw [List.prefix_append_right_inj] at h
    cases x with
    | nil =>
        rw [List.append_nil]
    | cons c x =>
        obtain ⟨y, rfl⟩ := h
        have hc := hk c (by simp)
        rw [hrest c (by simp)] at hc
        cases hc

end LongestMatch

end Foundations
