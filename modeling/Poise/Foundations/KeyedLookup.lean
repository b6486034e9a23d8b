import Mathlib.Tactic
import Mathlib.Data.List.Forall2

/-!
# Foundations: lookups by a unique key

A generator emits several lists from one list of sources and marks everything
it emits with the key of its source.  When the keys are distinct, a lookup by
key finds what was emitted for that source and nothing else.
-/

namespace Foundations

universe u v w

section KeyedLookup

variable {α : Type u}
variable {β : Type v}
variable {κ : Type w} [DecidableEq κ]

/-- Among everything emitted, the elements with the key of a source are its own. -/
theorem filter_flatMap_key
    {l : List α} {f : α → List β} {tag : β → κ} {key : α → κ}
    (hnodup : (l.map key).Nodup)
    (htag : ∀ a, a ∈ l → ∀ b, b ∈ f a → tag b = key a)
    {a : α}
    (ha : a ∈ l) :
    (l.flatMap f).filter (fun b => tag b == key a) = f a := by
  induction l with
  | nil =>
      simp at ha
  | cons c l ih =>
      rw [List.map_cons, List.nodup_cons] at hnodup
      obtain ⟨hfresh, hnodup⟩ := hnodup
      have htail : ∀ d, d ∈ l → ∀ b, b ∈ f d → tag b = key d :=
        fun d hd => htag d (List.mem_cons_of_mem _ hd)
      rw [List.flatMap_cons, List.filter_append]
      rcases List.mem_cons.mp ha with rfl | ha
      · have hown : (f a).filter (fun b => tag b == key a) = f a := by
          rw [List.filter_eq_self]
          intro b hb
          simp [htag a (by simp) b hb]
        have hothers : (l.flatMap f).filter (fun b => tag b == key a) = [] := by
          rw [List.filter_eq_nil_iff]
          intro b hb
          obtain ⟨d, hd, hbd⟩ := List.mem_flatMap.mp hb
          have hne : key d ≠ key a := by
            intro heq
            exact hfresh (heq ▸ List.mem_map_of_mem hd)
          simp [htail d hd b hbd, hne]
        rw [hown, hothers, List.append_nil]
      · have hnone : (f c).filter (fun b => tag b == key a) = [] := by
          rw [List.filter_eq_nil_iff]
          intro b hb
          have hne : key c ≠ key a := by
            intro heq
            exact hfresh (heq ▸ List.mem_map_of_mem ha)
          simp [htag c (by simp) b hb, hne]
        rw [hnone, List.nil_append, ih hnodup htail ha]

/-- In a list emitted one for one, a lookup by the key of a source finds its own image. -/
theorem find?_forall₂_key
    {l : List α} {out : List β} {tag : β → κ} {key : α → κ} {R : α → β → Prop}
    (hrel : List.Forall₂ R l out)
    (htag : ∀ a b, R a b → tag b = key a)
    (hnodup : (l.map key).Nodup)
    {a : α}
    (ha : a ∈ l) :
    ∃ b, R a b ∧ out.find? (fun b => tag b == key a) = some b := by
  induction hrel with
  | nil =>
      simp at ha
  | @cons c d l out hcd _ ih =>
      rw [List.map_cons, List.nodup_cons] at hnodup
      obtain ⟨hfresh, hnodup⟩ := hnodup
      rcases List.mem_cons.mp ha with rfl | ha
      · exact ⟨d, hcd, by simp [htag a d hcd]⟩
      · obtain ⟨b, hb, hfind⟩ := ih hnodup ha
        have hne : key c ≠ key a := by
          intro heq
          exact hfresh (heq ▸ List.mem_map_of_mem ha)
        refine ⟨b, hb, ?_⟩
        rw [List.find?_cons_of_neg (by simp [htag c d hcd, hne])]
        exact hfind

end KeyedLookup

end Foundations
