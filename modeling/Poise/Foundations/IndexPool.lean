import Mathlib.Tactic
import Mathlib.Data.List.Perm.Basic
import Mathlib.Data.List.Nodup

/-!
# Foundations: indexes handed out from a pool

The indexes of a pool are free, held by somebody who is about to place or to
return them, or in use.  An operation moves an index from one place to another,
so the three lists together stay a permutation of all indexes.  Distinctness and
disjointness follow from that once and for all, and no index is lost exactly
when nothing is held.
-/

namespace Foundations

universe u

section IndexPool

variable {α : Type u}

/-- Every index is in exactly one of the three places. -/
def Accounted (all free held used : List α) : Prop :=
  (free ++ (held ++ used)).Perm all

variable {all free held used : List α} {i : α}

/-- Take the last free index. -/
theorem Accounted.take
    (h : Accounted all (free ++ [i]) held used) :
    Accounted all free (i :: held) used := by
  have hmove : (free ++ (i :: held ++ used)).Perm (free ++ [i] ++ (held ++ used)) := by
    simp
  exact hmove.trans h

/-- Place a held index behind the ones in use. -/
theorem Accounted.place
    (h : Accounted all free (i :: held) used) :
    Accounted all free held (used ++ [i]) := by
  have hmove : (held ++ (used ++ [i])).Perm (i :: held ++ used) := by
    rw [← List.append_assoc]
    exact List.perm_append_singleton i (held ++ used)
  exact (hmove.append_left free).trans h

/-- Withdraw an index that is in use. -/
theorem Accounted.withdraw
    {xs ys : List α}
    (h : Accounted all free held (xs ++ i :: ys)) :
    Accounted all free (i :: held) (xs ++ ys) := by
  have hmove : (i :: held ++ (xs ++ ys)).Perm (held ++ (xs ++ i :: ys)) := by
    have hfront : (xs ++ i :: ys).Perm (i :: (xs ++ ys)) := List.perm_middle
    have hback : (held ++ i :: (xs ++ ys)).Perm (i :: (held ++ (xs ++ ys))) := List.perm_middle
    exact hback.symm.trans (hfront.symm.append_left held)
  exact (hmove.append_left free).trans h

/-- Return a held index to the end of the free ones. -/
theorem Accounted.giveBack
    (h : Accounted all free (i :: held) used) :
    Accounted all (free ++ [i]) held used := by
  have hmove : (free ++ [i] ++ (held ++ used)).Perm (free ++ (i :: held ++ used)) := by
    simp
  exact hmove.trans h

/-- The order of the held indexes does not matter. -/
theorem Accounted.held_perm
    {held' : List α}
    (h : Accounted all free held used)
    (hperm : held'.Perm held) :
    Accounted all free held' used :=
  ((hperm.append_right used).append_left free).trans h

/-- No index occurs twice, neither in one place nor in two. -/
theorem Accounted.nodup
    (h : Accounted all free held used)
    (hall : all.Nodup) :
    free.Nodup ∧ held.Nodup ∧ used.Nodup ∧
      (∀ j, j ∈ free → j ∉ held ∧ j ∉ used) ∧ (∀ j, j ∈ held → j ∉ used) := by
  have hnodup := (List.Perm.nodup_iff h).mpr hall
  rw [List.nodup_append] at hnodup
  obtain ⟨hfree, hrest, hdisj⟩ := hnodup
  rw [List.nodup_append] at hrest
  obtain ⟨hheld, hused, hdisj'⟩ := hrest
  refine ⟨hfree, hheld, hused, ?_, ?_⟩
  · intro j hj
    constructor
    · intro hmem
      exact hdisj j hj j (List.mem_append_left _ hmem) rfl
    · intro hmem
      exact hdisj j hj j (List.mem_append_right _ hmem) rfl
  · intro j hj hmem
    exact hdisj' j hj j hmem rfl

/-- Every index in one of the places is an index of the pool. -/
theorem Accounted.mem_all
    (h : Accounted all free held used)
    {j : α}
    (hj : j ∈ free ∨ j ∈ held ∨ j ∈ used) :
    j ∈ all := by
  rw [← List.Perm.mem_iff h, List.mem_append, List.mem_append]
  exact hj

/-- Nothing is lost exactly when nothing is held. -/
theorem Accounted.complete_iff
    (h : Accounted all free held used)
    (hall : all.Nodup) :
    (∀ j, j ∈ all → j ∈ free ∨ j ∈ used) ↔ held = [] := by
  obtain ⟨_, _, _, hfree, hheld⟩ := h.nodup hall
  constructor
  · intro hcomplete
    rw [List.eq_nil_iff_forall_not_mem]
    intro j hj
    rcases hcomplete j (h.mem_all (Or.inr (Or.inl hj))) with hmem | hmem
    · exact (hfree j hmem).1 hj
    · exact hheld j hj hmem
  · intro hnil j hj
    rw [← List.Perm.mem_iff h, hnil] at hj
    simpa using hj

end IndexPool

end Foundations
