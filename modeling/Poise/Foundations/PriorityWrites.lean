import Mathlib.Tactic
import Mathlib.Data.List.Sort
import Mathlib.Order.Lattice

/-!
# Foundations: prioritised writes to one variable

Several guarded writers share one variable and the last write wins.  When the
writers run in the order of the values they write, the variable ends with the
largest value written, whatever the order between equal values was.

The sort that fixes the running order need not be stable: a structure carries
the only two facts such a sort promises.
-/

namespace Foundations

universe u v

section PriorityWrites

variable {α : Type u}
variable {β : Type v}

/-- The value of a variable after a list of writes, starting from `d`. -/
def lastWrite (d : β) (ws : List β) : β :=
  ws.foldl (fun _ w => w) d

@[simp] theorem lastWrite_nil
    (d : β) :
    lastWrite d [] = d := by
  rfl

@[simp] theorem lastWrite_cons
    (d w : β)
    (ws : List β) :
    lastWrite d (w :: ws) = lastWrite w ws := by
  rfl

/-- Writing in two rounds carries the variable from the first to the second. -/
@[simp] theorem lastWrite_append
    (d : β)
    (xs ys : List β) :
    lastWrite d (xs ++ ys) = lastWrite (lastWrite d xs) ys := by
  simp [lastWrite]

/-- Writing round after round carries the variable through all rounds. -/
theorem lastWrite_flatMap
    (d : β)
    (rounds : List α)
    (f : α → List β) :
    lastWrite d (rounds.flatMap f) =
      rounds.foldl (fun e r => lastWrite e (f r)) d := by
  induction rounds generalizing d with
  | nil =>
      rfl
  | cons r rounds ih =>
      rw [List.flatMap_cons, lastWrite_append, ih]
      rfl

/-- A function of the variable follows the images of the writes. -/
theorem map_lastWrite
    {γ : Type v}
    (g : β → γ)
    (d : β)
    (ws : List β) :
    g (lastWrite d ws) = lastWrite (g d) (ws.map g) := by
  induction ws generalizing d with
  | nil =>
      rfl
  | cons w ws ih =>
      exact ih w

/-- The final value is the start value or one of the values written. -/
theorem lastWrite_eq_or_mem
    (d : β)
    (ws : List β) :
    lastWrite d ws = d ∨ lastWrite d ws ∈ ws := by
  induction ws generalizing d with
  | nil =>
      exact Or.inl rfl
  | cons w ws ih =>
      right
      rcases ih w with h | h
      · rw [lastWrite_cons, h]
        simp
      · exact List.mem_cons_of_mem _ h

/-- A nonempty list of writes leaves one of its own values. -/
theorem lastWrite_mem
    {ws : List β}
    (hne : ws ≠ [])
    (d : β) :
    lastWrite d ws ∈ ws := by
  cases ws with
  | nil =>
      exact absurd rfl hne
  | cons w ws =>
      rcases lastWrite_eq_or_mem w ws with h | h
      · rw [lastWrite_cons, h]
        simp
      · exact List.mem_cons_of_mem _ h

/--
Dropping the earlier writes changes the final value exactly when there were some
and no later write hides them, provided no write repeats the start value.
-/
theorem lastWrite_eq_append_iff
    {d : β} {xs ys : List β}
    (hxs : ∀ x, x ∈ xs → x ≠ d) :
    lastWrite d ys = lastWrite d (xs ++ ys) ↔ ys ≠ [] ∨ xs = [] := by
  rw [lastWrite_append]
  cases ys with
  | cons y ys =>
      simp
  | nil =>
      cases xs with
      | nil =>
          simp
      | cons x xs =>
          have hlast := hxs _ (lastWrite_mem (List.cons_ne_nil x xs) d)
          simpa [eq_comm] using hlast

section Largest

variable [LinearOrder β]

/-- The largest of `d` and the values of a list. -/
def largest (d : β) (ws : List β) : β :=
  ws.foldr max d

theorem le_largest
    (d : β)
    {ws : List β} {w : β}
    (hw : w ∈ ws) :
    w ≤ largest d ws := by
  induction ws with
  | nil =>
      simp at hw
  | cons a ws ih =>
      rcases List.mem_cons.mp hw with rfl | hw
      · exact le_max_left _ _
      · exact le_trans (ih hw) (le_max_right _ _)

theorem start_le_largest
    (d : β)
    (ws : List β) :
    d ≤ largest d ws := by
  induction ws with
  | nil =>
      exact le_refl d
  | cons a ws ih =>
      exact le_trans ih (le_max_right _ _)

theorem largest_le
    {d b : β} {ws : List β}
    (hd : d ≤ b)
    (hws : ∀ w, w ∈ ws → w ≤ b) :
    largest d ws ≤ b := by
  induction ws with
  | nil =>
      exact hd
  | cons a ws ih =>
      apply max_le
      · exact hws a (by simp)
      · exact ih (fun w hw => hws w (List.mem_cons_of_mem _ hw))

/-- The largest value is the start value or one of the list. -/
theorem largest_eq_or_mem
    (d : β)
    (ws : List β) :
    largest d ws = d ∨ largest d ws ∈ ws := by
  induction ws with
  | nil =>
      exact Or.inl rfl
  | cons w ws ih =>
      rcases max_choice w (largest d ws) with hmax | hmax
      · right
        change max w (largest d ws) ∈ w :: ws
        rw [hmax]
        simp
      · change max w (largest d ws) = d ∨ max w (largest d ws) ∈ w :: ws
        rw [hmax]
        rcases ih with h | h
        · exact Or.inl h
        · exact Or.inr (List.mem_cons_of_mem _ h)

/-- A bound above the start value is reached exactly when it is one of the values. -/
theorem largest_eq_iff_mem
    {d b : β} {ws : List β}
    (hd : d < b)
    (hws : ∀ w, w ∈ ws → w ≤ b) :
    largest d ws = b ↔ b ∈ ws := by
  constructor
  · intro h
    rcases largest_eq_or_mem d ws with hstart | hmem
    · rw [hstart] at h
      exact absurd h (ne_of_lt hd)
    · rwa [h] at hmem
  · intro hmem
    exact le_antisymm (largest_le (le_of_lt hd) hws) (le_largest d hmem)

/-- Only the set of values matters to the largest of them. -/
theorem largest_congr
    (d : β)
    {xs ys : List β}
    (h : ∀ w, w ∈ xs ↔ w ∈ ys) :
    largest d xs = largest d ys := by
  apply le_antisymm
  · exact largest_le (start_le_largest d ys) (fun w hw => le_largest d ((h w).mp hw))
  · exact largest_le (start_le_largest d xs) (fun w hw => le_largest d ((h w).mpr hw))

/-- Writes in non-decreasing order leave the largest value. -/
theorem lastWrite_eq_largest
    {d : β} {ws : List β}
    (hsorted : ws.Pairwise (· ≤ ·))
    (hd : ∀ w, w ∈ ws → d ≤ w) :
    lastWrite d ws = largest d ws := by
  apply le_antisymm
  · rcases lastWrite_eq_or_mem d ws with h | h
    · rw [h]
      exact start_le_largest d ws
    · exact le_largest d h
  · induction ws generalizing d with
    | nil =>
        exact le_refl d
    | cons w ws ih =>
        obtain ⟨hw, hrest⟩ := List.pairwise_cons.mp hsorted
        have hstep := ih hrest hw
        rw [lastWrite_cons]
        apply largest_le
        · exact le_trans (hd w (by simp)) (le_trans (start_le_largest w ws) hstep)
        · intro x hx
          rcases List.mem_cons.mp hx with rfl | hx
          · exact le_trans (start_le_largest x ws) hstep
          · exact le_trans (le_largest w hx) hstep

/--
Guarded writers sorted by the value they write leave the largest value among
the writers whose guard holds.
-/
theorem lastWrite_filter_eq_largest
    {fire : α → Bool} {val : α → β}
    {d : β} {l : List α}
    (hsorted : l.Pairwise (fun a b => val a ≤ val b))
    (hd : ∀ a, a ∈ l → d ≤ val a) :
    lastWrite d ((l.filter fire).map val) =
      largest d ((l.filter fire).map val) := by
  apply lastWrite_eq_largest
  · rw [List.pairwise_map]
    exact hsorted.filter fire
  · intro w hw
    obtain ⟨a, ha, rfl⟩ := List.mem_map.mp hw
    exact hd a (List.mem_of_mem_filter ha)

end Largest

/-- A sort by a key that promises an ordered permutation and nothing more. -/
structure UnstableSort (α : Type u) (key : α → Nat) where
  sort : List α → List α
  perm : ∀ l, (sort l).Perm l
  sorted : ∀ l, (sort l).Pairwise (fun a b => key a ≤ key b)

/-- Insertion sort is one such sort. -/
def UnstableSort.insertion
    (key : α → Nat) :
    UnstableSort α key where
  sort := List.insertionSort (fun a b => key a ≤ key b)
  perm := List.perm_insertionSort _
  sorted := by
    intro l
    have : Std.Total (fun a b : α => key a ≤ key b) :=
      ⟨fun a b => Nat.le_total (key a) (key b)⟩
    have : IsTrans α (fun a b : α => key a ≤ key b) :=
      ⟨fun _ _ _ => Nat.le_trans⟩
    exact List.pairwise_insertionSort _ l

end PriorityWrites

end Foundations
