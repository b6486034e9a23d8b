import Mathlib.Tactic

/-!
# Next fit

Items with sizes are put into bins of one capacity, in order.  An item goes into
the current bin behind the last one, or opens the next bin when it does not fit.

Next fit never overlaps items, skips no bin, and keeps the order.  Among all
ways of cutting the sequence of items into consecutive groups that fit into a
bin each, none uses fewer bins: next fit is never ahead of another way of
cutting, neither in the bin nor in the space used in it.
-/

namespace Foundations

universe u

section NextFit

variable {α : Type u}
variable (size : α → Nat) (cap : Nat)

/-- An item with its bin and its offset there. -/
structure Placed (α : Type u) where
  item : α
  bin : Nat
  start : Nat

/-- Bin and offset of the next item, when the current bin is filled up to `used`. -/
def nextSlot (bin used s : Nat) : Nat × Nat :=
  if used + s > cap then (bin + 1, 0) else (bin, used)

/-- Next fit from a partly filled bin. -/
def nextFit : Nat → Nat → List α → List (Placed α)
  | _, _, [] => []
  | bin, used, x :: xs =>
      let slot := nextSlot cap bin used (size x)
      { item := x, bin := slot.1, start := slot.2 } ::
        nextFit slot.1 (slot.2 + size x) xs

/-- The bin next fit ends in. -/
def lastBin : Nat → Nat → List α → Nat
  | bin, _, [] => bin
  | bin, used, x :: xs =>
      let slot := nextSlot cap bin used (size x)
      lastBin slot.1 (slot.2 + size x) xs

/-- A position in a bin that is not ahead of another one. -/
def NotAhead (bin used bin' used' : Nat) : Prop :=
  bin < bin' ∨ (bin = bin' ∧ used ≤ used')

theorem NotAhead.trans
    {b₁ u₁ b₂ u₂ b₃ u₃ : Nat}
    (h : NotAhead b₁ u₁ b₂ u₂)
    (h' : NotAhead b₂ u₂ b₃ u₃) :
    NotAhead b₁ u₁ b₃ u₃ := by
  unfold NotAhead at *
  omega

/-- The slot of an item is the current position or the start of the next bin. -/
theorem nextSlot_cases
    (bin used s : Nat) :
    (used + s ≤ cap ∧ nextSlot cap bin used s = (bin, used)) ∨
      (cap < used + s ∧ nextSlot cap bin used s = (bin + 1, 0)) := by
  rw [nextSlot]
  split
  · exact Or.inr ⟨by omega, rfl⟩
  · exact Or.inl ⟨by omega, rfl⟩

/-- Positions only move forward. -/
theorem notAhead_nextSlot
    (bin used s : Nat) :
    NotAhead bin used (nextSlot cap bin used s).1 (nextSlot cap bin used s).2 := by
  rcases nextSlot_cases cap bin used s with ⟨_, h⟩ | ⟨_, h⟩
  · rw [h]
    exact Or.inr ⟨rfl, Nat.le_refl _⟩
  · rw [h]
    exact Or.inl (Nat.lt_succ_self _)

variable {cap}

/-- No item is in front of the position next fit starts from. -/
theorem notAhead_of_mem_nextFit
    {xs : List α} {bin used : Nat} {p : Placed α}
    (hp : p ∈ nextFit size cap bin used xs) :
    NotAhead bin used p.bin p.start := by
  induction xs generalizing bin used with
  | nil =>
      cases hp
  | cons x xs ih =>
      have hslot := notAhead_nextSlot cap bin used (size x)
      rcases List.mem_cons.mp hp with rfl | hp
      · exact hslot
      · have hrest := ih hp
        refine hslot.trans ?_
        unfold NotAhead at hrest ⊢
        omega

/-- Every item lies within its bin. -/
theorem nextFit_fits
    {xs : List α} {bin used : Nat}
    (hsize : ∀ x, x ∈ xs → size x ≤ cap) :
    ∀ p, p ∈ nextFit size cap bin used xs → p.start + size p.item ≤ cap := by
  induction xs generalizing bin used with
  | nil =>
      intro p hp
      cases hp
  | cons x xs ih =>
      intro p hp
      rcases List.mem_cons.mp hp with rfl | hp
      · have hx := hsize x List.mem_cons_self
        rcases nextSlot_cases cap bin used (size x) with ⟨hle, h⟩ | ⟨_, h⟩
        · simp only [h]
          exact hle
        · simp only [h]
          omega
      · exact ih (fun y hy => hsize y (List.mem_cons_of_mem _ hy)) p hp

/-- An item ends where a later item of its bin starts, or in front of it. -/
theorem nextFit_pairwise
    (xs : List α)
    (bin used : Nat) :
    (nextFit size cap bin used xs).Pairwise
      (fun p q => NotAhead p.bin (p.start + size p.item) q.bin q.start) := by
  induction xs generalizing bin used with
  | nil =>
      exact List.Pairwise.nil
  | cons x xs ih =>
      refine List.pairwise_cons.mpr ⟨?_, ih _ _⟩
      intro q hq
      exact notAhead_of_mem_nextFit size hq

/-- No bin is skipped. -/
theorem exists_bin_of_mem_nextFit
    {xs : List α} {bin used : Nat} {p : Placed α}
    (hp : p ∈ nextFit size cap bin used xs)
    {r : Nat}
    (hlo : bin < r)
    (hhi : r ≤ p.bin) :
    ∃ q, q ∈ nextFit size cap bin used xs ∧ q.bin = r := by
  induction xs generalizing bin used with
  | nil =>
      cases hp
  | cons x xs ih =>
      -- the first item is in the current bin or in the next one
      have hfirst : (nextSlot cap bin used (size x)).1 ≤ r := by
        rcases nextSlot_cases cap bin used (size x) with ⟨_, h⟩ | ⟨_, h⟩
        · rw [h]
          omega
        · rw [h]
          omega
      rcases Nat.lt_or_eq_of_le hfirst with hlt | heq
      · rcases List.mem_cons.mp hp with rfl | hp
        · exact absurd hhi (by simpa using hlt)
        · obtain ⟨q, hq, hbin⟩ := ih hp hlt
          exact ⟨q, List.mem_cons_of_mem _ hq, hbin⟩
      · exact ⟨_, List.mem_cons_self, heq⟩

/-- From an empty bin, and with items that fit, that bin is not skipped either. -/
theorem exists_bin_of_mem_nextFit_zero
    {xs : List α} {bin : Nat} {p : Placed α}
    (hsize : ∀ x, x ∈ xs → size x ≤ cap)
    (hp : p ∈ nextFit size cap bin 0 xs)
    {r : Nat}
    (hlo : bin ≤ r)
    (hhi : r ≤ p.bin) :
    ∃ q, q ∈ nextFit size cap bin 0 xs ∧ q.bin = r := by
  rcases Nat.lt_or_eq_of_le hlo with hlt | rfl
  · exact exists_bin_of_mem_nextFit size hp hlt hhi
  · cases xs with
    | nil =>
        cases hp
    | cons x xs =>
        refine ⟨_, List.mem_cons_self, ?_⟩
        have hx := hsize x List.mem_cons_self
        rcases nextSlot_cases cap bin 0 (size x) with ⟨_, h⟩ | ⟨hgt, _⟩
        · rw [h]
        · omega

/-- No item is in a bin behind the last one. -/
theorem bin_le_lastBin
    (xs : List α)
    (bin used : Nat) :
    bin ≤ lastBin size cap bin used xs ∧
      ∀ p, p ∈ nextFit size cap bin used xs → p.bin ≤ lastBin size cap bin used xs := by
  induction xs generalizing bin used with
  | nil =>
      exact ⟨Nat.le_refl _, by simp [nextFit]⟩
  | cons x xs ih =>
      have hslot := notAhead_nextSlot cap bin used (size x)
      obtain ⟨hle, hall⟩ := ih (nextSlot cap bin used (size x)).1
        ((nextSlot cap bin used (size x)).2 + size x)
      refine ⟨?_, ?_⟩
      · refine Nat.le_trans ?_ hle
        unfold NotAhead at hslot
        omega
      · intro p hp
        rcases List.mem_cons.mp hp with rfl | hp
        · exact hle
        · exact hall p hp

/-- Next fit stays behind when both put an item into the same bin. -/
theorem NotAhead.nextSlot_same
    {bin used bin' used' s : Nat}
    (h : NotAhead bin used bin' used')
    (hfits : used' + s ≤ cap) :
    NotAhead (nextSlot cap bin used s).1 ((nextSlot cap bin used s).2 + s) bin' (used' + s) := by
  unfold NotAhead at h ⊢
  rcases nextSlot_cases cap bin used s with ⟨_, hs⟩ | ⟨_, hs⟩
  · rw [hs]
    omega
  · rw [hs]
    omega

/-- Next fit stays behind over a whole group that fits. -/
theorem NotAhead.lastBin_group
    (g rest : List α)
    {bin used bin' used' : Nat}
    (h : NotAhead bin used bin' used')
    (hg : used' + (g.map size).sum ≤ cap) :
    ∃ b u,
      lastBin size cap bin used (g ++ rest) = lastBin size cap b u rest ∧
        NotAhead b u bin' (used' + (g.map size).sum) := by
  induction g generalizing bin used used' with
  | nil =>
      exact ⟨bin, used, rfl, h⟩
  | cons x g ih =>
      rw [List.map_cons, List.sum_cons] at hg ⊢
      rw [← Nat.add_assoc] at hg ⊢
      exact ih (h.nextSlot_same (by omega)) hg

/-- Over further groups it gains at most one bin for each. -/
theorem NotAhead.lastBin_groups
    (gs : List (List α))
    {bin used bin' used' : Nat}
    (h : NotAhead bin used bin' used')
    (hgs : ∀ g, g ∈ gs → (g.map size).sum ≤ cap) :
    lastBin size cap bin used gs.flatten ≤ bin' + gs.length := by
  induction gs generalizing bin used bin' used' with
  | nil =>
      have hbin : bin ≤ bin' := by
        unfold NotAhead at h
        omega
      simpa [lastBin] using hbin
  | cons g gs ih =>
      have hnext : NotAhead bin used (bin' + 1) 0 := by
        unfold NotAhead at h ⊢
        omega
      obtain ⟨b, u, hlast, hbehind⟩ := hnext.lastBin_group size g gs.flatten
        (by simpa using hgs g List.mem_cons_self)
      have hrest := ih hbehind (fun g' hg' => hgs g' (List.mem_cons_of_mem _ hg'))
      rw [List.flatten_cons, hlast, List.length_cons]
      omega

/-- Next fit needs no more bins than any way of cutting the items into groups that fit. -/
theorem lastBin_lt_of_groups
    {groups : List (List α)}
    (hne : groups ≠ [])
    (hfits : ∀ g, g ∈ groups → (g.map size).sum ≤ cap) :
    lastBin size cap 0 0 groups.flatten < groups.length := by
  cases groups with
  | nil =>
      exact absurd rfl hne
  | cons g gs =>
      have hstart : NotAhead 0 0 0 0 := Or.inr ⟨rfl, Nat.le_refl _⟩
      obtain ⟨b, u, hlast, hbehind⟩ := hstart.lastBin_group size g gs.flatten
        (by simpa using hfits g List.mem_cons_self)
      have hrest := hbehind.lastBin_groups size gs
        (fun g' hg' => hfits g' (List.mem_cons_of_mem _ hg'))
      rw [List.flatten_cons, hlast, List.length_cons]
      omega

end NextFit

end Foundations
