import Mathlib.Tactic
import Mathlib.Data.List.Basic

/-!
# Foundations: consecutive runs of equal keys

A generator walks over a list and opens a new branch of an if/else-if chain
whenever the key of the current element differs from the key of the branch
that is open.  When the keys never decrease, each key owns one branch, the
branch holds exactly the elements with that key in their order, and visiting
the keys in order visits every element exactly once.
-/

namespace Foundations

universe u

section ConsecutiveRuns

variable {α : Type u}
variable (key : α → Nat)

/-- Branches opened while walking over a list, with the open branch carried along. -/
def runsFrom : Nat → List α → List α → List (Nat × List α)
  | cur, acc, [] => [(cur, acc)]
  | cur, acc, a :: l =>
      if key a ≠ cur then
        (cur, acc) :: runsFrom (key a) [a] l
      else
        runsFrom cur (acc ++ [a]) l

/-- The branch an if/else-if chain takes for the value `k`: the first one that tests for it. -/
def chainSelect (k : Nat) : List (Nat × List α) → List α
  | [] => []
  | (j, body) :: rest =>
      if k = j then body else chainSelect k rest

variable {key}

/-- Elements below the smallest key of a sorted list are absent. -/
theorem filter_key_eq_nil
    {l : List α} {k : Nat}
    (h : ∀ a, a ∈ l → k < key a) :
    l.filter (fun a => decide (key a = k)) = [] := by
  rw [List.filter_eq_nil_iff]
  intro a ha
  have := h a ha
  simp only [decide_eq_true_eq]
  omega

/-- The branch of each key holds the elements with that key, in order. -/
theorem chainSelect_runsFrom
    {cur : Nat} {acc l : List α}
    (hsorted : l.Pairwise (fun a b => key a ≤ key b))
    (hcur : ∀ a, a ∈ l → cur ≤ key a)
    (k : Nat) :
    chainSelect k (runsFrom key cur acc l) =
      (if k = cur then acc else []) ++
        l.filter (fun a => decide (key a = k)) := by
  induction l generalizing cur acc with
  | nil =>
      simp [runsFrom, chainSelect]
  | cons a l ih =>
      obtain ⟨ha, hrest⟩ := List.pairwise_cons.mp hsorted
      by_cases heq : key a = cur
      · have htail : ∀ b, b ∈ l → cur ≤ key b := by
          intro b hb
          exact hcur b (List.mem_cons_of_mem _ hb)
        have hwalk :
            runsFrom key cur acc (a :: l) = runsFrom key cur (acc ++ [a]) l := by
          simp [runsFrom, heq]
        rw [hwalk, ih hrest htail]
        by_cases hk : k = cur
        · subst hk
          simp [heq]
        · have hne : ¬ key a = k := by omega
          simp [hk, hne]
      · have hlt : cur < key a := by
          have := hcur a (by simp)
          omega
        have hwalk :
            runsFrom key cur acc (a :: l) =
              (cur, acc) :: runsFrom key (key a) [a] l := by
          simp [runsFrom, heq]
        rw [hwalk, chainSelect]
        by_cases hk : k = cur
        · subst hk
          have hnone :
              (a :: l).filter (fun b => decide (key b = k)) = [] := by
            apply filter_key_eq_nil
            intro b hb
            rcases List.mem_cons.mp hb with rfl | hb
            · exact hlt
            · exact lt_of_lt_of_le hlt (ha b hb)
          simp [hnone]
        · rw [if_neg hk, if_neg hk, ih hrest ha]
          by_cases hka : k = key a
          · simp [hka]
          · have hne : ¬ key a = k := fun h => hka h.symm
            simp [hka, hne]

/-- In a sorted list the elements of the next key follow those of the smaller keys. -/
theorem filter_le_eq_append
    {l : List α}
    (hsorted : l.Pairwise (fun a b => key a ≤ key b))
    (n : Nat) :
    l.filter (fun a => decide (key a ≤ n)) =
      l.filter (fun a => decide (key a < n)) ++
        l.filter (fun a => decide (key a = n)) := by
  induction l with
  | nil =>
      rfl
  | cons a l ih =>
      obtain ⟨ha, hrest⟩ := List.pairwise_cons.mp hsorted
      have htail := ih hrest
      rcases Nat.lt_trichotomy (key a) n with hlt | heq | hgt
      · have hle : key a ≤ n := by omega
        have hne : ¬ key a = n := by omega
        simp [hlt, hle, hne, htail]
      · have hnone : l.filter (fun b => decide (key b < n)) = [] := by
          rw [List.filter_eq_nil_iff]
          intro b hb
          have := ha b hb
          simp only [decide_eq_true_eq]
          omega
        rw [hnone, List.nil_append] at htail
        simp [heq, htail, hnone]
      · have hle : ¬ key a ≤ n := by omega
        have hlt : ¬ key a < n := by omega
        have hne : ¬ key a = n := by omega
        simp [hle, hlt, hne, htail]

/-- Visiting the keys below `n` in order visits the elements below `n` in order. -/
theorem flatMap_filter_range
    {l : List α}
    (hsorted : l.Pairwise (fun a b => key a ≤ key b))
    (n : Nat) :
    (List.range n).flatMap (fun k => l.filter (fun a => decide (key a = k))) =
      l.filter (fun a => decide (key a < n)) := by
  induction n with
  | zero =>
      simp
  | succ n ih =>
      rw [List.range_succ, List.flatMap_append, ih]
      simp only [Nat.lt_succ_iff]
      rw [filter_le_eq_append hsorted]
      simp

end ConsecutiveRuns

end Foundations
