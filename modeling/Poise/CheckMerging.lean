import Poise.CheckGeneration
import Poise.Foundations.DecimalText

/-!
# Poise compiler: merging checks

Exact and list checks on one header are merged into one list check when all
checks on the header have the same priority, and monitor checks on one monitor
are folded into the first of them.  Checks that went into a merge are marked
invalid and erased at the end.

The source works on pointers into the vector of checks.  Here a group is named
by the test that selected it, so that marking the group invalid is a map over
the vector.
-/

namespace Poise

open Foundations

section CheckMerging

/-- The library conversion of a text to a 32-bit integer. -/
def stoi (s : String) : Except Failure Int :=
  match readInt s with
  | none => .error .invalidArgument
  | some n =>
      if -2147483648 ≤ n ∧ n ≤ 2147483647 then .ok n else .error .outOfRange

def isMergeable (c : Check) : Bool :=
  c.type == .exact || c.type == .list

/-- The values one exact or list check tests for. -/
def mergeItems (c : Check) : Except Failure (List Int) :=
  if c.type = .exact then do
    let n ← stoi c.predLo
    .ok [n]
  else
    .ok c.list

/-- The values of a whole group, in order. -/
def gatherItems : List Check → Except Failure (List Int)
  | [] => .ok []
  | c :: cs => do
      let xs ← mergeItems c
      let ys ← gatherItems cs
      .ok (xs ++ ys)

/-- Mark the exact and list checks on a header as invalid. -/
def invalidateGroup (h : String) (c : Check) : Check :=
  if c.header = h ∧ isMergeable c = true then { c with type := .invalid } else c

/-- The check a group is merged into; everything but the list comes from the first check. -/
def mergedCheck (first : Check) (items : List Int) : Check :=
  { type := .list
    header := first.header
    ifActionVal := first.ifActionVal
    elseActionVal := first.elseActionVal
    priority := first.ifActionVal
    list := items
    tableSize := items.length
    id := first.id }

/-- Merge the checks on one header; `none` when they cannot be merged. -/
def mergeChecksPerHeader (checkV : List Check) : List Check → Except Failure (Option (List Check))
  | [] => .ok none
  | first :: rest =>
      if (first :: rest).any (fun c => c.priority != first.priority) then
        .ok none
      else if ((first :: rest).filter isMergeable).length ≤ 1 then
        .ok none
      else do
        let items ← gatherItems ((first :: rest).filter isMergeable)
        .ok (some (checkV.map (invalidateGroup first.header) ++ [mergedCheck first items]))

/-- One round of the loop over the headers. -/
def mergeHeader (checkV : List Check) (h : String) : Except Failure (List Check) :=
  let checks := checkV.filter (fun c => c.header == h)
  if checks.length > 1 then do
    match ← mergeChecksPerHeader checkV checks with
    | some merged => .ok merged
    | none => .ok checkV
  else
    .ok checkV

def mergeHeaders : List String → List Check → Except Failure (List Check)
  | [], checkV => .ok checkV
  | h :: hs, checkV => do
      let checkV ← mergeHeader checkV h
      mergeHeaders hs checkV

def removeInvalidChecks (checkV : List Check) : List Check :=
  checkV.filter (fun c => c.type != .invalid)

def mergeSameHeaders (headerV : List String) (checkV : List Check) :
    Except Failure (List Check) := do
  let checkV ← mergeHeaders headerV checkV
  .ok (removeInvalidChecks checkV)

/-- Add the extra conditions of a later check on the same monitor to the first one. -/
def absorbMonitor (first c : Check) : Check :=
  c.extraHeader.foldl
    (fun f h => { f with
      extraHeader := f.extraHeader ++ [h]
      hToVal := mapInsert f.hToVal h (mapGet c.hToVal h) })
    first

/-- Monitor checks on the monitor with the given name. -/
def isOnMonitor (mvar : String) (c : Check) : Bool :=
  c.type == .monitor && c.monName == mvar

/-- Replace the first check of a group and mark the others invalid. -/
def foldIntoFirst (mvar : String) (merged : Check) : List Check → List Check
  | [] => []
  | c :: cs =>
      if isOnMonitor mvar c then
        merged :: cs.map (fun d =>
          if isOnMonitor mvar d then { d with type := .invalid } else d)
      else
        c :: foldIntoFirst mvar merged cs

/-- One round of the loop over the monitors. -/
def mergeMonitor (checkV : List Check) (m : Monitor) : List Check :=
  match checkV.filter (isOnMonitor m.mvar) with
  | first :: second :: rest =>
      let merged := (second :: rest).foldl absorbMonitor first
      foldIntoFirst m.mvar { merged with tableSize := merged.extraHeader.length } checkV
  | _ => checkV

def mergeMonitors (monitorV : List Monitor) (checkV : List Check) : List Check :=
  removeInvalidChecks (monitorV.foldl mergeMonitor checkV)

/-- What one round over a header can do: nothing, or replace the group by one check. -/
theorem mergeHeader_cases
    {checkV out : List Check} {h : String}
    (hok : mergeHeader checkV h = .ok out) :
    out = checkV ∨
      ∃ first rest items,
        checkV.filter (fun c => c.header == h) = first :: rest ∧
        (∀ c, c ∈ first :: rest → c.priority = first.priority) ∧
        gatherItems ((first :: rest).filter isMergeable) = .ok items ∧
        out = checkV.map (invalidateGroup h) ++ [mergedCheck first items] := by
  unfold mergeHeader at hok
  cases hchecks : checkV.filter (fun c => c.header == h) with
  | nil =>
      left
      simpa [hchecks] using hok.symm
  | cons first rest =>
      simp only [hchecks] at hok
      split at hok
      · obtain ⟨res, hres, hok⟩ := bind_eq_ok_iff.mp hok
        rw [mergeChecksPerHeader] at hres
        split at hres
        · cases hres
          cases hok
          exact Or.inl rfl
        · rename_i hprio
          split at hres
          · cases hres
            cases hok
            exact Or.inl rfl
          · obtain ⟨items, hitems, hres⟩ := bind_eq_ok_iff.mp hres
            cases hres
            cases hok
            have hheader : first.header = h := by
              have hmem : first ∈ checkV.filter (fun c => c.header == h) := by
                rw [hchecks]
                simp
              simpa using (List.mem_filter.mp hmem).2
            have hsame : ∀ c, c ∈ first :: rest → c.priority = first.priority := by
              intro c hc
              by_contra hne
              apply hprio
              rw [List.any_eq_true]
              exact ⟨c, hc, by simpa using hne⟩
            exact Or.inr ⟨first, rest, items, rfl, hsame, hitems, by rw [hheader]⟩
      · cases hok
        exact Or.inl rfl

@[simp] theorem invalidateGroup_header
    (h : String)
    (c : Check) :
    (invalidateGroup h c).header = c.header := by
  unfold invalidateGroup
  split <;> rfl

theorem invalidateGroup_valuesInRange
    (h : String)
    {c : Check}
    (hc : c.ValuesInRange) :
    (invalidateGroup h c).ValuesInRange := by
  unfold invalidateGroup
  split <;> exact hc

/-- Merging one header keeps the written values in range. -/
theorem mergeHeader_valuesInRange
    {checkV out : List Check} {h : String}
    (hok : mergeHeader checkV h = .ok out)
    (hin : ∀ c, c ∈ checkV → c.ValuesInRange) :
    ∀ c, c ∈ out → c.ValuesInRange := by
  intro c hc
  rcases mergeHeader_cases hok with rfl | ⟨first, rest, items, hgroup, _, _, rfl⟩
  · exact hin c hc
  · rcases List.mem_append.mp hc with hc | hc
    · obtain ⟨d, hd, rfl⟩ := List.mem_map.mp hc
      exact invalidateGroup_valuesInRange h (hin d hd)
    · rw [List.mem_singleton.mp hc]
      have hmem : first ∈ checkV.filter (fun c => c.header == h) := by
        rw [hgroup]
        simp
      exact hin first (List.mem_of_mem_filter hmem)

theorem mergeHeaders_valuesInRange
    {hs : List String} {checkV out : List Check}
    (hok : mergeHeaders hs checkV = .ok out)
    (hin : ∀ c, c ∈ checkV → c.ValuesInRange) :
    ∀ c, c ∈ out → c.ValuesInRange := by
  induction hs generalizing checkV with
  | nil =>
      cases hok
      exact hin
  | cons h hs ih =>
      obtain ⟨mid, hmid, hok⟩ := bind_eq_ok_iff.mp hok
      exact ih hok (mergeHeader_valuesInRange hmid hin)

/-- Absorbing a later check changes the extra conditions only. -/
theorem absorbMonitor_eq
    (first c : Check) :
    absorbMonitor first c =
      { first with
        extraHeader := first.extraHeader ++ c.extraHeader
        hToVal :=
          c.extraHeader.foldl (fun m h => mapInsert m h (mapGet c.hToVal h)) first.hToVal } := by
  unfold absorbMonitor
  generalize c.extraHeader = hs
  induction hs generalizing first with
  | nil =>
      simp
  | cons h hs ih =>
      rw [List.foldl_cons, ih]
      simp

/-- So does absorbing several. -/
theorem foldl_absorbMonitor_eq
    (first : Check)
    (cs : List Check) :
    cs.foldl absorbMonitor first =
      { first with
        extraHeader := first.extraHeader ++ cs.flatMap Check.extraHeader
        hToVal := (cs.foldl absorbMonitor first).hToVal } := by
  induction cs generalizing first with
  | nil =>
      simp
  | cons c cs ih =>
      rw [List.foldl_cons, ih, absorbMonitor_eq]
      simp

/-- The elements of a folded vector: the merged check, old checks, or marked ones. -/
theorem mem_foldIntoFirst
    {mvar : String} {merged : Check} {checkV : List Check} {c : Check}
    (hc : c ∈ foldIntoFirst mvar merged checkV) :
    c = merged ∨
      (c ∈ checkV ∧ isOnMonitor mvar c = false) ∨
      ∃ d, d ∈ checkV ∧ c = { d with type := .invalid } := by
  induction checkV with
  | nil =>
      simp [foldIntoFirst] at hc
  | cons a cs ih =>
      unfold foldIntoFirst at hc
      split at hc
      · rcases List.mem_cons.mp hc with rfl | hc
        · exact Or.inl rfl
        · obtain ⟨d, hd, rfl⟩ := List.mem_map.mp hc
          right
          by_cases hon : isOnMonitor mvar d = true
          · right
            exact ⟨d, List.mem_cons_of_mem _ hd, by simp [hon]⟩
          · left
            simp only [hon]
            exact ⟨List.mem_cons_of_mem _ hd, by simpa using hon⟩
      · rename_i hnot
        rcases List.mem_cons.mp hc with rfl | hc
        · exact Or.inr (Or.inl ⟨by simp, by simpa using hnot⟩)
        · rcases ih hc with h | ⟨h₁, h₂⟩ | ⟨d, h₁, h₂⟩
          · exact Or.inl h
          · exact Or.inr (Or.inl ⟨List.mem_cons_of_mem _ h₁, h₂⟩)
          · exact Or.inr (Or.inr ⟨d, List.mem_cons_of_mem _ h₁, h₂⟩)

/-- Folding the checks of a monitor keeps the written values in range. -/
theorem mergeMonitor_valuesInRange
    {checkV : List Check}
    (m : Monitor)
    (hin : ∀ c, c ∈ checkV → c.ValuesInRange) :
    ∀ c, c ∈ mergeMonitor checkV m → c.ValuesInRange := by
  intro c hc
  unfold mergeMonitor at hc
  split at hc
  · rename_i first second rest hgroup
    have hfirst : first ∈ checkV.filter (isOnMonitor m.mvar) := by
      rw [hgroup]
      simp
    have hrange := hin first (List.mem_of_mem_filter hfirst)
    rcases mem_foldIntoFirst hc with rfl | ⟨h, _⟩ | ⟨d, hd, rfl⟩
    · rw [foldl_absorbMonitor_eq]
      exact hrange
    · exact hin c h
    · exact hin d hd
  · exact hin c hc

theorem foldl_mergeMonitor_valuesInRange
    (ms : List Monitor)
    {checkV : List Check}
    (hin : ∀ c, c ∈ checkV → c.ValuesInRange) :
    ∀ c, c ∈ ms.foldl mergeMonitor checkV → c.ValuesInRange := by
  induction ms generalizing checkV with
  | nil =>
      exact hin
  | cons m ms ih =>
      exact ih (mergeMonitor_valuesInRange m hin)

end CheckMerging

end Poise
