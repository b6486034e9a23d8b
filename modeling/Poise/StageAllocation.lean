import Poise.CheckGeneration

/-!
# Poise compiler: stage allocation

`allocate_resources` walks over the sorted checks and gives each one a run of
match-action stages.  A check that does not fit into the stages left in the
current round of recirculation opens the next round.

The facts proved here are the ones code generation rests on: only the resource
fields change, the rounds never decrease along the vector, and no check is in a
round above the one the walk ends in.
-/

namespace Poise

section StageAllocation

def numStageExact : Nat := 1

def numStageRange : Nat := 1

def numStageMonitor : Nat := 3

def maxRecTimes : Nat := 8

def stagesPerRec : Nat := 7

/-- Stages one check needs; a list check is charged as a range check. -/
def stagesNeeded : CheckType → Except Failure Nat
  | .exact => .ok numStageExact
  | .range => .ok numStageRange
  | .list => .ok numStageRange
  | .monitor => .ok numStageMonitor
  | .invalid => .error .assertion

/-- The round and first stage of a check, given the position the walk has reached. -/
def placeCheck (currRec currStage need : Nat) : Nat × Nat :=
  if currStage + need > stagesPerRec then (currRec + 1, 0) else (currRec, currStage)

/-- The walk over the checks from a given round and stage. -/
def allocateFrom : Nat → Nat → List Check → Except Failure (List Check × Nat)
  | currRec, _, [] => .ok ([], currRec)
  | currRec, currStage, c :: cs => do
      let need ← stagesNeeded c.type
      let (r, s) := placeCheck currRec currStage need
      let (cs', last) ← allocateFrom r (s + need) cs
      .ok ({ c with startStage := s, stageNum := need, recNum := r } :: cs', last)

/-- Allocate all checks; `none` when more rounds are needed than there are. -/
def allocateResources (checkV : List Check) : Except Failure (Option (List Check × Nat)) := do
  let (checks, currRec) ← allocateFrom 0 0 checkV
  if currRec ≥ maxRecTimes then .ok none else .ok (some (checks, currRec))

/-- A check without the fields that allocation and naming fill in. -/
def unplaced (c : Check) : Check :=
  { c with startStage := 0, stageNum := 0, recNum := 0, tableName := "" }

/-- Checks that differ in place and name only. -/
theorem fields_of_unplaced_eq
    {c d : Check}
    (h : unplaced c = unplaced d) :
    c.type = d.type ∧ c.header = d.header ∧ c.id = d.id :=
  ⟨(congrArg Check.type h :), (congrArg Check.header h :), (congrArg Check.id h :)⟩

/-- The walk never goes back to an earlier round. -/
theorem placeCheck_le
    (currRec currStage need : Nat) :
    currRec ≤ (placeCheck currRec currStage need).1 := by
  unfold placeCheck
  split
  · exact Nat.le_succ _
  · exact Nat.le_refl _

/-- One step of the walk. -/
theorem allocateFrom_cons
    {currRec currStage : Nat} {c : Check} {cs out : List Check} {last : Nat}
    (h : allocateFrom currRec currStage (c :: cs) = .ok (out, last)) :
    ∃ need r s out',
      stagesNeeded c.type = .ok need ∧
      placeCheck currRec currStage need = (r, s) ∧
      allocateFrom r (s + need) cs = .ok (out', last) ∧
      out = { c with startStage := s, stageNum := need, recNum := r } :: out' := by
  rw [allocateFrom] at h
  obtain ⟨need, hneed, h⟩ := bind_eq_ok_iff.mp h
  obtain ⟨⟨out', last'⟩, hrest, h⟩ := bind_eq_ok_iff.mp h
  cases h
  exact ⟨need, _, _, out', hneed, rfl, hrest, rfl⟩

/-- Allocation changes the resource fields only. -/
theorem allocateFrom_unplaced
    {currRec currStage : Nat} {cs out : List Check} {last : Nat}
    (h : allocateFrom currRec currStage cs = .ok (out, last)) :
    out.map unplaced = cs.map unplaced := by
  induction cs generalizing currRec currStage out with
  | nil =>
      cases h
      rfl
  | cons c cs ih =>
      obtain ⟨need, r, s, out', _, _, hrest, rfl⟩ := allocateFrom_cons h
      rw [List.map_cons, List.map_cons, ih hrest]
      rfl

/-- All rounds lie between the current one and the last one. -/
theorem allocateFrom_bounds
    {currRec currStage : Nat} {cs out : List Check} {last : Nat}
    (h : allocateFrom currRec currStage cs = .ok (out, last)) :
    currRec ≤ last ∧ ∀ c, c ∈ out → currRec ≤ c.recNum ∧ c.recNum ≤ last := by
  induction cs generalizing currRec currStage out with
  | nil =>
      cases h
      exact ⟨Nat.le_refl _, by simp⟩
  | cons c cs ih =>
      obtain ⟨need, r, s, out', _, hplace, hrest, rfl⟩ := allocateFrom_cons h
      have hle := placeCheck_le currRec currStage need
      rw [hplace] at hle
      obtain ⟨hlast, hall⟩ := ih hrest
      refine ⟨Nat.le_trans hle hlast, ?_⟩
      intro d hd
      rcases List.mem_cons.mp hd with rfl | hd
      · exact ⟨hle, hlast⟩
      · obtain ⟨h₁, h₂⟩ := hall d hd
        exact ⟨Nat.le_trans hle h₁, h₂⟩

/-- Rounds never decrease along the vector. -/
theorem allocateFrom_sorted
    {currRec currStage : Nat} {cs out : List Check} {last : Nat}
    (h : allocateFrom currRec currStage cs = .ok (out, last)) :
    out.Pairwise (fun c d => c.recNum ≤ d.recNum) := by
  induction cs generalizing currRec currStage out with
  | nil =>
      cases h
      exact List.Pairwise.nil
  | cons c cs ih =>
      obtain ⟨need, r, s, out', _, _, hrest, rfl⟩ := allocateFrom_cons h
      rw [List.pairwise_cons]
      refine ⟨?_, ih hrest⟩
      intro d hd
      exact ((allocateFrom_bounds hrest).2 d hd).1

/-- A successful allocation is a walk that ends in time. -/
theorem allocateResources_eq_some_iff
    {checkV out : List Check} {last : Nat} :
    allocateResources checkV = .ok (some (out, last)) ↔
      allocateFrom 0 0 checkV = .ok (out, last) ∧ last < maxRecTimes := by
  rw [allocateResources]
  constructor
  · intro h
    obtain ⟨⟨checks, currRec⟩, hwalk, h⟩ := bind_eq_ok_iff.mp h
    simp only at h
    split at h
    · cases h
    · rename_i hlt
      cases h
      exact ⟨hwalk, by omega⟩
  · rintro ⟨hwalk, hlt⟩
    refine bind_eq_ok_iff.mpr ⟨(out, last), hwalk, ?_⟩
    exact if_neg (by omega)

end StageAllocation

end Poise
