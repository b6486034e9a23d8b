import Mathlib.Tactic
import Poise.StageAllocation
import Poise.Foundations.NextFit

/-!
# Poise compiler: stage allocation is next fit

The walk of `allocate_resources` is next fit with the rounds of recirculation as
bins and the stages of a round as their capacity.  Both halves of its contract
follow: an allocation that is returned is sound, and when none is returned no
order-preserving cut of the checks into rounds would have done.
-/

namespace Poise

open Foundations

section StagePacking

/-- Stages of a check by type. -/
def stageCost : CheckType → Nat
  | .exact => numStageExact
  | .range => numStageRange
  | .list => numStageRange
  | .monitor => numStageMonitor
  | .invalid => 0

theorem stagesNeeded_of_valid
    {t : CheckType}
    (ht : t ≠ .invalid) :
    stagesNeeded t = .ok (stageCost t) := by
  cases t with
  | invalid =>
      exact absurd rfl ht
  | _ =>
      rfl

theorem stageCost_le
    (t : CheckType) :
    stageCost t ≤ stagesPerRec := by
  cases t <;> decide

/-- The place of a check as that of an item in next fit. -/
def placedAt (c : Check) : Placed CheckType :=
  { item := c.type, bin := c.recNum, start := c.startStage }

/-- On valid checks the walk is next fit. -/
theorem allocateFrom_eq_nextFit
    {checkV : List Check}
    (hvalid : ∀ c, c ∈ checkV → c.type ≠ .invalid)
    (currRec currStage : Nat) :
    ∃ out,
      allocateFrom currRec currStage checkV =
          .ok (out, lastBin stageCost stagesPerRec currRec currStage (checkV.map Check.type)) ∧
        out.map placedAt =
          nextFit stageCost stagesPerRec currRec currStage (checkV.map Check.type) ∧
        ∀ c, c ∈ out → c.stageNum = stageCost c.type := by
  induction checkV generalizing currRec currStage with
  | nil =>
      exact ⟨[], rfl, rfl, by simp⟩
  | cons c cs ih =>
      obtain ⟨out, hwalk, hplaced, hnum⟩ :=
        ih (fun d hd => hvalid d (List.mem_cons_of_mem _ hd))
          (placeCheck currRec currStage (stageCost c.type)).1
          ((placeCheck currRec currStage (stageCost c.type)).2 + stageCost c.type)
      have hneed := stagesNeeded_of_valid (hvalid c List.mem_cons_self)
      refine ⟨{ c with
        startStage := (placeCheck currRec currStage (stageCost c.type)).2
        stageNum := stageCost c.type
        recNum := (placeCheck currRec currStage (stageCost c.type)).1 } :: out, ?_, ?_, ?_⟩
      · rw [allocateFrom, hneed]
        refine bind_eq_ok_iff.mpr ⟨_, rfl, bind_eq_ok_iff.mpr ⟨_, hwalk, rfl⟩⟩
      · rw [List.map_cons, hplaced]
        rfl
      · intro d hd
        rcases List.mem_cons.mp hd with rfl | hd
        · rfl
        · exact hnum d hd

/-- What an allocation of a vector of checks has to be. -/
structure SoundAllocation (checkV out : List Check) : Prop where
  checks : out.map unplaced = checkV.map unplaced
  demand : ∀ c, c ∈ out → c.stageNum = stageCost c.type
  stages : ∀ c, c ∈ out → c.startStage + c.stageNum ≤ stagesPerRec
  rounds : ∀ c, c ∈ out → c.recNum < maxRecTimes
  ordered : out.Pairwise (fun c d =>
    c.recNum < d.recNum ∨
      (c.recNum = d.recNum ∧ c.startStage + c.stageNum ≤ d.startStage))
  unbroken : ∀ c, c ∈ out → ∀ r, r ≤ c.recNum → ∃ d, d ∈ out ∧ d.recNum = r

/-- A cut of the checks, in order, into at most eight groups of at most seven stages each. -/
structure RoundCut (checkV : List Check) (groups : List (List Check)) : Prop where
  whole : groups.flatten = checkV
  count : groups.length ≤ maxRecTimes
  fits : ∀ g, g ∈ groups → (g.map (fun c => stageCost c.type)).sum ≤ stagesPerRec

/-- When there is such a cut, next fit ends in time. -/
theorem RoundCut.lastBin_lt
    {checkV : List Check} {groups : List (List Check)}
    (hcut : RoundCut checkV groups) :
    lastBin stageCost stagesPerRec 0 0 (checkV.map Check.type) < maxRecTimes := by
  rw [← hcut.whole, List.map_flatten]
  by_cases hne : groups = []
  · subst hne
    decide
  · refine Nat.lt_of_lt_of_le (lastBin_lt_of_groups stageCost (by simpa using hne) ?_) ?_
    · intro g hg
      obtain ⟨cs, hcs, rfl⟩ := List.mem_map.mp hg
      rw [List.map_map]
      exact hcut.fits cs hcs
    · rw [List.length_map]
      exact hcut.count

/-- The places of next fit from the start of the first round. -/
theorem soundAllocation_of_nextFit
    {checkV out : List Check}
    (hsame : out.map unplaced = checkV.map unplaced)
    (hplaced : out.map placedAt = nextFit stageCost stagesPerRec 0 0 (checkV.map Check.type))
    (hnum : ∀ c, c ∈ out → c.stageNum = stageCost c.type)
    (hlast : lastBin stageCost stagesPerRec 0 0 (checkV.map Check.type) < maxRecTimes) :
    SoundAllocation checkV out := by
  have hmem : ∀ c, c ∈ out →
      placedAt c ∈ nextFit stageCost stagesPerRec 0 0 (checkV.map Check.type) := by
    intro c hc
    rw [← hplaced]
    exact List.mem_map_of_mem hc
  refine ⟨hsame, hnum, ?_, ?_, ?_, ?_⟩
  · intro c hc
    rw [hnum c hc]
    exact nextFit_fits stageCost (fun t _ => stageCost_le t) _ (hmem c hc)
  · intro c hc
    exact Nat.lt_of_le_of_lt ((bin_le_lastBin stageCost _ _ _).2 _ (hmem c hc)) hlast
  · have hpairs : (nextFit stageCost stagesPerRec 0 0 (checkV.map Check.type)).Pairwise _ :=
      nextFit_pairwise stageCost _ 0 0
    rw [← hplaced, List.pairwise_map] at hpairs
    apply hpairs.imp_of_mem
    intro c d hc _ hbehind
    rw [hnum c hc]
    exact hbehind
  · intro c hc r hr
    obtain ⟨q, hq, hbin⟩ := exists_bin_of_mem_nextFit_zero stageCost
      (fun t _ => stageCost_le t) (hmem c hc) (Nat.zero_le r) hr
    rw [← hplaced] at hq
    obtain ⟨d, hd, rfl⟩ := List.mem_map.mp hq
    exact ⟨d, hd, hbin⟩

/--
For every vector of checks of the four valid types, `allocate_resources` returns
a sound allocation, or it returns none and the checks cannot be cut, in their
order, into at most eight rounds of at most seven stages each.
-/
theorem allocateResources_sound_optimal
    (checkV : List Check)
    (hvalid : ∀ c, c ∈ checkV → c.type ≠ .invalid) :
    (∃ out last, allocateResources checkV = .ok (some (out, last)) ∧ SoundAllocation checkV out) ∨
      (allocateResources checkV = .ok none ∧ ¬ ∃ groups, RoundCut checkV groups) := by
  obtain ⟨out, hwalk, hplaced, hnum⟩ := allocateFrom_eq_nextFit hvalid 0 0
  by_cases hlast : lastBin stageCost stagesPerRec 0 0 (checkV.map Check.type) < maxRecTimes
  · left
    exact ⟨out, _, allocateResources_eq_some_iff.mpr ⟨hwalk, hlast⟩,
      soundAllocation_of_nextFit (allocateFrom_unplaced hwalk) hplaced hnum hlast⟩
  · right
    refine ⟨bind_eq_ok_iff.mpr ⟨_, hwalk, if_pos (by omega)⟩, ?_⟩
    rintro ⟨groups, hcut⟩
    exact hlast (hcut.lastBin_lt)

/-- Checks of the given types. -/
def checksOfTypes (ts : List CheckType) : List Check :=
  ts.map (fun t => { type := t })

/-- Both limits are reached: 56 comparisons are placed and 57 are not. -/
example :
    (allocateResources (checksOfTypes (List.replicate 56 .exact))).map Option.isSome = .ok true ∧
      (allocateResources (checksOfTypes (List.replicate 57 .exact))).map Option.isSome =
        .ok false := by
  decide +kernel

/--
The theorem on two monitors, which leave one stage, and a comparison and a list: they
are placed; and on 57 comparisons: they cannot be cut into rounds.
-/
theorem allocateResources_monitors_first :
    (∃ out last,
        allocateResources (checksOfTypes [.monitor, .monitor, .exact, .list]) =
            .ok (some (out, last)) ∧
          SoundAllocation (checksOfTypes [.monitor, .monitor, .exact, .list]) out) ∧
      ¬ ∃ groups, RoundCut (checksOfTypes (List.replicate 57 .exact)) groups := by
  constructor
  · rcases allocateResources_sound_optimal (checksOfTypes [.monitor, .monitor, .exact, .list])
      (by decide) with hplaced | ⟨hnone, _⟩
    · exact hplaced
    · have hsome : (allocateResources (checksOfTypes [.monitor, .monitor, .exact, .list])).map
          Option.isSome = .ok true := by
        decide +kernel
      rw [hnone] at hsome
      cases hsome
  · rcases allocateResources_sound_optimal (checksOfTypes (List.replicate 57 .exact))
      (by decide) with ⟨out, last, hsome, _⟩ | ⟨_, hcut⟩
    · have hnone : (allocateResources (checksOfTypes (List.replicate 57 .exact))).map
          Option.isSome = .ok false := by
        decide +kernel
      rw [hsome] at hnone
      cases hnone
    · exact hcut

end StagePacking

end Poise
