import Mathlib.Tactic
import Poise.AcceptedPolicies
import Poise.ParsedPolicies

/-!
# Poise compiler: the vector of checks after merging

Merging one header touches the checks on that header only, so what becomes of a
header is decided by the checks the vector starts with.  This module computes
the result of both merging stages from that vector:

* the exact and list checks of a merged header are replaced by one list check,
  which takes its number and its actions from the first check on the header, of
  whatever kind that is;
* the monitor checks on one monitor are replaced by the first of them, with the
  extra conditions of all.
-/

namespace Poise

open Foundations

section MergedVector

/-- The checks on a header. -/
def groupOf (checkV : List Check) (h : String) : List Check :=
  checkV.filter (fun c => c.header == h)

/-- Whether a group is merged: one priority, and at least two checks with values. -/
def groupMerges : List Check → Bool
  | [] => false
  | first :: rest =>
      (first :: rest).all (fun c => c.priority == first.priority) &&
        decide (2 ≤ ((first :: rest).filter isMergeable).length)

/-- Whether the checks on a header are merged. -/
def merges (checkV : List Check) (h : String) : Bool :=
  groupMerges (groupOf checkV h)

/-- The first check on a header. -/
def leader (checkV : List Check) (h : String) : Check :=
  (groupOf checkV h).headD {}

/-- The values of the exact and list checks on a header, when they can all be converted. -/
def groupItems (checkV : List Check) (h : String) : Except Failure (List Int) :=
  gatherItems ((groupOf checkV h).filter isMergeable)

/-- The values of the exact and list checks on a header. -/
def itemsOn (checkV : List Check) (h : String) : List Int :=
  match groupItems checkV h with
  | .ok xs => xs
  | .error _ => []

/-- The check a header is merged into. -/
def mergedOn (checkV : List Check) (h : String) : Check :=
  mergedCheck (leader checkV h) (itemsOn checkV h)

/-- Whether a check goes into the merged check of its header. -/
def mergedAway (checkV : List Check) (hs : List String) (c : Check) : Bool :=
  decide (c.header ∈ hs) && merges checkV c.header && isMergeable c

/-- Mark the checks that go into a merged check. -/
def markMerged (checkV : List Check) (hs : List String) (c : Check) : Check :=
  if mergedAway checkV hs c then { c with type := .invalid } else c

/-- The vector after the loop over the headers, computed from the vector in front of it. -/
def mergedVector (checkV : List Check) (hs : List String) : List Check :=
  checkV.map (markMerged checkV hs) ++ (hs.filter (merges checkV)).map (mergedOn checkV)

/-- A group that is merged has a first check, and all its checks have the priority of that one. -/
theorem exists_of_merges
    {checkV : List Check} {h : String}
    (hm : merges checkV h = true) :
    ∃ first rest,
      groupOf checkV h = first :: rest ∧ leader checkV h = first ∧
      (∀ c, c ∈ first :: rest → c.priority = first.priority) ∧
      2 ≤ ((first :: rest).filter isMergeable).length := by
  unfold merges at hm
  cases hgroup : groupOf checkV h with
  | nil =>
      rw [hgroup] at hm
      cases hm
  | cons first rest =>
      rw [hgroup, groupMerges, Bool.and_eq_true, List.all_eq_true, decide_eq_true_eq] at hm
      refine ⟨first, rest, rfl, ?_, ?_, hm.2⟩
      · rw [leader, hgroup]
        rfl
      · intro c hc
        simpa using hm.1 c hc

/-- The first check on a header that is merged. -/
theorem leader_mem
    {checkV : List Check} {h : String}
    (hm : merges checkV h = true) :
    leader checkV h ∈ checkV ∧ (leader checkV h).header = h := by
  obtain ⟨first, rest, hgroup, hleader, _⟩ := exists_of_merges hm
  have hmem : first ∈ groupOf checkV h := by
    rw [hgroup]
    simp
  rw [hleader]
  simpa using List.mem_filter.mp hmem

/-- One round over a header that is not merged changes nothing. -/
theorem mergeHeader_of_not_merges
    {checkV : List Check} {h : String}
    (hm : merges checkV h = false) :
    mergeHeader checkV h = .ok checkV := by
  unfold mergeHeader
  change (if (groupOf checkV h).length > 1 then _ else _) = _
  split
  · unfold merges at hm
    change (mergeChecksPerHeader checkV (groupOf checkV h) >>= _) = _
    cases hgroup : groupOf checkV h with
    | nil =>
        rfl
    | cons first rest =>
        rw [hgroup, groupMerges, Bool.and_eq_false_iff] at hm
        rw [mergeChecksPerHeader]
        by_cases hany : (first :: rest).any (fun c => c.priority != first.priority) = true
        · rw [if_pos hany]
          rfl
        · rw [if_neg hany, if_pos]
          · rfl
          · rcases hm with hall | hlen
            · exfalso
              apply hany
              rw [List.any_eq_true]
              obtain ⟨c, hc, hne⟩ := List.all_eq_false.mp hall
              exact ⟨c, hc, by simpa using hne⟩
            · have := of_decide_eq_false hlen
              omega
  · rfl

/-- One round over a header that is merged. -/
theorem mergeHeader_of_merges
    {checkV : List Check} {h : String}
    (hm : merges checkV h = true) :
    mergeHeader checkV h =
      groupItems checkV h >>= fun items =>
        .ok (checkV.map (invalidateGroup h) ++ [mergedCheck (leader checkV h) items]) := by
  obtain ⟨first, rest, hgroup, hleader, hprio, hlen⟩ := exists_of_merges hm
  have hheader := (leader_mem hm).2
  rw [hleader] at hheader
  have hlong : (groupOf checkV h).length > 1 := by
    have hle := List.length_filter_le isMergeable (first :: rest)
    rw [hgroup]
    omega
  have hany : ¬ (first :: rest).any (fun c => c.priority != first.priority) = true := by
    rw [List.any_eq_true]
    rintro ⟨c, hc, hne⟩
    simp [hprio c hc] at hne
  unfold mergeHeader
  change (if (groupOf checkV h).length > 1 then
    mergeChecksPerHeader checkV (groupOf checkV h) >>= _ else _) = _
  rw [if_pos hlong, groupItems, hgroup, mergeChecksPerHeader, if_neg hany,
    if_neg (by omega), hleader, hheader]
  cases gatherItems ((first :: rest).filter isMergeable) with
  | error e =>
      rfl
  | ok items =>
      rfl

/-- Merging one header leaves the groups of the others. -/
theorem groupOf_merged_other
    {checkV : List Check} {h x : String}
    (hx : x ≠ h)
    (items : List Int)
    (hheader : (leader checkV h).header = h) :
    groupOf (checkV.map (invalidateGroup h) ++ [mergedCheck (leader checkV h) items]) x =
      groupOf checkV x := by
  unfold groupOf
  have hlast : [mergedCheck (leader checkV h) items].filter (fun c => c.header == x) = [] := by
    simp [mergedCheck, hheader, Ne.symm hx]
  rw [List.filter_append, hlast, List.append_nil, List.filter_map]
  have hkeep : (fun c : Check => c.header == x) ∘ invalidateGroup h =
      fun c => c.header == x := by
    funext c
    simp
  have hsame : ∀ c, c ∈ checkV.filter (fun c => c.header == x) → invalidateGroup h c = id c := by
    intro c hc
    have hc' : c.header = x := by
      simpa using (List.mem_filter.mp hc).2
    have hne : ¬ c.header = h := by
      rw [hc']
      exact hx
    simp [invalidateGroup, hne]
  rw [hkeep, List.map_congr_left hsame, List.map_id]

/-- What is computed from the group of a header stays as it is when the group does. -/
theorem merges_congr
    {u v : List Check} {x : String}
    (h : groupOf u x = groupOf v x) :
    merges u x = merges v x ∧ mergedOn u x = mergedOn v x ∧
      groupItems u x = groupItems v x ∧ itemsOn u x = itemsOn v x := by
  unfold merges mergedOn itemsOn groupItems leader
  rw [h]
  exact ⟨rfl, rfl, rfl, rfl⟩

theorem mergedAway_congr
    {u v : List Check} {hs : List String}
    (h : ∀ x, x ∈ hs → groupOf u x = groupOf v x)
    (c : Check) :
    mergedAway u hs c = mergedAway v hs c := by
  rw [mergedAway, mergedAway]
  by_cases hc : c.header ∈ hs
  · rw [(merges_congr (h c.header hc)).1]
  · simp [hc]

theorem mergedChecks_congr
    {u v : List Check} {hs : List String}
    (h : ∀ x, x ∈ hs → groupOf u x = groupOf v x) :
    (hs.filter (merges u)).map (mergedOn u) = (hs.filter (merges v)).map (mergedOn v) := by
  rw [List.filter_congr (fun x hx => (merges_congr (h x hx)).1)]
  apply List.map_congr_left
  intro x hx
  exact (merges_congr (h x (List.mem_of_mem_filter hx))).2.1

/-- The result of one more header, from the result for the headers behind it. -/
theorem mergedVector_cons
    (checkV : List Check)
    {mid : List Check} {h : String} {hs : List String}
    (hnot : h ∉ hs)
    (hmid : mid =
      if merges checkV h then checkV.map (invalidateGroup h) ++ [mergedOn checkV h] else checkV) :
    (∀ x, x ∈ hs → groupOf mid x = groupOf checkV x) ∧
      mergedVector mid hs = mergedVector checkV (h :: hs) := by
  have hne : ∀ x, x ∈ hs → x ≠ h := by
    rintro x hx rfl
    exact hnot hx
  by_cases hm : merges checkV h = true
  · rw [if_pos hm] at hmid
    have hheader := (leader_mem hm).2
    have hgroups : ∀ x, x ∈ hs → groupOf mid x = groupOf checkV x := by
      intro x hx
      rw [hmid]
      exact groupOf_merged_other (hne x hx) _ hheader
    refine ⟨hgroups, ?_⟩
    have haway := mergedAway_congr hgroups
    have hmark : ∀ c,
        markMerged mid hs (invalidateGroup h c) = markMerged checkV (h :: hs) c := by
      intro c
      rw [markMerged, markMerged, haway]
      by_cases hc : c.header = h
      · cases hmerge : isMergeable c <;>
          simp [mergedAway, invalidateGroup, hc, hnot, hm, hmerge]
      · have hsame : invalidateGroup h c = c := by
          simp [invalidateGroup, hc]
        simp [mergedAway, hsame, hc]
    have hnew : markMerged mid hs (mergedOn checkV h) = mergedOn checkV h := by
      have hout : ¬ (mergedOn checkV h).header ∈ hs := by
        change ¬ (leader checkV h).header ∈ hs
        rw [hheader]
        exact hnot
      simp [markMerged, mergedAway, hout]
    have hmap : mid.map (markMerged mid hs) =
        checkV.map (markMerged checkV (h :: hs)) ++ [mergedOn checkV h] := by
      calc
        mid.map (markMerged mid hs) =
            (checkV.map (invalidateGroup h) ++ [mergedOn checkV h]).map (markMerged mid hs) :=
          congrArg (List.map _) hmid
        _ = (checkV.map (invalidateGroup h)).map (markMerged mid hs) ++ [mergedOn checkV h] := by
          rw [List.map_append, List.map_singleton, hnew]
        _ = checkV.map (markMerged checkV (h :: hs)) ++ [mergedOn checkV h] := by
          rw [List.map_map]
          congr 1
          exact List.map_congr_left (fun c _ => hmark c)
    unfold mergedVector
    rw [mergedChecks_congr hgroups, List.filter_cons_of_pos hm, List.map_cons, hmap,
      List.append_assoc]
    rfl
  · rw [if_neg hm] at hmid
    subst hmid
    refine ⟨fun _ _ => rfl, ?_⟩
    have haway : ∀ c, mergedAway mid (h :: hs) c = mergedAway mid hs c := by
      intro c
      unfold mergedAway
      by_cases hc : c.header = h
      · simp [hc, hm]
      · simp [hc]
    unfold mergedVector markMerged
    rw [List.filter_cons_of_neg hm]
    simp only [haway]

/-- One round of the loop over the headers, in terms of the vector it starts with. -/
theorem mergeHeader_eq_ok_iff
    {checkV mid : List Check} {h : String} :
    mergeHeader checkV h = .ok mid ↔
      (merges checkV h = true → groupItems checkV h = .ok (itemsOn checkV h)) ∧
        mid = if merges checkV h then
          checkV.map (invalidateGroup h) ++ [mergedOn checkV h] else checkV := by
  by_cases hm : merges checkV h = true
  · rw [mergeHeader_of_merges hm, if_pos hm]
    simp only [hm, true_implies, mergedOn, itemsOn]
    cases groupItems checkV h with
    | error e =>
        simp [bind, Except.bind]
    | ok items =>
        simp [bind, Except.bind, eq_comm]
  · rw [mergeHeader_of_not_merges (by simpa using hm), if_neg hm]
    simp [hm, eq_comm]

/--
The loop over the headers succeeds exactly when the values of every merged
header can be converted, and then gives the vector computed above.
-/
theorem mergeHeaders_eq_ok_iff
    {hs : List String} {checkV out : List Check}
    (hnodup : hs.Nodup) :
    mergeHeaders hs checkV = .ok out ↔
      (∀ h, h ∈ hs → merges checkV h = true → groupItems checkV h = .ok (itemsOn checkV h)) ∧
        out = mergedVector checkV hs := by
  induction hs generalizing checkV with
  | nil =>
      have hself : mergedVector checkV [] = checkV := by
        have hmark : ∀ c, c ∈ checkV → markMerged checkV [] c = id c := by
          intro c _
          simp [markMerged, mergedAway]
        rw [mergedVector, List.map_congr_left hmark]
        simp
      rw [hself]
      constructor
      · intro h
        cases h
        exact ⟨by simp, rfl⟩
      · rintro ⟨_, rfl⟩
        rfl
  | cons h hs ih =>
      rw [List.nodup_cons] at hnodup
      obtain ⟨hnot, hnodup⟩ := hnodup
      rw [mergeHeaders, bind_eq_ok_iff]
      constructor
      · rintro ⟨mid, hmid, hrest⟩
        obtain ⟨hitems, hmid⟩ := mergeHeader_eq_ok_iff.mp hmid
        obtain ⟨hgroups, hvector⟩ := mergedVector_cons checkV hnot hmid
        obtain ⟨hall, rfl⟩ := (ih hnodup).mp hrest
        refine ⟨?_, hvector⟩
        intro x hx hmx
        rcases List.mem_cons.mp hx with rfl | hx
        · exact hitems hmx
        · obtain ⟨h₁, _, h₃, h₄⟩ := merges_congr (hgroups x hx)
          rw [← h₃, ← h₄]
          exact hall x hx (h₁.trans hmx)
      · rintro ⟨hall, rfl⟩
        refine ⟨_, mergeHeader_eq_ok_iff.mpr ⟨hall h (by simp), rfl⟩, ?_⟩
        obtain ⟨hgroups, hvector⟩ := mergedVector_cons checkV hnot rfl
        refine (ih hnodup).mpr ⟨?_, hvector.symm⟩
        intro x hx hmx
        obtain ⟨h₁, _, h₃, h₄⟩ := merges_congr (hgroups x hx)
        rw [h₃, h₄]
        exact hall x (List.mem_cons_of_mem _ hx) (h₁.symm.trans hmx)

/-- The checks that are neither invalid nor merged away. -/
def keptChecks (checkV : List Check) (hs : List String) : List Check :=
  checkV.filter (fun c => c.type != .invalid && !mergedAway checkV hs c)

/-- The new list checks, one for each merged header. -/
def mergedChecks (checkV : List Check) (hs : List String) : List Check :=
  (hs.filter (merges checkV)).map (mergedOn checkV)

theorem mem_keptChecks
    {checkV : List Check} {hs : List String} {c : Check} :
    c ∈ keptChecks checkV hs ↔
      c ∈ checkV ∧ c.type ≠ .invalid ∧ mergedAway checkV hs c = false := by
  simp [keptChecks]

theorem mem_mergedChecks
    {checkV : List Check} {hs : List String} {c : Check} :
    c ∈ mergedChecks checkV hs ↔
      ∃ h, h ∈ hs ∧ merges checkV h = true ∧ c = mergedOn checkV h := by
  simp only [mergedChecks, List.mem_map, List.mem_filter, and_assoc, eq_comm]

/-- Erasing the marked checks leaves the kept checks and the new ones. -/
theorem removeInvalidChecks_mergedVector
    (checkV : List Check)
    (hs : List String) :
    removeInvalidChecks (mergedVector checkV hs) =
      keptChecks checkV hs ++ mergedChecks checkV hs := by
  unfold removeInvalidChecks mergedVector keptChecks mergedChecks
  rw [List.filter_append, List.filter_map]
  congr 1
  · have hpred : (fun c : Check => c.type != .invalid) ∘ markMerged checkV hs =
        fun c => c.type != .invalid && !mergedAway checkV hs c := by
      funext c
      cases haway : mergedAway checkV hs c <;> simp [markMerged, haway]
    have hsame : ∀ c, c ∈ checkV.filter (fun c => c.type != .invalid && !mergedAway checkV hs c) →
        markMerged checkV hs c = id c := by
      intro c hc
      have haway : mergedAway checkV hs c = false := by
        simpa using (Bool.and_eq_true_iff.mp (List.mem_filter.mp hc).2).2
      simp [markMerged, haway]
    rw [hpred, List.map_congr_left hsame, List.map_id]
  · rw [List.filter_eq_self]
    intro c hc
    obtain ⟨h, _, rfl⟩ := List.mem_map.mp hc
    rfl

/-- `merge_same_headers` as a whole. -/
theorem mergeSameHeaders_eq_ok_iff
    {hs : List String} {checkV out : List Check}
    (hnodup : hs.Nodup) :
    mergeSameHeaders hs checkV = .ok out ↔
      (∀ h, h ∈ hs → merges checkV h = true → groupItems checkV h = .ok (itemsOn checkV h)) ∧
        out = keptChecks checkV hs ++ mergedChecks checkV hs := by
  rw [mergeSameHeaders, bind_eq_ok_iff, ← removeInvalidChecks_mergedVector]
  constructor
  · rintro ⟨marked, hmarked, h⟩
    obtain ⟨hitems, rfl⟩ := (mergeHeaders_eq_ok_iff hnodup).mp hmarked
    cases h
    exact ⟨hitems, rfl⟩
  · rintro ⟨hitems, rfl⟩
    exact ⟨_, (mergeHeaders_eq_ok_iff hnodup).mpr ⟨hitems, rfl⟩, rfl⟩

/-- A check that can be merged. -/
theorem isMergeable_iff
    {c : Check} :
    isMergeable c = true ↔ c.type = .exact ∨ c.type = .list := by
  simp [isMergeable]

/-- The checks on a header that is merged, of the kinds with values. -/
theorem mergedAway_iff
    {checkV : List Check} {hs : List String} {c : Check} :
    mergedAway checkV hs c = true ↔
      c.header ∈ hs ∧ merges checkV c.header = true ∧ isMergeable c = true := by
  simp [mergedAway, and_assoc]

theorem mem_mergeables
    {checkV : List Check} {h : String} {c : Check} :
    c ∈ (groupOf checkV h).filter isMergeable ↔
      c ∈ checkV ∧ c.header = h ∧ isMergeable c = true := by
  simp [groupOf, and_comm]

/-- The values of a group can be converted when those of its exact checks can. -/
theorem gatherItems_ok_iff
    (cs : List Check) :
    (∃ xs, gatherItems cs = .ok xs) ↔
      ∀ c, c ∈ cs → c.type = .exact → ∃ n, stoi c.predLo = .ok n := by
  induction cs with
  | nil =>
      simp [gatherItems]
  | cons c cs ih =>
      constructor
      · rintro ⟨xs, h⟩
        rw [gatherItems] at h
        obtain ⟨ys, hys, h⟩ := bind_eq_ok_iff.mp h
        obtain ⟨zs, hzs, _⟩ := bind_eq_ok_iff.mp h
        intro d hd hexact
        rcases List.mem_cons.mp hd with rfl | hd
        · unfold mergeItems at hys
          rw [if_pos hexact] at hys
          obtain ⟨n, hn, _⟩ := bind_eq_ok_iff.mp hys
          exact ⟨n, hn⟩
        · exact ih.mp ⟨zs, hzs⟩ d hd hexact
      · intro hall
        obtain ⟨zs, hzs⟩ := ih.mpr (fun d hd => hall d (List.mem_cons_of_mem _ hd))
        have hhead : ∃ ys, mergeItems c = .ok ys := by
          unfold mergeItems
          split
          · rename_i hexact
            obtain ⟨n, hn⟩ := hall c (by simp) hexact
            exact ⟨[n], by rw [hn]; rfl⟩
          · exact ⟨c.list, rfl⟩
        obtain ⟨ys, hys⟩ := hhead
        exact ⟨ys ++ zs, by rw [gatherItems, hys, hzs]; rfl⟩

/-- All merged headers can be converted when every exact check that is merged away can. -/
theorem groupItems_ok_iff
    (checkV : List Check)
    (hs : List String) :
    (∀ h, h ∈ hs → merges checkV h = true → groupItems checkV h = .ok (itemsOn checkV h)) ↔
      ∀ c, c ∈ checkV → mergedAway checkV hs c = true → c.type = .exact →
        ∃ n, stoi c.predLo = .ok n := by
  have hok : ∀ h, groupItems checkV h = .ok (itemsOn checkV h) ↔
      ∃ xs, groupItems checkV h = .ok xs := by
    intro h
    unfold itemsOn
    cases groupItems checkV h with
    | error e =>
        simp
    | ok xs =>
        simp
  constructor
  · intro hall c hc haway hexact
    obtain ⟨hh, hm, hkind⟩ := mergedAway_iff.mp haway
    have hgroup := (hok c.header).mp (hall c.header hh hm)
    exact (gatherItems_ok_iff _).mp hgroup c (mem_mergeables.mpr ⟨hc, rfl, hkind⟩) hexact
  · intro hall h hh hm
    rw [hok]
    apply (gatherItems_ok_iff _).mpr
    intro c hc hexact
    obtain ⟨hmemc, rfl, hkind⟩ := mem_mergeables.mp hc
    exact hall c hmemc (mergedAway_iff.mpr ⟨hh, hm, hkind⟩) hexact

end MergedVector

end Poise
