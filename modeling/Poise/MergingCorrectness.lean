import Poise.MembershipPolicy

/-!
# Poise compiler: merging keeps the meaning of the checks

For exact and membership policies, merging the checks on each header keeps the
set of values written by the checks that match, and keeps the numbers of the
live checks distinct.  The second fact is what later keeps the names of the
generated tables apart.
-/

namespace Poise

open Foundations

section MergingCorrectness

/-- A check that no merge has marked. -/
def isLive (c : Check) : Bool :=
  c.type != .invalid

/-- What the loop over the headers keeps, with the headers still to come. -/
structure MergeInv (remaining : List String) (checkV : List Check) : Prop where
  form : ∀ c, c ∈ checkV → isLive c = true → MembershipCheck c
  fresh : ∀ c, c ∈ checkV → c.header ∈ remaining → isLive c = true
  ids : ((checkV.filter isLive).map Check.id).Nodup

/-- A marked check matches nothing. -/
theorem checkFires_of_not_live
    (hdr : PoiseH)
    {c : Check}
    (h : isLive c = false) :
    checkFires hdr c = false := by
  have ht : c.type = .invalid := by
    simpa [isLive] using h
  simp [checkFires, checkItems, ht]

theorem stoi_readInt
    {s : String} {n : Int}
    (h : stoi s = .ok n) :
    readInt s = some n := by
  unfold stoi at h
  split at h
  · cases h
  · rename_i m hm
    split at h
    · cases h
      exact hm
    · cases h

/-- The items merged from one check are the items it tests for. -/
theorem mergeItems_eq
    {c : Check} {xs : List Int}
    (hkind : isMergeable c = true)
    (htext : c.type = .exact → c.predHi = c.predLo)
    (h : mergeItems c = .ok xs) :
    xs = checkItems c := by
  unfold mergeItems at h
  by_cases ht : c.type = .exact
  · rw [if_pos ht] at h
    obtain ⟨n, hn, h⟩ := bind_eq_ok_iff.mp h
    cases h
    have hread := stoi_readInt hn
    rw [← htext ht] at hread
    simp [checkItems, ht, hread]
  · rw [if_neg ht] at h
    cases h
    have hlist : c.type = .list := by
      simpa [isMergeable, ht] using hkind
    simp [checkItems, hlist]

/-- A group tests for the union of the items of its members. -/
theorem mem_gatherItems
    {cs : List Check} {items : List Int}
    (hkind : ∀ c, c ∈ cs → isMergeable c = true)
    (htext : ∀ c, c ∈ cs → c.type = .exact → c.predHi = c.predLo)
    (h : gatherItems cs = .ok items)
    (x : Int) :
    x ∈ items ↔ ∃ c, c ∈ cs ∧ x ∈ checkItems c := by
  induction cs generalizing items with
  | nil =>
      cases h
      simp
  | cons c cs ih =>
      rw [gatherItems] at h
      obtain ⟨xs, hxs, h⟩ := bind_eq_ok_iff.mp h
      obtain ⟨ys, hys, h⟩ := bind_eq_ok_iff.mp h
      cases h
      have htail := ih (fun d hd => hkind d (List.mem_cons_of_mem _ hd))
        (fun d hd => htext d (List.mem_cons_of_mem _ hd)) hys
      rw [List.mem_append, htail, mergeItems_eq (hkind c (by simp)) (htext c (by simp)) hxs]
      simp

/-- Marking a group leaves the live checks on the other headers. -/
theorem filter_live_invalidateGroup
    {checkV : List Check} {h : String}
    (hgroup : ∀ c, c ∈ checkV → c.header = h → isMergeable c = true) :
    (checkV.map (invalidateGroup h)).filter isLive =
      checkV.filter (fun c => isLive c && c.header != h) := by
  induction checkV with
  | nil =>
      rfl
  | cons c cs ih =>
      have htail := ih (fun d hd => hgroup d (List.mem_cons_of_mem _ hd))
      by_cases hheader : c.header = h
      · have hmarked : isLive (invalidateGroup h c) = false := by
          simp [invalidateGroup, hheader, hgroup c (by simp) hheader, isLive]
        simp [hmarked, hheader, htail]
      · have hsame : invalidateGroup h c = c := by
          simp [invalidateGroup, hheader]
        cases hlive : isLive c <;> simp [hsame, hheader, hlive, htail]

/-- A value is written when some matching check carries it. -/
theorem mem_firedValues
    {hdr : PoiseH} {checkV : List Check} {v : Nat} :
    v ∈ firedValues hdr checkV ↔
      ∃ c, c ∈ checkV ∧ checkFires hdr c = true ∧ c.ifActionVal = v := by
  unfold firedValues
  rw [List.mem_map]
  constructor
  · rintro ⟨c, hc, hv⟩
    obtain ⟨hmem, hfire⟩ := List.mem_filter.mp hc
    exact ⟨c, hmem, hfire, hv⟩
  · rintro ⟨c, hmem, hfire, hv⟩
    exact ⟨c, List.mem_filter.mpr ⟨hmem, hfire⟩, hv⟩

/-- A group on a fresh header consists of live checks of the fragment. -/
theorem MergeInv.group
    {h : String} {hs : List String} {checkV : List Check}
    (hinv : MergeInv (h :: hs) checkV)
    {c : Check}
    (hc : c ∈ checkV)
    (hheader : c.header = h) :
    isLive c = true ∧ MembershipCheck c := by
  have hlive := hinv.fresh c hc (by rw [hheader]; simp)
  exact ⟨hlive, hinv.form c hc hlive⟩

/-- One round over a header keeps the invariant. -/
theorem mergeHeader_mergeInv
    {h : String} {hs : List String} {checkV out : List Check}
    (hnot : h ∉ hs)
    (hinv : MergeInv (h :: hs) checkV)
    (hok : mergeHeader checkV h = .ok out) :
    MergeInv hs out := by
  rcases mergeHeader_cases hok with rfl | ⟨first, rest, items, hgroup, _, _, rfl⟩
  · exact ⟨hinv.form,
      fun c hc hmem => hinv.fresh c hc (List.mem_cons_of_mem _ hmem), hinv.ids⟩
  · have hfirst : first ∈ checkV ∧ first.header = h := by
      have hmem : first ∈ checkV.filter (fun c => c.header == h) := by
        rw [hgroup]
        simp
      simpa using List.mem_filter.mp hmem
    obtain ⟨hfirstLive, hfirstForm⟩ := hinv.group hfirst.1 hfirst.2
    have hmergeable : ∀ c, c ∈ checkV → c.header = h → isMergeable c = true :=
      fun c hc hheader => (hinv.group hc hheader).2.mergeable
    have hlive := filter_live_invalidateGroup hmergeable
    refine ⟨?_, ?_, ?_⟩
    · intro c hc hcLive
      rcases List.mem_append.mp hc with hc | hc
      · have hin : c ∈ (checkV.map (invalidateGroup h)).filter isLive :=
          List.mem_filter.mpr ⟨hc, hcLive⟩
        rw [hlive] at hin
        obtain ⟨hmem, hcond⟩ := List.mem_filter.mp hin
        exact hinv.form c hmem hcLive
      · rw [List.mem_singleton.mp hc]
        exact ⟨Or.inr rfl, rfl, hfirstForm.range⟩
    · intro c hc hmem
      rcases List.mem_append.mp hc with hc | hc
      · obtain ⟨d, hd, rfl⟩ := List.mem_map.mp hc
        rw [invalidateGroup_header] at hmem
        have hne : d.header ≠ h := by
          intro heq
          exact hnot (heq ▸ hmem)
        have hsame : invalidateGroup h d = d := by
          simp [invalidateGroup, hne]
        rw [hsame]
        exact hinv.fresh d hd (List.mem_cons_of_mem _ hmem)
      · rw [List.mem_singleton.mp hc] at hmem
        exact absurd (hfirst.2 ▸ hmem) hnot
    · rw [List.filter_append, hlive]
      have hmergedLive : [mergedCheck first items].filter isLive = [mergedCheck first items] :=
        rfl
      rw [hmergedLive, List.map_append, List.map_singleton]
      have hsub :
          (checkV.filter (fun c => isLive c && c.header != h)).Sublist
            (checkV.filter isLive) := by
        apply List.monotone_filter_right
        intro c hc
        simp only [Bool.and_eq_true] at hc
        exact hc.1
      apply List.Nodup.append
      · exact hinv.ids.sublist (hsub.map Check.id)
      · simp
      · intro i hi hi'
        obtain ⟨c, hc, hid⟩ := List.mem_map.mp hi
        have hfirstMem : first ∈ checkV.filter isLive :=
          List.mem_filter.mpr ⟨hfirst.1, hfirstLive⟩
        have heq : c = first := by
          apply List.inj_on_of_nodup_map hinv.ids (hsub.subset hc) hfirstMem
          rw [hid, List.mem_singleton.mp hi']
          rfl
        have hcond := (List.mem_filter.mp hc).2
        rw [heq] at hcond
        simp [hfirst.2] at hcond

/-- One round over a header keeps the set of written values. -/
theorem mergeHeader_firedValues
    {h : String} {hs : List String} {checkV out : List Check}
    (hinv : MergeInv (h :: hs) checkV)
    (hok : mergeHeader checkV h = .ok out)
    (hdr : PoiseH)
    (v : Nat) :
    v ∈ firedValues hdr out ↔ v ∈ firedValues hdr checkV := by
  rcases mergeHeader_cases hok with rfl | ⟨first, rest, items, hgroup, hprio, hitems, rfl⟩
  · exact Iff.rfl
  · have hmemGroup : ∀ c, c ∈ first :: rest ↔ c ∈ checkV ∧ c.header = h := by
      intro c
      rw [← hgroup, List.mem_filter]
      simp
    obtain ⟨hfirst, hfirstHeader⟩ := (hmemGroup first).mp (by simp)
    have hforms : ∀ c, c ∈ first :: rest → MembershipCheck c := by
      intro c hc
      obtain ⟨hmem, hheader⟩ := (hmemGroup c).mp hc
      exact (hinv.group hmem hheader).2
    have hwhole : (first :: rest).filter isMergeable = first :: rest := by
      rw [List.filter_eq_self]
      exact fun c hc => (hforms c hc).mergeable
    rw [hwhole] at hitems
    -- all members of the group write the value of the first check
    have hval : ∀ c, c ∈ first :: rest → c.ifActionVal = first.ifActionVal := by
      intro c hc
      rw [(hforms c hc).prio, hprio c hc, (hforms first (by simp)).prio]
    have hmerged :
        checkFires hdr (mergedCheck first items) = true ↔
          ∃ c, c ∈ first :: rest ∧ checkFires hdr c = true := by
      have hunion := mem_gatherItems (fun c hc => (hforms c hc).mergeable)
        (fun c hc => (hforms c hc).exactText) hitems ((hdr h).toNat : Int)
      have hself :
          checkFires hdr (mergedCheck first items) = true ↔
            ((hdr h).toNat : Int) ∈ items := by
        simp [checkFires, checkItems, mergedCheck, hfirstHeader]
      rw [hself, hunion]
      constructor
      · rintro ⟨c, hc, hx⟩
        refine ⟨c, hc, ?_⟩
        simpa [checkFires, ((hmemGroup c).mp hc).2] using hx
      · rintro ⟨c, hc, hx⟩
        refine ⟨c, hc, ?_⟩
        simpa [checkFires, ((hmemGroup c).mp hc).2] using hx
    rw [mem_firedValues, mem_firedValues]
    constructor
    · rintro ⟨c, hc, hfire, hv⟩
      rcases List.mem_append.mp hc with hc | hc
      · obtain ⟨d, hd, rfl⟩ := List.mem_map.mp hc
        by_cases hmark : d.header = h ∧ isMergeable d = true
        · have hdead : isLive (invalidateGroup h d) = false := by
            simp [invalidateGroup, hmark, isLive]
          rw [checkFires_of_not_live hdr hdead] at hfire
          cases hfire
        · have hsame : invalidateGroup h d = d := by
            simp only [invalidateGroup, hmark, if_false]
          rw [hsame] at hfire hv
          exact ⟨d, hd, hfire, hv⟩
      · rw [List.mem_singleton.mp hc] at hfire hv
        obtain ⟨d, hd, hdfire⟩ := hmerged.mp hfire
        exact ⟨d, ((hmemGroup d).mp hd).1, hdfire, (hval d hd).trans hv⟩
    · rintro ⟨c, hc, hfire, hv⟩
      by_cases hheader : c.header = h
      · have hcGroup := (hmemGroup c).mpr ⟨hc, hheader⟩
        refine ⟨mergedCheck first items, by simp, hmerged.mpr ⟨c, hcGroup, hfire⟩, ?_⟩
        exact (hval c hcGroup).symm.trans hv
      · have hsame : invalidateGroup h c = c := by
          simp [invalidateGroup, hheader]
        refine ⟨c, List.mem_append_left _ ?_, hfire, hv⟩
        exact List.mem_map.mpr ⟨c, hc, hsame⟩

/-- The whole loop keeps the invariant and the set of written values. -/
theorem mergeHeaders_membership
    {hs : List String} {checkV out : List Check}
    (hnodup : hs.Nodup)
    (hinv : MergeInv hs checkV)
    (hok : mergeHeaders hs checkV = .ok out)
    (hdr : PoiseH) :
    MergeInv [] out ∧ ∀ v, v ∈ firedValues hdr out ↔ v ∈ firedValues hdr checkV := by
  induction hs generalizing checkV with
  | nil =>
      cases hok
      exact ⟨hinv, fun _ => Iff.rfl⟩
  | cons h hs ih =>
      rw [List.nodup_cons] at hnodup
      obtain ⟨mid, hmid, hok⟩ := bind_eq_ok_iff.mp hok
      obtain ⟨hfinal, hvals⟩ := ih hnodup.2 (mergeHeader_mergeInv hnodup.1 hinv hmid) hok
      refine ⟨hfinal, ?_⟩
      intro v
      exact (hvals v).trans (mergeHeader_firedValues hinv hmid hdr v)

/-- Erasing the marked checks erases no written value. -/
theorem mem_firedValues_removeInvalid
    {hdr : PoiseH} {checkV : List Check} {v : Nat} :
    v ∈ firedValues hdr (removeInvalidChecks checkV) ↔ v ∈ firedValues hdr checkV := by
  rw [mem_firedValues, mem_firedValues]
  constructor
  · rintro ⟨c, hc, hfire, hv⟩
    exact ⟨c, List.mem_of_mem_filter hc, hfire, hv⟩
  · rintro ⟨c, hc, hfire, hv⟩
    refine ⟨c, ?_, hfire, hv⟩
    apply List.mem_filter.mpr
    refine ⟨hc, ?_⟩
    by_contra hdead
    have hfalse := checkFires_of_not_live hdr (c := c) (by simpa [isLive] using hdead)
    rw [hfalse] at hfire
    cases hfire

end MergingCorrectness

end Poise
