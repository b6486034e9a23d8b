import Poise.OptionInsertion

/-!
# Poise client: copies that cannot be made

For every packet with the context option a copy is allocated, and the allocation
can fail.  The calls that `parse_tx_skb` then makes are followed one by one, with
the pointers they are given: `create_cxt_skb` signals a failed copy by the verdict
`NF_ACCEPT`, which its caller takes for a packet because it is not null.

A call with a pointer that is no packet ends in a fault of the kernel.  The header
pointers of a copy are positions inside of it and never null, so the branches for
them are not taken.
-/

namespace Poise

section CopyFailures

inductive CopyName where
  | first
  | second
deriving DecidableEq, Repr

/-- What a variable of type `struct sk_buff*` holds. -/
inductive Pointer where
  | null
  | verdict
  | original
  | copy (c : CopyName)
deriving DecidableEq, Repr

def Pointer.isPacket : Pointer → Bool
  | .null => false
  | .verdict => false
  | .original => true
  | .copy _ => true

inductive Call where
  | ipLocalOut (p : Pointer)
  | kfreeSkb (p : Pointer)
deriving DecidableEq, Repr

def Call.pointer : Call → Pointer
  | .ipLocalOut p => p
  | .kfreeSkb p => p

inductive Verdict where
  | accept
  | stolen
deriving DecidableEq, Repr

inductive Ending where
  | returned (v : Verdict)
  | panic
  | oops
deriving DecidableEq, Repr

/-- A run of `parse_tx_skb`: the copies it made, the calls with them, and how it ended. -/
structure TxRun where
  made : List (CopyName × Skb)
  calls : List Call
  ending : Ending
deriving DecidableEq, Repr

/-- Make the calls in order; one that is not given a packet is the last. -/
def perform (made : List (CopyName × Skb)) (v : Verdict) : List Call → TxRun
  | [] => { made := made, calls := [], ending := .returned v }
  | c :: cs =>
      if c.pointer.isPacket then
        let rest := perform made v cs
        { rest with calls := c :: rest.calls }
      else
        { made := made, calls := [c], ending := .oops }

/-- The pointer that `create_cxt_skb` returns, unless the kernel has stopped before. -/
def pointerTo (c : CopyName) : Created → Option Pointer
  | .badPointer => some .verdict
  | .overPanic => none
  | .skb _ => some (.copy c)

def madeBy (c : CopyName) : Created → List (CopyName × Skb)
  | .skb n => [(c, n)]
  | _ => []

/-- What follows when one copy was asked for. -/
def sendOne (made : List (CopyName × Skb)) (p : Pointer) : TxRun :=
  if p = .null then
    perform made .accept []
  else
    perform made .stolen [.ipLocalOut p, .kfreeSkb .original]

/-- What follows when two copies were asked for. -/
def sendTwo (made : List (CopyName × Skb)) (p₁ p₂ : Pointer) : TxRun :=
  if p₁ = .null ∨ p₂ = .null then
    perform made .accept
      ((if p₁ = .null then [] else [.kfreeSkb p₁]) ++ if p₂ = .null then [] else [.kfreeSkb p₂])
  else
    perform made .stolen [.ipLocalOut p₁, .ipLocalOut p₂, .kfreeSkb .original]

/-- `parse_tx_skb` with the calls it makes. -/
def txRun
    (ipFastCsum : Bytes → Nat) (fresh₁ fresh₂ : Option Bytes) (skb : Skb) : TxRun :=
  if isExempt skb then
    perform [] .accept []
  else
    let psize :=
      (((ipTotLen skb.data : Int) - 4 * ipIhl skb.data - 4 * tcpDoff skb.data) %
        4294967296).toNat
    let loptsize := 60 - 4 * tcpDoff skb.data
    if loptsize < cxtHeadLen then
      perform [] .accept []
    else if ipTotLen skb.data + cxtHeadLen > 1500 then
      let created₁ := createCxtSkb ipFastCsum fresh₁ skb 0 (toInt32 (psize / 2))
      let made₁ := madeBy .first created₁
      match pointerTo .first created₁ with
      | none => { made := made₁, calls := [], ending := .panic }
      | some p₁ =>
          let created₂ := createCxtSkb ipFastCsum fresh₂ skb (toInt32 (psize / 2))
            (toInt32 (psize - psize / 2))
          let made₂ := made₁ ++ madeBy .second created₂
          match pointerTo .second created₂ with
          | none => { made := made₂, calls := [], ending := .panic }
          | some p₂ => sendTwo made₂ p₁ p₂
    else
      let created := createCxtSkb ipFastCsum fresh₁ skb 0 (toInt32 psize)
      let made := madeBy .first created
      match pointerTo .first created with
      | none => { made := made, calls := [], ending := .panic }
      | some p => sendOne made p

/-- The packet that a call sends. -/
def sentBy (made : List (CopyName × Skb)) : Call → Option Skb
  | .ipLocalOut (.copy c) => made.lookup c
  | _ => none

/-- A run without its calls: the verdict and the packets that were sent. -/
def TxRun.outcome (r : TxRun) : TxOutcome :=
  match r.ending with
  | .returned .accept => .accept
  | .returned .stolen => .stolen (r.calls.filterMap (sentBy r.made))
  | .panic => .fault
  | .oops => .fault

/-- The runs with calls are the runs of the option insertion. -/
theorem txRun_outcome
    (ipFastCsum : Bytes → Nat)
    (fresh₁ fresh₂ : Option Bytes)
    (skb : Skb) :
    (txRun ipFastCsum fresh₁ fresh₂ skb).outcome = parseTxSkb ipFastCsum fresh₁ fresh₂ skb := by
  rw [txRun, parseTxSkb]
  split
  · rfl
  · dsimp only
    split
    · rfl
    · split
      · generalize createCxtSkb ipFastCsum fresh₁ skb 0 _ = created₁
        generalize createCxtSkb ipFastCsum fresh₂ skb _ _ = created₂
        cases created₁ with
        | badPointer =>
            cases created₂ <;> rfl
        | overPanic =>
            cases created₂ <;> rfl
        | skb n₁ =>
            cases created₂ <;> rfl
      · generalize createCxtSkb ipFastCsum fresh₁ skb 0 _ = created
        cases created <;> rfl

/-- How many copies are asked for; the second only after a first one with room for the option. -/
def copiesAsked (fresh₁ : Option Bytes) (skb : Skb) : Nat :=
  if isExempt skb ∨ 60 - 4 * tcpDoff skb.data < cxtHeadLen then
    0
  else if ipTotLen skb.data + cxtHeadLen > 1500 ∧
      (fresh₁.any fun tail => tail.length < cxtHeadLen) = false then
    2
  else
    1

/-- A copy that is asked for cannot be allocated. -/
def AllocationFails (fresh₁ fresh₂ : Option Bytes) (skb : Skb) : Prop :=
  none ∈ [fresh₁, fresh₂].take (copiesAsked fresh₁ skb)

/-- A run after which only the original packet is there, to be sent by the kernel. -/
structure Undone (r : TxRun) : Prop where
  nothingSent : ∀ p, Call.ipLocalOut p ∉ r.calls
  copiesFreed : ∀ c, c ∈ r.made → r.calls.count (.kfreeSkb (.copy c.1)) = 1
  originalKept : Call.kfreeSkb .original ∉ r.calls
  accepted : r.ending = .returned .accept

/-- The three results of `create_cxt_skb`, by the allocation. -/
theorem createCxtSkb_cases
    (ipFastCsum : Bytes → Nat)
    (fresh : Option Bytes)
    (skb : Skb)
    (offset len : Int) :
    (fresh = none ∧ createCxtSkb ipFastCsum fresh skb offset len = .badPointer) ∨
      (∃ tail, fresh = some tail ∧ tail.length < cxtHeadLen ∧
        createCxtSkb ipFastCsum fresh skb offset len = .overPanic) ∨
      ∃ tail n, fresh = some tail ∧ cxtHeadLen ≤ tail.length ∧
        createCxtSkb ipFastCsum fresh skb offset len = .skb n := by
  cases fresh with
  | none =>
      exact Or.inl ⟨rfl, rfl⟩
  | some tail =>
      by_cases hroom : cxtHeadLen ≤ tail.length
      · have hmade : ∃ n, createCxtSkb ipFastCsum (some tail) skb offset len = .skb n :=
          ⟨_, by rw [createCxtSkb, skbPut, if_pos hroom]⟩
        obtain ⟨n, hn⟩ := hmade
        exact Or.inr (Or.inr ⟨tail, n, rfl, hroom, hn⟩)
      · refine Or.inr (Or.inl ⟨tail, rfl, Nat.lt_of_not_le hroom, ?_⟩)
        rw [createCxtSkb, skbPut, if_neg hroom]

/-- With copies that were made, all calls are given packets. -/
theorem sendTwo_copies
    (made : List (CopyName × Skb)) :
    ∀ c, c ∈ (sendTwo made (.copy .first) (.copy .second)).calls → c.pointer.isPacket = true := by
  intro c hc
  have hcalls : (sendTwo made (.copy .first) (.copy .second)).calls =
      [.ipLocalOut (.copy .first), .ipLocalOut (.copy .second), .kfreeSkb .original] := rfl
  rw [hcalls] at hc
  fin_cases hc <;> rfl

theorem sendOne_copy
    (made : List (CopyName × Skb)) :
    ∀ c, c ∈ (sendOne made (.copy .first)).calls → c.pointer.isPacket = true := by
  intro c hc
  have hcalls : (sendOne made (.copy .first)).calls =
      [.ipLocalOut (.copy .first), .kfreeSkb .original] := rfl
  rw [hcalls] at hc
  fin_cases hc <;> rfl

/-- A run is given packets only, or a copy could not be made and it ends in a fault. -/
theorem txRun_packets_or_fault
    (ipFastCsum : Bytes → Nat)
    (fresh₁ fresh₂ : Option Bytes)
    (skb : Skb) :
    (¬ AllocationFails fresh₁ fresh₂ skb ∧
        ∀ c, c ∈ (txRun ipFastCsum fresh₁ fresh₂ skb).calls → c.pointer.isPacket = true) ∨
      (AllocationFails fresh₁ fresh₂ skb ∧
        (txRun ipFastCsum fresh₁ fresh₂ skb).ending ≠ .returned .accept) := by
  rw [AllocationFails, copiesAsked, txRun]
  by_cases hexempt : isExempt skb = true
  · rw [if_pos hexempt, if_pos (Or.inl hexempt)]
    exact Or.inl ⟨List.not_mem_nil, fun c hc => absurd hc List.not_mem_nil⟩
  by_cases hroom : 60 - 4 * tcpDoff skb.data < cxtHeadLen
  · simp only [if_neg hexempt, if_pos hroom, if_pos (Or.inr hroom)]
    exact Or.inl ⟨List.not_mem_nil, fun c hc => absurd hc List.not_mem_nil⟩
  simp only [if_neg hexempt, if_neg hroom, if_neg (not_or.mpr ⟨hexempt, hroom⟩)]
  generalize (((ipTotLen skb.data : Int) - 4 * ipIhl skb.data - 4 * tcpDoff skb.data) %
    4294967296).toNat = psize
  by_cases hlong : ipTotLen skb.data + cxtHeadLen > 1500
  · simp only [if_pos hlong]
    rcases createCxtSkb_cases ipFastCsum fresh₁ skb 0 (toInt32 (psize / 2)) with
      ⟨rfl, hcreated⟩ | ⟨tail, rfl, hshort, hcreated⟩ | ⟨tail, n, rfl, hfits, hcreated⟩
    · -- The second copy is asked for with the verdict in place of the first.
      rw [hcreated, if_pos ⟨hlong, rfl⟩]
      refine Or.inr ⟨List.mem_cons_self, ?_⟩
      generalize createCxtSkb ipFastCsum fresh₂ skb _ _ = created₂
      cases created₂ <;> exact Ending.noConfusion
    · rw [hcreated, if_neg (by simp [hshort])]
      exact Or.inl ⟨by simp, fun c hc => absurd hc List.not_mem_nil⟩
    · rw [hcreated, if_pos ⟨hlong, by simp [hfits]⟩]
      rcases createCxtSkb_cases ipFastCsum fresh₂ skb (toInt32 (psize / 2))
        (toInt32 (psize - psize / 2)) with
        ⟨rfl, hcreated'⟩ | ⟨tail', rfl, _, hcreated'⟩ | ⟨tail', n', rfl, _, hcreated'⟩
      · rw [hcreated']
        exact Or.inr ⟨by simp, Ending.noConfusion⟩
      · rw [hcreated']
        exact Or.inl ⟨by simp, fun c hc => absurd hc List.not_mem_nil⟩
      · rw [hcreated']
        exact Or.inl ⟨by simp, sendTwo_copies _⟩
  · have hone : ∀ x, (if ipTotLen skb.data + cxtHeadLen > 1500 ∧ x = false then 2 else 1) = 1 :=
      fun x => if_neg fun h => hlong h.1
    rw [if_neg hlong, hone]
    rcases createCxtSkb_cases ipFastCsum fresh₁ skb 0 (toInt32 psize) with
      ⟨rfl, hcreated⟩ | ⟨tail, rfl, hshort, hcreated⟩ | ⟨tail, n, rfl, hfits, hcreated⟩
    · rw [hcreated]
      exact Or.inr ⟨List.mem_cons_self, Ending.noConfusion⟩
    · rw [hcreated]
      exact Or.inl ⟨by simp, fun c hc => absurd hc List.not_mem_nil⟩
    · rw [hcreated]
      exact Or.inl ⟨by simp, sendOne_copy _⟩

/--
For every packet and all results of the allocations: a failed allocation leaves
nothing behind but the original packet, and only packets are sent or freed, if
and only if no copy that is asked for fails to be allocated.
-/
theorem failedCopy_undone_iff
    (ipFastCsum : Bytes → Nat)
    (fresh₁ fresh₂ : Option Bytes)
    (skb : Skb) :
    ((AllocationFails fresh₁ fresh₂ skb → Undone (txRun ipFastCsum fresh₁ fresh₂ skb)) ∧
        ∀ c, c ∈ (txRun ipFastCsum fresh₁ fresh₂ skb).calls → c.pointer.isPacket = true) ↔
      ¬ AllocationFails fresh₁ fresh₂ skb := by
  rcases txRun_packets_or_fault ipFastCsum fresh₁ fresh₂ skb with
    ⟨hmade, hpackets⟩ | ⟨hfails, hfault⟩
  · exact iff_of_true ⟨fun hfails => absurd hfails hmade, hpackets⟩ hmade
  · exact iff_of_false (fun h => hfault (h.1 hfails).accepted) (fun h => h hfails)

/-- The first copy of a packet of 1485 bytes is made and sent, the second is not: the verdict is
passed to `ip_local_out`. -/
theorem longPacket_second_copy_fails :
    AllocationFails (some longPacket.tail) none longPacket ∧
      (txRun (fun _ => 0) (some longPacket.tail) none longPacket).calls =
        [.ipLocalOut (.copy .first), .ipLocalOut .verdict] ∧
      ¬ Undone (txRun (fun _ => 0) (some longPacket.tail) none longPacket) := by
  have hcalls : (txRun (fun _ => 0) (some longPacket.tail) none longPacket).calls =
      [.ipLocalOut (.copy .first), .ipLocalOut .verdict] := by
    decide +kernel
  refine ⟨?_, hcalls, fun h => ?_⟩
  · rw [AllocationFails]
    decide
  · refine h.nothingSent .verdict ?_
    rw [hcalls]
    exact List.mem_cons_of_mem _ List.mem_cons_self

end CopyFailures

end Poise
