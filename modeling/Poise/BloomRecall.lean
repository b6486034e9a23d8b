import Mathlib.Tactic
import Poise.PacketTermination

/-!
# Poise data plane: what the Bloom filter recalls

When a context packet evicts a drop decision of another address from its cache
index, the key of the evicted entry is put into the Bloom filter.  A later data
packet of that connection should find it there.

The three hashes are computed over the fields of the entry that a packet found
in the cache.  For the evicting context packet that is the evicted entry; for the
data packet it is the entry at the index where data packets of its connection look.
So the data packet asks for a key that is, in general, not in the filter.
-/

namespace Poise

open Foundations

section BloomRecall

/-- The entry a packet finds after a run. -/
def entryFor (sw : Switch) (inputs : List PassInput) (a : PassInput) : CacheEntry :=
  (afterInputs sw inputs).entry (sw.slot a.packet.key)

/-- A pass of a run that evicted the drop decision of another address. -/
def EvictsDrop (sw : Switch) (q : Registers × PassInput) : Prop :=
  q.2.packet.isContext = true ∧ (foundEntry sw q).srcIp ≠ q.2.packet.key.1 ∧
    (foundEntry sw q).dec.setWidth 4 = decDrop

instance (sw : Switch) (q : Registers × PassInput) : Decidable (EvictsDrop sw q) :=
  inferInstanceAs (Decidable (_ ∧ _ ∧ _))

/--
A data packet of a connection whose drop decision has been evicted by another
address: it misses `conn_tab` and finds the decision of another address where it looks.
-/
structure EvictedCollision (sw : Switch) (inputs : List PassInput) (a : PassInput) : Prop where
  later : a.packet.isContext = false
  evicted : ∃ q, q ∈ inputHistory sw inputs ∧ EvictsDrop sw q ∧
    (foundEntry sw q).srcIp = a.packet.key.1 ∧ (foundEntry sw q).srcPort = a.packet.key.2.1
  miss : a.tab a.packet.key = none
  foreign : (entryFor sw inputs a).srcIp ≠ a.packet.key.1
  occupied : (entryFor sw inputs a).dec.setWidth 4 ≠ (0 : BitVec 4)

/-- The packet reads one from all three arrays. -/
def ReadsAllOnes (out : PassState) : Prop :=
  out.metadata.bf1Val = 1 ∧ out.metadata.bf2Val = 1 ∧ out.metadata.bf3Val = 1

instance (out : PassState) : Decidable (ReadsAllOnes out) :=
  inferInstanceAs (Decidable (_ ∧ _))

/-- A cell of the Bloom filter holds zero or one. -/
theorem bloomBit_afterInputs_cases
    (sw : Switch) (inputs : List PassInput) (f : BloomArray) (i : Fin bfSize) :
    (afterInputs sw inputs).bloomBit f i = 0 ∨ (afterInputs sw inputs).bloomBit f i = 1 := by
  refine foldl_invariant (P := fun r : Registers => r.bloomBit f i = 0 ∨ r.bloomBit f i = 1)
    ?_ ?_ inputs
  · intro regs a hregs
    rw [inputStep_bloomBit]
    split
    · exact Or.inr rfl
    · exact hregs
  · left
    cases f <;> rfl

/-- The cells of an entry are all set when evictions into all of them have been seen. -/
theorem bloomFull_afterInputs_iff
    (sw : Switch) (inputs : List PassInput) (e : CacheEntry) :
    BloomFull sw (afterInputs sw inputs) e ↔
      ∀ f, ∃ q, q ∈ inputHistory sw inputs ∧ EvictsInto sw f (sw.bloomCell f e) q := by
  apply forall_congr'
  intro f
  rw [← bloomBit_afterInputs]
  rcases bloomBit_afterInputs_cases sw inputs f (sw.bloomCell f e) with hbit | hbit
  · rw [hbit]
    decide
  · rw [hbit]
    decide

/--
Over every run from reset and for every data packet of an evicted connection
that collides: it reads one from all three arrays if and only if, for each array,
an earlier context pass evicted a drop decision of another address into the cell
of the entry that is now at its index.
-/
theorem evictedCollision_reads_iff
    (sw : Switch)
    (inputs : List PassInput)
    (a : PassInput)
    (h : EvictedCollision sw inputs a) :
    ReadsAllOnes (ingressPass sw a.tab (afterInputs sw inputs) a.tstamp a.packet) ↔
      ∀ f, ∃ q, q ∈ inputHistory sw inputs ∧
        EvictsInto sw f (sw.bloomCell f (entryFor sw inputs a)) q := by
  have hnone : a.packet.contextOf = none := by
    simpa [Packet.isContext] using h.later
  obtain ⟨s, hs⟩ := exists_dataLookup sw a.tab (afterInputs sw inputs) a.tstamp hnone
  have hfound : s.regs.entry (cacheHashCalc sw s) = entryFor sw inputs a := by
    rw [hs.registers, hs.slot]
    rfl
  rw [ReadsAllOnes, hs.out, enforce_metadata,
    lookup_bloomVals sw a.tab a.tstamp hs.contextPred
      (by rw [hfound, hs.addr]; exact h.foreign) (by rw [hfound]; exact h.occupied),
    hfound, hs.registers, bloomFull_afterInputs_iff]

/-- A policy that drops one value, on a switch whose Bloom filter hashes the address. -/
def recallSwitch (bloom : BitVec 32 → Fin bfSize) : Switch :=
  { switchFor oneHeader with
    bf1Hash := fun _ addr _ => bloom addr
    bf2Hash := fun _ addr _ => bloom addr
    bf3Hash := fun _ addr _ => bloom addr }

/-- A connection of another address whose context packets are filed where the client's are. -/
def evictor : Connection :=
  { stranger with srcPort := 61743 }

/-- The context packet of a connection that is to be dropped. -/
def droppedContext (c : Connection) (tstamp : BitVec 16) : PassInput :=
  { packet := c.contextPacket 0 (fun _ => 1), tstamp := tstamp, tab := emptyConnTab }

/--
The client is dropped and evicted from its index, and behind that a connection is
dropped that is filed where the client's data packets look.
-/
def droppedClients : List PassInput :=
  [droppedContext tcpClient 5, droppedContext evictor 6, droppedContext squatter 7]

/-- A data packet of the client behind them. -/
def evictedData : PassInput :=
  { packet := tcpClient.dataPacket 0 (fun _ => 0), tstamp := 8, tab := emptyConnTab }

theorem bfSize_pos : 0 < bfSize := by
  decide

/-- All addresses in one cell. -/
def oneCell : BitVec 32 → Fin bfSize :=
  fun _ => ⟨0, bfSize_pos⟩

/-- Neighbouring addresses in different cells. -/
def cellOfAddress : BitVec 32 → Fin bfSize :=
  fun addr => ⟨addr.toNat % bfSize, Nat.mod_lt _ bfSize_pos⟩

/-- The pass that evicts the client, with the registers it finds. -/
def evictingPass (sw : Switch) : Registers × PassInput :=
  (inputStep sw Registers.zero (droppedContext tcpClient 5), droppedContext evictor 6)

theorem evictingPass_mem
    (sw : Switch) :
    evictingPass sw ∈ inputHistory sw droppedClients :=
  List.mem_cons_of_mem _ List.mem_cons_self

/-- The theorem when all addresses share a cell: the first eviction has set it. -/
theorem evictedData_reads_oneCell :
    ReadsAllOnes (ingressPass (recallSwitch oneCell) evictedData.tab
      (afterInputs (recallSwitch oneCell) droppedClients) evictedData.tstamp
      evictedData.packet) := by
  have hevicts : EvictedCollision (recallSwitch oneCell) droppedClients evictedData :=
    ⟨by decide +kernel,
      ⟨_, evictingPass_mem _, by decide +kernel, by decide +kernel, by decide +kernel⟩,
      by decide +kernel, by decide +kernel, by decide +kernel⟩
  refine (evictedCollision_reads_iff _ _ _ hevicts).mpr (fun f => ?_)
  refine ⟨_, evictingPass_mem _, ?_⟩
  cases f <;> decide +kernel

/-- The client was dropped and evicted, and its data packet reads zeros and recirculates. -/
theorem evictedData_not_recalled :
    EvictedCollision (recallSwitch cellOfAddress) droppedClients evictedData ∧
      ¬ ReadsAllOnes (ingressPass (recallSwitch cellOfAddress) evictedData.tab
        (afterInputs (recallSwitch cellOfAddress) droppedClients) evictedData.tstamp
        evictedData.packet) ∧
      (ingressPass (recallSwitch cellOfAddress) evictedData.tab
        (afterInputs (recallSwitch cellOfAddress) droppedClients) evictedData.tstamp
        evictedData.packet).egressPort = recirPort :=
  ⟨⟨by decide +kernel,
      ⟨_, evictingPass_mem _, by decide +kernel, by decide +kernel, by decide +kernel⟩,
      by decide +kernel, by decide +kernel, by decide +kernel⟩,
    by decide +kernel, by decide +kernel⟩

end BloomRecall

end Poise
