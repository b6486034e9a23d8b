import Mathlib.Tactic
import Poise.DefaultDeny

/-!
# Poise data plane: the cache keys of context and data packets

The parser sets the protocol field of the metadata for context packets only, so
the two kinds of packets of one connection hash different keys.  The main result
says exactly when a data packet that directly follows a context packet of its
connection is enforced with its decision.
-/

namespace Poise

open Foundations

section CacheKeyAgreement

namespace Connection

/-- The key a context packet of the connection is filed under. -/
def contextKey (c : Connection) : ConnKey :=
  (c.srcAddr, c.portKey, c.ipProtocol)

/-- The key a data packet of the connection is looked up with. -/
def dataKey (c : Connection) : ConnKey :=
  (c.srcAddr, c.portKey, 0)

/-- No data packet is looked up with a key of a context packet, not even of its connection. -/
theorem contextKey_ne_dataKey
    (c c' : Connection) :
    c.contextKey ≠ c'.dataKey := by
  obtain ⟨addr, port, transport⟩ := c
  cases transport <;> simp [contextKey, dataKey, ipProtocol, protoTcp, protoUdp]

end Connection

/-- An entry is fresh at the time it is written. -/
theorem isFresh_contextEntry
    (sw : Switch) (regs : Registers) (tstamp : BitVec 16) (p : Packet) :
    isFresh (contextEntry sw regs tstamp p) tstamp = true := by
  unfold isFresh contextEntry
  rw [BitVec.sub_self]
  decide

/--
A data packet that follows a context packet of its connection at the same time
and misses `conn_tab` is enforced with the decision of the context packet exactly
when their keys have the same cache index, or when the entry at the index of the
data packet was there before and says the same.
-/
theorem dataPacket_enforced_iff
    (sw : Switch) (tab tab' : ConnTab) (regs : Registers) (tstamp : BitVec 16)
    (c : Connection) (k k' : BitVec 8) (hdr hdr' : PoiseH)
    (hmiss : tab' c.dataKey = none) :
    (ingressPass sw tab' (ingressPass sw tab regs tstamp (c.contextPacket k hdr)).regs tstamp
        (c.dataPacket k' hdr')).enforced =
      some (.cacheDec (contextDecision sw regs (c.contextPacket k hdr))) ↔
    sw.slot c.contextKey = sw.slot c.dataKey ∨
      ((regs.entry (sw.slot c.dataKey)).srcIp = c.srcAddr ∧
        isFresh (regs.entry (sw.slot c.dataKey)) tstamp = true ∧
        (regs.entry (sw.slot c.dataKey)).dec.setWidth 4 =
          contextDecision sw regs (c.contextPacket k hdr)) := by
  have hdataOf := dataOf_dataPacket c k' hdr'
  have hctxOf := contextOf_contextPacket c k hdr
  have hdkey : (c.dataPacket k' hdr').key = c.dataKey := key_of_dataOf hdataOf
  have hckey : (c.contextPacket k hdr).key = c.contextKey := key_of_contextOf hctxOf
  have hctx := ingressPass_context sw tab regs tstamp hctxOf
  have hpass :=
    ingressPass_data sw tab' (ingressPass sw tab regs tstamp (c.contextPacket k hdr)).regs tstamp
      (parse_of_dataOf hdataOf).1
  have henf := hpass.miss (by rw [hdkey]; exact hmiss)
  have hentry := hctx.entries (sw.slot c.dataKey)
  rw [hckey] at hentry
  rw [hdkey] at henf
  rw [henf, hentry]
  by_cases hslot : sw.slot c.dataKey = sw.slot c.contextKey
  · -- the data packet reads back what the context packet just wrote
    have hkeyAddr : c.dataKey.1 = (c.contextPacket k hdr).key.1 := by
      rw [hckey]
      rfl
    rw [if_pos hslot, if_pos ⟨hkeyAddr.symm, isFresh_contextEntry sw regs tstamp _⟩]
    have hdec :
        (contextEntry sw regs tstamp (c.contextPacket k hdr)).dec.setWidth 4 =
          contextDecision sw regs (c.contextPacket k hdr) :=
      BitVec.setWidth_setWidth_of_le _ (by decide)
    rw [hdec]
    exact iff_of_true rfl (Or.inl hslot.symm)
  · have haddr : c.dataKey.1 = c.srcAddr := rfl
    rw [if_neg hslot, haddr]
    have hslot' : ¬ sw.slot c.contextKey = sw.slot c.dataKey := fun h => hslot h.symm
    by_cases hhit :
        (regs.entry (sw.slot c.dataKey)).srcIp = c.srcAddr ∧
          isFresh (regs.entry (sw.slot c.dataKey)) tstamp = true
    · rw [if_pos hhit]
      simp [hslot', hhit.1, hhit.2]
    · rw [if_neg hhit]
      constructor
      · intro h
        cases h
      · rintro (h | ⟨h₁, h₂, _⟩)
        · exact absurd h hslot'
        · exact absurd ⟨h₁, h₂⟩ hhit

/--
Under every code of 16 bits the two keys of a connection have different cache
indices, so its data packets never read what its context packets wrote.
-/
theorem slot_contextKey_ne_dataKey
    (sw : Switch)
    (crc : Crc 16)
    (c : Connection) :
    (sw.withCrc crc).slot c.contextKey ≠ (sw.withCrc crc).slot c.dataKey := by
  intro hslot
  have hproto : c.ipProtocol = 0 :=
    crcCacheHash_protocol_injective crc c.portKey c.srcAddr hslot
  obtain ⟨addr, port, transport⟩ := c
  cases transport <;> simp [Connection.ipProtocol, protoTcp, protoUdp] at hproto

/-- The registers behind a context packet of the client's neighbour. -/
def behindNeighbour : Registers :=
  (ingressPass plainSwitch emptyConnTab Registers.zero 5
    (neighbour.contextPacket 0 (fun _ => 0))).regs

/-- Behind its neighbour the client's data packet finds the same decision as its own. -/
theorem tcpClient_enforced :
    (ingressPass plainSwitch emptyConnTab
        (ingressPass plainSwitch emptyConnTab behindNeighbour 5
          (tcpClient.contextPacket 0 (fun _ => 0))).regs 5
        (tcpClient.dataPacket 0 (fun _ => 0))).enforced =
      some (.cacheDec 0) :=
  (dataPacket_enforced_iff plainSwitch emptyConnTab emptyConnTab behindNeighbour 5 tcpClient 0 0
    (fun _ => 0) (fun _ => 0) rfl).mpr (Or.inr (by decide +kernel))

/-- From reset the client's data packet does not find the decision of its context packet. -/
theorem tcpClient_not_enforced :
    contextDecision plainSwitch Registers.zero (tcpClient.contextPacket 0 (fun _ => 0)) = 0 ∧
      (ingressPass plainSwitch emptyConnTab
        (ingressPass plainSwitch emptyConnTab Registers.zero 5
          (tcpClient.contextPacket 0 (fun _ => 0))).regs 5
        (tcpClient.dataPacket 0 (fun _ => 0))).enforced ≠
      some (.cacheDec 0) := by
  decide +kernel

end CacheKeyAgreement

end Poise
