import Mathlib.Tactic
import Poise.CacheExpiry

/-!
# Poise data plane: the cache index and the port

The cache index of a packet is a cyclic redundancy code of 16 bits over port,
address and protocol, in this order.  The hit test compares the address only;
the comparison of the port is commented out in the source.

The port has as many bits as the code.  Therefore two packets with the same
address and protocol that share an index have the same port, and a pass that
also compared the port would be the same pass.  The port is the field of the TCP
header as the pipeline reads it, which is zero for all UDP packets: two TCP
connections of an address never share an index, and all its UDP connections do.
-/

namespace Poise

open Foundations

section CacheIndexing

/-- All UDP connections of an address share one index: their port is not among the fields. -/
theorem slot_of_udp
    (sw : Switch)
    {x y : Packet} {c d : Connection}
    (hc : x.contextOf = some c)
    (hd : y.contextOf = some d)
    (hcu : c.transport = .udp)
    (hdu : d.transport = .udp)
    (haddr : c.srcAddr = d.srcAddr) :
    sw.slot x.key = sw.slot y.key := by
  rw [key_of_contextOf hc, key_of_contextOf hd, haddr]
  simp only [Connection.portKey, Connection.ipProtocol, hcu, hdu]

/-- The classification with the comparison that is commented out. -/
def classifyCacheWithPort (sw : Switch) (s : PassState) : PassState :=
  if s.metadata.cacheSrcIp = s.hdr.srcAddr ∧ s.metadata.cacheSrcPort = s.hdr.tcpPort then
    setCacheHit s
  else if s.metadata.cacheDec = 0 then
    setCacheEmpty s
  else
    handleBf3 sw (handleBf2 sw (handleBf1 sw s))

/-- The middle part of `MyIngress` with that classification. -/
def lookupWithPort (sw : Switch) (tab : ConnTab) (tstamp : BitVec 16) (s : PassState) :
    PassState :=
  classifyCacheWithPort sw
    (accessConnDecision
      (accessCache sw
        (applyConnTab tab
          (splitTstamp tstamp s))))

/-- One pass of a packet with that classification. -/
def ingressPassWithPort
    (sw : Switch) (tab : ConnTab) (regs : Registers) (tstamp : BitVec 16) (p : Packet) :
    PassState :=
  let s : PassState := { hdr := (parse p).1, metadata := (parse p).2, regs := regs }
  let s := if s.metadata.isContext ≠ 0 then evaluateContext sw s else s
  enforce sw (lookupWithPort sw tab tstamp s)

/-- The comparison is redundant where the address alone implies it. -/
theorem classifyCacheWithPort_eq
    (sw : Switch)
    {s : PassState}
    (h : s.metadata.cacheSrcIp = s.hdr.srcAddr → s.metadata.cacheSrcPort = s.hdr.tcpPort) :
    classifyCacheWithPort sw s = classifyCache sw s := by
  simp only [classifyCacheWithPort, classifyCache, and_iff_left_of_imp h]

/-- The same for the entry that the lookup finds. -/
theorem lookupWithPort_eq
    (sw : Switch) (tab : ConnTab) (tstamp : BitVec 16)
    {s : PassState}
    (h : (s.regs.entry (cacheHashCalc sw s)).srcIp = s.hdr.srcAddr →
      (s.regs.entry (cacheHashCalc sw s)).srcPort = s.hdr.tcpPort) :
    lookupWithPort sw tab tstamp s = lookup sw tab tstamp s := by
  obtain ⟨_, _, _, _, hbefore, _⟩ := exists_beforeClassify sw tab tstamp s
  rw [lookupWithPort, lookup, hbefore]
  exact classifyCacheWithPort_eq sw h

/-- The same for a whole pass. -/
theorem ingressPassWithPort_eq
    (sw : Switch) (tab : ConnTab) (regs : Registers) (tstamp : BitVec 16)
    {p : Packet}
    (h : (regs.entry (sw.slot p.key)).srcIp = p.key.1 →
      (regs.entry (sw.slot p.key)).srcPort = p.key.2.1) :
    ingressPassWithPort sw tab regs tstamp p = ingressPass sw tab regs tstamp p := by
  rw [ingressPassWithPort, ingressPass, myIngress]
  refine congrArg (enforce sw) (lookupWithPort_eq sw tab tstamp ?_)
  split
  · rw [evaluateContext_eq]
    exact h
  · exact h

/-- In every run, an entry of the packet's address and protocol has the packet's port. -/
theorem srcPort_of_srcIp
    {sw : Switch} {crc : Crc 16} {inputs : List PassInput} {k : ConnKey}
    (hempty : lastContextPass (sw.withCrc crc) inputs ((sw.withCrc crc).slot k) = none → k.1 ≠ 0)
    (hproto : ∀ q,
      lastContextPass (sw.withCrc crc) inputs ((sw.withCrc crc).slot k) = some q →
        q.2.packet.key.2.2 = k.2.2)
    (hip : ((afterInputs (sw.withCrc crc) inputs).entry ((sw.withCrc crc).slot k)).srcIp = k.1) :
    ((afterInputs (sw.withCrc crc) inputs).entry ((sw.withCrc crc).slot k)).srcPort = k.2.1 := by
  rw [entry_afterInputs] at hip ⊢
  cases hlast : lastContextPass (sw.withCrc crc) inputs ((sw.withCrc crc).slot k) with
  | none =>
      rw [hlast] at hip
      exact absurd hip.symm (hempty hlast)
  | some q =>
      rw [hlast] at hip
      have hkey : q.2.packet.key = k :=
        key_eq_of_slot_eq hip (hproto q hlast) (lastContextPass_spec hlast).2.2
      exact congrArg (fun k => k.2.1) hkey

/-- Two connections of an address and a transport share an index only as one, except over UDP. -/
theorem slot_separates_iff
    (sw : Switch) (crc : Crc 16)
    {x y : Packet} {c d : Connection}
    (hc : x.contextOf = some c)
    (hd : y.contextOf = some d)
    (haddr : c.srcAddr = d.srcAddr)
    (htransport : c.transport = d.transport) :
    ((sw.withCrc crc).slot x.key = (sw.withCrc crc).slot y.key → c = d) ↔
      c.transport = .tcp ∨ c.srcPort = d.srcPort := by
  cases ht : c.transport with
  | tcp =>
      have hdt : d.transport = .tcp := htransport.symm.trans ht
      refine iff_of_true ?_ (Or.inl rfl)
      intro hslot
      rw [key_of_contextOf hc, key_of_contextOf hd] at hslot
      have hproto : c.ipProtocol = d.ipProtocol := by
        simp only [Connection.ipProtocol, htransport]
      have hkey := congrArg (fun k : ConnKey => k.2.1) (key_eq_of_slot_eq haddr hproto hslot)
      have hport : c.srcPort = d.srcPort := by
        simpa only [Connection.portKey, ht, hdt] using hkey
      rw [Connection.mk.injEq]
      exact ⟨haddr, hport, htransport⟩
  | udp =>
      have hslot := slot_of_udp (sw.withCrc crc) hc hd ht (htransport.symm.trans ht) haddr
      constructor
      · intro hsame
        exact Or.inr (congrArg Connection.srcPort (hsame hslot))
      · rintro (htcp | hport) _
        · cases htcp
        · rw [Connection.mk.injEq]
          exact ⟨haddr, hport, htransport⟩

/--
For every code with a generator of degree 16 and a non-zero constant term: the
index over a port, an address and a protocol determines the port when address and
protocol are given.  So two packets with the same address and `meta.ip_protocol`
at one index have the same key.  Context packets of two connections of one address
and one transport share an index only if the connections are the same, if and only
if the transport is TCP or the ports are equal.  In every run from reset, a packet
that finds an entry of its own protocol (or an index never written) passes the
switch in the same way when the hit test also compares the port.
-/
theorem cacheIndex_determines_port
    (sw : Switch)
    (crc : Crc 16) :
    (∀ p₁ p₂ a q, crcCacheHash crc p₁ a q = crcCacheHash crc p₂ a q → p₁ = p₂) ∧
    (∀ x y : Packet,
      x.key.1 = y.key.1 → x.key.2.2 = y.key.2.2 →
        (sw.withCrc crc).slot x.key = (sw.withCrc crc).slot y.key → x.key = y.key) ∧
    (∀ (x y : Packet) (c d : Connection),
      x.contextOf = some c → y.contextOf = some d →
        c.srcAddr = d.srcAddr → c.transport = d.transport →
        (((sw.withCrc crc).slot x.key = (sw.withCrc crc).slot y.key → c = d) ↔
          c.transport = .tcp ∨ c.srcPort = d.srcPort)) ∧
    (∀ (inputs : List PassInput) (a : PassInput),
      (lastContextPass (sw.withCrc crc) inputs ((sw.withCrc crc).slot a.packet.key) = none →
        a.packet.key.1 ≠ 0) →
      (∀ q,
        lastContextPass (sw.withCrc crc) inputs ((sw.withCrc crc).slot a.packet.key) = some q →
          q.2.packet.key.2.2 = a.packet.key.2.2) →
      ingressPassWithPort (sw.withCrc crc) a.tab (afterInputs (sw.withCrc crc) inputs) a.tstamp
          a.packet =
        ingressPass (sw.withCrc crc) a.tab (afterInputs (sw.withCrc crc) inputs) a.tstamp
          a.packet) := by
  refine ⟨?_, ?_, ?_, ?_⟩
  · intro p₁ p₂ a q h
    exact crcCacheHash_port_injective crc a q h
  · intro x y haddr hproto hslot
    exact key_eq_of_slot_eq haddr hproto hslot
  · intro x y c d hc hd haddr htransport
    exact slot_separates_iff sw crc hc hd haddr htransport
  · intro inputs a hempty hproto
    exact ingressPassWithPort_eq _ a.tab _ a.tstamp (srcPort_of_srcIp hempty hproto)

/--
The theorem on two TCP connections of an address, which have different indices, and
on the second context packet of a client.
-/
theorem cacheIndex_determines_port_crc16 :
    (plainSwitch.withCrc crc16).slot (tcpClient.contextPacket 0 (fun _ => 0)).key ≠
        (plainSwitch.withCrc crc16).slot (neighbour.contextPacket 0 (fun _ => 0)).key ∧
      ingressPassWithPort (plainSwitch.withCrc crc16) (contextAt 1).tab
          (afterInputs (plainSwitch.withCrc crc16) [contextAt 0]) (contextAt 1).tstamp
          (contextAt 1).packet =
        ingressPass (plainSwitch.withCrc crc16) (contextAt 1).tab
          (afterInputs (plainSwitch.withCrc crc16) [contextAt 0]) (contextAt 1).tstamp
          (contextAt 1).packet := by
  obtain ⟨_, _, hconn, hpass⟩ := cacheIndex_determines_port plainSwitch crc16
  refine ⟨?_, hpass [contextAt 0] (contextAt 1) ?_ ?_⟩
  · have hsep := (hconn _ _ _ _ (contextOf_contextPacket tcpClient 0 (fun _ => 0))
      (contextOf_contextPacket neighbour 0 (fun _ => 0)) rfl rfl).mpr (Or.inl rfl)
    intro hslot
    have hports := congrArg Connection.srcPort (hsep hslot)
    simp [tcpClient, neighbour] at hports
  · intro _
    decide
  · intro q hq
    have hq' : q = (Registers.zero, contextAt 0) := by
      simpa [inputHistory, trace] using (lastContextPass_spec hq).1
    rw [hq']
    rfl

/-- A connection of the client's address over UDP. -/
def udpClient (port : BitVec 16) : Connection :=
  { tcpClient with srcPort := port, transport := .udp }

/-- Two UDP connections of the client with different ports share a slot. -/
theorem udpClient_share_slot :
    udpClient 4000 ≠ udpClient 4001 ∧
      ((udpClient 4000).contextPacket 0 (fun _ => 0)).contextOf = some (udpClient 4000) ∧
      ((udpClient 4001).contextPacket 0 (fun _ => 0)).contextOf = some (udpClient 4001) ∧
      (plainSwitch.withCrc crc16).slot ((udpClient 4000).contextPacket 0 (fun _ => 0)).key =
        (plainSwitch.withCrc crc16).slot ((udpClient 4001).contextPacket 0 (fun _ => 0)).key := by
  refine ⟨?_, contextOf_contextPacket _ 0 _, contextOf_contextPacket _ 0 _, rfl⟩
  intro h
  have hports := congrArg Connection.srcPort h
  simp [udpClient] at hports

end CacheIndexing

end Poise
