import Mathlib.Tactic
import Poise.ContextEvaluation

/-!
# Poise data plane: packets and the parser

A packet is given by the fields the pipeline reads, at the places where the
parser finds them.  TCP and UDP headers both begin with the source port, so one
field stands for it.  The parser follows the select statements of the source
and returns the headers it extracted and the metadata it set; a field of a
header that was not extracted reads as zero.
-/

namespace Poise

section PacketParser

def typeIpv4 : BitVec 16 := 0x800

def protoTcp : BitVec 8 := 0x06

def protoUdp : BitVec 8 := 0x11

def protoPoiseTcp : BitVec 8 := 143

def protoPoiseUdp : BitVec 8 := 0x90

def maxConnRegsPerMau : BitVec 20 := 57000

/-- The fields of a packet on the wire. -/
structure Packet where
  etherType : BitVec 16
  protocol : BitVec 8
  srcAddr : BitVec 32
  srcPort : BitVec 16
  recirCounter : BitVec 8
  poiseH : PoiseH

/-- Extracted IPv4 header. -/
structure Ipv4Header where
  protocol : BitVec 8
  srcAddr : BitVec 32
deriving DecidableEq, Repr

/-- The headers of one pass; a header is present when the parser extracted it. -/
structure Headers where
  etherType : BitVec 16 := 0
  ipv4 : Option Ipv4Header := none
  tcpSrcPort : Option (BitVec 16) := none
  udpSrcPort : Option (BitVec 16) := none
  recirCounter : Option (BitVec 8) := none
  poiseH : Option PoiseH := none

namespace Headers

/-- `ipv4.srcAddr` as the pipeline reads it. -/
def srcAddr (h : Headers) : BitVec 32 :=
  (h.ipv4.map Ipv4Header.srcAddr).getD 0

/-- `tcp.srcPort` as the pipeline reads it. -/
def tcpPort (h : Headers) : BitVec 16 :=
  h.tcpSrcPort.getD 0

/-- `log.recir_counter` as the pipeline reads it. -/
def counter (h : Headers) : BitVec 8 :=
  h.recirCounter.getD 0

/-- The policy headers as the pipeline reads them. -/
def poise (h : Headers) : PoiseH :=
  h.poiseH.getD (fun _ => 0)

end Headers

/-- User metadata; every field is zero when a pass begins. -/
structure Metadata where
  tstampHigh32 : BitVec 32 := 0
  tstampHigh32Outdated : BitVec 16 := 0
  cacheSrcIp : BitVec 32 := 0
  cacheSrcPort : BitVec 16 := 0
  cacheProtoc : BitVec 8 := 0
  connIdx : BitVec 20 := 0
  connIdx2 : BitVec 20 := 0
  ctxDec : BitVec 4 := 0
  cacheDec : BitVec 4 := 0
  connDec : BitVec 4 := 0
  bf1Val : BitVec 1 := 0
  bf2Val : BitVec 1 := 0
  bf3Val : BitVec 1 := 0
  isContext : BitVec 1 := 0
  ipProtocol : BitVec 8 := 0
  cacheHit : BitVec 2 := 0
  connIdxOffset : BitVec 20 := 0
  connMiss : BitVec 1 := 0
deriving DecidableEq, Repr

/-- What the parser hands to the ingress pipeline. -/
abbrev Parsed : Type := Headers × Metadata

def parseTcp (p : Packet) (s : Parsed) : Parsed :=
  ({ s.1 with tcpSrcPort := some p.srcPort }, s.2)

def parseUdp (p : Packet) (s : Parsed) : Parsed :=
  ({ s.1 with udpSrcPort := some p.srcPort }, s.2)

def parsePoise (p : Packet) (s : Parsed) : Parsed :=
  ({ s.1 with poiseH := some p.poiseH }, s.2)

def parseLog (p : Packet) (s : Parsed) : Parsed :=
  parsePoise p ({ s.1 with recirCounter := some p.recirCounter }, s.2)

def parsePoiseTcp (p : Packet) (s : Parsed) : Parsed :=
  parseLog p
    ({ s.1 with tcpSrcPort := some p.srcPort },
      { s.2 with isContext := 1, ipProtocol := protoTcp })

def parsePoiseUdp (p : Packet) (s : Parsed) : Parsed :=
  ({ s.1 with
      udpSrcPort := some p.srcPort
      recirCounter := some p.recirCounter
      poiseH := some p.poiseH },
    { s.2 with isContext := 1, ipProtocol := protoUdp })

def parseIpv4 (p : Packet) (s : Parsed) : Parsed :=
  let s : Parsed :=
    ({ s.1 with ipv4 := some { protocol := p.protocol, srcAddr := p.srcAddr } }, s.2)
  if p.protocol = protoTcp then parseTcp p s
  else if p.protocol = protoUdp then parseUdp p s
  else if p.protocol = protoPoiseTcp then parsePoiseTcp p s
  else if p.protocol = protoPoiseUdp then parsePoiseUdp p s
  else s

def parseEthernet (p : Packet) (s : Parsed) : Parsed :=
  let s : Parsed := ({ s.1 with etherType := p.etherType }, s.2)
  if p.etherType = typeIpv4 then parseIpv4 p s else s

/-- The parser state `start`. -/
def parse (p : Packet) : Parsed :=
  parseEthernet p ({}, { connIdxOffset := maxConnRegsPerMau })

/-- The packet a pass emits: of the headers it may change, only the counter. -/
def deparse (p : Packet) (h : Headers) : Packet :=
  { p with recirCounter := h.recirCounter.getD p.recirCounter }

/-- The transport protocol of a connection. -/
inductive Transport where
  | tcp
  | udp
deriving DecidableEq, Repr

/-- A connection as its client sees it. -/
structure Connection where
  srcAddr : BitVec 32
  srcPort : BitVec 16
  transport : Transport
deriving DecidableEq, Repr

namespace Connection

/-- The protocol number the parser puts into the metadata of a context packet. -/
def ipProtocol (c : Connection) : BitVec 8 :=
  match c.transport with
  | .tcp => protoTcp
  | .udp => protoUdp

/-- The port the pipeline reads: of a UDP packet the TCP header is not parsed. -/
def portKey (c : Connection) : BitVec 16 :=
  match c.transport with
  | .tcp => c.srcPort
  | .udp => 0

/-- A context packet of the connection. -/
def contextPacket (c : Connection) (recirCounter : BitVec 8) (poiseH : PoiseH) : Packet :=
  { etherType := typeIpv4
    protocol :=
      match c.transport with
      | .tcp => protoPoiseTcp
      | .udp => protoPoiseUdp
    srcAddr := c.srcAddr
    srcPort := c.srcPort
    recirCounter := recirCounter
    poiseH := poiseH }

/-- A data packet of the connection; whatever follows the transport header is not parsed. -/
def dataPacket (c : Connection) (recirCounter : BitVec 8) (poiseH : PoiseH) : Packet :=
  { etherType := typeIpv4
    protocol := c.ipProtocol
    srcAddr := c.srcAddr
    srcPort := c.srcPort
    recirCounter := recirCounter
    poiseH := poiseH }

end Connection

namespace Packet

/-- The connection a packet announces a context for. -/
def contextOf (p : Packet) : Option Connection :=
  if p.etherType = typeIpv4 ∧ p.protocol = protoPoiseTcp then
    some { srcAddr := p.srcAddr, srcPort := p.srcPort, transport := .tcp }
  else if p.etherType = typeIpv4 ∧ p.protocol = protoPoiseUdp then
    some { srcAddr := p.srcAddr, srcPort := p.srcPort, transport := .udp }
  else
    none

/-- The connection a data packet belongs to; other frames belong to none. -/
def dataOf (p : Packet) : Option Connection :=
  if p.etherType = typeIpv4 ∧ p.protocol = protoTcp then
    some { srcAddr := p.srcAddr, srcPort := p.srcPort, transport := .tcp }
  else if p.etherType = typeIpv4 ∧ p.protocol = protoUdp then
    some { srcAddr := p.srcAddr, srcPort := p.srcPort, transport := .udp }
  else
    none

/-- The parser marks the packet as a context packet. -/
def isContext (p : Packet) : Bool :=
  p.contextOf.isSome

end Packet

/-- What the parser makes of a context packet. -/
theorem parse_of_contextOf
    {p : Packet} {c : Connection}
    (h : p.contextOf = some c) :
    (parse p).1.srcAddr = c.srcAddr ∧
      (parse p).1.tcpPort = c.portKey ∧
      (parse p).1.recirCounter = some p.recirCounter ∧
      (parse p).1.poise = p.poiseH ∧
      (parse p).2 =
        { connIdxOffset := maxConnRegsPerMau, isContext := 1, ipProtocol := c.ipProtocol } := by
  unfold Packet.contextOf at h
  split at h
  · rename_i hp
    cases h
    have hparse :
        parse p = parsePoiseTcp p
          ({ etherType := p.etherType,
             ipv4 := some { protocol := p.protocol, srcAddr := p.srcAddr } },
            { connIdxOffset := maxConnRegsPerMau }) := by
      simp [parse, parseEthernet, parseIpv4, hp.1, hp.2, protoTcp, protoUdp, protoPoiseTcp]
    rw [hparse]
    exact ⟨rfl, rfl, rfl, rfl, rfl⟩
  · split at h
    · rename_i hp
      cases h
      have hparse :
          parse p = parsePoiseUdp p
            ({ etherType := p.etherType,
               ipv4 := some { protocol := p.protocol, srcAddr := p.srcAddr } },
              { connIdxOffset := maxConnRegsPerMau }) := by
        simp [parse, parseEthernet, parseIpv4, hp.1, hp.2, protoTcp, protoUdp, protoPoiseTcp,
          protoPoiseUdp]
      rw [hparse]
      exact ⟨rfl, rfl, rfl, rfl, rfl⟩
    · cases h

/-- Of any other packet the parser sets no metadata but the constant, and extracts no counter. -/
theorem parse_of_not_context
    {p : Packet}
    (h : p.contextOf = none) :
    (parse p).1.recirCounter = none ∧
      (parse p).2 = { connIdxOffset := maxConnRegsPerMau } := by
  unfold Packet.contextOf at h
  split at h
  · cases h
  · rename_i htcp
    split at h
    · cases h
    · rename_i hudp
      unfold parse parseEthernet
      by_cases hether : p.etherType = typeIpv4
      · have hnotTcp : p.protocol ≠ protoPoiseTcp := fun heq => htcp ⟨hether, heq⟩
        have hnotUdp : p.protocol ≠ protoPoiseUdp := fun heq => hudp ⟨hether, heq⟩
        simp only [hether, if_true, parseIpv4, hnotTcp, hnotUdp, if_false]
        split
        · exact ⟨rfl, rfl⟩
        · split
          · exact ⟨rfl, rfl⟩
          · exact ⟨rfl, rfl⟩
      · rw [if_neg hether]
        exact ⟨rfl, rfl⟩

/-- What the parser makes of a data packet of a connection. -/
theorem parse_of_dataOf
    {p : Packet} {c : Connection}
    (h : p.dataOf = some c) :
    p.contextOf = none ∧
      (parse p).1.srcAddr = c.srcAddr ∧
      (parse p).1.tcpPort = c.portKey := by
  unfold Packet.dataOf at h
  split at h
  · rename_i hp
    cases h
    have hparse :
        parse p = parseTcp p
          ({ etherType := p.etherType,
             ipv4 := some { protocol := p.protocol, srcAddr := p.srcAddr } },
            { connIdxOffset := maxConnRegsPerMau }) := by
      simp [parse, parseEthernet, parseIpv4, hp.1, hp.2]
    rw [hparse]
    refine ⟨?_, rfl, rfl⟩
    simp [Packet.contextOf, hp.2, protoTcp, protoPoiseTcp, protoPoiseUdp]
  · split at h
    · rename_i hp
      cases h
      have hparse :
          parse p = parseUdp p
            ({ etherType := p.etherType,
               ipv4 := some { protocol := p.protocol, srcAddr := p.srcAddr } },
              { connIdxOffset := maxConnRegsPerMau }) := by
        simp [parse, parseEthernet, parseIpv4, hp.1, hp.2, protoTcp, protoUdp]
      rw [hparse]
      refine ⟨?_, rfl, rfl⟩
      simp [Packet.contextOf, hp.2, protoUdp, protoPoiseTcp, protoPoiseUdp]
    · cases h

/-- A context packet announces its own connection. -/
@[simp] theorem contextOf_contextPacket
    (c : Connection) (k : BitVec 8) (hdr : PoiseH) :
    (c.contextPacket k hdr).contextOf = some c := by
  obtain ⟨addr, port, transport⟩ := c
  cases transport <;>
    simp [Connection.contextPacket, Packet.contextOf, protoPoiseTcp, protoPoiseUdp]

/-- A data packet belongs to its own connection. -/
@[simp] theorem dataOf_dataPacket
    (c : Connection) (k : BitVec 8) (hdr : PoiseH) :
    (c.dataPacket k hdr).dataOf = some c := by
  obtain ⟨addr, port, transport⟩ := c
  cases transport <;>
    simp [Connection.dataPacket, Connection.ipProtocol, Packet.dataOf, protoTcp, protoUdp]

/-- A data packet announces no connection. -/
@[simp] theorem contextOf_dataPacket
    (c : Connection) (k : BitVec 8) (hdr : PoiseH) :
    (c.dataPacket k hdr).contextOf = none :=
  (parse_of_dataOf (dataOf_dataPacket c k hdr)).1

end PacketParser

end Poise
