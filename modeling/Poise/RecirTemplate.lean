import Mathlib.Tactic
import Poise.IngressPipeline

/-!
# Poise data plane: the program template of the compiler

The program `recir_template.p4`, into which the compiler's readme tells to
include a generated policy.  It is a second data plane beside `poise.p4`:

* the decision of a context packet is kept in the log header of the packet, not
  in the metadata, so it survives recirculation;
* the parser extracts the log and the policy headers of a context packet right
  behind the IP header, and no transport header;
* a data packet that collides in the cache is resubmitted and not recirculated,
  and the age of a cache entry is not tested;
* the timestamps have 16 bits, and the number of an unseen and of a clean
  connection are exchanged.

The parts that do not differ are written again where they touch the state,
because the state differs.
-/

namespace Poise

open Foundations

namespace RecirTemplate

section RecirTemplate

def decUnseen : BitVec 4 := 0

def decClean : BitVec 4 := 1

def dropPort : BitVec 9 := 2

def cacheTimeout : BitVec 16 := 5

def maxResub : BitVec 2 := 3

/-- The log header, in which a packet carries its counter and its decision. -/
structure LogHeader where
  recirCounter : BitVec 8
  cacheStatus : BitVec 16
  cacheSrcIp : BitVec 32
  cachePort : BitVec 16
  cacheProtoc : BitVec 8
  cacheDec : BitVec 4
  ctxDec : BitVec 4
  outdated : BitVec 16
  tsHigh32 : BitVec 32
  tsIngress48 : BitVec 48
  tsEgress48 : BitVec 48
deriving DecidableEq, Repr

/-- The fields of a packet at the places where this parser finds them. -/
structure Packet where
  etherType : BitVec 16
  protocol : BitVec 8
  srcAddr : BitVec 32
  srcPort : BitVec 16
  log : LogHeader
  poiseH : PoiseH

/-- The headers of one pass; a header is present when the parser extracted it. -/
structure Headers where
  ipv4 : Option Ipv4Header := none
  tcpSrcPort : Option (BitVec 16) := none
  udpSrcPort : Option (BitVec 16) := none
  log : Option LogHeader := none
  poiseH : Option PoiseH := none

namespace Headers

/-- `ipv4.srcAddr` as the pipeline reads it. -/
def srcAddr (h : Headers) : BitVec 32 :=
  (h.ipv4.map Ipv4Header.srcAddr).getD 0

/-- `tcp.srcPort` as the pipeline reads it. -/
def tcpPort (h : Headers) : BitVec 16 :=
  h.tcpSrcPort.getD 0

/-- `log.recir_counter` as the pipeline reads it. -/
def counter (h : Headers) : BitVec 8 :=
  (h.log.map LogHeader.recirCounter).getD 0

/-- `log.ctx_dec` as the pipeline reads it. -/
def ctxDec (h : Headers) : BitVec 4 :=
  (h.log.map LogHeader.ctxDec).getD 0

/-- The policy headers as the pipeline reads them. -/
def poise (h : Headers) : PoiseH :=
  h.poiseH.getD (fun _ => 0)

end Headers

/-- User metadata; every field is zero when a pass begins, but the resubmission number. -/
structure Metadata where
  tstampHigh32 : BitVec 16 := 0
  tstampHigh32Outdated : BitVec 16 := 0
  cacheSrcIp : BitVec 32 := 0
  cacheSrcPort : BitVec 16 := 0
  cacheProtoc : BitVec 8 := 0
  connIdx : BitVec 20 := 0
  connIdx2 : BitVec 20 := 0
  cacheDec : BitVec 4 := 0
  connDec : BitVec 4 := 0
  bf1Val : BitVec 1 := 0
  bf2Val : BitVec 1 := 0
  bf3Val : BitVec 1 := 0
  isContext : BitVec 1 := 0
  ipProtocol : BitVec 8 := 0
  cacheHit : BitVec 2 := 0
  resubNum : BitVec 2 := 0
  connIdxOffset : BitVec 20 := 0
  connMiss : BitVec 1 := 0
deriving DecidableEq, Repr

/-- What the parser hands to the ingress pipeline. -/
abbrev Parsed : Type := Headers × Metadata

def parseTcp (p : Packet) (s : Parsed) : Parsed :=
  ({ s.1 with tcpSrcPort := some p.srcPort }, s.2)

def parseUdp (p : Packet) (s : Parsed) : Parsed :=
  ({ s.1 with udpSrcPort := some p.srcPort }, s.2)

def parsePoiseTcp (p : Packet) (s : Parsed) : Parsed :=
  ({ s.1 with log := some p.log, poiseH := some p.poiseH },
    { s.2 with isContext := 1, ipProtocol := protoTcp })

def parsePoiseUdp (p : Packet) (s : Parsed) : Parsed :=
  ({ s.1 with log := some p.log, poiseH := some p.poiseH },
    { s.2 with isContext := 1, ipProtocol := protoUdp })

def parseIpv4 (p : Packet) (s : Parsed) : Parsed :=
  let s : Parsed :=
    ({ s.1 with ipv4 := some { protocol := p.protocol, srcAddr := p.srcAddr } }, s.2)
  if p.protocol = protoTcp then parseTcp p s
  else if p.protocol = protoUdp then parseUdp p s
  else if p.protocol = protoPoiseTcp then parsePoiseTcp p s
  else if p.protocol = protoPoiseUdp then parsePoiseUdp p s
  else s

def parseEthernet (p : Packet) (s : Parsed) : Parsed :=
  if p.etherType = typeIpv4 then parseIpv4 p s else s

/-- The parser state `start`; a resubmitted packet comes with its number. -/
def parse (p : Packet) (resubNum : BitVec 2) : Parsed :=
  parseEthernet p ({}, { connIdxOffset := maxConnRegsPerMau, resubNum := resubNum })

/-- The packet a pass emits: of the headers it may change, only the log. -/
def deparse (p : Packet) (h : Headers) : Packet :=
  { p with log := h.log.getD p.log }

/-- The register arrays of the switch. -/
structure Registers where
  connDecision1 : BitVec 20 → BitVec 8
  connDecision2 : BitVec 20 → BitVec 8
  cacheDec : BitVec 16 → BitVec 8
  cacheTstampHigh32 : BitVec 16 → BitVec 16
  cacheSrcIp : BitVec 16 → BitVec 32
  cacheSrcPort : BitVec 16 → BitVec 16
  cacheProtoc : BitVec 16 → BitVec 8
  bf1 : Fin bfSize → BitVec 8
  bf2 : Fin bfSize → BitVec 8
  bf3 : Fin bfSize → BitVec 8
  monTsHigh32 : MonRegs

/-- Registers after a reset. -/
def Registers.zero : Registers :=
  { connDecision1 := fun _ => 0
    connDecision2 := fun _ => 0
    cacheDec := fun _ => 0
    cacheTstampHigh32 := fun _ => 0
    cacheSrcIp := fun _ => 0
    cacheSrcPort := fun _ => 0
    cacheProtoc := fun _ => 0
    bf1 := fun _ => 0
    bf2 := fun _ => 0
    bf3 := fun _ => 0
    monTsHigh32 := fun _ => 0 }

/-- The fields of a learning digest; here the decision is one of them. -/
structure Digest where
  tcpSrcPort : BitVec 16
  ipv4SrcAddr : BitVec 32
  ipProtocol : BitVec 8
  ctxDec : BitVec 4
  isContext : BitVec 1
deriving DecidableEq, Repr

/-- The state of one pass. -/
structure PassState where
  hdr : Headers
  metadata : Metadata
  regs : Registers
  egressPort : BitVec 9 := 0
  digest : Option Digest := none
  enforced : Option Enforcement := none
  resubmitted : Bool := false

/-- The predicate `meta.is_context != 0` of the stateful ALUs. -/
def PassState.contextPred (s : PassState) : Bool :=
  s.metadata.isContext != 0

/-- A change of the log header; a header that is absent cannot be changed. -/
def PassState.modifyLog (f : LogHeader → LogHeader) (s : PassState) : PassState :=
  { s with hdr := { s.hdr with log := s.hdr.log.map f } }

def forwardToPort (port : BitVec 9) (s : PassState) : PassState :=
  { s with egressPort := port }

def myDrop (s : PassState) : PassState :=
  forwardToPort dropPort s

def doRecirculate (s : PassState) : PassState :=
  forwardToPort recirPort
    (s.modifyLog (fun l => { l with recirCounter := l.recirCounter + 1 }))

def setCtxDec (x : BitVec 4) (s : PassState) : PassState :=
  s.modifyLog (fun l => { l with ctxDec := x })

/-- The generated control block: the branch of the counter, then recirculation or drop. -/
def evaluateContext (sw : Switch) (s : PassState) : PassState :=
  let e :=
    evalRound sw.code sw.monTabs s.hdr.poise (s.metadata.tstampHigh32.setWidth 32)
      s.hdr.counter.toNat s.regs.monTsHigh32
  let s := setCtxDec (lastWrite s.hdr.ctxDec e.sets) s
  let s := { s with regs := { s.regs with monTsHigh32 := e.monRegs } }
  if s.hdr.counter.toNat < sw.code.recirTimes then doRecirculate s else myDrop s

/-- The hash unit delivers the most significant 16 bits of the timestamp. -/
def splitTstamp (tstamp : BitVec 48) (s : PassState) : PassState :=
  { s with metadata := { s.metadata with tstampHigh32 := tstamp.extractLsb' 32 16 } }

def setConnIdx (idx : BitVec 20) (s : PassState) : PassState :=
  { s with
    metadata := { s.metadata with
      connIdx := idx
      connIdx2 := idx - s.metadata.connIdxOffset
      connMiss := 0 } }

def setConnMiss (s : PassState) : PassState :=
  { s with metadata := { s.metadata with connMiss := 1 } }

/-- The key a packet looks `conn_tab` up with. -/
def PassState.connKey (s : PassState) : ConnKey :=
  (s.hdr.srcAddr, s.hdr.tcpPort, s.metadata.ipProtocol)

def applyConnTab (tab : ConnTab) (s : PassState) : PassState :=
  match tab s.connKey with
  | some idx => setConnIdx idx s
  | none => setConnMiss s

/-- The cache index of a packet. -/
def cacheHashCalc (sw : Switch) (s : PassState) : BitVec 16 :=
  sw.cacheHash s.hdr.tcpPort s.hdr.srcAddr s.metadata.ipProtocol

def handleCacheTstampHigh32 (sw : Switch) (s : PassState) : PassState :=
  let i := cacheHashCalc sw s
  let old := s.regs.cacheTstampHigh32 i
  { s with
    metadata := { s.metadata with
      tstampHigh32Outdated :=
        if s.metadata.tstampHigh32 - old > cacheTimeout then predicateOut
        else s.metadata.tstampHigh32Outdated }
    regs := { s.regs with
      cacheTstampHigh32 :=
        aluUpdate s.contextPred i s.metadata.tstampHigh32 s.regs.cacheTstampHigh32 } }

def handleCacheIp (sw : Switch) (s : PassState) : PassState :=
  let i := cacheHashCalc sw s
  { s with
    metadata := { s.metadata with cacheSrcIp := s.regs.cacheSrcIp i }
    regs := { s.regs with
      cacheSrcIp := aluUpdate s.contextPred i s.hdr.srcAddr s.regs.cacheSrcIp } }

def handleCachePort (sw : Switch) (s : PassState) : PassState :=
  let i := cacheHashCalc sw s
  { s with
    metadata := { s.metadata with cacheSrcPort := s.regs.cacheSrcPort i }
    regs := { s.regs with
      cacheSrcPort := aluUpdate s.contextPred i s.hdr.tcpPort s.regs.cacheSrcPort } }

def handleCacheProtoc (sw : Switch) (s : PassState) : PassState :=
  let i := cacheHashCalc sw s
  { s with
    metadata := { s.metadata with cacheProtoc := s.regs.cacheProtoc i }
    regs := { s.regs with
      cacheProtoc := aluUpdate s.contextPred i s.metadata.ipProtocol s.regs.cacheProtoc } }

def handleCacheDec (sw : Switch) (s : PassState) : PassState :=
  let i := cacheHashCalc sw s
  { s with
    metadata := { s.metadata with cacheDec := (s.regs.cacheDec i).setWidth 4 }
    regs := { s.regs with
      cacheDec := aluUpdate s.contextPred i (s.hdr.ctxDec.setWidth 8) s.regs.cacheDec } }

/-- The five cache tables. -/
def accessCache (sw : Switch) (s : PassState) : PassState :=
  handleCacheDec sw
    (handleCacheProtoc sw
      (handleCachePort sw
        (handleCacheIp sw
          (handleCacheTstampHigh32 sw s))))

/-- `read_conn_1` and `read_conn_2`: a context packet writes the cell, a data packet reads it. -/
def connAlu
    (s : PassState) (i : BitVec 20) (reg : BitVec 20 → BitVec 8) :
    BitVec 4 × (BitVec 20 → BitVec 8) :=
  (if s.contextPred then s.metadata.connDec else (reg i).setWidth 4,
    aluUpdate s.contextPred i (s.hdr.ctxDec.setWidth 8) reg)

def readConnDec1 (s : PassState) : PassState :=
  let out := connAlu s s.metadata.connIdx s.regs.connDecision1
  { s with
    metadata := { s.metadata with connDec := out.1 }
    regs := { s.regs with connDecision1 := out.2 } }

def readConnDec2 (s : PassState) : PassState :=
  let out := connAlu s s.metadata.connIdx2 s.regs.connDecision2
  { s with
    metadata := { s.metadata with connDec := out.1 }
    regs := { s.regs with connDecision2 := out.2 } }

/-- `read_conn_dec_1_tab` with its one range entry, and the second table on a miss. -/
def accessConnDecision (s : PassState) : PassState :=
  if s.metadata.connMiss = 0 then
    if inConnRegs1 s.metadata.connIdx then readConnDec1 s else readConnDec2 s
  else
    s

/-- The Bloom filter ALUs, indexed by the key found in the cache. -/
def bfAlu
    (s : PassState) (hash : BitVec 16 → BitVec 32 → BitVec 8 → Fin bfSize)
    (reg : Fin bfSize → BitVec 8) (val : BitVec 1) :
    BitVec 1 × (Fin bfSize → BitVec 8) :=
  let i := hash s.metadata.cacheSrcPort s.metadata.cacheSrcIp s.metadata.cacheProtoc
  (if s.contextPred then val else (reg i).setWidth 1,
    aluUpdate (s.contextPred && s.metadata.cacheDec - decDrop == 0) i 1 reg)

def handleBf1 (sw : Switch) (s : PassState) : PassState :=
  let out := bfAlu s sw.bf1Hash s.regs.bf1 s.metadata.bf1Val
  { s with
    metadata := { s.metadata with bf1Val := out.1 }
    regs := { s.regs with bf1 := out.2 } }

def handleBf2 (sw : Switch) (s : PassState) : PassState :=
  let out := bfAlu s sw.bf2Hash s.regs.bf2 s.metadata.bf2Val
  { s with
    metadata := { s.metadata with bf2Val := out.1 }
    regs := { s.regs with bf2 := out.2 } }

def handleBf3 (sw : Switch) (s : PassState) : PassState :=
  let out := bfAlu s sw.bf3Hash s.regs.bf3 s.metadata.bf3Val
  { s with
    metadata := { s.metadata with bf3Val := out.1 }
    regs := { s.regs with bf3 := out.2 } }

def setCacheHit (s : PassState) : PassState :=
  { s with metadata := { s.metadata with cacheHit := cacheHitVal } }

def setCacheEmpty (s : PassState) : PassState :=
  { s with metadata := { s.metadata with cacheHit := cacheEmpty } }

/-- Hit, unseen or collision; only the address is compared. -/
def classifyCache (sw : Switch) (s : PassState) : PassState :=
  if s.metadata.cacheSrcIp = s.hdr.srcAddr then
    setCacheHit s
  else if s.metadata.cacheDec = decUnseen then
    setCacheEmpty s
  else
    handleBf3 sw (handleBf2 sw (handleBf1 sw s))

def generateDigest (s : PassState) : PassState :=
  { s with
    digest := some {
      tcpSrcPort := s.hdr.tcpPort
      ipv4SrcAddr := s.hdr.srcAddr
      ipProtocol := s.metadata.ipProtocol
      ctxDec := s.hdr.ctxDec
      isContext := s.metadata.isContext } }

/-- The port the entries of an enforcement table give for a decision. -/
def enforcePort (sw : Switch) (d : BitVec 4) : BitVec 9 :=
  if d = decUnseen then dropPort
  else if d = decClean then allowPort
  else if d = decDrop then dropPort
  else sw.mbPort d

def enforceCacheDecTab (sw : Switch) (s : PassState) : PassState :=
  forwardToPort (enforcePort sw s.metadata.cacheDec)
    { s with enforced := some (.cacheDec s.metadata.cacheDec) }

def enforceConnDecTab (sw : Switch) (s : PassState) : PassState :=
  forwardToPort (enforcePort sw s.metadata.connDec)
    { s with enforced := some (.connDec s.metadata.connDec) }

def resub (s : PassState) : PassState :=
  { s with
    metadata := { s.metadata with resubNum := s.metadata.resubNum + 1 }
    resubmitted := true }

/-- A data packet that missed `conn_tab`; the age of the entry is not tested. -/
def enforceMiss (sw : Switch) (s : PassState) : PassState :=
  if s.metadata.cacheHit = cacheHitVal then
    enforceCacheDecTab sw s
  else if s.metadata.cacheHit = cacheColl then
    if s.metadata.bf1Val = 1 ∧ s.metadata.bf2Val = 1 ∧ s.metadata.bf3Val = 1 then
      myDrop s
    else if s.metadata.resubNum < maxResub then
      resub s
    else
      myDrop s
  else
    myDrop s

/-- The last part of `MyIngress` in front of the log. -/
def enforce (sw : Switch) (s : PassState) : PassState :=
  if s.metadata.connMiss = 1 then
    if s.metadata.isContext ≠ 0 then
      if s.metadata.cacheHit ≠ cacheHitVal then generateDigest s else s
    else
      enforceMiss sw s
  else if s.metadata.isContext = 0 then
    enforceConnDecTab sw s
  else
    s

def updateLog (s : PassState) : PassState :=
  s.modifyLog (fun l =>
    { l with
      cacheStatus := s.metadata.cacheHit.setWidth 16
      cacheSrcIp := s.metadata.cacheSrcIp
      cachePort := s.metadata.cacheSrcPort
      cacheProtoc := s.metadata.cacheProtoc
      cacheDec := s.metadata.cacheDec
      outdated := s.metadata.tstampHigh32Outdated
      tsHigh32 := s.metadata.tstampHigh32.setWidth 32 })

def updateLogIngressTstamp (tstamp : BitVec 48) (s : PassState) : PassState :=
  s.modifyLog (fun l => { l with tsIngress48 := tstamp })

def updateLogEgressTstamp (tstamp : BitVec 48) (s : PassState) : PassState :=
  s.modifyLog (fun l => { l with tsEgress48 := tstamp })

/-- The middle part of `MyIngress`: timestamp, connection table, cache and decision registers. -/
def lookup (sw : Switch) (tab : ConnTab) (tstamp : BitVec 48) (s : PassState) : PassState :=
  classifyCache sw
    (accessConnDecision
      (accessCache sw
        (applyConnTab tab
          (splitTstamp tstamp s))))

/-- `MyIngress`. -/
def myIngress (sw : Switch) (tab : ConnTab) (tstamp : BitVec 48) (s : PassState) : PassState :=
  let s := if s.hdr.counter = 0 then updateLogIngressTstamp tstamp s else s
  let s := if s.metadata.isContext ≠ 0 then evaluateContext sw s else s
  updateLog (enforce sw (lookup sw tab tstamp s))

/-- One pass of a packet: parser and ingress. -/
def ingressPass
    (sw : Switch) (tab : ConnTab) (regs : Registers) (tstamp : BitVec 48)
    (p : Packet) (resubNum : BitVec 2) : PassState :=
  myIngress sw tab tstamp
    { hdr := (parse p resubNum).1, metadata := (parse p resubNum).2, regs := regs }

/-- What becomes of a packet behind a pass. -/
inductive Fate where
  | resubmit (resubNum : BitVec 2)
  | recirculate (p : Packet)
  | leave (port : BitVec 9) (p : Packet)

/-- A resubmitted packet is parsed again as it came; all others go through the egress. -/
def PassState.fate (s : PassState) (p : Packet) (egressTstamp : BitVec 48) : Fate :=
  let sent := deparse p (updateLogEgressTstamp egressTstamp s).hdr
  if s.resubmitted then .resubmit s.metadata.resubNum
  else if s.egressPort = recirPort then .recirculate sent
  else .leave s.egressPort sent

end RecirTemplate

end RecirTemplate

end Poise
