import Mathlib.Tactic
import Poise.PacketParser

/-!
# Poise data plane: the ingress pipeline

One pass of a packet through `MyIngress`, table by table in the order of the
source.  A table without a key runs its default action, so it is written as
that action.  Register arrays are functions of their index; a stateful ALU
outputs the value its cell had before the update.

What does not change while packets are processed is collected in `Switch`: the
generated policy, the hash functions, the entries of the monitor tables and of
the two enforcement tables.  The connection table is a parameter of a pass,
because the control plane changes it between passes.
-/

namespace Poise

open Foundations

section IngressPipeline

def decUnseen : BitVec 4 := 1

def decClean : BitVec 4 := 0

def decDrop : BitVec 4 := 15

def cacheColl : BitVec 2 := 0

def cacheEmpty : BitVec 2 := 1

def cacheHitVal : BitVec 2 := 2

def allowPort : BitVec 9 := 0

def dropPort : BitVec 9 := 129

def recirPort : BitVec 9 := 132

def cacheTimeout : BitVec 32 := 100000

def maxRecirTimes : BitVec 8 := 1

def bfSize : Nat := 86

/-- The three fields under which a connection is filed: address, port, protocol. -/
abbrev ConnKey : Type := BitVec 32 × BitVec 16 × BitVec 8

/-- Contents of `conn_tab`: the argument of `set_conn_idx` for each key that is installed. -/
abbrev ConnTab : Type := ConnKey → Option (BitVec 20)

/-- What stays fixed while packets are processed. -/
structure Switch where
  code : PolicyCode
  monTabs : MonTabs
  cacheHash : BitVec 16 → BitVec 32 → BitVec 8 → BitVec 16
  bf1Hash : BitVec 16 → BitVec 32 → BitVec 8 → Fin bfSize
  bf2Hash : BitVec 16 → BitVec 32 → BitVec 8 → Fin bfSize
  bf3Hash : BitVec 16 → BitVec 32 → BitVec 8 → Fin bfSize
  mbPort : BitVec 4 → BitVec 9

/-- The register arrays of the switch. -/
structure Registers where
  connDecision1 : BitVec 20 → BitVec 8
  connDecision2 : BitVec 20 → BitVec 8
  cacheDec : BitVec 16 → BitVec 8
  cacheTstampHigh32 : BitVec 16 → BitVec 32
  cacheSrcIp : BitVec 16 → BitVec 32
  cacheSrcPort : BitVec 16 → BitVec 16
  cacheProtoc : BitVec 16 → BitVec 8
  bf1 : Fin bfSize → BitVec 8
  bf2 : Fin bfSize → BitVec 8
  bf3 : Fin bfSize → BitVec 8
  monTsHigh32 : MonRegs

/-- Registers after a reset. -/
def Registers.zero : Registers :=
  { connDecision1 := fun _ => 0
    connDecision2 := fun _ => 0
    cacheDec := fun _ => 0
    cacheTstampHigh32 := fun _ => 0
    cacheSrcIp := fun _ => 0
    cacheSrcPort := fun _ => 0
    cacheProtoc := fun _ => 0
    bf1 := fun _ => 0
    bf2 := fun _ => 0
    bf3 := fun _ => 0
    monTsHigh32 := fun _ => 0 }

/-- The fields of a learning digest. -/
structure Digest where
  tcpSrcPort : BitVec 16
  ipv4SrcAddr : BitVec 32
  ipProtocol : BitVec 8
  isContext : BitVec 1
deriving DecidableEq, Repr

/-- Which enforcement table a packet was sent through, and with which decision. -/
inductive Enforcement where
  | cacheDec (d : BitVec 4)
  | connDec (d : BitVec 4)
deriving DecidableEq, Repr

/-- The state of one pass. -/
structure PassState where
  hdr : Headers
  metadata : Metadata
  regs : Registers
  egressPort : BitVec 9 := 0
  digest : Option Digest := none
  enforced : Option Enforcement := none

/-- The update of a stateful ALU: the cell takes the value when the predicate holds. -/
def aluUpdate
    {ι β : Type} [DecidableEq ι]
    (pred : Bool) (i : ι) (v : β) (reg : ι → β) : ι → β :=
  if pred then Function.update reg i v else reg

/-- The predicate `meta.is_context != 0` of the stateful ALUs. -/
def PassState.contextPred (s : PassState) : Bool :=
  s.metadata.isContext != 0

def forwardToPort (port : BitVec 9) (s : PassState) : PassState :=
  { s with egressPort := port }

def myDrop (s : PassState) : PassState :=
  forwardToPort dropPort s

/-- Count the recirculation in the packet; a header that is absent cannot be counted in. -/
def doRecirculate (s : PassState) : PassState :=
  forwardToPort recirPort
    { s with hdr := { s.hdr with recirCounter := s.hdr.recirCounter.map (· + 1) } }

def setCtxDec (x : BitVec 4) (s : PassState) : PassState :=
  { s with metadata := { s.metadata with ctxDec := x } }

/-- The generated control block: the branch of the counter, then recirculation or drop. -/
def evaluateContext (sw : Switch) (s : PassState) : PassState :=
  let e :=
    evalRound sw.code sw.monTabs s.hdr.poise s.metadata.tstampHigh32 s.hdr.counter.toNat
      s.regs.monTsHigh32
  let s := setCtxDec (lastWrite s.metadata.ctxDec e.sets) s
  let s := { s with regs := { s.regs with monTsHigh32 := e.monRegs } }
  if s.hdr.counter.toNat < sw.code.recirTimes then doRecirculate s else myDrop s

/-- The hash unit delivers 16 bits of the timestamp. -/
def splitTstamp (tstamp : BitVec 16) (s : PassState) : PassState :=
  { s with metadata := { s.metadata with tstampHigh32 := tstamp.setWidth 32 } }

def setConnIdx (idx : BitVec 20) (s : PassState) : PassState :=
  { s with
    metadata := { s.metadata with
      connIdx := idx
      connIdx2 := idx - s.metadata.connIdxOffset
      connMiss := 0 } }

def setConnMiss (s : PassState) : PassState :=
  { s with metadata := { s.metadata with connMiss := 1 } }

/-- The key a packet looks `conn_tab` up with. -/
def PassState.connKey (s : PassState) : ConnKey :=
  (s.hdr.srcAddr, s.hdr.tcpPort, s.metadata.ipProtocol)

def applyConnTab (tab : ConnTab) (s : PassState) : PassState :=
  match tab s.connKey with
  | some idx => setConnIdx idx s
  | none => setConnMiss s

/-- The cache index of a packet. -/
def cacheHashCalc (sw : Switch) (s : PassState) : BitVec 16 :=
  sw.cacheHash s.hdr.tcpPort s.hdr.srcAddr s.metadata.ipProtocol

def handleCacheTstampHigh32 (sw : Switch) (s : PassState) : PassState :=
  let i := cacheHashCalc sw s
  let old := s.regs.cacheTstampHigh32 i
  { s with
    metadata := { s.metadata with
      tstampHigh32Outdated :=
        if s.metadata.tstampHigh32 - old > cacheTimeout then predicateOut
        else s.metadata.tstampHigh32Outdated }
    regs := { s.regs with
      cacheTstampHigh32 :=
        aluUpdate s.contextPred i s.metadata.tstampHigh32 s.regs.cacheTstampHigh32 } }

def handleCacheIp (sw : Switch) (s : PassState) : PassState :=
  let i := cacheHashCalc sw s
  { s with
    metadata := { s.metadata with cacheSrcIp := s.regs.cacheSrcIp i }
    regs := { s.regs with
      cacheSrcIp := aluUpdate s.contextPred i s.hdr.srcAddr s.regs.cacheSrcIp } }

def handleCachePort (sw : Switch) (s : PassState) : PassState :=
  let i := cacheHashCalc sw s
  { s with
    metadata := { s.metadata with cacheSrcPort := s.regs.cacheSrcPort i }
    regs := { s.regs with
      cacheSrcPort := aluUpdate s.contextPred i s.hdr.tcpPort s.regs.cacheSrcPort } }

def handleCacheProtoc (sw : Switch) (s : PassState) : PassState :=
  let i := cacheHashCalc sw s
  { s with
    metadata := { s.metadata with cacheProtoc := s.regs.cacheProtoc i }
    regs := { s.regs with
      cacheProtoc := aluUpdate s.contextPred i s.metadata.ipProtocol s.regs.cacheProtoc } }

def handleCacheDec (sw : Switch) (s : PassState) : PassState :=
  let i := cacheHashCalc sw s
  { s with
    metadata := { s.metadata with cacheDec := (s.regs.cacheDec i).setWidth 4 }
    regs := { s.regs with
      cacheDec := aluUpdate s.contextPred i (s.metadata.ctxDec.setWidth 8) s.regs.cacheDec } }

/-- The five cache tables. -/
def accessCache (sw : Switch) (s : PassState) : PassState :=
  handleCacheDec sw
    (handleCacheProtoc sw
      (handleCachePort sw
        (handleCacheIp sw
          (handleCacheTstampHigh32 sw s))))

/-- `read_conn_1` and `read_conn_2`: a context packet writes the cell, a data packet reads it. -/
def connAlu
    (s : PassState) (i : BitVec 20) (reg : BitVec 20 → BitVec 8) :
    BitVec 4 × (BitVec 20 → BitVec 8) :=
  (if s.contextPred then s.metadata.connDec else (reg i).setWidth 4,
    aluUpdate s.contextPred i (s.metadata.ctxDec.setWidth 8) reg)

def readConnDec1 (s : PassState) : PassState :=
  let out := connAlu s s.metadata.connIdx s.regs.connDecision1
  { s with
    metadata := { s.metadata with connDec := out.1 }
    regs := { s.regs with connDecision1 := out.2 } }

def readConnDec2 (s : PassState) : PassState :=
  let out := connAlu s s.metadata.connIdx2 s.regs.connDecision2
  { s with
    metadata := { s.metadata with connDec := out.1 }
    regs := { s.regs with connDecision2 := out.2 } }

/-- The range entry of `read_conn_dec_1_tab`. -/
def inConnRegs1 (idx : BitVec 20) : Bool :=
  decide (idx.toNat ≤ 56999)

/-- `read_conn_dec_1_tab` with its one range entry, and the second table on a miss. -/
def accessConnDecision (s : PassState) : PassState :=
  if s.metadata.connMiss = 0 then
    if inConnRegs1 s.metadata.connIdx then readConnDec1 s else readConnDec2 s
  else
    s

/--
The Bloom filter ALUs, indexed by the key found in the cache: a context packet
that finds a drop decision there sets the cell, a data packet reads it.
-/
def bfAlu
    (s : PassState) (hash : BitVec 16 → BitVec 32 → BitVec 8 → Fin bfSize)
    (reg : Fin bfSize → BitVec 8) (val : BitVec 1) :
    BitVec 1 × (Fin bfSize → BitVec 8) :=
  let i := hash s.metadata.cacheSrcPort s.metadata.cacheSrcIp s.metadata.cacheProtoc
  (if s.contextPred then val else (reg i).setWidth 1,
    aluUpdate (s.contextPred && s.metadata.cacheDec - decDrop == 0) i 1 reg)

def handleBf1 (sw : Switch) (s : PassState) : PassState :=
  let out := bfAlu s sw.bf1Hash s.regs.bf1 s.metadata.bf1Val
  { s with
    metadata := { s.metadata with bf1Val := out.1 }
    regs := { s.regs with bf1 := out.2 } }

def handleBf2 (sw : Switch) (s : PassState) : PassState :=
  let out := bfAlu s sw.bf2Hash s.regs.bf2 s.metadata.bf2Val
  { s with
    metadata := { s.metadata with bf2Val := out.1 }
    regs := { s.regs with bf2 := out.2 } }

def handleBf3 (sw : Switch) (s : PassState) : PassState :=
  let out := bfAlu s sw.bf3Hash s.regs.bf3 s.metadata.bf3Val
  { s with
    metadata := { s.metadata with bf3Val := out.1 }
    regs := { s.regs with bf3 := out.2 } }

def setCacheHit (s : PassState) : PassState :=
  { s with metadata := { s.metadata with cacheHit := cacheHitVal } }

def setCacheEmpty (s : PassState) : PassState :=
  { s with metadata := { s.metadata with cacheHit := cacheEmpty } }

/-- Hit, empty or collision; only the address is compared. -/
def classifyCache (sw : Switch) (s : PassState) : PassState :=
  if s.metadata.cacheSrcIp = s.hdr.srcAddr then
    setCacheHit s
  else if s.metadata.cacheDec = 0 then
    setCacheEmpty s
  else
    handleBf3 sw (handleBf2 sw (handleBf1 sw s))

def generateDigest (s : PassState) : PassState :=
  { s with
    digest := some {
      tcpSrcPort := s.hdr.tcpPort
      ipv4SrcAddr := s.hdr.srcAddr
      ipProtocol := s.metadata.ipProtocol
      isContext := s.metadata.isContext } }

/-- The port the entries of an enforcement table give for a decision. -/
def enforcePort (sw : Switch) (d : BitVec 4) : BitVec 9 :=
  if d = decUnseen then dropPort
  else if d = decClean then allowPort
  else if d = decDrop then dropPort
  else sw.mbPort d

def enforceCacheDecTab (sw : Switch) (s : PassState) : PassState :=
  forwardToPort (enforcePort sw s.metadata.cacheDec)
    { s with enforced := some (.cacheDec s.metadata.cacheDec) }

def enforceConnDecTab (sw : Switch) (s : PassState) : PassState :=
  forwardToPort (enforcePort sw s.metadata.connDec)
    { s with enforced := some (.connDec s.metadata.connDec) }

/-- A data packet that missed `conn_tab`. -/
def enforceMiss (sw : Switch) (s : PassState) : PassState :=
  if s.metadata.cacheHit = cacheHitVal ∧ s.metadata.tstampHigh32Outdated = 0 then
    enforceCacheDecTab sw s
  else if s.metadata.cacheHit = cacheColl then
    if s.metadata.bf1Val = 1 ∧ s.metadata.bf2Val = 1 ∧ s.metadata.bf3Val = 1 then
      myDrop s
    else if s.hdr.counter < maxRecirTimes then
      doRecirculate s
    else
      myDrop s
  else
    myDrop s

/-- The last part of `MyIngress`. -/
def enforce (sw : Switch) (s : PassState) : PassState :=
  if s.metadata.connMiss = 1 then
    if s.metadata.isContext ≠ 0 then
      if s.metadata.cacheHit ≠ cacheHitVal then generateDigest s else s
    else
      enforceMiss sw s
  else if s.metadata.isContext = 0 then
    enforceConnDecTab sw s
  else
    s

/-- The middle part of `MyIngress`: timestamp, connection table, cache and decision registers. -/
def lookup (sw : Switch) (tab : ConnTab) (tstamp : BitVec 16) (s : PassState) : PassState :=
  classifyCache sw
    (accessConnDecision
      (accessCache sw
        (applyConnTab tab
          (splitTstamp tstamp s))))

/-- `MyIngress`. -/
def myIngress (sw : Switch) (tab : ConnTab) (tstamp : BitVec 16) (s : PassState) : PassState :=
  let s := if s.metadata.isContext ≠ 0 then evaluateContext sw s else s
  enforce sw (lookup sw tab tstamp s)

/-- One pass of a packet: parser and ingress. -/
def ingressPass
    (sw : Switch) (tab : ConnTab) (regs : Registers) (tstamp : BitVec 16) (p : Packet) :
    PassState :=
  myIngress sw tab tstamp { hdr := (parse p).1, metadata := (parse p).2, regs := regs }

end IngressPipeline

end Poise
