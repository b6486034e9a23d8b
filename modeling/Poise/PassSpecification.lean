import Mathlib.Tactic
import Poise.IngressPipeline

/-!
# Poise data plane: what one pass does

The pipeline is summarised by what later modules need to know about it.  The
five cache arrays are seen as one array of entries and the two decision arrays
as one family of cells.

* A context pass rewrites the entry at its cache index, the decision cell of its
  connection when it is installed, and the monitors; it leaves on the
  recirculation port or on the drop port.
* A data pass changes no register.  It is enforced with the content of its
  decision cell when its key is installed, and with a fresh entry of its own
  address otherwise.
-/

namespace Poise

open Foundations

section PassSpecification

/-- The five registers of a cache index. -/
structure CacheEntry where
  srcIp : BitVec 32
  srcPort : BitVec 16
  protoc : BitVec 8
  dec : BitVec 8
  tstamp : BitVec 32
deriving DecidableEq, Repr

/-- The decision cells of the two arrays. -/
inductive ConnCell where
  | first (i : BitVec 20)
  | second (i : BitVec 20)
deriving DecidableEq, Repr

/-- The cell the data plane uses for an index. -/
def connCellOf (idx : BitVec 20) : ConnCell :=
  if inConnRegs1 idx then .first idx else .second (idx - maxConnRegsPerMau)

namespace Registers

def entry (r : Registers) (i : BitVec 16) : CacheEntry :=
  { srcIp := r.cacheSrcIp i
    srcPort := r.cacheSrcPort i
    protoc := r.cacheProtoc i
    dec := r.cacheDec i
    tstamp := r.cacheTstampHigh32 i }

def connCell (r : Registers) : ConnCell → BitVec 8
  | .first i => r.connDecision1 i
  | .second i => r.connDecision2 i

end Registers

/-- The key of a packet after parsing. -/
def Packet.key (p : Packet) : ConnKey :=
  ((parse p).1.srcAddr, (parse p).1.tcpPort, (parse p).2.ipProtocol)

/-- The cache index of a key. -/
def Switch.slot (sw : Switch) (k : ConnKey) : BitVec 16 :=
  sw.cacheHash k.2.1 k.1 k.2.2

/-- The calls of `set_ctx_dec` in a context pass; they come before the timestamp is read. -/
def contextSets (sw : Switch) (regs : Registers) (p : Packet) : List (BitVec 4) :=
  (evalRound sw.code sw.monTabs p.poiseH 0 p.recirCounter.toNat regs.monTsHigh32).sets

/-- The decision of a pass of a context packet. -/
def contextDecision (sw : Switch) (regs : Registers) (p : Packet) : BitVec 4 :=
  lastWrite 0 (contextSets sw regs p)

/-- The age test of the cache, on a timestamp of 16 bits. -/
def isFresh (e : CacheEntry) (tstamp : BitVec 16) : Bool :=
  !decide (tstamp.setWidth 32 - e.tstamp > cacheTimeout)

/-- The entry a context pass leaves in the cache. -/
def contextEntry (sw : Switch) (regs : Registers) (tstamp : BitVec 16) (p : Packet) : CacheEntry :=
  { srcIp := p.key.1
    srcPort := p.key.2.1
    protoc := p.key.2.2
    dec := (contextDecision sw regs p).setWidth 8
    tstamp := tstamp.setWidth 32 }

/-- Hit, empty or collision, as the last part of the pipeline sees it. -/
def PassState.cacheClass (s : PassState) : BitVec 2 :=
  if s.metadata.cacheSrcIp = s.hdr.srcAddr then cacheHitVal
  else if s.metadata.cacheDec = 0 then cacheEmpty
  else s.metadata.cacheHit

/-- A data packet sets no cell of the Bloom filter. -/
theorem bfAlu_data
    {s : PassState}
    {hash : BitVec 16 → BitVec 32 → BitVec 8 → Fin bfSize}
    {reg : Fin bfSize → BitVec 8}
    (val : BitVec 1)
    (hdata : s.contextPred = false) :
    (bfAlu s hash reg val).2 = reg := by
  simp [bfAlu, aluUpdate, hdata]

/-- The classification changes its own field and, on a collision, the Bloom filter. -/
theorem classifyCache_frame
    (sw : Switch)
    (s : PassState) :
    ∃ v₁ v₂ v₃ r₁ r₂ r₃,
      classifyCache sw s =
        { s with
          metadata := { s.metadata with
            cacheHit := s.cacheClass, bf1Val := v₁, bf2Val := v₂, bf3Val := v₃ }
          regs := { s.regs with bf1 := r₁, bf2 := r₂, bf3 := r₃ } } ∧
      (s.contextPred = false → r₁ = s.regs.bf1 ∧ r₂ = s.regs.bf2 ∧ r₃ = s.regs.bf3) := by
  unfold classifyCache PassState.cacheClass
  split
  · exact ⟨_, _, _, _, _, _, rfl, fun _ => ⟨rfl, rfl, rfl⟩⟩
  · split
    · exact ⟨_, _, _, _, _, _, rfl, fun _ => ⟨rfl, rfl, rfl⟩⟩
    · refine ⟨_, _, _, _, _, _, rfl, ?_⟩
      intro hdata
      exact ⟨bfAlu_data s.metadata.bf1Val hdata,
        bfAlu_data (s := handleBf1 sw s) s.metadata.bf2Val hdata,
        bfAlu_data (s := handleBf2 sw (handleBf1 sw s)) s.metadata.bf3Val hdata⟩

/-- The decision stage changes the decision it read and the two decision arrays. -/
theorem accessConnDecision_frame
    (s : PassState) :
    ∃ d r₁ r₂,
      accessConnDecision s =
        { s with
          metadata := { s.metadata with connDec := d }
          regs := { s.regs with connDecision1 := r₁, connDecision2 := r₂ } } := by
  unfold accessConnDecision
  split
  · split
    · exact ⟨_, _, _, rfl⟩
    · exact ⟨_, _, _, rfl⟩
  · exact ⟨_, _, _, rfl⟩

/-- A context packet that hit `conn_tab` writes its decision into the cell of its index. -/
theorem accessConnDecision_context
    {s : PassState}
    (idx : BitVec 20)
    (hctx : s.contextPred = true)
    (hhit : s.metadata.connMiss = 0)
    (hidx : s.metadata.connIdx = idx)
    (hidx2 : s.metadata.connIdx2 = idx - maxConnRegsPerMau)
    (c : ConnCell) :
    (accessConnDecision s).regs.connCell c =
      if c = connCellOf idx then s.metadata.ctxDec.setWidth 8 else s.regs.connCell c := by
  unfold accessConnDecision connCellOf
  rw [if_pos hhit, hidx]
  by_cases hin : inConnRegs1 idx = true
  · rw [if_pos hin, if_pos hin]
    cases c with
    | first i =>
        by_cases hi : i = idx <;>
          simp [readConnDec1, connAlu, aluUpdate, hctx, hidx, hi, Registers.connCell]
    | second i =>
        simp [readConnDec1, Registers.connCell]
  · rw [if_neg hin, if_neg hin]
    cases c with
    | first i =>
        simp [readConnDec2, Registers.connCell]
    | second i =>
        by_cases hi : i = idx - maxConnRegsPerMau <;>
          simp [readConnDec2, connAlu, aluUpdate, hctx, hidx2, hi, Registers.connCell]

/-- A data packet that hit `conn_tab` reads the cell of its index and writes nothing. -/
theorem accessConnDecision_data
    {s : PassState}
    (idx : BitVec 20)
    (hdata : s.contextPred = false)
    (hhit : s.metadata.connMiss = 0)
    (hidx : s.metadata.connIdx = idx)
    (hidx2 : s.metadata.connIdx2 = idx - maxConnRegsPerMau) :
    accessConnDecision s =
      { s with
        metadata := { s.metadata with
          connDec := (s.regs.connCell (connCellOf idx)).setWidth 4 } } := by
  unfold accessConnDecision connCellOf
  rw [if_pos hhit, hidx]
  by_cases hin : inConnRegs1 idx = true
  · rw [if_pos hin, if_pos hin]
    simp [readConnDec1, connAlu, aluUpdate, hdata, hidx, Registers.connCell]
  · rw [if_neg hin, if_neg hin]
    simp [readConnDec2, connAlu, aluUpdate, hdata, hidx2, Registers.connCell]

/-- What the cache stage reads and writes, for any packet. -/
theorem accessCache_eq
    (sw : Switch)
    (s : PassState) :
    accessCache sw s =
      { s with
        metadata := { s.metadata with
          tstampHigh32Outdated :=
            if s.metadata.tstampHigh32 - (s.regs.entry (cacheHashCalc sw s)).tstamp > cacheTimeout
              then predicateOut
            else s.metadata.tstampHigh32Outdated
          cacheSrcIp := (s.regs.entry (cacheHashCalc sw s)).srcIp
          cacheSrcPort := (s.regs.entry (cacheHashCalc sw s)).srcPort
          cacheProtoc := (s.regs.entry (cacheHashCalc sw s)).protoc
          cacheDec := (s.regs.entry (cacheHashCalc sw s)).dec.setWidth 4 }
        regs := { s.regs with
          cacheTstampHigh32 :=
            aluUpdate s.contextPred (cacheHashCalc sw s) s.metadata.tstampHigh32
              s.regs.cacheTstampHigh32
          cacheSrcIp :=
            aluUpdate s.contextPred (cacheHashCalc sw s) s.hdr.srcAddr s.regs.cacheSrcIp
          cacheSrcPort :=
            aluUpdate s.contextPred (cacheHashCalc sw s) s.hdr.tcpPort s.regs.cacheSrcPort
          cacheProtoc :=
            aluUpdate s.contextPred (cacheHashCalc sw s) s.metadata.ipProtocol
              s.regs.cacheProtoc
          cacheDec :=
            aluUpdate s.contextPred (cacheHashCalc sw s) (s.metadata.ctxDec.setWidth 8)
              s.regs.cacheDec } } := by
  rfl

/-- The cache stage of a context packet rewrites the entry at its index. -/
theorem accessCache_entry_context
    {sw : Switch} {s : PassState}
    (hctx : s.contextPred = true)
    (j : BitVec 16) :
    (accessCache sw s).regs.entry j =
      if j = cacheHashCalc sw s then
        { srcIp := s.hdr.srcAddr
          srcPort := s.hdr.tcpPort
          protoc := s.metadata.ipProtocol
          dec := s.metadata.ctxDec.setWidth 8
          tstamp := s.metadata.tstampHigh32 }
      else s.regs.entry j := by
  rw [accessCache_eq]
  by_cases hj : j = cacheHashCalc sw s
  · subst hj
    simp [Registers.entry, aluUpdate, hctx]
  · simp [Registers.entry, aluUpdate, hctx, hj]

/-- The cache stage of a data packet changes no register. -/
theorem accessCache_regs_data
    (sw : Switch)
    {s : PassState}
    (hdata : s.contextPred = false) :
    (accessCache sw s).regs = s.regs := by
  rw [accessCache_eq]
  simp [aluUpdate, hdata]

/-- The generated control block decides, counts and picks one of two ports. -/
theorem evaluateContext_eq
    (sw : Switch)
    (s : PassState) :
    evaluateContext sw s =
      { s with
        hdr := { s.hdr with
          recirCounter :=
            if s.hdr.counter.toNat < sw.code.recirTimes then
              s.hdr.recirCounter.map (· + 1)
            else s.hdr.recirCounter }
        metadata := { s.metadata with
          ctxDec :=
            lastWrite s.metadata.ctxDec
              (evalRound sw.code sw.monTabs s.hdr.poise s.metadata.tstampHigh32
                s.hdr.counter.toNat s.regs.monTsHigh32).sets }
        regs := { s.regs with
          monTsHigh32 :=
            (evalRound sw.code sw.monTabs s.hdr.poise s.metadata.tstampHigh32
              s.hdr.counter.toNat s.regs.monTsHigh32).monRegs }
        egressPort :=
          if s.hdr.counter.toNat < sw.code.recirTimes then recirPort else dropPort } := by
  unfold evaluateContext setCtxDec
  by_cases hk : s.hdr.counter.toNat < sw.code.recirTimes
  · simp [hk, doRecirculate, forwardToPort]
  · simp [hk, myDrop, forwardToPort]

/-- A context packet is not enforced; it may be reported to the control plane. -/
theorem enforce_context
    (sw : Switch)
    {s : PassState}
    (hctx : s.metadata.isContext = 1) :
    enforce sw s =
      { s with
        digest :=
          if s.metadata.connMiss = 1 ∧ s.metadata.cacheHit ≠ cacheHitVal then
            some {
              tcpSrcPort := s.hdr.tcpPort
              ipv4SrcAddr := s.hdr.srcAddr
              ipProtocol := s.metadata.ipProtocol
              isContext := s.metadata.isContext }
          else s.digest } := by
  unfold enforce
  by_cases hmiss : s.metadata.connMiss = 1
  · by_cases hhit : s.metadata.cacheHit = cacheHitVal
    · simp [hmiss, hctx, hhit]
    · simp [hmiss, hctx, hhit, generateDigest]
  · rw [if_neg hmiss, if_neg (by rw [hctx]; decide), if_neg (fun h => hmiss h.1)]

/-- Enforcement changes no metadata. -/
theorem enforce_metadata
    (sw : Switch)
    (s : PassState) :
    (enforce sw s).metadata = s.metadata := by
  have hmiss : (enforceMiss sw s).metadata = s.metadata := by
    unfold enforceMiss
    split
    · rfl
    · split
      · split
        · rfl
        · split <;> rfl
      · rfl
  unfold enforce
  split
  · split
    · split <;> rfl
    · exact hmiss
  · split <;> rfl

/-- What a pass of a context packet does. -/
structure ContextPass
    (sw : Switch) (tab : ConnTab) (regs : Registers) (tstamp : BitVec 16) (p : Packet)
    (out : PassState) : Prop where
  decision : out.metadata.ctxDec = contextDecision sw regs p
  entries : ∀ j,
    out.regs.entry j =
      if j = sw.slot p.key then contextEntry sw regs tstamp p else regs.entry j
  cells : ∀ cell,
    out.regs.connCell cell =
      if (tab p.key).map connCellOf = some cell then (contextDecision sw regs p).setWidth 8
      else regs.connCell cell
  monitors :
    out.regs.monTsHigh32 =
      (evalRound sw.code sw.monTabs p.poiseH 0 p.recirCounter.toNat regs.monTsHigh32).monRegs
  port :
    out.egressPort =
      if p.recirCounter.toNat < sw.code.recirTimes then recirPort else dropPort
  counter :
    out.hdr.recirCounter =
      some (if p.recirCounter.toNat < sw.code.recirTimes then p.recirCounter + 1
        else p.recirCounter)
  enforced : out.enforced = none
  digest :
    out.digest =
      if tab p.key = none ∧ (regs.entry (sw.slot p.key)).srcIp ≠ p.key.1 then
        some {
          tcpSrcPort := p.key.2.1
          ipv4SrcAddr := p.key.1
          ipProtocol := p.key.2.2
          isContext := 1 }
      else none

/-- The connection table changes the two indices and the miss flag. -/
theorem applyConnTab_frame
    (tab : ConnTab)
    (s : PassState) :
    ∃ i₁ i₂,
      applyConnTab tab s =
        { s with
          metadata := { s.metadata with
            connIdx := i₁
            connIdx2 := i₂
            connMiss := if tab s.connKey = none then 1 else 0 } } := by
  rw [applyConnTab]
  cases htab : tab s.connKey with
  | none =>
      exact ⟨_, _, rfl⟩
  | some idx =>
      exact ⟨_, _, rfl⟩

/-- A fresh entry, in terms of the comparison the cache stage makes. -/
theorem ite_outdated
    (e : CacheEntry) (tstamp m : BitVec 16) :
    (if tstamp.setWidth 32 - e.tstamp > cacheTimeout then predicateOut else m) =
      if isFresh e tstamp then m else predicateOut := by
  rw [isFresh]
  by_cases h : tstamp.setWidth 32 - e.tstamp > cacheTimeout
  · simp [h]
  · simp [h]

/-- The state that is classified: the packet with what the tables have read for it. -/
theorem exists_beforeClassify
    (sw : Switch) (tab : ConnTab) (tstamp : BitVec 16) (s : PassState) :
    ∃ i₁ i₂ d r,
      accessConnDecision (accessCache sw (applyConnTab tab (splitTstamp tstamp s))) =
        { s with
          metadata := { s.metadata with
            tstampHigh32 := tstamp.setWidth 32
            tstampHigh32Outdated :=
              if isFresh (s.regs.entry (cacheHashCalc sw s)) tstamp
                then s.metadata.tstampHigh32Outdated
              else predicateOut
            cacheSrcIp := (s.regs.entry (cacheHashCalc sw s)).srcIp
            cacheSrcPort := (s.regs.entry (cacheHashCalc sw s)).srcPort
            cacheProtoc := (s.regs.entry (cacheHashCalc sw s)).protoc
            cacheDec := (s.regs.entry (cacheHashCalc sw s)).dec.setWidth 4
            connIdx := i₁
            connIdx2 := i₂
            connMiss := if tab s.connKey = none then 1 else 0
            connDec := d }
          regs := r } ∧
      r.monTsHigh32 = s.regs.monTsHigh32 ∧
      r.bf1 = s.regs.bf1 ∧ r.bf2 = s.regs.bf2 ∧ r.bf3 = s.regs.bf3 := by
  obtain ⟨i₁, i₂, happly⟩ := applyConnTab_frame tab (splitTstamp tstamp s)
  obtain ⟨d, r₁, r₂, hconn⟩ :=
    accessConnDecision_frame (accessCache sw (applyConnTab tab (splitTstamp tstamp s)))
  rw [hconn, happly, accessCache_eq, ← ite_outdated]
  exact ⟨i₁, i₂, d, _, rfl, rfl, rfl, rfl, rfl⟩

/-- The fields of the state in front of enforcement that do not depend on the kind of packet. -/
structure LookedUp (sw : Switch) (tab : ConnTab) (tstamp : BitVec 16) (s out : PassState) :
    Prop where
  hdr : out.hdr = s.hdr
  isContext : out.metadata.isContext = s.metadata.isContext
  ctxDec : out.metadata.ctxDec = s.metadata.ctxDec
  ipProtocol : out.metadata.ipProtocol = s.metadata.ipProtocol
  connMiss : out.metadata.connMiss = if tab s.connKey = none then 1 else 0
  outdated :
    out.metadata.tstampHigh32Outdated =
      if isFresh (s.regs.entry (cacheHashCalc sw s)) tstamp then s.metadata.tstampHigh32Outdated
      else predicateOut
  cacheDec :
    out.metadata.cacheDec = (s.regs.entry (cacheHashCalc sw s)).dec.setWidth 4
  cacheHit :
    out.metadata.cacheHit =
      if (s.regs.entry (cacheHashCalc sw s)).srcIp = s.hdr.srcAddr then cacheHitVal
      else if (s.regs.entry (cacheHashCalc sw s)).dec.setWidth 4 = (0 : BitVec 4) then cacheEmpty
      else s.metadata.cacheHit
  monitors : out.regs.monTsHigh32 = s.regs.monTsHigh32
  egressPort : out.egressPort = s.egressPort
  digest : out.digest = s.digest
  enforced : out.enforced = s.enforced

/-- The miss flag in front of enforcement. -/
theorem LookedUp.connMiss_iff
    {sw : Switch} {tab : ConnTab} {tstamp : BitVec 16} {s out : PassState}
    (h : LookedUp sw tab tstamp s out) :
    out.metadata.connMiss = 1 ↔ tab s.connKey = none := by
  rw [h.connMiss]
  by_cases htab : tab s.connKey = none
  · simp [htab]
  · simp [htab]

/-- A hit is an entry with the address of the packet, whatever its port and protocol. -/
theorem LookedUp.cacheHit_iff
    {sw : Switch} {tab : ConnTab} {tstamp : BitVec 16} {s out : PassState}
    (h : LookedUp sw tab tstamp s out)
    (hzero : s.metadata.cacheHit = cacheColl) :
    out.metadata.cacheHit = cacheHitVal ↔
      (s.regs.entry (cacheHashCalc sw s)).srcIp = s.hdr.srcAddr := by
  rw [h.cacheHit, hzero]
  split
  · simp_all
  · split
    · simp_all [cacheEmpty, cacheHitVal]
    · simp_all [cacheColl, cacheHitVal]

/-- An entry is taken for fresh exactly when it passes the age test. -/
theorem LookedUp.outdated_iff
    {sw : Switch} {tab : ConnTab} {tstamp : BitVec 16} {s out : PassState}
    (h : LookedUp sw tab tstamp s out)
    (hzero : s.metadata.tstampHigh32Outdated = 0) :
    out.metadata.tstampHigh32Outdated = 0 ↔
      isFresh (s.regs.entry (cacheHashCalc sw s)) tstamp = true := by
  rw [h.outdated, hzero]
  by_cases hf : isFresh (s.regs.entry (cacheHashCalc sw s)) tstamp = true
  · simp [hf]
  · simp [hf, predicateOut]

/-- The state in front of enforcement, field by field. -/
theorem lookup_spec
    (sw : Switch) (tab : ConnTab) (tstamp : BitVec 16) (s : PassState) :
    LookedUp sw tab tstamp s (lookup sw tab tstamp s) := by
  obtain ⟨i₁, i₂, d, r, hbefore, hmon, _⟩ := exists_beforeClassify sw tab tstamp s
  obtain ⟨v₁, v₂, v₃, q₁, q₂, q₃, hclass, _⟩ := classifyCache_frame sw
    (accessConnDecision (accessCache sw (applyConnTab tab (splitTstamp tstamp s))))
  rw [lookup, hclass, hbefore]
  exact ⟨rfl, rfl, rfl, rfl, rfl, rfl, rfl, rfl, hmon, rfl, rfl, rfl⟩

/-- The classification changes no cache entry and no decision cell. -/
theorem classifyCache_views
    (sw : Switch)
    (s : PassState) :
    (classifyCache sw s).regs.entry = s.regs.entry ∧
      (classifyCache sw s).regs.connCell = s.regs.connCell ∧
      (classifyCache sw s).metadata.connDec = s.metadata.connDec := by
  obtain ⟨v₁, v₂, v₃, r₁, r₂, r₃, heq, _⟩ := classifyCache_frame sw s
  rw [heq]
  refine ⟨rfl, ?_, rfl⟩
  funext c
  cases c <;> rfl

/-- The decision stage changes no cache entry. -/
theorem accessConnDecision_entry
    (s : PassState) :
    (accessConnDecision s).regs.entry = s.regs.entry := by
  obtain ⟨d, r₁, r₂, heq⟩ := accessConnDecision_frame s
  rw [heq]
  rfl

theorem accessConnDecision_miss
    {s : PassState}
    (h : s.metadata.connMiss = 1) :
    accessConnDecision s = s := by
  unfold accessConnDecision
  rw [if_neg]
  rw [h]
  decide

/-- The cache stage changes no decision cell. -/
theorem accessCache_connCell
    (sw : Switch)
    (s : PassState) :
    (accessCache sw s).regs.connCell = s.regs.connCell := by
  funext c
  cases c <;> rfl

/-- The entries after the lookups of a context packet. -/
theorem lookup_entry_context
    (sw : Switch) (tab : ConnTab) (tstamp : BitVec 16)
    {s : PassState}
    (hctx : s.contextPred = true)
    (j : BitVec 16) :
    (lookup sw tab tstamp s).regs.entry j =
      if j = cacheHashCalc sw s then
        { srcIp := s.hdr.srcAddr
          srcPort := s.hdr.tcpPort
          protoc := s.metadata.ipProtocol
          dec := s.metadata.ctxDec.setWidth 8
          tstamp := tstamp.setWidth 32 }
      else s.regs.entry j := by
  unfold lookup
  rw [(classifyCache_views _ _).1, accessConnDecision_entry]
  unfold applyConnTab
  cases tab (splitTstamp tstamp s).connKey with
  | none =>
      exact accessCache_entry_context (s := setConnMiss (splitTstamp tstamp s)) hctx j
  | some idx =>
      exact accessCache_entry_context (s := setConnIdx idx (splitTstamp tstamp s)) hctx j

/-- The decision cells after the lookups of a context packet. -/
theorem lookup_connCell_context
    (sw : Switch) (tab : ConnTab) (tstamp : BitVec 16)
    {s : PassState}
    (hctx : s.contextPred = true)
    (hoffset : s.metadata.connIdxOffset = maxConnRegsPerMau)
    (c : ConnCell) :
    (lookup sw tab tstamp s).regs.connCell c =
      if (tab s.connKey).map connCellOf = some c then s.metadata.ctxDec.setWidth 8
      else s.regs.connCell c := by
  have hsplit : (splitTstamp tstamp s).connKey = s.connKey := rfl
  unfold lookup
  rw [(classifyCache_views _ _).2.1]
  unfold applyConnTab
  rw [hsplit]
  cases htab : tab s.connKey with
  | none =>
      rw [accessConnDecision_miss rfl, accessCache_connCell]
      rfl
  | some idx =>
      have hcell :=
        accessConnDecision_context
          (s := accessCache sw (setConnIdx idx (splitTstamp tstamp s)))
          idx hctx rfl rfl (by rw [← hoffset]; rfl) c
      simp only
      rw [hcell, accessCache_connCell]
      by_cases hc : c = connCellOf idx
      · rw [if_pos hc, if_pos (by rw [hc]; rfl)]
        rfl
      · rw [if_neg hc, if_neg (by simpa [eq_comm] using hc)]
        rfl

/-- The lookups of a data packet change no register. -/
theorem lookup_regs_data
    (sw : Switch) (tab : ConnTab) (tstamp : BitVec 16)
    {s : PassState}
    (hdata : s.contextPred = false)
    (hoffset : s.metadata.connIdxOffset = maxConnRegsPerMau) :
    (lookup sw tab tstamp s).regs = s.regs ∧
      ∀ idx, tab s.connKey = some idx →
        (lookup sw tab tstamp s).metadata.connDec =
          (s.regs.connCell (connCellOf idx)).setWidth 4 := by
  have hsplit : (splitTstamp tstamp s).connKey = s.connKey := rfl
  have hclassify : ∀ t : PassState, t.contextPred = false →
      (classifyCache sw t).regs = t.regs := by
    intro t ht
    obtain ⟨v₁, v₂, v₃, r₁, r₂, r₃, heq, hbf⟩ := classifyCache_frame sw t
    obtain ⟨rfl, rfl, rfl⟩ := hbf ht
    rw [heq]
  unfold lookup
  rw [(classifyCache_views _ _).2.2]
  unfold applyConnTab
  rw [hsplit]
  cases htab : tab s.connKey with
  | none =>
      refine ⟨?_, by simp⟩
      have hcache :=
        accessCache_regs_data sw (s := setConnMiss (splitTstamp tstamp s)) hdata
      simp only
      rw [accessConnDecision_miss rfl]
      exact (hclassify _ (by exact hdata)).trans hcache
  | some idx =>
      have hconn :=
        accessConnDecision_data
          (s := accessCache sw (setConnIdx idx (splitTstamp tstamp s)))
          idx hdata rfl rfl (by rw [← hoffset]; rfl)
      have hcache :=
        accessCache_regs_data sw (s := setConnIdx idx (splitTstamp tstamp s)) hdata
      simp only
      rw [hconn]
      refine ⟨(hclassify _ (by exact hdata)).trans hcache, ?_⟩
      intro idx' hidx
      cases hidx
      rw [accessCache_connCell]
      rfl

/-- A context packet is filed under the protocol it carries. -/
theorem key_of_contextOf
    {p : Packet} {c : Connection}
    (h : p.contextOf = some c) :
    p.key = (c.srcAddr, c.portKey, c.ipProtocol) := by
  obtain ⟨haddr, hport, _, _, hmd⟩ := parse_of_contextOf h
  simp [Packet.key, haddr, hport, hmd]

/-- A data packet is looked up under protocol zero. -/
theorem key_of_dataOf
    {p : Packet} {c : Connection}
    (h : p.dataOf = some c) :
    p.key = (c.srcAddr, c.portKey, 0) := by
  obtain ⟨hnone, haddr, hport⟩ := parse_of_dataOf h
  simp [Packet.key, haddr, hport, (parse_of_not_context hnone).2]

/-- The state in which a context packet is looked up, behind the generated control block. -/
structure ContextLookup
    (sw : Switch) (tab : ConnTab) (regs : Registers) (tstamp : BitVec 16) (p : Packet)
    (s : PassState) : Prop where
  state : s = evaluateContext sw { hdr := (parse p).1, metadata := (parse p).2, regs := regs }
  out : ingressPass sw tab regs tstamp p = enforce sw (lookup sw tab tstamp s)
  isContext : s.metadata.isContext = 1
  contextPred : s.contextPred = true
  key : s.connKey = p.key
  slot : cacheHashCalc sw s = sw.slot p.key
  addr : s.hdr.srcAddr = p.key.1
  registers : s.regs = { regs with monTsHigh32 := s.regs.monTsHigh32 }

theorem exists_contextLookup
    (sw : Switch) (tab : ConnTab) (regs : Registers) (tstamp : BitVec 16)
    {p : Packet} {c : Connection}
    (h : p.contextOf = some c) :
    ∃ s, ContextLookup sw tab regs tstamp p s := by
  obtain ⟨_, _, _, _, hmd⟩ := parse_of_contextOf h
  have hctx : (parse p).2.isContext = 1 := by
    rw [hmd]
  have heq := evaluateContext_eq sw { hdr := (parse p).1, metadata := (parse p).2, regs := regs }
  have hsctx : (evaluateContext sw
      { hdr := (parse p).1, metadata := (parse p).2, regs := regs }).metadata.isContext = 1 := by
    rw [heq]
    exact hctx
  refine ⟨_, rfl, ?_, hsctx, ?_, ?_, ?_, ?_, ?_⟩
  · rw [ingressPass, myIngress, if_pos (by rw [hctx]; decide)]
  · rw [PassState.contextPred, hsctx]
    decide
  · rw [heq]
    rfl
  · rw [heq]
    rfl
  · rw [heq]
    rfl
  · rw [heq]

/-- Every pass of a context packet is a context pass. -/
theorem ingressPass_context
    (sw : Switch) (tab : ConnTab) (regs : Registers) (tstamp : BitVec 16)
    {p : Packet} {c : Connection}
    (h : p.contextOf = some c) :
    ContextPass sw tab regs tstamp p (ingressPass sw tab regs tstamp p) := by
  obtain ⟨_, _, hcounter, hpoise, hmd⟩ := parse_of_contextOf h
  have hk : (parse p).1.counter = p.recirCounter := by
    simp [Headers.counter, hcounter]
  obtain ⟨s, hstate⟩ := exists_contextLookup sw tab regs tstamp h
  have hs := hstate.state
  rw [evaluateContext_eq] at hs
  have hsdec : s.metadata.ctxDec = contextDecision sw regs p := by
    rw [hs]
    simp only [hk, hpoise, hmd]
    rfl
  have hsentry : s.regs.entry = regs.entry := by
    rw [hstate.registers]
    rfl
  have hlook := lookup_spec sw tab tstamp s
  rw [hstate.out, enforce_context sw (hlook.isContext.trans hstate.isContext)]
  refine ⟨?_, ?_, ?_, ?_, ?_, ?_, ?_, ?_⟩
  · exact hlook.ctxDec.trans hsdec
  · intro j
    change (lookup sw tab tstamp s).regs.entry j = _
    rw [lookup_entry_context sw tab tstamp hstate.contextPred, hstate.slot, hsentry, hsdec]
    rw [hs]
    rfl
  · intro cell
    change (lookup sw tab tstamp s).regs.connCell cell = _
    have hoffset : s.metadata.connIdxOffset = maxConnRegsPerMau := by
      rw [hs, hmd]
    rw [lookup_connCell_context sw tab tstamp hstate.contextPred hoffset, hstate.key, hsdec, hs]
    cases cell <;> rfl
  · change (lookup sw tab tstamp s).regs.monTsHigh32 = _
    rw [hlook.monitors, hs]
    simp only [hk, hpoise, hmd]
  · change (lookup sw tab tstamp s).egressPort = _
    rw [hlook.egressPort, hs]
    simp only [hk]
  · change (lookup sw tab tstamp s).hdr.recirCounter = _
    rw [hlook.hdr, hs]
    simp only [hk, hcounter]
    split <;> rfl
  · change (lookup sw tab tstamp s).enforced = _
    rw [hlook.enforced, hs]
  · have hszero : s.metadata.cacheHit = cacheColl := by
      rw [hs, hmd]
      rfl
    have hcond :
        ((lookup sw tab tstamp s).metadata.connMiss = 1 ∧
          (lookup sw tab tstamp s).metadata.cacheHit ≠ cacheHitVal) ↔
        (tab p.key = none ∧ (regs.entry (sw.slot p.key)).srcIp ≠ p.key.1) := by
      rw [hlook.connMiss_iff, Ne, hlook.cacheHit_iff hszero, hstate.key, hstate.slot, hsentry,
        hstate.addr]
    simp only [hcond, hlook.hdr, hlook.ipProtocol, hlook.isContext, hlook.digest,
      hstate.isContext]
    rw [hs]
    rfl

/-- The decision a packet was enforced with. -/
def Enforcement.decision : Enforcement → BitVec 4
  | .cacheDec d => d
  | .connDec d => d

/-- What a pass of any other packet does. -/
structure DataPass
    (sw : Switch) (tab : ConnTab) (regs : Registers) (tstamp : BitVec 16) (p : Packet)
    (out : PassState) : Prop where
  unchanged : out.regs = regs
  digest : out.digest = none
  hit : ∀ idx, tab p.key = some idx →
    out.enforced = some (.connDec ((regs.connCell (connCellOf idx)).setWidth 4))
  miss : tab p.key = none →
    out.enforced =
      if (regs.entry (sw.slot p.key)).srcIp = p.key.1 ∧
          isFresh (regs.entry (sw.slot p.key)) tstamp = true then
        some (.cacheDec ((regs.entry (sw.slot p.key)).dec.setWidth 4))
      else none
  enforcedPort : ∀ e, out.enforced = some e → out.egressPort = enforcePort sw e.decision
  otherPort : out.enforced = none → out.egressPort = dropPort ∨ out.egressPort = recirPort

/-- A data packet that missed is enforced on a fresh hit, and leaves on two ports otherwise. -/
theorem enforceMiss_spec
    (sw : Switch)
    {s : PassState}
    (hnone : s.enforced = none) :
    (enforceMiss sw s).regs = s.regs ∧
      (enforceMiss sw s).digest = s.digest ∧
      (enforceMiss sw s).enforced =
        (if s.metadata.cacheHit = cacheHitVal ∧ s.metadata.tstampHigh32Outdated = 0 then
          some (.cacheDec s.metadata.cacheDec)
        else none) ∧
      (∀ e, (enforceMiss sw s).enforced = some e →
        (enforceMiss sw s).egressPort = enforcePort sw e.decision) ∧
      ((enforceMiss sw s).enforced = none →
        (enforceMiss sw s).egressPort = dropPort ∨
          (enforceMiss sw s).egressPort = recirPort) := by
  have hnot (e : Enforcement) : s.enforced ≠ some e := by
    rw [hnone]
    exact nofun
  unfold enforceMiss
  split
  · refine ⟨rfl, rfl, rfl, ?_, ?_⟩
    · intro e he
      cases he
      rfl
    · intro he
      cases he
  · split
    · split
      · exact ⟨rfl, rfl, hnone, fun e he => absurd he (hnot e), fun _ => Or.inl rfl⟩
      · split
        · exact ⟨rfl, rfl, hnone, fun e he => absurd he (hnot e), fun _ => Or.inr rfl⟩
        · exact ⟨rfl, rfl, hnone, fun e he => absurd he (hnot e), fun _ => Or.inl rfl⟩
    · exact ⟨rfl, rfl, hnone, fun e he => absurd he (hnot e), fun _ => Or.inl rfl⟩

/-- The state in which any other packet is looked up. -/
structure DataLookup
    (sw : Switch) (tab : ConnTab) (regs : Registers) (tstamp : BitVec 16) (p : Packet)
    (s : PassState) : Prop where
  out : ingressPass sw tab regs tstamp p = enforce sw (lookup sw tab tstamp s)
  isContext : s.metadata.isContext = 0
  contextPred : s.contextPred = false
  key : s.connKey = p.key
  slot : cacheHashCalc sw s = sw.slot p.key
  addr : s.hdr.srcAddr = p.key.1
  registers : s.regs = regs
  cacheHit : s.metadata.cacheHit = cacheColl
  outdated : s.metadata.tstampHigh32Outdated = 0
  connOffset : s.metadata.connIdxOffset = maxConnRegsPerMau
  enforced : s.enforced = none
  digest : s.digest = none
  counter : s.hdr.recirCounter = none

theorem exists_dataLookup
    (sw : Switch) (tab : ConnTab) (regs : Registers) (tstamp : BitVec 16)
    {p : Packet}
    (h : p.contextOf = none) :
    ∃ s, DataLookup sw tab regs tstamp p s := by
  obtain ⟨hcounter, hmd⟩ := parse_of_not_context h
  have hctx : (parse p).2.isContext = 0 := by
    rw [hmd]
  refine ⟨{ hdr := (parse p).1, metadata := (parse p).2, regs := regs }, ?_, hctx, ?_, rfl, rfl,
    rfl, rfl, ?_, ?_, ?_, rfl, rfl, hcounter⟩
  · rw [ingressPass, myIngress, if_neg (by rw [hctx]; decide)]
  · rw [PassState.contextPred, hctx]
    decide
  · simp only [hmd]
    rfl
  · simp only [hmd]
  · simp only [hmd]

section DataPackets

variable {sw : Switch} {tab : ConnTab} {regs : Registers} {tstamp : BitVec 16} {p : Packet}
variable {s : PassState}

/-- A data packet that is in no entry of the connection table. -/
theorem DataLookup.enforceMiss
    (hs : DataLookup sw tab regs tstamp p s)
    (htab : tab p.key = none) :
    ingressPass sw tab regs tstamp p = enforceMiss sw (lookup sw tab tstamp s) := by
  have hlook := lookup_spec sw tab tstamp s
  have hmiss : (lookup sw tab tstamp s).metadata.connMiss = 1 := by
    rw [hlook.connMiss_iff, hs.key]
    exact htab
  rw [hs.out, enforce, if_pos hmiss, if_neg (by rw [hlook.isContext, hs.isContext]; decide)]

/-- A data packet that is in an entry of the connection table. -/
theorem DataLookup.enforceHit
    (hs : DataLookup sw tab regs tstamp p s)
    {idx : BitVec 20}
    (htab : tab p.key = some idx) :
    ingressPass sw tab regs tstamp p = enforceConnDecTab sw (lookup sw tab tstamp s) := by
  have hlook := lookup_spec sw tab tstamp s
  have hmiss : ¬ (lookup sw tab tstamp s).metadata.connMiss = 1 := by
    rw [hlook.connMiss_iff, hs.key, htab]
    simp
  rw [hs.out, enforce, if_neg hmiss, if_pos (hlook.isContext.trans hs.isContext)]

/-- A fresh hit, in terms of the entry the packet finds. -/
theorem DataLookup.freshHit_iff
    (hs : DataLookup sw tab regs tstamp p s) :
    ((lookup sw tab tstamp s).metadata.cacheHit = cacheHitVal ∧
        (lookup sw tab tstamp s).metadata.tstampHigh32Outdated = 0) ↔
      (regs.entry (sw.slot p.key)).srcIp = p.key.1 ∧
        isFresh (regs.entry (sw.slot p.key)) tstamp = true := by
  have hlook := lookup_spec sw tab tstamp s
  rw [hlook.cacheHit_iff hs.cacheHit, hlook.outdated_iff hs.outdated, hs.slot, hs.registers,
    hs.addr]

end DataPackets

/-- Every pass of any other packet is a data pass. -/
theorem ingressPass_data
    (sw : Switch) (tab : ConnTab) (regs : Registers) (tstamp : BitVec 16)
    {p : Packet}
    (h : p.contextOf = none) :
    DataPass sw tab regs tstamp p (ingressPass sw tab regs tstamp p) := by
  obtain ⟨s, hs⟩ := exists_dataLookup sw tab regs tstamp h
  have hlook := lookup_spec sw tab tstamp s
  obtain ⟨hlregs, hldec⟩ := lookup_regs_data sw tab tstamp hs.contextPred hs.connOffset
  rw [hs.registers] at hlregs hldec
  rw [hs.key] at hldec
  have hldig : (lookup sw tab tstamp s).digest = none := hlook.digest.trans hs.digest
  cases htab : tab p.key with
  | none =>
      obtain ⟨h₁, h₂, h₃, h₄, h₅⟩ := enforceMiss_spec sw (hlook.enforced.trans hs.enforced)
      rw [hs.enforceMiss htab]
      refine ⟨h₁.trans hlregs, h₂.trans hldig, ?_, ?_, h₄, h₅⟩
      · intro idx hidx
        rw [htab] at hidx
        cases hidx
      · intro _
        rw [h₃]
        simp only [hs.freshHit_iff, hlook.cacheDec, hs.slot, hs.registers]
  | some idx =>
      rw [hs.enforceHit htab]
      refine ⟨hlregs, hldig, ?_, ?_, ?_, ?_⟩
      · intro idx' hidx
        change some (Enforcement.connDec (lookup sw tab tstamp s).metadata.connDec) = _
        rw [hldec idx' hidx]
      · intro hnone
        rw [htab] at hnone
        cases hnone
      · intro e he
        cases he
        rfl
      · intro he
        cases he

end PassSpecification

end Poise
