import Mathlib.Tactic
import Poise.RecirTemplate
import Poise.CacheIndexing
import Poise.Recirculation
import Poise.AcceptedPolicies
import Poise.PolicyMeaning

/-!
# Poise data plane: runs of the program template

What the program template does with packets, over all their passes and in any
mixture with other packets.

* A context packet keeps its decision in its log header.  Over its passes it
  collects what the rounds of the policy write, and its last pass stores the
  decision of the whole policy; where no check fires, the decision the sender
  wrote into the header stays.
* Every packet leaves the switch: a context packet after the rounds that are left
  for its counter, any other packet after at most three resubmissions.
* Context packets are filed under a transport protocol and the port zero, data
  packets look for the protocol zero.  So a data packet is forwarded only where
  the hash function of the cache takes the two keys to one index.
-/

namespace Poise

open Foundations

namespace RecirTemplate

section RecirTemplateRuns

/-- The transport protocol a context packet announces. -/
def Packet.contextProtocol (p : Packet) : Option (BitVec 8) :=
  if p.etherType = typeIpv4 ∧ p.protocol = protoPoiseTcp then some protoTcp
  else if p.etherType = typeIpv4 ∧ p.protocol = protoPoiseUdp then some protoUdp
  else none

/-- The key of a packet after parsing. -/
def Packet.key (p : Packet) : ConnKey :=
  ((parse p 0).1.srcAddr, (parse p 0).1.tcpPort, (parse p 0).2.ipProtocol)

/-- The calls of `set_ctx_dec` in a context pass; they come before the timestamp is read. -/
def contextSets (sw : Switch) (regs : Registers) (p : Packet) : List (BitVec 4) :=
  (evalRound sw.code sw.monTabs p.poiseH 0 p.log.recirCounter.toNat regs.monTsHigh32).sets

/-- The decision a context packet has behind a pass. -/
def contextDecision (sw : Switch) (regs : Registers) (p : Packet) : BitVec 4 :=
  lastWrite p.log.ctxDec (contextSets sw regs p)

/-- The decision cell of an index. -/
def Registers.connCell (r : Registers) (idx : BitVec 20) : BitVec 8 :=
  if inConnRegs1 idx then r.connDecision1 idx else r.connDecision2 (idx - maxConnRegsPerMau)

/-- What the parser makes of a context packet: no transport header. -/
theorem parse_context
    {p : Packet} {proto : BitVec 8}
    (hp : p.contextProtocol = some proto)
    (n : BitVec 2) :
    parse p n =
      ({ ipv4 := some { protocol := p.protocol, srcAddr := p.srcAddr }
         log := some p.log
         poiseH := some p.poiseH },
       { connIdxOffset := maxConnRegsPerMau
         resubNum := n
         isContext := 1
         ipProtocol := proto }) := by
  unfold Packet.contextProtocol at hp
  split at hp
  · rename_i h
    cases hp
    simp [parse, parseEthernet, parseIpv4, parsePoiseTcp, h.1, h.2, protoPoiseTcp, protoTcp,
      protoUdp]
  · split at hp
    · rename_i h
      cases hp
      simp [parse, parseEthernet, parseIpv4, parsePoiseUdp, h.1, h.2, protoPoiseTcp,
        protoPoiseUdp, protoTcp, protoUdp]
    · cases hp

/-- What the parser makes of any other packet: nothing is set in the metadata. -/
theorem parse_data
    {p : Packet}
    (hp : p.contextProtocol = none)
    (n : BitVec 2) :
    (parse p n).2 = { connIdxOffset := maxConnRegsPerMau, resubNum := n } ∧
      (parse p n).1.log = none ∧ (parse p n).1 = (parse p 0).1 := by
  unfold Packet.contextProtocol at hp
  split at hp
  · cases hp
  · split at hp
    · cases hp
    · rename_i htcp hudp
      unfold parse parseEthernet
      split
      · rename_i htype
        have hnotTcp : p.protocol ≠ protoPoiseTcp := fun h => htcp ⟨htype, h⟩
        have hnotUdp : p.protocol ≠ protoPoiseUdp := fun h => hudp ⟨htype, h⟩
        simp only [parseIpv4, if_neg hnotTcp, if_neg hnotUdp]
        split
        · exact ⟨rfl, rfl, rfl⟩
        · split
          · exact ⟨rfl, rfl, rfl⟩
          · exact ⟨rfl, rfl, rfl⟩
      · exact ⟨rfl, rfl, rfl⟩

/-- The key of a context packet. -/
theorem key_context
    {p : Packet} {proto : BitVec 8}
    (hp : p.contextProtocol = some proto) :
    p.key = (p.srcAddr, 0, proto) := by
  rw [Packet.key, parse_context hp]
  rfl

/-- The protocol in the key of any other packet is zero. -/
theorem key_data
    {p : Packet}
    (hp : p.contextProtocol = none) :
    p.key.2.2 = 0 := by
  rw [Packet.key, (parse_data hp 0).1]

/-- Without a log header there is nothing to change. -/
theorem modifyLog_none
    {s : PassState}
    (h : s.hdr.log = none)
    (f : LogHeader → LogHeader) :
    s.modifyLog f = s := by
  have hhdr : ({ s.hdr with log := s.hdr.log.map f } : Headers) = s.hdr := by
    rw [h, Option.map_none, ← h]
  rw [PassState.modifyLog, hhdr]

section Stages

variable (sw : Switch) (tab : ConnTab) (s : PassState)

/-- The connection table sets the index fields and whether it was missed. -/
theorem applyConnTab_frame :
    ∃ i j,
      applyConnTab tab s =
        { s with
          metadata := { s.metadata with
            connIdx := i
            connIdx2 := j
            connMiss := if (tab s.connKey).isSome then 0 else 1 } } ∧
      ∀ idx, tab s.connKey = some idx → i = idx ∧ j = idx - s.metadata.connIdxOffset := by
  unfold applyConnTab
  cases tab s.connKey with
  | none =>
      exact ⟨_, _, rfl, by simp⟩
  | some idx =>
      refine ⟨idx, idx - s.metadata.connIdxOffset, rfl, ?_⟩
      rintro _ ⟨rfl⟩
      exact ⟨rfl, rfl⟩

/-- The decision stage changes the decision it read and the two decision arrays. -/
theorem accessConnDecision_frame :
    ∃ d r₁ r₂,
      accessConnDecision s =
        { s with
          metadata := { s.metadata with connDec := d }
          regs := { s.regs with connDecision1 := r₁, connDecision2 := r₂ } } ∧
      (s.contextPred = false → r₁ = s.regs.connDecision1 ∧ r₂ = s.regs.connDecision2) := by
  unfold accessConnDecision
  split
  · split
    · exact ⟨_, _, _, rfl, fun h => ⟨by simp [connAlu, aluUpdate, h], rfl⟩⟩
    · exact ⟨_, _, _, rfl, fun h => ⟨rfl, by simp [connAlu, aluUpdate, h]⟩⟩
  · exact ⟨_, _, _, rfl, fun _ => ⟨rfl, rfl⟩⟩

/-- The classification changes its own field and the Bloom filter. -/
theorem classifyCache_frame :
    ∃ c v₁ v₂ v₃ r₁ r₂ r₃,
      classifyCache sw s =
        { s with
          metadata := { s.metadata with
            cacheHit := c, bf1Val := v₁, bf2Val := v₂, bf3Val := v₃ }
          regs := { s.regs with bf1 := r₁, bf2 := r₂, bf3 := r₃ } } ∧
      (c = cacheHitVal → s.metadata.cacheHit = cacheHitVal ∨
        s.metadata.cacheSrcIp = s.hdr.srcAddr) := by
  unfold classifyCache
  split
  · rename_i haddr
    exact ⟨_, _, _, _, _, _, _, rfl, fun _ => Or.inr haddr⟩
  · split
    · exact ⟨cacheEmpty, _, _, _, _, _, _, rfl, fun h => absurd h (by decide)⟩
    · exact ⟨_, _, _, _, _, _, _, rfl, fun h => Or.inl h⟩

/-- A context packet is not enforced; on a miss it leaves at most a digest of its key. -/
theorem enforce_context
    (hctx : s.metadata.isContext = 1) :
    ∃ dg,
      enforce sw s = { s with digest := dg } ∧
      ∀ d, dg = some d → s.digest = some d ∨
        (d.ipv4SrcAddr, d.tcpSrcPort, d.ipProtocol) = s.connKey := by
  unfold enforce
  split
  · rw [if_pos (by rw [hctx]; decide)]
    split
    · refine ⟨_, rfl, ?_⟩
      rintro d ⟨rfl⟩
      exact Or.inr rfl
    · exact ⟨s.digest, rfl, fun _ h => Or.inl h⟩
  · rw [if_neg (by rw [hctx]; decide)]
    exact ⟨s.digest, rfl, fun _ h => Or.inl h⟩

end Stages

/-- What the middle part of the pipeline does to a packet that has just been parsed. -/
structure LookedUp (sw : Switch) (tab : ConnTab) (s out : PassState) : Prop where
  hdr : out.hdr = s.hdr
  egressPort : out.egressPort = s.egressPort
  resubmitted : out.resubmitted = s.resubmitted
  digest : out.digest = s.digest
  isContext : out.metadata.isContext = s.metadata.isContext
  connKey : out.connKey = s.connKey
  resubNum : out.metadata.resubNum = s.metadata.resubNum
  connMiss : out.metadata.connMiss = if (tab s.connKey).isSome then 0 else 1
  cacheDec : out.metadata.cacheDec = (s.regs.cacheDec (cacheHashCalc sw s)).setWidth 4
  hit : out.metadata.cacheHit = cacheHitVal →
    s.regs.cacheSrcIp (cacheHashCalc sw s) = s.hdr.srcAddr
  regsCacheDec : out.regs.cacheDec =
    aluUpdate s.contextPred (cacheHashCalc sw s) (s.hdr.ctxDec.setWidth 8) s.regs.cacheDec
  regsCacheSrcIp : out.regs.cacheSrcIp =
    aluUpdate s.contextPred (cacheHashCalc sw s) s.hdr.srcAddr s.regs.cacheSrcIp
  monitors : out.regs.monTsHigh32 = s.regs.monTsHigh32
  connCell : s.contextPred = true → ∀ idx, tab s.connKey = some idx →
    out.regs.connCell idx = s.hdr.ctxDec.setWidth 8

/-- A context packet that hit `conn_tab` writes its decision into the cell of its index. -/
theorem accessConnDecision_cell
    {s : PassState} {idx : BitVec 20}
    (hctx : s.contextPred = true)
    (hmiss : s.metadata.connMiss = 0)
    (hidx : s.metadata.connIdx = idx)
    (hidx2 : s.metadata.connIdx2 = idx - maxConnRegsPerMau) :
    (accessConnDecision s).regs.connCell idx = s.hdr.ctxDec.setWidth 8 := by
  unfold accessConnDecision Registers.connCell
  rw [if_pos hmiss, hidx]
  split
  · simp [readConnDec1, connAlu, aluUpdate, hctx, hidx]
  · simp [readConnDec2, connAlu, aluUpdate, hctx, hidx2]

theorem lookup_spec
    (sw : Switch) (tab : ConnTab) (tstamp : BitVec 48)
    {s : PassState}
    (hoffset : s.metadata.connIdxOffset = maxConnRegsPerMau)
    (hhit : s.metadata.cacheHit = 0) :
    LookedUp sw tab s (lookup sw tab tstamp s) := by
  obtain ⟨i, j, htab, hidx⟩ := applyConnTab_frame tab (splitTstamp tstamp s)
  obtain ⟨d, r₁, r₂, hconn, _⟩ :=
    accessConnDecision_frame (accessCache sw (applyConnTab tab (splitTstamp tstamp s)))
  obtain ⟨c, v₁, v₂, v₃, b₁, b₂, b₃, hclass, hsame⟩ :=
    classifyCache_frame sw
      (accessConnDecision (accessCache sw (applyConnTab tab (splitTstamp tstamp s))))
  have hcell : s.contextPred = true → ∀ idx, tab s.connKey = some idx →
      (accessConnDecision
        (accessCache sw (applyConnTab tab (splitTstamp tstamp s)))).regs.connCell idx =
          s.hdr.ctxDec.setWidth 8 := by
    intro hctx idx hfound
    have hkey : tab (splitTstamp tstamp s).connKey = some idx := hfound
    obtain ⟨rfl, rfl⟩ := hidx idx hkey
    rw [htab]
    refine accessConnDecision_cell hctx ?_ rfl ?_
    · simp [accessCache, handleCacheDec, handleCacheProtoc, handleCachePort, handleCacheIp,
        handleCacheTstampHigh32, hkey]
    · simp [accessCache, handleCacheDec, handleCacheProtoc, handleCachePort, handleCacheIp,
        handleCacheTstampHigh32, splitTstamp, hoffset]
  unfold lookup
  rw [hclass, hconn, htab]
  rw [hconn, htab] at hsame hcell
  refine ⟨rfl, rfl, rfl, rfl, rfl, rfl, rfl, rfl, rfl, ?_, rfl, rfl, rfl, ?_⟩
  · intro hc
    rcases hsame hc with h | h
    · exact absurd (hhit.symm.trans h) (by decide)
    · exact h
  · intro hctx idx hfound
    exact hcell hctx idx hfound

/-- What a context pass does. -/
structure ContextPass
    (sw : Switch) (tab : ConnTab) (regs : Registers) (p : Packet) (out : PassState) : Prop where
  log : ∃ l, out.hdr.log = some l ∧ l.ctxDec = contextDecision sw regs p ∧
    l.recirCounter = if p.log.recirCounter.toNat < sw.code.recirTimes
      then p.log.recirCounter + 1 else p.log.recirCounter
  port : out.egressPort =
    if p.log.recirCounter.toNat < sw.code.recirTimes then recirPort else dropPort
  notResubmitted : out.resubmitted = false
  cacheDec : out.regs.cacheDec =
    Function.update regs.cacheDec (sw.slot p.key) ((contextDecision sw regs p).setWidth 8)
  cacheSrcIp : out.regs.cacheSrcIp =
    Function.update regs.cacheSrcIp (sw.slot p.key) p.srcAddr
  connCell : ∀ idx, tab p.key = some idx →
    out.regs.connCell idx = (contextDecision sw regs p).setWidth 8
  monitors : out.regs.monTsHigh32 =
    (evalRound sw.code sw.monTabs p.poiseH 0 p.log.recirCounter.toNat regs.monTsHigh32).monRegs
  digest : ∀ d, out.digest = some d → (d.ipv4SrcAddr, d.tcpSrcPort, d.ipProtocol) = p.key

/-- The generated block on a packet with a log header. -/
theorem evaluateContext_log
    (sw : Switch)
    {s : PassState} {l : LogHeader}
    (hlog : s.hdr.log = some l)
    (htstamp : s.metadata.tstampHigh32 = 0) :
    evaluateContext sw s =
      { s with
        hdr := { s.hdr with
          log := some { l with
            ctxDec := lastWrite l.ctxDec
              (evalRound sw.code sw.monTabs s.hdr.poise 0 l.recirCounter.toNat
                s.regs.monTsHigh32).sets
            recirCounter := if l.recirCounter.toNat < sw.code.recirTimes
              then l.recirCounter + 1 else l.recirCounter } }
        regs := { s.regs with
          monTsHigh32 := (evalRound sw.code sw.monTabs s.hdr.poise 0 l.recirCounter.toNat
            s.regs.monTsHigh32).monRegs }
        egressPort :=
          if l.recirCounter.toNat < sw.code.recirTimes then recirPort else dropPort } := by
  have hdec : s.hdr.ctxDec = l.ctxDec := by
    rw [Headers.ctxDec, hlog]
    rfl
  have hwidth : (0 : BitVec 16).setWidth 32 = 0 := by
    decide
  unfold evaluateContext
  simp only [hdec, htstamp, hwidth, setCtxDec, PassState.modifyLog, hlog,
    Option.map_some, Headers.counter, Option.getD_some]
  split
  · simp only [doRecirculate, forwardToPort, PassState.modifyLog, Option.map_some]
  · simp only [myDrop, forwardToPort]

/-- The state in which a context packet comes to the connection table. -/
theorem enter_context
    (sw : Switch) (regs : Registers) (tstamp : BitVec 48)
    {p : Packet} {proto : BitVec 8}
    (hp : p.contextProtocol = some proto)
    (n : BitVec 2) :
    ∃ l : LogHeader, l.ctxDec = contextDecision sw regs p ∧
      (l.recirCounter = if p.log.recirCounter.toNat < sw.code.recirTimes
        then p.log.recirCounter + 1 else p.log.recirCounter) ∧
      ∀ tab, ingressPass sw tab regs tstamp p n =
        updateLog (enforce sw (lookup sw tab tstamp
          { hdr :=
              { ipv4 := some { protocol := p.protocol, srcAddr := p.srcAddr }
                log := some l
                poiseH := some p.poiseH }
            metadata := (parse p n).2
            regs := { regs with
              monTsHigh32 :=
                (evalRound sw.code sw.monTabs p.poiseH 0 p.log.recirCounter.toNat
                  regs.monTsHigh32).monRegs }
            egressPort :=
              if p.log.recirCounter.toNat < sw.code.recirTimes then recirPort
              else dropPort })) := by
  have hparse := parse_context hp n
  -- the ingress timestamp touches neither the counter nor the decision
  have hstart : ∃ l : LogHeader, l.ctxDec = p.log.ctxDec ∧
      l.recirCounter = p.log.recirCounter ∧
      (if (parse p n).1.counter = 0 then
          updateLogIngressTstamp tstamp
            { hdr := (parse p n).1, metadata := (parse p n).2, regs := regs }
        else { hdr := (parse p n).1, metadata := (parse p n).2, regs := regs }) =
        ({ hdr := { (parse p n).1 with log := some l }
           metadata := (parse p n).2
           regs := regs } : PassState) := by
    split
    · refine ⟨{ p.log with tsIngress48 := tstamp }, rfl, rfl, ?_⟩
      rw [hparse]
      rfl
    · refine ⟨p.log, rfl, rfl, ?_⟩
      rw [hparse]
  obtain ⟨l, hdec, hcounter, hlog⟩ := hstart
  have hcontext : (parse p n).2.isContext ≠ 0 := by
    rw [hparse]
    exact (by decide : (1 : BitVec 1) ≠ 0)
  have htstamp : (parse p n).2.tstampHigh32 = 0 := by
    rw [hparse]
  refine ⟨{ l with
      ctxDec := contextDecision sw regs p
      recirCounter := if l.recirCounter.toNat < sw.code.recirTimes
        then l.recirCounter + 1 else l.recirCounter }, rfl, ?_, fun tab => ?_⟩
  · rw [hcounter]
  · unfold ingressPass myIngress
    simp only [hlog]
    rw [if_pos hcontext, evaluateContext_log sw rfl htstamp, hparse, hdec, hcounter]
    rfl

/-- The passes of a context packet. -/
theorem ingressPass_context
    (sw : Switch) (tab : ConnTab) (regs : Registers) (tstamp : BitVec 48)
    {p : Packet} {proto : BitVec 8}
    (hp : p.contextProtocol = some proto)
    (n : BitVec 2) :
    ContextPass sw tab regs p (ingressPass sw tab regs tstamp p n) := by
  obtain ⟨l, hdec, hcounter, hpass⟩ := enter_context sw regs tstamp hp n
  rw [hpass tab, parse_context hp n]
  generalize hs : ({ hdr := _, metadata := _, regs := _, egressPort := _ } : PassState) = s
  have hlook := lookup_spec sw tab tstamp (s := s) (by rw [← hs]) (by rw [← hs])
  have hctx : s.metadata.isContext = 1 := by
    rw [← hs]
  have hpred : s.contextPred = true := by
    rw [PassState.contextPred, hctx]
    decide
  have hkey : s.connKey = p.key := by
    rw [key_context hp, ← hs]
    rfl
  have hslot : cacheHashCalc sw s = sw.slot p.key := by
    rw [← hkey]
    rfl
  have hlog : s.hdr.log = some l := by
    rw [← hs]
  have hctxDec : s.hdr.ctxDec = contextDecision sw regs p := by
    rw [Headers.ctxDec, hlog, ← hdec]
    rfl
  obtain ⟨dg, henforce, hdigest⟩ :=
    enforce_context sw (lookup sw tab tstamp s) (hlook.isContext.trans hctx)
  rw [henforce]
  have hregs := hlook.regsCacheDec
  have haddr := hlook.regsCacheSrcIp
  rw [hpred, hslot, hctxDec] at hregs
  rw [hpred, hslot] at haddr
  refine ⟨?_, ?_, ?_, ?_, ?_, ?_, ?_, ?_⟩
  · exact ⟨_, congrArg (Option.map _) ((congrArg Headers.log hlook.hdr).trans hlog), hdec,
      hcounter⟩
  · exact hlook.egressPort.trans (by rw [← hs])
  · exact hlook.resubmitted.trans (by rw [← hs])
  · exact hregs.trans (by rw [← hs]; rfl)
  · exact haddr.trans (by rw [← hs]; rfl)
  · intro idx hidx
    rw [← hctxDec]
    exact hlook.connCell hpred idx (hkey ▸ hidx)
  · exact hlook.monitors.trans (by rw [← hs])
  · intro d hd
    rcases hdigest d hd with h | h
    · rw [hlook.digest, ← hs] at h
      cases h
    · exact h.trans (hlook.connKey.trans hkey)

/-- What a pass of any other packet does. -/
structure DataPass
    (sw : Switch) (tab : ConnTab) (regs : Registers) (p : Packet) (n : BitVec 2)
    (out : PassState) : Prop where
  cacheDec : out.regs.cacheDec = regs.cacheDec
  cacheSrcIp : out.regs.cacheSrcIp = regs.cacheSrcIp
  monitors : out.regs.monTsHigh32 = regs.monTsHigh32
  digest : out.digest = none
  resubmit : out.resubmitted = true → n < maxResub ∧ out.metadata.resubNum = n + 1
  port : out.resubmitted = false → ∃ d, out.egressPort = enforcePort sw d
  enforced : out.resubmitted = false → out.egressPort = dropPort ∨ (tab p.key).isSome = true ∨
    (regs.cacheSrcIp (sw.slot p.key) = p.key.1 ∧
      out.egressPort = enforcePort sw ((regs.cacheDec (sw.slot p.key)).setWidth 4))

/-- A data packet that missed `conn_tab` is dropped, resubmitted, or enforced by its entry. -/
theorem enforceMiss_cases
    (sw : Switch)
    (s : PassState) :
    enforceMiss sw s = myDrop s ∨
      (s.metadata.resubNum < maxResub ∧ enforceMiss sw s = resub s) ∨
      (s.metadata.cacheHit = cacheHitVal ∧ enforceMiss sw s = enforceCacheDecTab sw s) := by
  unfold enforceMiss
  split
  · rename_i hhit
    exact Or.inr (Or.inr ⟨hhit, rfl⟩)
  · split
    · split
      · exact Or.inl rfl
      · split
        · rename_i hmore
          exact Or.inr (Or.inl ⟨hmore, rfl⟩)
        · exact Or.inl rfl
    · exact Or.inl rfl

/-- The passes of any other packet. -/
theorem ingressPass_data
    (sw : Switch) (tab : ConnTab) (regs : Registers) (tstamp : BitVec 48)
    {p : Packet}
    (hp : p.contextProtocol = none)
    (n : BitVec 2) :
    DataPass sw tab regs p n (ingressPass sw tab regs tstamp p n) := by
  obtain ⟨hmeta, hlog, hhdr⟩ := parse_data hp n
  have henter : ingressPass sw tab regs tstamp p n =
      updateLog (enforce sw (lookup sw tab tstamp
        { hdr := (parse p n).1, metadata := (parse p n).2, regs := regs })) := by
    have hsame : updateLogIngressTstamp tstamp
        { hdr := (parse p n).1, metadata := (parse p n).2, regs := regs } =
          { hdr := (parse p n).1, metadata := (parse p n).2, regs := regs } :=
      modifyLog_none hlog _
    unfold ingressPass myIngress
    simp only [hsame, ite_self]
    rw [if_neg (by rw [hmeta]; simp)]
  rw [henter]
  generalize hs : ({ hdr := _, metadata := _, regs := _ } : PassState) = s
  have hlook := lookup_spec sw tab tstamp (s := s) (by rw [← hs, hmeta]) (by rw [← hs, hmeta])
  have hctx : s.metadata.isContext = 0 := by
    rw [← hs, hmeta]
  have hpred : s.contextPred = false := by
    rw [PassState.contextPred, hctx]
    decide
  have hkey : s.connKey = p.key := by
    rw [← hs, Packet.key, ← hhdr, (parse_data hp 0).1]
    simp only [PassState.connKey, hmeta]
  have hslot : cacheHashCalc sw s = sw.slot p.key := by
    rw [← hkey]
    rfl
  have hregs := hlook.regsCacheDec
  have haddr := hlook.regsCacheSrcIp
  have hdec := hlook.cacheDec
  have hhit := hlook.hit
  have hfound : s.regs = regs := by
    rw [← hs]
  have hsrc : s.hdr.srcAddr = p.key.1 := congrArg Prod.fst hkey
  have hmon : (lookup sw tab tstamp s).regs.monTsHigh32 = regs.monTsHigh32 := by
    rw [hlook.monitors, hfound]
  rw [hpred, hfound] at hregs haddr
  rw [hslot, hfound] at hdec hhit
  have hdigest : (lookup sw tab tstamp s).digest = none := by
    rw [hlook.digest, ← hs]
  have hnone : (lookup sw tab tstamp s).resubmitted = false := by
    rw [hlook.resubmitted, ← hs]
  have hnum : (lookup sw tab tstamp s).metadata.resubNum = n := by
    rw [hlook.resubNum, ← hs, hmeta]
  have hzero : (lookup sw tab tstamp s).metadata.isContext = 0 :=
    hlook.isContext.trans hctx
  generalize lookup sw tab tstamp s = t at *
  unfold enforce
  cases hmiss : (tab p.key).isSome with
  | true =>
      have hconn : t.metadata.connMiss ≠ 1 := by
        rw [hlook.connMiss, hkey, hmiss]
        decide
      rw [if_neg hconn, if_pos hzero]
      refine ⟨hregs, haddr, hmon, hdigest, ?_, fun _ => ⟨t.metadata.connDec, rfl⟩,
        fun _ => Or.inr (Or.inl hmiss)⟩
      intro hre
      exact absurd (hnone.symm.trans hre) (by decide)
  | false =>
      have hconn : t.metadata.connMiss = 1 := by
        rw [hlook.connMiss, hkey, hmiss]
        decide
      rw [if_pos hconn, if_neg (by rw [hzero]; decide)]
      rcases enforceMiss_cases sw t with h | ⟨hmore, h⟩ | ⟨hc, h⟩
      · rw [h]
        refine ⟨hregs, haddr, hmon, hdigest, ?_, fun _ => ⟨decUnseen, rfl⟩, fun _ => Or.inl rfl⟩
        intro hre
        exact absurd (hnone.symm.trans hre) (by decide)
      · rw [h]
        refine ⟨hregs, haddr, hmon, hdigest, fun _ => ⟨hnum ▸ hmore, ?_⟩, ?_, ?_⟩
        · exact congrArg (· + 1) hnum
        · intro hre
          cases hre
        · intro hre
          cases hre
      · rw [h]
        refine ⟨hregs, haddr, hmon, hdigest, ?_, fun _ => ⟨t.metadata.cacheDec, rfl⟩,
          fun _ => Or.inr (Or.inr ⟨?_, ?_⟩)⟩
        · intro hre
          exact absurd (hnone.symm.trans hre) (by decide)
        · exact (hhit hc).trans hsrc
        · exact congrArg (enforcePort sw) hdec

/-- One pass of a packet: the registers it found, the packet as it came in, and what came out. -/
structure PassRecord where
  found : Registers
  packet : Packet
  out : PassState

/-- The world around a packet: tables and clocks at its passes, and what others do in between. -/
structure Surroundings where
  tab : Nat → ConnTab
  tstamp : Nat → BitVec 48
  egressTstamp : Nat → BitVec 48
  others : Nat → Registers → Registers

/-- One pass in its surroundings. -/
def passIn
    (sw : Switch) (env : Surroundings) (i : Nat) (p : Packet) (n : BitVec 2) (r : Registers) :
    PassRecord :=
  { found := env.others i r
    packet := p
    out := ingressPass sw (env.tab i) (env.others i r) (env.tstamp i) p n }

/-- Pass after pass until the packet leaves. -/
def packetRun
    (sw : Switch) (env : Surroundings) :
    Nat → Nat → Packet → BitVec 2 → Registers → Option (List PassRecord)
  | 0, _, _, _, _ => none
  | fuel + 1, i, p, n, r =>
      let q := passIn sw env i p n r
      match q.out.fate p (env.egressTstamp i) with
      | .resubmit n' => (packetRun sw env fuel (i + 1) p n' q.out.regs).map (q :: ·)
      | .recirculate p' => (packetRun sw env fuel (i + 1) p' 0 q.out.regs).map (q :: ·)
      | .leave _ _ => some [q]

/-- A packet with another log header. -/
def Packet.withLog (p : Packet) (l : LogHeader) : Packet :=
  { p with log := l }

/-- A context packet before its last round comes back with its decision and the next counter. -/
theorem fate_context_more
    {sw : Switch} {tab : ConnTab} {regs : Registers} {p : Packet} {out : PassState}
    (hpass : ContextPass sw tab regs p out)
    (hmore : p.log.recirCounter.toNat < sw.code.recirTimes)
    (tstamp : BitVec 48) :
    ∃ l : LogHeader, l.ctxDec = contextDecision sw regs p ∧
      l.recirCounter = p.log.recirCounter + 1 ∧
      out.fate p tstamp = .recirculate (p.withLog l) := by
  obtain ⟨l, hlog, hdec, hcounter⟩ := hpass.log
  refine ⟨{ l with tsEgress48 := tstamp }, hdec, ?_, ?_⟩
  · rw [← hcounter.trans (if_pos hmore)]
  · have hport := hpass.port
    rw [if_pos hmore] at hport
    rw [PassState.fate, if_neg (by rw [hpass.notResubmitted]; simp), if_pos hport]
    simp only [updateLogEgressTstamp, PassState.modifyLog, deparse, hlog, Option.map_some,
      Option.getD_some, Packet.withLog]

/-- In its last round it leaves on the drop port. -/
theorem fate_context_last
    {sw : Switch} {tab : ConnTab} {regs : Registers} {p : Packet} {out : PassState}
    (hpass : ContextPass sw tab regs p out)
    (hlast : ¬ p.log.recirCounter.toNat < sw.code.recirTimes)
    (tstamp : BitVec 48) :
    ∃ p', out.fate p tstamp = .leave dropPort p' := by
  have hport := hpass.port
  rw [if_neg hlast] at hport
  refine ⟨deparse p (updateLogEgressTstamp tstamp out).hdr, ?_⟩
  rw [PassState.fate, if_neg (by rw [hpass.notResubmitted]; simp), hport,
    if_neg (by decide)]

/-- A run that begins with a round that is not the last one. -/
theorem packetRun_context_more
    (sw : Switch) (env : Surroundings) (fuel i : Nat)
    {p : Packet} {proto : BitVec 8}
    (hp : p.contextProtocol = some proto)
    (hmore : p.log.recirCounter.toNat < sw.code.recirTimes)
    (n : BitVec 2) (r : Registers) :
    ∃ l : LogHeader, l.ctxDec = contextDecision sw (env.others i r) p ∧
      l.recirCounter = p.log.recirCounter + 1 ∧
      packetRun sw env (fuel + 1) i p n r =
        (packetRun sw env fuel (i + 1) (p.withLog l) 0 (passIn sw env i p n r).out.regs).map
          (passIn sw env i p n r :: ·) := by
  obtain ⟨l, hdec, hcounter, hfate⟩ :=
    fate_context_more (ingressPass_context sw (env.tab i) (env.others i r) (env.tstamp i) hp n)
      hmore (env.egressTstamp i)
  refine ⟨l, hdec, hcounter, ?_⟩
  rw [packetRun]
  simp only [passIn, hfate]

/-- A run of one pass. -/
theorem packetRun_context_last
    (sw : Switch) (env : Surroundings) (fuel i : Nat)
    {p : Packet} {proto : BitVec 8}
    (hp : p.contextProtocol = some proto)
    (hlast : ¬ p.log.recirCounter.toNat < sw.code.recirTimes)
    (n : BitVec 2) (r : Registers) :
    packetRun sw env (fuel + 1) i p n r = some [passIn sw env i p n r] := by
  obtain ⟨p', hfate⟩ :=
    fate_context_last (ingressPass_context sw (env.tab i) (env.others i r) (env.tstamp i) hp n)
      hlast (env.egressTstamp i)
  rw [packetRun]
  simp only [passIn, hfate]

/-- What the rounds from a counter on write, with the monitors in a given state. -/
def roundsFrom (sw : Switch) (hdr : PoiseH) (mons : MonRegs) (k count : Nat) :
    List (BitVec 4) :=
  (List.range' k count).flatMap
    (fun j => (evalRound sw.code sw.monTabs hdr 0 j mons).sets)

/-- The monitors of the rounds from a counter on are in a given state. -/
def MonitorsFrom (sw : Switch) (mons : MonRegs) (k : Nat) (r : Registers) : Prop :=
  ∀ m j, k ≤ j → .applyMonitor m ∈ roundBody sw.code j → r.monTsHigh32 m = mons m

section ContextRuns

variable {S : UnstableSort Check Check.priority} {prog : Program} {sw : Switch}
variable (hcompile : compileTofino S prog = .ok sw.code)
variable {env : Surroundings}
variable (hothers : ∀ i r, (env.others i r).monTsHigh32 = r.monTsHigh32)

include hcompile

/-- A pass of one round leaves the monitors of the later rounds. -/
theorem monitorsFrom_pass
    {tab : ConnTab} {mons : MonRegs} {r : Registers} {p : Packet} {out : PassState}
    (hpass : ContextPass sw tab r p out)
    (h : MonitorsFrom sw mons p.log.recirCounter.toNat r) :
    MonitorsFrom sw mons (p.log.recirCounter.toNat + 1) out.regs := by
  intro m j hj hm
  rw [hpass.monitors]
  have hne : p.log.recirCounter.toNat ≠ j := by
    omega
  rw [evalRound_monRegs_other hcompile sw.monTabs p.poiseH 0 r.monTsHigh32 hne hm]
  exact h m j (by omega) hm

include hothers

/--
The run of a context packet from the counter it carries: one pass for each round
that is left, and behind the last one its entry and its cell hold what the rounds
wrote last, or what the packet came with.
-/
theorem packetRun_context
    {mons : MonRegs} {proto : BitVec 8}
    (d fuel i : Nat)
    {p : Packet}
    (hp : p.contextProtocol = some proto)
    (hd : p.log.recirCounter.toNat + d = sw.code.recirTimes)
    (n : BitVec 2)
    {r : Registers}
    (hr : MonitorsFrom sw mons p.log.recirCounter.toNat r) :
    ∃ earlier last,
      packetRun sw env (d + 1 + fuel) i p n r = some (earlier ++ [last]) ∧
      earlier.length = d ∧
      last.out.regs.cacheDec (sw.slot p.key) =
        (lastWrite p.log.ctxDec
          (roundsFrom sw p.poiseH mons p.log.recirCounter.toNat (d + 1))).setWidth 8 ∧
      ∀ idx, env.tab (i + d) p.key = some idx →
        last.out.regs.connCell idx =
          (lastWrite p.log.ctxDec
            (roundsFrom sw p.poiseH mons p.log.recirCounter.toNat (d + 1))).setWidth 8 := by
  have hfound : ∀ {p : Packet} {r : Registers},
      MonitorsFrom sw mons p.log.recirCounter.toNat r →
        ∀ i, contextSets sw (env.others i r) p =
          (evalRound sw.code sw.monTabs p.poiseH 0 p.log.recirCounter.toNat mons).sets := by
    intro p r h i
    refine evalRound_sets_congr sw.code sw.monTabs p.poiseH 0 (fun m hm => ?_)
    rw [hothers]
    exact h m _ (Nat.le_refl _) hm
  induction d generalizing i p n r with
  | zero =>
      have hlast : ¬ p.log.recirCounter.toNat < sw.code.recirTimes := by
        omega
      have hpass := ingressPass_context sw (env.tab i) (env.others i r) (env.tstamp i) hp n
      have hdec : contextDecision sw (env.others i r) p =
          lastWrite p.log.ctxDec (roundsFrom sw p.poiseH mons p.log.recirCounter.toNat 1) := by
        rw [contextDecision, hfound hr i, roundsFrom, List.range'_one, List.flatMap_singleton]
      refine ⟨[], passIn sw env i p n r, ?_, rfl, ?_, ?_⟩
      · rw [Nat.zero_add, Nat.add_comm]
        exact packetRun_context_last sw env fuel i hp hlast n r
      · rw [← hdec]
        exact (congrFun hpass.cacheDec _).trans (Function.update_self ..)
      · intro idx hidx
        rw [← hdec]
        exact hpass.connCell idx hidx
  | succ d ih =>
      have hmore : p.log.recirCounter.toNat < sw.code.recirTimes := by
        omega
      have hpass := ingressPass_context sw (env.tab i) (env.others i r) (env.tstamp i) hp n
      obtain ⟨l, hdec, hcounter, hrun⟩ :=
        packetRun_context_more sw env (d + 1 + fuel) i hp hmore n r
      have hrounds : sw.code.recirTimes < 8 := recirTimes_lt hcompile
      have hnext : l.recirCounter.toNat = p.log.recirCounter.toNat + 1 := by
        rw [hcounter, BitVec.toNat_add]
        exact Nat.mod_eq_of_lt (by simp; omega)
      have hkept : MonitorsFrom sw mons p.log.recirCounter.toNat (env.others i r) := by
        intro m j hj hm
        rw [hothers]
        exact hr m j hj hm
      have hmon : MonitorsFrom sw mons (p.withLog l).log.recirCounter.toNat
          (passIn sw env i p n r).out.regs := by
        have hstep := monitorsFrom_pass hcompile hpass hkept
        rw [← hnext] at hstep
        exact hstep
      obtain ⟨earlier, last, htail, hlength, hcell, hconn⟩ :=
        ih (i + 1) (p := p.withLog l) hp (by
          change l.recirCounter.toNat + d = _
          omega) 0 hmon
      have hwrites : lastWrite l.ctxDec
          (roundsFrom sw p.poiseH mons l.recirCounter.toNat (d + 1)) =
            lastWrite p.log.ctxDec
              (roundsFrom sw p.poiseH mons p.log.recirCounter.toNat (d + 1 + 1)) := by
        rw [hdec, contextDecision, hfound hr i, hnext, ← lastWrite_append]
        simp only [roundsFrom, List.range'_succ, List.flatMap_cons]
      have hkey : (p.withLog l).key = p.key := by
        rw [key_context (p := p.withLog l) hp, key_context hp]
        rfl
      rw [hkey] at hcell hconn
      refine ⟨passIn sw env i p n r :: earlier, last, ?_, by rw [List.length_cons, hlength],
        ?_, ?_⟩
      · rw [show d + 1 + 1 + fuel = d + 1 + fuel + 1 by omega, hrun, htail]
        rfl
      · rw [← hwrites]
        exact hcell
      · intro idx hidx
        rw [← hwrites]
        refine hconn idx ?_
        rwa [show i + 1 + d = i + (d + 1) by omega]

end ContextRuns

/-- A variable carried through the rounds from a given start keeps it where no check fires. -/
theorem lastWrite_rounds
    {S : UnstableSort Check Check.priority} {prog : Program} {sw : Switch}
    (hcompile : compileTofino S prog = .ok sw.code)
    (hdr : PoiseH) (mons : MonRegs) (start : BitVec 4) :
    lastWrite start (roundsFrom sw hdr mons 0 (sw.code.recirTimes + 1)) =
      if carriedDecision sw.code sw.monTabs hdr 0 (fun _ => mons) = 0 then start
      else carriedDecision sw.code sw.monTabs hdr 0 (fun _ => mons) := by
  have hcarried : carriedDecision sw.code sw.monTabs hdr 0 (fun _ => mons) =
      lastWrite 0 (roundsFrom sw hdr mons 0 (sw.code.recirTimes + 1)) := by
    rw [carriedDecision, roundsFrom, lastWrite_flatMap, List.range_eq_range']
  have hwrites : ∀ w, w ∈ roundsFrom sw hdr mons 0 (sw.code.recirTimes + 1) → w ≠ 0 := by
    intro w hw
    obtain ⟨j, _, hset⟩ := List.mem_flatMap.mp hw
    exact evalRound_sets_ne_zero hcompile hset
  rw [hcarried]
  cases hrounds : roundsFrom sw hdr mons 0 (sw.code.recirTimes + 1) with
  | nil =>
      rfl
  | cons w ws =>
      rw [hrounds] at hwrites
      have hmem : lastWrite 0 (w :: ws) ∈ w :: ws := lastWrite_mem (List.cons_ne_nil w ws) 0
      rw [if_neg (hwrites _ hmem), lastWrite_cons, lastWrite_cons]

/--
What the template stores for a context packet, whatever happens in between: when
the policy is compiled under the conditions that preserve its meaning, the packet
passes once for each round, and its entry of the cache and the cell of its
connection end with the decision of the policy.  Where no check fires they end
with the decision the sender wrote into the log header.
-/
theorem packetRun_stores_policy_decision
    {S : UnstableSort Check Check.priority} {policy : List Statement} {prog : Program}
    {checks : List Check} {sw : Switch}
    (hparse : parsePolicy policy = .ok prog)
    (hchecks : processMatchexprs prog.countHeaders = .ok checks)
    (hcompile : compileTofino S prog = .ok sw.code)
    (hnames : (sw.code.tables.map TableDef.name).Nodup)
    (hheaders : ∀ c, c ∈ checks → ¬ LosesDecision checks prog.countHeaders.headerV c)
    (hmonitors : ∀ x, KeepsConditions (monitorGroup checks x))
    {env : Surroundings}
    (hothers : ∀ i r, (env.others i r).monTsHigh32 = r.monTsHigh32)
    {p : Packet} {proto : BitVec 8}
    (hp : p.contextProtocol = some proto)
    (hstart : p.log.recirCounter = 0)
    (fuel : Nat) (n : BitVec 2) (r : Registers) :
    let d := checksDecision (headerInts p.poiseH)
      (monitorActive prog sw.monTabs p.poiseH 0 r.monTsHigh32) checks
    let stored : BitVec 8 := if d = 0 then p.log.ctxDec.setWidth 8 else BitVec.ofNat 8 d
    ∃ earlier last,
      packetRun sw env (sw.code.recirTimes + 1 + fuel) 0 p n r = some (earlier ++ [last]) ∧
      earlier.length = sw.code.recirTimes ∧
      last.out.regs.cacheDec (sw.slot p.key) = stored ∧
      ∀ idx, env.tab sw.code.recirTimes p.key = some idx →
        last.out.regs.connCell idx = stored := by
  intro d stored
  obtain ⟨optimized, placed, tables, hcomp⟩ := compileTofino_compiled hcompile
  have hsrc := processMatchexprs_source (parsePolicy_wellFormed hparse) hchecks
  have hvec := hcomp.emittedVector hchecks hsrc hnames
  have hdecision :
      (carriedDecision sw.code sw.monTabs p.poiseH 0 (fun _ => r.monTsHigh32)).toNat = d := by
    rw [hcomp.carriedDecision_eq hvec]
    exact largest_firingValues_eq_checks hparse hchecks hcomp.checks hheaders hmonitors
      sw.monTabs p.poiseH 0 r.monTsHigh32
  have hzero : p.log.recirCounter.toNat = 0 := by
    rw [hstart]
    rfl
  have hstored :
      (lastWrite p.log.ctxDec
        (roundsFrom sw p.poiseH r.monTsHigh32 0 (sw.code.recirTimes + 1))).setWidth 8 =
          stored := by
    rw [lastWrite_rounds hcompile]
    by_cases hd : d = 0
    · have hnone : carriedDecision sw.code sw.monTabs p.poiseH 0 (fun _ => r.monTsHigh32) = 0 :=
        BitVec.eq_of_toNat_eq (hdecision.trans hd)
      rw [if_pos hnone, show stored = _ from if_pos hd]
    · have hsome : carriedDecision sw.code sw.monTabs p.poiseH 0 (fun _ => r.monTsHigh32) ≠ 0 := by
        intro h
        rw [h] at hdecision
        exact hd hdecision.symm
      rw [if_neg hsome, show stored = _ from if_neg hd, ← hdecision]
      exact (BitVec.ofNat_toNat ..).symm
  have hfound : MonitorsFrom sw r.monTsHigh32 p.log.recirCounter.toNat r :=
    fun _ _ _ _ => rfl
  obtain ⟨earlier, last, hrun, hlength, hcell, hconn⟩ :=
    packetRun_context hcompile hothers sw.code.recirTimes fuel 0 hp (by omega) n hfound
  rw [hzero, hstored] at hcell hconn
  rw [Nat.zero_add] at hconn
  exact ⟨earlier, last, hrun, hlength, hcell, hconn⟩

/-- The surroundings in which lists of packets pass in front of each pass of a packet. -/
def amongPackets
    (sw : Switch) (tab : ConnTab) (packets : Nat → List (Packet × BitVec 2)) : Surroundings :=
  { tab := fun _ => tab
    tstamp := fun _ => 0
    egressTstamp := fun _ => 0
    others := fun i r =>
      (packets i).foldl (fun r a => (ingressPass sw tab r 0 a.1 a.2).regs) r }

/-- Data packets between the passes of a packet leave the monitors. -/
theorem amongPackets_monitors
    (sw : Switch) (tab : ConnTab)
    {packets : Nat → List (Packet × BitVec 2)}
    (hdata : ∀ i a, a ∈ packets i → a.1.contextProtocol = none)
    (i : Nat) (r : Registers) :
    ((amongPackets sw tab packets).others i r).monTsHigh32 = r.monTsHigh32 := by
  refine foldl_invariant_of_steps (P := fun r' : Registers => r'.monTsHigh32 = r.monTsHigh32)
    rfl ?_ (packets i) [] (List.append_nil _).symm
  intro before a after hsplit hbefore
  have ha : a.1.contextProtocol = none := by
    apply hdata i
    rw [hsplit]
    simp
  exact (ingressPass_data sw tab _ 0 ha a.2).monitors.trans hbefore

/-- The log header of a packet that has not been in the switch. -/
def freshLog (ctxDec : BitVec 4) : LogHeader :=
  { recirCounter := 0, cacheStatus := 0, cacheSrcIp := 0, cachePort := 0, cacheProtoc := 0
    cacheDec := 0, ctxDec := ctxDec, outdated := 0, tsHigh32 := 0, tsIngress48 := 0
    tsEgress48 := 0 }

/-- A context packet of the client that comes in as clean, with given header values. -/
def clientContext (hdr : PoiseH) : Packet :=
  { etherType := typeIpv4, protocol := protoPoiseTcp, srcAddr := 0x0a000001, srcPort := 4000
    log := freshLog decClean
    poiseH := hdr }

/-- A data packet of the client from a given port. -/
def clientData (port : BitVec 16) : Packet :=
  { clientContext (fun _ => 0) with protocol := protoTcp, srcPort := port }

/-- Header values that only a statement of the first round is true of. -/
def onlyZero : PoiseH :=
  fun h => if h = "h0" then 1 else 0

/-- Two data packets of the client pass in front of each pass of a packet. -/
def amongData : Surroundings :=
  amongPackets (switchFor eightHeaders) emptyConnTab
    (fun _ => [(clientData 4000, 0), (clientData 4001, 0)])

theorem amongData_monitors
    (i : Nat) (r : Registers) :
    (amongData.others i r).monTsHigh32 = r.monTsHigh32 := by
  refine amongPackets_monitors (switchFor eightHeaders) emptyConnTab ?_ i r
  intro i a ha
  rcases List.mem_cons.mp ha with rfl | ha
  · rfl
  · rw [List.mem_singleton.mp ha]
    rfl

/-- The checks of the policy with eight headers; the client is to be dropped. -/
theorem eightHeaders_checks :
    ∃ checks,
      processMatchexprs (membershipProgram eightHeaders).countHeaders = .ok checks ∧
      (∀ c, c ∈ checks →
        mergedAway checks (membershipProgram eightHeaders).countHeaders.headerV c = false) ∧
      (∀ c, c ∈ checks → c.type ≠ .monitor) ∧
      checksDecision (headerInts (clientContext onlyZero).poiseH)
        (monitorActive (membershipProgram eightHeaders) (switchFor eightHeaders).monTabs
          (clientContext onlyZero).poiseH 0 Registers.zero.monTsHigh32) checks = 15 :=
  ⟨checksOf (eightHeaders.map MembershipStatement.toStatement), by decide +kernel⟩

/--
The theorem on the policy with eight headers, with data packets around each pass: what
the first of two rounds decided is stored by the second.
-/
theorem packetRun_stores_eightHeaders :
    ∃ earlier last,
      packetRun (switchFor eightHeaders) amongData
          ((switchFor eightHeaders).code.recirTimes + 1 + 0) 0 (clientContext onlyZero) 0
          Registers.zero = some (earlier ++ [last]) ∧
        earlier.length = 1 ∧
        last.out.regs.cacheDec ((switchFor eightHeaders).slot (clientContext onlyZero).key) =
          15 := by
  obtain ⟨checks, hchecks, hkept, hmonitor, hdecision⟩ := eightHeaders_checks
  have hparse : parsePolicy (eightHeaders.map MembershipStatement.toStatement) =
      .ok (membershipProgram eightHeaders) := by
    decide +kernel
  have hnames : ((switchFor eightHeaders).code.tables.map TableDef.name).Nodup := by
    decide +kernel
  have hheaders : ∀ c, c ∈ checks →
      ¬ LosesDecision checks (membershipProgram eightHeaders).countHeaders.headerV c := by
    intro c hc hlose
    rw [LosesDecision, hkept c hc] at hlose
    cases hlose.1
  have hmonitors : ∀ x, KeepsConditions (monitorGroup checks x) := by
    intro x
    have hnone : monitorGroup checks x = [] := by
      rw [List.eq_nil_iff_forall_not_mem]
      intro c hc
      exact hmonitor c (mem_monitorGroup.mp hc).1 (mem_monitorGroup.mp hc).2.1
    rw [hnone]
    exact True.intro
  obtain ⟨earlier, last, hrun, hlength, hcell, _⟩ :=
    packetRun_stores_policy_decision (p := clientContext onlyZero) hparse hchecks
      compileTofino_eightHeaders hnames hheaders hmonitors amongData_monitors rfl rfl 0 0
      Registers.zero
  rw [hdecision] at hcell
  exact ⟨earlier, last, hrun, hlength.trans recirTimes_eightHeaders, hcell⟩

/-- The number of passes that is enough for a packet. -/
def passBound (sw : Switch) (p : Packet) (n : BitVec 2) : Nat :=
  match p.contextProtocol with
  | some _ => sw.code.recirTimes - p.log.recirCounter.toNat + 1
  | none => maxResub.toNat + 1 - n.toNat

/-- No decision is enforced with the recirculation port. -/
theorem enforcePort_ne_recirPort
    {sw : Switch}
    (hmb : ∀ d, sw.mbPort d ≠ recirPort)
    (d : BitVec 4) :
    enforcePort sw d ≠ recirPort := by
  unfold enforcePort
  split
  · decide
  · split
    · decide
    · split
      · decide
      · exact hmb d

/-- What becomes of a data packet: it is resubmitted with the next number, or it leaves. -/
theorem fate_data
    {sw : Switch} {tab : ConnTab} {regs : Registers} {p : Packet} {n : BitVec 2}
    {out : PassState}
    (hpass : DataPass sw tab regs p n out)
    (hmb : ∀ d, sw.mbPort d ≠ recirPort)
    (tstamp : BitVec 48) :
    (n < maxResub ∧ out.fate p tstamp = .resubmit (n + 1)) ∨
      ∃ port p', out.fate p tstamp = .leave port p' := by
  cases hre : out.resubmitted with
  | true =>
      obtain ⟨hmore, hnum⟩ := hpass.resubmit hre
      refine Or.inl ⟨hmore, ?_⟩
      rw [PassState.fate, if_pos hre, hnum]
  | false =>
      obtain ⟨d, hport⟩ := hpass.port hre
      have hleave : out.egressPort ≠ recirPort := by
        rw [hport]
        exact enforcePort_ne_recirPort hmb d
      refine Or.inr ⟨out.egressPort, deparse p (updateLogEgressTstamp tstamp out).hdr, ?_⟩
      rw [PassState.fate, if_neg (by rw [hre]; simp), if_neg hleave]

/-- A data packet is done when the resubmissions that are left are used up. -/
theorem packetRun_data
    {sw : Switch}
    (hmb : ∀ d, sw.mbPort d ≠ recirPort)
    (env : Surroundings)
    {p : Packet}
    (hp : p.contextProtocol = none)
    (left fuel i : Nat)
    {n : BitVec 2}
    (hleft : maxResub.toNat ≤ n.toNat + left)
    (r : Registers) :
    ∃ run, packetRun sw env (left + 1 + fuel) i p n r = some run ∧
      0 < run.length ∧ run.length ≤ left + 1 := by
  induction left generalizing i n r with
  | zero =>
      have hpass := ingressPass_data sw (env.tab i) (env.others i r) (env.tstamp i) hp n
      rcases fate_data hpass hmb (env.egressTstamp i) with ⟨hmore, _⟩ | ⟨port, p', hfate⟩
      · exact absurd (BitVec.lt_def.mp hmore) (by omega)
      · refine ⟨[passIn sw env i p n r], ?_, Nat.zero_lt_one, Nat.le_refl _⟩
        rw [Nat.zero_add, Nat.add_comm, packetRun]
        simp only [passIn, hfate]
  | succ left ih =>
      have hpass := ingressPass_data sw (env.tab i) (env.others i r) (env.tstamp i) hp n
      rw [show left + 1 + 1 + fuel = left + 1 + fuel + 1 by omega, packetRun]
      rcases fate_data hpass hmb (env.egressTstamp i) with ⟨hmore, hfate⟩ | ⟨port, p', hfate⟩
      · have hnum : (n + 1).toNat = n.toNat + 1 := by
          have hlt : n.toNat < 3 := BitVec.lt_def.mp hmore
          rw [BitVec.toNat_add]
          exact Nat.mod_eq_of_lt (by simp; omega)
        obtain ⟨run, hrun, hpos, hlength⟩ :=
          ih (i + 1) (n := n + 1) (by omega) (passIn sw env i p n r).out.regs
        refine ⟨passIn sw env i p n r :: run, ?_, Nat.succ_pos _, ?_⟩
        · simp only [passIn] at hrun ⊢
          simp only [hfate, hrun, Option.map_some]
        · rw [List.length_cons]
          omega
      · refine ⟨[passIn sw env i p n r], ?_, Nat.zero_lt_one, ?_⟩
        · simp only [passIn, hfate]
        · rw [List.length_singleton]
          omega

/-- A context packet is done after the rounds that are left for its counter. -/
theorem packetRun_context_length
    {sw : Switch}
    (hrounds : sw.code.recirTimes < 8)
    (env : Surroundings)
    (d fuel i : Nat)
    {p : Packet} {proto : BitVec 8}
    (hp : p.contextProtocol = some proto)
    (hd : sw.code.recirTimes - p.log.recirCounter.toNat = d)
    (n : BitVec 2) (r : Registers) :
    ∃ run, packetRun sw env (d + 1 + fuel) i p n r = some run ∧ run.length = d + 1 := by
  induction d generalizing i p n r with
  | zero =>
      refine ⟨[passIn sw env i p n r], ?_, rfl⟩
      rw [Nat.zero_add, Nat.add_comm]
      exact packetRun_context_last sw env fuel i hp (by omega) n r
  | succ d ih =>
      obtain ⟨l, _, hcounter, hrun⟩ :=
        packetRun_context_more sw env (d + 1 + fuel) i hp (by omega) n r
      have hnext : l.recirCounter.toNat = p.log.recirCounter.toNat + 1 := by
        rw [hcounter, BitVec.toNat_add]
        exact Nat.mod_eq_of_lt (by simp; omega)
      have hleft : sw.code.recirTimes - (p.withLog l).log.recirCounter.toNat = d := by
        change sw.code.recirTimes - l.recirCounter.toNat = d
        omega
      obtain ⟨run, htail, hlength⟩ :=
        ih (i + 1) (p := p.withLog l) hp hleft 0 (passIn sw env i p n r).out.regs
      refine ⟨passIn sw env i p n r :: run, ?_, by rw [List.length_cons, hlength]⟩
      rw [show d + 1 + 1 + fuel = d + 1 + fuel + 1 by omega, hrun, htail]
      rfl

/--
Every packet leaves the switch, whatever the tables, the clocks and the other
packets do between its passes: a context packet after the rounds that are left for
the counter it carries, any other packet after at most three resubmissions, when no
middlebox is on the recirculation port.
-/
theorem packetRun_leaves
    {S : UnstableSort Check Check.priority} {prog : Program} {sw : Switch}
    (hcompile : compileTofino S prog = .ok sw.code)
    (hmb : ∀ d, sw.mbPort d ≠ recirPort)
    (env : Surroundings) (fuel i : Nat) (p : Packet) (n : BitVec 2) (r : Registers) :
    ∃ run, packetRun sw env (passBound sw p n + fuel) i p n r = some run ∧
      0 < run.length ∧ run.length ≤ passBound sw p n ∧
      (p.contextProtocol.isSome = true → run.length = passBound sw p n) := by
  cases hp : p.contextProtocol with
  | some proto =>
      obtain ⟨run, hrun, hlength⟩ :=
        packetRun_context_length (recirTimes_lt hcompile) env
          (sw.code.recirTimes - p.log.recirCounter.toNat) fuel i hp rfl n r
      refine ⟨run, ?_, by omega, ?_, fun _ => ?_⟩
      · simpa only [passBound, hp] using hrun
      · simpa only [passBound, hp] using hlength.le
      · simpa only [passBound, hp] using hlength
  | none =>
      have hn : n.toNat < 4 := n.isLt
      have hthree : maxResub.toNat = 3 := rfl
      have hbound : passBound sw p n = (3 - n.toNat) + 1 := by
        simp only [passBound, hp]
        omega
      obtain ⟨run, hrun, hpos, hlength⟩ :=
        packetRun_data hmb env hp (3 - n.toNat) fuel i (n := n) (by omega) r
      rw [hbound]
      exact ⟨run, hrun, hpos, hlength, fun h => by cases h⟩

/-- A context packet of another address passes in front of the first pass of a packet. -/
def behindStranger : Surroundings :=
  amongPackets (switchFor eightHeaders) emptyConnTab
    (fun i =>
      if i = 0 then [({ clientContext (fun _ => 1) with srcAddr := 0x0a000002 }, 0)] else [])

/--
The theorem on the policy with eight headers: a context packet makes two passes with
data packets around them, and a data packet that collides with the entry of another
address is resubmitted three times.
-/
theorem packetRun_leaves_eightHeaders :
    (∃ run,
      packetRun (switchFor eightHeaders) amongData
          (passBound (switchFor eightHeaders) (clientContext onlyZero) 0 + 0) 0
          (clientContext onlyZero) 0 Registers.zero = some run ∧
        run.length = 2) ∧
      ∃ run,
        packetRun (switchFor eightHeaders) behindStranger
            (passBound (switchFor eightHeaders) (clientData 10864) 0 + 0) 0 (clientData 10864) 0
            Registers.zero = some run ∧
          run.length ≤ 4 ∧ run.map (fun q => q.out.resubmitted) = [true, true, true, false] := by
  have hmb : ∀ d, (switchFor eightHeaders).mbPort d ≠ recirPort := by
    intro d
    change (7 : BitVec 9) ≠ recirPort
    decide
  obtain ⟨run, hrun, _, _, hlength⟩ :=
    packetRun_leaves compileTofino_eightHeaders hmb amongData 0 0 (clientContext onlyZero) 0
      Registers.zero
  obtain ⟨run', hrun', _, hlength', _⟩ :=
    packetRun_leaves compileTofino_eightHeaders hmb behindStranger 0 0 (clientData 10864) 0
      Registers.zero
  have hpasses :
      (packetRun (switchFor eightHeaders) behindStranger
        (passBound (switchFor eightHeaders) (clientData 10864) 0 + 0) 0 (clientData 10864) 0
        Registers.zero).map (fun run => run.map (fun q => q.out.resubmitted)) =
          some [true, true, true, false] := by
    decide +kernel
  have hbound : passBound (switchFor eightHeaders) (clientContext onlyZero) 0 = 2 := by
    decide +kernel
  rw [hrun', Option.map_some, Option.some.injEq] at hpasses
  exact ⟨⟨run, hrun, (hlength rfl).trans hbound⟩, run', hrun', hlength', hpasses⟩

end RecirTemplateRuns

end RecirTemplate

end Poise
