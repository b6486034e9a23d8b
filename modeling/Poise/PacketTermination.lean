import Mathlib.Tactic
import Poise.Recirculation
import Poise.CacheCoherence

/-!
# Poise data plane: how often a packet passes through the switch

The passes of one packet while the rest of the world does anything in between.

* A context packet makes one pass for each round of its policy and is dropped
  behind the last one.  The result of a pass is that of applying the tables of the
  round, and over the passes every check of the policy is applied once, in the
  order of the compiler.
* A data packet is sent back when it collides in the cache.  Its counter is kept
  in a header that is not parsed for data packets, so the counter it is compared
  with is zero in every pass, and nothing but the registers it finds ends its
  run.
-/

namespace Poise

open Foundations

section PacketTermination

@[simp] theorem withCounter_self
    (p : Packet) :
    p.withCounter (BitVec.ofNat 8 p.recirCounter.toNat) = p := by
  rw [BitVec.ofNat_toNat, BitVec.setWidth_eq]
  rfl

/-- A recorded pass of a context packet that carries a given counter. -/
structure CountedPass
    (sw : Switch) (env : Surroundings) (p : Packet) (q : PassRecord) (k : Nat) : Prop where
  packet : q.packet = p.withCounter (BitVec.ofNat 8 k)
  pass : ∃ n, q.out = ingressPass sw (env.tab n) q.found (env.tstamp n) q.packet
  port : q.out.egressPort = if k < sw.code.recirTimes then recirPort else dropPort

/-- The first pass of a context packet. -/
theorem countedPass_passIn
    (sw : Switch) (env : Surroundings)
    {p : Packet} {c : Connection}
    (hp : p.contextOf = some c)
    (n : Nat) (r : Registers) :
    CountedPass sw env p (passIn sw env n p r) p.recirCounter.toNat where
  packet := (withCounter_self p).symm
  pass := ⟨n, passIn_out sw env n p r⟩
  port := (passIn_context sw env n r hp).port

/-- The passes of a context packet, from the counter it carries to `RECIR_TIMES`. -/
theorem recirculate_countedPasses
    (sw : Switch) (env : Surroundings)
    (hrounds : sw.code.recirTimes < 255)
    {c : Connection}
    (d fuel n : Nat)
    {p : Packet} {r : Registers}
    (hp : p.contextOf = some c)
    (hd : p.recirCounter.toNat + d = sw.code.recirTimes) :
    List.Forall₂ (CountedPass sw env p) (recirculate sw env (d + 1 + fuel) n p r)
      (List.range' p.recirCounter.toNat (d + 1)) := by
  induction d generalizing n p r with
  | zero =>
      have hfirst := countedPass_passIn sw env hp n r
      have hport := hfirst.port
      rw [if_neg (by omega)] at hport
      have hrun : recirculate sw env (0 + 1 + fuel) n p r = [passIn sw env n p r] := by
        rw [show 0 + 1 + fuel = fuel + 1 by omega, recirculate]
        simp only [hport]
        rw [if_neg (by decide)]
      rw [hrun, Nat.zero_add, List.range'_one]
      exact List.Forall₂.cons hfirst List.Forall₂.nil
  | succ d ih =>
      have hmore : p.recirCounter.toNat < sw.code.recirTimes := by
        omega
      have hfirst := countedPass_passIn sw env hp n r
      have hport := hfirst.port
      rw [if_pos hmore] at hport
      have hnext : (p.recirCounter + 1).toNat = p.recirCounter.toNat + 1 := by
        rw [BitVec.toNat_add]
        exact Nat.mod_eq_of_lt (by simp; omega)
      have hrun :
          recirculate sw env (d + 1 + 1 + fuel) n p r =
            passIn sw env n p r ::
              recirculate sw env (d + 1 + fuel) (n + 1) (p.withCounter (p.recirCounter + 1))
                (passIn sw env n p r).out.regs := by
        rw [show d + 1 + 1 + fuel = d + 1 + fuel + 1 by omega, recirculate]
        simp only [hport, deparse_context (passIn_context sw env n r hp) hmore]
        rfl
      have htail := ih (n + 1) (p := p.withCounter (p.recirCounter + 1))
        (r := (passIn sw env n p r).out.regs) hp (by
          change (p.recirCounter + 1).toNat + d = _
          omega)
      have hcounter : (p.withCounter (p.recirCounter + 1)).recirCounter.toNat =
          p.recirCounter.toNat + 1 := hnext
      rw [hcounter] at htail
      rw [hrun, List.range'_succ]
      exact List.Forall₂.cons hfirst
        (htail.imp (fun q k hq => ⟨hq.packet, hq.pass, hq.port⟩))

/-- The state behind some statements of `EvaluateContext`, on what a recorded pass found. -/
def runStmts (sw : Switch) (q : PassRecord) (stmts : List EvalStmt) : EvalState :=
  stmts.foldl (evalStmt sw.code sw.monTabs q.packet.poiseH 0) (evalStart q.found.monTsHigh32)

/--
A recorded pass has applied some statements: its calls of `set_ctx_dec`, the decision
it has behind them and the monitors it leaves are those of running the statements one
after the other.
-/
structure AppliesStmts (sw : Switch) (q : PassRecord) (stmts : List EvalStmt) : Prop where
  calls : passSets sw q = (runStmts sw q stmts).sets
  decision : q.out.metadata.ctxDec = lastWrite 0 (runStmts sw q stmts).sets
  monitors : q.out.regs.monTsHigh32 = (runStmts sw q stmts).monRegs

/-- A pass applies the statements of the round that its counter names. -/
theorem CountedPass.appliesStmts
    {sw : Switch} {env : Surroundings} {p : Packet} {q : PassRecord} {k : Nat} {c : Connection}
    (hq : CountedPass sw env p q k)
    (hp : p.contextOf = some c)
    (hk : k < 256) :
    AppliesStmts sw q (roundBody sw.code k) := by
  have hcounter : q.packet.recirCounter.toNat = k := by
    rw [hq.packet]
    change (BitVec.ofNat 8 k).toNat = k
    rw [BitVec.toNat_ofNat]
    exact Nat.mod_eq_of_lt hk
  have hctx : q.packet.contextOf = some c := by
    rw [hq.packet]
    exact hp
  obtain ⟨n, hout⟩ := hq.pass
  have hpass := ingressPass_context sw (env.tab n) q.found (env.tstamp n) hctx
  have hsets : contextSets sw q.found q.packet = (runStmts sw q (roundBody sw.code k)).sets := by
    rw [contextSets, hcounter, evalRound, runStmts]
  refine ⟨hsets, ?_, ?_⟩
  · rw [hout, hpass.decision, contextDecision, hsets]
  · rw [hout, hpass.monitors, hcounter, evalRound, runStmts]

/-- The checks of one round, in the order of the vector. -/
def checksOfRound (checkV : List Check) (k : Nat) : List Check :=
  checkV.filter (fun c => decide (c.recNum = k))

/-- The rounds of an accepted policy partition its checks. -/
theorem Compiled.flatMap_checksOfRound
    {S : UnstableSort Check Check.priority} {prog : Program} {code : PolicyCode}
    {optimized placed : List Check} {tables : List TableDef}
    (hcomp : Compiled S prog code optimized placed tables) :
    (List.range (code.recirTimes + 1)).flatMap (checksOfRound (placed.map nameTable)) =
      placed.map nameTable := by
  have hsorted :
      (placed.map nameTable).Pairwise (fun c d => c.recNum ≤ d.recNum) := by
    rw [List.pairwise_map]
    exact allocateFrom_sorted hcomp.walk
  unfold checksOfRound
  rw [flatMap_filter_range hsorted, List.filter_eq_self]
  intro c hc
  obtain ⟨d, hd, rfl⟩ := List.mem_map.mp hc
  have hle : d.recNum ≤ code.recirTimes := ((allocateFrom_bounds hcomp.walk).2 d hd).2
  have hrec : (nameTable d).recNum = d.recNum := rfl
  simp only [decide_eq_true_eq]
  omega

/--
For every accepted policy, whatever is installed in its tables and whatever the
registers and the other packets do: a context packet that enters with counter
zero makes the passes `0 .. RECIR_TIMES` and no more, pass `k` applies the
statements of the checks of round `k` in check order and leaves on the
recirculation port except for the last one, which leaves on the drop port; and
the rounds together are the whole vector of checks.
-/
theorem contextPacket_passes
    {S : UnstableSort Check Check.priority} {prog : Program} {code : PolicyCode}
    (hcompile : compileTofino S prog = .ok code)
    (sw : Switch)
    (installed : List TableEntry)
    (hsw : sw.code = { code with entries := installed })
    (env : Surroundings) (r : Registers)
    {p : Packet}
    (hp : p.isContext = true)
    (hzero : p.recirCounter = 0)
    (fuel : Nat) :
    code.recirTimes ≤ 7 ∧
      ∃ optimized placed tables,
        Compiled S prog code optimized placed tables ∧
        (List.range (code.recirTimes + 1)).flatMap (checksOfRound (placed.map nameTable)) =
          placed.map nameTable ∧
        List.Forall₂
          (fun q k =>
            AppliesStmts sw q ((checksOfRound (placed.map nameTable) k).flatMap evalStmts) ∧
              q.out.egressPort = if k < code.recirTimes then recirPort else dropPort)
          (recirculate sw env (code.recirTimes + 1 + fuel) 0 p r)
          (List.range (code.recirTimes + 1)) := by
  obtain ⟨c, hc⟩ := Option.isSome_iff_exists.mp hp
  have hlt := recirTimes_lt hcompile
  obtain ⟨optimized, placed, tables, hcomp⟩ := compileTofino_compiled hcompile
  refine ⟨by omega, optimized, placed, tables, hcomp, hcomp.flatMap_checksOfRound, ?_⟩
  have hrecir : sw.code.recirTimes = code.recirTimes := by
    rw [hsw]
  have hbody : ∀ k,
      roundBody sw.code k = (checksOfRound (placed.map nameTable) k).flatMap evalStmts := by
    intro k
    rw [hsw]
    exact roundBody_eq hcomp k
  have hpasses :=
    recirculate_countedPasses sw env (by omega) code.recirTimes fuel 0 (r := r) hc
      (by rw [hzero, hrecir]; simp)
  rw [hzero, show (0 : BitVec 8).toNat = 0 from rfl, ← List.range_eq_range'] at hpasses
  rw [List.forall₂_iff_zip] at hpasses ⊢
  refine ⟨hpasses.1, ?_⟩
  intro q k hqk
  have hq := hpasses.2 hqk
  have hk := List.mem_range.mp (List.of_mem_zip hqk).2
  refine ⟨?_, ?_⟩
  · rw [← hbody]
    exact hq.appliesStmts hc (by omega)
  · rw [hq.port, hrecir]

/-- A context packet of another address passes in front of each pass of a packet. -/
def withStranger (sw : Switch) : Surroundings :=
  { tab := fun _ => emptyConnTab
    tstamp := fun _ => 5
    others := fun _ r =>
      passStep sw emptyConnTab r
        { packet := stranger.contextPacket 0 (fun _ => 1), tstamp := 5 } }

/-- The tables of the two rounds of the policy with eight headers. -/
theorem roundBody_eightHeaders :
    roundBody (switchFor eightHeaders).code 0 =
        [.applyTable "eval_h0_tab_rec0_id0", .applyTable "eval_h1_tab_rec0_id1",
          .applyTable "eval_h2_tab_rec0_id2", .applyTable "eval_h3_tab_rec0_id3",
          .applyTable "eval_h4_tab_rec0_id4", .applyTable "eval_h5_tab_rec0_id5",
          .applyTable "eval_h6_tab_rec0_id6"] ∧
      roundBody (switchFor eightHeaders).code 1 = [.applyTable "eval_h7_tab_rec1_id7"] := by
  decide +kernel

/--
The theorem on the policy with eight headers: a packet is sent back once behind the
tables of seven headers, and the table of the eighth then comes to the drop decision.
-/
theorem eightHeaders_passes :
    ∃ q₀ q₁,
      recirculate (switchFor eightHeaders) (withStranger (switchFor eightHeaders)) (1 + 1 + 3) 0
          (tcpClient.contextPacket 0 onlySeven) Registers.zero = [q₀, q₁] ∧
        AppliesStmts (switchFor eightHeaders) q₀
          [.applyTable "eval_h0_tab_rec0_id0", .applyTable "eval_h1_tab_rec0_id1",
            .applyTable "eval_h2_tab_rec0_id2", .applyTable "eval_h3_tab_rec0_id3",
            .applyTable "eval_h4_tab_rec0_id4", .applyTable "eval_h5_tab_rec0_id5",
            .applyTable "eval_h6_tab_rec0_id6"] ∧
        q₀.out.metadata.ctxDec = 0 ∧
        q₀.out.egressPort = recirPort ∧
        AppliesStmts (switchFor eightHeaders) q₁ [.applyTable "eval_h7_tab_rec1_id7"] ∧
        q₁.out.metadata.ctxDec = 15 ∧
        q₁.out.egressPort = dropPort := by
  obtain ⟨_, _, _, _, hcomp, _, hrun⟩ :=
    contextPacket_passes compileTofino_eightHeaders (switchFor eightHeaders) _ rfl
      (withStranger (switchFor eightHeaders)) Registers.zero
      (p := tcpClient.contextPacket 0 onlySeven) rfl rfl 3
  have hbody := roundBody_eq hcomp
  have hdecisions :
      (recirculate (switchFor eightHeaders) (withStranger (switchFor eightHeaders)) (1 + 1 + 3) 0
        (tcpClient.contextPacket 0 onlySeven) Registers.zero).map
          (fun q => q.out.metadata.ctxDec) = [0, 15] := by
    decide +kernel
  rw [recirTimes_eightHeaders] at hrun
  obtain ⟨q₀, _, ⟨hstmts₀, hport₀⟩, htail, heq⟩ := List.forall₂_cons_right_iff.mp hrun
  obtain ⟨q₁, _, ⟨hstmts₁, hport₁⟩, hnil, rfl⟩ := List.forall₂_cons_right_iff.mp htail
  rw [List.forall₂_nil_right_iff.mp hnil] at heq
  rw [heq, List.map_cons, List.map_cons, List.cons.injEq, List.cons.injEq] at hdecisions
  rw [checksOfRound, ← hbody, roundBody_eightHeaders.1] at hstmts₀
  rw [checksOfRound, ← hbody] at hstmts₁
  refine ⟨q₀, q₁, heq, hstmts₀, hdecisions.1, hport₀, ?_, hdecisions.2.1, hport₁⟩
  rw [← roundBody_eightHeaders.2]
  exact hstmts₁

/-- The cells of the Bloom filter that stand for an entry are all set. -/
def BloomFull (sw : Switch) (regs : Registers) (e : CacheEntry) : Prop :=
  ∀ f, (regs.bloomBit f (sw.bloomCell f e)).setWidth 1 = (1 : BitVec 1)

/-- The decision a data packet is enforced with, if any. -/
def enforcedDecision
    (sw : Switch) (tab : ConnTab) (regs : Registers) (tstamp : BitVec 16) (p : Packet) :
    Option (BitVec 4) :=
  match tab p.key with
  | some idx => some ((regs.connCell (connCellOf idx)).setWidth 4)
  | none =>
      if (regs.entry (sw.slot p.key)).srcIp = p.key.1 ∧
          isFresh (regs.entry (sw.slot p.key)) tstamp = true then
        some ((regs.entry (sw.slot p.key)).dec.setWidth 4)
      else none

/--
What a data packet has to find to be sent back: it is not enforced and collides
with an entry of another address that the Bloom filter does not remember, or an
enforcement entry forwards to the recirculation port.
-/
def SentBack
    (sw : Switch) (tab : ConnTab) (regs : Registers) (tstamp : BitVec 16) (p : Packet) : Prop :=
  match enforcedDecision sw tab regs tstamp p with
  | some d => enforcePort sw d = recirPort
  | none =>
      (regs.entry (sw.slot p.key)).srcIp ≠ p.key.1 ∧
        (regs.entry (sw.slot p.key)).dec.setWidth 4 ≠ (0 : BitVec 4) ∧
        ¬ BloomFull sw regs (regs.entry (sw.slot p.key))

/-- A data packet reads the cell of the entry it found. -/
theorem bfAlu_read
    {s : PassState} {e : CacheEntry}
    (hash : BitVec 16 → BitVec 32 → BitVec 8 → Fin bfSize)
    (reg : Fin bfSize → BitVec 8)
    (val : BitVec 1)
    (hdata : s.contextPred = false)
    (hport : s.metadata.cacheSrcPort = e.srcPort)
    (hsrc : s.metadata.cacheSrcIp = e.srcIp)
    (hprotoc : s.metadata.cacheProtoc = e.protoc) :
    (bfAlu s hash reg val).1 = (reg (hash e.srcPort e.srcIp e.protoc)).setWidth 1 := by
  simp [bfAlu, hdata, hport, hsrc, hprotoc]

/-- The values a data packet reads from the Bloom filter on a collision. -/
theorem classifyCache_bloomVals
    (sw : Switch)
    {s : PassState} {e : CacheEntry}
    (hdata : s.contextPred = false)
    (hip : s.metadata.cacheSrcIp ≠ s.hdr.srcAddr)
    (hdec : s.metadata.cacheDec ≠ 0)
    (hport : s.metadata.cacheSrcPort = e.srcPort)
    (hsrc : s.metadata.cacheSrcIp = e.srcIp)
    (hprotoc : s.metadata.cacheProtoc = e.protoc) :
    ((classifyCache sw s).metadata.bf1Val = 1 ∧
      (classifyCache sw s).metadata.bf2Val = 1 ∧
      (classifyCache sw s).metadata.bf3Val = 1) ↔ BloomFull sw s.regs e := by
  rw [classifyCache, if_neg hip, if_neg hdec]
  -- an ALU changes neither the fields the next one hashes nor its array
  have h₁ : (handleBf3 sw (handleBf2 sw (handleBf1 sw s))).metadata.bf1Val =
      (s.regs.bloomBit .bf1 (sw.bloomCell .bf1 e)).setWidth 1 :=
    bfAlu_read sw.bf1Hash s.regs.bf1 _ hdata hport hsrc hprotoc
  have h₂ : (handleBf3 sw (handleBf2 sw (handleBf1 sw s))).metadata.bf2Val =
      (s.regs.bloomBit .bf2 (sw.bloomCell .bf2 e)).setWidth 1 :=
    bfAlu_read (s := handleBf1 sw s) sw.bf2Hash s.regs.bf2 _ hdata hport hsrc hprotoc
  have h₃ : (handleBf3 sw (handleBf2 sw (handleBf1 sw s))).metadata.bf3Val =
      (s.regs.bloomBit .bf3 (sw.bloomCell .bf3 e)).setWidth 1 :=
    bfAlu_read (s := handleBf2 sw (handleBf1 sw s)) sw.bf3Hash s.regs.bf3 _ hdata hport hsrc
      hprotoc
  rw [h₁, h₂, h₃]
  constructor
  · rintro ⟨hf₁, hf₂, hf₃⟩ f
    cases f with
    | bf1 => exact hf₁
    | bf2 => exact hf₂
    | bf3 => exact hf₃
  · intro hfull
    exact ⟨hfull .bf1, hfull .bf2, hfull .bf3⟩

/-- The Bloom filter values in front of enforcement, for a data packet that collides. -/
theorem lookup_bloomVals
    (sw : Switch) (tab : ConnTab) (tstamp : BitVec 16)
    {s : PassState}
    (hdata : s.contextPred = false)
    (hip : (s.regs.entry (cacheHashCalc sw s)).srcIp ≠ s.hdr.srcAddr)
    (hdec : (s.regs.entry (cacheHashCalc sw s)).dec.setWidth 4 ≠ (0 : BitVec 4)) :
    ((lookup sw tab tstamp s).metadata.bf1Val = 1 ∧
      (lookup sw tab tstamp s).metadata.bf2Val = 1 ∧
      (lookup sw tab tstamp s).metadata.bf3Val = 1) ↔
    BloomFull sw s.regs (s.regs.entry (cacheHashCalc sw s)) := by
  obtain ⟨i₁, i₂, d, r, hbefore, _, h₁, h₂, h₃⟩ := exists_beforeClassify sw tab tstamp s
  have hsame : BloomFull sw r (s.regs.entry (cacheHashCalc sw s)) ↔
      BloomFull sw s.regs (s.regs.entry (cacheHashCalc sw s)) := by
    simp only [BloomFull, Registers.bloomBit_congr h₁ h₂ h₃]
  rw [lookup, hbefore, ← hsame]
  refine classifyCache_bloomVals sw ?_ ?_ ?_ ?_ ?_ ?_
  · exact hdata
  · exact hip
  · exact hdec
  · rfl
  · rfl
  · rfl

/-- The port of a data packet that is not enforced, and its counter. -/
theorem enforceMiss_port
    (sw : Switch)
    {s : PassState}
    (hnot : ¬ (s.metadata.cacheHit = cacheHitVal ∧ s.metadata.tstampHigh32Outdated = 0))
    (hcounter : s.hdr.recirCounter = none) :
    ((enforceMiss sw s).egressPort = recirPort ↔
      s.metadata.cacheHit = cacheColl ∧
        ¬ (s.metadata.bf1Val = 1 ∧ s.metadata.bf2Val = 1 ∧ s.metadata.bf3Val = 1)) := by
  have hdrop : ∀ t : PassState, (myDrop t).egressPort ≠ recirPort := by
    intro t
    change dropPort ≠ recirPort
    decide
  have hlt : s.hdr.counter < maxRecirTimes := by
    rw [Headers.counter, hcounter]
    decide
  rw [enforceMiss, if_neg hnot]
  by_cases hcoll : s.metadata.cacheHit = cacheColl
  · rw [if_pos hcoll]
    by_cases hbf : s.metadata.bf1Val = 1 ∧ s.metadata.bf2Val = 1 ∧ s.metadata.bf3Val = 1
    · rw [if_pos hbf]
      exact ⟨fun h => absurd h (hdrop s), fun h => absurd hbf h.2⟩
    · rw [if_neg hbf, if_pos hlt]
      exact ⟨fun _ => ⟨hcoll, hbf⟩, fun _ => rfl⟩
  · rw [if_neg hcoll]
    exact ⟨fun h => absurd h (hdrop s), fun h => absurd h.1 hcoll⟩

/-- The counter stays absent in a data packet. -/
theorem enforce_recirCounter
    (sw : Switch)
    {s : PassState}
    (hcounter : s.hdr.recirCounter = none) :
    (enforce sw s).hdr.recirCounter = none := by
  have hmiss : (enforceMiss sw s).hdr.recirCounter = none := by
    unfold enforceMiss
    split
    · exact hcounter
    · split
      · split
        · exact hcounter
        · split
          · change s.hdr.recirCounter.map (· + 1) = none
            rw [hcounter]
            rfl
          · exact hcounter
      · exact hcounter
  unfold enforce
  split
  · split
    · split
      · exact hcounter
      · exact hcounter
    · exact hmiss
  · split
    · exact hcounter
    · exact hcounter

/-- The port of a data packet that finds neither an entry of its own nor a fresh decision. -/
theorem DataLookup.missedPort_iff
    {sw : Switch} {tab : ConnTab} {regs : Registers} {tstamp : BitVec 16} {p : Packet}
    {s : PassState}
    (hs : DataLookup sw tab regs tstamp p s)
    (htab : tab p.key = none)
    (hnot : ¬ ((regs.entry (sw.slot p.key)).srcIp = p.key.1 ∧
      isFresh (regs.entry (sw.slot p.key)) tstamp = true)) :
    (ingressPass sw tab regs tstamp p).egressPort = recirPort ↔
      (regs.entry (sw.slot p.key)).srcIp ≠ p.key.1 ∧
        (regs.entry (sw.slot p.key)).dec.setWidth 4 ≠ (0 : BitVec 4) ∧
        ¬ BloomFull sw regs (regs.entry (sw.slot p.key)) := by
  have hlook := lookup_spec sw tab tstamp s
  have hcounter : (lookup sw tab tstamp s).hdr.recirCounter = none := by
    rw [hlook.hdr]
    exact hs.counter
  have hentry : s.regs.entry (cacheHashCalc sw s) = regs.entry (sw.slot p.key) := by
    rw [hs.slot, hs.registers]
  rw [hs.enforceMiss htab, enforceMiss_port sw (by rw [hs.freshHit_iff]; exact hnot) hcounter,
    hlook.cacheHit, hs.cacheHit, hentry, hs.addr]
  by_cases hip : (regs.entry (sw.slot p.key)).srcIp = p.key.1
  · rw [if_pos hip]
    exact ⟨fun h => absurd h.1 (by decide), fun h => absurd hip h.1⟩
  · rw [if_neg hip]
    by_cases hdec : (regs.entry (sw.slot p.key)).dec.setWidth 4 = (0 : BitVec 4)
    · rw [if_pos hdec]
      exact ⟨fun h => absurd h.1 (by decide), fun h => absurd hdec h.2.1⟩
    · rw [if_neg hdec, lookup_bloomVals sw tab tstamp hs.contextPred
        (by rw [hentry, hs.addr]; exact hip)
        (by rw [hentry]; exact hdec), hentry, hs.registers]
      exact ⟨fun h => ⟨hip, hdec, h.2⟩, fun h => ⟨rfl, h.2.2⟩⟩

/-- The decision a data packet is enforced with is the one its pass records. -/
theorem DataPass.enforced_eq
    {sw : Switch} {tab : ConnTab} {regs : Registers} {tstamp : BitVec 16} {p : Packet}
    {out : PassState}
    (hpass : DataPass sw tab regs tstamp p out) :
    out.enforced.map Enforcement.decision = enforcedDecision sw tab regs tstamp p := by
  rw [enforcedDecision]
  cases htab : tab p.key with
  | some idx =>
      rw [hpass.hit idx htab]
      rfl
  | none =>
      rw [hpass.miss htab]
      split <;> rfl

/-- A data pass gives the packet back as it came, and on the recirculation port when sent back. -/
theorem ingressPass_data_sentBack
    (sw : Switch) (tab : ConnTab) (regs : Registers) (tstamp : BitVec 16)
    {p : Packet}
    (h : p.contextOf = none) :
    ((ingressPass sw tab regs tstamp p).egressPort = recirPort ↔
        SentBack sw tab regs tstamp p) ∧
      deparse p (ingressPass sw tab regs tstamp p).hdr = p := by
  obtain ⟨s, hs⟩ := exists_dataLookup sw tab regs tstamp h
  have hpass := ingressPass_data sw tab regs tstamp h
  constructor
  · rw [SentBack]
    cases hdec : enforcedDecision sw tab regs tstamp p with
    | some d =>
        rw [← hpass.enforced_eq] at hdec
        obtain ⟨e, he, rfl⟩ := Option.map_eq_some_iff.mp hdec
        rw [hpass.enforcedPort e he]
    | none =>
        rw [enforcedDecision] at hdec
        cases htab : tab p.key with
        | some idx =>
            rw [htab] at hdec
            cases hdec
        | none =>
            rw [htab] at hdec
            simp only at hdec
            split at hdec
            · cases hdec
            · rename_i hnot
              exact hs.missedPort_iff htab hnot
  · have hcounter : (lookup sw tab tstamp s).hdr.recirCounter = none := by
      rw [(lookup_spec sw tab tstamp s).hdr]
      exact hs.counter
    rw [hs.out, deparse, enforce_recirCounter sw hcounter]
    rfl

/-- The registers in front of a pass of a data packet, before the others act on them. -/
def beforePass (env : Surroundings) (r : Registers) : Nat → Registers
  | 0 => r
  | k + 1 => env.others k (beforePass env r k)

/-- What the packet finds in a pass sends it back. -/
def SentBackAt
    (sw : Switch) (env : Surroundings) (p : Packet) (r : Registers) (k : Nat) : Prop :=
  SentBack sw (env.tab k) (env.others k (beforePass env r k)) (env.tstamp k) p

/-- The record of one pass of a data packet. -/
def dataPassAt
    (sw : Switch) (env : Surroundings) (p : Packet) (r : Registers) (k : Nat) : PassRecord :=
  passIn sw env k p (beforePass env r k)

theorem dataPassAt_egressPort
    (sw : Switch) (env : Surroundings)
    {p : Packet}
    (h : p.contextOf = none)
    (r : Registers)
    (k : Nat) :
    (dataPassAt sw env p r k).out.egressPort = recirPort ↔ SentBackAt sw env p r k :=
  (ingressPass_data_sentBack sw (env.tab k) _ (env.tstamp k) h).1

/-- A pass that sends the packet back is followed by the next one. -/
theorem recirculate_data_sentBack
    (sw : Switch) (env : Surroundings)
    {p : Packet}
    (h : p.contextOf = none)
    (r : Registers)
    {k : Nat}
    (hback : SentBackAt sw env p r k)
    (fuel : Nat) :
    recirculate sw env (fuel + 1) k p (beforePass env r k) =
      dataPassAt sw env p r k ::
        recirculate sw env fuel (k + 1) p (beforePass env r (k + 1)) := by
  have hport := (dataPassAt_egressPort sw env h r k).mpr hback
  have hsame : deparse p (dataPassAt sw env p r k).out.hdr = p :=
    (ingressPass_data_sentBack sw (env.tab k) _ (env.tstamp k) h).2
  have hregs : (dataPassAt sw env p r k).out.regs = beforePass env r (k + 1) :=
    (ingressPass_data sw (env.tab k) _ (env.tstamp k) h).unchanged
  rw [recirculate]
  change (if (dataPassAt sw env p r k).out.egressPort = recirPort then
      dataPassAt sw env p r k ::
        recirculate sw env fuel (k + 1) (deparse p (dataPassAt sw env p r k).out.hdr)
          (dataPassAt sw env p r k).out.regs
    else [dataPassAt sw env p r k]) = _
  rw [if_pos hport, hsame, hregs]

/-- Any other pass is the last one. -/
theorem recirculate_data_last
    (sw : Switch) (env : Surroundings)
    {p : Packet}
    (h : p.contextOf = none)
    (r : Registers)
    {k : Nat}
    (hback : ¬ SentBackAt sw env p r k)
    (fuel : Nat) :
    recirculate sw env (fuel + 1) k p (beforePass env r k) = [dataPassAt sw env p r k] := by
  rw [recirculate]
  exact if_neg (fun hport => hback ((dataPassAt_egressPort sw env h r k).mp hport))

/-- As long as the packet is sent back, its passes follow one another. -/
theorem recirculate_data_passes
    (sw : Switch) (env : Surroundings)
    {p : Packet}
    (h : p.contextOf = none)
    (r : Registers)
    (d : Nat)
    {k : Nat}
    (hback : ∀ j, k ≤ j → j < k + d → SentBackAt sw env p r j)
    (fuel : Nat) :
    recirculate sw env (d + fuel) k p (beforePass env r k) =
      (List.range' k d).map (dataPassAt sw env p r) ++
        recirculate sw env fuel (k + d) p (beforePass env r (k + d)) := by
  induction d generalizing k with
  | zero =>
      simp
  | succ d ih =>
      have htail := ih (k := k + 1) (fun j h₁ h₂ => hback j (by omega) (by omega))
      rw [show d + 1 + fuel = d + fuel + 1 by omega,
        recirculate_data_sentBack sw env h r (hback k (by omega) (by omega)), htail,
        List.range'_succ, show k + 1 + d = k + (d + 1) by omega]
      rfl

/--
The run of a packet ends: at most `n` of its passes leave on the recirculation
port, and the pass behind them drops or enforces it.
-/
def RecirculatedAtMost
    (sw : Switch) (env : Surroundings) (p : Packet) (r : Registers) (n : Nat) : Prop :=
  ∃ earlier last,
    earlier.length ≤ n ∧
    (∀ fuel, recirculate sw env (earlier.length + 1 + fuel) 0 p r = earlier ++ [last]) ∧
    (∀ q, q ∈ earlier → q.out.egressPort = recirPort) ∧
    last.out.egressPort ≠ recirPort ∧
    (last.out.egressPort = dropPort ∨ last.out.enforced ≠ none)

/--
For every data packet and every behaviour of the rest of the world, the packet
is sent back at most `MAX_RECIR_TIMES` times exactly when one of its first
`MAX_RECIR_TIMES + 1` passes finds registers and tables that do not send it back.
-/
theorem dataPacket_recirculatedAtMost_iff
    (sw : Switch) (env : Surroundings) (r : Registers)
    {p : Packet} {c : Connection}
    (hp : p.dataOf = some c) :
    RecirculatedAtMost sw env p r maxRecirTimes.toNat ↔
      ∃ k, k ≤ maxRecirTimes.toNat ∧
        ¬ SentBack sw (env.tab k) (env.others k (beforePass env r k)) (env.tstamp k) p := by
  have h : p.contextOf = none := (parse_of_dataOf hp).1
  generalize maxRecirTimes.toNat = n
  constructor
  · rintro ⟨earlier, last, hlen, hrun, _, hlast, _⟩
    by_contra hnone
    push Not at hnone
    have hpasses := recirculate_data_passes sw env h r (earlier.length + 1) (k := 0)
      (fun j _ hj => hnone j (by omega)) 0
    have hmem : last ∈ (List.range' 0 (earlier.length + 1)).map (dataPassAt sw env p r) := by
      have hrun₀ := hrun 0
      change recirculate sw env (earlier.length + 1 + 0) 0 p (beforePass env r 0) = _ at hrun₀
      rw [hpasses, recirculate, List.append_nil] at hrun₀
      rw [hrun₀]
      simp
    obtain ⟨j, hj, rfl⟩ := List.mem_map.mp hmem
    have hj' : j < earlier.length + 1 := by
      have := (List.mem_range'_1.mp hj).2
      omega
    exact hlast ((dataPassAt_egressPort sw env h r j).mpr (hnone j (by omega)))
  · intro hex
    classical
    -- the first pass that does not send the packet back
    obtain ⟨k, ⟨hkn, hk⟩, hfirst⟩ :
        ∃ k, (k ≤ n ∧ ¬ SentBackAt sw env p r k) ∧ ∀ j, j < k → SentBackAt sw env p r j := by
      refine ⟨Nat.find hex, Nat.find_spec hex, ?_⟩
      intro j hj
      by_contra hnot
      have hle := (Nat.find_spec hex).1
      exact Nat.find_min hex hj ⟨by omega, hnot⟩
    refine ⟨(List.range' 0 k).map (dataPassAt sw env p r), dataPassAt sw env p r k, ?_, ?_, ?_,
      ?_, ?_⟩
    · simpa using hkn
    · intro fuel
      have hpasses := recirculate_data_passes sw env h r k (k := 0)
        (fun j _ hj => hfirst j (by omega)) (fuel + 1)
      rw [Nat.zero_add, recirculate_data_last sw env h r hk] at hpasses
      rw [List.length_map, List.length_range', show k + 1 + fuel = k + (fuel + 1) by omega]
      exact hpasses
    · intro q hq
      obtain ⟨j, hj, rfl⟩ := List.mem_map.mp hq
      have hj' := (List.mem_range'_1.mp hj).2
      exact (dataPassAt_egressPort sw env h r j).mpr (hfirst j (by omega))
    · intro hport
      exact hk ((dataPassAt_egressPort sw env h r k).mp hport)
    · have hpass := ingressPass_data sw (env.tab k) (env.others k (beforePass env r k))
        (env.tstamp k) h
      by_cases henf : (dataPassAt sw env p r k).out.enforced = none
      · rcases hpass.otherPort henf with hdrop | hrecir
        · exact Or.inl hdrop
        · exact absurd ((dataPassAt_egressPort sw env h r k).mp hrecir) hk
      · exact Or.inr henf

/--
A connection of another address whose context packets are filed where the data
packets of the client look.
-/
def squatter : Connection :=
  { stranger with srcPort := 9680 }

/-- The registers behind a context packet of that connection with a drop decision. -/
def squatted : Registers :=
  passStep (switchFor oneHeader) emptyConnTab Registers.zero
    { packet := squatter.contextPacket 0 (fun _ => 1), tstamp := 5 }

/-- Behind the first pass of a packet, a context packet of the client's neighbour passes. -/
def neighbourNext : Surroundings :=
  { tab := fun _ => emptyConnTab
    tstamp := fun _ => 5
    others := fun k r =>
      if k = 1 then
        passStep (switchFor oneHeader) emptyConnTab r
          { packet := neighbour.contextPacket 0 (fun _ => 0), tstamp := 5 }
      else r }

/-- The theorem on a data packet that collides first and then finds a decision for its address. -/
theorem dataPacket_afterCollision_recirculatedAtMost :
    (dataPassAt (switchFor oneHeader) neighbourNext (tcpClient.dataPacket 0 (fun _ => 0))
        squatted 0).out.egressPort = recirPort ∧
      RecirculatedAtMost (switchFor oneHeader) neighbourNext
        (tcpClient.dataPacket 0 (fun _ => 0)) squatted maxRecirTimes.toNat := by
  refine ⟨by decide +kernel, ?_⟩
  apply (dataPacket_recirculatedAtMost_iff (switchFor oneHeader) neighbourNext squatted
    (dataOf_dataPacket tcpClient 0 _)).mpr
  refine ⟨1, by decide, ?_⟩
  have hport :
      (dataPassAt (switchFor oneHeader) neighbourNext (tcpClient.dataPacket 0 (fun _ => 0))
        squatted 1).out.egressPort ≠ recirPort := by
    decide +kernel
  have hiff := dataPassAt_egressPort (switchFor oneHeader) neighbourNext
    (contextOf_dataPacket tcpClient 0 (fun _ => 0)) squatted 1
  rw [SentBackAt] at hiff
  rw [← hiff]
  exact hport

/-- A data packet that is alone finds the same registers in every pass. -/
theorem sentBackAt_alone
    (sw : Switch) (tab : ConnTab) (tstamp : BitVec 16) (p : Packet) (r : Registers) (k : Nat) :
    SentBackAt sw (alone tab (fun _ => tstamp)) p r k ↔ SentBack sw tab r tstamp p := by
  have hregs : beforePass (alone tab (fun _ => tstamp)) r k = r := by
    induction k with
    | zero =>
        rfl
    | succ k ih =>
        exact ih
  rw [SentBackAt, hregs]
  rfl

/-- Alone behind that connection, the client's data packet is sent back in every pass. -/
theorem sentBackAt_squatted
    (k : Nat) :
    SentBackAt (switchFor oneHeader) (alone emptyConnTab (fun _ => 5))
      (tcpClient.dataPacket 0 (fun _ => 0)) squatted k := by
  have hport :
      (ingressPass (switchFor oneHeader) emptyConnTab squatted 5
        (tcpClient.dataPacket 0 (fun _ => 0))).egressPort = recirPort := by
    decide +kernel
  have hdata := contextOf_dataPacket tcpClient 0 (fun _ => 0)
  rw [sentBackAt_alone, ← (ingressPass_data_sentBack _ _ _ _ hdata).1]
  exact hport

/--
A data packet that collides with the entry of another client goes round for
ever: every one of its passes ends on the recirculation port.
-/
theorem dataPacket_recirculates_forever :
    (∀ fuel,
      (recirculate (switchFor oneHeader) (alone emptyConnTab (fun _ => 5)) fuel 0
        (tcpClient.dataPacket 0 (fun _ => 0)) squatted).map (fun q => q.out.egressPort) =
          List.replicate fuel recirPort) ∧
    ¬ RecirculatedAtMost (switchFor oneHeader) (alone emptyConnTab (fun _ => 5))
      (tcpClient.dataPacket 0 (fun _ => 0)) squatted maxRecirTimes.toNat := by
  have hports : ∀ fuel,
      (recirculate (switchFor oneHeader) (alone emptyConnTab (fun _ => 5)) fuel 0
        (tcpClient.dataPacket 0 (fun _ => 0)) squatted).map (fun q => q.out.egressPort) =
          List.replicate fuel recirPort := by
    intro fuel
    have hpasses := recirculate_data_passes (switchFor oneHeader)
      (alone emptyConnTab (fun _ => 5))
      (contextOf_dataPacket tcpClient 0 (fun _ => 0)) squatted fuel (k := 0)
      (fun j _ _ => sentBackAt_squatted j) 0
    rw [recirculate, List.append_nil] at hpasses
    change recirculate _ _ fuel 0 _ squatted = _ at hpasses
    rw [hpasses, List.map_map, List.eq_replicate_iff]
    refine ⟨by simp, ?_⟩
    intro x hx
    obtain ⟨j, _, rfl⟩ := List.mem_map.mp hx
    exact (dataPassAt_egressPort _ _ (contextOf_dataPacket tcpClient 0 (fun _ => 0)) squatted
      j).mpr (sentBackAt_squatted j)
  refine ⟨hports, ?_⟩
  rintro ⟨earlier, last, _, hrun, _, hlast, _⟩
  have hall := hports (earlier.length + 1 + 0)
  rw [hrun 0] at hall
  have hmem : last.out.egressPort ∈ List.replicate (earlier.length + 1 + 0) recirPort := by
    rw [← hall]
    simp
  exact hlast (List.eq_of_mem_replicate hmem)

end PacketTermination

end Poise
