import Mathlib.Tactic
import Poise.AcceptedPolicies
import Poise.MembershipPolicy
import Poise.CacheKeyAgreement

/-!
# Poise data plane: recirculated context packets

A context packet makes one pass for each round of its policy.  Between two
passes only the packet itself survives, with its counter; the decision field of
the metadata starts at zero again.  The passes of one packet are followed while
the rest of the world does anything in between.

The two main results say exactly when the decision stored by the last pass is
the one the whole policy evaluates to, and exactly when a client can change its
decision by choosing the counter.
-/

namespace Poise

open Foundations

section Recirculation

/-- One pass of a packet: the registers it found, the packet as it came in, and what came out. -/
structure PassRecord where
  found : Registers
  packet : Packet
  out : PassState

/-- The world around a packet: tables and clocks at its passes, and what others do in between. -/
structure Surroundings where
  tab : Nat → ConnTab
  tstamp : Nat → BitVec 16
  others : Nat → Registers → Registers

/-- One pass in its surroundings. -/
def passIn
    (sw : Switch) (env : Surroundings) (n : Nat) (p : Packet) (r : Registers) : PassRecord :=
  { found := env.others n r
    packet := p
    out := ingressPass sw (env.tab n) (env.others n r) (env.tstamp n) p }

theorem passIn_out
    (sw : Switch) (env : Surroundings) (n : Nat) (p : Packet) (r : Registers) :
    (passIn sw env n p r).out =
      ingressPass sw (env.tab n) (passIn sw env n p r).found (env.tstamp n)
        (passIn sw env n p r).packet := by
  rw [passIn]

/-- Pass after pass, as long as the packet leaves on the recirculation port. -/
def recirculate
    (sw : Switch) (env : Surroundings) : Nat → Nat → Packet → Registers → List PassRecord
  | 0, _, _, _ => []
  | fuel + 1, n, p, r =>
      let q := passIn sw env n p r
      if q.out.egressPort = recirPort then
        q :: recirculate sw env fuel (n + 1) (deparse p q.out.hdr) q.out.regs
      else
        [q]

/-- The run of a context packet; one pass more than `RECIR_TIMES` is enough. -/
def packetRun
    (sw : Switch) (env : Surroundings) (p : Packet) (r : Registers) : List PassRecord :=
  recirculate sw env (sw.code.recirTimes + 1) 0 p r

/-- The calls of `set_ctx_dec` in a recorded pass. -/
def passSets (sw : Switch) (q : PassRecord) : List (BitVec 4) :=
  contextSets sw q.found q.packet

def Packet.withCounter (p : Packet) (k : BitVec 8) : Packet :=
  { p with recirCounter := k }

@[simp] theorem contextOf_withCounter
    (p : Packet)
    (k : BitVec 8) :
    (p.withCounter k).contextOf = p.contextOf := by
  rfl

/-- A packet that is counted in leaves the pass with the next counter. -/
theorem deparse_context
    {sw : Switch} {tab : ConnTab} {regs : Registers} {tstamp : BitVec 16} {p : Packet}
    {out : PassState}
    (hpass : ContextPass sw tab regs tstamp p out)
    (hk : p.recirCounter.toNat < sw.code.recirTimes) :
    deparse p out.hdr = p.withCounter (p.recirCounter + 1) := by
  unfold deparse Packet.withCounter
  rw [hpass.counter, if_pos hk]
  rfl

/-- The passes of a context packet from the counter it carries to `RECIR_TIMES`. -/
structure ContextRun
    (sw : Switch) (env : Surroundings) (p : Packet) (inv : Registers → Prop)
    (run earlier : List PassRecord) (last : PassRecord) : Prop where
  split : run = earlier ++ [last]
  length : p.recirCounter.toNat + earlier.length = sw.code.recirTimes
  lastPacket : last.packet = p.withCounter (BitVec.ofNat 8 sw.code.recirTimes)
  lastPort : last.out.egressPort = dropPort
  earlierPort : ∀ q, q ∈ earlier → q.out.egressPort = recirPort
  passes : ∀ q, q ∈ run →
    ∃ i, q.out = ingressPass sw (env.tab i) q.found (env.tstamp i) q.packet
  found : ∀ q, q ∈ run → inv q.found

theorem passIn_context
    (sw : Switch) (env : Surroundings) (n : Nat) (r : Registers)
    {p : Packet} {c : Connection}
    (hp : p.contextOf = some c) :
    ContextPass sw (env.tab n) (env.others n r) (env.tstamp n) p (passIn sw env n p r).out := by
  rw [passIn]
  exact ingressPass_context sw (env.tab n) (env.others n r) (env.tstamp n) hp

/-- A run that begins with its last pass. -/
theorem ContextRun.single
    {sw : Switch} {env : Surroundings} {p : Packet} {inv : Registers → Prop} {q : PassRecord}
    (hcounter : p.recirCounter.toNat = sw.code.recirTimes)
    (hpacket : q.packet = p)
    (hport : q.out.egressPort = dropPort)
    (hpass : ∃ i, q.out = ingressPass sw (env.tab i) q.found (env.tstamp i) q.packet)
    (hfound : inv q.found) :
    ContextRun sw env p inv [q] [] q where
  split := rfl
  length := hcounter
  lastPacket := by
    rw [hpacket, Packet.withCounter, ← hcounter, BitVec.ofNat_toNat, BitVec.setWidth_eq]
  lastPort := hport
  earlierPort := by
    intro q' hq'
    cases hq'
  passes := by
    intro q' hq'
    rw [List.mem_singleton.mp hq']
    exact hpass
  found := by
    intro q' hq'
    rw [List.mem_singleton.mp hq']
    exact hfound

/-- A pass that counts the packet in, and a run from the next counter on. -/
theorem ContextRun.cons
    {sw : Switch} {env : Surroundings} {p : Packet} {inv : Registers → Prop}
    {run earlier : List PassRecord} {q last : PassRecord}
    (hnext : (p.recirCounter + 1).toNat = p.recirCounter.toNat + 1)
    (hport : q.out.egressPort = recirPort)
    (hpass : ∃ i, q.out = ingressPass sw (env.tab i) q.found (env.tstamp i) q.packet)
    (hfound : inv q.found)
    (htail : ContextRun sw env (p.withCounter (p.recirCounter + 1)) inv run earlier last) :
    ContextRun sw env p inv (q :: run) (q :: earlier) last where
  split := by
    rw [htail.split, List.cons_append]
  length := by
    have hlength := htail.length
    change (p.recirCounter + 1).toNat + earlier.length = _ at hlength
    rw [List.length_cons]
    omega
  lastPacket := htail.lastPacket
  lastPort := htail.lastPort
  earlierPort := by
    intro q' hq'
    rcases List.mem_cons.mp hq' with rfl | hq'
    · exact hport
    · exact htail.earlierPort q' hq'
  passes := by
    intro q' hq'
    rcases List.mem_cons.mp hq' with rfl | hq'
    · exact hpass
    · exact htail.passes q' hq'
  found := by
    intro q' hq'
    rcases List.mem_cons.mp hq' with rfl | hq'
    · exact hfound
    · exact htail.found q' hq'

/--
Every context packet whose counter is not past `RECIR_TIMES` makes all the
remaining passes, and keeps what the others and its own passes keep.
-/
theorem recirculate_contextRun
    (sw : Switch) (env : Surroundings)
    (hrounds : sw.code.recirTimes < 255)
    (inv : Registers → Prop)
    (hothers : ∀ n r, inv r → inv (env.others n r))
    {c : Connection}
    (d fuel n : Nat)
    {p : Packet} {r : Registers}
    (hp : p.contextOf = some c)
    (hpasses : ∀ i found k,
      k.toNat < sw.code.recirTimes → inv found →
        inv (ingressPass sw (env.tab i) found (env.tstamp i) (p.withCounter k)).regs)
    (hd : p.recirCounter.toNat + d = sw.code.recirTimes)
    (hr : inv r) :
    ∃ earlier last,
      ContextRun sw env p inv (recirculate sw env (d + fuel + 1) n p r) earlier last := by
  induction d generalizing n p r with
  | zero =>
      have hpass := passIn_context sw env n r hp
      have hport := hpass.port
      rw [if_neg (by omega)] at hport
      have hrun : recirculate sw env (0 + fuel + 1) n p r = [passIn sw env n p r] := by
        rw [recirculate]
        simp only [hport]
        rw [if_neg (by decide)]
      rw [hrun]
      exact ⟨[], passIn sw env n p r,
        ContextRun.single hd rfl hport ⟨n, passIn_out sw env n p r⟩ (hothers n r hr)⟩
  | succ d ih =>
      have hmore : p.recirCounter.toNat < sw.code.recirTimes := by
        omega
      have hpass := passIn_context sw env n r hp
      have hport := hpass.port
      rw [if_pos hmore] at hport
      have hrun :
          recirculate sw env (d + 1 + fuel + 1) n p r =
            passIn sw env n p r ::
              recirculate sw env (d + fuel + 1) (n + 1) (p.withCounter (p.recirCounter + 1))
                (passIn sw env n p r).out.regs := by
        rw [show d + 1 + fuel = d + fuel + 1 by omega, recirculate]
        simp only [hport, deparse_context hpass hmore]
        rfl
      have hnext : (p.recirCounter + 1).toNat = p.recirCounter.toNat + 1 := by
        rw [BitVec.toNat_add]
        exact Nat.mod_eq_of_lt (by simp; omega)
      obtain ⟨earlier, last, htail⟩ :=
        ih (n + 1) (p := p.withCounter (p.recirCounter + 1)) hp hpasses
          (by
            change (p.recirCounter + 1).toNat + d = _
            omega)
          (hpasses n (env.others n r) p.recirCounter hmore (hothers n r hr))
      rw [hrun]
      exact ⟨passIn sw env n p r :: earlier, last,
        htail.cons hnext hport ⟨n, passIn_out sw env n p r⟩ (hothers n r hr)⟩

/-- The number of rounds of an accepted policy fits into the counter. -/
theorem recirTimes_lt
    {S : UnstableSort Check Check.priority} {prog : Program} {code : PolicyCode}
    (hcompile : compileTofino S prog = .ok code) :
    code.recirTimes < 8 := by
  obtain ⟨optimized, placed, tables, hcomp⟩ := compileTofino_compiled hcompile
  exact hcomp.rounds

/-- What a recorded context pass leaves in its cache entry and in its decision cell. -/
theorem passSets_stored
    {sw : Switch} {tab : ConnTab} {tstamp : BitVec 16} {q : PassRecord} {c : Connection}
    (hout : q.out = ingressPass sw tab q.found tstamp q.packet)
    (hctx : q.packet.contextOf = some c) :
    (q.out.regs.entry (sw.slot c.contextKey)).dec =
        (lastWrite 0 (passSets sw q)).setWidth 8 ∧
      ∀ idx, tab c.contextKey = some idx →
        q.out.regs.connCell (connCellOf idx) = (lastWrite 0 (passSets sw q)).setWidth 8 := by
  have hpass := ingressPass_context sw tab q.found tstamp hctx
  have hkey : q.packet.key = c.contextKey := key_of_contextOf hctx
  rw [hout]
  constructor
  · rw [hpass.entries, if_pos (by rw [hkey])]
    rfl
  · intro idx hidx
    rw [hpass.cells, hkey, hidx]
    simp only [Option.map_some, if_true]
    rfl

theorem setWidth_eight_inj
    {a b : BitVec 4} :
    a.setWidth 8 = b.setWidth 8 ↔ a = b := by
  constructor
  · intro h
    have hback := congrArg (BitVec.setWidth 4) h
    rwa [BitVec.setWidth_setWidth_of_le _ (by decide), BitVec.setWidth_setWidth_of_le _ (by decide),
      BitVec.setWidth_eq, BitVec.setWidth_eq] at hback
  · rintro rfl
    rfl

/--
For every accepted policy, a context packet that enters with counter zero makes
`RECIR_TIMES + 1` passes whatever happens in between, and the decision stored by
the last one is that of the last call over all passes exactly when the last pass
makes a call itself or no earlier pass made any.
-/
theorem storedDecision_eq_carried_iff
    {S : UnstableSort Check Check.priority} {prog : Program}
    (sw : Switch)
    (hcompile : compileTofino S prog = .ok sw.code)
    (env : Surroundings) (c : Connection) (hdr : PoiseH) (r : Registers) :
    ∃ earlier last,
      packetRun sw env (c.contextPacket 0 hdr) r = earlier ++ [last] ∧
      earlier.length = sw.code.recirTimes ∧
      last.out.egressPort = dropPort ∧
      ((last.out.regs.entry (sw.slot c.contextKey)).dec =
          (lastWrite 0 ((earlier ++ [last]).flatMap (passSets sw))).setWidth 8 ↔
        passSets sw last ≠ [] ∨ ∀ q, q ∈ earlier → passSets sw q = []) := by
  have hrounds := recirTimes_lt hcompile
  obtain ⟨earlier, last, hrun⟩ :=
    recirculate_contextRun sw env (by omega) (fun _ => True) (fun _ _ _ => trivial)
      sw.code.recirTimes 0 0 (r := r) (contextOf_contextPacket c 0 hdr)
      (fun _ _ _ _ _ => trivial) (Nat.zero_add _) trivial
  refine ⟨earlier, last, hrun.split, ?_, hrun.lastPort, ?_⟩
  · have hlen : 0 + earlier.length = sw.code.recirTimes := hrun.length
    omega
  · obtain ⟨i, hout⟩ := hrun.passes last (by rw [hrun.split]; simp)
    have hctx : last.packet.contextOf = some c := by
      rw [hrun.lastPacket]
      simp
    have hnonzero : ∀ w, w ∈ earlier.flatMap (passSets sw) → w ≠ 0 := by
      intro w hw
      obtain ⟨q, _, hw⟩ := List.mem_flatMap.mp hw
      exact evalRound_sets_ne_zero hcompile hw
    rw [(passSets_stored hout hctx).1, setWidth_eight_inj, List.flatMap_append,
      List.flatMap_singleton, lastWrite_eq_append_iff hnonzero, List.flatMap_eq_nil_iff]

/-- A switch with a policy of the exact and membership fragment. -/
def switchFor (policy : List MembershipStatement) : Switch :=
  { plainSwitch with
    code :=
      match compileTofino (UnstableSort.insertion _) (membershipProgram policy) with
      | .ok code => code
      | .error _ => plainSwitch.code }

/-- Eight statements on eight headers, one more than a pass has stages. -/
def eightHeaders : List MembershipStatement :=
  (List.range 8).map (fun i => .exact ("h" ++ i.repr) 1 .drop)

theorem compileTofino_eightHeaders :
    compileTofino (UnstableSort.insertion _) (membershipProgram eightHeaders) =
      .ok (switchFor eightHeaders).code := by
  decide +kernel

theorem recirTimes_eightHeaders :
    (switchFor eightHeaders).code.recirTimes = 1 := by
  decide +kernel

/-- Header values that only the statement of the second round is true of. -/
def onlySeven : PoiseH :=
  fun h => if h = "h7" then 1 else 0

/-- A packet that is alone: nothing happens between its passes. -/
def alone (tab : ConnTab) (tstamp : Nat → BitVec 16) : Surroundings :=
  { tab := fun _ => tab, tstamp := tstamp, others := fun _ r => r }

/-- The theorem on a packet that is dropped in both of its passes. -/
theorem eightHeaders_decision_kept :
    ∃ earlier last,
      packetRun (switchFor eightHeaders) (alone emptyConnTab (fun _ => 5))
          (tcpClient.contextPacket 0 (fun _ => 1)) Registers.zero = earlier ++ [last] ∧
        (last.out.regs.entry ((switchFor eightHeaders).slot tcpClient.contextKey)).dec =
          (lastWrite 0
            ((earlier ++ [last]).flatMap (passSets (switchFor eightHeaders)))).setWidth 8 := by
  obtain ⟨earlier, last, hrun, _, _, hiff⟩ :=
    storedDecision_eq_carried_iff (switchFor eightHeaders) compileTofino_eightHeaders
      (alone emptyConnTab (fun _ => 5)) tcpClient (fun _ => 1) Registers.zero
  refine ⟨earlier, last, hrun, hiff.mpr (Or.inl ?_)⟩
  have hlast :
      (packetRun (switchFor eightHeaders) (alone emptyConnTab (fun _ => 5))
        (tcpClient.contextPacket 0 (fun _ => 1)) Registers.zero).getLast?.map
          (passSets (switchFor eightHeaders)) = some [15] := by
    decide +kernel
  rw [hrun] at hlast
  simp at hlast
  simp [hlast]

/--
A packet that is to be dropped by a statement of the first round ends with
decision zero, which lets its connection through.
-/
theorem eightHeaders_decision_lost :
    parsePolicy (eightHeaders.map MembershipStatement.toStatement) =
        .ok (membershipProgram eightHeaders) ∧
      compileTofino (UnstableSort.insertion _) (membershipProgram eightHeaders) =
        .ok (switchFor eightHeaders).code ∧
      lastWrite 0
          ((packetRun (switchFor eightHeaders) (alone emptyConnTab (fun _ => 5))
            (tcpClient.contextPacket 0 (fun h => if h = "h0" then 1 else 0))
            Registers.zero).flatMap (passSets (switchFor eightHeaders))) = 15 ∧
      (packetRun (switchFor eightHeaders) (alone emptyConnTab (fun _ => 5))
          (tcpClient.contextPacket 0 (fun h => if h = "h0" then 1 else 0))
          Registers.zero).getLast?.map
        (fun q => (q.out.regs.entry
          ((switchFor eightHeaders).slot tcpClient.contextKey)).dec) = some 0 := by
  refine ⟨by decide +kernel, compileTofino_eightHeaders, by decide +kernel, by decide +kernel⟩

/-- The last pass of a packet that is alone. -/
def finalPass
    (sw : Switch) (tab : ConnTab) (tstamp : Nat → BitVec 16) (p : Packet) (r : Registers) :
    Option PassRecord :=
  (packetRun sw (alone tab tstamp) p r).getLast?

/-- The calls of `set_ctx_dec` in the last round of the policy. -/
def lastRoundSets (sw : Switch) (hdr : PoiseH) (r : Registers) : List (BitVec 4) :=
  (evalRound sw.code sw.monTabs hdr 0 sw.code.recirTimes r.monTsHigh32).sets

/-- A round past the last one makes no call. -/
theorem evalRound_sets_past
    {S : UnstableSort Check Check.priority} {prog : Program} {code : PolicyCode}
    (hcompile : compileTofino S prog = .ok code)
    (tabs : MonTabs) (hdr : PoiseH) (tstamp : BitVec 32) (r : MonRegs)
    {k : Nat}
    (hk : code.recirTimes < k) :
    (evalRound code tabs hdr tstamp k r).sets = [] := by
  obtain ⟨optimized, placed, tables, hcomp⟩ := compileTofino_compiled hcompile
  unfold evalRound
  rw [roundBody_past hcomp hk]
  rfl

/-- A pass of another round keeps the monitors of a round. -/
theorem evalRound_monRegs_other
    {S : UnstableSort Check Check.priority} {prog : Program} {code : PolicyCode}
    (hcompile : compileTofino S prog = .ok code)
    (tabs : MonTabs) (hdr : PoiseH) (tstamp : BitVec 32) (r : MonRegs)
    {j k : Nat} {m : String}
    (hjk : j ≠ k)
    (hm : .applyMonitor m ∈ roundBody code k) :
    (evalRound code tabs hdr tstamp j r).monRegs m = r m := by
  obtain ⟨optimized, placed, tables, hcomp⟩ := compileTofino_compiled hcompile
  apply foldl_evalStmt_monRegs
  intro hj
  exact hjk (hcomp.monitor_round_unique hj hm)

/-- The passes of a lone context packet keep the monitors of the last round until then. -/
theorem packetRun_contextRun
    {S : UnstableSort Check Check.priority} {prog : Program}
    {sw : Switch}
    (hcompile : compileTofino S prog = .ok sw.code)
    (tab : ConnTab) (tstamp : Nat → BitVec 16) (c : Connection) (hdr : PoiseH) (r : Registers)
    {k : BitVec 8}
    (hk : k.toNat ≤ sw.code.recirTimes) :
    ∃ earlier last,
      ContextRun sw (alone tab tstamp) (c.contextPacket k hdr)
        (fun r' => ∀ m, .applyMonitor m ∈ roundBody sw.code sw.code.recirTimes →
          r'.monTsHigh32 m = r.monTsHigh32 m)
        (packetRun sw (alone tab tstamp) (c.contextPacket k hdr) r) earlier last := by
  have hrounds := recirTimes_lt hcompile
  obtain ⟨earlier, last, hrun⟩ :=
    recirculate_contextRun sw (alone tab tstamp) (by omega)
      (fun r' => ∀ m, .applyMonitor m ∈ roundBody sw.code sw.code.recirTimes →
        r'.monTsHigh32 m = r.monTsHigh32 m)
      (fun _ _ h => h)
      (sw.code.recirTimes - k.toNat) k.toNat 0 (r := r) (contextOf_contextPacket c k hdr)
      (by
        intro i found j hj hfound m hm
        have hpass := ingressPass_context sw tab found (tstamp i)
          (p := (c.contextPacket k hdr).withCounter j) (contextOf_contextPacket c k hdr)
        have hmon := congrFun hpass.monitors m
        have hkept :=
          evalRound_monRegs_other hcompile sw.monTabs hdr 0 found.monTsHigh32
            (Nat.ne_of_lt hj) hm
        exact hmon.trans (hkept.trans (hfound m hm)))
      (by
        change k.toNat + (sw.code.recirTimes - k.toNat) = _
        omega)
      (fun _ _ => rfl)
  have hfuel : sw.code.recirTimes - k.toNat + k.toNat + 1 = sw.code.recirTimes + 1 := by
    omega
  rw [hfuel] at hrun
  exact ⟨earlier, last, hrun⟩

/-- A packet that leaves on another port makes one pass. -/
theorem finalPass_single
    (sw : Switch) (tab : ConnTab) (tstamp : Nat → BitVec 16) (p : Packet) (r : Registers)
    (hport : (passIn sw (alone tab tstamp) 0 p r).out.egressPort ≠ recirPort) :
    finalPass sw tab tstamp p r = some (passIn sw (alone tab tstamp) 0 p r) := by
  unfold finalPass packetRun
  rw [recirculate]
  simp only [hport, if_false, List.getLast?_singleton]

/-- The last pass of a lone context packet, for every counter it can carry. -/
theorem finalPass_context
    {S : UnstableSort Check Check.priority} {prog : Program}
    {sw : Switch}
    (hcompile : compileTofino S prog = .ok sw.code)
    (tab : ConnTab) (tstamp : Nat → BitVec 16) (c : Connection) (k : BitVec 8) (hdr : PoiseH)
    (r : Registers) :
    ∃ q i,
      finalPass sw tab tstamp (c.contextPacket k hdr) r = some q ∧
      q.out = ingressPass sw tab q.found (tstamp i) q.packet ∧
      q.packet.contextOf = some c ∧
      q.out.egressPort = dropPort ∧
      passSets sw q =
        if k.toNat ≤ sw.code.recirTimes then lastRoundSets sw hdr r else [] := by
  have hrounds := recirTimes_lt hcompile
  by_cases hk : k.toNat ≤ sw.code.recirTimes
  · obtain ⟨earlier, last, hrun⟩ := packetRun_contextRun hcompile tab tstamp c hdr r hk
    have hmem : last ∈ packetRun sw (alone tab tstamp) (c.contextPacket k hdr) r := by
      rw [hrun.split]
      simp
    obtain ⟨i, hout⟩ := hrun.passes last hmem
    refine ⟨last, i, ?_, hout, ?_, hrun.lastPort, ?_⟩
    · unfold finalPass
      rw [hrun.split]
      simp
    · rw [hrun.lastPacket]
      simp
    · rw [if_pos hk]
      have hcounter : (BitVec.ofNat 8 sw.code.recirTimes).toNat = sw.code.recirTimes := by
        rw [BitVec.toNat_ofNat]
        exact Nat.mod_eq_of_lt (by omega)
      unfold passSets contextSets lastRoundSets
      rw [hrun.lastPacket]
      change (evalRound sw.code sw.monTabs hdr 0
        (BitVec.ofNat 8 sw.code.recirTimes).toNat last.found.monTsHigh32).sets = _
      rw [hcounter]
      exact evalRound_sets_congr _ _ _ _ (hrun.found last hmem)
  · have hpass := passIn_context sw (alone tab tstamp) 0 r (contextOf_contextPacket c k hdr)
    have hpast : sw.code.recirTimes < (c.contextPacket k hdr).recirCounter.toNat :=
      Nat.lt_of_not_le hk
    have hport := hpass.port
    rw [if_neg (Nat.not_lt_of_gt hpast)] at hport
    have hother : dropPort ≠ recirPort := by decide
    refine ⟨passIn sw (alone tab tstamp) 0 (c.contextPacket k hdr) r, 0,
      finalPass_single sw tab tstamp _ r (by rw [hport]; exact hother),
      passIn_out sw (alone tab tstamp) 0 _ r, contextOf_contextPacket c k hdr, hport, ?_⟩
    rw [if_neg hk]
    exact evalRound_sets_past hcompile _ _ _ _ hpast

/-- Two passes left the same decision for a connection, in the cache and in its cell. -/
def SameDecision (sw : Switch) (tab : ConnTab) (c : Connection) (out out' : PassState) : Prop :=
  (out.regs.entry (sw.slot c.contextKey)).dec = (out'.regs.entry (sw.slot c.contextKey)).dec ∧
    ∀ idx, tab c.contextKey = some idx →
      out.regs.connCell (connCellOf idx) = out'.regs.connCell (connCellOf idx)

/--
For every accepted policy, two context packets that differ in the counter they
arrive with end with the same decision exactly when both counters are past
`RECIR_TIMES` or neither is, or when the last round of the policy makes no call.
-/
theorem finalDecision_same_iff
    {S : UnstableSort Check Check.priority} {prog : Program}
    (sw : Switch)
    (hcompile : compileTofino S prog = .ok sw.code)
    (tab : ConnTab) (tstamp tstamp' : Nat → BitVec 16) (c : Connection) (k k' : BitVec 8)
    (hdr : PoiseH) (r : Registers) :
    ∃ q q',
      finalPass sw tab tstamp (c.contextPacket k hdr) r = some q ∧
      finalPass sw tab tstamp' (c.contextPacket k' hdr) r = some q' ∧
      q.out.egressPort = dropPort ∧
      q'.out.egressPort = dropPort ∧
      (SameDecision sw tab c q.out q'.out ↔
        (k.toNat ≤ sw.code.recirTimes ↔ k'.toNat ≤ sw.code.recirTimes) ∨
          lastRoundSets sw hdr r = []) := by
  obtain ⟨q, i, hq, hout, hctx, hport, hsets⟩ :=
    finalPass_context hcompile tab tstamp c k hdr r
  obtain ⟨q', i', hq', hout', hctx', hport', hsets'⟩ :=
    finalPass_context hcompile tab tstamp' c k' hdr r
  refine ⟨q, q', hq, hq', hport, hport', ?_⟩
  obtain ⟨hdec, hcell⟩ := passSets_stored hout hctx
  obtain ⟨hdec', hcell'⟩ := passSets_stored hout' hctx'
  have hsame :
      SameDecision sw tab c q.out q'.out ↔
        lastWrite 0 (passSets sw q) = lastWrite 0 (passSets sw q') := by
    unfold SameDecision
    rw [hdec, hdec', setWidth_eight_inj]
    constructor
    · exact fun h => h.1
    · intro h
      refine ⟨h, ?_⟩
      intro idx hidx
      rw [hcell idx hidx, hcell' idx hidx, h]
  have hzero : lastWrite 0 (lastRoundSets sw hdr r) = 0 ↔ lastRoundSets sw hdr r = [] := by
    constructor
    · intro h
      by_contra hne
      exact evalRound_sets_ne_zero hcompile (lastWrite_mem hne 0) h
    · intro h
      rw [h]
      rfl
  rw [hsame, hsets, hsets']
  by_cases hk : k.toNat ≤ sw.code.recirTimes
  · by_cases hk' : k'.toNat ≤ sw.code.recirTimes
    · simp [hk, hk']
    · simp only [hk, hk', if_true, if_false, lastWrite_nil]
      rw [hzero]
      simp
  · by_cases hk' : k'.toNat ≤ sw.code.recirTimes
    · simp only [hk, hk', if_true, if_false, lastWrite_nil]
      rw [eq_comm, hzero]
      simp
    · simp [hk, hk']

/-- The theorem on a policy of two rounds and the counters zero and one. -/
theorem eightHeaders_sameDecision :
    ∃ q q',
      finalPass (switchFor eightHeaders) emptyConnTab (fun _ => 5)
          (tcpClient.contextPacket 0 (fun _ => 1)) Registers.zero = some q ∧
        finalPass (switchFor eightHeaders) emptyConnTab (fun _ => 5)
          (tcpClient.contextPacket 1 (fun _ => 1)) Registers.zero = some q' ∧
        SameDecision (switchFor eightHeaders) emptyConnTab tcpClient q.out q'.out := by
  obtain ⟨q, q', hq, hq', _, _, hiff⟩ :=
    finalDecision_same_iff (switchFor eightHeaders) compileTofino_eightHeaders emptyConnTab
      (fun _ => 5) (fun _ => 5) tcpClient 0 1 (fun _ => 1) Registers.zero
  refine ⟨q, q', hq, hq', hiff.mpr (Or.inl ?_)⟩
  rw [recirTimes_eightHeaders]
  decide

/-- A policy that drops on one header value. -/
def oneHeader : List MembershipStatement :=
  [.exact "h0" 1 .drop]

/--
The client's packet is to be dropped; with counter one instead of zero it runs no
table of the policy and ends with the decision that lets it through.
-/
theorem oneHeader_policy_skipped :
    parsePolicy (oneHeader.map MembershipStatement.toStatement) =
        .ok (membershipProgram oneHeader) ∧
      compileTofino (UnstableSort.insertion _) (membershipProgram oneHeader) =
        .ok (switchFor oneHeader).code ∧
      (finalPass (switchFor oneHeader) emptyConnTab (fun _ => 5)
          (tcpClient.contextPacket 0 (fun _ => 1)) Registers.zero).map
        (fun q => (q.out.regs.entry
          ((switchFor oneHeader).slot tcpClient.contextKey)).dec) = some 15 ∧
      (finalPass (switchFor oneHeader) emptyConnTab (fun _ => 5)
          (tcpClient.contextPacket 1 (fun _ => 1)) Registers.zero).map
        (fun q => (q.out.regs.entry
          ((switchFor oneHeader).slot tcpClient.contextKey)).dec) = some 0 := by
  decide +kernel

end Recirculation

end Poise
