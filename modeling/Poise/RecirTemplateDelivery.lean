import Mathlib.Tactic
import Poise.RecirTemplateRuns
import Poise.ControlThreads
import Poise.HandOver

/-!
# Poise data plane: what the program template lets through

The switch with the program template, together with the two threads of the
controller, in any order of their steps.

* Context packets are filed and reported with a transport protocol and the port
  zero; data packets are looked up with the protocol zero.  So a data packet
  misses the connection table in every reachable state, and it is enforced from
  the cache only where the hash function takes its key to the index of a context
  packet of its address.
* With a cyclic code as the hash function this happens for at most two source
  ports of each address, and which ports these are does not depend on the run.
-/

namespace Poise

open Foundations

namespace RecirTemplate

section RecirTemplateDelivery

/-- The protocols a context packet can announce. -/
def Transport (q : BitVec 8) : Prop :=
  q = protoTcp ∨ q = protoUdp

theorem Transport.ne_zero
    {q : BitVec 8}
    (h : Transport q) :
    q ≠ 0 := by
  rcases h with rfl | rfl
  · decide
  · decide

/-- What a context packet announces is a transport protocol. -/
theorem transport_of_contextProtocol
    {p : Packet} {proto : BitVec 8}
    (hp : p.contextProtocol = some proto) :
    Transport proto := by
  unfold Packet.contextProtocol at hp
  split at hp
  · exact Or.inl (Option.some.inj hp).symm
  · split at hp
    · exact Or.inr (Option.some.inj hp).symm
    · cases hp

/-- The step that begins `poise_add`. -/
def isPop : ThreadStep → Bool
  | .pop _ _ => true
  | _ => false

/-- The switch, the reports it has sent, and the threads of the controller. -/
structure World where
  regs : Registers
  reports : List Digest
  threads : Threads

/--
A pass of a packet, the start of `poise_add` for a report, another step of a thread,
or a write of the driver into the decision registers.
-/
inductive Event where
  | pass (p : Packet) (n : BitVec 2) (tstamp : BitVec 48)
  | learn (report : Nat)
  | thread (step : ThreadStep)
  | writeCells (c₁ c₂ : BitVec 20 → BitVec 8)

variable (sw : Switch)
variable (ipv4Protocol : Digest → BitVec 8)

/-- The pass of a packet in a state of the world. -/
def World.pass (w : World) (p : Packet) (n : BitVec 2) (tstamp : BitVec 48) : PassState :=
  ingressPass sw w.threads.control.lookup w.regs tstamp p n

/--
One event.  The controller asks a report for `ipv4_protocol`, which is not in the
field list, so what the driver returns for it is a parameter.
-/
def worldStep (w : World) : Event → World
  | .pass p n tstamp =>
      { w with
        regs := (w.pass sw p n tstamp).regs
        reports := w.reports ++ (w.pass sw p n tstamp).digest.toList }
  | .learn i =>
      match w.reports[i]? with
      | none => w
      | some d =>
          { w with
            threads := threadStep w.threads
              (.pop (d.ipv4SrcAddr, d.tcpSrcPort, ipv4Protocol d) (d.ctxDec.setWidth 8)) }
  | .thread step =>
      if isPop step then w else { w with threads := threadStep w.threads step }
  | .writeCells c₁ c₂ =>
      { w with regs := { w.regs with connDecision1 := c₁, connDecision2 := c₂ } }

/-- The world after a reset of the switch and the setup of the controller. -/
def World.start : World :=
  { regs := Registers.zero
    reports := []
    threads := { control := setup, learner := .idle, aging := .idle } }

def worldRun (events : List Event) : World :=
  events.foldl (worldStep sw ipv4Protocol) World.start

/-- Nothing is on its way to the connection table, or in it, under the protocol zero. -/
structure ThreadsFiled (t : Threads) : Prop where
  popped : ∀ key decision idx, t.learner = .popped key decision idx → key.2.2 ≠ 0
  table : ∀ e, e ∈ t.control.connTab → e.key.2.2 ≠ 0

/-- Every entry of the cache was never written or was written by a context packet. -/
def CacheFiled (r : Registers) : Prop :=
  ∀ i, r.cacheDec i = 0 ∨ ∃ q, Transport q ∧ sw.cacheHash 0 (r.cacheSrcIp i) q = i

/-- What holds of the world in every state. -/
structure Filed (w : World) : Prop where
  reports : ∀ d, d ∈ w.reports → Transport d.ipProtocol
  threads : ThreadsFiled w.threads
  cache : CacheFiled sw w.regs

/-- The learning thread may pop an index for any key with a protocol. -/
theorem ThreadsFiled.pop
    {t : Threads}
    (h : ThreadsFiled t)
    {key : ConnKey}
    (hkey : key.2.2 ≠ 0)
    (decision : BitVec 8) :
    ThreadsFiled (threadStep t (.pop key decision)) := by
  obtain ⟨control, learner, aging⟩ := t
  cases learner with
  | idle =>
      refine ⟨?_, ?_⟩
      · intro key' decision' idx hpc
        simp only [threadStep, popStep] at hpc
        split at hpc
        · cases hpc
        · cases hpc
          exact hkey
      · intro e he
        simp only [threadStep, connTab_popStep] at he
        exact h.table e he
  | popped _ _ _ => exact h
  | added _ => exact h
  | stopped => exact h

/-- The other steps of the threads install only what the learning thread popped. -/
theorem ThreadsFiled.step
    {t : Threads}
    (h : ThreadsFiled t)
    {step : ThreadStep}
    (hstep : isPop step = false) :
    ThreadsFiled (threadStep t step) := by
  obtain ⟨control, learner, aging⟩ := t
  cases step with
  | pop key decision => cases hstep
  | add handle =>
      cases learner with
      | popped key decision idx =>
          have hkey := h.popped key decision idx rfl
          cases handle with
          | none => exact ⟨fun _ _ _ hpc => (by cases hpc), h.table⟩
          | some handle =>
              refine ⟨fun _ _ _ hpc => (by cases hpc), ?_⟩
              intro e he
              rcases List.mem_append.mp he with he | he
              · exact h.table e he
              · rw [List.mem_singleton.mp he]
                exact hkey
      | idle => exact h
      | added _ => exact h
      | stopped => exact h
  | writeDecision ok =>
      cases learner with
      | added e =>
          cases ok with
          | false => exact ⟨fun _ _ _ hpc => (by cases hpc), h.table⟩
          | true => exact ⟨fun _ _ _ hpc => (by cases hpc), h.table⟩
      | idle => exact h
      | popped _ _ _ => exact h
      | stopped => exact h
  | getEntry handle ok =>
      cases aging with
      | idle =>
          simp only [threadStep]
          split
          · exact ⟨h.popped, h.table⟩
          · exact ⟨h.popped, h.table⟩
      | read _ _ => exact h
      | deleted _ => exact h
      | recycled _ => exact h
      | stopped => exact h
  | delete ok =>
      cases aging with
      | read handle idx =>
          cases ok with
          | false => exact ⟨h.popped, h.table⟩
          | true =>
              refine ⟨h.popped, ?_⟩
              intro e he
              exact h.table e (List.mem_of_mem_eraseP he)
      | idle => exact h
      | deleted _ => exact h
      | recycled _ => exact h
      | stopped => exact h
  | recycle =>
      cases aging with
      | deleted idx => exact ⟨h.popped, h.table⟩
      | idle => exact h
      | read _ _ => exact h
      | recycled _ => exact h
      | stopped => exact h
  | writeUnseen ok =>
      cases aging with
      | recycled idx =>
          cases ok with
          | false => exact ⟨h.popped, h.table⟩
          | true => exact ⟨h.popped, h.table⟩
      | idle => exact h
      | read _ _ => exact h
      | deleted _ => exact h
      | stopped => exact h

variable {sw}

/-- A context pass writes its entry under its own key. -/
theorem cacheFiled_context
    {tab : ConnTab} {regs : Registers} {p : Packet} {out : PassState} {proto : BitVec 8}
    (hp : p.contextProtocol = some proto)
    (hpass : ContextPass sw tab regs p out)
    (h : CacheFiled sw regs) :
    CacheFiled sw out.regs := by
  intro i
  rw [hpass.cacheDec, hpass.cacheSrcIp]
  by_cases hi : i = sw.slot p.key
  · subst hi
    rw [Function.update_self, Function.update_self]
    refine Or.inr ⟨proto, transport_of_contextProtocol hp, ?_⟩
    rw [Switch.slot, key_context hp]
  · rw [Function.update_of_ne hi, Function.update_of_ne hi]
    exact h i

variable {ipv4Protocol}

/-- Every event keeps the world filed. -/
theorem filed_worldStep
    (hdriver : ∀ d, d.ipProtocol ≠ 0 → ipv4Protocol d ≠ 0)
    (w : World) (e : Event)
    (h : Filed sw w) :
    Filed sw (worldStep sw ipv4Protocol w e) := by
  cases e with
  | pass p n tstamp =>
      simp only [worldStep]
      cases hp : p.contextProtocol with
      | some proto =>
          have hpass : ContextPass sw w.threads.control.lookup w.regs p (w.pass sw p n tstamp) :=
            ingressPass_context sw w.threads.control.lookup w.regs tstamp hp n
          generalize w.pass sw p n tstamp = out at hpass ⊢
          refine ⟨?_, h.threads, cacheFiled_context hp hpass h.cache⟩
          intro d hd
          rcases List.mem_append.mp hd with hd | hd
          · exact h.reports d hd
          · have hkey := hpass.digest d (Option.mem_toList.mp hd)
            rw [key_context hp] at hkey
            have hproto : d.ipProtocol = proto := congrArg (fun k => k.2.2) hkey
            rw [hproto]
            exact transport_of_contextProtocol hp
      | none =>
          have hpass : DataPass sw w.threads.control.lookup w.regs p n (w.pass sw p n tstamp) :=
            ingressPass_data sw w.threads.control.lookup w.regs tstamp hp n
          generalize w.pass sw p n tstamp = out at hpass ⊢
          refine ⟨?_, h.threads, ?_⟩
          · intro d hd
            rcases List.mem_append.mp hd with hd | hd
            · exact h.reports d hd
            · rw [hpass.digest] at hd
              cases hd
          · intro i
            have hcell := h.cache i
            rw [← hpass.cacheDec, ← hpass.cacheSrcIp] at hcell
            exact hcell
  | learn i =>
      simp only [worldStep]
      cases hreport : w.reports[i]? with
      | none => exact h
      | some d =>
          have hd := h.reports d (List.mem_of_getElem? hreport)
          exact ⟨h.reports, h.threads.pop (hdriver d hd.ne_zero) _, h.cache⟩
  | thread step =>
      simp only [worldStep]
      split
      · exact h
      · rename_i hpop
        exact ⟨h.reports, h.threads.step (Bool.eq_false_of_not_eq_true hpop), h.cache⟩
  | writeCells c₁ c₂ =>
      exact ⟨h.reports, h.threads, h.cache⟩

theorem filed_worldRun
    (hdriver : ∀ d, d.ipProtocol ≠ 0 → ipv4Protocol d ≠ 0)
    (events : List Event) :
    Filed sw (worldRun sw ipv4Protocol events) := by
  refine foldl_invariant (filed_worldStep hdriver) ?_ events
  refine ⟨?_, ⟨?_, ?_⟩, fun _ => Or.inl rfl⟩
  · intro d hd
    cases hd
  · intro key decision idx hpc
    cases hpc
  · intro e he
    cases he

/-- In a filed world a data packet that is forwarded has the index of a context packet. -/
theorem Filed.forwarded
    {w : World}
    (h : Filed sw w)
    {p : Packet}
    (hp : p.contextProtocol = none)
    {n : BitVec 2} {tstamp : BitVec 48}
    (hdone : (w.pass sw p n tstamp).resubmitted = false)
    (hport : (w.pass sw p n tstamp).egressPort ≠ dropPort) :
    ∃ q, Transport q ∧ sw.slot (p.key.1, 0, q) = sw.slot p.key := by
  have hpass := ingressPass_data sw w.threads.control.lookup w.regs tstamp hp n
  rcases hpass.enforced hdone with hdrop | hfound | ⟨haddr, hdec⟩
  · exact absurd hdrop hport
  · -- the connection table has no entry with the protocol of a data packet
    obtain ⟨idx, hidx⟩ := Option.isSome_iff_exists.mp hfound
    obtain ⟨e, he, hkey, _⟩ := ConnIndexes.lookup_eq_some hidx
    refine absurd ?_ (h.threads.table e he)
    rw [hkey]
    exact key_data hp
  · rcases h.cache (sw.slot p.key) with hempty | ⟨q, hq, hslot⟩
    · rw [hempty] at hdec
      exact absurd hdec hport
    · rw [haddr] at hslot
      exact ⟨q, hq, hslot⟩

/--
A data packet is let through only by a collision: in every state the switch and the
controller can reach, whatever packets came before, a data packet that is not
resubmitted and not dropped has the same cache index as the key under which context
packets of its address are filed, with the port zero and a transport protocol.
-/
theorem data_forwarded_only_by_collision
    (hdriver : ∀ d, d.ipProtocol ≠ 0 → ipv4Protocol d ≠ 0)
    (events : List Event)
    {p : Packet}
    (hp : p.contextProtocol = none)
    (n : BitVec 2) (tstamp : BitVec 48) :
    let out := (worldRun sw ipv4Protocol events).pass sw p n tstamp
    out.resubmitted = true ∨ out.egressPort = dropPort ∨
      ∃ q, Transport q ∧ sw.slot (p.key.1, 0, q) = sw.slot p.key := by
  intro out
  cases hdone : out.resubmitted with
  | true => exact Or.inl rfl
  | false =>
      by_cases hport : out.egressPort = dropPort
      · exact Or.inr (Or.inl hport)
      · exact Or.inr (Or.inr ((filed_worldRun hdriver events).forwarded hp hdone hport))

/-- A context packet passes, and the controller learns it as far as the connection table. -/
def announced (p : Packet) : List Event :=
  [.pass p 0 0, .learn 0, .thread (.add (some 1))]

/-- The pass of the client's data packet from a port, behind an announcement. -/
def passAnnounced (p : Packet) (port : BitVec 16) : PassState :=
  (worldRun plainSwitch Digest.ipProtocol (announced p)).pass plainSwitch (clientData port) 0 0

/-- The client's context packet over UDP. -/
def clientUdpContext : Packet :=
  { clientContext (fun _ => 0) with protocol := protoPoiseUdp }

/-- Behind an announcement over TCP one port of the client is let through, over UDP another. -/
theorem passAnnounced_allowed :
    (passAnnounced (clientContext (fun _ => 0)) 54527).resubmitted = false ∧
      (passAnnounced (clientContext (fun _ => 0)) 54527).egressPort = allowPort ∧
      (passAnnounced clientUdpContext 49152).resubmitted = false ∧
      (passAnnounced clientUdpContext 49152).egressPort = allowPort := by
  decide +kernel

/-- The theorem on the port of the client from which its data packets are let through. -/
theorem clientData_forwarded_only_by_collision :
    (passAnnounced (clientContext (fun _ => 0)) 54527).resubmitted = false ∧
      (passAnnounced (clientContext (fun _ => 0)) 54527).egressPort = allowPort ∧
      ∃ q, Transport q ∧
        plainSwitch.slot ((clientData 54527).key.1, 0, q) =
          plainSwitch.slot (clientData 54527).key := by
  obtain ⟨hdone, hport, _⟩ := passAnnounced_allowed
  refine ⟨hdone, hport, ?_⟩
  rcases data_forwarded_only_by_collision (fun _ h => h) (announced (clientContext (fun _ => 0)))
    (p := clientData 54527) rfl 0 0 with hre | hdrop | hcollision
  · cases hdone.symm.trans hre
  · exact absurd (hport.symm.trans hdrop) (by decide)
  · exact hcollision

/-- With a cyclic code there is one port for each protocol, and it is not zero. -/
theorem exists_port_of_crc
    (sw : Switch) (crc : Crc 16) (addr : BitVec 32)
    {q : BitVec 8}
    (hq : q ≠ 0) :
    ∃ port, port ≠ 0 ∧ ∀ key : ConnKey, key.1 = addr → key.2.2 = 0 →
      (sw.withCrc crc).slot (addr, 0, q) = (sw.withCrc crc).slot key → key.2.1 = port := by
  have hinj := crcCacheHash_port_injective crc addr 0
  by_cases hmet : ∃ port, crcCacheHash crc port addr 0 = crcCacheHash crc 0 addr q
  · obtain ⟨port, hport⟩ := hmet
    refine ⟨port, ?_, ?_⟩
    · rintro rfl
      exact hq (crcCacheHash_protocol_injective crc 0 addr hport).symm
    · rintro ⟨a, p, z⟩ rfl rfl hslot
      exact hinj (hslot.symm.trans hport.symm)
  · refine ⟨1, by decide, ?_⟩
    rintro ⟨a, p, z⟩ rfl rfl hslot
    exact absurd ⟨p, hslot.symm⟩ hmet

/--
With a cyclic code for the cache index, each source address has two ports of which
one is used by every data packet of the address that is let through, in whatever run.
Neither is zero, the port of a packet without a TCP header.
-/
theorem data_forwarded_two_ports
    (sw : Switch) (crc : Crc 16) (addr : BitVec 32) :
    ∃ port₁ port₂, port₁ ≠ 0 ∧ port₂ ≠ 0 ∧ ∀ (ipv4Protocol : Digest → BitVec 8),
      (∀ d, d.ipProtocol ≠ 0 → ipv4Protocol d ≠ 0) →
        ∀ (events : List Event) (p : Packet) (n : BitVec 2) (tstamp : BitVec 48),
          p.contextProtocol = none → p.key.1 = addr →
            let out := (worldRun (sw.withCrc crc) ipv4Protocol events).pass (sw.withCrc crc) p n
              tstamp
            out.resubmitted = true ∨ out.egressPort = dropPort ∨
              p.key.2.1 = port₁ ∨ p.key.2.1 = port₂ := by
  obtain ⟨port₁, hne₁, h₁⟩ := exists_port_of_crc sw crc addr (Transport.ne_zero (Or.inl rfl))
  obtain ⟨port₂, hne₂, h₂⟩ := exists_port_of_crc sw crc addr (Transport.ne_zero (Or.inr rfl))
  refine ⟨port₁, port₂, hne₁, hne₂, ?_⟩
  intro ipv4Protocol hdriver events p n tstamp hp haddr out
  cases hdone : out.resubmitted with
  | true => exact Or.inl rfl
  | false =>
      by_cases hport : out.egressPort = dropPort
      · exact Or.inr (Or.inl hport)
      · obtain ⟨q, hq, hslot⟩ := (filed_worldRun hdriver events).forwarded hp hdone hport
        rw [haddr] at hslot
        rcases hq with rfl | rfl
        · exact Or.inr (Or.inr (Or.inl (h₁ p.key haddr (key_data hp) hslot)))
        · exact Or.inr (Or.inr (Or.inr (h₂ p.key haddr (key_data hp) hslot)))

/-- The theorem with the code of the source: the two ports of the client. -/
theorem clientData_two_ports :
    (passAnnounced (clientContext (fun _ => 0)) 54527).egressPort = allowPort ∧
      (passAnnounced clientUdpContext 49152).egressPort = allowPort ∧
      ∀ (ipv4Protocol : Digest → BitVec 8), (∀ d, d.ipProtocol ≠ 0 → ipv4Protocol d ≠ 0) →
        ∀ (events : List Event) (p : Packet) (n : BitVec 2) (tstamp : BitVec 48),
          p.contextProtocol = none → p.key.1 = 0x0a000001 →
            let out := (worldRun plainSwitch ipv4Protocol events).pass plainSwitch p n tstamp
            out.resubmitted = true ∨ out.egressPort = dropPort ∨
              p.key.2.1 = 54527 ∨ p.key.2.1 = 49152 := by
  obtain ⟨htcpDone, htcpPort, hudpDone, hudpPort⟩ := passAnnounced_allowed
  refine ⟨htcpPort, hudpPort, ?_⟩
  obtain ⟨port₁, port₂, _, _, hall⟩ := data_forwarded_two_ports plainSwitch crc16 0x0a000001
  have hone : ∀ (p : Packet) (port : BitVec 16), (passAnnounced p port).resubmitted = false →
      (passAnnounced p port).egressPort = allowPort → port = port₁ ∨ port = port₂ := by
    intro p port hdone hport
    rcases hall Digest.ipProtocol (fun _ h => h) (announced p) (clientData port) 0 0 rfl rfl with
      hre | hdrop | hports
    · cases hdone.symm.trans hre
    · exact absurd (hport.symm.trans hdrop) (by decide)
    · exact hports
  have htcp := hone _ _ htcpDone htcpPort
  have hudp := hone _ _ hudpDone hudpPort
  have hdistinct : (54527 : BitVec 16) ≠ 49152 := by
    decide
  intro ipv4Protocol hdriver events p n tstamp hp haddr out
  rcases hall ipv4Protocol hdriver events p n tstamp hp haddr with hre | hdrop | hports
  · exact Or.inl hre
  · exact Or.inr (Or.inl hdrop)
  · -- two different ports that are among two are these two
    exact Or.inr (Or.inr (by grind))

end RecirTemplateDelivery

end RecirTemplate

end Poise
