import Mathlib.Tactic
import Poise.CacheHash
import Poise.Foundations.CellHistory

/-!
# Poise data plane: cache coherence and default deny

Packets are processed one after the other, with arbitrary timestamps and in
arbitrary order, so that every interleaving of recirculated packets is a run.
The record of a run keeps each packet with the registers it found.

* Coherence: the entry at a cache index is the entry of the last context pass
  whose key hashes there.
* Default deny: a data packet should leave the switch only on the port of the
  latest decision for its own connection.  The cache compares addresses only,
  and its zero entries look like an allowed connection with address zero; the
  property holds in all runs in which every hit of the cache is a hit on an
  entry of the packet's own connection.
-/

namespace Poise

open Foundations

section DefaultDeny

/-- A packet at the input of the pipeline. -/
structure Arrival where
  packet : Packet
  tstamp : BitVec 16

/-- The registers after one pass. -/
def passStep (sw : Switch) (tab : ConnTab) (regs : Registers) (a : Arrival) : Registers :=
  (ingressPass sw tab regs a.tstamp a.packet).regs

/-- The packets of a run with the registers they found. -/
def passHistory
    (sw : Switch) (tab : ConnTab) (regs : Registers) (arrivals : List Arrival) :
    List (Registers × Arrival) :=
  trace (passStep sw tab) regs arrivals

/-- A context pass whose key hashes to the index. -/
def writesSlot (sw : Switch) (i : BitVec 16) (a : Arrival) : Bool :=
  a.packet.isContext && sw.slot a.packet.key == i

/-- The last context pass that wrote a cache index. -/
def lastWriter
    (sw : Switch) (history : List (Registers × Arrival)) (i : BitVec 16) :
    Option (Registers × Arrival) :=
  lastEvent (fun q => writesSlot sw i q.2) history

/-- The last context pass of a connection. -/
def lastContextOf
    (history : List (Registers × Arrival)) (c : Connection) :
    Option (Registers × Arrival) :=
  lastEvent (fun q => q.2.packet.contextOf == some c) history

/-- The decision a recorded context pass came to. -/
def recordedDecision (sw : Switch) (q : Registers × Arrival) : BitVec 4 :=
  contextDecision sw q.1 q.2.packet

/-- The entry a recorded context pass left. -/
def recordedEntry (sw : Switch) (q : Registers × Arrival) : CacheEntry :=
  contextEntry sw q.1 q.2.tstamp q.2.packet

/-- One pass at one cache index. -/
theorem passStep_entry
    (sw : Switch) (tab : ConnTab) (i : BitVec 16) (regs : Registers) (a : Arrival) :
    (passStep sw tab regs a).entry i =
      if writesSlot sw i a then recordedEntry sw (regs, a) else regs.entry i := by
  unfold passStep writesSlot Packet.isContext
  cases hctx : a.packet.contextOf with
  | none =>
      rw [(ingressPass_data sw tab regs a.tstamp hctx).unchanged]
      simp
  | some c =>
      rw [(ingressPass_context sw tab regs a.tstamp hctx).entries]
      by_cases hi : i = sw.slot a.packet.key
      · simp [hi, recordedEntry]
      · have hi' : ¬ sw.slot a.packet.key = i := fun h => hi h.symm
        simp [hi, hi']

/--
Coherence, for any machine that passes one packet in each step: an entry is the
entry of the last context pass that hashed to its index.
-/
theorem entry_foldl_eq
    {σ ε : Type}
    (sw : Switch)
    (regsOf : σ → Registers)
    (arrival : σ → ε → Arrival)
    (tab : σ → ε → ConnTab)
    {step : σ → ε → σ}
    (hstep : ∀ s e, regsOf (step s e) = passStep sw (tab s e) (regsOf s) (arrival s e))
    (s : σ)
    (events : List ε)
    (i : BitVec 16) :
    (regsOf (events.foldl step s)).entry i =
      ((lastEvent (fun q => writesSlot sw i (arrival q.1 q.2)) (trace step s events)).map
        (fun q => recordedEntry sw (regsOf q.1, arrival q.1 q.2))).getD ((regsOf s).entry i) := by
  refine cell_foldl_eq_lastEvent (fun s => (regsOf s).entry i) _ _ ?_ s events
  intro s e
  rw [hstep]
  exact passStep_entry sw (tab s e) i (regsOf s) (arrival s e)

/-- Coherence of the cache with one connection table. -/
theorem entry_eq_lastWriter
    (sw : Switch) (tab : ConnTab) (regs : Registers) (arrivals : List Arrival) (i : BitVec 16) :
    (arrivals.foldl (passStep sw tab) regs).entry i =
      ((lastWriter sw (passHistory sw tab regs arrivals) i).map (recordedEntry sw)).getD
        (regs.entry i) :=
  entry_foldl_eq sw id (fun _ a => a) (fun _ _ => tab) (fun _ _ => rfl) regs arrivals i

/-- No entry of `conn_tab` is installed. -/
def emptyConnTab : ConnTab :=
  fun _ => none

/-- The state of the switch after a run from reset. -/
def afterRun (sw : Switch) (before : List Arrival) : Registers :=
  before.foldl (passStep sw emptyConnTab) Registers.zero

/-- The port a packet leaves on behind a run from reset. -/
def portAfter (sw : Switch) (before : List Arrival) (a : Arrival) : BitVec 9 :=
  (ingressPass sw emptyConnTab (afterRun sw before) a.tstamp a.packet).egressPort

/-- The record of a run from reset. -/
def historyOf (sw : Switch) (before : List Arrival) : List (Registers × Arrival) :=
  passHistory sw emptyConnTab Registers.zero before

/--
Default deny at one packet: a data packet that leaves the switch belongs to a
connection with an earlier context packet, and leaves on the port of the
decision of the latest one.
-/
def DefaultDeny (sw : Switch) (before : List Arrival) (a : Arrival) : Prop :=
  a.packet.contextOf = none →
  portAfter sw before a ≠ dropPort →
  portAfter sw before a ≠ recirPort →
  ∃ c q,
    a.packet.dataOf = some c ∧
    lastContextOf (historyOf sw before) c = some q ∧
    portAfter sw before a = enforcePort sw (recordedDecision sw q)

/--
A data packet that finds a fresh entry of its own address with a decision that
lets it through belongs to the connection whose context packet left the entry.
-/
def HitsOwnEntry (sw : Switch) (before : List Arrival) (a : Arrival) : Prop :=
  let e := (afterRun sw before).entry (sw.slot a.packet.key)
  a.packet.contextOf = none →
  e.srcIp = a.packet.key.1 →
  isFresh e a.tstamp = true →
  enforcePort sw (e.dec.setWidth 4) ≠ dropPort →
  ∃ c q,
    a.packet.dataOf = some c ∧
    lastWriter sw (historyOf sw before) (sw.slot a.packet.key) = some q ∧
    q.2.packet.contextOf = some c

/-- The last writer of an index, when it is of the connection, is its last context pass. -/
theorem lastContextOf_of_lastWriter
    {sw : Switch} {history : List (Registers × Arrival)} {i : BitVec 16} {c : Connection}
    {q : Registers × Arrival}
    (hlast : lastWriter sw history i = some q)
    (hq : q.2.packet.contextOf = some c) :
    lastContextOf history c = some q := by
  have hwrites : writesSlot sw i q.2 = true := by
    have hmem := List.mem_of_getLast? hlast
    exact (List.mem_filter.mp hmem).2
  have hslot : sw.slot (c.srcAddr, c.portKey, c.ipProtocol) = i := by
    unfold writesSlot at hwrites
    rw [key_of_contextOf hq] at hwrites
    simpa using (Bool.and_eq_true_iff.mp hwrites).2
  apply lastEvent_of_imp _ hlast
  · simp [hq]
  · intro r hr
    have hctx : r.2.packet.contextOf = some c := by
      simpa using hr
    unfold writesSlot Packet.isContext
    rw [hctx, key_of_contextOf hctx, hslot]
    simp

theorem setWidth_recordedEntry_dec
    (sw : Switch)
    (q : Registers × Arrival) :
    (recordedEntry sw q).dec.setWidth 4 = recordedDecision sw q := by
  unfold recordedEntry contextEntry recordedDecision
  exact BitVec.setWidth_setWidth_of_le _ (by decide)

/-- One packet: a hit on an own entry is enforced with the latest own decision. -/
theorem defaultDeny_of_hitsOwnEntry
    {sw : Switch} {before : List Arrival} {a : Arrival}
    (hown : HitsOwnEntry sw before a) :
    DefaultDeny sw before a := by
  intro hdata hnotDrop hnotRecir
  have hpass := ingressPass_data sw emptyConnTab (afterRun sw before) a.tstamp hdata
  have hmiss := hpass.miss rfl
  cases henf : (ingressPass sw emptyConnTab (afterRun sw before) a.tstamp a.packet).enforced with
  | none =>
      rcases hpass.otherPort henf with hport | hport
      · exact absurd hport hnotDrop
      · exact absurd hport hnotRecir
  | some e =>
      have hport := hpass.enforcedPort e henf
      rw [henf] at hmiss
      split at hmiss
      · rename_i hhit
        cases hmiss
        obtain ⟨c, q, hc, hq, hqc⟩ := hown hdata hhit.1 hhit.2 (by
          intro hdrop
          exact hnotDrop (hport.trans hdrop))
        refine ⟨c, q, hc, lastContextOf_of_lastWriter hq hqc, ?_⟩
        have hentry := entry_eq_lastWriter sw emptyConnTab Registers.zero before
          (sw.slot a.packet.key)
        have hentry' :
            (afterRun sw before).entry (sw.slot a.packet.key) = recordedEntry sw q := by
          unfold afterRun
          rw [hentry]
          unfold historyOf at hq
          rw [hq]
          rfl
        unfold portAfter
        rw [hport, ← setWidth_recordedEntry_dec sw q, ← hentry']
        rfl
      · cases hmiss

/--
In every run from reset in which each data packet that hits the cache hits an
entry of its own connection, every packet is denied by default.
-/
theorem run_defaultDeny
    (sw : Switch)
    (arrivals : List Arrival)
    (hown : ∀ before a after, arrivals = before ++ a :: after → HitsOwnEntry sw before a) :
    ∀ before a after, arrivals = before ++ a :: after → DefaultDeny sw before a := by
  intro before a after hsplit
  exact defaultDeny_of_hitsOwnEntry (hown before a after hsplit)

/-- An entry with an address other than zero was left by a context packet of that address. -/
theorem exists_lastWriter
    {sw : Switch} {before : List Arrival} {i : BitVec 16}
    (haddr : ((afterRun sw before).entry i).srcIp ≠ 0) :
    ∃ q,
      lastWriter sw (historyOf sw before) i = some q ∧
        q.2.packet.key.1 = ((afterRun sw before).entry i).srcIp := by
  have hentry := entry_eq_lastWriter sw emptyConnTab Registers.zero before i
  change (afterRun sw before).entry i = _ at hentry
  cases hlast : lastWriter sw (historyOf sw before) i with
  | none =>
      unfold historyOf at hlast
      rw [hlast] at hentry
      rw [hentry] at haddr
      exact absurd rfl haddr
  | some q =>
      unfold historyOf at hlast
      rw [hlast] at hentry
      refine ⟨q, rfl, ?_⟩
      rw [hentry]
      rfl

/--
Hits are own hits when the packet has an address other than zero and every
earlier context packet with its address and its cache index is of its connection.
-/
theorem hitsOwnEntry_of_no_collision
    {sw : Switch} {before : List Arrival} {a : Arrival}
    (haddr : a.packet.key.1 ≠ 0)
    (hown : ∀ b, b ∈ before → b.packet.isContext = true →
      b.packet.key.1 = a.packet.key.1 →
      sw.slot b.packet.key = sw.slot a.packet.key →
      ∃ c, a.packet.dataOf = some c ∧ b.packet.contextOf = some c) :
    HitsOwnEntry sw before a := by
  intro _ hsrc _ _
  have hne : ((afterRun sw before).entry (sw.slot a.packet.key)).srcIp ≠ 0 := by
    rw [hsrc]
    exact haddr
  obtain ⟨q, hlast, hkey⟩ := exists_lastWriter hne
  have hmem := List.mem_filter.mp (List.mem_of_getLast? hlast)
  have hwrites := Bool.and_eq_true_iff.mp hmem.2
  have hbefore : q.2 ∈ before := by
    obtain ⟨xs, ys, hsplit, _⟩ := mem_trace_iff.mp hmem.1
    rw [hsplit]
    simp
  obtain ⟨c, hdata, hctx⟩ :=
    hown q.2 hbefore hwrites.1 (hkey.trans hsrc) (eq_of_beq hwrites.2)
  exact ⟨c, q, hdata, hlast, hctx⟩

/--
What default deny asks of the packets alone: a packet with an address other than
zero, and no earlier context packet of its address at its cache index but those of
its own connection.
-/
def NoCollision (sw : Switch) (before : List Arrival) (a : Arrival) : Prop :=
  a.packet.contextOf = none →
  a.packet.key.1 ≠ 0 ∧
    ∀ b, b ∈ before → b.packet.isContext = true →
      b.packet.key.1 = a.packet.key.1 →
      sw.slot b.packet.key = sw.slot a.packet.key →
      ∃ c, a.packet.dataOf = some c ∧ b.packet.contextOf = some c

/-- In every run from reset without such collisions, every packet is denied by default. -/
theorem run_defaultDeny_of_noCollision
    (sw : Switch)
    (arrivals : List Arrival)
    (hfree : ∀ before a after, arrivals = before ++ a :: after → NoCollision sw before a) :
    ∀ before a after, arrivals = before ++ a :: after → DefaultDeny sw before a := by
  intro before a after hsplit hdata
  obtain ⟨haddr, hown⟩ := hfree before a after hsplit hdata
  exact defaultDeny_of_hitsOwnEntry (hitsOwnEntry_of_no_collision haddr hown) hdata

/-- A switch with a policy of no statements, and the code the source names for the cache. -/
def plainSwitch : Switch :=
  { code :=
      { recirTimes := 0, headerDefs := [], tables := [], monitors := [], evalCtx := [],
        entries := [] }
    monTabs := fun _ _ => false
    cacheHash := crcCacheHash crc16
    bf1Hash := fun _ _ _ => ⟨0, by decide⟩
    bf2Hash := fun _ _ _ => ⟨0, by decide⟩
    bf3Hash := fun _ _ _ => ⟨0, by decide⟩
    mbPort := fun _ => 7 }

/-- A TCP client. -/
def tcpClient : Connection :=
  { srcAddr := 0x0a000001, srcPort := 4000, transport := .tcp }

/--
A second connection of the client's address.  Its context packets are filed where
the data packets of the client look, and its data packets look where the context
packets of the client are filed.
-/
def neighbour : Connection :=
  { tcpClient with srcPort := 56159 }

/-- A connection of another address. -/
def stranger : Connection :=
  { tcpClient with srcAddr := 0x0a000002 }

/-- The context packet of the client and a data packet behind it. -/
def clientRun : List Arrival :=
  [{ packet := tcpClient.contextPacket 0 (fun _ => 0), tstamp := 5 },
   { packet := tcpClient.dataPacket 0 (fun _ => 0), tstamp := 6 }]

/--
The run theorem on a client: its two packets have different cache indices, and the
data packet, which finds nothing, is dropped.
-/
theorem clientRun_defaultDeny :
    portAfter plainSwitch (clientRun.take 1)
        { packet := tcpClient.dataPacket 0 (fun _ => 0), tstamp := 6 } = dropPort ∧
      DefaultDeny plainSwitch (clientRun.take 1)
        { packet := tcpClient.dataPacket 0 (fun _ => 0), tstamp := 6 } := by
  refine ⟨by decide +kernel, ?_⟩
  apply run_defaultDeny plainSwitch clientRun _ _ _ [] rfl
  intro before a after hsplit
  match before with
  | [] =>
      cases hsplit
      intro hnone
      simp at hnone
  | [x] =>
      cases hsplit
      refine hitsOwnEntry_of_no_collision (by decide) ?_
      intro b hb _ _ hslot
      rw [List.mem_singleton.mp hb] at hslot
      exact absurd hslot (by decide +kernel)
  | x :: y :: rest =>
      simp [clientRun] at hsplit

/-- A frame that is not IPv4; nothing behind its type is parsed. -/
def arpFrame : Packet :=
  { etherType := 0x806, protocol := 0, srcAddr := 0, srcPort := 0, recirCounter := 0,
    poiseH := fun _ => 0 }

/-- From reset, a frame that is not IPv4 is let through without any context packet. -/
theorem arpFrame_not_defaultDeny :
    portAfter plainSwitch [] { packet := arpFrame, tstamp := 0 } = allowPort ∧
      ¬ DefaultDeny plainSwitch [] { packet := arpFrame, tstamp := 0 } := by
  have hport : portAfter plainSwitch [] { packet := arpFrame, tstamp := 0 } = allowPort := by
    decide +kernel
  refine ⟨hport, ?_⟩
  intro h
  obtain ⟨c, q, hc, _⟩ := h (by decide) (by rw [hport]; decide) (by rw [hport]; decide)
  have hnone : arpFrame.dataOf = none := by
    decide
  rw [hnone] at hc
  cases hc

end DefaultDeny

end Poise
