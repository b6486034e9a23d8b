import Mathlib.Tactic
import Poise.Recirculation

/-!
# Poise data plane: decisions of unfinished passes

A context packet waits between its passes while other packets are processed.
Every pass of it writes the decision of that pass into the cache entry and the
decision cell of its connection, so data packets can be enforced with it.

The main result is about all interleavings in which the passes of other packets
leave the decision that the last round has for the packet.  It says for every data
packet in between, in terms of the state in front of the pass whose decision it
reads, exactly when it is enforced with the decision stored before or the final one.
-/

namespace Poise

open Foundations

section PartialDecisions

/-- A pass of the context packet under consideration, or of any other packet. -/
inductive PassEvent where
  | own (tstamp : BitVec 16)
  | other (a : Arrival)

/-- The registers and the context packet waiting for its next pass. -/
structure InFlight where
  regs : Registers
  packet : Packet

/-- What goes through the pipeline at an event. -/
def InFlight.arrival (s : InFlight) : PassEvent → Arrival
  | .own tstamp => { packet := s.packet, tstamp := tstamp }
  | .other a => a

def interleaveStep (sw : Switch) (tab : ConnTab) (s : InFlight) (e : PassEvent) : InFlight :=
  { regs := passStep sw tab s.regs (s.arrival e)
    packet :=
      match e with
      | .own tstamp => deparse s.packet (ingressPass sw tab s.regs tstamp s.packet).hdr
      | .other _ => s.packet }

/-- The state in front of each event of a run. -/
def stateAt
    (sw : Switch) (tab : ConnTab) (s : InFlight) (before : List PassEvent) : InFlight :=
  before.foldl (interleaveStep sw tab) s

/-- The decision of the context pass at an event. -/
def eventDecision (sw : Switch) (s : InFlight) (e : PassEvent) : BitVec 4 :=
  contextDecision sw s.regs (s.arrival e).packet

/-- The event is a context pass that writes the cache index. -/
def writesEntry (sw : Switch) (i : BitVec 16) (s : InFlight) (e : PassEvent) : Bool :=
  writesSlot sw i (s.arrival e)

/-- The event is a context pass that writes the decision cell. -/
def writesCell (tab : ConnTab) (cell : ConnCell) (s : InFlight) (e : PassEvent) : Bool :=
  (s.arrival e).packet.isContext &&
    decide ((tab (s.arrival e).packet.key).map connCellOf = some cell)

/-- One pass at one decision cell. -/
theorem passStep_connCell
    (sw : Switch) (tab : ConnTab) (cell : ConnCell) (regs : Registers) (a : Arrival) :
    (passStep sw tab regs a).connCell cell =
      if a.packet.isContext = true ∧ (tab a.packet.key).map connCellOf = some cell then
        (contextDecision sw regs a.packet).setWidth 8
      else regs.connCell cell := by
  unfold passStep Packet.isContext
  cases hctx : a.packet.contextOf with
  | none =>
      rw [(ingressPass_data sw tab regs a.tstamp hctx).unchanged]
      simp
  | some c =>
      rw [(ingressPass_context sw tab regs a.tstamp hctx).cells]
      simp

/-- What holds of every decision that a data packet is enforced with from the cache. -/
theorem DataPass.forall_cacheDec_iff
    {sw : Switch} {tab : ConnTab} {regs : Registers} {tstamp : BitVec 16} {p : Packet}
    {out : PassState}
    (hpass : DataPass sw tab regs tstamp p out)
    (Q : BitVec 4 → Prop) :
    (∀ d, out.enforced = some (.cacheDec d) → Q d) ↔
      (tab p.key = none →
        (regs.entry (sw.slot p.key)).srcIp = p.key.1 →
        isFresh (regs.entry (sw.slot p.key)) tstamp = true →
        Q ((regs.entry (sw.slot p.key)).dec.setWidth 4)) := by
  constructor
  · intro h hmiss haddr hfresh
    refine h _ ?_
    rw [hpass.miss hmiss, if_pos ⟨haddr, hfresh⟩]
  · intro h d hd
    cases htab : tab p.key with
    | some idx =>
        rw [hpass.hit idx htab] at hd
        cases hd
    | none =>
        rw [hpass.miss htab] at hd
        split at hd
        · rename_i hhit
          cases hd
          exact h htab hhit.1 hhit.2
        · cases hd

/-- The same for the decision of its connection. -/
theorem DataPass.forall_connDec_iff
    {sw : Switch} {tab : ConnTab} {regs : Registers} {tstamp : BitVec 16} {p : Packet}
    {out : PassState}
    (hpass : DataPass sw tab regs tstamp p out)
    {idx : BitVec 20}
    (htab : tab p.key = some idx)
    (Q : BitVec 4 → Prop) :
    (∀ d, out.enforced = some (.connDec d) → Q d) ↔
      Q ((regs.connCell (connCellOf idx)).setWidth 4) := by
  rw [hpass.hit idx htab]
  simp

/-- The decision the last round of the policy has for a header, on given registers. -/
def lastRoundDecision (sw : Switch) (hdr : PoiseH) (regs : Registers) : BitVec 4 :=
  lastWrite 0 (lastRoundSets sw hdr regs)

/-- Data packets and passes of other rounds leave the decision of the last round. -/
theorem lastRoundDecision_passStep
    {S : UnstableSort Check Check.priority} {prog : Program}
    {sw : Switch}
    (hcompile : compileTofino S prog = .ok sw.code)
    (tab : ConnTab) (hdr : PoiseH) (regs : Registers)
    {a : Arrival}
    (hround : a.packet.isContext = true → a.packet.recirCounter.toNat ≠ sw.code.recirTimes) :
    lastRoundDecision sw hdr (passStep sw tab regs a) = lastRoundDecision sw hdr regs := by
  unfold passStep
  cases hctx : a.packet.contextOf with
  | none =>
      rw [(ingressPass_data sw tab regs a.tstamp hctx).unchanged]
  | some c =>
      have hne := hround (by rw [Packet.isContext, hctx]; rfl)
      have hpass := ingressPass_context sw tab regs a.tstamp hctx
      refine congrArg (lastWrite 0) (evalRound_sets_congr _ _ _ _ ?_)
      intro m hm
      rw [hpass.monitors]
      exact evalRound_monRegs_other hcompile _ _ _ _ hne hm

def PassEvent.isOwn : PassEvent → Bool
  | .own _ => true
  | .other _ => false

/-- The packet in flight counts its own passes, up to `RECIR_TIMES`. -/
theorem stateAt_packet
    {sw : Switch}
    (hrounds : sw.code.recirTimes < 255)
    (tab : ConnTab) (c : Connection) (hdr : PoiseH) (regs : Registers)
    (events : List PassEvent)
    (hown : events.countP PassEvent.isOwn ≤ sw.code.recirTimes) :
    (stateAt sw tab { regs := regs, packet := c.contextPacket 0 hdr } events).packet =
      c.contextPacket (BitVec.ofNat 8 (events.countP PassEvent.isOwn)) hdr := by
  induction events using List.reverseRecOn with
  | nil =>
      rfl
  | append_singleton events e ih =>
      rw [List.countP_append] at hown ⊢
      have hprev := ih (by omega)
      unfold stateAt at hprev ⊢
      rw [List.foldl_append]
      cases e with
      | other a =>
          simpa [interleaveStep, PassEvent.isOwn] using hprev
      | own tstamp =>
          have hone : [PassEvent.own tstamp].countP PassEvent.isOwn = 1 := rfl
          rw [hone] at hown ⊢
          have hctx := contextOf_contextPacket c
            (BitVec.ofNat 8 (events.countP PassEvent.isOwn)) hdr
          have hpass := ingressPass_context sw tab
            (events.foldl (interleaveStep sw tab)
              { regs := regs, packet := c.contextPacket 0 hdr }).regs tstamp hctx
          have hcount : (BitVec.ofNat 8 (events.countP PassEvent.isOwn)).toNat =
              events.countP PassEvent.isOwn := by
            rw [BitVec.toNat_ofNat]
            exact Nat.mod_eq_of_lt (by omega)
          have hnext := deparse_context hpass (by
            change (BitVec.ofNat 8 (events.countP PassEvent.isOwn)).toNat < _
            omega)
          rw [← hprev] at hnext
          refine Eq.trans hnext ?_
          rw [hprev, BitVec.ofNat_add]
          rfl

/-- The interleaving under consideration: the first pass of the packet, then the events. -/
structure Overlap where
  sw : Switch
  tab : ConnTab
  conn : Connection
  hdr : PoiseH
  regs : Registers
  first : BitVec 16
  mid : List PassEvent

namespace Overlap

def start (o : Overlap) : InFlight :=
  { regs := o.regs, packet := o.conn.contextPacket 0 o.hdr }

/-- The state behind the first pass and some of the events. -/
def behind (o : Overlap) (before : List PassEvent) : InFlight :=
  stateAt o.sw o.tab o.start (.own o.first :: before)

def index (o : Overlap) : BitVec 16 :=
  o.sw.slot o.conn.contextKey

/-- The decision cell of the connection, when it is installed. -/
def cell (o : Overlap) : Option ConnCell :=
  (o.tab o.conn.contextKey).map connCellOf

/-- The decision in the cache in front of the first pass. -/
def oldEntry (o : Overlap) : BitVec 4 :=
  (o.regs.entry o.index).dec.setWidth 4

/-- The decision in the cell in front of the first pass. -/
def oldCell (o : Overlap) : BitVec 4 :=
  match o.cell with
  | some c => (o.regs.connCell c).setWidth 4
  | none => 0

/-- The decision of the pass behind all events. -/
def final (o : Overlap) : BitVec 4 :=
  contextDecision o.sw (o.behind o.mid).regs (o.behind o.mid).packet

/-- A data packet behind some of the events is enforced with the old or the final decision. -/
def EnforcedOldOrFinal (o : Overlap) (before : List PassEvent) (a : Arrival) : Prop :=
  a.packet.contextOf = none →
  (o.sw.slot a.packet.key = o.index → ∀ d,
    (ingressPass o.sw o.tab (o.behind before).regs a.tstamp a.packet).enforced =
      some (.cacheDec d) → d = o.oldEntry ∨ d = o.final) ∧
  (∀ idx, o.tab a.packet.key = some idx → o.cell = some (connCellOf idx) → ∀ d,
    (ingressPass o.sw o.tab (o.behind before).regs a.tstamp a.packet).enforced =
      some (.connDec d) → d = o.oldCell ∨ d = o.final)

/-- The passes up to some event, each with the state in front of it. -/
def record (o : Overlap) (before : List PassEvent) : List (InFlight × PassEvent) :=
  trace (interleaveStep o.sw o.tab) o.start (.own o.first :: before)

/-- The pass whose decision is in the entry of the connection behind some of the events. -/
def lastEntryWrite (o : Overlap) (before : List PassEvent) : Option (InFlight × PassEvent) :=
  lastEvent (fun q => writesEntry o.sw o.index q.1 q.2) (o.record before)

/-- The pass whose decision is in a decision cell behind some of the events. -/
def lastCellWrite
    (o : Overlap) (cell : ConnCell) (before : List PassEvent) : Option (InFlight × PassEvent) :=
  lastEvent (fun q => writesCell o.tab cell q.1 q.2) (o.record before)

/--
A pass that writes what was stored before, or what the last round has for the
packet on the registers that the pass finds.
-/
def SettledWrite (o : Overlap) (old : BitVec 4) (q : InFlight × PassEvent) : Prop :=
  eventDecision o.sw q.1 q.2 = old ∨
    eventDecision o.sw q.1 q.2 = lastRoundDecision o.sw o.hdr q.1.regs

/-- The pass whose decision a data packet is enforced with, if it is, made a settled write. -/
def ReadsSettled (o : Overlap) (before : List PassEvent) (a : Arrival) : Prop :=
  (o.tab a.packet.key = none → o.sw.slot a.packet.key = o.index →
    ((o.behind before).regs.entry o.index).srcIp = a.packet.key.1 →
    isFresh ((o.behind before).regs.entry o.index) a.tstamp = true →
    ∀ q, o.lastEntryWrite before = some q → o.SettledWrite o.oldEntry q) ∧
  (∀ idx, o.tab a.packet.key = some idx → o.cell = some (connCellOf idx) →
    ∀ q, o.lastCellWrite (connCellOf idx) before = some q → o.SettledWrite o.oldCell q)

/-- A pass of another packet leaves the decision that the last round has for the packet. -/
def KeepsLastRound (o : Overlap) (before : List PassEvent) (a : Arrival) : Prop :=
  lastRoundDecision o.sw o.hdr (passStep o.sw o.tab (o.behind before).regs a) =
    lastRoundDecision o.sw o.hdr (o.behind before).regs

/-- The decision in the entry of the connection is that of the pass that wrote it last. -/
theorem entry_behind
    (o : Overlap)
    (before : List PassEvent) :
    ((o.behind before).regs.entry o.index).dec.setWidth 4 =
      ((o.lastEntryWrite before).map (fun q => eventDecision o.sw q.1 q.2)).getD
        o.oldEntry := by
  have hstep : ∀ s e,
      InFlight.regs (interleaveStep o.sw o.tab s e) =
        passStep o.sw o.tab s.regs (s.arrival e) :=
    fun _ _ => rfl
  have hentry :
      (o.behind before).regs.entry o.index =
        ((o.lastEntryWrite before).map
          (fun q => recordedEntry o.sw (q.1.regs, q.1.arrival q.2))).getD
            (o.regs.entry o.index) :=
    entry_foldl_eq o.sw InFlight.regs _ _ hstep o.start (.own o.first :: before) o.index
  rw [hentry]
  cases o.lastEntryWrite before with
  | none =>
      rfl
  | some q =>
      exact setWidth_recordedEntry_dec o.sw (q.1.regs, q.1.arrival q.2)

/-- The same for the decision cell. -/
theorem cell_behind
    (o : Overlap)
    (before : List PassEvent)
    {cell : ConnCell}
    (hcell : o.cell = some cell) :
    ((o.behind before).regs.connCell cell).setWidth 4 =
      ((o.lastCellWrite cell before).map (fun q => eventDecision o.sw q.1 q.2)).getD
        o.oldCell := by
  have hstep : ∀ s e,
      (interleaveStep o.sw o.tab s e).regs.connCell cell =
        if writesCell o.tab cell s e then (eventDecision o.sw s e).setWidth 8
        else s.regs.connCell cell := by
    intro s e
    refine (passStep_connCell o.sw o.tab cell s.regs (s.arrival e)).trans ?_
    simp [writesCell, eventDecision]
  have hvalue :
      (o.behind before).regs.connCell cell =
        ((o.lastCellWrite cell before).map
          (fun q => (eventDecision o.sw q.1 q.2).setWidth 8)).getD (o.regs.connCell cell) :=
    cell_foldl_eq_lastEvent (fun s => s.regs.connCell cell)
      (fun q => writesCell o.tab cell q.1 q.2) _ hstep o.start (.own o.first :: before)
  rw [hvalue, oldCell, hcell]
  cases o.lastCellWrite cell before with
  | none =>
      rfl
  | some q =>
      exact BitVec.setWidth_setWidth_of_le _ (by decide)

/-- An interleaving of all passes of the packet but the last, behind an accepted policy. -/
structure Complete (o : Overlap) : Prop where
  rounds : o.sw.code.recirTimes < 8
  passes : o.mid.countP PassEvent.isOwn + 1 = o.sw.code.recirTimes

/-- The packet in front of its last pass. -/
theorem Complete.packet
    {o : Overlap}
    (h : o.Complete) :
    (o.behind o.mid).packet =
      o.conn.contextPacket (BitVec.ofNat 8 o.sw.code.recirTimes) o.hdr := by
  have hrounds := h.rounds
  have hcount : (PassEvent.own o.first :: o.mid).countP PassEvent.isOwn =
      o.sw.code.recirTimes := by
    rw [List.countP_cons_of_pos rfl]
    exact h.passes
  have hpacket := stateAt_packet (by omega) o.tab o.conn o.hdr o.regs
    (.own o.first :: o.mid) (Nat.le_of_eq hcount)
  rw [hcount] at hpacket
  exact hpacket

theorem Complete.counter
    {o : Overlap}
    (h : o.Complete) :
    (BitVec.ofNat 8 o.sw.code.recirTimes).toNat = o.sw.code.recirTimes := by
  have hrounds := h.rounds
  rw [BitVec.toNat_ofNat]
  exact Nat.mod_eq_of_lt (by omega)

/-- The final decision is that of the last round on the registers behind all events. -/
theorem Complete.final_eq
    {o : Overlap}
    (h : o.Complete) :
    o.final = lastRoundDecision o.sw o.hdr (o.behind o.mid).regs := by
  unfold final contextDecision contextSets lastRoundDecision lastRoundSets
  rw [h.packet]
  change lastWrite 0 (evalRound o.sw.code o.sw.monTabs o.hdr 0
    (BitVec.ofNat 8 o.sw.code.recirTimes).toNat _).sets = _
  rw [h.counter]

/-- An own pass in front of the last one is of an earlier round. -/
theorem Complete.own_round
    {o : Overlap}
    (h : o.Complete)
    {before after : List PassEvent} {tstamp : BitVec 16}
    (hsplit : .own o.first :: o.mid = before ++ .own tstamp :: after) :
    (stateAt o.sw o.tab o.start before).packet.recirCounter.toNat ≠ o.sw.code.recirTimes := by
  have hrounds := h.rounds
  have hpasses := h.passes
  have hcount := congrArg (List.countP PassEvent.isOwn) hsplit
  rw [List.countP_cons_of_pos rfl, List.countP_append, List.countP_cons_of_pos rfl] at hcount
  have hless : before.countP PassEvent.isOwn < o.sw.code.recirTimes := by
    omega
  have hpacket := stateAt_packet (by omega) o.tab o.conn o.hdr o.regs before hless.le
  rw [start, hpacket]
  change (BitVec.ofNat 8 (before.countP PassEvent.isOwn)).toNat ≠ _
  rw [BitVec.toNat_ofNat]
  omega

/-- What a last write says of the value read, given what it says of the value written. -/
theorem oldOrFinal_iff
    {o : Overlap} {old : BitVec 4} {w : Option (InFlight × PassEvent)}
    (hw : ∀ q, w = some q →
      (o.SettledWrite old q ↔
        eventDecision o.sw q.1 q.2 = old ∨ eventDecision o.sw q.1 q.2 = o.final)) :
    ((w.map (fun q => eventDecision o.sw q.1 q.2)).getD old = old ∨
        (w.map (fun q => eventDecision o.sw q.1 q.2)).getD old = o.final) ↔
      ∀ q, w = some q → o.SettledWrite old q := by
  cases w with
  | none =>
      simp
  | some q =>
      simp [hw q rfl]

section Reads

variable {S : UnstableSort Check Check.priority} {prog : Program} {o : Overlap}
variable (hcompile : compileTofino S prog = .ok o.sw.code)
variable (h : o.Complete)
variable
  (hkeeps : ∀ before a after, o.mid = before ++ .other a :: after → o.KeepsLastRound before a)

include hcompile h hkeeps

/-- While the others leave it, what the last round has for the packet is the final decision. -/
theorem lastRoundDecision_eq_final
    (before after : List PassEvent)
    (hsplit : .own o.first :: o.mid = before ++ after) :
    lastRoundDecision o.sw o.hdr (stateAt o.sw o.tab o.start before).regs = o.final := by
  have hstart : ∀ before after, .own o.first :: o.mid = before ++ after →
      lastRoundDecision o.sw o.hdr (stateAt o.sw o.tab o.start before).regs =
        lastRoundDecision o.sw o.hdr o.regs := by
    refine foldl_invariant_of_steps
      (P := fun s : InFlight =>
        lastRoundDecision o.sw o.hdr s.regs = lastRoundDecision o.sw o.hdr o.regs)
      rfl ?_
    intro before e after hevents hbefore
    refine Eq.trans ?_ hbefore
    cases e with
    | own tstamp =>
        exact lastRoundDecision_passStep hcompile o.tab o.hdr _
          (fun _ => h.own_round hevents)
    | other a =>
        cases before with
        | nil =>
            cases hevents
        | cons b before =>
            rw [List.cons_append, List.cons.injEq] at hevents
            obtain ⟨rfl, hmid⟩ := hevents
            exact hkeeps before a after hmid
  rw [hstart before after hsplit, h.final_eq]
  exact (hstart (.own o.first :: o.mid) [] (List.append_nil _).symm).symm

/-- With the final decision in its place, a settled write is one of the two decisions. -/
theorem settledWrite_iff
    {before after : List PassEvent}
    (hsplit : o.mid = before ++ after)
    (old : BitVec 4)
    {q : InFlight × PassEvent}
    (hq : q ∈ o.record before) :
    o.SettledWrite old q ↔
      eventDecision o.sw q.1 q.2 = old ∨ eventDecision o.sw q.1 q.2 = o.final := by
  obtain ⟨earlier, later, hevents, hstate⟩ := mem_trace_iff.mp hq
  have hwhole : .own o.first :: o.mid = earlier ++ (q.2 :: later ++ after) := by
    rw [hsplit, ← List.append_assoc, ← hevents, List.cons_append]
  rw [SettledWrite, hstate]
  have hdue := lastRoundDecision_eq_final hcompile h hkeeps earlier _ hwhole
  unfold stateAt at hdue
  rw [hdue]

/-- The entry of the connection holds the old or the final decision after a settled write. -/
theorem entryRead_iff
    {before after : List PassEvent}
    (hsplit : o.mid = before ++ after) :
    (((o.behind before).regs.entry o.index).dec.setWidth 4 = o.oldEntry ∨
        ((o.behind before).regs.entry o.index).dec.setWidth 4 = o.final) ↔
      ∀ q, o.lastEntryWrite before = some q → o.SettledWrite o.oldEntry q := by
  rw [o.entry_behind before]
  refine oldOrFinal_iff (fun q hq => ?_)
  exact settledWrite_iff hcompile h hkeeps hsplit o.oldEntry
    (List.mem_filter.mp (List.mem_of_getLast? hq)).1

/-- The same for the decision cell. -/
theorem cellRead_iff
    {before after : List PassEvent}
    (hsplit : o.mid = before ++ after)
    {cell : ConnCell}
    (hcell : o.cell = some cell) :
    (((o.behind before).regs.connCell cell).setWidth 4 = o.oldCell ∨
        ((o.behind before).regs.connCell cell).setWidth 4 = o.final) ↔
      ∀ q, o.lastCellWrite cell before = some q → o.SettledWrite o.oldCell q := by
  rw [o.cell_behind before hcell]
  refine oldOrFinal_iff (fun q hq => ?_)
  exact settledWrite_iff hcompile h hkeeps hsplit o.oldCell
    (List.mem_filter.mp (List.mem_of_getLast? hq)).1

end Reads

/--
For every accepted policy and every interleaving in which the passes of other
packets leave the decision that the last round has for the packet: the packet, with
as many passes behind it as its policy recirculates, makes its last pass next; and a
data packet in between is enforced with the decision stored before or the final one
exactly when the pass whose decision it reads wrote what was stored before, or what
the last round has for the packet on the registers that pass found.
-/
theorem enforced_old_or_final
    {S : UnstableSort Check Check.priority} {prog : Program}
    (o : Overlap)
    (hcompile : compileTofino S prog = .ok o.sw.code)
    (hpasses : o.mid.countP PassEvent.isOwn + 1 = o.sw.code.recirTimes)
    (hkeeps : ∀ before a after,
      o.mid = before ++ .other a :: after → o.KeepsLastRound before a) :
    (∀ tstamp, (ingressPass o.sw o.tab (o.behind o.mid).regs tstamp
        (o.behind o.mid).packet).egressPort = dropPort) ∧
      ∀ before a after, o.mid = before ++ .other a :: after → a.packet.contextOf = none →
        (o.EnforcedOldOrFinal before a ↔ o.ReadsSettled before a) := by
  have hcomplete : o.Complete := ⟨recirTimes_lt hcompile, hpasses⟩
  constructor
  · intro tstamp
    rw [hcomplete.packet]
    have hpass := ingressPass_context o.sw o.tab (o.behind o.mid).regs tstamp
      (contextOf_contextPacket o.conn (BitVec.ofNat 8 o.sw.code.recirTimes) o.hdr)
    rw [hpass.port, if_neg]
    exact (Nat.le_of_eq hcomplete.counter.symm).not_gt
  · intro before a after hsplit hdata
    have hpass := ingressPass_data o.sw o.tab (o.behind before).regs a.tstamp hdata
    have hentry := entryRead_iff hcompile hcomplete hkeeps hsplit
    unfold EnforcedOldOrFinal ReadsSettled
    rw [forall_prop_of_true hdata]
    refine and_congr ⟨?_, ?_⟩ ?_
    · intro henf hmiss hslot haddr hfresh
      have hread := (hpass.forall_cacheDec_iff _).mp (henf hslot) hmiss
      rw [hslot] at hread
      exact hentry.mp (hread haddr hfresh)
    · intro hsettles hslot
      rw [hpass.forall_cacheDec_iff (fun d => d = o.oldEntry ∨ d = o.final), hslot]
      intro hmiss haddr hfresh
      exact hentry.mpr (hsettles hmiss hslot haddr hfresh)
    · refine forall_congr' (fun idx => forall_congr' (fun htab => forall_congr' (fun hcell => ?_)))
      rw [hpass.forall_connDec_iff htab (fun d => d = o.oldCell ∨ d = o.final)]
      exact cellRead_iff hcompile hcomplete hkeeps hsplit hcell

end Overlap

/-- A data packet of the client's neighbour, which looks where the client's decision is filed. -/
def neighbourData : Arrival :=
  { packet := neighbour.dataPacket 0 (fun _ => 0), tstamp := 6 }

/-- A context packet of another address. -/
def strangerContext : Arrival :=
  { packet := stranger.contextPacket 0 (fun _ => 0), tstamp := 5 }

/-- Some events between the two passes of a context packet of the client. -/
def clientOverlap (hdr : PoiseH) (regs : Registers) (mid : List PassEvent) : Overlap :=
  { sw := switchFor eightHeaders
    tab := emptyConnTab
    conn := tcpClient
    hdr := hdr
    regs := regs
    first := 5
    mid := mid }

/-- The client's packet is dropped in both rounds; a stranger's first pass is in between. -/
def settledOverlap : Overlap :=
  clientOverlap (fun _ => 1) Registers.zero [.other strangerContext, .other neighbourData]

/-- The packets in between leave the decision of the last round. -/
theorem settledOverlap_keeps
    (before : List PassEvent) (a : Arrival) (after : List PassEvent)
    (hsplit : settledOverlap.mid = before ++ .other a :: after) :
    settledOverlap.KeepsLastRound before a := by
  have hmem : PassEvent.other a ∈ [.other strangerContext, .other neighbourData] := by
    change _ ∈ settledOverlap.mid
    rw [hsplit]
    simp
  refine lastRoundDecision_passStep compileTofino_eightHeaders _ _ _ ?_
  rw [recirTimes_eightHeaders]
  rcases List.mem_cons.mp hmem with hstranger | hneighbour
  · cases hstranger
    decide
  · cases List.mem_singleton.mp hneighbour
    decide

/-- The entry that the neighbour reads is that of the client's first pass. -/
theorem settledOverlap_lastEntryWrite :
    settledOverlap.lastEntryWrite [.other strangerContext] =
      some (settledOverlap.start, .own 5) := by
  have hrecord :
      settledOverlap.record [.other strangerContext] =
        [(settledOverlap.start, .own 5), (settledOverlap.behind [], .other strangerContext)] :=
    rfl
  have hown : writesEntry settledOverlap.sw settledOverlap.index settledOverlap.start
      (.own 5) = true := by
    decide +kernel
  have hstranger : writesEntry settledOverlap.sw settledOverlap.index (settledOverlap.behind [])
      (.other strangerContext) = false := by
    decide +kernel
  rw [Overlap.lastEntryWrite, hrecord, lastEvent]
  simp only [List.filter_cons, hown, hstranger]
  rfl

/-- The theorem on a packet whose passes both come to the drop decision. -/
theorem clientOverlap_enforced :
    (ingressPass (switchFor eightHeaders) emptyConnTab
        (settledOverlap.behind [.other strangerContext]).regs neighbourData.tstamp
        neighbourData.packet).enforced = some (.cacheDec 15) ∧
      settledOverlap.EnforcedOldOrFinal [.other strangerContext] neighbourData := by
  refine ⟨by decide +kernel, ?_⟩
  refine ((Overlap.enforced_old_or_final settledOverlap compileTofino_eightHeaders
    (by decide +kernel) settledOverlap_keeps).2 [.other strangerContext] neighbourData [] rfl
    (by decide)).mpr ⟨?_, ?_⟩
  · intro _ _ _ _ q hq
    rw [settledOverlap_lastEntryWrite] at hq
    cases hq
    exact Or.inr (by decide +kernel)
  · intro idx hidx
    cases hidx

/-- The registers behind a whole run of the client's context packet. -/
def clientBlocked : Registers :=
  ((finalPass (switchFor eightHeaders) emptyConnTab (fun _ => 5)
    (tcpClient.contextPacket 0 onlySeven) Registers.zero).map (fun q => q.out.regs)).getD
      Registers.zero

/-- The client is blocked and sends the same context packet again. -/
def againOverlap : Overlap :=
  clientOverlap onlySeven clientBlocked [.other neighbourData]

/--
The drop decision is stored before and after the packet that is sent again, but a
data packet between its two passes is enforced with decision zero.
-/
theorem clientOverlap_partial_decision :
    compileTofino (UnstableSort.insertion _) (membershipProgram eightHeaders) =
        .ok (switchFor eightHeaders).code ∧
      againOverlap.oldEntry = 15 ∧
      againOverlap.final = 15 ∧
      (ingressPass (switchFor eightHeaders) emptyConnTab (againOverlap.behind []).regs
        neighbourData.tstamp neighbourData.packet).enforced = some (.cacheDec 0) ∧
      ¬ againOverlap.EnforcedOldOrFinal [] neighbourData := by
  have hold : againOverlap.oldEntry = 15 := by
    decide +kernel
  have hfinal : againOverlap.final = 15 := by
    decide +kernel
  have henf :
      (ingressPass (switchFor eightHeaders) emptyConnTab (againOverlap.behind []).regs
        neighbourData.tstamp neighbourData.packet).enforced = some (.cacheDec 0) := by
    decide +kernel
  refine ⟨compileTofino_eightHeaders, hold, hfinal, henf, ?_⟩
  intro h
  have hdata : neighbourData.packet.contextOf = none := by
    decide
  have htwo := (h hdata).1 (by decide +kernel) 0 henf
  rw [hold, hfinal] at htwo
  revert htwo
  decide

end PartialDecisions

end Poise
