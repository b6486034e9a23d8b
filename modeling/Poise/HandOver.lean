import Mathlib.Tactic
import Poise.CacheKeyAgreement
import Poise.PartialDecisions
import Poise.ControlThreads

/-!
# Poise: hand-over of a connection from the cache to the table

Context packets report a connection to the control plane when they miss both the
table and the cache.  The learning thread reads the reports in order and with any
delay, and installs each with the decision it carries.  Packets and the steps of
the thread interleave in any order.

* What is handed over under a key comes from context passes only.
* A data packet that hits the table is enforced with the latest decision of its
  connection in every run in which later context packets come to the decision
  already handed over and no data packet falls between the table add and the
  register write.
* The protocol in the key of a data packet is zero, so no data packet hits the
  table when the installed keys carry another one.
-/

namespace Poise

open Foundations

section HandOver

namespace Registers

def writeCell (r : Registers) : ConnCell → BitVec 8 → Registers
  | .first i, v => { r with connDecision1 := Function.update r.connDecision1 i v }
  | .second i, v => { r with connDecision2 := Function.update r.connDecision2 i v }

theorem connCell_writeCell
    (r : Registers) (cell cell' : ConnCell) (v : BitVec 8) :
    (r.writeCell cell v).connCell cell' = if cell' = cell then v else r.connCell cell' := by
  cases cell <;> cases cell' <;> simp [writeCell, connCell, Function.update_apply]

/-- The driver writes the cell of an index. -/
def writeConnDecision (r : Registers) (idx : Nat) (v : BitVec 8) : Registers :=
  r.writeCell (cellOfIndex idx) v

end Registers

/-- The table as the data plane looks it up. -/
def ConnIndexes.lookup (t : ConnIndexes) : ConnTab :=
  fun key => (t.connTab.find? (fun e => e.key == key)).map (fun e => BitVec.ofNat 20 e.idx)

/-- A hit is the index of an installed entry with the key. -/
theorem ConnIndexes.lookup_eq_some
    {t : ConnIndexes} {key : ConnKey} {idx : BitVec 20}
    (h : t.lookup key = some idx) :
    ∃ e, e ∈ t.connTab ∧ e.key = key ∧ idx = BitVec.ofNat 20 e.idx := by
  obtain ⟨e, hfind, rfl⟩ := Option.map_eq_some_iff.mp h
  exact ⟨e, List.mem_of_find?_eq_some hfind, by simpa using List.find?_some hfind, rfl⟩

/-- The switch, the reports under way and the learning thread. -/
structure HandOver extends ConnIndexes where
  regs : Registers
  digests : List LearnMsg
  batch : List LearnMsg
  learner : LearnPc

/-- A packet arrives, or the learning thread takes a step. -/
inductive HandOverStep where
  | arrive (a : Arrival)
  | readDigest (n : Nat)
  | pop
  | add (handle : Option Nat)
  | writeDecision (ok : Bool)

/-- The pass of an arriving packet. -/
def HandOver.pass (sw : Switch) (s : HandOver) (a : Arrival) : PassState :=
  ingressPass sw s.lookup s.regs a.tstamp a.packet

variable (sw : Switch)
variable (ipv4Protocol : Digest → BitVec 8)

/--
A report as the learning thread reads it.  It carries the decision of its packet;
`ipv4_protocol` is not in the field list, so what the driver returns for it is a
parameter.
-/
def learnMsg (d : Digest) (decision : BitVec 4) : LearnMsg :=
  { tcpSrcPort := d.tcpSrcPort
    ipv4SrcAddr := d.ipv4SrcAddr
    ipv4Protocol := ipv4Protocol d
    metaIsContext := d.isContext == 1
    metaDigestDec := decision.setWidth 8 }

/-- The reports a pass sends. -/
def reports (out : PassState) : List LearnMsg :=
  (out.digest.map (fun d => learnMsg ipv4Protocol d out.metadata.ctxDec)).toList

def handOverStep (s : HandOver) : HandOverStep → HandOver
  | .arrive a =>
      { s with
        regs := (s.pass sw a).regs
        digests := s.digests ++ reports ipv4Protocol (s.pass sw a) }
  | .readDigest n =>
      match s.learner, s.batch with
      | .idle, [] => { s with batch := s.digests.take n, digests := s.digests.drop n }
      | _, _ => s
  | .pop =>
      match s.learner, s.batch with
      | .idle, m :: rest =>
          if m.metaIsContext then
            let (indexes, pc) := popStep m.key m.metaDigestDec s.toConnIndexes
            { s with toConnIndexes := indexes, learner := pc, batch := rest }
          else
            { s with batch := rest }
      | _, _ => s
  | .add handle =>
      match s.learner with
      | .popped key decision idx =>
          let (indexes, pc) := addStep handle key decision idx s.toConnIndexes
          { s with toConnIndexes := indexes, learner := pc }
      | _ => s
  | .writeDecision ok =>
      match s.learner with
      | .added e =>
          if ok then
            { s with regs := s.regs.writeConnDecision e.idx e.decision, learner := .idle }
          else
            { s with learner := .stopped }
      | _ => s

/-- The state after setup, with any content of the registers. -/
def HandOver.start (regs : Registers) : HandOver :=
  { toConnIndexes := setup.toConnIndexes
    regs := regs
    digests := []
    batch := []
    learner := .idle }

/-- The state a run is in. -/
def handOverRun (regs : Registers) (steps : List HandOverStep) : HandOver :=
  steps.foldl (handOverStep sw ipv4Protocol) (HandOver.start regs)

/-- The key a context packet of a connection is installed under. -/
def Connection.learnKey (c : Connection) : ConnKey :=
  (c.srcAddr, c.portKey,
    ipv4Protocol
      { tcpSrcPort := c.portKey
        ipv4SrcAddr := c.srcAddr
        ipProtocol := c.ipProtocol
        isContext := 1 })

/-- The key and the decision of a report. -/
def LearnMsg.handed (m : LearnMsg) : ConnKey × BitVec 8 :=
  (m.key, m.metaDigestDec)

/-- The key and the decision of an entry. -/
def ConnEntry.handed (e : ConnEntry) : ConnKey × BitVec 8 :=
  (e.key, e.decision)

def LearnPc.handed : LearnPc → List (ConnKey × BitVec 8)
  | .popped key decision _ => [(key, decision)]
  | _ => []

/-- What is handed over or on the way: installed, in the learning thread, or reported. -/
def HandOver.handed (s : HandOver) : List (ConnKey × BitVec 8) :=
  s.connTab.map ConnEntry.handed ++
    (s.learner.handed ++ (s.batch ++ s.digests).map LearnMsg.handed)

/-- A pass sends at most one report, and only a context pass does. -/
theorem handed_of_mem_reports
    {sw : Switch} {ipv4Protocol : Digest → BitVec 8} {s : HandOver} {a : Arrival} {m : LearnMsg}
    (h : m ∈ reports ipv4Protocol (s.pass sw a)) :
    ∃ c,
      a.packet.contextOf = some c ∧
        m.handed =
          (c.learnKey ipv4Protocol, (contextDecision sw s.regs a.packet).setWidth 8) := by
  cases hctx : a.packet.contextOf with
  | none =>
      have hpass := ingressPass_data sw s.lookup s.regs a.tstamp hctx
      rw [reports, HandOver.pass, hpass.digest] at h
      cases h
  | some c =>
      have hpass := ingressPass_context sw s.lookup s.regs a.tstamp hctx
      refine ⟨c, rfl, ?_⟩
      rw [reports, HandOver.pass, hpass.digest, hpass.decision, key_of_contextOf hctx] at h
      split at h
      · rw [List.mem_singleton.mp h]
        rfl
      · cases h

/-- Only a context pass adds to what is handed over. -/
theorem handed_handOverStep
    {sw : Switch} {ipv4Protocol : Digest → BitVec 8} {s : HandOver} {e : HandOverStep}
    {q : ConnKey × BitVec 8}
    (hq : q ∈ (handOverStep sw ipv4Protocol s e).handed) :
    q ∈ s.handed ∨
      ∃ a c,
        e = .arrive a ∧
        a.packet.contextOf = some c ∧
        q = (c.learnKey ipv4Protocol, (contextDecision sw s.regs a.packet).setWidth 8) := by
  obtain ⟨⟨freeIdxs, connTab⟩, regs, digests, batch, learner⟩ := s
  cases e with
  | arrive a =>
      simp only [handOverStep, HandOver.handed, List.map_append, List.mem_append] at hq ⊢
      rcases hq with hq | hq | hq | hq | hq
      · exact Or.inl (Or.inl hq)
      · exact Or.inl (Or.inr (Or.inl hq))
      · exact Or.inl (Or.inr (Or.inr (Or.inl hq)))
      · exact Or.inl (Or.inr (Or.inr (Or.inr hq)))
      · obtain ⟨m, hm, rfl⟩ := List.mem_map.mp hq
        obtain ⟨c, hc, hhanded⟩ := handed_of_mem_reports hm
        exact Or.inr ⟨a, c, rfl, hc, hhanded⟩
  | readDigest n =>
      left
      cases learner <;> cases batch <;>
        simpa [handOverStep, HandOver.handed, ← List.map_append] using hq
  | pop =>
      left
      cases learner with
      | idle =>
          cases batch with
          | nil => exact hq
          | cons m rest =>
              have hpc : ∀ q, q ∈ (popStep m.key m.metaDigestDec ⟨freeIdxs, connTab⟩).2.handed →
                  q = m.handed := by
                intro q hq
                unfold popStep at hq
                split at hq
                · cases hq
                · exact List.mem_singleton.mp hq
              by_cases hm : m.metaIsContext = true
              · simp only [handOverStep, hm, if_true, HandOver.handed, connTab_popStep,
                  List.mem_append, LearnPc.handed, List.cons_append, List.map_cons,
                  List.mem_cons, List.nil_append] at hq ⊢
                rcases hq with hq | hq | hq
                · exact Or.inl hq
                · exact Or.inr (Or.inl (hpc q hq))
                · exact Or.inr (Or.inr hq)
              · simp only [handOverStep, hm, if_false, HandOver.handed, List.mem_append,
                  List.cons_append, List.map_cons, List.mem_cons, Bool.false_eq_true] at hq ⊢
                rcases hq with hq | hq | hq
                · exact Or.inl hq
                · exact Or.inr (Or.inl hq)
                · exact Or.inr (Or.inr (Or.inr hq))
      | popped _ _ _ => exact hq
      | added _ => exact hq
      | stopped => exact hq
  | add handle =>
      left
      cases learner with
      | popped key decision idx =>
          cases handle with
          | none =>
              simp only [handOverStep, addStep, HandOver.handed, List.mem_append,
                LearnPc.handed, List.mem_singleton] at hq ⊢
              rcases hq with hq | hq | hq
              · exact Or.inl hq
              · cases hq
              · exact Or.inr (Or.inr hq)
          | some handle =>
              simp only [handOverStep, addStep, HandOver.handed, ConnIndexes.install,
                List.map_append, List.map_cons, List.map_nil, List.mem_append, LearnPc.handed,
                List.mem_singleton, ConnEntry.handed] at hq ⊢
              rcases hq with (hq | hq) | hq | hq
              · exact Or.inl hq
              · exact Or.inr (Or.inl hq)
              · cases hq
              · exact Or.inr (Or.inr hq)
      | idle => exact hq
      | added _ => exact hq
      | stopped => exact hq
  | writeDecision ok =>
      left
      cases learner <;> cases ok <;> exact hq

/-- The decision a step comes to for a connection. -/
def decisionFor (c : Connection) (q : HandOver × HandOverStep) : Option (BitVec 4) :=
  match q.2 with
  | .arrive a =>
      if a.packet.contextOf = some c then some (contextDecision sw q.1.regs a.packet) else none
  | _ => none

/-- The decision of the most recent context packet of a connection. -/
def latestDecision (c : Connection) (record : List (HandOver × HandOverStep)) :
    Option (BitVec 4) :=
  (record.filterMap (decisionFor sw c)).getLast?

theorem latestDecision_append_singleton
    (c : Connection) (record : List (HandOver × HandOverStep)) (q : HandOver × HandOverStep) :
    latestDecision sw c (record ++ [q]) = (decisionFor sw c q).or (latestDecision sw c record) := by
  unfold latestDecision
  rw [List.filterMap_append, List.getLast?_append]
  cases h : decisionFor sw c q <;> simp [h]

/--
What is asked of a step for a connection.  A context packet of the connection
comes to the decision that is already handed over or on the way; a context packet
of another connection is not installed under the same key; a data packet of the
connection does not fall between the table add and the register write of its
entry; and that register write does not raise.
-/
def KeepsHandOver (c : Connection) (s : HandOver) : HandOverStep → Prop
  | .arrive a =>
      (a.packet.contextOf = some c →
        ∀ d, (c.dataKey, d) ∈ s.handed → d = (contextDecision sw s.regs a.packet).setWidth 8) ∧
      (∀ c', a.packet.contextOf = some c' → c' ≠ c → c'.learnKey ipv4Protocol ≠ c.dataKey) ∧
      (a.packet.dataOf = some c → ∀ e, s.learner = .added e → e.key ≠ c.dataKey)
  | .writeDecision ok => ∀ e, s.learner = .added e → e.key = c.dataKey → ok = true
  | _ => True

/-- What holds for a connection at every point of a run. -/
structure HandOverInv (c : Connection) (latest : Option (BitVec 4)) (s : HandOver) : Prop where
  learner : LearnerInv s.toConnIndexes s.learner []
  latest : ∀ d, (c.dataKey, d) ∈ s.handed → latest.map (BitVec.setWidth 8) = some d
  cells : ∀ e, e ∈ s.connTab → e.key = c.dataKey →
    s.regs.connCell (cellOfIndex e.idx) = e.decision ∨ s.learner = .added e

namespace HandOverInv

variable {sw : Switch} {ipv4Protocol : Digest → BitVec 8} {c : Connection}
variable {latest : Option (BitVec 4)} {s : HandOver}

/-- All that is handed over is the latest decision, also after a step. -/
theorem latest_step
    {e : HandOverStep}
    (h : HandOverInv c latest s)
    (hok : KeepsHandOver sw ipv4Protocol c s e)
    {d : BitVec 8}
    (hd : (c.dataKey, d) ∈ (handOverStep sw ipv4Protocol s e).handed) :
    ((decisionFor sw c (s, e)).or latest).map (BitVec.setWidth 8) = some d := by
  rcases handed_handOverStep hd with hold | ⟨a, c', rfl, hc', hq⟩
  · cases e with
    | arrive a =>
        by_cases hc : a.packet.contextOf = some c
        · simp [decisionFor, hc, hok.1 hc d hold]
        · simpa [decisionFor, hc] using h.latest d hold
    | readDigest n => exact h.latest d hold
    | pop => exact h.latest d hold
    | add handle => exact h.latest d hold
    | writeDecision ok => exact h.latest d hold
  · obtain ⟨hkey, hdec⟩ := Prod.mk.inj hq
    by_cases hc : c' = c
    · subst hc
      simp [decisionFor, hc', hdec]
    · exact absurd hkey.symm (hok.2.1 c' hc' hc)

/-- With no register write to come every entry of the connection has its decision. -/
theorem cells_of_pc
    (h : HandOverInv c latest s)
    (hpc : ∀ e, s.learner ≠ .added e)
    {e : ConnEntry}
    (he : e ∈ s.connTab)
    (hkey : e.key = c.dataKey) :
    s.regs.connCell (cellOfIndex e.idx) = e.decision := by
  rcases h.cells e he hkey with hcell | hadded
  · exact hcell
  · exact absurd hadded (hpc e)

/-- A pass changes no cell of an entry with the key of a data packet. -/
theorem connCell_arrive
    (h : HandOverInv c latest s)
    (a : Arrival)
    {e : ConnEntry}
    (he : e ∈ s.connTab)
    (hkey : e.key = c.dataKey) :
    (s.pass sw a).regs.connCell (cellOfIndex e.idx) = s.regs.connCell (cellOfIndex e.idx) := by
  obtain ⟨lost, hacc⟩ := h.learner.accounted
  refine (passStep_connCell sw s.lookup (cellOfIndex e.idx) s.regs a).trans (if_neg ?_)
  rintro ⟨hctx, hcell⟩
  obtain ⟨c', hc'⟩ := Option.isSome_iff_exists.mp hctx
  obtain ⟨idx, hidx, hcell⟩ := Option.map_eq_some_iff.mp hcell
  obtain ⟨e', he', hkey', rfl⟩ := ConnIndexes.lookup_eq_some hidx
  -- the entry the context packet hits carries the protocol of its key
  have heq : e' = e := hacc.eq_of_cell he' he hcell
  have hkeys : a.packet.key = c.dataKey := by
    rw [← hkey', heq, hkey]
  rw [key_of_contextOf hc'] at hkeys
  exact Connection.contextKey_ne_dataKey c' c hkeys

theorem step
    {e : HandOverStep}
    (h : HandOverInv c latest s)
    (hok : KeepsHandOver sw ipv4Protocol c s e) :
    HandOverInv c ((decisionFor sw c (s, e)).or latest)
      (handOverStep sw ipv4Protocol s e) := by
  have hlatest := fun d => h.latest_step hok (d := d)
  obtain ⟨⟨freeIdxs, connTab⟩, regs, digests, batch, learner⟩ := s
  cases e with
  | arrive a =>
      refine ⟨h.learner, hlatest, ?_⟩
      intro e he hkey
      rcases h.cells e he hkey with hcell | hpc
      · exact Or.inl ((h.connCell_arrive a he hkey).trans hcell)
      · exact Or.inr hpc
  | readDigest n =>
      cases learner <;> cases batch <;> exact ⟨h.learner, hlatest, h.cells⟩
  | pop =>
      cases learner with
      | idle =>
          cases batch with
          | nil => exact ⟨h.learner, hlatest, h.cells⟩
          | cons m rest =>
              by_cases hm : m.metaIsContext = true
              · simp only [handOverStep, hm, if_true] at hlatest ⊢
                refine ⟨h.learner.popStep m.key m.metaDigestDec, hlatest, ?_⟩
                intro e he hkey
                rw [connTab_popStep] at he
                exact Or.inl (h.cells_of_pc (by simp) he hkey)
              · simp only [handOverStep, hm, if_false, Bool.false_eq_true] at hlatest ⊢
                exact ⟨h.learner, hlatest, h.cells⟩
      | popped _ _ _ => exact ⟨h.learner, hlatest, h.cells⟩
      | added _ => exact ⟨h.learner, hlatest, h.cells⟩
      | stopped => exact ⟨h.learner, hlatest, h.cells⟩
  | add handle =>
      cases learner with
      | popped key decision idx =>
          refine ⟨h.learner.addStep handle, hlatest, ?_⟩
          intro e he hkey
          cases handle with
          | none => exact Or.inl (h.cells_of_pc (by simp) he hkey)
          | some handle =>
              rcases List.mem_append.mp he with hold | hnew
              · exact Or.inl (h.cells_of_pc (by simp) hold hkey)
              · exact Or.inr (by rw [List.mem_singleton.mp hnew]; rfl)
      | idle => exact ⟨h.learner, hlatest, h.cells⟩
      | added _ => exact ⟨h.learner, hlatest, h.cells⟩
      | stopped => exact ⟨h.learner, hlatest, h.cells⟩
  | writeDecision ok =>
      cases learner with
      | added e =>
          have hother : ∀ e', e' ∈ connTab → e'.key = c.dataKey → e' ≠ e →
              regs.connCell (cellOfIndex e'.idx) = e'.decision := by
            intro e' he' hkey hne
            rcases h.cells e' he' hkey with hcell | hpc
            · exact hcell
            · cases hpc
              exact absurd rfl hne
          cases ok with
          | true =>
              refine ⟨h.learner.written rfl (by simp [handOverStep]), hlatest, ?_⟩
              intro e' he' hkey
              left
              refine (Registers.connCell_writeCell regs _ _ _).trans ?_
              by_cases hcell : cellOfIndex e'.idx = cellOfIndex e.idx
              · rw [if_pos hcell, h.learner.added e rfl e' he' hcell]
              · rw [if_neg hcell]
                apply hother e' he' hkey
                rintro rfl
                exact hcell rfl
          | false =>
              refine ⟨h.learner.written rfl (by simp [handOverStep]), hlatest, ?_⟩
              intro e' he' hkey
              refine Or.inl (hother e' he' hkey ?_)
              rintro rfl
              cases hok e' rfl hkey
      | idle => exact ⟨h.learner, hlatest, h.cells⟩
      | popped _ _ _ => exact ⟨h.learner, hlatest, h.cells⟩
      | stopped => exact ⟨h.learner, hlatest, h.cells⟩

/-- A data packet that hits the table is enforced with the latest decision. -/
theorem enforced_latest
    {a : Arrival} {idx : BitVec 20}
    (h : HandOverInv c latest s)
    (hok : KeepsHandOver sw ipv4Protocol c s (.arrive a))
    (hdata : a.packet.dataOf = some c)
    (hhit : s.lookup a.packet.key = some idx) :
    ∃ d, latest = some d ∧ (s.pass sw a).enforced = some (.connDec d) := by
  have hpass := ingressPass_data sw s.lookup s.regs a.tstamp (parse_of_dataOf hdata).1
  obtain ⟨e, he, hkey, rfl⟩ := ConnIndexes.lookup_eq_some hhit
  rw [key_of_dataOf hdata] at hkey
  have hhanded : (c.dataKey, e.decision) ∈ s.handed := by
    apply List.mem_append_left
    exact List.mem_map.mpr ⟨e, he, Prod.ext hkey rfl⟩
  obtain ⟨d, hlatest, hd⟩ := Option.map_eq_some_iff.mp (h.latest e.decision hhanded)
  refine ⟨d, hlatest, ?_⟩
  have hcell : s.regs.connCell (cellOfIndex e.idx) = d.setWidth 8 := by
    rcases h.cells e he hkey with hcell | hpc
    · exact hcell.trans hd.symm
    · exact absurd hkey (hok.2.2 hdata e hpc)
  have henforced := hpass.hit _ hhit
  rw [show connCellOf (BitVec.ofNat 20 e.idx) = cellOfIndex e.idx from rfl, hcell,
    BitVec.setWidth_setWidth_of_le d (by decide)] at henforced
  exact henforced

end HandOverInv

/-- Nothing is handed over at the start. -/
theorem handOverInv_start
    (c : Connection) (regs : Registers) :
    HandOverInv c none (HandOver.start regs) := by
  have hacc : IndexesAccounted [] (HandOver.start regs).toConnIndexes := by
    simp [IndexesAccounted, Accounted, HandOver.start, setup, ConnIndexes.installed]
  refine ⟨LearnerInv.of_accounted hacc rfl (by simp [HandOver.start]), ?_, ?_⟩
  · intro d hd
    cases hd
  · intro e he
    cases he

/--
In every run whose steps keep to the hand-over of a connection, its data packets
that hit the table are enforced with the decision of its most recent context
packet.
-/
theorem handOverRun_enforced_latest
    (c : Connection)
    (regs : Registers)
    (steps : List HandOverStep)
    (hok : ∀ before e after,
      steps = before ++ e :: after →
        KeepsHandOver sw ipv4Protocol c (handOverRun sw ipv4Protocol regs before) e) :
    ∀ before a after idx,
      steps = before ++ .arrive a :: after →
      a.packet.dataOf = some c →
      (handOverRun sw ipv4Protocol regs before).lookup a.packet.key = some idx →
      ∃ d,
        latestDecision sw c
            (trace (handOverStep sw ipv4Protocol) (HandOver.start regs) before) = some d ∧
          ((handOverRun sw ipv4Protocol regs before).pass sw a).enforced =
            some (.connDec d) := by
  intro before a after idx hsplit hdata hhit
  have hinv :
      HandOverInv c
        (latestDecision sw c
          (trace (handOverStep sw ipv4Protocol) (HandOver.start regs) before))
        (handOverRun sw ipv4Protocol regs before) := by
    apply trace_invariant_of_steps
      (P := fun record s => HandOverInv c (latestDecision sw c record) s)
      (handOverInv_start c regs) _ before (.arrive a :: after) hsplit
    intro before e after hes h
    rw [latestDecision_append_singleton]
    exact h.step (hok before e after hes)
  exact hinv.enforced_latest (hok before (.arrive a) after hsplit) hdata hhit

/--
When the driver never returns protocol zero, no packet that is not a context
packet ever hits the table.
-/
theorem lookup_data_none
    (hprotocol : ∀ d, ipv4Protocol d ≠ 0)
    (regs : Registers)
    (steps : List HandOverStep)
    {p : Packet}
    (hdata : p.contextOf = none) :
    (handOverRun sw ipv4Protocol regs steps).lookup p.key = none := by
  have hkeys : ∀ q, q ∈ (handOverRun sw ipv4Protocol regs steps).handed → q.1.2.2 ≠ 0 := by
    refine foldl_invariant (P := fun s : HandOver => ∀ q, q ∈ s.handed → q.1.2.2 ≠ 0)
      ?_ ?_ steps
    · intro s e hs q hq
      rcases handed_handOverStep hq with hold | ⟨a, c, _, _, rfl⟩
      · exact hs q hold
      · exact hprotocol _
    · intro q hq
      cases hq
  rw [Option.eq_none_iff_forall_ne_some]
  intro idx hhit
  obtain ⟨e, he, hkey, _⟩ := ConnIndexes.lookup_eq_some hhit
  have hproto : p.key.2.2 = 0 := by
    rw [Packet.key, (parse_of_not_context hdata).2]
  apply hkeys e.handed (List.mem_append_left _ (List.mem_map.mpr ⟨e, he, rfl⟩))
  rw [ConnEntry.handed, hkey, hproto]

/-- The learning thread takes over one report. -/
def learnOne : List HandOverStep :=
  [.readDigest 1, .pop, .add (some 0), .writeDecision true]

/-- What taking over one report leaves. -/
theorem foldl_learnOne
    {sw : Switch} {ipv4Protocol : Digest → BitVec 8}
    (init : List Nat) (idx : Nat) (regs : Registers)
    {m : LearnMsg}
    (hm : m.metaIsContext = true) :
    learnOne.foldl (handOverStep sw ipv4Protocol)
        { freeIdxs := init ++ [idx], connTab := [], regs := regs, digests := [m], batch := [],
          learner := .idle } =
      { freeIdxs := init
        connTab := [{ handle := 0, key := m.key, idx := idx, decision := m.metaDigestDec }]
        regs := regs.writeConnDecision idx m.metaDigestDec
        digests := []
        batch := []
        learner := .idle } := by
  simp [learnOne, handOverStep, popStep, addStep, hm, ConnIndexes.pop, ConnIndexes.install]

/-- A context packet of the client with a value of its header; one is to be dropped. -/
def contextArrival (value : BitVec 16) : Arrival :=
  { packet := tcpClient.contextPacket 0 (fun _ => value), tstamp := 5 }

/-- The entry of the client with the decision of its report. -/
def clientEntry (decision : BitVec 8) : ConnEntry :=
  { handle := 0, key := tcpClient.dataKey, idx := 99999, decision := decision }

/-- The report of the client. -/
def clientReport (decision : BitVec 8) : LearnMsg :=
  { tcpSrcPort := 4000, ipv4SrcAddr := 0x0a000001, ipv4Protocol := 0, metaIsContext := true,
    metaDigestDec := decision }

/-- A report of the client is taken over behind any packets that sent only this one. -/
theorem foldl_learnOne_client
    (regs : Registers)
    (decision : BitVec 8) :
    learnOne.foldl (handOverStep (switchFor oneHeader) (fun _ => 0))
        { toConnIndexes := setup.toConnIndexes, regs := regs, digests := [clientReport decision],
          batch := [], learner := .idle } =
      { freeIdxs := List.range 99999
        connTab := [clientEntry decision]
        regs := regs.writeConnDecision 99999 decision
        digests := []
        batch := []
        learner := .idle } := by
  rw [setup_eq]
  exact foldl_learnOne (List.range 99999) 99999 regs rfl

/-- One context packet of the client that sends a report. -/
theorem handOverStep_arrive_client
    {s : HandOver} {a : Arrival} {msgs : List LearnMsg}
    (h : reports (fun _ => 0) (s.pass (switchFor oneHeader) a) = msgs) :
    handOverStep (switchFor oneHeader) (fun _ => 0) s (.arrive a) =
      { s with regs := (s.pass (switchFor oneHeader) a).regs, digests := s.digests ++ msgs } := by
  rw [handOverStep, h]

/-- The steps of the learning thread come to no decision. -/
theorem latestDecision_learnOne
    (c : Connection)
    (s : HandOver)
    (record : List (HandOver × HandOverStep)) :
    latestDecision sw c (record ++ trace (handOverStep sw ipv4Protocol) s learnOne) =
      latestDecision sw c record := by
  have hnone :
      (trace (handOverStep sw ipv4Protocol) s learnOne).filterMap (decisionFor sw c) = [] := by
    rfl
  rw [latestDecision, List.filterMap_append, hnone, List.append_nil, latestDecision]

/-- Undisturbed steps of the learning thread keep to every hand-over. -/
theorem keepsHandOver_learnOne
    (c : Connection)
    (s : HandOver) :
    ∀ q, q ∈ trace (handOverStep sw ipv4Protocol) s learnOne →
      KeepsHandOver sw ipv4Protocol c q.1 q.2 := by
  simp [learnOne, KeepsHandOver]

/-- A data packet of the client. -/
def clientData : Arrival :=
  { packet := tcpClient.dataPacket 0 (fun _ => 0), tstamp := 6 }

/-- The client's data packet hits its entry. -/
theorem lookup_clientEntry
    {t : ConnIndexes} {decision : BitVec 8}
    (h : t.connTab = [clientEntry decision]) :
    t.lookup clientData.packet.key = some 99999 := by
  rw [ConnIndexes.lookup, h]
  rfl

/-- The run lemma on a client that is to be dropped and sends a data packet. -/
theorem clientHandOver_enforced :
    ((handOverRun (switchFor oneHeader) (fun _ => 0) Registers.zero
        ([.arrive (contextArrival 1)] ++ learnOne)).pass (switchFor oneHeader)
      clientData).enforced = some (.connDec 15) := by
  have hreport :
      reports (fun _ => 0)
        ((HandOver.start Registers.zero).pass (switchFor oneHeader) (contextArrival 1)) =
          [clientReport 15] := by
    decide +kernel
  have hdec :
      latestDecision (switchFor oneHeader) tcpClient
        (trace (handOverStep (switchFor oneHeader) (fun _ => 0)) (HandOver.start Registers.zero)
          ([.arrive (contextArrival 1)] ++ learnOne)) = some 15 := by
    rw [trace_append, latestDecision_learnOne]
    decide +kernel
  obtain ⟨regs, hstate⟩ :
      ∃ regs,
        handOverRun (switchFor oneHeader) (fun _ => 0) Registers.zero
            ([.arrive (contextArrival 1)] ++ learnOne) =
          { freeIdxs := List.range 99999, connTab := [clientEntry 15], regs := regs,
            digests := [], batch := [], learner := .idle } := by
    unfold handOverRun
    rw [List.foldl_append, List.foldl_cons, List.foldl_nil, handOverStep_arrive_client hreport]
    exact ⟨_, foldl_learnOne_client _ 15⟩
  have hhit :
      (handOverRun (switchFor oneHeader) (fun _ => 0) Registers.zero
        ([.arrive (contextArrival 1)] ++ learnOne)).lookup clientData.packet.key =
          some 99999 := by
    rw [hstate]
    exact lookup_clientEntry rfl
  have hkeeps : ∀ q,
      q ∈ trace (handOverStep (switchFor oneHeader) (fun _ => 0)) (HandOver.start Registers.zero)
        ([.arrive (contextArrival 1)] ++ learnOne ++ [.arrive clientData]) →
      KeepsHandOver (switchFor oneHeader) (fun _ => 0) tcpClient q.1 q.2 := by
    intro q hq
    rw [trace_append, trace_append, List.mem_append, List.mem_append] at hq
    rcases hq with (hq | hq) | hq
    · rw [List.mem_singleton.mp hq]
      refine ⟨?_, ?_, ?_⟩
      · intro _ d hd
        cases hd
      · intro c' hc' hne
        exact absurd (Option.some.inj hc').symm hne
      · intro _ e he
        cases he
    · exact keepsHandOver_learnOne _ _ tcpClient _ q hq
    · rw [List.mem_singleton.mp hq]
      refine ⟨?_, ?_, ?_⟩
      · intro hctx
        cases hctx
      · intro c' hctx
        cases hctx
      · intro _ e he
        have hidle := congrArg HandOver.learner hstate
        rw [handOverRun] at hidle
        cases hidle.symm.trans he
  have hrun :=
    handOverRun_enforced_latest (switchFor oneHeader) (fun _ => 0) tcpClient Registers.zero
      ([.arrive (contextArrival 1)] ++ learnOne ++ [.arrive clientData])
      (fun before e after hsplit =>
        hkeeps (_, e) (mem_trace_iff.mpr ⟨before, after, hsplit, rfl⟩))
  have hdata : clientData.packet.dataOf = some tcpClient := dataOf_dataPacket tcpClient 0 _
  obtain ⟨d, hd, henf⟩ := hrun _ clientData [] 99999 rfl hdata hhit
  rw [hdec] at hd
  cases hd
  exact henf

/--
The client is not to be dropped, and its report waits.  A second context packet
that is to be dropped hits the cache and sends no report.  The waiting report is
installed, and the data packet is enforced with it.
-/
theorem clientHandOver_outdated :
    latestDecision (switchFor oneHeader) tcpClient
        (trace (handOverStep (switchFor oneHeader) (fun _ => 0)) (HandOver.start Registers.zero)
          ([.arrive (contextArrival 0), .arrive (contextArrival 1)] ++ learnOne)) = some 15 ∧
      ((handOverRun (switchFor oneHeader) (fun _ => 0) Registers.zero
          ([.arrive (contextArrival 0), .arrive (contextArrival 1)] ++ learnOne)).pass
        (switchFor oneHeader) clientData).enforced = some (.connDec 0) := by
  have hreport :
      reports (fun _ => 0)
        ((HandOver.start Registers.zero).pass (switchFor oneHeader) (contextArrival 0)) =
          [clientReport 0] := by
    decide +kernel
  have hsilent :
      reports (fun _ => 0)
        ((handOverStep (switchFor oneHeader) (fun _ => 0) (HandOver.start Registers.zero)
          (.arrive (contextArrival 0))).pass (switchFor oneHeader) (contextArrival 1)) = [] := by
    decide +kernel
  obtain ⟨regs, hstate⟩ :
      ∃ regs : Registers,
        handOverRun (switchFor oneHeader) (fun _ => 0) Registers.zero
            ([.arrive (contextArrival 0), .arrive (contextArrival 1)] ++ learnOne) =
          { freeIdxs := List.range 99999, connTab := [clientEntry 0],
            regs := regs.writeConnDecision 99999 0, digests := [], batch := [],
            learner := .idle } := by
    unfold handOverRun
    rw [List.foldl_append, List.foldl_cons, List.foldl_cons, List.foldl_nil,
      handOverStep_arrive_client hsilent, handOverStep_arrive_client hreport]
    exact ⟨_, foldl_learnOne_client _ 0⟩
  constructor
  · rw [trace_append, latestDecision_learnOne]
    decide +kernel
  · rw [hstate]
    have hdata := (parse_of_dataOf (dataOf_dataPacket tcpClient 0 (fun _ => 0))).1
    refine ((ingressPass_data _ _ _ _ hdata).hit 99999 (lookup_clientEntry rfl)).trans ?_
    rw [show connCellOf 99999 = cellOfIndex 99999 from rfl, Registers.writeConnDecision,
      Registers.connCell_writeCell, if_pos rfl]
    rfl

end HandOver

end Poise
