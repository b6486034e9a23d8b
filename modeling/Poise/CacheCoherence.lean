import Mathlib.Tactic
import Poise.DefaultDeny

/-!
# Poise data plane: coherence of the cache and of the Bloom filter

The registers of the switch over whole sequences of passes from reset.  Every
pass comes with its own packet, clock and connection table, so that installed
connections may change between any two passes.

* The five cache arrays are updated together: an entry is the entry of the last
  context pass that hashed to its index.
* A data pass changes no register.
* A cell of the Bloom filter is set exactly by the context passes that evict a
  drop decision of another address.
-/

namespace Poise

open Foundations

section CacheCoherence

/-- A packet at the input of the pipeline, with the connection table it finds. -/
structure PassInput extends Arrival where
  tab : ConnTab

/-- The registers after the pass of an input. -/
def inputStep (sw : Switch) (regs : Registers) (a : PassInput) : Registers :=
  passStep sw a.tab regs a.toArrival

/-- The inputs of a run from reset with the registers they found. -/
def inputHistory (sw : Switch) (inputs : List PassInput) : List (Registers × PassInput) :=
  trace (inputStep sw) Registers.zero inputs

/-- The three arrays of the Bloom filter. -/
inductive BloomArray where
  | bf1
  | bf2
  | bf3
deriving DecidableEq, Repr

/-- A cell of the Bloom filter. -/
def Registers.bloomBit (r : Registers) : BloomArray → Fin bfSize → BitVec 8
  | .bf1 => r.bf1
  | .bf2 => r.bf2
  | .bf3 => r.bf3

theorem Registers.bloomBit_congr
    {r r' : Registers}
    (h₁ : r.bf1 = r'.bf1)
    (h₂ : r.bf2 = r'.bf2)
    (h₃ : r.bf3 = r'.bf3) :
    r.bloomBit = r'.bloomBit := by
  funext f
  cases f with
  | bf1 =>
      exact h₁
  | bf2 =>
      exact h₂
  | bf3 =>
      exact h₃

/-- The hash function of an array, on port, address and protocol. -/
def Switch.bloomHash (sw : Switch) : BloomArray → BitVec 16 → BitVec 32 → BitVec 8 → Fin bfSize
  | .bf1 => sw.bf1Hash
  | .bf2 => sw.bf2Hash
  | .bf3 => sw.bf3Hash

/-- The cell an entry is remembered in when it is evicted. -/
def Switch.bloomCell (sw : Switch) (f : BloomArray) (e : CacheEntry) : Fin bfSize :=
  sw.bloomHash f e.srcPort e.srcIp e.protoc

/-- The entry a recorded pass found at its cache index. -/
def foundEntry (sw : Switch) (q : Registers × PassInput) : CacheEntry :=
  q.1.entry (sw.slot q.2.packet.key)

/-- A context pass that evicts a drop decision of another address, remembered in the cell. -/
def EvictsInto
    (sw : Switch) (f : BloomArray) (i : Fin bfSize) (q : Registers × PassInput) : Prop :=
  q.2.packet.isContext = true ∧
    (foundEntry sw q).srcIp ≠ q.2.packet.key.1 ∧
    (foundEntry sw q).dec.setWidth 4 = decDrop ∧
    sw.bloomCell f (foundEntry sw q) = i

instance (sw : Switch) (f : BloomArray) (i : Fin bfSize) :
    DecidablePred (EvictsInto sw f i) := fun q => by
  unfold EvictsInto
  infer_instance

/-- One ALU of the Bloom filter at one cell. -/
theorem bfAlu_cell
    (s : PassState)
    (hash : BitVec 16 → BitVec 32 → BitVec 8 → Fin bfSize)
    (reg : Fin bfSize → BitVec 8)
    (val : BitVec 1)
    (i : Fin bfSize) :
    (bfAlu s hash reg val).2 i =
      if s.contextPred = true ∧ s.metadata.cacheDec = decDrop ∧
          hash s.metadata.cacheSrcPort s.metadata.cacheSrcIp s.metadata.cacheProtoc = i then 1
      else reg i := by
  have hdrop : (s.metadata.cacheDec - decDrop == 0) = decide (s.metadata.cacheDec = decDrop) := by
    rw [Bool.eq_iff_iff, beq_iff_eq, decide_eq_true_eq]
    constructor
    · intro h
      bv_omega
    · intro h
      bv_omega
  simp only [bfAlu, hdrop, aluUpdate]
  by_cases hctx : s.contextPred = true
  · by_cases hdec : s.metadata.cacheDec = decDrop
    · simp [hctx, hdec, Function.update_apply, eq_comm]
    · simp [hdec]
  · simp [hctx]

/-- The classification at one cell of the Bloom filter. -/
theorem classifyCache_bloomBit
    (sw : Switch)
    (s : PassState)
    (f : BloomArray)
    (i : Fin bfSize) :
    (classifyCache sw s).regs.bloomBit f i =
      if s.contextPred = true ∧ s.metadata.cacheSrcIp ≠ s.hdr.srcAddr ∧
          s.metadata.cacheDec = decDrop ∧
          sw.bloomHash f s.metadata.cacheSrcPort s.metadata.cacheSrcIp s.metadata.cacheProtoc = i
        then 1
      else s.regs.bloomBit f i := by
  unfold classifyCache
  by_cases hip : s.metadata.cacheSrcIp = s.hdr.srcAddr
  · rw [if_pos hip, if_neg (fun h => h.2.1 hip)]
    rfl
  · rw [if_neg hip]
    by_cases hempty : s.metadata.cacheDec = 0
    · have hnot : ¬ s.metadata.cacheDec = decDrop := by
        rw [hempty]
        decide
      rw [if_pos hempty, if_neg (fun h => hnot h.2.2.1)]
      rfl
    · rw [if_neg hempty]
      -- the ALUs read the same metadata, each works on its own array
      simp only [ne_eq, hip, not_false_eq_true, true_and]
      cases f with
      | bf1 =>
          exact bfAlu_cell s sw.bf1Hash s.regs.bf1 s.metadata.bf1Val i
      | bf2 =>
          exact bfAlu_cell (handleBf1 sw s) sw.bf2Hash s.regs.bf2 s.metadata.bf2Val i
      | bf3 =>
          exact bfAlu_cell (handleBf2 sw (handleBf1 sw s)) sw.bf3Hash s.regs.bf3
            s.metadata.bf3Val i

/-- The stages in front of the classification leave the Bloom filter alone. -/
theorem lookup_bloomBit
    (sw : Switch) (tab : ConnTab) (tstamp : BitVec 16) (s : PassState)
    (f : BloomArray)
    (i : Fin bfSize) :
    (lookup sw tab tstamp s).regs.bloomBit f i =
      if s.contextPred = true ∧ (s.regs.entry (cacheHashCalc sw s)).srcIp ≠ s.hdr.srcAddr ∧
          (s.regs.entry (cacheHashCalc sw s)).dec.setWidth 4 = decDrop ∧
          sw.bloomCell f (s.regs.entry (cacheHashCalc sw s)) = i then 1
      else s.regs.bloomBit f i := by
  obtain ⟨i₁, i₂, d, r, hbefore, _, h₁, h₂, h₃⟩ := exists_beforeClassify sw tab tstamp s
  rw [lookup, hbefore, classifyCache_bloomBit, ← Registers.bloomBit_congr h₁ h₂ h₃]
  rfl

/-- One pass at one cell of the Bloom filter. -/
theorem inputStep_bloomBit
    (sw : Switch) (regs : Registers) (a : PassInput)
    (f : BloomArray)
    (i : Fin bfSize) :
    (inputStep sw regs a).bloomBit f i =
      if EvictsInto sw f i (regs, a) then 1 else regs.bloomBit f i := by
  unfold inputStep passStep
  cases hctx : a.packet.contextOf with
  | none =>
      have hnot : ¬ EvictsInto sw f i (regs, a) := by
        intro h
        have := h.1
        simp [Packet.isContext, hctx] at this
      rw [(ingressPass_data sw a.tab regs a.tstamp hctx).unchanged, if_neg hnot]
  | some c =>
      obtain ⟨s, hs⟩ := exists_contextLookup sw a.tab regs a.tstamp hctx
      have hlctx := (lookup_spec sw a.tab a.tstamp s).isContext.trans hs.isContext
      rw [hs.out, enforce_context sw hlctx]
      change (lookup sw a.tab a.tstamp s).regs.bloomBit f i = _
      rw [lookup_bloomBit]
      have hfound : s.regs.entry (cacheHashCalc sw s) = foundEntry sw (regs, a) := by
        rw [hs.slot, hs.registers]
        rfl
      have hkeep : s.regs.bloomBit f i = regs.bloomBit f i := by
        rw [hs.registers]
        cases f <;> rfl
      have his : a.packet.isContext = true := by
        rw [Packet.isContext, hctx]
        rfl
      simp only [hfound, hs.addr, hkeep, hs.contextPred, EvictsInto, his]

/-- One pass at one cache index. -/
theorem inputStep_entry
    (sw : Switch) (i : BitVec 16) (regs : Registers) (a : PassInput) :
    (inputStep sw regs a).entry i =
      if writesSlot sw i a.toArrival then recordedEntry sw (regs, a.toArrival)
      else regs.entry i :=
  passStep_entry sw a.tab i regs a.toArrival

/-- The last context pass of a run that hashed to a cache index. -/
def lastContextPass
    (sw : Switch) (inputs : List PassInput) (i : BitVec 16) : Option (Registers × PassInput) :=
  lastEvent (fun q => writesSlot sw i q.2.toArrival) (inputHistory sw inputs)

/-- The last context pass at an index is a context pass of the run whose key has it. -/
theorem lastContextPass_spec
    {sw : Switch} {inputs : List PassInput} {i : BitVec 16} {q : Registers × PassInput}
    (h : lastContextPass sw inputs i = some q) :
    q ∈ inputHistory sw inputs ∧ q.2.packet.isContext = true ∧ sw.slot q.2.packet.key = i := by
  have hmem := List.mem_filter.mp (List.mem_of_getLast? h)
  obtain ⟨hctx, hslot⟩ := Bool.and_eq_true_iff.mp hmem.2
  exact ⟨hmem.1, hctx, eq_of_beq hslot⟩

/-- The entry of an index no context pass hashed to. -/
def CacheEntry.zero : CacheEntry :=
  { srcIp := 0, srcPort := 0, protoc := 0, dec := 0, tstamp := 0 }

/-- The registers after a run from reset. -/
def afterInputs (sw : Switch) (inputs : List PassInput) : Registers :=
  inputs.foldl (inputStep sw) Registers.zero

/-- Coherence of the cache from reset. -/
theorem entry_afterInputs
    (sw : Switch) (inputs : List PassInput) (i : BitVec 16) :
    (afterInputs sw inputs).entry i =
      ((lastContextPass sw inputs i).map
        (fun q => recordedEntry sw (q.1, q.2.toArrival))).getD CacheEntry.zero := by
  have hstep : ∀ (regs : Registers) (a : PassInput),
      id (inputStep sw regs a) = passStep sw a.tab (id regs) a.toArrival :=
    fun _ _ => rfl
  exact entry_foldl_eq sw id _ _ hstep Registers.zero inputs i

/-- The decision registers of the cache never hold more than four bits. -/
theorem entry_afterInputs_dec
    (sw : Switch) (inputs : List PassInput) (i : BitVec 16) :
    ((afterInputs sw inputs).entry i).dec =
      (((afterInputs sw inputs).entry i).dec.setWidth 4).setWidth 8 := by
  rw [entry_afterInputs]
  cases lastContextPass sw inputs i with
  | none =>
      rfl
  | some q =>
      simp only [Option.map_some, Option.getD_some, setWidth_recordedEntry_dec]
      rfl

/-- A cell of the Bloom filter is set by the evictions into it and by nothing else. -/
theorem bloomBit_afterInputs
    (sw : Switch) (inputs : List PassInput) (f : BloomArray) (i : Fin bfSize) :
    (afterInputs sw inputs).bloomBit f i = 1 ↔
      ∃ q, q ∈ inputHistory sw inputs ∧ EvictsInto sw f i q := by
  have hcell :
      (afterInputs sw inputs).bloomBit f i =
        ((lastEvent (fun q => decide (EvictsInto sw f i q)) (inputHistory sw inputs)).map
          (fun _ => (1 : BitVec 8))).getD (Registers.zero.bloomBit f i) :=
    cell_foldl_eq_lastEvent (fun r => r.bloomBit f i) (fun q => decide (EvictsInto sw f i q))
      (fun _ => 1) (by
        intro regs a
        simpa using inputStep_bloomBit sw regs a f i) Registers.zero inputs
  have hzero : Registers.zero.bloomBit f i = 0 := by
    cases f <;> rfl
  rw [hcell, hzero]
  unfold lastEvent
  cases hlast :
      ((inputHistory sw inputs).filter (fun q => decide (EvictsInto sw f i q))).getLast? with
  | none =>
      have hnil := List.getLast?_eq_none_iff.mp hlast
      constructor
      · intro h
        simp at h
      · rintro ⟨q, hq, hev⟩
        have := List.filter_eq_nil_iff.mp hnil q hq
        simp [hev] at this
  | some q =>
      have hmem := List.mem_filter.mp (List.mem_of_getLast? hlast)
      exact ⟨fun _ => ⟨q, hmem.1, of_decide_eq_true hmem.2⟩, fun _ => rfl⟩

/--
Over every sequence of passes from reset: an entry of the cache is zero when no
context pass hashed to its index, and all five fields come from the last one
otherwise; data passes change no register; and a cell of the Bloom filter is set
exactly when an earlier context pass evicted from its index an entry with a drop
decision and another address whose key hashes to the cell.
-/
theorem cache_coherent
    (sw : Switch)
    (inputs : List PassInput) :
    (∀ i,
      (afterInputs sw inputs).entry i =
        match lastContextPass sw inputs i with
        | none => { srcIp := 0, srcPort := 0, protoc := 0, dec := 0, tstamp := 0 }
        | some (regs, a) =>
            { srcIp := a.packet.key.1
              srcPort := a.packet.key.2.1
              protoc := a.packet.key.2.2
              dec := (ingressPass sw a.tab regs a.tstamp a.packet).metadata.ctxDec.setWidth 8
              tstamp := a.tstamp.setWidth 32 }) ∧
    (∀ regs a,
      (regs, a) ∈ inputHistory sw inputs → a.packet.isContext = false →
        (ingressPass sw a.tab regs a.tstamp a.packet).regs = regs) ∧
    (∀ f i,
      (afterInputs sw inputs).bloomBit f i = 1 ↔
        ∃ regs a,
          (regs, a) ∈ inputHistory sw inputs ∧ a.packet.isContext = true ∧
            (regs.entry (sw.slot a.packet.key)).srcIp ≠ a.packet.key.1 ∧
            (regs.entry (sw.slot a.packet.key)).dec = decDrop.setWidth 8 ∧
            sw.bloomCell f (regs.entry (sw.slot a.packet.key)) = i) := by
  refine ⟨?_, ?_, ?_⟩
  · intro i
    rw [entry_afterInputs]
    cases hlast : lastContextPass sw inputs i with
    | none =>
        rfl
    | some q =>
        obtain ⟨regs, a⟩ := q
        have hctx : a.packet.isContext = true := (lastContextPass_spec hlast).2.1
        obtain ⟨c, hc⟩ := Option.isSome_iff_exists.mp hctx
        have hpass := ingressPass_context sw a.tab regs a.tstamp hc
        simp only [hpass.decision]
        rfl
  · intro regs a _ hdata
    exact (ingressPass_data sw a.tab regs a.tstamp (by
      simpa [Packet.isContext] using hdata)).unchanged
  · intro f i
    rw [bloomBit_afterInputs]
    constructor
    · rintro ⟨⟨regs, a⟩, hmem, hctx, haddr, hdec, hcell⟩
      obtain ⟨before, after, _, hregs⟩ := mem_trace_iff.mp hmem
      refine ⟨regs, a, hmem, hctx, haddr, ?_, hcell⟩
      have hfour := entry_afterInputs_dec sw before (sw.slot a.packet.key)
      unfold afterInputs at hfour
      rw [← hregs] at hfour
      rw [hfour]
      exact congrArg (BitVec.setWidth 8) hdec
    · rintro ⟨regs, a, hmem, hctx, haddr, hdec, hcell⟩
      refine ⟨(regs, a), hmem, hctx, haddr, ?_, hcell⟩
      unfold foundEntry
      rw [hdec]
      decide

end CacheCoherence

end Poise
