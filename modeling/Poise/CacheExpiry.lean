import Mathlib.Tactic
import Poise.CacheCoherence

/-!
# Poise data plane: expiry of cache entries

A cached decision is to be enforced for `CACHE_TIMEOUT` ticks after its context
packet.  Ticks are counted without bound here, and the switch keeps the low 16
bits of the count.  The age is a difference of two such values in 32 bits, so it
is at most 65535, or huge when the low bits have wrapped around since.

The timeout is larger than 65535.  An entry therefore expires when the low bits
of the clock are below those of the entry, whatever time has passed.
-/

namespace Poise

open Foundations

section CacheExpiry

/-- What `split_tstamp` keeps of a tick count. -/
def tickStamp (t : Nat) : BitVec 16 :=
  BitVec.ofNat 16 t

/-- The ticks on which the age test agrees with the time that has passed. -/
def AgeAgrees (t₀ t₁ : Nat) : Prop :=
  t₁ % 65536 < t₀ % 65536 ↔ cacheTimeout.toNat < t₁ - t₀

/-- The age test compares the low bits of the two ticks. -/
theorem isFresh_tickStamp
    {e : CacheEntry} {t₀ : Nat}
    (he : e.tstamp = (tickStamp t₀).setWidth 32)
    (t₁ : Nat) :
    isFresh e (tickStamp t₁) = false ↔ t₁ % 65536 < t₀ % 65536 := by
  have hnow : ((tickStamp t₁).setWidth 32).toNat = t₁ % 65536 := by
    simp [tickStamp]
    omega
  have hthen : ((tickStamp t₀).setWidth 32).toNat = t₀ % 65536 := by
    simp [tickStamp]
    omega
  have htimeout : cacheTimeout.toNat = 100000 := by
    decide
  rw [isFresh, he, Bool.not_eq_false', decide_eq_true_eq, GT.gt, BitVec.lt_def,
    BitVec.toNat_sub, hnow, hthen, htimeout]
  omega

/-- Passes that do not write a cache index leave its entry. -/
theorem entry_foldl_of_not_written
    (sw : Switch) (i : BitVec 16) (regs : Registers)
    {inputs : List PassInput}
    (hnone : ∀ a, a ∈ inputs → a.packet.isContext = true → sw.slot a.packet.key ≠ i) :
    (inputs.foldl (inputStep sw) regs).entry i = regs.entry i := by
  induction inputs generalizing regs with
  | nil =>
      rfl
  | cons a inputs ih =>
      rw [List.foldl_cons, ih _ (fun b hb => hnone b (List.mem_cons_of_mem _ hb)),
        inputStep_entry, if_neg]
      rw [writesSlot, Bool.and_eq_true, beq_iff_eq]
      rintro ⟨hctx, hslot⟩
      exact hnone a List.mem_cons_self hctx hslot

/-- A context packet and a later data packet on one index, with no context packet in between. -/
structure CacheVisit
    (sw : Switch) (ctx : PassInput) (between : List PassInput) (data : PassInput) : Prop where
  context : ctx.packet.isContext = true
  later : data.packet.isContext = false
  slot : sw.slot ctx.packet.key = sw.slot data.packet.key
  undisturbed : ∀ a, a ∈ between → a.packet.isContext = true →
    sw.slot a.packet.key ≠ sw.slot data.packet.key

/-- The later packet finds the entry of the context packet. -/
theorem CacheVisit.entry
    {sw : Switch} {ctx data : PassInput} {between : List PassInput}
    (h : CacheVisit sw ctx between data)
    (before : List PassInput) :
    (afterInputs sw (before ++ ctx :: between)).entry (sw.slot data.packet.key) =
      contextEntry sw (afterInputs sw before) ctx.tstamp ctx.packet := by
  rw [afterInputs, List.foldl_append, List.foldl_cons,
    entry_foldl_of_not_written sw _ _ h.undisturbed, inputStep_entry, if_pos]
  · rfl
  · rw [writesSlot, Bool.and_eq_true, beq_iff_eq]
    exact ⟨h.context, h.slot⟩

/-- The flag a packet that is no context packet leaves the pipeline with. -/
theorem outdated_ingressPass_data
    (sw : Switch) (tab : ConnTab) (regs : Registers) (tstamp : BitVec 16)
    {p : Packet}
    (hdata : p.contextOf = none) :
    (ingressPass sw tab regs tstamp p).metadata.tstampHigh32Outdated ≠ 0 ↔
      isFresh (regs.entry (sw.slot p.key)) tstamp = false := by
  obtain ⟨s, hs⟩ := exists_dataLookup sw tab regs tstamp hdata
  rw [hs.out, enforce_metadata, Ne, (lookup_spec sw tab tstamp s).outdated_iff hs.outdated,
    hs.slot, hs.registers, Bool.not_eq_true]

/--
For every context packet at tick `t₀` and every data packet at tick `t₁` on the
same cache index, with no context packet on it in between: the entry counts as
outdated exactly when more than the timeout has passed, and a data packet of the
same address that misses `conn_tab` is enforced from the cache exactly when no
more has passed, if and only if the low bits of the ticks order the same way.
-/
theorem cacheExpiry_iff
    (sw : Switch)
    (before between : List PassInput)
    (ctx data : PassInput)
    (t₀ t₁ : Nat)
    (hvisit : CacheVisit sw ctx between data)
    (hctx : ctx.tstamp = tickStamp t₀)
    (hdata : data.tstamp = tickStamp t₁) :
    (((ingressPass sw data.tab (afterInputs sw (before ++ ctx :: between)) data.tstamp
            data.packet).metadata.tstampHigh32Outdated ≠ 0 ↔ cacheTimeout.toNat < t₁ - t₀) ↔
        AgeAgrees t₀ t₁) ∧
      (data.tab data.packet.key = none → ctx.packet.key.1 = data.packet.key.1 →
        (((ingressPass sw data.tab (afterInputs sw (before ++ ctx :: between)) data.tstamp
              data.packet).enforced.isSome = true ↔ t₁ - t₀ ≤ cacheTimeout.toNat) ↔
          AgeAgrees t₀ t₁)) := by
  have hnone : data.packet.contextOf = none := by
    simpa [Packet.isContext] using hvisit.later
  have hentry := hvisit.entry before
  have hstamp : ((afterInputs sw (before ++ ctx :: between)).entry
      (sw.slot data.packet.key)).tstamp = (tickStamp t₀).setWidth 32 := by
    rw [hentry, ← hctx]
    rfl
  have hage := isFresh_tickStamp hstamp t₁
  rw [← hdata] at hage
  refine ⟨?_, ?_⟩
  · rw [outdated_ingressPass_data sw data.tab _ data.tstamp hnone, hage]
    rfl
  · intro hmiss haddr
    have hpass := ingressPass_data sw data.tab (afterInputs sw (before ++ ctx :: between))
      data.tstamp hnone
    have hown : ((afterInputs sw (before ++ ctx :: between)).entry
        (sw.slot data.packet.key)).srcIp = data.packet.key.1 := by
      rw [hentry]
      exact haddr
    have henforced : (ingressPass sw data.tab (afterInputs sw (before ++ ctx :: between))
        data.tstamp data.packet).enforced.isSome = true ↔ ¬ t₁ % 65536 < t₀ % 65536 := by
      rw [hpass.miss hmiss, ← hage]
      simp only [hown, true_and]
      cases isFresh ((afterInputs sw (before ++ ctx :: between)).entry
        (sw.slot data.packet.key)) data.tstamp <;> simp
    rw [henforced, ← Nat.not_lt, not_iff_not]
    rfl

/-- The context packet of the client at a tick. -/
def contextAt (t : Nat) : PassInput :=
  { packet := tcpClient.contextPacket 0 (fun _ => 0), tstamp := tickStamp t, tab := emptyConnTab }

/-- A data packet of the client's neighbour, which has the same address, at a tick. -/
def dataAt (t : Nat) : PassInput :=
  { packet := neighbour.dataPacket 0 (fun _ => 0), tstamp := tickStamp t, tab := emptyConnTab }

/-- The pass of the data packet when the context packet came at the given tick. -/
def visitAfter (t₀ t₁ : Nat) : PassState :=
  ingressPass plainSwitch (dataAt t₁).tab (afterInputs plainSwitch [contextAt t₀])
    (dataAt t₁).tstamp (dataAt t₁).packet

/-- The theorem on a data packet ten ticks after the context packet. -/
theorem cacheExpiry_ten_ticks :
    (visitAfter 10 20).metadata.tstampHigh32Outdated ≠ 0 ↔ cacheTimeout.toNat < 20 - 10 := by
  have hvisit : CacheVisit plainSwitch (contextAt 10) [] (dataAt 20) :=
    ⟨by decide, by decide, by decide +kernel, by simp⟩
  have hagrees : AgeAgrees 10 20 := by
    rw [AgeAgrees]
    decide
  have hexpiry :=
    cacheExpiry_iff plainSwitch [] [] (contextAt 10) (dataAt 20) 10 20 hvisit rfl rfl
  rw [List.nil_append] at hexpiry
  rw [visitAfter]
  exact hexpiry.1.mpr hagrees

/--
One tick after the context packet an entry is refused because the low bits have
wrapped around, and 200000 ticks after it an entry is still enforced.
-/
theorem cacheExpiry_wraps :
    (visitAfter 65535 65536).metadata.tstampHigh32Outdated ≠ 0 ∧
      (visitAfter 65535 65536).enforced = none ∧ 65536 - 65535 ≤ cacheTimeout.toNat ∧
      (visitAfter 0 200000).metadata.tstampHigh32Outdated = 0 ∧
      (visitAfter 0 200000).enforced = some (.cacheDec 0) ∧ cacheTimeout.toNat < 200000 - 0 := by
  decide +kernel

end CacheExpiry

end Poise
