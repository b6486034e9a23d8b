import Mathlib.Tactic
import Poise.PassSpecification
import Poise.Foundations.CyclicRedundancy

/-!
# Poise data plane: the hash function of the cache

The cache index of a packet is a cyclic redundancy code of 16 bits over port,
address and protocol, in this order.  The source names the code `crc_16`; what is
proved here holds for every code of this width.

A port has as many bits as the code and a protocol has fewer.  So when two of the
three fields are given, the index determines a port as well as a protocol.
-/

namespace Poise

open Foundations

section CacheHash

/-- The field list `tup_3_fields` as a message. -/
def tup3Fields (port : BitVec 16) (addr : BitVec 32) (proto : BitVec 8) : List Bool :=
  highFirst port ++ highFirst addr ++ highFirst proto

/-- The calculation `cache_hash_calc` with a given code. -/
def crcCacheHash
    (crc : Crc 16) (port : BitVec 16) (addr : BitVec 32) (proto : BitVec 8) : BitVec 16 :=
  crc.compute (tup3Fields port addr proto)

/-- A switch whose cache is indexed with a given code. -/
def Switch.withCrc (sw : Switch) (crc : Crc 16) : Switch :=
  { sw with cacheHash := crcCacheHash crc }

/-- For one address and one protocol, different ports have different indices. -/
theorem crcCacheHash_port_injective
    (crc : Crc 16)
    (addr : BitVec 32)
    (proto : BitVec 8) :
    Function.Injective (fun port => crcCacheHash crc port addr proto) := by
  intro p₁ p₂ h
  have hnil : 8 ∣ ([] : List Bool).length := Nat.dvd_zero 8
  simp only [crcCacheHash, tup3Fields, List.append_assoc] at h
  have hport : highFirst p₁ = highFirst p₂ := by
    refine crc.compute_burst hnil ?_ ?_ ?_ h
    · rw [length_highFirst]
      decide
    · rw [length_highFirst, length_highFirst]
    · rw [length_highFirst]
  exact highFirst_injective hport

/-- For one address and one port, different protocols have different indices. -/
theorem crcCacheHash_protocol_injective
    (crc : Crc 16)
    (port : BitVec 16)
    (addr : BitVec 32) :
    Function.Injective (fun proto => crcCacheHash crc port addr proto) := by
  intro q₁ q₂ h
  have hbytes : 8 ∣ (highFirst port ++ highFirst addr).length := by
    rw [List.length_append, length_highFirst, length_highFirst]
    decide
  simp only [crcCacheHash, tup3Fields] at h
  rw [← List.append_nil (highFirst q₁), ← List.append_nil (highFirst q₂),
    ← List.append_assoc, ← List.append_assoc] at h
  have hproto : highFirst q₁ = highFirst q₂ := by
    refine crc.compute_burst hbytes ?_ ?_ ?_ h
    · rw [length_highFirst]
    · rw [length_highFirst, length_highFirst]
    · rw [length_highFirst]
      decide
  exact highFirst_injective hproto

/-- A key is determined by its index, its address and its protocol. -/
theorem key_eq_of_slot_eq
    {sw : Switch} {crc : Crc 16}
    {k₁ k₂ : ConnKey}
    (haddr : k₁.1 = k₂.1)
    (hproto : k₁.2.2 = k₂.2.2)
    (hslot : (sw.withCrc crc).slot k₁ = (sw.withCrc crc).slot k₂) :
    k₁ = k₂ := by
  obtain ⟨a, p₁, q⟩ := k₁
  obtain ⟨a', p₂, q'⟩ := k₂
  simp only at haddr hproto
  subst haddr hproto
  have hport : p₁ = p₂ := crcCacheHash_port_injective crc a q hslot
  rw [hport]

end CacheHash

end Poise
