import Poise.OptionInsertion
import Poise.Foundations.WireFormat

/-!
# Poise client: cutting a buffer into datagrams

`mon_sk_tx` cuts a buffer into parts of at most 1400 bytes and builds one UDP
datagram for each.  The memory that `alloc_skb` gives is not cleared, so its
contents are parameters, as is the room that the device needs for its link header.

The datagrams are built byte by byte.  One lemma says what a datagram contains, one
says this of all datagrams of a run; the results only look at the length fields and
at the bytes behind the headers.
-/

namespace Poise

open Foundations

section DatagramBuilding

def maxPktSize : Nat := 1400

/-- The sizes of `struct iphdr` and `struct udphdr`. -/
def ipHeaderSize : Nat := 20

def udpHeaderSize : Nat := 8

/-- The arguments of the call, and what the macro `LL_RESERVED_SPACE` gives for the device. -/
structure TxParams where
  order : ByteOrder
  reserved : Nat
  sport : BitVec 16
  sip : BitVec 32
  dport : BitVec 16
  dip : BitVec 32

/-- A buffer under construction: its data, and the room behind them. -/
structure TxSkb where
  data : Bytes
  room : Bytes

/-- `alloc_skb` and `skb_reserve`. -/
def allocReserved (mem : Int → BitVec 8) (lSkb reserved : Nat) : TxSkb where
  data := []
  room := (readFrom mem 0 lSkb).drop reserved

/-- Extend the data; without enough room the kernel panics. -/
def TxSkb.put (skb : TxSkb) (n : Nat) : Option TxSkb :=
  if n ≤ skb.room.length then
    some { data := skb.data ++ skb.room.take n, room := skb.room.drop n }
  else
    none

/-- The assignments to the fields of the IP header; there is none to the checksum. -/
def storeIpHeader (p : TxParams) (lIp : Nat) (d : Bytes) : Bytes :=
  let d := overwrite d 0
    ([0x45, 0x00] ++ be16Bytes lIp ++ be16Bytes 0x8888 ++ be16Bytes 0 ++ [0x40, 0x11])
  overwrite d 12 (wordBytes p.order 4 p.sip.toNat ++ wordBytes p.order 4 p.dip.toNat)

/-- The assignments to the fields of the UDP header. -/
def storeUdpHeader (p : TxParams) (pktSize : Nat) (d : Bytes) : Bytes :=
  overwrite d ipHeaderSize
    (wordBytes p.order 2 p.sport.toNat ++ wordBytes p.order 2 p.dport.toNat ++
      be16Bytes pktSize ++ be16Bytes 0)

/-- One pass of the loop: the datagram for the next part, from the memory of its buffer. -/
def buildDatagram
    (p : TxParams) (buf : Option (Int → BitVec 8)) (mem : Int → BitVec 8) (pktSize : Nat) :
    Option Bytes := do
  let lSkb := pktSize + p.reserved + ipHeaderSize + udpHeaderSize
  let lIp := pktSize + ipHeaderSize + udpHeaderSize
  let skb ← (allocReserved mem lSkb p.reserved).put ipHeaderSize
  let skb ← skb.put udpHeaderSize
  let headers := storeUdpHeader p pktSize (storeIpHeader p lIp skb.data)
  let skb ← { skb with data := headers }.put pktSize
  match buf with
  | none => some skb.data
  | some buf => some (overwrite skb.data headers.length (readFrom buf 0 pktSize))

/-- The loop, from the allocation with a number on; it is left when an allocation fails. -/
def monSkTxLoop
    (p : TxParams) (buf : Option (Int → BitVec 8)) (alloc : Nat → Option (Int → BitVec 8))
    (k leftSize : Nat) : Option (List Bytes) :=
  if _h : 0 < leftSize then
    let pktSize := if leftSize > maxPktSize then maxPktSize else leftSize
    match alloc k with
    | none => some []
    | some mem =>
        (buildDatagram p buf mem pktSize).bind fun d =>
          (monSkTxLoop p buf alloc (k + 1) (leftSize - pktSize)).map fun ds => d :: ds
  else
    some []
termination_by leftSize
decreasing_by
  rw [maxPktSize]
  split <;> omega

def monSkTx
    (p : TxParams) (buf : Option (Int → BitVec 8)) (size : Int)
    (alloc : Nat → Option (Int → BitVec 8)) : Option (List Bytes) :=
  monSkTxLoop p buf alloc 0 size.toNat

/-- The length field of the UDP header. -/
def udpLen (d : Bytes) : Nat :=
  be16 d (4 * ipIhl d + 4)

/-- The payload as the length field of the UDP header delimits it, which counts its header. -/
def udpPayload (d : Bytes) : Bytes :=
  slice d (4 * ipIhl d + udpHeaderSize) (udpLen d - udpHeaderSize)

/-- All bytes behind the UDP header, as the length field of the IP header delimits them. -/
def ipPayload (d : Bytes) : Bytes :=
  slice d (4 * ipIhl d + udpHeaderSize) (ipTotLen d - (4 * ipIhl d + udpHeaderSize))

/-- The buffer is cut without loss. -/
structure FragmentsExactly
    (buf : Int → BitVec 8) (size : Int) (datagrams : List Bytes) : Prop where
  delimited : ∀ d, d ∈ datagrams →
    udpHeaderSize ≤ udpLen d ∧ 4 * ipIhl d + udpLen d ≤ ipTotLen d ∧ ipTotLen d ≤ d.length
  bounded : ∀ d, d ∈ datagrams → (udpPayload d).length ≤ maxPktSize
  whole : datagrams.flatMap udpPayload = readFrom buf 0 size.toNat

/-- What a datagram for a part of a size contains. -/
structure BuiltFor (buf : Int → BitVec 8) (d : Bytes) (pktSize : Nat) : Prop where
  length : d.length = pktSize + 28
  ihl : ipIhl d = 5
  totLen : ipTotLen d = pktSize + 28
  udpLen : udpLen d = pktSize
  payload : d.drop 28 = readFrom buf 0 pktSize

section OneDatagram

theorem TxSkb.put_of_le
    {skb : TxSkb} {n : Nat}
    (h : n ≤ skb.room.length) :
    skb.put n = some { data := skb.data ++ skb.room.take n, room := skb.room.drop n } :=
  if_pos h

theorem length_headers
    (p : TxParams)
    (pktSize lIp : Nat)
    (d : Bytes) :
    (storeUdpHeader p pktSize (storeIpHeader p lIp d)).length = d.length := by
  rw [storeUdpHeader, length_overwrite, storeIpHeader, length_overwrite, length_overwrite]

/-- The fields of the two headers that are read below. -/
theorem headers_fields
    (p : TxParams)
    {pktSize lIp : Nat}
    (hpkt : pktSize < 65536)
    (hip : lIp < 65536)
    {d : Bytes}
    (hd : d.length = 28) :
    byteAt (storeUdpHeader p pktSize (storeIpHeader p lIp d)) 0 = 0x45 ∧
      be16 (storeUdpHeader p pktSize (storeIpHeader p lIp d)) 2 = lIp ∧
      be16 (storeUdpHeader p pktSize (storeIpHeader p lIp d)) 24 = pktSize := by
  have hsize : ipHeaderSize = 20 := rfl
  have hports : (wordBytes p.order 2 p.sport.toNat ++ wordBytes p.order 2 p.dport.toNat).length =
      4 := by
    rw [List.length_append, length_wordBytes, length_wordBytes]
  have hstoredLength : (storeIpHeader p lIp d).length = 28 := by
    rw [storeIpHeader, length_overwrite, length_overwrite, hd]
  rw [storeIpHeader] at hstoredLength
  rw [storeUdpHeader, storeIpHeader]
  refine ⟨?_, ?_, ?_⟩
  · rw [byteAt_overwrite_of_outside (Or.inl (by omega)),
      byteAt_overwrite_of_outside (Or.inl (by omega))]
    exact byteAt_overwrite_cons (by omega)
  · have hstored := be16_overwrite_inside [0x45, 0x00]
      (be16Bytes 0x8888 ++ (be16Bytes 0 ++ [0x40, 0x11])) lIp
      (show 0 + 2 + 2 ≤ d.length by omega)
    rw [be16_overwrite_of_outside (Or.inl (by omega)),
      be16_overwrite_of_outside (Or.inl (by omega)), List.append_assoc, List.append_assoc]
    exact hstored.trans (Nat.mod_eq_of_lt hip)
  · generalize overwrite (overwrite d 0 _) 12 _ = stored at hstoredLength ⊢
    have hstored := be16_overwrite_inside
      (wordBytes p.order 2 p.sport.toNat ++ wordBytes p.order 2 p.dport.toNat) (be16Bytes 0)
      pktSize (show ipHeaderSize + _ + 2 ≤ stored.length by omega)
    rw [hports] at hstored
    exact hstored.trans (Nat.mod_eq_of_lt hpkt)

/-- Two such headers, and the start of the buffer behind them. -/
theorem builtFor_append
    (buf : Int → BitVec 8)
    {headers : Bytes} {pktSize : Nat}
    (hlength : headers.length = 28)
    (hfirst : byteAt headers 0 = 0x45)
    (htotLen : be16 headers 2 = pktSize + 28)
    (hudpLen : be16 headers 24 = pktSize) :
    BuiltFor buf (headers ++ readFrom buf 0 pktSize) pktSize := by
  have hihl : ipIhl (headers ++ readFrom buf 0 pktSize) = 5 := by
    rw [ipIhl, byteAt_append_left _ (by omega), hfirst]
  constructor
  case length =>
    rw [List.length_append, length_readFrom]
    omega
  case ihl =>
    exact hihl
  case totLen =>
    rw [ipTotLen, be16_append_left _ (by omega)]
    exact htotLen
  case udpLen =>
    rw [udpLen, hihl, be16_append_left _ (by omega)]
    exact hudpLen
  case payload =>
    exact List.drop_left' hlength

/-- A datagram is built for every part, and the payload is copied from the start of the buffer. -/
theorem buildDatagram_spec
    (p : TxParams)
    (buf mem : Int → BitVec 8)
    {pktSize : Nat}
    (hpkt : pktSize ≤ maxPktSize) :
    ∃ d, buildDatagram p (some buf) mem pktSize = some d ∧ BuiltFor buf d pktSize := by
  have hmax : maxPktSize = 1400 := rfl
  have hip : ipHeaderSize = 20 := rfl
  have hudp : udpHeaderSize = 8 := rfl
  have hroom : (allocReserved mem (pktSize + p.reserved + ipHeaderSize + udpHeaderSize)
      p.reserved).room.length = pktSize + 28 := by
    rw [allocReserved, List.length_drop, length_readFrom]
    omega
  generalize hfresh : allocReserved mem (pktSize + p.reserved + ipHeaderSize + udpHeaderSize)
    p.reserved = fresh at hroom
  have hempty : fresh.data = [] := by
    rw [← hfresh, allocReserved]
  -- The data in front of the payload, the headers stored there, and the room behind them.
  have hfront : (fresh.room.take 20 ++ (fresh.room.drop 20).take 8).length = 28 := by
    rw [List.length_append, List.length_take, List.length_take, List.length_drop]
    omega
  have hheaders := length_headers p pktSize (pktSize + ipHeaderSize + udpHeaderSize)
    (fresh.room.take 20 ++ (fresh.room.drop 20).take 8)
  obtain ⟨hfirst, htotLen, hudpLen⟩ := headers_fields p (show pktSize < 65536 by omega)
    (show pktSize + ipHeaderSize + udpHeaderSize < 65536 by omega) hfront
  have hrest : ((fresh.room.drop 20).drop 8).length = pktSize := by
    rw [List.length_drop, List.length_drop]
    omega
  have hfirstPut : fresh.put ipHeaderSize =
      some { data := fresh.room.take 20, room := fresh.room.drop 20 } := by
    rw [TxSkb.put_of_le (by omega), hempty]
    rfl
  have hsecondPut : (TxSkb.mk (fresh.room.take 20) (fresh.room.drop 20)).put udpHeaderSize =
      some { data := fresh.room.take 20 ++ (fresh.room.drop 20).take 8
             room := (fresh.room.drop 20).drop 8 } :=
    TxSkb.put_of_le (by rw [List.length_drop]; omega)
  rw [buildDatagram, hfresh, hfirstPut, Option.bind_eq_bind, Option.bind_some, hsecondPut,
    Option.bind_some]
  dsimp only
  generalize storeUdpHeader p pktSize (storeIpHeader p (pktSize + ipHeaderSize + udpHeaderSize)
    (fresh.room.take 20 ++ (fresh.room.drop 20).take 8)) = headers at *
  generalize (fresh.room.drop 20).drop 8 = rest at *
  rw [TxSkb.put_of_le (show pktSize ≤ (TxSkb.mk headers rest).room.length from hrest.ge),
    Option.bind_some]
  dsimp only
  have hcopied : overwrite (headers ++ rest.take pktSize) headers.length (readFrom buf 0 pktSize) =
      headers ++ readFrom buf 0 pktSize := by
    rw [overwrite_append_right (Nat.le_refl _), Nat.sub_self, List.take_of_length_le hrest.le,
      overwrite_zero (by rw [length_readFrom]; omega), length_readFrom, ← hrest, List.drop_length,
      List.append_nil]
  rw [hcopied]
  exact ⟨_, rfl, builtFor_append buf (hheaders.trans hfront) hfirst (by omega) hudpLen⟩

end OneDatagram

section Runs

variable {buf : Int → BitVec 8}

/-- The sizes of the parts. -/
def partSizes (leftSize : Nat) : List Nat :=
  List.replicate (leftSize / maxPktSize) maxPktSize ++
    if leftSize % maxPktSize = 0 then [] else [leftSize % maxPktSize]

theorem partSizes_zero :
    partSizes 0 = [] :=
  rfl

/-- The last part is the rest; every other part is as long as possible. -/
theorem partSizes_of_pos
    {leftSize : Nat}
    (h : 0 < leftSize) :
    partSizes leftSize =
      min leftSize maxPktSize :: partSizes (leftSize - min leftSize maxPktSize) := by
  have hmax : maxPktSize = 1400 := rfl
  rw [partSizes, partSizes]
  rcases Nat.lt_or_ge leftSize maxPktSize with hlast | hmore
  · have hnone : leftSize / maxPktSize = 0 := Nat.div_eq_of_lt hlast
    have hrest : leftSize % maxPktSize = leftSize := Nat.mod_eq_of_lt hlast
    rw [Nat.min_eq_left hlast.le, hnone, hrest, if_neg (by omega), Nat.sub_self]
    rfl
  · have hdiv := Nat.div_eq_sub_div (by omega) hmore
    have hmod := Nat.mod_eq_sub_mod hmore
    rw [Nat.min_eq_right hmore, hdiv, hmod, List.replicate_succ, List.cons_append]

/-- With all allocations succeeding there is a datagram for every part. -/
theorem monSkTxLoop_spec
    (p : TxParams)
    (buf : Int → BitVec 8)
    (fresh : Nat → Int → BitVec 8)
    (k leftSize : Nat) :
    ∃ ds, monSkTxLoop p (some buf) (fun k => some (fresh k)) k leftSize = some ds ∧
      List.Forall₂ (BuiltFor buf) ds (partSizes leftSize) := by
  have hmax : maxPktSize = 1400 := rfl
  induction leftSize using Nat.strong_induction_on generalizing k with
  | h leftSize ih =>
      rw [monSkTxLoop]
      by_cases hleft : 0 < leftSize
      · have hpkt : (if leftSize > maxPktSize then maxPktSize else leftSize) =
            min leftSize maxPktSize := by
          split <;> omega
        obtain ⟨d, hd, hbuilt⟩ := buildDatagram_spec p buf (fresh k) (Nat.min_le_right leftSize _)
        obtain ⟨ds, hds, hall⟩ := ih (leftSize - min leftSize maxPktSize) (by omega) (k + 1)
        refine ⟨d :: ds, ?_, ?_⟩
        · rw [dif_pos hleft, hpkt]
          dsimp only
          rw [hd, Option.bind_some, hds, Option.map_some]
        · rw [partSizes_of_pos hleft]
          exact List.Forall₂.cons hbuilt hall
      · obtain rfl : leftSize = 0 := by
          omega
        refine ⟨[], dif_neg hleft, ?_⟩
        rw [partSizes_zero]
        exact List.Forall₂.nil

theorem BuiltFor.ipPayload_eq
    {d : Bytes} {pktSize : Nat}
    (h : BuiltFor buf d pktSize) :
    ipPayload d = readFrom buf 0 pktSize := by
  have hsize : 4 * 5 + udpHeaderSize = 28 := rfl
  rw [ipPayload, h.ihl, h.totLen, hsize, Nat.add_sub_cancel, slice, h.payload,
    List.take_of_length_le (by rw [length_readFrom])]

/-- The length field does not count its header, so eight bytes less are delimited. -/
theorem BuiltFor.length_udpPayload
    {d : Bytes} {pktSize : Nat}
    (h : BuiltFor buf d pktSize) :
    (udpPayload d).length = pktSize - 8 := by
  have hsize : 4 * 5 + udpHeaderSize = 28 := rfl
  have hudp : udpHeaderSize = 8 := rfl
  rw [udpPayload, h.ihl, h.udpLen, hsize, hudp, slice, h.payload, List.length_take,
    length_readFrom]
  omega

/-- What is delimited by the UDP lengths is too short as soon as there is a datagram. -/
theorem length_udpPayloads_lt
    {ds : List Bytes} {leftSize : Nat}
    (h : List.Forall₂ (BuiltFor buf) ds (partSizes leftSize))
    (hleft : 0 < leftSize) :
    (ds.flatMap udpPayload).length < leftSize := by
  have hmax : maxPktSize = 1400 := rfl
  induction leftSize using Nat.strong_induction_on generalizing ds with
  | h leftSize ih =>
      rw [partSizes_of_pos hleft] at h
      cases h with
      | cons hbuilt hall =>
          rw [List.flatMap_cons, List.length_append, hbuilt.length_udpPayload]
          by_cases hmore : 0 < leftSize - min leftSize maxPktSize
          · have hrest := ih _ (by omega) hall hmore
            omega
          · obtain hnone : leftSize - min leftSize maxPktSize = 0 := by
              omega
            rw [hnone, partSizes_zero] at hall
            cases hall
            rw [List.flatMap_nil, List.length_nil]
            omega

/-- The datagrams repeat the first bytes of the buffer. -/
theorem flatMap_ipPayload
    {ds : List Bytes} {leftSize : Nat}
    (h : List.Forall₂ (BuiltFor buf) ds (partSizes leftSize)) :
    ds.flatMap ipPayload = (List.range leftSize).map fun i : Nat => buf (i % maxPktSize : Nat) := by
  have hmax : maxPktSize = 1400 := rfl
  induction leftSize using Nat.strong_induction_on generalizing ds with
  | h leftSize ih =>
      by_cases hleft : 0 < leftSize
      · rw [partSizes_of_pos hleft] at h
        cases h with
        | cons hbuilt hall =>
            have hrange : List.range leftSize = List.range (min leftSize maxPktSize) ++
                (List.range (leftSize - min leftSize maxPktSize)).map
                  (min leftSize maxPktSize + ·) := by
              rw [← List.range_add, Nat.add_sub_cancel' (Nat.min_le_left _ _)]
            rw [List.flatMap_cons, hbuilt.ipPayload_eq, ih _ (by omega) hall, hrange,
              List.map_append, List.map_map, readFrom]
            congr 1
            · refine List.map_congr_left fun i hi => ?_
              have hlt := List.mem_range.mp hi
              rw [Nat.mod_eq_of_lt (by omega), Int.zero_add]
            · refine List.map_congr_left fun i hi => ?_
              have hlt := List.mem_range.mp hi
              have hfull : min leftSize maxPktSize = maxPktSize := by
                omega
              rw [Function.comp_apply, hfull, Nat.add_mod_left]
      · obtain rfl : leftSize = 0 := by
          omega
        rw [partSizes_zero] at h
        cases h
        rfl

end Runs

/--
For every device, every buffer and every size, with all allocations succeeding and
whatever they give: the payloads that the UDP lengths delimit are the buffer if and
only if there is nothing to send.  Even with all bytes behind the UDP headers for the
payloads, they are the buffer only if it repeats its first 1400 bytes.
-/
theorem monSkTx_exact_iff
    (p : TxParams)
    (buf : Int → BitVec 8)
    (size : Int)
    (fresh : Nat → Int → BitVec 8) :
    ∃ ds, monSkTx p (some buf) size (fun k => some (fresh k)) = some ds ∧
      (FragmentsExactly buf size ds ↔ size ≤ 0) ∧
      (ds.flatMap ipPayload = readFrom buf 0 size.toNat ↔
        ∀ i : Nat, i < size.toNat → buf i = buf (i % maxPktSize : Nat)) := by
  obtain ⟨ds, hrun, hbuilt⟩ := monSkTxLoop_spec p buf fresh 0 size.toNat
  refine ⟨ds, hrun, ?_, ?_⟩
  · constructor
    · intro h
      by_contra hsize
      have hshort := length_udpPayloads_lt hbuilt (by omega)
      rw [h.whole, length_readFrom] at hshort
      omega
    · intro hsize
      have hzero : size.toNat = 0 := by
        omega
      rw [hzero, partSizes_zero] at hbuilt
      cases hbuilt
      constructor
      case delimited =>
        intro d hd
        cases hd
      case bounded =>
        intro d hd
        cases hd
      case whole =>
        rw [hzero]
        rfl
  · rw [flatMap_ipPayload hbuilt, readFrom, List.map_inj_left]
    simp only [List.mem_range, Int.zero_add]
    exact forall₂_congr fun i _ => eq_comm

section Losses

/-- Some memory, addresses and ports. -/
def plainTx : TxParams :=
  { order := .little, reserved := 16, sport := 0, sip := 0, dport := 0, dip := 0 }

/-- A buffer of 1401 bytes that ends with a byte of its own. -/
def lastByteSet : Int → BitVec 8 :=
  fun i => if i = 1400 then 1 else 0

theorem readFrom_lastByteSet
    {n : Nat}
    (h : n ≤ 1400) :
    readFrom lastByteSet 0 n = List.replicate n 0 := by
  rw [List.eq_replicate_iff, length_readFrom]
  refine ⟨rfl, fun x hx => ?_⟩
  obtain ⟨i, hi, rfl⟩ := List.mem_map.mp hx
  have hlt := List.mem_range.mp hi
  exact if_neg (by omega)

/--
Of the 100 bytes of a single datagram its UDP length delimits 92.  Of a buffer of
1401 bytes the second datagram has the first byte instead of the last.
-/
theorem monSkTx_loses_bytes :
    (∃ ds, monSkTx plainTx (some lastByteSet) 100 (fun _ => some (fun _ => 0)) = some ds ∧
      (ds.flatMap udpPayload).length = 92 ∧ ¬ FragmentsExactly lastByteSet 100 ds) ∧
    ∃ ds, monSkTx plainTx (some lastByteSet) 1401 (fun _ => some (fun _ => 0)) = some ds ∧
      ds.map ipPayload = [List.replicate 1400 0, [0]] ∧
      ¬ FragmentsExactly lastByteSet 1401 ds := by
  constructor
  · obtain ⟨ds, hrun, hbuilt⟩ := monSkTxLoop_spec plainTx lastByteSet (fun _ _ => 0) 0 100
    have hsizes : partSizes 100 = [100] := rfl
    rw [hsizes] at hbuilt
    cases hbuilt with
    | cons hfirst hnone =>
        cases hnone
        have hlength := hfirst.length_udpPayload
        rw [← List.flatMap_singleton udpPayload] at hlength
        refine ⟨_, hrun, hlength, fun h => ?_⟩
        rw [h.whole, length_readFrom] at hlength
        cases hlength
  · obtain ⟨ds, hrun, hbuilt⟩ := monSkTxLoop_spec plainTx lastByteSet (fun _ _ => 0) 0 1401
    have hshort := length_udpPayloads_lt hbuilt (Nat.succ_pos 1400)
    have hsizes : partSizes 1401 = [1400, 1] := rfl
    rw [hsizes] at hbuilt
    cases hbuilt with
    | cons hfirst hrest =>
        cases hrest with
        | cons hsecond hnone =>
            cases hnone
            refine ⟨_, hrun, ?_, fun h => ?_⟩
            · rw [List.map_cons, List.map_singleton, hfirst.ipPayload_eq, hsecond.ipPayload_eq,
                readFrom_lastByteSet (Nat.le_refl 1400),
                readFrom_lastByteSet (show 1 ≤ 1400 by omega)]
              rfl
            · rw [h.whole, length_readFrom] at hshort
              exact Nat.lt_irrefl 1401 hshort

end Losses

end DatagramBuilding

end Poise
