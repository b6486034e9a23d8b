import Poise.OptionInsertion
import Poise.Foundations.InternetChecksum
import Poise.Foundations.WireFormat

/-!
# Poise client: the checksum of a segment

`tcpudp_csum` writes a pseudo-header and a segment into a local buffer and sums the
buffer with `csum`.  The machine is a little-endian one with 8-byte `unsigned long`:
the addresses of `struct psd_header` take eight bytes each, and the structure is
padded to 24 bytes.

The words are read in the byte order of the machine.  The library compares their sum
with the sum in network order; what is left here is the folding loop and the contents
of the buffer.
-/

namespace Poise

open Foundations

section SegmentChecksum

/-- The first loop of `csum`, which adds words, and the byte that is left over behind it. -/
def csumAdd (addr : Bytes) (sum : Nat) : Nat → Nat
  | 0 => sum
  | 1 => sum + byteAt addr 0
  | count + 2 => csumAdd (addr.drop 2) (sum + littleValue (addr.take 2)) count

theorem fold_lt
    {sum : Nat}
    (h : sum >>> 16 ≠ 0) :
    (sum &&& 0xffff) + (sum >>> 16) < sum := by
  have hlow : sum &&& 0xffff = sum % 65536 := Nat.and_two_pow_sub_one_eq_mod sum 16
  have hhigh : sum >>> 16 = sum / 65536 := Nat.shiftRight_eq_div_pow sum 16
  rw [hhigh] at h
  rw [hlow, hhigh]
  omega

/-- The folding loop of `csum`. -/
def csumFold (sum : Nat) : Nat :=
  if _h : sum >>> 16 ≠ 0 then
    csumFold ((sum &&& 0xffff) + (sum >>> 16))
  else
    sum
termination_by sum
decreasing_by exact fold_lt _h

/-- The sum is a `long`, which no number of bytes that fits an `int` can overflow. -/
def csum (addr : Bytes) (count : Nat) : BitVec 16 :=
  ~~~ BitVec.ofNat 16 (csumFold (csumAdd addr 0 count))

def psdHeaderSize : Nat := 24

def csumBufSize : Nat := 1600

/-- The contents of the buffer are not initialised.  There is no result when the segment does not
fit into the buffer, or when it is shorter than its length says. -/
def tcpudpCsum
    (buf : Buffer (BitVec 8) csumBufSize) (saddr daddr : BitVec 32) (pktData : Bytes)
    (len : BitVec 16) (proto : BitVec 8) : Option (BitVec 16) :=
  let count := psdHeaderSize + len.toNat
  if count ≤ csumBufSize ∧ len.toNat ≤ pktData.length then
    let buf := buf.store 0 (List.replicate count 0)
    let buf := buf.store 0 (wordBytes .little 8 saddr.toNat)
    let buf := buf.store 8 (wordBytes .little 8 daddr.toNat)
    let buf := buf.store 16 [0]
    let buf := buf.store 17 [proto]
    let buf := buf.store 18 (be16Bytes len.toNat)
    let buf := buf.store psdHeaderSize (pktData.take len.toNat)
    some (csum buf.elems count)
  else
    none

/-- The pseudo-header of the standard; the addresses are in network order in memory. -/
def segmentPseudoHeader (saddr daddr : BitVec 32) (proto : BitVec 8) (len : Nat) : Bytes :=
  wordBytes .little 4 saddr.toNat ++ wordBytes .little 4 daddr.toNat ++ [0, proto] ++ be16Bytes len

/-- The pseudo-header with the padding that the compiler adds. -/
def paddedPseudoHeader (saddr daddr : BitVec 32) (proto : BitVec 8) (len : Nat) : Bytes :=
  wordBytes .little 8 saddr.toNat ++ (wordBytes .little 8 daddr.toNat ++
    ([0] ++ ([proto] ++ be16Bytes len)))

theorem csumAdd_eq
    {addr : Bytes} {count : Nat}
    (h : count ≤ addr.length)
    (sum : Nat) :
    csumAdd addr sum count = sum + littleSum (addr.take count) := by
  induction count using Nat.twoStepInduction generalizing addr sum with
  | zero =>
      rfl
  | one =>
      obtain ⟨x, rest, rfl⟩ : ∃ x rest, addr = x :: rest := List.exists_cons_of_length_pos h
      rfl
  | more count ih _ =>
      match addr, h with
      | x :: y :: rest, h =>
          have hrest : count ≤ rest.length := by
            simpa using h
          have hword : littleValue ((x :: y :: rest).take 2) = x.toNat + 256 * y.toNat := rfl
          have htake : (x :: y :: rest).take (count + 2) = x :: y :: rest.take count := rfl
          rw [csumAdd, List.drop_succ_cons, List.drop_succ_cons, List.drop_zero, ih hrest, hword,
            htake, littleSum]
          omega

/-- The loop ends with a word that has the sum up to carries. -/
theorem csumFold_spec
    (sum : Nat) :
    csumFold sum < 65536 ∧ csumFold sum % 65535 = sum % 65535 ∧
      (csumFold sum = 0 ↔ sum = 0) := by
  have hlow : sum &&& 0xffff = sum % 65536 := Nat.and_two_pow_sub_one_eq_mod sum 16
  have hhigh : sum >>> 16 = sum / 65536 := Nat.shiftRight_eq_div_pow sum 16
  induction sum using csumFold.induct with
  | case1 sum h ih =>
      rw [csumFold, dif_pos h]
      obtain ⟨hlt, hmod, hzero⟩ := ih (Nat.and_two_pow_sub_one_eq_mod _ 16)
        (Nat.shiftRight_eq_div_pow _ 16)
      rw [hlow, hhigh] at hlt hmod hzero
      rw [hhigh] at h
      rw [hlow, hhigh]
      omega
  | case2 sum h =>
      rw [csumFold, dif_neg h]
      rw [hhigh] at h
      omega

/-- In the byte order of the machine, the result is the checksum with its bytes swapped. -/
theorem toNat_csum
    (addr : Bytes)
    (count : Nat)
    (h : count ≤ addr.length) :
    (csum addr count).toNat = swapBytes (checksum (addr.take count)) := by
  obtain ⟨hlt, hmod, hzero⟩ := csumFold_spec (littleSum (addr.take count))
  have hfold := eq_swapBytes_onesSum hlt hmod hzero
  rw [csum, BitVec.toNat_not, BitVec.toNat_ofNat, csumAdd_eq h, Nat.zero_add,
    Nat.mod_eq_of_lt hlt, hfold, checksum]
  exact swapBytes_complement (onesSum_lt _)

/-- Stored in the byte order of the machine, a swapped word stands in network order. -/
theorem wordBytes_swapBytes
    {v : Nat}
    (h : v < 65536) :
    wordBytes .little 2 (swapBytes v) = be16Bytes v := by
  have hlow : BitVec.ofNat 8 (swapBytes v) = BitVec.ofNat 8 (v / 256) :=
    BitVec.eq_of_toNat_eq (by rw [BitVec.toNat_ofNat, BitVec.toNat_ofNat, swapBytes]; omega)
  have hdiv : swapBytes v / 256 = v % 256 := by
    rw [swapBytes]
    omega
  have hhigh : BitVec.ofNat 8 (swapBytes v / 256) = BitVec.ofNat 8 v :=
    BitVec.eq_of_toNat_eq (by rw [BitVec.toNat_ofNat, BitVec.toNat_ofNat, hdiv]; omega)
  have hbytes : wordBytes .little 2 (swapBytes v) =
      [BitVec.ofNat 8 (swapBytes v), BitVec.ofNat 8 (swapBytes v / 256)] := rfl
  rw [hbytes, hlow, hhigh, be16Bytes]

theorem length_paddedPseudoHeader
    (saddr daddr : BitVec 32)
    (proto : BitVec 8)
    (len : Nat) :
    (paddedPseudoHeader saddr daddr proto len).length = 20 := by
  simp [paddedPseudoHeader, length_be16Bytes]

/-- The buffer that is summed. -/
theorem tcpudpCsum_eq
    (buf : Buffer (BitVec 8) csumBufSize)
    (saddr daddr : BitVec 32)
    (pktData : Bytes)
    (len : BitVec 16)
    (proto : BitVec 8)
    (hroom : psdHeaderSize + len.toNat ≤ csumBufSize)
    (hlen : len.toNat ≤ pktData.length) :
    ∃ behind, tcpudpCsum buf saddr daddr pktData len proto =
      some (csum (paddedPseudoHeader saddr daddr proto len.toNat ++ List.replicate 4 0 ++
        pktData.take len.toNat ++ behind) (psdHeaderSize + len.toNat)) := by
  have hheader := length_paddedPseudoHeader saddr daddr proto len.toNat
  have htake : (pktData.take len.toNat).length = len.toNat := by
    rw [List.length_take, Nat.min_eq_left hlen]
  have hzeros : List.replicate (psdHeaderSize + len.toNat) (0 : BitVec 8) =
      List.replicate 20 0 ++ (List.replicate 4 0 ++ List.replicate len.toNat 0) := by
    rw [List.replicate_append_replicate, List.replicate_append_replicate, psdHeaderSize,
      ← Nat.add_assoc]
  refine ⟨buf.elems.drop (psdHeaderSize + len.toNat), ?_⟩
  rw [tcpudpCsum, if_pos ⟨hroom, hlen⟩]
  simp only [Buffer.elems_store]
  -- The stores into the header are one store, as each begins where the one before it ends.
  have hstores (b : Bytes) :
      overwrite (overwrite (overwrite (overwrite (overwrite b 0 (wordBytes .little 8 saddr.toNat))
        8 (wordBytes .little 8 daddr.toNat)) 16 [0]) 17 [proto]) 18 (be16Bytes len.toNat) =
      overwrite b 0 (paddedPseudoHeader saddr daddr proto len.toNat) := by
    rw [paddedPseudoHeader, overwrite_append, overwrite_append, overwrite_append,
      overwrite_append, length_wordBytes, length_wordBytes]
    rfl
  have hcleared : overwrite buf.elems 0 (List.replicate (psdHeaderSize + len.toNat) 0) =
      List.replicate 20 0 ++ ((List.replicate 4 0 ++ List.replicate len.toNat 0) ++
        buf.elems.drop (psdHeaderSize + len.toNat)) := by
    rw [overwrite_zero (by rw [List.length_replicate, buf.length_eq]; exact hroom),
      List.length_replicate, hzeros, List.append_assoc]
  have hheaderStore (rest : Bytes) :
      overwrite (List.replicate 20 0 ++ rest) 0
        (paddedPseudoHeader saddr daddr proto len.toNat) =
      paddedPseudoHeader saddr daddr proto len.toNat ++ rest := by
    rw [overwrite_zero (by rw [List.length_append, List.length_replicate]; omega), hheader,
      List.drop_left' List.length_replicate]
  have hsegmentStore (rest : Bytes) :
      overwrite (List.replicate len.toNat 0 ++ rest) 0 (pktData.take len.toNat) =
      pktData.take len.toNat ++ rest := by
    rw [overwrite_zero (by rw [List.length_append, List.length_replicate]; omega), htake,
      List.drop_left' List.length_replicate]
  have hfront : (paddedPseudoHeader saddr daddr proto len.toNat ++
      List.replicate 4 0).length = psdHeaderSize := by
    rw [List.length_append, hheader, List.length_replicate, psdHeaderSize]
  rw [hstores, hcleared, hheaderStore, List.append_assoc (List.replicate 4 0), ← List.append_assoc,
    overwrite_append_right (Nat.le_of_eq hfront), hfront, Nat.sub_self, hsegmentStore,
    ← List.append_assoc]

/-- The padding does not count. -/
theorem wordSum_paddedPseudoHeader
    (saddr daddr : BitVec 32)
    (proto : BitVec 8)
    (len : Nat) :
    wordSum (paddedPseudoHeader saddr daddr proto len ++ List.replicate 4 0) =
      wordSum (segmentPseudoHeader saddr daddr proto len) := by
  have hwide (v : BitVec 32) :
      wordBytes .little 8 v.toNat = wordBytes .little 4 v.toNat ++ List.replicate 4 0 :=
    littleBytes_wide 4 4 v.isLt
  have hzeros : wordSum (List.replicate 4 0) = 0 := rfl
  have haddress (v : BitVec 32) :
      wordSum (wordBytes .little 8 v.toNat) = wordSum (wordBytes .little 4 v.toNat) := by
    rw [hwide, wordSum_append (by rw [length_wordBytes]), hzeros, Nat.add_zero]
  have heven (v : BitVec 32) (n : Nat) (h : n % 2 = 0) :
      (wordBytes .little n v.toNat).length % 2 = 0 := by
    rw [length_wordBytes, h]
  simp only [paddedPseudoHeader, segmentPseudoHeader, List.append_assoc]
  rw [wordSum_append (heven saddr 8 rfl), wordSum_append (heven daddr 8 rfl),
    wordSum_append (heven saddr 4 rfl), wordSum_append (heven daddr 4 rfl), haddress, haddress]
  rfl

theorem length_segmentPseudoHeader
    (saddr daddr : BitVec 32)
    (proto : BitVec 8)
    (len : Nat) :
    (segmentPseudoHeader saddr daddr proto len).length = 12 := by
  simp [segmentPseudoHeader, length_be16Bytes]

/-- For every segment that fits into the buffer, and whatever stands behind it, the result in the
memory of the machine is the checksum over pseudo-header and segment.  Stored in a zeroed field of
the segment, it makes the segment pass the check of a receiver. -/
theorem tcpudpCsum_standard
    (buf : Buffer (BitVec 8) csumBufSize)
    (saddr daddr : BitVec 32)
    (proto : BitVec 8)
    {segment : Bytes}
    (hroom : segment.length ≤ 1576)
    (behind : Bytes) :
    ∃ rst, tcpudpCsum buf saddr daddr (segment ++ behind) (BitVec.ofNat 16 segment.length) proto =
        some rst ∧
      wordBytes .little 2 rst.toNat = be16Bytes
        (checksum (segmentPseudoHeader saddr daddr proto segment.length ++ segment)) ∧
      ∀ i, i % 2 = 0 → i + 2 ≤ segment.length → be16 segment i = 0 →
        Verifies (segmentPseudoHeader saddr daddr proto segment.length ++
          overwrite segment i (wordBytes .little 2 rst.toNat)) := by
  have hlen : (BitVec.ofNat 16 segment.length).toNat = segment.length := by
    rw [BitVec.toNat_ofNat]
    omega
  have htake : (segment ++ behind).take segment.length = segment := List.take_left
  obtain ⟨rest, hresult⟩ := tcpudpCsum_eq buf saddr daddr (segment ++ behind)
    (BitVec.ofNat 16 segment.length) proto
    (by rw [hlen, psdHeaderSize, csumBufSize]; omega)
    (by rw [hlen, List.length_append]; omega)
  rw [hlen, htake] at hresult
  have hpadded : (paddedPseudoHeader saddr daddr proto segment.length ++
      List.replicate 4 0).length = psdHeaderSize := by
    rw [List.length_append, length_paddedPseudoHeader, List.length_replicate, psdHeaderSize]
  have hlength : (paddedPseudoHeader saddr daddr proto segment.length ++ List.replicate 4 0 ++
      segment).length = psdHeaderSize + segment.length := by
    rw [List.length_append, hpadded]
  have hpseudo := length_segmentPseudoHeader saddr daddr proto segment.length
  have hsum : checksum (paddedPseudoHeader saddr daddr proto segment.length ++
      List.replicate 4 0 ++ segment) =
      checksum (segmentPseudoHeader saddr daddr proto segment.length ++ segment) := by
    apply checksum_congr
    rw [wordSum_append (by rw [hpadded, psdHeaderSize]), wordSum_paddedPseudoHeader,
      wordSum_append (by rw [hpseudo])]
  have hrst := toNat_csum (paddedPseudoHeader saddr daddr proto segment.length ++
      List.replicate 4 0 ++ segment ++ rest) (psdHeaderSize + segment.length)
    (by rw [List.length_append, hlength]; omega)
  rw [List.take_left' hlength, hsum] at hrst
  have hstored := wordBytes_swapBytes
    (v := checksum (segmentPseudoHeader saddr daddr proto segment.length ++ segment))
    (by rw [checksum]; omega)
  rw [← hrst] at hstored
  refine ⟨_, hresult, hstored, ?_⟩
  intro i heven hfield hclear
  have hverifies := verifies_overwrite_checksum (i := 12 + i)
    (b := segmentPseudoHeader saddr daddr proto segment.length ++ segment) (by omega)
    (by rw [List.length_append, hpseudo]; omega)
    (by rw [← hpseudo, ← be16_drop, List.drop_left, hclear])
  rw [overwrite_append_right (by omega), hpseudo, Nat.add_sub_cancel_left] at hverifies
  rw [hstored]
  exact hverifies

/-- A datagram of nine bytes, whose last byte is a word of its own. -/
theorem tcpudpCsum_nineBytes :
    ([4, 0, 4, 1, 0, 9, 0, 0, 7] : Bytes).length ≤ 1576 ∧
      ∃ rst, tcpudpCsum ⟨List.replicate csumBufSize 0xff, List.length_replicate⟩ 0x0100007f
          0x0200007f [4, 0, 4, 1, 0, 9, 0, 0, 7] 9 17 = some rst ∧
        Verifies (segmentPseudoHeader 0x0100007f 0x0200007f 17 9 ++
          overwrite [4, 0, 4, 1, 0, 9, 0, 0, 7] 6 (wordBytes .little 2 rst.toNat)) := by
  have hroom : ([4, 0, 4, 1, 0, 9, 0, 0, 7] : Bytes).length ≤ 1576 := by
    decide
  obtain ⟨rst, hresult, _, hverifies⟩ := tcpudpCsum_standard
    ⟨List.replicate csumBufSize 0xff, List.length_replicate⟩ 0x0100007f 0x0200007f 17 hroom []
  exact ⟨hroom, rst, hresult, hverifies 6 rfl (by decide) rfl⟩

end SegmentChecksum

end Poise
