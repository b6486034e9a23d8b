import Mathlib.Tactic
import Poise.Foundations.ByteBuffer

/-!
# Poise client: inserting the context option into outgoing packets

The kernel module of the client puts a TCP option of 16 bytes into every packet
of the target application.  A packet that would get longer than 1500 bytes is
sent as two packets with one half of the payload each.

A socket buffer is kept as its bytes from the IP header on and the bytes of its
tail room.  Header fields are read from and stored to these bytes at their
positions, in network byte order.  The allocation of a copy can fail, and the
contents of the tail room of a copy are arbitrary; both are parameters, as is
the checksum function of the kernel.
-/

namespace Poise

open Foundations

section OptionInsertion

/-- The bytes of a packet. -/
abbrev Bytes : Type := List (BitVec 8)

/-- The header length of the IP header, in words. -/
def ipIhl (d : Bytes) : Nat :=
  byteAt d 0 % 16

def ipTotLen (d : Bytes) : Nat :=
  be16 d 2

def ipId (d : Bytes) : Nat :=
  be16 d 4

def ipProtocol (d : Bytes) : Nat :=
  byteAt d 9

/-- The position of the TCP header. -/
def tcpAt (d : Bytes) : Nat :=
  4 * ipIhl d

def tcpSeq (d : Bytes) : Nat :=
  be32 d (tcpAt d + 4)

/-- The header length of the TCP header, in words. -/
def tcpDoff (d : Bytes) : Nat :=
  byteAt d (tcpAt d + 12) / 16

/-- The position of the payload. -/
def payloadAt (d : Bytes) : Nat :=
  tcpAt d + 4 * tcpDoff d

def tcpPayload (d : Bytes) : Bytes :=
  d.drop (payloadAt d)

def setTotLen (d : Bytes) (v : Int) : Bytes :=
  overwrite d 2 (be16Bytes (v % 65536).toNat)

def setSeq (d : Bytes) (v : Int) : Bytes :=
  overwrite d (tcpAt d + 4) (be32Bytes (v % 4294967296).toNat)

/-- Store to the four bits of the header length; the other four are kept. -/
def setDoff (d : Bytes) (v : Nat) : Bytes :=
  overwrite d (tcpAt d + 12)
    [BitVec.ofNat 8 (v % 16 * 16 + byteAt d (tcpAt d + 12) % 16)]

/-- The checksum is cleared and then computed over the IP header. -/
def setCheck (ipFastCsum : Bytes → Nat) (d : Bytes) : Bytes :=
  let cleared := overwrite d 10 (be16Bytes 0)
  overwrite cleared 10 (be16Bytes (ipFastCsum (slice cleared 0 (tcpAt cleared))))

def cxtHeadLen : Nat := 16

/-- The option: its kind, its length, and fourteen bytes of context. -/
def cxtOption : Bytes :=
  0x20 :: BitVec.ofNat 8 cxtHeadLen :: List.replicate (cxtHeadLen - 2) 0x0f

/-- A socket buffer, with the part of its link header that is looked at. -/
structure Skb where
  ethSource : BitVec 8 × BitVec 8
  data : Bytes
  tail : Bytes
deriving DecidableEq, Repr

/-- Extend the data into the tail room; there must be enough of it. -/
def skbPut (skb : Skb) (n : Nat) : Option Skb :=
  if n ≤ skb.tail.length then
    some { skb with data := skb.data ++ skb.tail.take n, tail := skb.tail.drop n }
  else
    none

/-- Cut the data to a length. -/
def skbTrim (skb : Skb) (len : Nat) : Skb :=
  { skb with data := skb.data.take len, tail := skb.data.drop len ++ skb.tail }

/-- What `create_cxt_skb` gives back; a failed copy gives the verdict as if it were a pointer. -/
inductive Created where
  | badPointer
  | overPanic
  | skb (n : Skb)
deriving DecidableEq, Repr

/-- Move a part of the payload behind the option and let the sequence number follow. -/
def movePayload (d : Bytes) (offset dlen : Int) : Bytes :=
  if dlen > 0 then
    let moved := memmove d (payloadAt d + cxtHeadLen) (payloadAt d + offset).toNat dlen.toNat
    if offset > 0 then setSeq moved (tcpSeq moved + offset) else moved
  else
    d

/-- Cut off what is not in the new packet and adjust the total length. -/
def trimPacket (n : Skb) (trim : Int) : Skb :=
  if trim > 0 then
    let cut := skbTrim n (n.data.length - trim).toNat
    { cut with data := setTotLen cut.data (ipTotLen cut.data - trim + cxtHeadLen) }
  else
    { n with data := setTotLen n.data (ipTotLen n.data + cxtHeadLen) }

/-- A copy of a packet with the option and a part of the payload. -/
def createCxtSkb
    (ipFastCsum : Bytes → Nat) (fresh : Option Bytes) (skb : Skb) (offset len : Int) : Created :=
  match fresh with
  | none => .badPointer
  | some tail =>
      match skbPut { skb with tail := tail } cxtHeadLen with
      | none => .overPanic
      | some n =>
          let psize : Int := ipTotLen n.data - 4 * ipIhl n.data - 4 * tcpDoff n.data
          let dlen := if psize - offset ≥ len then len else psize - offset
          let trim := psize - len
          let moved := movePayload n.data offset dlen
          let optioned := overwrite moved (payloadAt n.data) cxtOption
          let grown := setDoff optioned ((4 * tcpDoff optioned + cxtHeadLen) / 4)
          let cut := trimPacket { n with data := grown } trim
          .skb { cut with data := setCheck ipFastCsum cut.data }

/-- The verdict for a packet, with the packets that were sent in its place. -/
inductive TxOutcome where
  | accept
  | stolen (sent : List Skb)
  | fault
deriving DecidableEq, Repr

def ipprotoTcp : Nat := 6

/-- An unsigned number passed as a signed one. -/
def toInt32 (n : Nat) : Int :=
  if n < 2147483648 then n else (n : Int) - 4294967296

/-- Packets that are let through before their TCP header is looked at. -/
def isExempt (skb : Skb) : Bool :=
  (skb.ethSource.1 == 0xff && skb.ethSource.2 == 0x00) ||
    (ipProtocol skb.data != ipprotoTcp || ipId skb.data == 0x8888)

def parseTxSkb
    (ipFastCsum : Bytes → Nat) (fresh₁ fresh₂ : Option Bytes) (skb : Skb) : TxOutcome :=
  if isExempt skb then
    .accept
  else
    let psize :=
      (((ipTotLen skb.data : Int) - 4 * ipIhl skb.data - 4 * tcpDoff skb.data) %
        4294967296).toNat
    let loptsize := 60 - 4 * tcpDoff skb.data
    if loptsize < cxtHeadLen then
      .accept
    else if ipTotLen skb.data + cxtHeadLen > 1500 then
      match createCxtSkb ipFastCsum fresh₁ skb 0 (toInt32 (psize / 2)),
          createCxtSkb ipFastCsum fresh₂ skb (toInt32 (psize / 2))
            (toInt32 (psize - psize / 2)) with
      | .skb n₁, .skb n₂ => .stolen [n₁, n₂]
      | _, _ => .fault
    else
      match createCxtSkb ipFastCsum fresh₁ skb 0 (toInt32 psize) with
      | .skb n => .stolen [n]
      | _ => .fault

/-- The bytes up to the payload hold the fixed parts of both headers. -/
structure HeaderRoom (hd : Bytes) : Prop where
  ip : 20 ≤ tcpAt hd
  tcp : tcpAt hd + 20 ≤ hd.length

/-- The header fields, and the header bytes behind the fixed parts. -/
structure HeaderView where
  ihl : Nat
  totLen : Nat
  seq : Nat
  doff : Nat
  options : Bytes

def headerView (hd : Bytes) : HeaderView :=
  { ihl := ipIhl hd
    totLen := ipTotLen hd
    seq := tcpSeq hd
    doff := tcpDoff hd
    options := hd.drop (tcpAt hd + 20) }

section Fields

variable {hd : Bytes}

/-- Fields are read from the header, whatever is behind it. -/
theorem HeaderRoom.append_fields
    (h : HeaderRoom hd)
    (r : Bytes) :
    ipIhl (hd ++ r) = ipIhl hd ∧ ipTotLen (hd ++ r) = ipTotLen hd ∧
      tcpSeq (hd ++ r) = tcpSeq hd ∧ tcpDoff (hd ++ r) = tcpDoff hd := by
  have hip := h.ip
  have htcp := h.tcp
  have hihl : ipIhl (hd ++ r) = ipIhl hd := by
    rw [ipIhl, ipIhl, byteAt_append_left r (by omega)]
  have hat : tcpAt (hd ++ r) = tcpAt hd := by
    rw [tcpAt, tcpAt, hihl]
  refine ⟨hihl, ?_, ?_, ?_⟩
  · exact be16_append_left r (by omega)
  · rw [tcpSeq, tcpSeq, hat]
    exact be32_append_left r (by omega)
  · rw [tcpDoff, tcpDoff, hat, byteAt_append_left r (by omega)]

theorem HeaderRoom.tcpAt_append
    (h : HeaderRoom hd)
    (r : Bytes) :
    tcpAt (hd ++ r) = tcpAt hd := by
  rw [tcpAt, tcpAt, (h.append_fields r).1]

theorem HeaderRoom.payloadAt_append
    (h : HeaderRoom hd)
    (r : Bytes) :
    payloadAt (hd ++ r) = payloadAt hd := by
  rw [payloadAt, payloadAt, h.tcpAt_append r, (h.append_fields r).2.2.2]

/-- A store behind the first byte keeps the position of the TCP header. -/
theorem tcpAt_overwrite
    {i : Nat} {xs : Bytes}
    (hi : 0 < i) :
    tcpAt (overwrite hd i xs) = tcpAt hd := by
  rw [tcpAt, tcpAt, ipIhl, ipIhl, byteAt_overwrite_of_outside (Or.inl hi)]

/-- Stores behind the first byte keep the room. -/
theorem HeaderRoom.of_store
    (h : HeaderRoom hd)
    {i : Nat} {xs : Bytes}
    (hi : 0 < i) :
    HeaderRoom (overwrite hd i xs) := by
  have hat : tcpAt (overwrite hd i xs) = tcpAt hd := tcpAt_overwrite hi
  refine ⟨?_, ?_⟩
  · rw [hat]
    exact h.ip
  · rw [hat, length_overwrite]
    exact h.tcp

/-- A store keeps the fields it does not meet. -/
theorem fields_overwrite
    (hd : Bytes)
    (i : Nat)
    (xs : Bytes)
    (hi : 0 < i)
    (hend : i + xs.length ≤ tcpAt hd + 20) :
    ipIhl (overwrite hd i xs) = ipIhl hd ∧
      (4 ≤ i → ipTotLen (overwrite hd i xs) = ipTotLen hd) ∧
      (i + xs.length ≤ tcpAt hd + 4 ∨ tcpAt hd + 8 ≤ i →
        tcpSeq (overwrite hd i xs) = tcpSeq hd) ∧
      (i + xs.length ≤ tcpAt hd + 12 ∨ tcpAt hd + 13 ≤ i →
        tcpDoff (overwrite hd i xs) = tcpDoff hd) ∧
      (overwrite hd i xs).drop
          (tcpAt (overwrite hd i xs) + 20) = hd.drop (tcpAt hd + 20) := by
  have hat : tcpAt (overwrite hd i xs) = tcpAt hd := tcpAt_overwrite hi
  refine ⟨?_, ?_, ?_, ?_, ?_⟩
  · rw [ipIhl, ipIhl, byteAt_overwrite_of_outside (Or.inl hi)]
  · intro hout
    exact be16_overwrite_of_outside (Or.inl hout)
  · intro hout
    rw [tcpSeq, tcpSeq, hat]
    exact be32_overwrite_of_outside (by omega)
  · intro hout
    rw [tcpDoff, tcpDoff, hat, byteAt_overwrite_of_outside (by omega)]
  · rw [hat]
    exact drop_overwrite_of_le hend

theorem HeaderRoom.view_setTotLen
    (h : HeaderRoom hd)
    (v : Int) :
    headerView (setTotLen hd v) = { headerView hd with totLen := (v % 65536).toNat } := by
  have hip := h.ip
  have htcp := h.tcp
  have hlen := length_be16Bytes (v % 65536).toNat
  obtain ⟨hihl, _, hseq, hdoff, hopts⟩ :=
    fields_overwrite hd 2 (be16Bytes (v % 65536).toNat) (by omega) (by omega)
  have htot : ipTotLen (setTotLen hd v) = (v % 65536).toNat := by
    rw [ipTotLen, setTotLen, be16_overwrite_self _ (by omega)]
    omega
  rw [headerView, htot, setTotLen, hihl, hseq (by omega), hdoff (by omega), hopts]
  rfl

theorem HeaderRoom.view_setSeq
    (h : HeaderRoom hd)
    (v : Int) :
    headerView (setSeq hd v) = { headerView hd with seq := (v % 4294967296).toNat } := by
  have hip := h.ip
  have htcp := h.tcp
  have hlen : (be32Bytes (v % 4294967296).toNat).length = 4 := rfl
  obtain ⟨hihl, htot, _, hdoff, hopts⟩ :=
    fields_overwrite hd (tcpAt hd + 4) (be32Bytes (v % 4294967296).toNat) (by omega) (by omega)
  have hseq : tcpSeq (setSeq hd v) = (v % 4294967296).toNat := by
    rw [tcpSeq, setSeq, tcpAt_overwrite (by omega), be32_overwrite_self _ (by omega)]
    omega
  rw [headerView, hseq, setSeq, hihl, htot (by omega), hdoff (by omega), hopts]
  rfl

theorem HeaderRoom.view_setDoff
    (h : HeaderRoom hd)
    (v : Nat) :
    headerView (setDoff hd v) = { headerView hd with doff := v % 16 } := by
  have hip := h.ip
  have htcp := h.tcp
  obtain ⟨hihl, htot, hseq, _, hopts⟩ :=
    fields_overwrite hd (tcpAt hd + 12)
      [BitVec.ofNat 8 (v % 16 * 16 + byteAt hd (tcpAt hd + 12) % 16)] (by omega) (by simp)
  have hdoff : tcpDoff (setDoff hd v) = v % 16 := by
    rw [tcpDoff, setDoff, tcpAt_overwrite (by omega), byteAt_overwrite_cons (by omega),
      BitVec.toNat_ofNat]
    omega
  rw [headerView, hdoff, setDoff, hihl, htot (by omega), hseq (by omega), hopts]
  rfl

theorem HeaderRoom.view_setCheck
    (h : HeaderRoom hd)
    (ipFastCsum : Bytes → Nat) :
    headerView (setCheck ipFastCsum hd) = headerView hd := by
  have hkeep : ∀ {b : Bytes}, HeaderRoom b → ∀ v,
      headerView (overwrite b 10 (be16Bytes v)) = headerView b := by
    intro b hb v
    have hip := hb.ip
    have hlen := length_be16Bytes v
    obtain ⟨hihl, htot, hseq, hdoff, hopts⟩ :=
      fields_overwrite b 10 (be16Bytes v) (by omega) (by omega)
    rw [headerView, hihl, htot (by omega), hseq (by omega), hdoff (by omega), hopts]
    rfl
  rw [setCheck, hkeep (h.of_store (by omega)), hkeep h]

theorem HeaderRoom.setTotLen_append
    (h : HeaderRoom hd)
    (r : Bytes)
    (v : Int) :
    setTotLen (hd ++ r) v = setTotLen hd v ++ r := by
  have hip := h.ip
  have htcp := h.tcp
  have hlen := length_be16Bytes (v % 65536).toNat
  exact overwrite_append_left (by omega)

theorem HeaderRoom.setSeq_append
    (h : HeaderRoom hd)
    (r : Bytes)
    (v : Int) :
    setSeq (hd ++ r) v = setSeq hd v ++ r := by
  have htcp := h.tcp
  have hlen : (be32Bytes (v % 4294967296).toNat).length = 4 := rfl
  rw [setSeq, setSeq, h.tcpAt_append r]
  exact overwrite_append_left (by omega)

theorem HeaderRoom.setDoff_append
    (h : HeaderRoom hd)
    (r : Bytes)
    (v : Nat) :
    setDoff (hd ++ r) v = setDoff hd v ++ r := by
  have htcp := h.tcp
  rw [setDoff, setDoff, h.tcpAt_append r, byteAt_append_left r (by omega)]
  refine overwrite_append_left ?_
  rw [List.length_singleton]
  omega

theorem HeaderRoom.setCheck_append
    (h : HeaderRoom hd)
    (r : Bytes)
    (ipFastCsum : Bytes → Nat) :
    setCheck ipFastCsum (hd ++ r) = setCheck ipFastCsum hd ++ r := by
  have hip := h.ip
  have htcp := h.tcp
  have hclear : HeaderRoom (overwrite hd 10 (be16Bytes 0)) := h.of_store (by omega)
  have hstore : ∀ (b : Bytes) v, b.length = hd.length →
      overwrite (b ++ r) 10 (be16Bytes v) =
        overwrite b 10 (be16Bytes v) ++ r := by
    intro b v hlen
    have htwo := length_be16Bytes v
    exact overwrite_append_left (by omega)
  rw [setCheck, setCheck, hstore hd 0 rfl, hclear.tcpAt_append r,
    slice_append_left r (by have := hclear.tcp; omega), hstore _ _ (length_overwrite _ _ _)]

/-- A header of a length, with room for the fixed parts and the given fields. -/
structure Patched (length : Nat) (v : HeaderView) (hd : Bytes) : Prop where
  room : HeaderRoom hd
  length_eq : hd.length = length
  view : headerView hd = v

section Stores

variable {length : Nat} {v : HeaderView}

theorem Patched.setTotLen
    (h : Patched length v hd)
    (x : Int) :
    Patched length { v with totLen := (x % 65536).toNat } (setTotLen hd x) := by
  refine ⟨h.room.of_store (by omega), (length_overwrite _ _ _).trans h.length_eq, ?_⟩
  rw [h.room.view_setTotLen, h.view]

theorem Patched.setSeq
    (h : Patched length v hd)
    (x : Int) :
    Patched length { v with seq := (x % 4294967296).toNat } (setSeq hd x) := by
  refine ⟨h.room.of_store (by omega), (length_overwrite _ _ _).trans h.length_eq, ?_⟩
  rw [h.room.view_setSeq, h.view]

theorem Patched.setDoff
    (h : Patched length v hd)
    (x : Nat) :
    Patched length { v with doff := x % 16 } (setDoff hd x) := by
  refine ⟨h.room.of_store (by omega), (length_overwrite _ _ _).trans h.length_eq, ?_⟩
  rw [h.room.view_setDoff, h.view]

theorem Patched.setCheck
    (h : Patched length v hd)
    (ipFastCsum : Bytes → Nat) :
    Patched length v (setCheck ipFastCsum hd) := by
  refine ⟨(h.room.of_store (by omega)).of_store (by omega), ?_, ?_⟩
  · rw [Poise.setCheck, length_overwrite, length_overwrite, h.length_eq]
  · rw [h.room.view_setCheck, h.view]

end Stores

end Fields

section Create

variable {hd : Bytes}

/-- The header of a packet whose payload starts at an offset of the original. -/
def seqHeader (hd : Bytes) (offset : Nat) : Bytes :=
  if 0 < offset then setSeq hd (tcpSeq hd + offset) else hd

theorem HeaderRoom.patched_seqHeader
    (h : HeaderRoom hd)
    (offset : Nat) :
    Patched hd.length { headerView hd with seq := (tcpSeq hd + offset) % 4294967296 }
      (seqHeader hd offset) := by
  have hstart : Patched hd.length (headerView hd) hd := ⟨h, rfl, rfl⟩
  rw [seqHeader]
  split
  · have hseq : (((tcpSeq hd : Int) + offset) % 4294967296).toNat =
        (tcpSeq hd + offset) % 4294967296 := by
      omega
    rw [← hseq]
    exact hstart.setSeq _
  · have hsmall := be32_lt hd (tcpAt hd + 4)
    have hzero : offset = 0 := by
      omega
    have hseq : (tcpSeq hd + offset) % 4294967296 = tcpSeq hd := by
      rw [hzero, Nat.add_zero]
      exact Nat.mod_eq_of_lt hsmall
    rw [hseq]
    exact hstart

/-- Moving the payload changes the header and the part behind it separately. -/
theorem HeaderRoom.movePayload_append
    (h : HeaderRoom hd)
    (hat : payloadAt hd = hd.length)
    (r : Bytes)
    {offset len : Nat}
    (hempty : len = 0 → offset = 0) :
    movePayload (hd ++ r) offset len =
      seqHeader hd offset ++ memmove r cxtHeadLen offset len := by
  have hpos : ((payloadAt (hd ++ r) : Int) + offset).toNat = hd.length + offset := by
    rw [h.payloadAt_append r, hat]
    omega
  rw [movePayload, hpos, h.payloadAt_append r, hat, Int.toNat_natCast, memmove_append_right]
  by_cases hlen : 0 < len
  · rw [if_pos (by omega), seqHeader]
    by_cases hoff : 0 < offset
    · rw [if_pos (by omega), if_pos hoff, h.setSeq_append, (h.append_fields _).2.2.1]
    · rw [if_neg (by omega), if_neg hoff]
  · have hzero : len = 0 := by
      omega
    have hnone : memmove r cxtHeadLen offset 0 = r := by
      rw [memmove, slice, List.take_zero]
      rfl
    rw [if_neg (by omega), seqHeader, hzero, hnone, if_neg (by have := hempty hzero; omega)]

/-- Behind the header: the option, then the chosen part of the payload. -/
theorem take_option_moved
    {pay tail : Bytes} {offset len : Nat}
    (htail : tail.length = cxtHeadLen)
    (hpart : offset + len ≤ pay.length) :
    (overwrite (memmove (pay ++ tail) cxtHeadLen offset len) 0 cxtOption).take
        (cxtHeadLen + len) = cxtOption ++ slice pay offset len := by
  have hopt : cxtOption.length = cxtHeadLen := rfl
  have hslice : slice (pay ++ tail) offset len = slice pay offset len :=
    slice_append_left tail hpart
  have hlen := length_slice hpart
  obtain ⟨front, rest, hsplit, hfront⟩ :
      ∃ front rest, pay ++ tail = front ++ rest ∧ front.length = cxtHeadLen :=
    ⟨(pay ++ tail).take cxtHeadLen, (pay ++ tail).drop cxtHeadLen,
      (List.take_append_drop _ _).symm, by
        rw [List.length_take, List.length_append]
        omega⟩
  have hrest : (slice pay offset len).length ≤ rest.length := by
    have htotal := congrArg List.length hsplit
    rw [List.length_append, List.length_append] at htotal
    omega
  rw [memmove, hslice, hsplit, overwrite_append_right (by omega), hfront, Nat.sub_self,
    overwrite_zero hrest, overwrite_zero (by rw [List.length_append]; omega), hopt, ← hfront,
    List.drop_left, ← List.append_assoc]
  exact List.take_left' (by rw [List.length_append]; omega)

/-- Trimming keeps the header apart from the total length and cuts the part behind it. -/
theorem HeaderRoom.trimPacket_append
    (h : HeaderRoom hd)
    {n : Skb} {r : Bytes} {size len : Nat}
    (hdata : n.data = hd ++ r)
    (hr : r.length = cxtHeadLen + size)
    (htot : ipTotLen hd = hd.length + size)
    (hlen : len ≤ size) :
    (trimPacket n ((size : Int) - len)).data =
      setTotLen hd (hd.length + cxtHeadLen + len : Nat) ++ r.take (cxtHeadLen + len) := by
  rw [trimPacket]
  split
  · have hcut : (skbTrim n ((n.data.length : Int) - ((size : Int) - len)).toNat).data =
        hd ++ r.take (cxtHeadLen + len) := by
      have hpos : ((n.data.length : Int) - ((size : Int) - len)).toNat =
          hd.length + (cxtHeadLen + len) := by
        rw [hdata, List.length_append, hr]
        omega
      rw [hpos, skbTrim, hdata]
      exact List.take_length_add_append _
    have hsize : (ipTotLen (hd ++ r.take (cxtHeadLen + len)) : Int) - ((size : Int) - len) +
        cxtHeadLen = (hd.length + cxtHeadLen + len : Nat) := by
      rw [(h.append_fields _).2.1, htot]
      omega
    simp only [hcut, hsize]
    exact h.setTotLen_append _ _
  · have hall : r.take (cxtHeadLen + len) = r := List.take_of_length_le (by omega)
    have hsize : (ipTotLen (hd ++ r) : Int) + cxtHeadLen =
        (hd.length + cxtHeadLen + len : Nat) := by
      rw [(h.append_fields _).2.1, htot]
      omega
    rw [hall]
    simp only [hdata, hsize]
    exact h.setTotLen_append _ _

/-- A packet seen as a header that can take the option, and the payload. -/
structure SplitsInto (skb : Skb) (hd pay : Bytes) : Prop where
  data : skb.data = hd ++ pay
  room : HeaderRoom hd
  start : payloadAt hd = hd.length
  totLen : ipTotLen hd = hd.length + pay.length
  doff : tcpDoff hd ≤ 11

/-- A created packet: the patched header, the option, and a part of the payload. -/
structure CopiedFrom (hd pay : Bytes) (offset len : Nat) (hd' : Bytes) (n : Skb) : Prop where
  data : n.data = hd' ++ (cxtOption ++ slice pay offset len)
  header : Patched hd.length
    { ihl := ipIhl hd
      totLen := hd.length + cxtHeadLen + len
      seq := (tcpSeq hd + offset) % 4294967296
      doff := tcpDoff hd + 4
      options := hd.drop (tcpAt hd + 20) } hd'

/-- The header of a created packet: the stores into it, in the order of the source. -/
def copyHeader (ipFastCsum : Bytes → Nat) (hd : Bytes) (offset len : Nat) : Bytes :=
  setCheck ipFastCsum (setTotLen (setDoff (seqHeader hd offset) (tcpDoff hd + 4))
    (hd.length + cxtHeadLen + len : Nat))

/-- The fields of the header of a created packet. -/
theorem SplitsInto.patched_copyHeader
    {skb : Skb} {pay : Bytes}
    (hsplit : SplitsInto skb hd pay)
    (ipFastCsum : Bytes → Nat)
    (offset : Nat)
    {len : Nat}
    (hfits : hd.length + cxtHeadLen + len < 65536) :
    Patched hd.length
      { ihl := ipIhl hd
        totLen := hd.length + cxtHeadLen + len
        seq := (tcpSeq hd + offset) % 4294967296
        doff := tcpDoff hd + 4
        options := hd.drop (tcpAt hd + 20) } (copyHeader ipFastCsum hd offset len) := by
  have hdoff := hsplit.doff
  have hgrown := (hsplit.room.patched_seqHeader offset).setDoff (tcpDoff hd + 4)
  have hdone := (hgrown.setTotLen (hd.length + cxtHeadLen + len : Nat)).setCheck ipFastCsum
  have hstored : (((hd.length + cxtHeadLen + len : Nat) : Int) % 65536).toNat =
      hd.length + cxtHeadLen + len := by
    omega
  have hwidth : (tcpDoff hd + 4) % 16 = tcpDoff hd + 4 := Nat.mod_eq_of_lt (by omega)
  rw [hstored, hwidth] at hdone
  exact hdone

/-- The bytes of a created packet. -/
theorem SplitsInto.exists_createCxtSkb_eq
    {skb : Skb} {pay : Bytes}
    (hsplit : SplitsInto skb hd pay)
    (ipFastCsum : Bytes → Nat)
    {tail : Bytes}
    (htail : cxtHeadLen ≤ tail.length)
    (offset len : Nat)
    (hpart : offset + len ≤ pay.length)
    (hempty : len = 0 → offset = 0) :
    ∃ n, createCxtSkb ipFastCsum (some tail) skb offset len = .skb n ∧
      n.data = copyHeader ipFastCsum hd offset len ++ (cxtOption ++ slice pay offset len) := by
  obtain ⟨hdata, h, hat, htot, hdoff⟩ := hsplit
  have hput : skbPut { skb with tail := tail } cxtHeadLen =
      some { skb with
        data := hd ++ (pay ++ tail.take cxtHeadLen)
        tail := tail.drop cxtHeadLen } := by
    rw [skbPut, if_pos htail, hdata, List.append_assoc]
  have hfresh : (tail.take cxtHeadLen).length = cxtHeadLen := List.length_take_of_le htail
  have hpsize : (ipTotLen (hd ++ (pay ++ tail.take cxtHeadLen)) : Int) -
      4 * ipIhl (hd ++ (pay ++ tail.take cxtHeadLen)) -
      4 * tcpDoff (hd ++ (pay ++ tail.take cxtHeadLen)) = pay.length := by
    obtain ⟨hihl, htotLen, _, hoff⟩ := h.append_fields (pay ++ tail.take cxtHeadLen)
    rw [payloadAt, tcpAt] at hat
    rw [hihl, htotLen, hoff, htot]
    omega
  have hregion : (overwrite
      (memmove (pay ++ tail.take cxtHeadLen) cxtHeadLen offset len) 0 cxtOption).length =
        cxtHeadLen + pay.length := by
    rw [length_overwrite, length_memmove, List.length_append, hfresh, Nat.add_comm]
  -- The stores into the header, in the order of the source.
  have hseq := h.patched_seqHeader offset
  have hgrown := hseq.setDoff (tcpDoff hd + 4)
  have hsized := hgrown.setTotLen (hd.length + cxtHeadLen + len : Nat)
  refine ⟨_, by rw [createCxtSkb, hput], ?_⟩
  have hstore : ∀ r, overwrite (seqHeader hd offset ++ r) hd.length cxtOption =
      seqHeader hd offset ++ overwrite r 0 cxtOption := by
    intro r
    rw [overwrite_append_right (by rw [hseq.length_eq]), hseq.length_eq, Nat.sub_self]
  have hwords : (4 * tcpDoff (seqHeader hd offset) + cxtHeadLen) / 4 = tcpDoff hd + 4 := by
    have hsame : tcpDoff (seqHeader hd offset) = tcpDoff hd := congrArg HeaderView.doff hseq.view
    rw [hsame, cxtHeadLen]
    omega
  have hgrownTot : ipTotLen (setDoff (seqHeader hd offset) (tcpDoff hd + 4)) =
      (setDoff (seqHeader hd offset) (tcpDoff hd + 4)).length + pay.length := by
    rw [hgrown.length_eq, ← htot]
    exact congrArg HeaderView.totLen hgrown.view
  simp only [hpsize]
  rw [if_pos (by omega), h.movePayload_append hat _ hempty, h.payloadAt_append, hat, hstore,
    (hseq.room.append_fields _).2.2.2, hwords, hseq.room.setDoff_append,
    hgrown.room.trimPacket_append rfl hregion hgrownTot (by omega), hgrown.length_eq,
    hsized.room.setCheck_append, take_option_moved hfresh hpart, copyHeader]

end Create

/-- The options of the TCP header. -/
def tcpOptions (d : Bytes) : Bytes :=
  slice d (tcpAt d + 20) (4 * tcpDoff d - 20)

/-- A packet whose header lengths fit its total length, and that has this length. -/
structure WellFormed (d : Bytes) : Prop where
  ihl : 5 ≤ ipIhl d
  doff : 5 ≤ tcpDoff d
  payload : payloadAt d ≤ ipTotLen d
  length : d.length = ipTotLen d

/-- A packet carries the option behind the TCP options of another one, with all lengths set. -/
structure CarriesOption (d n : Bytes) : Prop where
  doff : tcpDoff n = tcpDoff d + 4
  doff_le : tcpDoff n ≤ 15
  length : n.length = ipTotLen n
  totLen : ipTotLen n = 4 * ipIhl n + 4 * tcpDoff n + (tcpPayload n).length
  options : tcpOptions n = tcpOptions d ++ cxtOption

section Transmit

/-- A well-formed packet with room for the option is a header and a payload. -/
theorem WellFormed.exists_splitsInto
    {skb : Skb}
    (h : WellFormed skb.data)
    (hoption : 4 * tcpDoff skb.data + cxtHeadLen ≤ 60) :
    ∃ hd, SplitsInto skb hd (tcpPayload skb.data) := by
  generalize hd : skb.data = d at h hoption
  have hihl := h.ihl
  have hdoff := h.doff
  have hpayload := h.payload
  have hlen := h.length
  have hopt : cxtHeadLen = 16 := rfl
  have hsplit : d = d.take (payloadAt d) ++ tcpPayload d :=
    (List.take_append_drop _ _).symm
  have hlength : (d.take (payloadAt d)).length = payloadAt d :=
    List.length_take_of_le (by omega)
  have hat : payloadAt d = 4 * ipIhl d + 4 * tcpDoff d := rfl
  have htcp : tcpAt d = 4 * ipIhl d := rfl
  have hfirst : tcpAt (d.take (payloadAt d)) = tcpAt d := by
    rw [tcpAt, tcpAt, ipIhl, ipIhl, ← byteAt_append_left (tcpPayload d) (by omega), ← hsplit]
  have hroom : HeaderRoom (d.take (payloadAt d)) := by
    constructor <;> omega
  obtain ⟨_, htotal, _, hoff⟩ := hroom.append_fields (tcpPayload d)
  rw [← hsplit] at htotal hoff
  refine ⟨d.take (payloadAt d), hd.trans hsplit, hroom, ?_, ?_, ?_⟩
  · rw [← hroom.payloadAt_append (tcpPayload d), ← hsplit, hlength]
  · rw [← htotal, ← hlen, ← List.length_append, ← hsplit]
  · omega

variable {hd pay hd' : Bytes} {offset len : Nat} {n : Skb}

/-- The fields and the payload of a created packet. -/
theorem CopiedFrom.fields
    (h : CopiedFrom hd pay offset len hd' n)
    (hat : payloadAt hd = hd.length) :
    ipIhl n.data = ipIhl hd ∧ ipTotLen n.data = hd.length + cxtHeadLen + len ∧
      tcpSeq n.data = (tcpSeq hd + offset) % 4294967296 ∧ tcpDoff n.data = tcpDoff hd + 4 ∧
      tcpPayload n.data = slice pay offset len := by
  obtain ⟨hihl, htot, hseq, hdoff⟩ :=
    h.header.room.append_fields (cxtOption ++ slice pay offset len)
  rw [← h.data] at hihl htot hseq hdoff
  have hihl' := hihl.trans (congrArg HeaderView.ihl h.header.view)
  have hdoff' := hdoff.trans (congrArg HeaderView.doff h.header.view)
  refine ⟨hihl', htot.trans (congrArg HeaderView.totLen h.header.view),
    hseq.trans (congrArg HeaderView.seq h.header.view), hdoff', ?_⟩
  have hpos : payloadAt n.data = (hd' ++ cxtOption).length := by
    have hopt : cxtOption.length = 16 := rfl
    simp only [payloadAt, tcpAt] at hat
    rw [payloadAt, tcpAt, hihl', hdoff', List.length_append, h.header.length_eq, hopt]
    simp only
    omega
  rw [tcpPayload, hpos, h.data, ← List.append_assoc, List.drop_left]

/-- A created packet carries the option. -/
theorem CopiedFrom.carriesOption
    (h : CopiedFrom hd pay offset len hd' n)
    {skb : Skb}
    (hsplit : SplitsInto skb hd pay)
    (hpart : offset + len ≤ pay.length) :
    CarriesOption skb.data n.data := by
  obtain ⟨hdata, hroom, hat, _, hdoff⟩ := hsplit
  obtain ⟨hihl', htot', _, hdoff', hpay'⟩ := h.fields hat
  obtain ⟨hihl, _, _, hoff⟩ := hroom.append_fields pay
  have hopt : cxtOption.length = cxtHeadLen := rfl
  have hhead : cxtHeadLen = 16 := rfl
  have hslice := length_slice hpart
  have htcp := hroom.tcp
  have hsize : 4 * ipIhl hd + 4 * tcpDoff hd = hd.length := hat
  have hstart : tcpAt hd = 4 * ipIhl hd := rfl
  have hold : (hd.drop (tcpAt hd + 20)).length = 4 * tcpDoff hd - 20 := by
    rw [List.length_drop, ← hsize, tcpAt]
    omega
  rw [hdata]
  constructor
  case doff =>
    rw [hdoff', hoff]
  case doff_le =>
    omega
  case length =>
    rw [htot', h.data, List.length_append, List.length_append, hslice, hopt, h.header.length_eq]
    omega
  case totLen =>
    rw [htot', hihl', hdoff', hpay', hslice]
    omega
  case options =>
    have hat' : tcpAt n.data = tcpAt hd := by
      rw [tcpAt, tcpAt, hihl']
    have hview : hd'.drop (tcpAt hd' + 20) = hd.drop (tcpAt hd + 20) :=
      congrArg HeaderView.options h.header.view
    have hview' : tcpAt hd' = tcpAt hd := by
      rw [← hat', h.data, h.header.room.tcpAt_append]
    have hnew : tcpOptions n.data = hd.drop (tcpAt hd + 20) ++ cxtOption := by
      rw [hview'] at hview
      rw [tcpOptions, slice, hat', hdoff', h.data,
        List.drop_append_of_le_length (by have := h.header.length_eq; omega), hview,
        ← List.append_assoc]
      exact List.take_left' (by rw [List.length_append, hold, hopt]; omega)
    have horig : tcpOptions (hd ++ pay) = hd.drop (tcpAt hd + 20) := by
      rw [tcpOptions, slice, hroom.tcpAt_append, hoff, List.drop_append_of_le_length (by omega)]
      exact List.take_left' hold
    rw [hnew, horig]

/-- The size of the payload as `parse_tx_skb` computes it. -/
theorem SplitsInto.payloadSize
    {skb : Skb}
    (h : SplitsInto skb hd pay) :
    (((ipTotLen skb.data : Int) - 4 * ipIhl skb.data - 4 * tcpDoff skb.data) %
      4294967296).toNat = pay.length := by
  obtain ⟨hihl, htot, _, hdoff⟩ := h.room.append_fields pay
  have hsize : 4 * ipIhl hd + 4 * tcpDoff hd = hd.length := h.start
  have htotLt : ipTotLen hd < 65536 := be16_lt _ _
  have hlen := h.totLen
  rw [h.data, hihl, htot, hdoff]
  omega

/-- The parts of the payload that get a packet of their own: offset and length. -/
def payloadParts (d : Bytes) : List (Nat × Nat) :=
  let psize := (tcpPayload d).length
  if ipTotLen d + cxtHeadLen > 1500 then [(0, psize / 2), (psize / 2, psize - psize / 2)]
  else [(0, psize)]

/-- The packet for a part of the payload. -/
def packetFor (ipFastCsum : Bytes → Nat) (hd pay : Bytes) (part : Nat × Nat) : Bytes :=
  copyHeader ipFastCsum hd part.1 part.2 ++ (cxtOption ++ slice pay part.1 part.2)

/-- A packet is only created when the copy was made and has room for the option. -/
theorem tail_of_createCxtSkb
    {ipFastCsum : Bytes → Nat} {fresh : Option Bytes} {skb n : Skb} {offset len : Int}
    (h : createCxtSkb ipFastCsum fresh skb offset len = .skb n) :
    ∃ tail, fresh = some tail ∧ cxtHeadLen ≤ tail.length := by
  cases fresh with
  | none =>
      cases h
  | some tail =>
      refine ⟨tail, rfl, ?_⟩
      by_contra hshort
      rw [createCxtSkb, skbPut, if_neg hshort] at h
      cases h

section Sent

variable {ipFastCsum : Bytes → Nat} {fresh₁ fresh₂ : Option Bytes} {skb : Skb} {sent : List Skb}

/-- With room for the option in both copies, packets are sent. -/
theorem exists_sent
    (ipFastCsum : Bytes → Nat)
    {tail₁ tail₂ : Bytes}
    (hwell : WellFormed skb.data)
    (hroom : 4 * tcpDoff skb.data + cxtHeadLen ≤ 60)
    (hexempt : isExempt skb = false)
    (htail₁ : cxtHeadLen ≤ tail₁.length)
    (htail₂ : cxtHeadLen ≤ tail₂.length) :
    ∃ sent, parseTxSkb ipFastCsum (some tail₁) (some tail₂) skb = .stolen sent := by
  obtain ⟨hd, hsplit⟩ := hwell.exists_splitsInto hroom
  generalize tcpPayload skb.data = pay at hsplit
  have hlen := hsplit.totLen
  have htotLt : ipTotLen hd < 65536 := be16_lt _ _
  have hsigned : ∀ m, m ≤ pay.length → toInt32 m = m := by
    intro m hm
    rw [toInt32, if_pos (by omega)]
  rw [parseTxSkb, if_neg (by rw [hexempt]; exact Bool.false_ne_true), hsplit.payloadSize]
  simp only [if_neg (show ¬ 60 - 4 * tcpDoff skb.data < cxtHeadLen by omega)]
  rw [hsigned _ (by omega), hsigned _ (by omega), hsigned _ (by omega), ← Nat.cast_zero]
  split
  · rename_i hlong
    have htot : ipTotLen skb.data = ipTotLen hd := by
      rw [hsplit.data, (hsplit.room.append_fields _).2.1]
    have hsize : 4 * ipIhl hd + 4 * tcpDoff hd = hd.length := hsplit.start
    have hdoff := hsplit.doff
    have hihl : ipIhl hd < 16 := Nat.mod_lt _ (by omega)
    have hopt : cxtHeadLen = 16 := rfl
    obtain ⟨n₁, hn₁, _⟩ := hsplit.exists_createCxtSkb_eq ipFastCsum htail₁ 0 (pay.length / 2)
      (by omega) (by omega)
    obtain ⟨n₂, hn₂, _⟩ := hsplit.exists_createCxtSkb_eq ipFastCsum htail₂ (pay.length / 2)
      (pay.length - pay.length / 2) (by omega) (by omega)
    rw [hn₁, hn₂]
    exact ⟨[n₁, n₂], rfl⟩
  · obtain ⟨n, hn, _⟩ := hsplit.exists_createCxtSkb_eq ipFastCsum htail₁ 0 pay.length
      (by omega) (by omega)
    rw [hn]
    exact ⟨[n], rfl⟩

/-- The bytes of a packet that was created for a part of the payload. -/
theorem SplitsInto.data_of_createCxtSkb
    (hsplit : SplitsInto skb hd pay)
    {fresh : Option Bytes} {n : Skb} {offset len : Nat}
    (hpart : offset + len ≤ pay.length)
    (hempty : len = 0 → offset = 0)
    (h : createCxtSkb ipFastCsum fresh skb (toInt32 offset) (toInt32 len) = .skb n) :
    n.data = packetFor ipFastCsum hd pay (offset, len) := by
  have htot : ipTotLen hd < 65536 := be16_lt _ _
  have hlen := hsplit.totLen
  have hsigned : ∀ m, m ≤ pay.length → toInt32 m = m := by
    intro m hm
    rw [toInt32, if_pos (by omega)]
  rw [hsigned _ (by omega), hsigned _ (by omega)] at h
  obtain ⟨tail, rfl, htail⟩ := tail_of_createCxtSkb h
  obtain ⟨n', hn', hdata⟩ :=
    hsplit.exists_createCxtSkb_eq ipFastCsum htail offset len hpart hempty
  rw [hn'] at h
  cases h
  exact hdata

/-- What is sent for a packet, byte for byte. -/
theorem parseTxSkb_stolen
    (hwell : WellFormed skb.data)
    (h : parseTxSkb ipFastCsum fresh₁ fresh₂ skb = .stolen sent) :
    ∃ hd, SplitsInto skb hd (tcpPayload skb.data) ∧
      sent.map Skb.data =
        (payloadParts skb.data).map (packetFor ipFastCsum hd (tcpPayload skb.data)) := by
  rw [parseTxSkb] at h
  split at h
  · cases h
  · dsimp only at h
    split at h
    · cases h
    · rename_i hroom
      have hdoffLt : tcpDoff skb.data ≤ 15 := by
        have := byteAt_lt skb.data (tcpAt skb.data + 12)
        rw [tcpDoff]
        omega
      obtain ⟨hd, hsplit⟩ := hwell.exists_splitsInto (by omega)
      refine ⟨hd, hsplit, ?_⟩
      rw [hsplit.payloadSize] at h
      rw [payloadParts]
      have hsize : 4 * ipIhl hd + 4 * tcpDoff hd = hd.length := hsplit.start
      have hdoff := hsplit.doff
      have hihl : ipIhl hd < 16 := Nat.mod_lt _ (by omega)
      split at h
      · rename_i hlong
        split at h
        · rename_i n₁ n₂ hn₁ hn₂
          cases h
          have htot : ipTotLen skb.data = ipTotLen hd := by
            rw [hsplit.data, (hsplit.room.append_fields _).2.1]
          have hlen := hsplit.totLen
          have hopt : cxtHeadLen = 16 := rfl
          have hzero : toInt32 0 = 0 := rfl
          rw [← hzero] at hn₁
          simp only [if_pos hlong, List.map_cons, List.map_nil]
          rw [hsplit.data_of_createCxtSkb (by omega) (by omega) hn₁,
            hsplit.data_of_createCxtSkb (by omega) (by omega) hn₂]
        · cases h
      · rename_i hshort
        split at h
        · rename_i n hn
          cases h
          have hzero : toInt32 0 = 0 := rfl
          rw [← hzero] at hn
          simp only [if_neg hshort, List.map_cons, List.map_nil]
          rw [hsplit.data_of_createCxtSkb (by omega) (by omega) hn]
        · cases h

/-- The packet for a part is a created packet. -/
theorem SplitsInto.copiedFrom_packetFor
    (hsplit : SplitsInto skb hd pay)
    (ipFastCsum : Bytes → Nat)
    {part : Nat × Nat}
    (hfits : hd.length + cxtHeadLen + part.2 < 65536) :
    CopiedFrom hd pay part.1 part.2 (copyHeader ipFastCsum hd part.1 part.2)
      { skb with data := packetFor ipFastCsum hd pay part } :=
  ⟨rfl, hsplit.patched_copyHeader ipFastCsum part.1 hfits⟩

/-- The fields and the payload of the packet for a part. -/
theorem SplitsInto.packetFor_fields
    (hsplit : SplitsInto skb hd pay)
    (ipFastCsum : Bytes → Nat)
    {part : Nat × Nat}
    (hfits : hd.length + cxtHeadLen + part.2 < 65536) :
    ipIhl (packetFor ipFastCsum hd pay part) = ipIhl hd ∧
      ipTotLen (packetFor ipFastCsum hd pay part) = hd.length + cxtHeadLen + part.2 ∧
      tcpSeq (packetFor ipFastCsum hd pay part) = (tcpSeq hd + part.1) % 4294967296 ∧
      tcpDoff (packetFor ipFastCsum hd pay part) = tcpDoff hd + 4 ∧
      tcpPayload (packetFor ipFastCsum hd pay part) = slice pay part.1 part.2 := by
  exact (hsplit.copiedFrom_packetFor ipFastCsum hfits).fields hsplit.start

/-- The parts are inside of the payload, and a packet for one of them has a total length. -/
theorem SplitsInto.mem_payloadParts
    (hsplit : SplitsInto skb hd (tcpPayload skb.data))
    {part : Nat × Nat}
    (hpart : part ∈ payloadParts skb.data) :
    part.1 + part.2 ≤ (tcpPayload skb.data).length ∧
      hd.length + cxtHeadLen + part.2 < 65536 := by
  have htot : ipTotLen hd < 65536 := be16_lt _ _
  have hsame : ipTotLen skb.data = ipTotLen hd := by
    rw [hsplit.data, (hsplit.room.append_fields _).2.1]
  have hlen := hsplit.totLen
  have hsize : 4 * ipIhl hd + 4 * tcpDoff hd = hd.length := hsplit.start
  have hdoff := hsplit.doff
  have hihl : ipIhl hd < 16 := Nat.mod_lt _ (by omega)
  have hopt : cxtHeadLen = 16 := rfl
  rw [payloadParts] at hpart
  split at hpart
  · simp only [List.mem_cons, List.not_mem_nil, or_false] at hpart
    rcases hpart with rfl | rfl
    · dsimp only
      omega
    · dsimp only
      omega
  · simp only [List.mem_cons, List.not_mem_nil, or_false] at hpart
    subst hpart
    dsimp only
    omega

/-- The sent packets are the packets for the parts. -/
theorem forall_sent_iff
    {parts : List (Nat × Nat)}
    (hsent : sent.map Skb.data = parts.map (packetFor ipFastCsum hd pay))
    (P : Bytes → Prop) :
    (∀ n, n ∈ sent → P n.data) ↔ ∀ part, part ∈ parts → P (packetFor ipFastCsum hd pay part) := by
  rw [← List.forall_mem_map, hsent, List.forall_mem_map]

end Sent

/-- The packets sent for a packet: one, or two whose sequence numbers follow its payload. -/
def SequenceFollows (d : Bytes) (sent : List Skb) : Prop :=
  (∃ n, sent = [n] ∧ tcpSeq n.data = tcpSeq d) ∨
    ∃ n₁ n₂, sent = [n₁, n₂] ∧ tcpSeq n₁.data = tcpSeq d ∧
      tcpSeq n₂.data = (tcpSeq d + (tcpPayload n₁.data).length) % 4294967296

/-- The parts make up the payload. -/
theorem flatten_payloadParts
    (d : Bytes) :
    ((payloadParts d).map fun part => slice (tcpPayload d) part.1 part.2).flatten =
      tcpPayload d := by
  rw [payloadParts]
  split
  · simp only [List.map_cons, List.map_nil, List.flatten_cons, List.flatten_nil, List.append_nil]
    exact slice_append_slice _ _
  · simp only [List.map_cons, List.map_nil, List.flatten_cons, List.flatten_nil, List.append_nil]
    exact slice_whole _

/-- The sequence numbers of the packets for the parts follow the payload. -/
theorem sequenceFollows_of_parts
    {ipFastCsum : Bytes → Nat} {d : Bytes} {sent : List Skb}
    (hdata : sent.map Skb.data =
      (payloadParts d).map (packetFor ipFastCsum hd (tcpPayload d)))
    (hfields : ∀ part, part ∈ payloadParts d →
      tcpSeq (packetFor ipFastCsum hd (tcpPayload d) part) =
          (tcpSeq d + part.1) % 4294967296 ∧
        tcpPayload (packetFor ipFastCsum hd (tcpPayload d) part) =
          slice (tcpPayload d) part.1 part.2) :
    SequenceFollows d sent := by
  have hseqLt : tcpSeq d < 4294967296 := be32_lt _ _
  rw [payloadParts] at hdata hfields
  split at hdata
  · rename_i hlong
    rw [if_pos hlong] at hfields
    obtain ⟨n₁, rest, rfl, hn₁, hrest⟩ := List.map_eq_cons_iff.mp hdata
    obtain ⟨n₂, rest, rfl, hn₂, hrest⟩ := List.map_eq_cons_iff.mp hrest
    cases List.map_eq_nil_iff.mp hrest
    obtain ⟨hseq₁, hpay₁⟩ := hfields _ List.mem_cons_self
    obtain ⟨hseq₂, _⟩ := hfields _ (List.mem_cons_of_mem _ List.mem_cons_self)
    rw [← hn₁] at hseq₁ hpay₁
    rw [← hn₂] at hseq₂
    refine Or.inr ⟨n₁, n₂, rfl, ?_, ?_⟩
    · rw [hseq₁, Nat.add_zero, Nat.mod_eq_of_lt hseqLt]
    · rw [hseq₂, hpay₁, length_slice (by omega)]
  · rename_i hshort
    rw [if_neg hshort] at hfields
    obtain ⟨n, rest, rfl, hn, hrest⟩ := List.map_eq_cons_iff.mp hdata
    cases List.map_eq_nil_iff.mp hrest
    obtain ⟨hseq, _⟩ := hfields _ List.mem_cons_self
    rw [← hn] at hseq
    refine Or.inl ⟨n, rfl, ?_⟩
    rw [hseq, Nat.add_zero, Nat.mod_eq_of_lt hseqLt]

/-- A packet of the application is let through unchanged, or the packets sent in its place
carry its payload, in order, and the option. -/
theorem optionInsertion_preserves_payload
    (ipFastCsum : Bytes → Nat)
    {skb : Skb} {tail₁ tail₂ : Bytes}
    (hwell : WellFormed skb.data)
    (hroom : 4 * tcpDoff skb.data + cxtHeadLen ≤ 60)
    (htail : cxtHeadLen ≤ skb.tail.length)
    (htail₁ : skb.tail.length ≤ tail₁.length)
    (htail₂ : skb.tail.length ≤ tail₂.length) :
    (isExempt skb = true ∧
        parseTxSkb ipFastCsum (some tail₁) (some tail₂) skb = .accept) ∨
      ∃ sent, parseTxSkb ipFastCsum (some tail₁) (some tail₂) skb = .stolen sent ∧
        (sent.map fun n => tcpPayload n.data).flatten = tcpPayload skb.data ∧
        SequenceFollows skb.data sent ∧ ∀ n ∈ sent, CarriesOption skb.data n.data := by
  cases hexempt : isExempt skb with
  | true =>
      exact Or.inl ⟨rfl, by rw [parseTxSkb, if_pos hexempt]⟩
  | false =>
      obtain ⟨sent, hsent⟩ := exists_sent ipFastCsum hwell hroom hexempt (htail.trans htail₁)
        (htail.trans htail₂)
      obtain ⟨hd, hsplit, hdata⟩ := parseTxSkb_stolen hwell hsent
      have hfields := fun part (hpart : part ∈ payloadParts skb.data) =>
        hsplit.packetFor_fields ipFastCsum (hsplit.mem_payloadParts hpart).2
      refine Or.inr ⟨sent, hsent, ?_, ?_, ?_⟩
      · have hmap : (sent.map fun n => tcpPayload n.data) =
            (payloadParts skb.data).map
              fun part => slice (tcpPayload skb.data) part.1 part.2 := by
          have hpays : (sent.map Skb.data).map tcpPayload = sent.map fun n => tcpPayload n.data :=
            List.map_map
          rw [← hpays, hdata, List.map_map]
          exact List.map_congr_left fun part hpart => (hfields part hpart).2.2.2.2
        rw [hmap, flatten_payloadParts]
      · have hseq : tcpSeq hd = tcpSeq skb.data := by
          rw [hsplit.data, (hsplit.room.append_fields _).2.2.1]
        exact sequenceFollows_of_parts hdata fun part hpart => by
          rw [← hseq]
          exact ⟨(hfields part hpart).2.2.1, (hfields part hpart).2.2.2.2⟩
      · rw [forall_sent_iff hdata (CarriesOption skb.data)]
        intro part hpart
        obtain ⟨hinside, hfits⟩ := hsplit.mem_payloadParts hpart
        exact (hsplit.copiedFrom_packetFor ipFastCsum hfits).carriesOption hsplit hinside

/-- A packet of 1485 bytes, one too long for the option, with an odd payload. -/
def longPacket : Skb :=
  { ethSource := (0x0c, 0x84)
    data :=
      [0x45, 0x00, 0x05, 0xcd, 0x12, 0x34, 0x40, 0x00, 0x40, 0x06, 0x00, 0x00,
        0x0a, 0x00, 0x00, 0x01, 0x0a, 0x00, 0x00, 0x02,
        0xc0, 0x00, 0x00, 0x15, 0xff, 0xff, 0xff, 0x00, 0x00, 0x00, 0x00, 0x01,
        0x50, 0x10, 0x10, 0x00, 0x00, 0x00, 0x00, 0x00] ++ List.replicate 1445 0x61
    tail := List.replicate 16 0x00 }

theorem longPacket_wellFormed : WellFormed longPacket.data :=
  ⟨by decide, by decide, by decide, by decide +kernel⟩

theorem longPacket_payload_preserved :
    WellFormed longPacket.data ∧
      ∃ sent, parseTxSkb (fun _ => 0) (some longPacket.tail) (some longPacket.tail) longPacket =
          .stolen sent ∧
        (sent.map fun n => tcpPayload n.data).flatten = tcpPayload longPacket.data ∧
        SequenceFollows longPacket.data sent ∧
        ∀ n ∈ sent, CarriesOption longPacket.data n.data := by
  have hexempt : isExempt longPacket = false := by
    decide
  have hpreserved := optionInsertion_preserves_payload (fun _ => 0) longPacket_wellFormed
    (by decide) (by decide) (Nat.le_refl longPacket.tail.length)
    (Nat.le_refl longPacket.tail.length)
  refine ⟨longPacket_wellFormed, hpreserved.resolve_left ?_⟩
  rw [hexempt]
  exact fun h => Bool.false_ne_true h.1

end Transmit

end OptionInsertion

end Poise
