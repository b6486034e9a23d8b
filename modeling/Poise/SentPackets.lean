import Mathlib.Tactic
import Poise.OptionInsertion

/-!
# Poise client: sequence space and size of the sent packets

Every packet sent for a packet of the application is a patched copy of its header,
the option, and a part of its payload.

* The payload is cut in two and not into as many parts as are needed, so large
  packets leave with more than 1500 bytes.
* The copies keep all control bits, so a packet with SYN or FIN that is sent as two
  packets occupies sequence numbers it did not occupy before.
-/

namespace Poise

open Foundations

section SentPackets

/--
For every packet of the application that is sent with the option: all packets sent
in its place have at most 1500 bytes if and only if its total length and the
length of its headers together are at most 2968.
-/
theorem sentPackets_fit_iff
    {ipFastCsum : Bytes → Nat} {fresh₁ fresh₂ : Option Bytes} {skb : Skb} {sent : List Skb}
    (hwell : WellFormed skb.data)
    (hsent : parseTxSkb ipFastCsum fresh₁ fresh₂ skb = .stolen sent) :
    (∀ n, n ∈ sent → ipTotLen n.data ≤ 1500) ↔
      ipTotLen skb.data + (4 * ipIhl skb.data + 4 * tcpDoff skb.data) ≤ 2968 := by
  obtain ⟨hd, hsplit, hdata⟩ := parseTxSkb_stolen hwell hsent
  obtain ⟨hihl, htot, _, hdoff⟩ := hsplit.room.append_fields (tcpPayload skb.data)
  rw [← hsplit.data] at hihl htot hdoff
  have hsize : 4 * ipIhl hd + 4 * tcpDoff hd = hd.length := hsplit.start
  have hdoffLe := hsplit.doff
  have hihlLt : ipIhl hd < 16 := Nat.mod_lt _ (by omega)
  have hlen := hsplit.totLen
  have hopt : cxtHeadLen = 16 := rfl
  have hfit : ∀ part, part ∈ payloadParts skb.data →
      (ipTotLen (packetFor ipFastCsum hd (tcpPayload skb.data) part) ≤ 1500 ↔
        hd.length + cxtHeadLen + part.2 ≤ 1500) := by
    intro part hpart
    rw [(hsplit.packetFor_fields ipFastCsum (hsplit.mem_payloadParts hpart).2).2.1]
  rw [forall_sent_iff hdata (fun d => ipTotLen d ≤ 1500), forall₂_congr hfit, payloadParts]
  split
  · simp only [List.mem_cons, List.not_mem_nil, or_false, forall_eq_or_imp, forall_eq]
    omega
  · simp only [List.mem_cons, List.not_mem_nil, or_false, forall_eq]
    omega

/-- The theorem on a packet that is sent as two packets. -/
theorem longPacket_parts_fit :
    ∃ sent, parseTxSkb (fun _ => 0) (some longPacket.tail) (some longPacket.tail) longPacket =
        .stolen sent ∧
      ∀ n, n ∈ sent → ipTotLen n.data ≤ 1500 := by
  obtain ⟨sent, hsent⟩ := exists_sent (fun _ => 0) longPacket_wellFormed (by decide) (by decide)
    (Nat.le_refl longPacket.tail.length) (Nat.le_refl longPacket.tail.length)
  exact ⟨sent, hsent, (sentPackets_fit_iff longPacket_wellFormed hsent).mpr (by decide)⟩

/-- A header without options, with the given length of the packet and control bits. -/
def plainHeader (totLen : Nat) (flags : BitVec 8) : Bytes :=
  [0x45, 0x00] ++ be16Bytes totLen ++
    [0x12, 0x34, 0x40, 0x00, 0x40, 0x06, 0x00, 0x00,
      0x0a, 0x00, 0x00, 0x01, 0x0a, 0x00, 0x00, 0x02,
      0xc0, 0x00, 0x00, 0x15, 0x00, 0x00, 0x01, 0x00, 0x00, 0x00, 0x00, 0x01,
      0x50, flags, 0x10, 0x00, 0x00, 0x00, 0x00, 0x00]

/-- A packet without options, with the given control bits and payload. -/
def plainPacket (flags : BitVec 8) (pay : Bytes) : Skb :=
  { ethSource := (0x0c, 0x84)
    data := plainHeader (40 + pay.length) flags ++ pay
    tail := List.replicate 16 0x00 }

theorem length_plainHeader
    (totLen : Nat)
    (flags : BitVec 8) :
    (plainHeader totLen flags).length = 40 :=
  rfl

theorem plainPacket_fields
    (flags : BitVec 8)
    (pay : Bytes) :
    ipIhl (plainPacket flags pay).data = 5 ∧ tcpDoff (plainPacket flags pay).data = 5 ∧
      tcpPayload (plainPacket flags pay).data = pay ∧
      isExempt (plainPacket flags pay) = false := by
  have hfirst : byteAt (plainPacket flags pay).data 0 = 0x45 := rfl
  have hwords : byteAt (plainPacket flags pay).data 32 = 0x50 := rfl
  have hprotocol : byteAt (plainPacket flags pay).data 9 = 6 := rfl
  have hid : ipId (plainPacket flags pay).data = 0x1234 := by
    have hhigh : byteAt (plainPacket flags pay).data 4 = 0x12 := rfl
    have hlow : byteAt (plainPacket flags pay).data 5 = 0x34 := rfl
    rw [ipId, be16, hhigh, hlow]
  have hihl : ipIhl (plainPacket flags pay).data = 5 := by
    rw [ipIhl, hfirst]
  have hdoff : tcpDoff (plainPacket flags pay).data = 5 := by
    rw [tcpDoff, tcpAt, hihl, hwords]
  refine ⟨hihl, hdoff, ?_, ?_⟩
  · rw [tcpPayload, payloadAt, tcpAt, hihl, hdoff, plainPacket]
    exact List.drop_left' (length_plainHeader _ _)
  · rw [isExempt, ipProtocol, hprotocol, hid]
    rfl

theorem plainPacket_totLen
    (flags : BitVec 8)
    {pay : Bytes}
    (hpay : 40 + pay.length < 65536) :
    ipTotLen (plainPacket flags pay).data = 40 + pay.length := by
  have hbytes : ipTotLen (plainPacket flags pay).data =
      (BitVec.ofNat 8 ((40 + pay.length) / 256)).toNat * 256 +
        (BitVec.ofNat 8 (40 + pay.length)).toNat := rfl
  rw [hbytes, BitVec.toNat_ofNat, BitVec.toNat_ofNat]
  omega

theorem plainPacket_wellFormed
    (flags : BitVec 8)
    {pay : Bytes}
    (hpay : 40 + pay.length < 65536) :
    WellFormed (plainPacket flags pay).data := by
  obtain ⟨hihl, hdoff, _, _⟩ := plainPacket_fields flags pay
  have htot := plainPacket_totLen flags hpay
  have hlength : (plainPacket flags pay).data.length = 40 + pay.length := by
    rw [plainPacket, List.length_append]
    rfl
  constructor
  case ihl =>
    rw [hihl]
  case doff =>
    rw [hdoff]
  case payload =>
    rw [payloadAt, tcpAt, hihl, hdoff, htot]
    omega
  case length =>
    rw [htot, hlength]

/-- Packets without options are sent when the copies have the tail room of the original. -/
theorem exists_sent_plainPacket
    (ipFastCsum : Bytes → Nat)
    (flags : BitVec 8)
    {pay : Bytes}
    (hpay : 40 + pay.length < 65536) :
    ∃ sent, parseTxSkb ipFastCsum (some (plainPacket flags pay).tail)
      (some (plainPacket flags pay).tail) (plainPacket flags pay) = .stolen sent := by
  obtain ⟨_, hdoff, _, hexempt⟩ := plainPacket_fields flags pay
  refine exists_sent ipFastCsum (plainPacket_wellFormed flags hpay) ?_ hexempt ?_ ?_
  · rw [hdoff]
    decide
  · exact Nat.le_of_eq rfl
  · exact Nat.le_of_eq rfl

/-- The header of a packet without options has 40 bytes. -/
theorem SplitsInto.length_plainPacket
    {flags : BitVec 8} {pay hd : Bytes}
    (hsplit : SplitsInto (plainPacket flags pay) hd (tcpPayload (plainPacket flags pay).data))
    (hpay : 40 + pay.length < 65536) :
    hd.length = 40 := by
  have htot := hsplit.totLen
  rw [← (hsplit.room.append_fields (tcpPayload (plainPacket flags pay).data)).2.1, ← hsplit.data,
    plainPacket_totLen flags hpay, (plainPacket_fields flags pay).2.2.1] at htot
  omega

/-- A packet of 2930 bytes is sent as two packets of 1501 bytes. -/
theorem plainPacket_parts_too_long :
    ∃ sent, parseTxSkb (fun _ => 0) (some (List.replicate 16 0)) (some (List.replicate 16 0))
        (plainPacket 0x10 (List.replicate 2890 0x61)) = .stolen sent ∧
      ¬ ∀ n, n ∈ sent → ipTotLen n.data ≤ 1500 := by
  have hlen : (List.replicate 2890 (0x61 : BitVec 8)).length = 2890 := List.length_replicate
  have hsize : 40 + (List.replicate 2890 (0x61 : BitVec 8)).length < 65536 := by
    rw [hlen]
    decide
  generalize List.replicate 2890 (0x61 : BitVec 8) = pay at hlen hsize
  obtain ⟨sent, hsent⟩ := exists_sent_plainPacket (fun _ => 0) 0x10 hsize
  obtain ⟨hd, hsplit, hdata⟩ := parseTxSkb_stolen (plainPacket_wellFormed 0x10 hsize) hsent
  refine ⟨sent, hsent, fun hall => ?_⟩
  rw [forall_sent_iff hdata (fun d => ipTotLen d ≤ 1500)] at hall
  have hpart : (1445, 1445) ∈ payloadParts (plainPacket 0x10 pay).data := by
    rw [payloadParts, plainPacket_totLen 0x10 hsize, (plainPacket_fields 0x10 pay).2.2.1, hlen]
    decide
  have hlong := hall _ hpart
  rw [(hsplit.packetFor_fields (fun _ => 0) (hsplit.mem_payloadParts hpart).2).2.1,
    hsplit.length_plainPacket hsize] at hlong
  exact absurd hlong (by decide)

/-- The bytes of the header that no store meets. -/
theorem HeaderRoom.getElem?_copyHeader
    {hd : Bytes}
    (h : HeaderRoom hd)
    (ipFastCsum : Bytes → Nat)
    (offset len : Nat)
    {j : Nat}
    (hlen : j < 2 ∨ 4 ≤ j)
    (hcheck : j < 10 ∨ 12 ≤ j)
    (hseq : j < tcpAt hd + 4 ∨ tcpAt hd + 8 ≤ j)
    (hdoff : j ≠ tcpAt hd + 12) :
    (copyHeader ipFastCsum hd offset len)[j]? = hd[j]? := by
  have htwo : ∀ v, (be16Bytes v).length = 2 := fun _ => rfl
  have hstart : tcpAt (seqHeader hd offset) = tcpAt hd := by
    have hview := congrArg HeaderView.ihl (h.patched_seqHeader offset).view
    exact congrArg (4 * ·) hview
  rw [copyHeader, setCheck, getElem?_overwrite_of_outside (by rw [htwo]; omega),
    getElem?_overwrite_of_outside (by rw [htwo]; omega), setTotLen,
    getElem?_overwrite_of_outside (by rw [htwo]; omega), setDoff, hstart,
    getElem?_overwrite_of_outside (by rw [List.length_singleton]; omega), seqHeader]
  split
  · have hfour : ∀ v, (be32Bytes v).length = 4 := fun _ => rfl
    rw [setSeq, getElem?_overwrite_of_outside (by rw [hfour]; omega)]
  · rfl

/-- What a packet puts at a sequence number. -/
inductive SeqMark where
  | syn
  | fin
  | byte (b : BitVec 8)
deriving DecidableEq, Repr

/-- The control bits of the TCP header. -/
def tcpFlags (d : Bytes) : Nat :=
  byteAt d (tcpAt d + 13)

def hasFin (d : Bytes) : Bool :=
  tcpFlags d % 2 == 1

def hasSyn (d : Bytes) : Bool :=
  tcpFlags d / 2 % 2 == 1

/-- Bytes at consecutive sequence numbers. -/
def bytesFrom (seq : Nat) (pay : Bytes) : List (Nat × SeqMark) :=
  pay.zipIdx.map fun q => ((seq + q.2) % 4294967296, .byte q.1)

/-- The sequence numbers of a packet: SYN in front of the payload, FIN behind it. -/
def marks (syn fin : Bool) (seq : Nat) (pay : Bytes) : List (Nat × SeqMark) :=
  (if syn then [(seq % 4294967296, .syn)] else []) ++
    bytesFrom (seq + syn.toNat) pay ++
    if fin then [((seq + syn.toNat + pay.length) % 4294967296, .fin)] else []

/-- What a packet occupies of the sequence space. -/
def occupied (d : Bytes) : List (Nat × SeqMark) :=
  marks (hasSyn d) (hasFin d) (tcpSeq d) (tcpPayload d)

theorem bytesFrom_mod
    (seq : Nat)
    (pay : Bytes) :
    bytesFrom (seq % 4294967296) pay = bytesFrom seq pay := by
  simp only [bytesFrom, Nat.mod_add_mod]

theorem bytesFrom_append
    (seq : Nat)
    (x y : Bytes) :
    bytesFrom seq (x ++ y) = bytesFrom seq x ++ bytesFrom (seq + x.length) y := by
  rw [bytesFrom, List.zipIdx_append, List.map_append, bytesFrom, bytesFrom, Nat.zero_add]
  refine congrArg _ ?_
  rw [List.zipIdx_eq_map_add, List.map_map]
  refine List.map_congr_left fun q _ => ?_
  simp only [Function.comp_apply, Nat.add_assoc]

/-- The marks depend on the first sequence number only modulo its width. -/
theorem marks_mod
    (syn fin : Bool)
    (seq : Nat)
    (pay : Bytes) :
    marks syn fin (seq % 4294967296) pay = marks syn fin seq pay := by
  have hfirst : bytesFrom (seq % 4294967296 + syn.toNat) pay = bytesFrom (seq + syn.toNat) pay := by
    rw [← bytesFrom_mod, Nat.mod_add_mod, bytesFrom_mod]
  have hlast : (seq % 4294967296 + syn.toNat + pay.length) % 4294967296 =
      (seq + syn.toNat + pay.length) % 4294967296 := by
    omega
  rw [marks, marks, hfirst, hlast, Nat.mod_mod]

theorem syn_mem_marks
    {syn fin : Bool} {seq p : Nat} {pay : Bytes} :
    (p, SeqMark.syn) ∈ marks syn fin seq pay ↔ syn = true ∧ p = seq % 4294967296 := by
  cases syn <;> cases fin <;> simp [marks, bytesFrom]

theorem fin_mem_marks
    {syn fin : Bool} {seq p : Nat} {pay : Bytes} :
    (p, SeqMark.fin) ∈ marks syn fin seq pay ↔
      fin = true ∧ p = (seq + syn.toNat + pay.length) % 4294967296 := by
  cases syn <;> cases fin <;> simp [marks, bytesFrom]

/-- Copies of both control bits on two parts of a payload occupy what the whole occupied exactly
when no control bit is set. -/
theorem marks_split_iff
    (syn fin : Bool)
    (seq : Nat)
    {pay : Bytes} {m : Nat}
    (hpos : 0 < m)
    (hm : m < pay.length)
    (hlen : pay.length < 4294967296) :
    (∀ x, (x ∈ marks syn fin seq (slice pay 0 m) ∨
        x ∈ marks syn fin (seq + m) (slice pay m (pay.length - m))) ↔
      x ∈ marks syn fin seq pay) ↔ syn = false ∧ fin = false := by
  have hfront : (slice pay 0 m).length = m := length_slice (by omega)
  constructor
  · intro hsame
    constructor
    · -- SYN of the second packet
      by_contra hsyn
      rw [Bool.not_eq_false] at hsyn
      have hmem := (hsame ((seq + m) % 4294967296, .syn)).mp
        (Or.inr (syn_mem_marks.mpr ⟨hsyn, rfl⟩))
      have hpos := (syn_mem_marks.mp hmem).2
      omega
    · -- FIN of the first packet
      by_contra hfin
      rw [Bool.not_eq_false] at hfin
      have hmem := (hsame ((seq + syn.toNat + m) % 4294967296, .fin)).mp
        (Or.inl (fin_mem_marks.mpr ⟨hfin, by rw [hfront]⟩))
      have hend := (fin_mem_marks.mp hmem).2
      omega
  · rintro ⟨rfl, rfl⟩ x
    have hwhole : bytesFrom seq pay =
        bytesFrom seq (slice pay 0 m) ++ bytesFrom (seq + m) (slice pay m (pay.length - m)) := by
      have happend := bytesFrom_append seq (slice pay 0 m) (slice pay m (pay.length - m))
      rw [slice_append_slice, hfront] at happend
      exact happend
    simp only [marks, Bool.false_eq_true, if_false, List.nil_append, List.append_nil,
      Bool.toNat_false, Nat.add_zero]
    rw [hwhole, List.mem_append]

/-- What the packet for a part occupies: the control bits are those of the original. -/
theorem SplitsInto.occupied_packetFor
    {skb : Skb} {hd pay : Bytes}
    (hsplit : SplitsInto skb hd pay)
    (ipFastCsum : Bytes → Nat)
    {part : Nat × Nat}
    (hfits : hd.length + cxtHeadLen + part.2 < 65536) :
    occupied (packetFor ipFastCsum hd pay part) =
      marks (hasSyn skb.data) (hasFin skb.data) (tcpSeq skb.data + part.1)
        (slice pay part.1 part.2) := by
  obtain ⟨hihl, _, hseq, _, hpay⟩ := hsplit.packetFor_fields ipFastCsum hfits
  have hroom := hsplit.room
  have hip := hroom.ip
  have htcp := hroom.tcp
  have hat : tcpAt (packetFor ipFastCsum hd pay part) = tcpAt hd := congrArg (4 * ·) hihl
  have hlen := (hsplit.patched_copyHeader ipFastCsum part.1 hfits).length_eq
  have hflags : tcpFlags (packetFor ipFastCsum hd pay part) = tcpFlags skb.data := by
    have hkept := hroom.getElem?_copyHeader ipFastCsum part.1 part.2 (j := tcpAt hd + 13) (by omega)
      (by omega) (by omega) (by omega)
    rw [tcpFlags, hat, packetFor, byteAt_append_left _ (by omega), byteAt, hkept, tcpFlags,
      hsplit.data, hroom.tcpAt_append, byteAt_append_left _ (by omega), byteAt]
  have hseq' : tcpSeq hd = tcpSeq skb.data := by
    rw [hsplit.data, (hroom.append_fields pay).2.2.1]
  rw [occupied, hseq, hpay, hseq', marks_mod, hasSyn, hasFin, hflags]
  rfl

/--
For every packet of the application that is sent with the option: the packets sent
in its place put SYN, FIN and every payload byte at exactly the sequence numbers
where the packet has them, if and only if one packet is enough or neither SYN nor
FIN is set.
-/
theorem sequenceSpace_kept_iff
    {ipFastCsum : Bytes → Nat} {fresh₁ fresh₂ : Option Bytes} {skb : Skb} {sent : List Skb}
    (hwell : WellFormed skb.data)
    (hsent : parseTxSkb ipFastCsum fresh₁ fresh₂ skb = .stolen sent) :
    (∀ x, (∃ n, n ∈ sent ∧ x ∈ occupied n.data) ↔ x ∈ occupied skb.data) ↔
      ipTotLen skb.data + cxtHeadLen ≤ 1500 ∨
        (hasSyn skb.data = false ∧ hasFin skb.data = false) := by
  obtain ⟨hd, hsplit, hdata⟩ := parseTxSkb_stolen hwell hsent
  have hmem : ∀ x, (∃ n, n ∈ sent ∧ x ∈ occupied n.data) ↔
      ∃ part, part ∈ payloadParts skb.data ∧
        x ∈ marks (hasSyn skb.data) (hasFin skb.data) (tcpSeq skb.data + part.1)
          (slice (tcpPayload skb.data) part.1 part.2) := by
    intro x
    have hnot := not_congr (forall_sent_iff hdata (fun d => x ∉ occupied d))
    simp only [not_forall, Decidable.not_not, exists_prop] at hnot
    rw [hnot]
    refine exists_congr fun part => and_congr_right fun hpart => ?_
    rw [hsplit.occupied_packetFor ipFastCsum (hsplit.mem_payloadParts hpart).2]
  have hoccupied : occupied skb.data =
      marks (hasSyn skb.data) (hasFin skb.data) (tcpSeq skb.data) (tcpPayload skb.data) := rfl
  simp only [hmem, hoccupied]
  rw [payloadParts]
  have htot : ipTotLen skb.data = ipTotLen hd := by
    rw [hsplit.data, (hsplit.room.append_fields _).2.1]
  have htotLt : ipTotLen hd < 65536 := be16_lt _ _
  have hsize : 4 * ipIhl hd + 4 * tcpDoff hd = hd.length := hsplit.start
  have hdoff := hsplit.doff
  have hihl : ipIhl hd < 16 := Nat.mod_lt _ (by omega)
  have hlen := hsplit.totLen
  have hopt : cxtHeadLen = 16 := rfl
  split
  · rename_i hlong
    rw [or_iff_right (by omega)]
    simp only [List.mem_cons, List.not_mem_nil, or_false, exists_eq_or_imp, exists_eq_left,
      Nat.add_zero]
    exact marks_split_iff _ _ _ (by omega) (by omega) (by omega)
  · rename_i hshort
    refine iff_of_true (fun x => ?_) (Or.inl (by omega))
    simp only [List.mem_cons, List.not_mem_nil, or_false, exists_eq_left, Nat.add_zero, slice_whole]

/-- The theorem on a packet without SYN and FIN that is sent as two packets. -/
theorem longPacket_sequenceSpace_kept :
    ∃ sent, parseTxSkb (fun _ => 0) (some longPacket.tail) (some longPacket.tail) longPacket =
        .stolen sent ∧
      ∀ x, (∃ n, n ∈ sent ∧ x ∈ occupied n.data) ↔ x ∈ occupied longPacket.data := by
  obtain ⟨sent, hsent⟩ := exists_sent (fun _ => 0) longPacket_wellFormed (by decide) (by decide)
    (Nat.le_refl longPacket.tail.length) (Nat.le_refl longPacket.tail.length)
  exact ⟨sent, hsent,
    (sequenceSpace_kept_iff longPacket_wellFormed hsent).mpr (Or.inr (by decide))⟩

/-- A packet of 1485 bytes with FIN: the first of the two packets closes the connection early. -/
theorem plainPacket_fin_early :
    ∃ sent, parseTxSkb (fun _ => 0) (some (List.replicate 16 0)) (some (List.replicate 16 0))
        (plainPacket 0x11 (List.replicate 1445 0x61)) = .stolen sent ∧
      ∃ n, n ∈ sent ∧ (256 + 722, SeqMark.fin) ∈ occupied n.data ∧
        (256 + 722, SeqMark.fin) ∉
          occupied (plainPacket 0x11 (List.replicate 1445 0x61)).data := by
  have hlen : (List.replicate 1445 (0x61 : BitVec 8)).length = 1445 := List.length_replicate
  have hsize : 40 + (List.replicate 1445 (0x61 : BitVec 8)).length < 65536 := by
    rw [hlen]
    decide
  generalize List.replicate 1445 (0x61 : BitVec 8) = pay at hlen hsize
  obtain ⟨sent, hsent⟩ := exists_sent_plainPacket (fun _ => 0) 0x11 hsize
  obtain ⟨hd, hsplit, hdata⟩ := parseTxSkb_stolen (plainPacket_wellFormed 0x11 hsize) hsent
  have hflags : tcpFlags (plainPacket 0x11 pay).data = 0x11 := by
    rw [tcpFlags, tcpAt, (plainPacket_fields 0x11 pay).1]
    rfl
  have hseq : tcpSeq (plainPacket 0x11 pay).data = 256 := by
    have h₀ : byteAt (plainPacket 0x11 pay).data 24 = 0 := rfl
    have h₁ : byteAt (plainPacket 0x11 pay).data 25 = 0 := rfl
    have h₂ : byteAt (plainPacket 0x11 pay).data 26 = 1 := rfl
    have h₃ : byteAt (plainPacket 0x11 pay).data 27 = 0 := rfl
    rw [tcpSeq, tcpAt, (plainPacket_fields 0x11 pay).1, be32, be16, be16, h₀, h₁, h₂, h₃]
  have hpart : (0, 722) ∈ payloadParts (plainPacket 0x11 pay).data := by
    rw [payloadParts, plainPacket_totLen 0x11 hsize, (plainPacket_fields 0x11 pay).2.2.1, hlen]
    decide
  have hfirst : packetFor (fun _ => 0) hd (tcpPayload (plainPacket 0x11 pay).data) (0, 722) ∈
      sent.map Skb.data := by
    rw [hdata]
    exact List.mem_map_of_mem hpart
  obtain ⟨n, hn, hndata⟩ := List.mem_map.mp hfirst
  refine ⟨sent, hsent, n, hn, ?_, ?_⟩
  · rw [hndata, hsplit.occupied_packetFor (fun _ => 0) (hsplit.mem_payloadParts hpart).2,
      fin_mem_marks, hasFin, hasSyn, hflags, hseq, (plainPacket_fields 0x11 pay).2.2.1,
      length_slice (by omega)]
    decide
  · rw [occupied, fin_mem_marks, hasFin, hasSyn, hflags, hseq, (plainPacket_fields 0x11 pay).2.2.1,
      hlen]
    decide

end SentPackets

end Poise
