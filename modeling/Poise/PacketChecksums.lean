import Poise.Foundations.InternetChecksum
import Poise.SentPackets

/-!
# Poise client: the checksums of the packets that are sent

The IP header checksum of a packet with the context option is computed anew.  The
check field of the TCP header is copied from the original packet, although the
TCP length, the data offset, the options, the sequence number and the payload
under it have changed.

The field holds the full checksum, or the sum over the pseudo-header when the
device computes the rest.  What a receiver then computes is compared with the sum
over the original packet, modulo 65535.
-/

namespace Poise

open Foundations

section PacketChecksums

def ipHeader (d : Bytes) : Bytes :=
  d.take (tcpAt d)

/-- The TCP header and the payload. -/
def tcpSegment (d : Bytes) : Bytes :=
  d.drop (tcpAt d)

def tcpLength (d : Bytes) : Nat :=
  ipTotLen d - tcpAt d

/-- Both addresses, the protocol and the TCP length. -/
def pseudoHeader (d : Bytes) : Bytes :=
  slice d 12 8 ++ be16Bytes (ipProtocol d) ++ be16Bytes (tcpLength d)

/-- Who computes the TCP checksum. -/
inductive ChecksumMode where
  | full
  | offloaded
deriving DecidableEq, Repr

/-- The packet on the wire: a device sums the segment with the check field as it stands. -/
def onWire (mode : ChecksumMode) (d : Bytes) : Bytes :=
  match mode with
  | .full => d
  | .offloaded => overwrite d (tcpAt d + 16) (be16Bytes (checksum (tcpSegment d)))

/-- What the check field of the TCP header has to hold. -/
def CheckFieldValid (mode : ChecksumMode) (d : Bytes) : Prop :=
  match mode with
  | .full => Verifies (pseudoHeader d ++ tcpSegment d)
  | .offloaded => be16 d (tcpAt d + 16) = onesSum (pseudoHeader d)

/-- A packet with valid checksums, as it is handed down. -/
structure ChecksumsValid (mode : ChecksumMode) (d : Bytes) : Prop where
  ip : Verifies (ipHeader d)
  tcp : CheckFieldValid mode d

/-- A packet whose checksums a receiver accepts. -/
structure Received (d : Bytes) : Prop where
  ip : Verifies (ipHeader d)
  tcp : Verifies (pseudoHeader d ++ tcpSegment d)

/-- What the option adds to the sum: its words, four to the data offset, and its length. -/
def insertedSum : Nat :=
  wordSum cxtOption + 4 * 4096 + cxtHeadLen

/-- The sum that a receiver computes. -/
def receivedSum (d : Bytes) : Nat :=
  wordSum (pseudoHeader d) + wordSum (tcpSegment d)

theorem wordSum_pseudoHeader
    {d : Bytes}
    (h : 20 ≤ d.length) :
    wordSum (pseudoHeader d) =
      wordSum (slice d 12 8) + ipProtocol d + tcpLength d % 65536 := by
  have haddresses : (slice d 12 8).length = 8 := length_slice (by omega)
  have hprotocol : ipProtocol d % 65536 = ipProtocol d :=
    Nat.mod_eq_of_lt ((byteAt_lt d 9).trans (by decide))
  rw [pseudoHeader, wordSum_append (by rw [List.length_append, haddresses, length_be16Bytes]),
    wordSum_append (by rw [haddresses]), wordSum_be16Bytes, wordSum_be16Bytes, hprotocol]

theorem wordSum_received
    {d : Bytes}
    (h : 20 ≤ d.length) :
    wordSum (pseudoHeader d ++ tcpSegment d) = receivedSum d := by
  have heven : (pseudoHeader d).length % 2 = 0 := by
    rw [pseudoHeader, List.length_append, List.length_append, length_slice (by omega),
      length_be16Bytes, length_be16Bytes]
  exact wordSum_append heven _

/-- The check of a receiver in terms of the plain sum. -/
theorem verifies_segment_iff
    {d : Bytes}
    (h : 20 ≤ d.length)
    (hpos : 0 < tcpLength d)
    (hlt : tcpLength d < 65536) :
    Verifies (pseudoHeader d ++ tcpSegment d) ↔ receivedSum d % 65535 = 0 := by
  have hsum := wordSum_pseudoHeader h
  rw [Nat.mod_eq_of_lt hlt] at hsum
  rw [verifies_iff, wordSum_received h, receivedSum]
  exact and_iff_left (by omega)

/-- The device only stores to the check field of the TCP header. -/
theorem onWire_offloaded
    {d : Bytes}
    (hip : 20 ≤ tcpAt d) :
    ipHeader (onWire .offloaded d) = ipHeader d ∧
      pseudoHeader (onWire .offloaded d) = pseudoHeader d ∧
      tcpSegment (onWire .offloaded d) =
        overwrite (tcpSegment d) 16 (be16Bytes (checksum (tcpSegment d))) := by
  have hat : tcpAt (onWire .offloaded d) = tcpAt d := tcpAt_overwrite (by omega)
  have hfront : ∀ k, k < tcpAt d + 16 → (onWire .offloaded d)[k]? = d[k]? := fun k hk =>
    getElem?_overwrite_of_outside (Or.inl hk)
  have hbyte : ∀ k, k < tcpAt d + 16 → byteAt (onWire .offloaded d) k = byteAt d k := by
    intro k hk
    rw [byteAt, byteAt, hfront k hk]
  refine ⟨?_, ?_, ?_⟩
  · rw [ipHeader, ipHeader, hat]
    exact slice_congr (i := 0) fun k _ hk => hfront k (by omega)
  · have haddresses : slice (onWire .offloaded d) 12 8 = slice d 12 8 :=
      slice_congr fun k _ hk => hfront k (by omega)
    rw [pseudoHeader, pseudoHeader, tcpLength, tcpLength, ipTotLen, ipTotLen, be16, be16,
      ipProtocol, ipProtocol, hat, haddresses, hbyte 9 (by omega), hbyte 2 (by omega),
      hbyte 3 (by omega)]
  · rw [tcpSegment, hat, onWire, drop_overwrite_of_ge (by omega), Nat.add_sub_cancel_left,
      ← tcpSegment]

/-- A checksum that is computed anew is valid. -/
theorem HeaderRoom.verifies_setCheck
    {hd : Bytes}
    (h : HeaderRoom hd)
    {ipFastCsum : Bytes → Nat}
    (hcsum : ∀ b, ipFastCsum b = checksum b) :
    Verifies (ipHeader (setCheck ipFastCsum hd)) := by
  have hip := h.ip
  have htcp := h.tcp
  have hcleared : tcpAt (overwrite hd 10 (be16Bytes 0)) = tcpAt hd := tcpAt_overwrite (by omega)
  have hat : tcpAt (setCheck ipFastCsum hd) = tcpAt hd := by
    rw [setCheck, tcpAt_overwrite (by omega), hcleared]
  have hlength : ((overwrite hd 10 (be16Bytes 0)).take (tcpAt hd)).length = tcpAt hd :=
    List.length_take_of_le (by rw [length_overwrite]; omega)
  have hclear : be16 ((overwrite hd 10 (be16Bytes 0)).take (tcpAt hd)) 10 = 0 := by
    rw [take_overwrite]
    exact be16_overwrite_self 0 (by rw [List.length_take]; omega)
  rw [ipHeader, hat, setCheck, take_overwrite, hcsum, hcleared, slice_front]
  exact verifies_overwrite_checksum rfl (by omega) hclear

section Copies

variable {skb : Skb} {hd pay : Bytes} {part : Nat × Nat}

/-- The data offset is in the upper half of a byte at an even position. -/
theorem HeaderRoom.wordSum_setDoff
    (h : HeaderRoom hd)
    (hdoff : tcpDoff hd ≤ 11) :
    wordSum ((setDoff hd (tcpDoff hd + 4)).drop (tcpAt hd)) =
      wordSum (hd.drop (tcpAt hd)) + 4 * 4096 := by
  have htcp := h.tcp
  have hbyte := byteAt_lt hd (tcpAt hd + 12)
  have hfield : tcpDoff hd = byteAt hd (tcpAt hd + 12) / 16 := rfl
  have hset := wordSum_set (b := hd.drop (tcpAt hd)) (i := 12) (by rw [List.length_drop]; omega)
    (BitVec.ofNat 8 ((tcpDoff hd + 4) % 16 * 16 + byteAt hd (tcpAt hd + 12) % 16))
  have hweight : byteWeight 12 = 256 := rfl
  rw [byteAt_drop, hweight, BitVec.toNat_ofNat] at hset
  rw [setDoff, drop_overwrite_of_ge (by omega), Nat.add_sub_cancel_left, overwrite, overwrite]
  omega

/-- The sequence number counts by its offset, up to its width. -/
theorem HeaderRoom.wordSum_seqHeader
    (h : HeaderRoom hd)
    (offset : Nat) :
    (wordSum ((seqHeader hd offset).drop (tcpAt hd)) +
        (tcpSeq hd + offset) / 4294967296) % 65535 =
      (wordSum (hd.drop (tcpAt hd)) + offset) % 65535 := by
  have htcp := h.tcp
  rw [seqHeader]
  split
  · have hvalue : ((tcpSeq hd + offset : Int) % 4294967296).toNat =
        (tcpSeq hd + offset) % 4294967296 := by
      omega
    have hstore := wordSum_overwrite_be32 (b := hd.drop (tcpAt hd)) (i := 4) rfl
      (by rw [List.length_drop]; omega) ((tcpSeq hd + offset) % 4294967296)
    have hold : be32 hd (tcpAt hd + 4) = tcpSeq hd := rfl
    have hcarry := mod_eq_low_add_high (tcpSeq hd + offset)
    rw [be32_drop, hold, Nat.mod_mod] at hstore
    rw [setSeq, drop_overwrite_of_ge (by omega), Nat.add_sub_cancel_left, hvalue]
    generalize (tcpSeq hd + offset) % 4294967296 = low at hstore hcarry ⊢
    generalize (tcpSeq hd + offset) / 4294967296 = high at hcarry ⊢
    omega
  · have hlt : tcpSeq hd < 4294967296 := be32_lt _ _
    have hzero : offset = 0 := by
      omega
    rw [hzero, Nat.add_zero, Nat.add_zero, Nat.div_eq_of_lt hlt, Nat.add_zero]

/-- The sum over the TCP part of the header of a copy. -/
theorem SplitsInto.wordSum_copyHeader
    (hsplit : SplitsInto skb hd pay)
    (ipFastCsum : Bytes → Nat)
    (offset len : Nat) :
    (wordSum ((copyHeader ipFastCsum hd offset len).drop (tcpAt hd)) +
        (tcpSeq hd + offset) / 4294967296) % 65535 =
      (wordSum (hd.drop (tcpAt hd)) + offset + 4 * 4096) % 65535 := by
  have hip := hsplit.room.ip
  have hseq := hsplit.room.patched_seqHeader offset
  have hat : tcpAt (seqHeader hd offset) = tcpAt hd :=
    congrArg (4 * ·) (congrArg HeaderView.ihl hseq.view)
  have hwords : tcpDoff (seqHeader hd offset) = tcpDoff hd := congrArg HeaderView.doff hseq.view
  -- Total length and IP checksum are in front of the TCP header.
  have hfront : (copyHeader ipFastCsum hd offset len).drop (tcpAt hd) =
      (setDoff (seqHeader hd offset) (tcpDoff hd + 4)).drop (tcpAt hd) := by
    rw [copyHeader, setCheck, drop_overwrite_of_le (by rw [length_be16Bytes]; omega),
      drop_overwrite_of_le (by rw [length_be16Bytes]; omega), setTotLen,
      drop_overwrite_of_le (by rw [length_be16Bytes]; omega)]
  have hgrown := hseq.room.wordSum_setDoff (by rw [hwords]; exact hsplit.doff)
  have hmoved := hsplit.room.wordSum_seqHeader offset
  rw [hwords, hat] at hgrown
  rw [hfront, hgrown]
  generalize (tcpSeq hd + offset) / 4294967296 = high at hmoved ⊢
  omega

/-- The bytes of the header of a copy that no store meets. -/
theorem SplitsInto.getElem?_packetFor
    (hsplit : SplitsInto skb hd pay)
    (ipFastCsum : Bytes → Nat)
    (hfits : hd.length + cxtHeadLen + part.2 < 65536)
    {j : Nat}
    (hlen : j < 2 ∨ 4 ≤ j)
    (hcheck : j < 10 ∨ 12 ≤ j)
    (htcp : j < tcpAt hd + 4 ∨ tcpAt hd + 13 ≤ j)
    (hj : j < hd.length) :
    (packetFor ipFastCsum hd pay part)[j]? = skb.data[j]? := by
  have hlength := (hsplit.patched_copyHeader ipFastCsum part.1 hfits).length_eq
  rw [packetFor, List.getElem?_append_left (by omega),
    hsplit.room.getElem?_copyHeader ipFastCsum part.1 part.2 hlen hcheck (by omega) (by omega),
    hsplit.data, List.getElem?_append_left (by omega)]

/-- Lengths and positions of the packet for a part. -/
theorem SplitsInto.packetFor_lengths
    (hsplit : SplitsInto skb hd pay)
    (ipFastCsum : Bytes → Nat)
    (hfits : hd.length + cxtHeadLen + part.2 < 65536) :
    tcpAt (packetFor ipFastCsum hd pay part) = tcpAt hd ∧ tcpAt skb.data = tcpAt hd ∧
      hd.length ≤ (packetFor ipFastCsum hd pay part).length ∧
      tcpLength (packetFor ipFastCsum hd pay part) =
        4 * tcpDoff hd + cxtHeadLen + part.2 ∧
      tcpLength skb.data = 4 * tcpDoff hd + pay.length := by
  obtain ⟨hihl, htot, _⟩ := hsplit.packetFor_fields ipFastCsum hfits
  have hat : tcpAt (packetFor ipFastCsum hd pay part) = tcpAt hd := congrArg (4 * ·) hihl
  have hat' : tcpAt skb.data = tcpAt hd := by
    rw [hsplit.data, hsplit.room.tcpAt_append]
  have hstart : tcpAt hd + 4 * tcpDoff hd = hd.length := hsplit.start
  have hlen := hsplit.totLen
  refine ⟨hat, hat', ?_, ?_, ?_⟩
  · rw [packetFor, List.length_append,
      (hsplit.patched_copyHeader ipFastCsum part.1 hfits).length_eq]
    omega
  · rw [tcpLength, htot, hat]
    omega
  · rw [tcpLength, hat', hsplit.data, (hsplit.room.append_fields pay).2.1]
    omega

/-- The pseudo-headers of a packet and of its copy differ in the TCP length. -/
theorem SplitsInto.wordSum_pseudoHeader_packetFor
    (hsplit : SplitsInto skb hd pay)
    (ipFastCsum : Bytes → Nat)
    (hfits : hd.length + cxtHeadLen + part.2 < 65536) :
    wordSum (pseudoHeader (packetFor ipFastCsum hd pay part)) + pay.length =
      wordSum (pseudoHeader skb.data) + cxtHeadLen + part.2 := by
  have hip := hsplit.room.ip
  have htcp := hsplit.room.tcp
  have hstart : tcpAt hd + 4 * tcpDoff hd = hd.length := hsplit.start
  have htotLt : ipTotLen hd < 65536 := be16_lt _ _
  have hlen := hsplit.totLen
  obtain ⟨_, _, hlength, hlen', hlen''⟩ :=
    hsplit.packetFor_lengths ipFastCsum hfits
  have hlength' : hd.length ≤ skb.data.length := by
    rw [hsplit.data, List.length_append]
    omega
  have haddresses : slice (packetFor ipFastCsum hd pay part) 12 8 = slice skb.data 12 8 :=
    slice_congr fun k hk hk' => hsplit.getElem?_packetFor ipFastCsum hfits (by omega) (by omega)
      (by omega) (by omega)
  have hprotocol : ipProtocol (packetFor ipFastCsum hd pay part) = ipProtocol skb.data := by
    rw [ipProtocol, ipProtocol, byteAt, byteAt,
      hsplit.getElem?_packetFor ipFastCsum hfits (by omega) (by omega) (by omega) (by omega)]
  rw [wordSum_pseudoHeader (by omega), wordSum_pseudoHeader (by omega), haddresses, hprotocol,
    hlen', hlen'']
  omega

/-- The sum over the segment of a copy. -/
theorem SplitsInto.wordSum_tcpSegment_packetFor
    (hsplit : SplitsInto skb hd pay)
    (ipFastCsum : Bytes → Nat)
    (hfits : hd.length + cxtHeadLen + part.2 < 65536) :
    (wordSum (tcpSegment (packetFor ipFastCsum hd pay part)) +
        (wordSum pay + (tcpSeq hd + part.1) / 4294967296)) % 65535 =
      (wordSum (tcpSegment skb.data) + (wordSum (slice pay part.1 part.2) + wordSum cxtOption +
        4 * 4096 + part.1)) % 65535 := by
  have htcp := hsplit.room.tcp
  have hstart : tcpAt hd + 4 * tcpDoff hd = hd.length := hsplit.start
  obtain ⟨hat, hat', _, _, _⟩ := hsplit.packetFor_lengths ipFastCsum hfits
  have hlength := (hsplit.patched_copyHeader ipFastCsum part.1 hfits).length_eq
  have hheader := hsplit.wordSum_copyHeader ipFastCsum part.1 part.2
  have hcopy : wordSum (tcpSegment (packetFor ipFastCsum hd pay part)) =
      wordSum ((copyHeader ipFastCsum hd part.1 part.2).drop (tcpAt hd)) +
        (wordSum cxtOption + wordSum (slice pay part.1 part.2)) := by
    rw [tcpSegment, hat, packetFor, List.drop_append_of_le_length (by omega),
      wordSum_append (by rw [List.length_drop]; omega), wordSum_append (by decide)]
  have horiginal : wordSum (tcpSegment skb.data) = wordSum (hd.drop (tcpAt hd)) + wordSum pay := by
    rw [tcpSegment, hat', hsplit.data, List.drop_append_of_le_length (by omega),
      wordSum_append (by rw [List.length_drop]; omega)]
  rw [hcopy, horiginal]
  omega

/-- The sum over a copy against the sum over the original. -/
theorem SplitsInto.receivedSum_packetFor
    (hsplit : SplitsInto skb hd pay)
    (ipFastCsum : Bytes → Nat)
    (hfits : hd.length + cxtHeadLen + part.2 < 65536) :
    (receivedSum (packetFor ipFastCsum hd pay part) +
        (wordSum pay + pay.length + (tcpSeq hd + part.1) / 4294967296)) % 65535 =
      (receivedSum skb.data +
        (wordSum (slice pay part.1 part.2) + insertedSum + (part.1 + part.2))) % 65535 := by
  have hpseudo := hsplit.wordSum_pseudoHeader_packetFor ipFastCsum hfits
  have hsegment := hsplit.wordSum_tcpSegment_packetFor ipFastCsum hfits
  have hinserted : insertedSum = wordSum cxtOption + 4 * 4096 + cxtHeadLen := rfl
  rw [receivedSum, receivedSum]
  omega

/-- A device completes the sum over the pseudo-header of the original. -/
theorem SplitsInto.receivedSum_onWire
    (hsplit : SplitsInto skb hd pay)
    (ipFastCsum : Bytes → Nat)
    (hfits : hd.length + cxtHeadLen + part.2 < 65536)
    (hfield : CheckFieldValid .offloaded skb.data) :
    (receivedSum (onWire .offloaded (packetFor ipFastCsum hd pay part)) + pay.length) % 65535 =
      (cxtHeadLen + part.2) % 65535 := by
  have hip := hsplit.room.ip
  have htcp := hsplit.room.tcp
  have hstart : tcpAt hd + 4 * tcpDoff hd = hd.length := hsplit.start
  obtain ⟨hat, hat', hlength, _, _⟩ := hsplit.packetFor_lengths ipFastCsum hfits
  have hpseudo := hsplit.wordSum_pseudoHeader_packetFor ipFastCsum hfits
  have hkept : be16 (packetFor ipFastCsum hd pay part) (tcpAt hd + 16) =
      be16 skb.data (tcpAt hd + 16) := by
    have hbyte : ∀ k, tcpAt hd + 16 ≤ k → k < tcpAt hd + 18 →
        byteAt (packetFor ipFastCsum hd pay part) k = byteAt skb.data k := by
      intro k hk hk'
      rw [byteAt, byteAt, hsplit.getElem?_packetFor ipFastCsum hfits (by omega) (by omega)
        (by omega) (by omega)]
    rw [be16, be16, hbyte _ (by omega) (by omega), hbyte _ (by omega) (by omega)]
  generalize packetFor ipFastCsum hd pay part = d at hat hlength hpseudo hkept ⊢
  have hstore := wordSum_overwrite (b := tcpSegment d) (i := 16) rfl
    (by rw [tcpSegment, List.length_drop]; omega) (checksum (tcpSegment d))
  have hsmall : checksum (tcpSegment d) < 65536 := by
    rw [checksum]
    omega
  have hcomplete := (wordSum_add_checksum (tcpSegment d)).1
  have hmod := onesSum_mod (pseudoHeader skb.data)
  rw [CheckFieldValid, hat'] at hfield
  rw [tcpSegment, be16_drop, hat, hkept, hfield, ← hat, ← tcpSegment] at hstore
  obtain ⟨_, hpseudo', hsegment⟩ := onWire_offloaded (d := d) (by omega)
  rw [receivedSum, hpseudo', hsegment]
  omega

/-- The IP checksum of a copy is valid when the kernel's function computes it. -/
theorem SplitsInto.verifies_ipHeader_packetFor
    (hsplit : SplitsInto skb hd pay)
    {ipFastCsum : Bytes → Nat}
    (hcsum : ∀ h, ipFastCsum h = checksum h)
    (hfits : hd.length + cxtHeadLen + part.2 < 65536) :
    Verifies (ipHeader (packetFor ipFastCsum hd pay part)) := by
  have hdone := hsplit.patched_copyHeader ipFastCsum part.1 hfits
  have hgrown := (hsplit.room.patched_seqHeader part.1).setDoff (tcpDoff hd + 4)
  have hsized := hgrown.setTotLen (hd.length + cxtHeadLen + part.2 : Nat)
  have htcp := hdone.room.tcp
  rw [ipHeader, packetFor, hdone.room.tcpAt_append, List.take_append_of_le_length (by omega),
    ← ipHeader, copyHeader]
  exact hsized.room.verifies_setCheck hcsum

/-- When a receiver accepts a copy. -/
theorem SplitsInto.received_packetFor_iff
    (hsplit : SplitsInto skb hd pay)
    {ipFastCsum : Bytes → Nat} {mode : ChecksumMode}
    (hcsum : ∀ b, ipFastCsum b = checksum b)
    (hfits : hd.length + cxtHeadLen + part.2 < 65536)
    (hfield : CheckFieldValid mode skb.data)
    (hgrown : pay.length ≠ cxtHeadLen + part.2) :
    Received (onWire mode (packetFor ipFastCsum hd pay part)) ↔
      mode = .full ∧
        (wordSum (slice pay part.1 part.2) + insertedSum + (part.1 + part.2)) % 65535 =
          (wordSum pay + pay.length + (tcpSeq hd + part.1) / 4294967296) % 65535 := by
  have hip := hsplit.room.ip
  have htcp := hsplit.room.tcp
  have hstart : tcpAt hd + 4 * tcpDoff hd = hd.length := hsplit.start
  have hdoff : 20 ≤ 4 * tcpDoff hd := by
    omega
  have htotLt : ipTotLen hd < 65536 := be16_lt _ _
  have htot := hsplit.totLen
  obtain ⟨hat, hat', hlength, hlen, hlen'⟩ := hsplit.packetFor_lengths ipFastCsum hfits
  have hheader := hsplit.verifies_ipHeader_packetFor hcsum hfits
  cases mode with
  | full =>
      have hlength' : hd.length ≤ skb.data.length := by
        rw [hsplit.data, List.length_append]
        omega
      have hsum := hsplit.receivedSum_packetFor ipFastCsum hfits
      have hfield' := (verifies_segment_iff (by omega) (by omega) (by omega)).mp hfield
      have hiff := verifies_segment_iff (d := packetFor ipFastCsum hd pay part) (by omega)
        (by omega) (by omega)
      constructor
      · intro hreceived
        have hzero := hiff.mp hreceived.tcp
        exact ⟨rfl, by omega⟩
      · rintro ⟨_, hsame⟩
        exact ⟨hheader, hiff.mpr (by omega)⟩
  | offloaded =>
      refine iff_of_false (fun hreceived => ?_) (fun h => by cases h.1)
      have hsum := hsplit.receivedSum_onWire ipFastCsum hfits hfield
      have hopt : cxtHeadLen = 16 := rfl
      have hlength' : 20 ≤ (onWire .offloaded (packetFor ipFastCsum hd pay part)).length := by
        rw [onWire, length_overwrite]
        omega
      have hzero := ((verifies_iff _).mp hreceived.tcp).1
      rw [wordSum_received hlength'] at hzero
      omega

end Copies

/-- The part of the payload in the first of two packets. -/
def firstHalf (d : Bytes) : Bytes :=
  (tcpPayload d).take ((tcpPayload d).length / 2)

/-- The part of the payload in the second of two packets. -/
def secondHalf (d : Bytes) : Bytes :=
  (tcpPayload d).drop ((tcpPayload d).length / 2)

/--
For every packet of the application with valid checksums, in either mode, that is
sent with the option, and for a kernel that computes IP checksums: a receiver
accepts the checksums of all packets sent in its place if and only if the check
field held the full checksum, the packet is sent as two packets, and each half of
the payload happens to make up for the option, the lengths and the other half.
-/
theorem sentChecksums_valid_iff
    {ipFastCsum : Bytes → Nat} {fresh₁ fresh₂ : Option Bytes} {mode : ChecksumMode} {skb : Skb}
    {sent : List Skb}
    (hcsum : ∀ b, ipFastCsum b = checksum b)
    (hwell : WellFormed skb.data)
    (hvalid : ChecksumsValid mode skb.data)
    (hsent : parseTxSkb ipFastCsum fresh₁ fresh₂ skb = .stolen sent) :
    (∀ n, n ∈ sent → Received (onWire mode n.data)) ↔
      mode = .full ∧ 1500 < ipTotLen skb.data + cxtHeadLen ∧
        wordSum (firstHalf skb.data) + insertedSum ≡
          wordSum (tcpPayload skb.data) + (secondHalf skb.data).length [MOD 65535] ∧
        wordSum (secondHalf skb.data) + insertedSum ≡
          wordSum (tcpPayload skb.data) +
            (tcpSeq skb.data + (firstHalf skb.data).length) / 4294967296 [MOD 65535] := by
  obtain ⟨hd, hsplit, hdata⟩ := parseTxSkb_stolen hwell hsent
  rw [forall_sent_iff hdata (fun d => Received (onWire mode d))]
  have htot : ipTotLen skb.data = ipTotLen hd := by
    rw [hsplit.data, (hsplit.room.append_fields _).2.1]
  have hseq : tcpSeq skb.data = tcpSeq hd := by
    rw [hsplit.data, (hsplit.room.append_fields _).2.2.1]
  have hseqLt : tcpSeq hd < 4294967296 := be32_lt _ _
  have hstart : 4 * ipIhl hd + 4 * tcpDoff hd = hd.length := hsplit.start
  have hihl : ipIhl hd < 16 := Nat.mod_lt _ (by omega)
  have hdoff := hsplit.doff
  have hlen := hsplit.totLen
  have hopt : cxtHeadLen = 16 := rfl
  have hinserted : insertedSum = 51593 := by
    decide
  have hmem := fun part (hpart : part ∈ payloadParts skb.data) =>
    (hsplit.mem_payloadParts hpart).2
  rw [hseq, firstHalf, secondHalf, List.length_take, List.length_drop, Nat.ModEq, Nat.ModEq]
  rw [payloadParts] at hmem ⊢
  generalize tcpPayload skb.data = pay at *
  by_cases hlong : ipTotLen skb.data + cxtHeadLen > 1500
  · simp only [if_pos hlong, List.forall_mem_cons, List.not_mem_nil, false_implies, implies_true,
      and_true] at hmem ⊢
    rw [hsplit.received_packetFor_iff hcsum hmem.1 hvalid.tcp (by dsimp only; omega),
      hsplit.received_packetFor_iff hcsum hmem.2 hvalid.tcp (by dsimp only; omega)]
    have hfirst : min (pay.length / 2) pay.length = pay.length / 2 := by
      omega
    have hnowrap : wordSum pay + pay.length + (tcpSeq hd + 0) / 4294967296 =
        wordSum pay + (pay.length - pay.length / 2) + (0 + pay.length / 2) := by
      rw [Nat.add_zero, Nat.div_eq_of_lt hseqLt]
      omega
    have hwhole : wordSum (pay.drop (pay.length / 2)) + insertedSum +
        (pay.length / 2 + (pay.length - pay.length / 2)) =
          wordSum (pay.drop (pay.length / 2)) + insertedSum + pay.length := by
      omega
    have hbehind : ∀ wrap, wordSum pay + pay.length + wrap = wordSum pay + wrap + pay.length :=
      fun wrap => Nat.add_right_comm _ _ _
    have hcancel : ∀ a b c, (a + c) % 65535 = (b + c) % 65535 ↔ a % 65535 = b % 65535 :=
      fun a b c => ⟨Nat.ModEq.add_right_cancel' c, Nat.ModEq.add_right c⟩
    rw [slice_front, slice_rest, hfirst, hnowrap, hwhole, hbehind, hcancel, hcancel]
    constructor
    · rintro ⟨⟨hmode, h₁⟩, _, h₂⟩
      exact ⟨hmode, hlong, h₁, h₂⟩
    · rintro ⟨hmode, _, h₁, h₂⟩
      exact ⟨⟨hmode, h₁⟩, hmode, h₂⟩
  · simp only [if_neg hlong, List.forall_mem_cons, List.not_mem_nil, false_implies, implies_true,
      and_true] at hmem ⊢
    rw [hsplit.received_packetFor_iff hcsum hmem hvalid.tcp (by dsimp only; omega), slice_whole]
    refine iff_of_false (fun h => ?_) (fun h => hlong h.2.1)
    have hsame := h.2
    omega

/-- A packet with both checksums whose two halves each make up for the rest. -/
def tunedPacket : Skb :=
  let bare := plainPacket 0x10
    ([0xc9, 0x89] ++ List.replicate 720 0x00 ++ [0xc6, 0xb6] ++ List.replicate 721 0x00)
  { bare with
    data := overwrite (overwrite bare.data 10 (be16Bytes 0x0ef5)) 36 (be16Bytes 0x34d6) }

theorem tunedPacket_wellFormed :
    WellFormed tunedPacket.data := by
  constructor
  case ihl =>
    decide +kernel
  case doff =>
    decide +kernel
  case payload =>
    decide +kernel
  case length =>
    decide +kernel

/-- The theorem on a packet that is accepted. -/
theorem tunedPacket_received :
    ∃ sent, parseTxSkb checksum (some tunedPacket.tail) (some tunedPacket.tail) tunedPacket =
        .stolen sent ∧
      ∀ n, n ∈ sent → Received (onWire .full n.data) := by
  have hvalid : ChecksumsValid .full tunedPacket.data :=
    ⟨by decide +kernel, show Verifies _ by decide +kernel⟩
  obtain ⟨sent, hsent⟩ := exists_sent checksum tunedPacket_wellFormed (by decide +kernel)
    (by decide +kernel) (Nat.le_refl tunedPacket.tail.length) (Nat.le_refl tunedPacket.tail.length)
  refine ⟨sent, hsent, ?_⟩
  rw [sentChecksums_valid_iff (fun _ => rfl) tunedPacket_wellFormed hvalid hsent]
  decide +kernel

/-- A packet without options and payload, with both checksums. -/
def ackPacket : Skb :=
  { ethSource := (0x0c, 0x84)
    data :=
      [0x45, 0x00, 0x00, 0x28, 0x12, 0x34, 0x40, 0x00, 0x40, 0x06, 0x14, 0x9a,
        0x0a, 0x00, 0x00, 0x01, 0x0a, 0x00, 0x00, 0x02,
        0xc0, 0x00, 0x00, 0x15, 0x00, 0x00, 0x01, 0x00, 0x00, 0x00, 0x00, 0x01,
        0x50, 0x10, 0x10, 0x00, 0xca, 0xbb, 0x00, 0x00]
    tail := List.replicate 16 0x00 }

/-- A packet with valid checksums is sent with a TCP checksum that a receiver rejects. -/
theorem ackPacket_rejected :
    ChecksumsValid .full ackPacket.data ∧
      ∃ n, parseTxSkb checksum (some ackPacket.tail) none ackPacket = .stolen [n] ∧
        ¬ Received (onWire .full n.data) := by
  refine ⟨⟨by decide, show Verifies _ by decide⟩,
    { ackPacket with
      data := packetFor checksum ackPacket.data [] (0, 0)
      tail := [] }, by decide +kernel, fun h => ?_⟩
  exact absurd h.tcp (by decide +kernel)

end PacketChecksums

end Poise
