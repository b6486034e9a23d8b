import Poise.ContextCollection
import Poise.Foundations.WireFormat

/-!
# Poise client: replies to the server

A thread of the client encodes the collected contexts into one static buffer,
without separators, and passes the length to `poise_reply_server`, which clears
that many bytes of a smaller buffer on its stack.

The encoder is followed store by store.  Its result is then described by the
records of the contexts that are not empty: the message is their concatenation, a
decoder that reads type, time, length and data finds them again, and the length of
the message is the sum of their sizes.
-/

namespace Poise

open Foundations

section ContextReplies

def replyMsgSize : Nat := 65535

def maxBufSize : Nat := 4096

/-- The values of the enumeration of context types. -/
def CxtType.code : CxtType → Nat
  | .location => 1
  | .displayState => 2
  | .package => 3

theorem CxtType.code_lt
    (t : CxtType) :
    t.code < 256 ^ 4 := by
  cases t <;> decide

/-- The buffer for the message, and the position behind what is encoded. -/
abbrev ReplyState : Type := Buffer (BitVec 8) replyMsgSize × Nat

def encodeCxt (order : ByteOrder) (q : ReplyState) (cxt : CxtInfo) (type : CxtType) : ReplyState :=
  if cxt.len = 0 then
    q
  else
    let q := (q.1.store q.2 (wordBytes order 4 type.code), q.2 + 4)
    let q := (q.1.store q.2 (wordBytes order 16 cxt.ts), q.2 + 16)
    let q := (q.1.store q.2 (wordBytes order 4 cxt.len), q.2 + 4)
    (q.1.store q.2 (cxt.buf.take cxt.len), q.2 + cxt.len)

/-- One pass of the loop of `thread_reply_context`; nothing is encoded in front of the contexts. -/
def threadReplyContext
    (order : ByteOrder) (m : SharedContext) (replyMsg : Buffer (BitVec 8) replyMsgSize) :
    ReplyState :=
  let q := (replyMsg, 0)
  let q := encodeCxt order q (m.info .location) .location
  let q := encodeCxt order q (m.info .package) .package
  encodeCxt order q (m.info .displayState) .displayState

/-- The bytes that are passed on. -/
def replyMessage
    (order : ByteOrder) (m : SharedContext) (replyMsg : Buffer (BitVec 8) replyMsgSize) :
    List (BitVec 8) :=
  let q := threadReplyContext order m replyMsg
  q.1.elems.take q.2

/-- A write to the device: the request it finds, its bytes, and the time as the kernel stores it. -/
structure DeviceWrite where
  pending : Option CxtType
  buffer : List (BitVec 8)
  now : BitVec 128

def writeStep (m : SharedContext) (w : DeviceWrite) : SharedContext :=
  poiseWrite w.buffer w.now.toNat { m with synMsg := w.pending }

/-- The contexts after some writes. -/
def contextsAfter (writes : List DeviceWrite) : SharedContext :=
  writes.foldl writeStep { synMsg := none, info := fun _ => CxtInfo.zero }

/-- What a context has to satisfy: its fields fit their widths. -/
structure CxtInfo.Fits (cxt : CxtInfo) : Prop where
  len : cxt.len ≤ maxCxtSize
  buf : cxt.buf.length = maxCxtSize
  ts : cxt.ts < 256 ^ 16

theorem fillInfo_len
    (now : Nat)
    (buffer : List (BitVec 8)) :
    (fillInfo now buffer).len = min maxCxtSize buffer.length := by
  rw [fillInfo]
  dsimp only
  split <;> omega

theorem fillInfo_fits
    (now : BitVec 128)
    (buffer : List (BitVec 8)) :
    (fillInfo now.toNat buffer).Fits := by
  have hlen := fillInfo_len now.toNat buffer
  constructor
  case len =>
    omega
  case buf =>
    have hbuf : (fillInfo now.toNat buffer).buf =
        buffer.take (fillInfo now.toNat buffer).len ++
          List.replicate (maxCxtSize - (fillInfo now.toNat buffer).len) 0 := rfl
    rw [hbuf, List.length_append, List.length_take, List.length_replicate]
    omega
  case ts =>
    exact now.isLt

/-- A write fills the context it finds requested. -/
theorem writeStep_info
    (m : SharedContext)
    (w : DeviceWrite)
    (t : CxtType) :
    (writeStep m w).info t =
      if w.pending = some t then fillInfo w.now.toNat w.buffer else m.info t := by
  obtain ⟨pending, buffer, now⟩ := w
  cases pending with
  | none =>
      rfl
  | some cxt =>
      have hinfo : (writeStep m ⟨some cxt, buffer, now⟩).info =
          Function.update m.info cxt (fillInfo now.toNat buffer) := rfl
      rw [hinfo, Function.update_apply]
      simp only [Option.some.injEq, eq_comm]

theorem writeStep_fits
    {m : SharedContext}
    (h : ∀ t, (m.info t).Fits)
    (w : DeviceWrite)
    (t : CxtType) :
    ((writeStep m w).info t).Fits := by
  rw [writeStep_info]
  split
  · exact fillInfo_fits w.now w.buffer
  · exact h t

/-- Every context that writes can produce fits. -/
theorem contextsAfter_fits
    (writes : List DeviceWrite)
    (t : CxtType) :
    ((contextsAfter writes).info t).Fits := by
  have hrun : ∀ m : SharedContext, (∀ t, (m.info t).Fits) →
      ∀ t, ((writes.foldl writeStep m).info t).Fits := by
    induction writes with
    | nil =>
        intro m h
        exact h
    | cons w writes ih =>
        intro m h
        exact ih (writeStep m w) (writeStep_fits h w)
  exact hrun _ (fun _ => ⟨Nat.zero_le _, List.length_replicate, Nat.pow_pos (Nat.succ_pos 255)⟩) t

/-- A record of a message. -/
structure CxtRecord where
  type : Nat
  ts : Nat
  data : List (BitVec 8)
deriving DecidableEq, Repr

def writeRecord (order : ByteOrder) (r : CxtRecord) : List (BitVec 8) :=
  wordBytes order 4 r.type ++ (wordBytes order 16 r.ts ++
    (wordBytes order 4 r.data.length ++ r.data))

/-- What a decoder reads: a type, a time, a length and as many bytes. -/
def readRecord (order : ByteOrder) (b : List (BitVec 8)) :
    Option (CxtRecord × List (BitVec 8)) := do
  let (type, b) ← readWord order 4 b
  let (ts, b) ← readWord order 16 b
  let (len, b) ← readWord order 4 b
  let (data, b) ← readBytes len b
  return ({ type := type, ts := ts, data := data }, b)

/-- Read records until the message is used up. -/
def decodeReply (order : ByteOrder) (b : List (BitVec 8)) : Option (List CxtRecord) :=
  readAll (readRecord order) b.length b

/-- The record of a context, unless it is empty. -/
def CxtInfo.record (cxt : CxtInfo) (type : CxtType) : Option CxtRecord :=
  if cxt.len = 0 then none
  else some { type := type.code, ts := cxt.ts, data := cxt.buf.take cxt.len }

/-- The contexts that are not empty, in the order of the message. -/
def nonEmptyContexts (m : SharedContext) : List CxtRecord :=
  [CxtType.location, .package, .displayState].flatMap fun t => ((m.info t).record t).toList

section Encoding

variable (order : ByteOrder)

theorem writeRecord_length
    (r : CxtRecord) :
    (writeRecord order r).length = 24 + r.data.length := by
  simp only [writeRecord, List.length_append, length_wordBytes]
  omega

/-- A store at the end of what is encoded. -/
theorem take_store
    (q : ReplyState)
    {xs : List (BitVec 8)} {n : Nat}
    (hlen : xs.length = n)
    (h : q.2 + n ≤ replyMsgSize) :
    (q.1.store q.2 xs).elems.take (q.2 + n) = q.1.elems.take q.2 ++ xs := by
  subst hlen
  exact take_overwrite_end (by rw [q.1.length_eq]; exact h)

/-- The message is extended by the record of the context. -/
theorem encodeCxt_spec
    (q : ReplyState)
    {cxt : CxtInfo}
    (hcxt : cxt.Fits)
    (type : CxtType)
    (hroom : q.2 + 24 + maxCxtSize ≤ replyMsgSize) :
    (encodeCxt order q cxt type).2 =
        q.2 + ((cxt.record type).toList.flatMap (writeRecord order)).length ∧
      (encodeCxt order q cxt type).1.elems.take (encodeCxt order q cxt type).2 =
        q.1.elems.take q.2 ++ (cxt.record type).toList.flatMap (writeRecord order) := by
  rw [encodeCxt, CxtInfo.record]
  split
  · exact ⟨rfl, (List.append_nil _).symm⟩
  · have hlen := hcxt.len
    have hdata : (cxt.buf.take cxt.len).length = cxt.len :=
      List.length_take_of_le (by rw [hcxt.buf]; exact hlen)
    dsimp only [Option.toList_some]
    rw [List.flatMap_singleton, writeRecord_length]
    simp only [hdata]
    refine ⟨by omega, ?_⟩
    rw [take_store (_, _) hdata (by dsimp only; omega)]
    dsimp only
    rw [take_store (_, _) (length_wordBytes order 4 cxt.len) (by dsimp only; omega)]
    dsimp only
    rw [take_store (_, _) (length_wordBytes order 16 cxt.ts) (by dsimp only; omega)]
    dsimp only
    rw [take_store q (length_wordBytes order 4 type.code) (by omega)]
    simp only [writeRecord, hdata, List.append_assoc]

/-- What a context adds to a message. -/
def CxtInfo.recordSize (cxt : CxtInfo) : Nat :=
  if cxt.len = 0 then 0 else 24 + cxt.len

theorem length_record
    {cxt : CxtInfo}
    (hcxt : cxt.Fits)
    (type : CxtType) :
    ((cxt.record type).toList.flatMap (writeRecord order)).length = cxt.recordSize := by
  rw [CxtInfo.record, CxtInfo.recordSize]
  split
  · rfl
  · dsimp only [Option.toList_some]
    rw [List.flatMap_singleton, writeRecord_length]
    dsimp only
    rw [List.length_take_of_le (by rw [hcxt.buf]; exact hcxt.len)]

theorem CxtInfo.Fits.recordSize_le
    {cxt : CxtInfo}
    (h : cxt.Fits) :
    cxt.recordSize ≤ 24 + maxCxtSize := by
  have hlen := h.len
  rw [CxtInfo.recordSize]
  split <;> omega

/-- The length and the bytes of the message. -/
theorem threadReplyContext_spec
    {m : SharedContext}
    (hm : ∀ t, (m.info t).Fits)
    (replyMsg : Buffer (BitVec 8) replyMsgSize) :
    (threadReplyContext order m replyMsg).2 =
        (m.info .location).recordSize + (m.info .package).recordSize +
          (m.info .displayState).recordSize ∧
      replyMessage order m replyMsg = (nonEmptyContexts m).flatMap (writeRecord order) := by
  have hbuf : replyMsgSize = 65535 := rfl
  have hmax : maxCxtSize = 4088 := rfl
  have h₁ := (hm .location).recordSize_le
  have h₂ := (hm .package).recordSize_le
  obtain ⟨hsize₁, htake₁⟩ := encodeCxt_spec order (replyMsg, 0) (hm .location) .location (by omega)
  rw [length_record order (hm .location)] at hsize₁
  generalize hq₁ : encodeCxt order (replyMsg, 0) (m.info .location) .location = q₁ at hsize₁ htake₁
  obtain ⟨hsize₂, htake₂⟩ := encodeCxt_spec order q₁ (hm .package) .package (by omega)
  rw [length_record order (hm .package)] at hsize₂
  generalize hq₂ : encodeCxt order q₁ (m.info .package) .package = q₂ at hsize₂ htake₂
  obtain ⟨hsize₃, htake₃⟩ := encodeCxt_spec order q₂ (hm .displayState) .displayState (by omega)
  rw [length_record order (hm .displayState)] at hsize₃
  have hthread : threadReplyContext order m replyMsg =
      encodeCxt order q₂ (m.info .displayState) .displayState := by
    rw [threadReplyContext, hq₁, hq₂]
  rw [replyMessage, hthread]
  refine ⟨by omega, ?_⟩
  dsimp only at htake₁ ⊢
  rw [htake₃, htake₂, htake₁, List.take_zero, nonEmptyContexts, List.flatMap_assoc,
    List.flatMap_cons, List.flatMap_cons, List.flatMap_singleton, List.nil_append,
    List.append_assoc]

end Encoding

/-- The last write that finds a type requested. -/
def lastDeviceWrite (writes : List DeviceWrite) (t : CxtType) : Option DeviceWrite :=
  writes.reverse.find? fun w => w.pending = some t

/-- What the last write of a type adds to a message: nothing, or 24 bytes and what fits of it. -/
def writtenSize (writes : List DeviceWrite) (t : CxtType) : Nat :=
  match lastDeviceWrite writes t with
  | none => 0
  | some w => if w.buffer.length = 0 then 0 else 24 + min maxCxtSize w.buffer.length

/-- A context holds the last write of its type. -/
theorem contextsAfter_info
    (writes : List DeviceWrite)
    (t : CxtType) :
    (contextsAfter writes).info t =
      match lastDeviceWrite writes t with
      | none => CxtInfo.zero
      | some w => fillInfo w.now.toNat w.buffer := by
  induction writes using List.reverseRecOn with
  | nil =>
      rfl
  | append_singleton writes w ih =>
      have hstep : contextsAfter (writes ++ [w]) = writeStep (contextsAfter writes) w :=
        List.foldl_concat ..
      rw [hstep, writeStep_info, ih, lastDeviceWrite, lastDeviceWrite, List.reverse_concat,
        List.find?_cons]
      by_cases hw : w.pending = some t
      · rw [if_pos hw]
        simp only [hw, decide_true]
      · rw [if_neg hw]
        simp only [hw, decide_false]

theorem recordSize_contextsAfter
    (writes : List DeviceWrite)
    (t : CxtType) :
    ((contextsAfter writes).info t).recordSize = writtenSize writes t := by
  rw [contextsAfter_info, writtenSize]
  split
  · rfl
  · rw [CxtInfo.recordSize, fillInfo_len]
    have hmax : 0 < maxCxtSize := Nat.succ_pos _
    split <;> split <;> omega

/--
For every sequence of writes to the device and whatever the message buffer holds:
the message fits the message buffer, and its length passed on is inside of the
response buffer with one byte to spare, if and only if the records of the last
writes of the three types take up less than the response buffer.
-/
theorem reply_fits_iff
    (order : ByteOrder)
    (writes : List DeviceWrite)
    (replyMsg : Buffer (BitVec 8) replyMsgSize) :
    ((threadReplyContext order (contextsAfter writes) replyMsg).2 ≤ replyMsgSize ∧
        (threadReplyContext order (contextsAfter writes) replyMsg).2 + 1 ≤ maxBufSize) ↔
      writtenSize writes .location + writtenSize writes .package +
        writtenSize writes .displayState < maxBufSize := by
  have hsize :=
    (threadReplyContext_spec order (contextsAfter_fits writes) replyMsg).1
  have hbuf : replyMsgSize = 65535 := rfl
  have hmax : maxBufSize = 4096 := rfl
  rw [recordSize_contextsAfter, recordSize_contextsAfter, recordSize_contextsAfter] at hsize
  omega

/-- The message buffer as it is at first. -/
def clearReply : Buffer (BitVec 8) replyMsgSize :=
  ⟨List.replicate replyMsgSize 0, List.length_replicate⟩

/-- The location alone, at its full size, makes a reply of 4112 bytes. -/
theorem full_location_overruns :
    (threadReplyContext .little
        (contextsAfter [⟨some .location, List.replicate 4088 0x61, 0⟩]) clearReply).2 = 4112 ∧
      ¬ 4112 + 1 ≤ maxBufSize := by
  have hlen : (List.replicate 4088 (0x61 : BitVec 8)).length = 4088 := List.length_replicate
  generalize List.replicate 4088 (0x61 : BitVec 8) = buffer at hlen
  refine ⟨?_, by decide⟩
  rw [(threadReplyContext_spec .little (contextsAfter_fits _) clearReply).1,
    recordSize_contextsAfter, recordSize_contextsAfter, recordSize_contextsAfter]
  have hlocation : writtenSize [⟨some .location, buffer, 0⟩] .location = 24 + 4088 := by
    have hlast : lastDeviceWrite [⟨some .location, buffer, 0⟩] .location =
        some ⟨some .location, buffer, 0⟩ := rfl
    rw [writtenSize, hlast]
    dsimp only
    rw [hlen]
    rfl
  rw [hlocation]
  rfl

section Decoding

variable (order : ByteOrder)

theorem readRecord_append
    {r : CxtRecord}
    (htype : r.type < 256 ^ 4)
    (hts : r.ts < 256 ^ 16)
    (hdata : r.data.length < 256 ^ 4)
    (rest : List (BitVec 8)) :
    readRecord order (writeRecord order r ++ rest) = some (r, rest) := by
  simp only [readRecord, writeRecord, List.append_assoc, readWord_append order htype,
    readWord_append order hts, readWord_append order hdata, readBytes_append rfl,
    Option.bind_eq_bind, Option.bind_some]
  rfl

/-- The records of contexts that fit are read back. -/
theorem readRecord_context
    {m : SharedContext}
    (hm : ∀ t, (m.info t).Fits)
    {r : CxtRecord}
    (hr : r ∈ nonEmptyContexts m)
    (rest : List (BitVec 8)) :
    readRecord order (writeRecord order r ++ rest) = some (r, rest) := by
  obtain ⟨t, _, ht⟩ := List.mem_flatMap.mp hr
  rw [CxtInfo.record] at ht
  split at ht
  · cases ht
  · rw [Option.toList_some, List.mem_singleton] at ht
    subst ht
    have hlen := (hm t).len
    have hmax : maxCxtSize = 4088 := rfl
    refine readRecord_append order ?_ (hm t).ts ?_ rest
    · exact t.code_lt
    · dsimp only
      rw [List.length_take]
      omega

/-- The message is decoded to the contexts that are not empty. -/
theorem decodeReply_replyMessage
    {m : SharedContext}
    (hm : ∀ t, (m.info t).Fits)
    (replyMsg : Buffer (BitVec 8) replyMsgSize) :
    decodeReply order (replyMessage order m replyMsg) = some (nonEmptyContexts m) := by
  rw [(threadReplyContext_spec order hm replyMsg).2]
  refine readAll_flatMap (fun r hr rest => readRecord_context order hm hr rest) ?_ (Nat.le_refl _)
  intro r _ hnil
  have hlen := writeRecord_length order r
  rw [hnil, List.length_nil] at hlen
  omega

end Decoding

/--
For all sequences of writes to the device and whatever the message buffer holds: a
decoder that reads type, time, length and data uses up the message and returns the
contexts that are not empty, in the order location, package, display state; and
two messages are the same exactly when these contexts are.
-/
theorem reply_uniquely_decodable
    (order : ByteOrder)
    (writes writes' : List DeviceWrite)
    (replyMsg replyMsg' : Buffer (BitVec 8) replyMsgSize) :
    decodeReply order (replyMessage order (contextsAfter writes) replyMsg) =
        some (nonEmptyContexts (contextsAfter writes)) ∧
      (replyMessage order (contextsAfter writes) replyMsg =
          replyMessage order (contextsAfter writes') replyMsg' ↔
        nonEmptyContexts (contextsAfter writes) = nonEmptyContexts (contextsAfter writes')) := by
  have hdecode := decodeReply_replyMessage order (contextsAfter_fits writes) replyMsg
  have hdecode' := decodeReply_replyMessage order (contextsAfter_fits writes') replyMsg'
  refine ⟨hdecode, ?_, ?_⟩
  · intro hsame
    rw [hsame, hdecode'] at hdecode
    exact (Option.some.inj hdecode).symm
  · intro hsame
    rw [(threadReplyContext_spec order (contextsAfter_fits writes) replyMsg).2,
      (threadReplyContext_spec order (contextsAfter_fits writes') replyMsg').2, hsame]

end ContextReplies

end Poise
