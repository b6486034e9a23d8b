import Poise.Foundations.SecureHash
import Poise.Foundations.WireFormat

/-!
# Poise client: the message server

The server receives into one page on its stack and passes the page, with the result
of `recv`, to `parse_msg`.  The page is not cleared between the calls, a result of -1
is not told from a number of bytes, and the serial number is printed as a string.

The memory behind the start of the page is modelled as far as it can be read.  Reading
more is a fault, so that a message which is parsed with nothing behind it is parsed
from its own bytes alone, whatever follows in the memory.
-/

namespace Poise

open Foundations

section MessageServer

def pageSize : Nat := 4096

section Messages

/-- The head of a message. -/
structure NetTxInfo where
  size : Nat
  sip : Nat
  dip : Nat
  sport : Nat
  dport : Nat
  ipid : Nat
  reserve : Nat
  plen : Nat
  deriving DecidableEq

def NetTxInfo.bytes : Nat := 24

structure LocationInfo where
  type : Nat
  longitude : Nat
  latitude : Nat
  acc : Nat
  deriving DecidableEq

/-- The context behind the head, up to the array with the serial number. -/
structure ContextInfo where
  location : LocationInfo
  isScreenActive : Nat
  isTargetFocused : Nat
  isCameraActive : Nat
  deriving DecidableEq

/-- The offset of the array with the serial number in the context. -/
def ContextInfo.deviceSerialNo : Nat := 28

def loadNetTxInfo (order : ByteOrder) (msg : Octets) : Option NetTxInfo :=
  if NetTxInfo.bytes ≤ msg.length then
    some {
      size := wordValue order (slice msg 0 4)
      sip := wordValue order (slice msg 4 4)
      dip := wordValue order (slice msg 8 4)
      sport := wordValue order (slice msg 12 2)
      dport := wordValue order (slice msg 14 2)
      ipid := wordValue order (slice msg 16 2)
      reserve := wordValue order (slice msg 18 2)
      plen := wordValue order (slice msg 20 4) }
  else
    none

def loadContextInfo (order : ByteOrder) (context : Octets) : Option ContextInfo :=
  if ContextInfo.deviceSerialNo ≤ context.length then
    some {
      location := {
        type := wordValue order (slice context 0 4)
        longitude := wordValue order (slice context 4 4)
        latitude := wordValue order (slice context 8 4)
        acc := wordValue order (slice context 12 4) }
      isScreenActive := wordValue order (slice context 16 4)
      isTargetFocused := wordValue order (slice context 20 4)
      isCameraActive := wordValue order (slice context 24 4) }
  else
    none

/-- The integer that is printed of an unsigned field. -/
def asInt (v : Nat) : Int :=
  (BitVec.ofNat 32 v).toInt

/-- The nearest number with a significand of 24 bits, the even one of two. -/
def toFloat (v : Nat) : Nat :=
  let unit := 2 ^ (v.log2 - 23)
  let low := v / unit
  let rest := v % unit
  let up := unit < 2 * rest ∨ unit = 2 * rest ∧ low % 2 = 1
  (if up then low + 1 else low) * unit

inductive LocationName where
  | gps
  | net
  deriving DecidableEq

/-- What is printed of a message; the coordinates are printed as millionths with six decimals. -/
structure Report where
  sip : Nat
  sport : Nat
  dip : Nat
  dport : Nat
  ipid : Nat
  plen : Int
  deviceSerialNo : Octets
  locationType : LocationName
  longitude : Nat
  latitude : Nat
  acc : Int
  isScreenActive : Int
  isTargetFocused : Int
  isCameraActive : Int
  deriving DecidableEq

def printMessage
    (netInfo : NetTxInfo) (contextInfo : ContextInfo) (serialNo : Octets) : Report where
  sip := netInfo.sip
  sport := netInfo.sport
  dip := netInfo.dip
  dport := netInfo.dport
  ipid := netInfo.ipid
  plen := asInt netInfo.plen
  deviceSerialNo := serialNo
  locationType := if contextInfo.location.type = 1 then .gps else .net
  longitude := toFloat contextInfo.location.longitude
  latitude := toFloat contextInfo.location.latitude
  acc := asInt contextInfo.location.acc
  isScreenActive := asInt contextInfo.isScreenActive
  isTargetFocused := asInt contextInfo.isTargetFocused
  isCameraActive := asInt contextInfo.isCameraActive

inductive ParseOutcome where
  | tooSmall
  | disMatch
  | message (report : Report)
  deriving DecidableEq

/-- Parse the message at the start of the readable memory; `none` is a fault. -/
def parseMsg (order : ByteOrder) (msg : Octets) (len : BitVec 32) : Option ParseOutcome :=
  if len.toNat < NetTxInfo.bytes then
    some .tooSmall
  else
    (loadNetTxInfo order msg).bind fun netInfo =>
      if len.toNat < netInfo.size then
        some .disMatch
      else
        let context := msg.drop NetTxInfo.bytes
        (loadContextInfo order context).bind fun contextInfo =>
          (readString (context.drop ContextInfo.deviceSerialNo)).map fun serialNo =>
            .message (printMessage netInfo contextInfo serialNo)

end Messages

section ReceiveLoop

/-- The bytes of one call. -/
structure Chunk where
  bytes : Octets
  pos : 0 < bytes.length
  fits : bytes.length ≤ pageSize

inductive RecvResult where
  | data (chunk : Chunk)
  | closed
  | error

/-- The number that `recv` returns. -/
def RecvResult.size : RecvResult → Int
  | .data chunk => chunk.bytes.length
  | .closed => 0
  | .error => -1

/-- The bytes that `recv` stores. -/
def RecvResult.stored : RecvResult → Octets
  | .data chunk => chunk.bytes
  | .closed => []
  | .error => []

/-- The readable bytes from the start of `rcv_msg` on: the page, and what stands behind it. -/
structure ReceiveMemory where
  bytes : Octets
  page : pageSize ≤ bytes.length

def ReceiveMemory.recv (m : ReceiveMemory) (r : RecvResult) : ReceiveMemory where
  bytes := overwrite m.bytes 0 r.stored
  page := by
    rw [length_overwrite]
    exact m.page

/-- The loop waits for `recv`, was left after a result, or has ended with a fault. -/
inductive LoopStatus where
  | receiving
  | left (rcvSize : Int)
  | fault

/-- The state of the loop, with what has been printed for each call. -/
structure ServerState where
  memory : ReceiveMemory
  log : List (Int × ParseOutcome)
  status : LoopStatus

/-- The loop before its first call, with whatever the stack holds. -/
def ServerState.start (m : ReceiveMemory) : ServerState where
  memory := m
  log := []
  status := .receiving

/-- What `parse_msg` makes of a result. -/
def parseReceived (order : ByteOrder) (m : ReceiveMemory) (r : RecvResult) : Option ParseOutcome :=
  parseMsg order (m.recv r).bytes (BitVec.ofInt 32 r.size)

/-- One test of the loop condition, and the body if it holds. -/
def receiveStep (order : ByteOrder) (s : ServerState) (r : RecvResult) : ServerState :=
  match s.status with
  | .receiving =>
      if r.size = 0 then
        { s with memory := s.memory.recv r, status := .left r.size }
      else
        match parseReceived order s.memory r with
        | some parsed => { s with memory := s.memory.recv r, log := s.log ++ [(r.size, parsed)] }
        | none => { s with memory := s.memory.recv r, status := .fault }
  | _ => s

def receiveLoop (order : ByteOrder) (s : ServerState) (results : List RecvResult) : ServerState :=
  results.foldl (receiveStep order) s

/-- The messages that have been reported. -/
def ServerState.messages (s : ServerState) : List Report :=
  s.log.filterMap fun
    | (_, .message report) => some report
    | _ => none

end ReceiveLoop

section Parsing

variable {order : ByteOrder}

theorem loadNetTxInfo_append
    {msg : Octets} {netInfo : NetTxInfo}
    (h : loadNetTxInfo order msg = some netInfo)
    (rest : Octets) :
    loadNetTxInfo order (msg ++ rest) = some netInfo := by
  rw [loadNetTxInfo] at h ⊢
  by_cases hroom : NetTxInfo.bytes ≤ msg.length
  · have hlong : NetTxInfo.bytes ≤ (msg ++ rest).length := by
      rw [List.length_append]
      omega
    have hbytes : NetTxInfo.bytes = 24 := rfl
    have hslice : ∀ i n, i + n ≤ 24 → slice (msg ++ rest) i n = slice msg i n :=
      fun i n hin => slice_append_left _ (by omega)
    rw [if_pos hroom] at h
    rw [if_pos hlong]
    simp only [hslice 0 4 (by omega), hslice 4 4 (by omega), hslice 8 4 (by omega),
      hslice 12 2 (by omega), hslice 14 2 (by omega), hslice 16 2 (by omega),
      hslice 18 2 (by omega), hslice 20 4 (by omega)]
    exact h
  · rw [if_neg hroom] at h
    cases h

theorem loadContextInfo_append
    {context : Octets} {contextInfo : ContextInfo}
    (h : loadContextInfo order context = some contextInfo)
    (rest : Octets) :
    loadContextInfo order (context ++ rest) = some contextInfo := by
  rw [loadContextInfo] at h ⊢
  by_cases hroom : ContextInfo.deviceSerialNo ≤ context.length
  · have hlong : ContextInfo.deviceSerialNo ≤ (context ++ rest).length := by
      rw [List.length_append]
      omega
    have hbytes : ContextInfo.deviceSerialNo = 28 := rfl
    have hslice : ∀ i n, i + n ≤ 28 → slice (context ++ rest) i n = slice context i n :=
      fun i n hin => slice_append_left _ (by omega)
    rw [if_pos hroom] at h
    rw [if_pos hlong]
    simp only [hslice 0 4 (by omega), hslice 4 4 (by omega), hslice 8 4 (by omega),
      hslice 12 4 (by omega), hslice 16 4 (by omega), hslice 20 4 (by omega),
      hslice 24 4 (by omega)]
    exact h
  · rw [if_neg hroom] at h
    cases h

theorem le_length_of_loadNetTxInfo
    {msg : Octets} {netInfo : NetTxInfo}
    (h : loadNetTxInfo order msg = some netInfo) :
    NetTxInfo.bytes ≤ msg.length := by
  by_contra hshort
  rw [loadNetTxInfo, if_neg hshort] at h
  cases h

theorem le_length_of_loadContextInfo
    {context : Octets} {contextInfo : ContextInfo}
    (h : loadContextInfo order context = some contextInfo) :
    ContextInfo.deviceSerialNo ≤ context.length := by
  by_contra hshort
  rw [loadContextInfo, if_neg hshort] at h
  cases h

/-- What is parsed without a fault is parsed in the same way whatever follows. -/
theorem parseMsg_append
    {msg : Octets} {len : BitVec 32} {parsed : ParseOutcome}
    (h : parseMsg order msg len = some parsed)
    (rest : Octets) :
    parseMsg order (msg ++ rest) len = some parsed := by
  rw [parseMsg] at h ⊢
  by_cases hsmall : len.toNat < NetTxInfo.bytes
  · rw [if_pos hsmall] at h ⊢
    exact h
  · rw [if_neg hsmall] at h ⊢
    obtain ⟨netInfo, hnet, h⟩ := Option.bind_eq_some_iff.mp h
    rw [loadNetTxInfo_append hnet, Option.bind_some]
    by_cases hsize : len.toNat < netInfo.size
    · rw [if_pos hsize] at h ⊢
      exact h
    · rw [if_neg hsize] at h ⊢
      dsimp only at h ⊢
      obtain ⟨contextInfo, hcontext, h⟩ := Option.bind_eq_some_iff.mp h
      obtain ⟨serialNo, hserial, h⟩ := Option.map_eq_some_iff.mp h
      rw [List.drop_append_of_le_length (le_length_of_loadNetTxInfo hnet),
        loadContextInfo_append hcontext, Option.bind_some,
        List.drop_append_of_le_length (le_length_of_loadContextInfo hcontext),
        readString_append hserial, Option.map_some, h]

/-- The size that a message gives itself. -/
def claimedSize (order : ByteOrder) (msg : Octets) : Nat :=
  wordValue order (slice msg 0 4)

/-- A message that passes both checks is reported, with its serial number up to the first zero. -/
theorem parseMsg_message
    {msg : Octets} {len : BitVec 32} {serialNo : Octets}
    (hlen : 24 ≤ len.toNat)
    (hroom : 52 ≤ msg.length)
    (hsize : claimedSize order msg ≤ len.toNat)
    (hserial : readString (msg.drop 52) = some serialNo) :
    ∃ report, parseMsg order msg len = some (.message report) ∧
      report.deviceSerialNo = serialNo := by
  have hbytes : NetTxInfo.bytes = 24 := rfl
  have hoffset : ContextInfo.deviceSerialNo = 28 := rfl
  have hcontext : ContextInfo.deviceSerialNo ≤ (msg.drop NetTxInfo.bytes).length := by
    rw [List.length_drop]
    omega
  have hfits : ¬ len.toNat < wordValue order (slice msg 0 4) := Nat.not_lt.mpr hsize
  have hstring : NetTxInfo.bytes + ContextInfo.deviceSerialNo = 52 := rfl
  rw [parseMsg, if_neg (by omega), loadNetTxInfo, if_pos (by omega), Option.bind_some]
  dsimp only
  rw [if_neg hfits, loadContextInfo, if_pos hcontext, Option.bind_some, List.drop_drop, hstring,
    hserial, Option.map_some]
  exact ⟨_, rfl, rfl⟩

/-- The other messages are turned away. -/
theorem exists_parseMsg_of_lt
    {msg : Octets} {len : BitVec 32}
    (hroom : len.toNat ≤ msg.length)
    (h : len.toNat < 24 ∨ len.toNat < claimedSize order msg) :
    ∃ parsed, parseMsg order msg len = some parsed := by
  rw [parseMsg]
  by_cases hsmall : len.toNat < NetTxInfo.bytes
  · exact ⟨.tooSmall, if_pos hsmall⟩
  · have hclaim : len.toNat < wordValue order (slice msg 0 4) := h.resolve_left hsmall
    refine ⟨.disMatch, ?_⟩
    rw [if_neg hsmall, loadNetTxInfo, if_pos (by omega), Option.bind_some]
    exact if_pos hclaim

end Parsing

section OwnBytes

variable {order : ByteOrder}

/-- A result that leaves nothing to read but what it has stored. -/
def RecvResult.SelfContained (order : ByteOrder) : RecvResult → Prop
  | .data chunk =>
      chunk.bytes.length < 24 ∨ chunk.bytes.length < claimedSize order chunk.bytes ∨
        0 ∈ chunk.bytes.drop 52
  | .closed => True
  | .error => False

theorem recv_data_bytes
    (m : ReceiveMemory)
    (chunk : Chunk) :
    (m.recv (.data chunk)).bytes = chunk.bytes ++ m.bytes.drop chunk.bytes.length :=
  overwrite_zero (chunk.fits.trans m.page)

theorem toNat_data_size
    (chunk : Chunk) :
    (BitVec.ofInt 32 (RecvResult.data chunk).size).toNat = chunk.bytes.length := by
  have hfits := chunk.fits
  have hpage : pageSize = 4096 := rfl
  rw [RecvResult.size, BitVec.ofInt_natCast, BitVec.toNat_ofNat]
  exact Nat.mod_eq_of_lt (by omega)

/-- A chunk that is self-contained is parsed, and parsed alike in every memory. -/
theorem exists_parseReceived
    {chunk : Chunk}
    (h : (RecvResult.data chunk).SelfContained order) :
    ∃ parsed, ∀ m, parseReceived order m (.data chunk) = some parsed := by
  have hsize := toNat_data_size chunk
  have halone : ∃ parsed, parseMsg order chunk.bytes
      (BitVec.ofInt 32 (RecvResult.data chunk).size) = some parsed := by
    generalize BitVec.ofInt 32 (RecvResult.data chunk).size = len at hsize ⊢
    rw [RecvResult.SelfContained, ← hsize] at h
    by_cases hturned : len.toNat < 24 ∨ len.toNat < claimedSize order chunk.bytes
    · exact exists_parseMsg_of_lt (by omega) hturned
    · rw [not_or] at hturned
      have hzero := (h.resolve_left hturned.1).resolve_left hturned.2
      obtain ⟨serialNo, hserial⟩ := exists_readString hzero
      have hpos := List.length_pos_of_mem hzero
      rw [List.length_drop] at hpos
      obtain ⟨report, hparsed, _⟩ :=
        parseMsg_message (Nat.not_lt.mp hturned.1) (by omega) (Nat.not_lt.mp hturned.2) hserial
      exact ⟨.message report, hparsed⟩
  obtain ⟨parsed, hparsed⟩ := halone
  refine ⟨parsed, fun m => ?_⟩
  rw [parseReceived, recv_data_bytes]
  exact parseMsg_append hparsed _

def clearPage : Octets := List.replicate pageSize 0

/-- A memory of zeros with one byte set. -/
def markedMemory (k : Nat) (x : BitVec 8) : ReceiveMemory where
  bytes := List.replicate k 0 ++ x :: clearPage
  page := by
    rw [List.length_append, List.length_cons, clearPage, List.length_replicate,
      List.length_replicate]
    omega

/-- Behind the bytes of a chunk, or where a short one should have its serial number. -/
theorem markedMemory_recv_drop
    (chunk : Chunk)
    (x : BitVec 8) :
    ((markedMemory (max chunk.bytes.length 52) x).recv (.data chunk)).bytes.drop 52 =
      chunk.bytes.drop 52 ++ x :: clearPage := by
  rw [recv_data_bytes, markedMemory]
  dsimp only
  rw [List.drop_append, List.drop_drop]
  have hfront : (List.replicate (max chunk.bytes.length 52) (0 : BitVec 8)).length =
      chunk.bytes.length + (52 - chunk.bytes.length) := by
    rw [List.length_replicate]
    omega
  rw [List.drop_left' hfront]

theorem parseReceived_markedMemory
    {chunk : Chunk}
    (h : ¬ (RecvResult.data chunk).SelfContained order)
    {x : BitVec 8} {s : Octets}
    (hs : readString (x :: clearPage) = some s) :
    ∃ report,
      parseReceived order (markedMemory (max chunk.bytes.length 52) x) (.data chunk) =
        some (.message report) ∧
      report.deviceSerialNo = chunk.bytes.drop 52 ++ s := by
  rw [RecvResult.SelfContained, not_or, not_or] at h
  obtain ⟨hlong, hclaim, hzero⟩ := h
  have hpage : pageSize = 4096 := rfl
  have hbytes := recv_data_bytes (markedMemory (max chunk.bytes.length 52) x) chunk
  have hclaimed : claimedSize order
      ((markedMemory (max chunk.bytes.length 52) x).recv (.data chunk)).bytes =
        claimedSize order chunk.bytes := by
    rw [hbytes, claimedSize, slice_append_left _ (by omega)]
    rfl
  apply parseMsg_message
  · rw [toNat_data_size]
    omega
  · have := ((markedMemory (max chunk.bytes.length 52) x).recv (.data chunk)).page
    omega
  · rw [toNat_data_size, hclaimed]
    omega
  · rw [markedMemory_recv_drop, readString_append_of_notMem hzero, hs, Option.map_some]

/-- A chunk that is not self-contained is reported with what happens to follow it. -/
theorem exists_parseReceived_ne
    {chunk : Chunk}
    (h : ¬ (RecvResult.data chunk).SelfContained order) :
    ∃ m m', parseReceived order m (.data chunk) ≠ parseReceived order m' (.data chunk) := by
  obtain ⟨report, hparsed, hserial⟩ :=
    parseReceived_markedMemory h (show readString (0 :: clearPage) = some [] from rfl)
  obtain ⟨report', hparsed', hserial'⟩ :=
    parseReceived_markedMemory h (show readString (1 :: clearPage) = some [1] from rfl)
  refine ⟨markedMemory (max chunk.bytes.length 52) 0, markedMemory (max chunk.bytes.length 52) 1,
    fun heq => ?_⟩
  rw [hparsed, hparsed', Option.some.injEq, ParseOutcome.message.injEq] at heq
  rw [← heq, hserial] at hserial'
  cases List.append_cancel_left hserial'

end OwnBytes

section Runs

variable {order : ByteOrder}

/-- A run up to a result, the step for the result, and the rest of the run. -/
theorem receiveLoop_append_cons
    (s : ServerState)
    (before : List RecvResult)
    (r : RecvResult)
    (after : List RecvResult) :
    receiveLoop order s (before ++ r :: after) =
      receiveLoop order (receiveStep order (receiveLoop order s before) r) after :=
  List.foldl_append

/-- Once the loop has ended, no result is taken. -/
theorem receiveLoop_of_ended
    {s : ServerState}
    (h : s.status ≠ .receiving)
    (results : List RecvResult) :
    receiveLoop order s results = s := by
  induction results with
  | nil =>
      rfl
  | cons r results ih =>
      have hstep : receiveStep order s r = s := by
        rw [receiveStep]
        split
        case h_1 hstatus =>
          exact absurd hstatus h
        case h_2 =>
          rfl
      rw [receiveLoop, List.foldl_cons, hstep]
      exact ih

theorem receiveStep_closed
    (order : ByteOrder)
    {s : ServerState}
    (h : s.status = .receiving) :
    (receiveStep order s .closed).status = .left 0 ∧
      (receiveStep order s .closed).log = s.log := by
  rw [receiveStep, h]
  exact ⟨rfl, rfl⟩

/-- A result that is not 0 never ends the loop other than by a fault. -/
theorem receiveStep_of_size_ne
    {s : ServerState}
    (h : s.status = .receiving)
    {r : RecvResult}
    (hr : r.size ≠ 0) :
    (receiveStep order s r).status =
      if (parseReceived order s.memory r).isSome then .receiving else .fault := by
  rw [receiveStep, h]
  dsimp only
  rw [if_neg hr]
  cases parseReceived order s.memory r with
  | none =>
      rfl
  | some parsed =>
      rfl

theorem data_size_ne
    (chunk : Chunk) :
    (RecvResult.data chunk).size ≠ 0 := by
  have hpos := chunk.pos
  rw [RecvResult.size]
  omega

/-- Results that are self-contained keep the loop going. -/
theorem receiveLoop_receiving
    {s : ServerState}
    (h : s.status = .receiving)
    {results : List RecvResult}
    (hopen : .closed ∉ results)
    (hself : ∀ r, r ∈ results → r.SelfContained order) :
    (receiveLoop order s results).status = .receiving := by
  induction results generalizing s with
  | nil =>
      exact h
  | cons r results ih =>
      have hfirst := hself r List.mem_cons_self
      have hstep : (receiveStep order s r).status = .receiving := by
        cases r with
        | data chunk =>
            obtain ⟨parsed, hparsed⟩ := exists_parseReceived hfirst
            rw [receiveStep_of_size_ne h (data_size_ne chunk), hparsed]
            rfl
        | closed =>
            exact absurd List.mem_cons_self hopen
        | error =>
            exact absurd hfirst id
      exact ih hstep (fun hq => hopen (List.mem_cons_of_mem r hq))
        (fun q hq => hself q (List.mem_cons_of_mem r hq))

theorem status_of_receiveLoop
    {s : ServerState} {results : List RecvResult}
    (h : (receiveLoop order s results).status = .receiving) :
    s.status = .receiving := by
  by_contra hended
  rw [receiveLoop_of_ended hended] at h
  exact hended h

/-- While the loop is going, the connection has not been closed. -/
theorem closed_notMem_of_receiving
    {s : ServerState} {results : List RecvResult}
    (h : (receiveLoop order s results).status = .receiving) :
    .closed ∉ results := by
  induction results generalizing s with
  | nil =>
      exact List.not_mem_nil
  | cons r results ih =>
      have hrest : (receiveLoop order (receiveStep order s r) results).status = .receiving := h
      intro hmem
      rcases List.mem_cons.mp hmem with hr | hmem
      · have hstep := status_of_receiveLoop hrest
        rw [← hr, (receiveStep_closed order (status_of_receiveLoop h)).1] at hstep
        cases hstep
      · exact ih hrest hmem

end Runs

/--
The server reports only what it just received, for the results on a connection.
What is made of a chunk is the same as in every other run in which the chunk is
received, whatever the stack held and whatever was received before; and after a 0 or
an error the loop has been left, and no message follows.
-/
def ReportsReceived (order : ByteOrder) (results : List RecvResult) : Prop :=
  ∀ m before r after,
    results = before ++ r :: after →
    (receiveLoop order (.start m) before).status = .receiving →
      match r with
      | .data chunk =>
          ∀ m' before',
            (receiveLoop order (.start m') before').status = .receiving →
              parseReceived order (receiveLoop order (.start m) before).memory (.data chunk) =
                parseReceived order (receiveLoop order (.start m') before').memory (.data chunk)
      | r =>
          (∃ n, (receiveLoop order (.start m) (before ++ [r])).status = .left n) ∧
            (receiveLoop order (.start m) results).messages =
              (receiveLoop order (.start m) before).messages

section Conditions

variable {order : ByteOrder} {results : List RecvResult}

/-- A result that the loop comes to after self-contained ones has to be self-contained. -/
theorem selfContained_of_before
    (h : ReportsReceived order results)
    {before after : List RecvResult} {r : RecvResult}
    (hresults : results = before ++ r :: after)
    (hopen : .closed ∉ before)
    (hself : ∀ q, q ∈ before → q.SelfContained order) :
    r.SelfContained order := by
  have hgoing : ∀ m, (receiveLoop order (.start m) before).status = .receiving :=
    fun m => receiveLoop_receiving rfl hopen hself
  cases r with
  | data chunk =>
      by_contra hnot
      -- Both memories are possible before a first call.
      obtain ⟨m, m', hne⟩ := exists_parseReceived_ne hnot
      have hsame := h m before (.data chunk) after hresults (hgoing m)
      exact hne ((hsame m [] rfl).symm.trans (hsame m' [] rfl))
  | closed =>
      trivial
  | error =>
      obtain ⟨⟨n, hleft⟩, _⟩ := h (markedMemory 0 0) before .error after hresults (hgoing _)
      have hstep : (receiveStep order (receiveLoop order (.start (markedMemory 0 0)) before)
          .error).status = _ := receiveStep_of_size_ne (hgoing _) (by decide)
      rw [receiveLoop_append_cons, receiveLoop, List.foldl_nil, hstep] at hleft
      split at hleft <;> cases hleft

/-- So all results are that come before the connection is closed. -/
theorem selfContained_of_mem_before
    (h : ReportsReceived order results)
    {before after : List RecvResult}
    (hresults : results = before ++ after)
    (hopen : .closed ∉ before) :
    ∀ r, r ∈ before → r.SelfContained order := by
  induction before using List.reverseRecOn generalizing after with
  | nil =>
      intro r hr
      cases hr
  | append_singleton before q ih =>
      rw [List.append_assoc, List.singleton_append] at hresults
      have hfront : .closed ∉ before := fun hmem => hopen (List.mem_append_left [q] hmem)
      have hself := ih hresults hfront
      intro r hr
      rcases List.mem_append.mp hr with hr | hr
      · exact hself r hr
      · rw [List.mem_singleton.mp hr]
        exact selfContained_of_before h hresults hfront hself

/-- After a 0 nothing is reported. -/
theorem closed_ends_loop
    {m : ReceiveMemory} {before : List RecvResult}
    (hgoing : (receiveLoop order (.start m) before).status = .receiving)
    (after : List RecvResult) :
    (receiveLoop order (.start m) (before ++ [.closed])).status = .left 0 ∧
      (receiveLoop order (.start m) (before ++ .closed :: after)).messages =
        (receiveLoop order (.start m) before).messages := by
  obtain ⟨hleft, hlog⟩ := receiveStep_closed order hgoing
  have hended : (receiveStep order (receiveLoop order (.start m) before) .closed).status ≠
      .receiving := by
    rw [hleft]
    exact LoopStatus.noConfusion
  have hrun : receiveLoop order (.start m) (before ++ .closed :: after) =
      receiveStep order (receiveLoop order (.start m) before) .closed := by
    rw [receiveLoop_append_cons]
    exact receiveLoop_of_ended hended after
  constructor
  · rw [receiveLoop_append_cons]
    exact hleft
  · rw [hrun, ServerState.messages, hlog, ← ServerState.messages]

end Conditions

/--
The server reports only what it just received exactly when, until the connection is
closed, no call fails and every chunk is turned away by the two checks of its size or
has a zero at or behind the offset of the serial number.
-/
theorem reportsReceived_iff
    (order : ByteOrder)
    (results : List RecvResult) :
    ReportsReceived order results ↔
      ∀ before r after, results = before ++ r :: after → .closed ∉ before →
        r.SelfContained order := by
  constructor
  · intro h before r after hresults hopen
    exact selfContained_of_before h hresults hopen (selfContained_of_mem_before h hresults hopen)
  · intro h m before r after hresults hgoing
    have hself := h before r after hresults (closed_notMem_of_receiving hgoing)
    cases r with
    | data chunk =>
        intro m' before' _
        obtain ⟨parsed, hparsed⟩ := exists_parseReceived hself
        rw [hparsed, hparsed]
    | closed =>
        rw [hresults]
        obtain ⟨hleft, hmessages⟩ := closed_ends_loop hgoing after
        exact ⟨⟨0, hleft⟩, hmessages⟩
    | error =>
        exact absurd hself id

section Leftovers

/-- A message of 72 bytes, with the state of the camera. -/
def contextMessage (camera : BitVec 8) : Chunk where
  bytes := [72, 0, 0, 0] ++ List.replicate 44 0 ++ [camera, 0, 0, 0] ++ List.replicate 20 0
  pos := Nat.le_of_ble_eq_true rfl
  fits := Nat.le_of_ble_eq_true rfl

/-- A message of 24 bytes: a head, and nothing behind it. -/
def headMessage : Chunk where
  bytes := [24, 0, 0, 0] ++ List.replicate 20 0
  pos := Nat.le_of_ble_eq_true rfl
  fits := Nat.le_of_ble_eq_true rfl

theorem contextMessage_selfContained
    (camera : BitVec 8) :
    (RecvResult.data (contextMessage camera)).SelfContained .little :=
  Or.inr (Or.inr List.mem_cons_self)

/-- The head alone is reported with the context of the message before it. -/
theorem headMessage_after_contextMessage
    (m : ReceiveMemory)
    {camera : BitVec 8} {parsed : ParseOutcome}
    (h : parseMsg .little (headMessage.bytes ++ (contextMessage camera).bytes.drop 24) 24 =
      some parsed) :
    parseReceived .little (receiveLoop .little (.start m) [.data (contextMessage camera)]).memory
      (.data headMessage) = some parsed := by
  have hmemory : (receiveLoop .little (.start m) [.data (contextMessage camera)]).memory =
      m.recv (.data (contextMessage camera)) := by
    obtain ⟨first, hfirst⟩ := exists_parseReceived (contextMessage_selfContained camera)
    rw [receiveLoop, List.foldl_cons, List.foldl_nil, receiveStep]
    dsimp only [ServerState.start]
    rw [if_neg (data_size_ne _), hfirst]
  have hlength : headMessage.bytes.length = 24 := rfl
  have hbefore : 24 ≤ (contextMessage camera).bytes.length := Nat.le_of_ble_eq_true rfl
  rw [hmemory, parseReceived, recv_data_bytes, recv_data_bytes, hlength,
    List.drop_append_of_le_length hbefore, ← List.append_assoc]
  exact parseMsg_append h _

/-- Two runs that end with the same head, and a run that ends with an error. -/
theorem leftovers_reported :
    ¬ ReportsReceived .little [.data (contextMessage 1), .data headMessage] ∧
      ¬ ReportsReceived .little [.data (contextMessage 1), .error] := by
  have hopen : ∀ camera, .closed ∉ [RecvResult.data (contextMessage camera)] := by
    intro camera hmem
    cases List.mem_singleton.mp hmem
  have hself : ∀ camera r, r ∈ [RecvResult.data (contextMessage camera)] →
      r.SelfContained .little :=
    fun camera => List.forall_mem_singleton.mpr (contextMessage_selfContained camera)
  have hgoing : ∀ m camera, (receiveLoop .little (.start m)
      [.data (contextMessage camera)]).status = .receiving :=
    fun m camera => receiveLoop_receiving rfl (hopen camera) (hself camera)
  constructor
  · intro h
    have hsame := h (markedMemory 0 0) [.data (contextMessage 1)] (.data headMessage) [] rfl
      (hgoing _ 1) (markedMemory 0 0) [.data (contextMessage 0)] (hgoing _ 0)
    rw [headMessage_after_contextMessage (markedMemory 0 0) rfl,
      headMessage_after_contextMessage (markedMemory 0 0) rfl] at hsame
    revert hsame
    decide
  · intro h
    exact selfContained_of_before h rfl (hopen 1) (hself 1)

end Leftovers
end MessageServer

end Poise
