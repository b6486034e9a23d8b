import Poise.Foundations.SecureHash

/-!
# Poise client: sending over the stream socket

A reply is sent by a loop around `kernel_sendmsg`.  A call that was interrupted is
made again, a call that took some of the bytes is followed by one for the rest, and
every other result ends the loop.

The socket is given as the list of the results of its calls, each a C integer; a
count is at most what the call asked for.  The number of bytes to send is a `size_t`
and the number of bytes that are left is an `int`: a buffer too long for an `int`
would not be sent as a whole although every call succeeds, but the only caller has
the length in an `int` itself.
-/

namespace Poise

open Foundations

section StreamSending

def eagain : BitVec 32 := -11

def erestartsys : BitVec 32 := -512

def msgDontwait : BitVec 64 := 0x40

/-- The variables of the loop, with the bytes that the socket has accepted. -/
structure SendState where
  written : BitVec 32
  left : BitVec 32
  accepted : Octets
  deriving DecidableEq

/-- What a call asks the socket to take; the `int` is converted to a `size_t`. -/
def SendState.requested (s : SendState) : BitVec 64 :=
  s.left.signExtend 64

/-- A result after which the same call is made again. -/
def isRetry (flags : BitVec 64) (len : BitVec 32) : Bool :=
  len == erestartsys || (flags &&& msgDontwait == 0 && len == eagain)

/-- The state after a call that took some bytes. -/
def SendState.advance (buf : Int → BitVec 8) (s : SendState) (len : BitVec 32) : SendState where
  written := s.written + len
  left := s.left - len
  accepted := s.accepted ++ readFrom buf s.written.toInt len.toNat

def SendState.returnValue (s : SendState) (len : BitVec 32) : BitVec 32 :=
  if s.written ≠ 0 then s.written else len

/-- What follows a call: the state, and the value that is returned unless there is another call. -/
def afterSendmsg
    (buf : Int → BitVec 8) (flags : BitVec 64) (s : SendState) (len : BitVec 32) :
    SendState × Option (BitVec 32) :=
  if isRetry flags len then
    (s, none)
  else if 0 < len.toInt then
    let s := s.advance buf len
    if s.left ≠ 0 then (s, none) else (s, some (s.returnValue len))
  else
    (s, some (s.returnValue len))

/-- A count is at most what was asked for; 0 and errors are always possible. -/
def SendState.allows (s : SendState) (len : BitVec 32) : Bool :=
  decide (len.toInt ≤ s.requested.toNat)

/-- The loop with the results of its calls; there is no value unless it returns after the last. -/
def sendLoop (buf : Int → BitVec 8) (flags : BitVec 64) :
    SendState → List (BitVec 32) → Option (SendState × BitVec 32)
  | _, [] => none
  | s, len :: outcomes =>
      if s.allows len then
        match afterSendmsg buf flags s len with
        | (s, none) => sendLoop buf flags s outcomes
        | (s, some ret) => if outcomes = [] then some (s, ret) else none
      else
        none

def streamMsgSend
    (buf : Int → BitVec 8) (length : BitVec 64) (flags : BitVec 64) (outcomes : List (BitVec 32)) :
    Option (SendState × BitVec 32) :=
  sendLoop buf flags { written := 0, left := length.setWidth 32, accepted := [] } outcomes

/-- The bytes that a result reports as taken. -/
def takenBytes (len : BitVec 32) : Nat :=
  len.toInt.toNat

/-- All bytes that the socket has taken. -/
def totalTaken (outcomes : List (BitVec 32)) : Nat :=
  (outcomes.map takenBytes).sum

/-- The last result is 0 or an error. -/
def EndsWithoutBytes (outcomes : List (BitVec 32)) : Prop :=
  ∃ len, outcomes.getLast? = some len ∧ len.toInt ≤ 0

/-- The bytes of the buffer from the first on were sent once, as many as the value says. -/
structure SendsOnce
    (buf : Int → BitVec 8) (length : BitVec 64) (outcomes : List (BitVec 32))
    (s : SendState) (ret : BitVec 32) : Prop where
  bytes : s.accepted = (readFrom buf 0 length.toNat).take s.accepted.length
  count : 0 < s.accepted.length → ret.toInt = s.accepted.length
  other : s.accepted.length = 0 → outcomes.getLast? = some ret
  whole : s.accepted.length = length.toNat ∨ EndsWithoutBytes outcomes

section Steps

variable {buf : Int → BitVec 8} {flags : BitVec 64} {length : BitVec 64}

/-- The variables after some bytes; how they are read from the buffer as long as none wraps. -/
structure Sending (buf : Int → BitVec 8) (length : BitVec 64) (s : SendState) (n : Nat) : Prop where
  written : s.written = BitVec.ofNat 32 n
  left : s.left = length.setWidth 32 - BitVec.ofNat 32 n
  accepted : s.accepted.length = n
  bytes : n < 2 ^ 31 → s.accepted = readFrom buf 0 n
  inside : length.toNat < 2 ^ 31 → n ≤ length.toNat

theorem sending_start
    (buf : Int → BitVec 8)
    (length : BitVec 64) :
    Sending buf length { written := 0, left := length.setWidth 32, accepted := [] } 0 where
  written := rfl
  left := (BitVec.sub_zero _).symm
  accepted := rfl
  bytes := fun _ => rfl
  inside := fun _ => Nat.zero_le _

/-- A positive C integer is the number of bytes it counts. -/
theorem takenBytes_of_pos
    {len : BitVec 32}
    (h : 0 < len.toInt) :
    takenBytes len = len.toNat ∧ len.toNat < 2 ^ 31 := by
  rw [takenBytes]
  have hint := BitVec.toInt_eq_toNat_cond len
  have hlt := len.isLt
  split at hint <;> omega

theorem takenBytes_of_nonpos
    {len : BitVec 32}
    (h : len.toInt ≤ 0) :
    takenBytes len = 0 := by
  rw [takenBytes]
  omega

/-- For a buffer that an `int` can count, what is left is what has not been sent. -/
theorem Sending.requested_eq
    {s : SendState} {n : Nat}
    (h : Sending buf length s n)
    (hlength : length.toNat < 2 ^ 31) :
    s.requested.toNat = length.toNat - n := by
  have hinside := h.inside hlength
  have hleft : s.left.toNat = length.toNat - n := by
    rw [h.left, BitVec.toNat_sub, BitVec.toNat_setWidth, BitVec.toNat_ofNat]
    omega
  have hmsb : s.left.msb = false := by
    rw [BitVec.msb_eq_false_iff_two_mul_lt]
    omega
  rw [SendState.requested, BitVec.signExtend_eq_setWidth_of_msb_false hmsb, BitVec.toNat_setWidth,
    hleft]
  omega

/-- A call that takes bytes. -/
theorem Sending.advance
    {s : SendState} {n : Nat}
    (h : Sending buf length s n)
    {len : BitVec 32}
    (hallowed : s.allows len = true)
    (hpos : 0 < len.toInt) :
    Sending buf length (s.advance buf len) (n + takenBytes len) := by
  obtain ⟨htaken, hlt⟩ := takenBytes_of_pos hpos
  rw [htaken]
  constructor
  case written =>
    rw [SendState.advance, h.written]
    exact BitVec.eq_of_toNat_eq (by simp)
  case left =>
    rw [SendState.advance, h.left, BitVec.sub_sub]
    exact BitVec.eq_of_toNat_eq (by simp)
  case accepted =>
    rw [SendState.advance, List.length_append, length_readFrom, h.accepted]
  case bytes =>
    intro hsmall
    have hposition : s.written.toInt = n := by
      have hnat : (BitVec.ofNat 32 n).toNat = n := Nat.mod_eq_of_lt (by omega)
      rw [h.written, BitVec.toInt_eq_toNat_of_lt (by omega), hnat]
    rw [SendState.advance, h.bytes (by omega), hposition, readFrom_add, Int.zero_add]
  case inside =>
    intro hlength
    have hrequested := h.requested_eq hlength
    have hinside := h.inside hlength
    rw [SendState.allows, decide_eq_true_eq] at hallowed
    have hint := BitVec.toInt_eq_toNat_of_lt (x := len) (by omega)
    omega

/-- Calls that are made again have taken nothing. -/
theorem takenBytes_of_isRetry
    {len : BitVec 32}
    (h : isRetry flags len = true) :
    takenBytes len = 0 := by
  rw [isRetry, Bool.or_eq_true, Bool.and_eq_true, beq_iff_eq, beq_iff_eq, beq_iff_eq] at h
  rcases h with h | ⟨_, h⟩
  · rw [h]
    rfl
  · rw [h]
    rfl

/-- What a call can lead to: another call, or a return after the last bytes, 0 or an error. -/
theorem afterSendmsg_cases
    (flags : BitVec 64)
    {s : SendState} {n : Nat}
    (h : Sending buf length s n)
    {len : BitVec 32}
    (hallowed : s.allows len = true) :
    ∃ s', Sending buf length s' (n + takenBytes len) ∧
      (afterSendmsg buf flags s len = (s', none) ∨
        afterSendmsg buf flags s len = (s', some (s'.returnValue len)) ∧
          (0 < len.toInt → s'.left = 0)) := by
  rw [afterSendmsg]
  by_cases hretry : isRetry flags len = true
  · refine ⟨s, ?_, Or.inl (if_pos hretry)⟩
    rw [takenBytes_of_isRetry hretry, Nat.add_zero]
    exact h
  rw [if_neg hretry]
  by_cases hpos : 0 < len.toInt
  · refine ⟨s.advance buf len, h.advance hallowed hpos, ?_⟩
    rw [if_pos hpos]
    by_cases hleft : (s.advance buf len).left = 0
    · exact Or.inr ⟨if_neg (not_not.mpr hleft), fun _ => hleft⟩
    · exact Or.inl (if_pos hleft)
  · refine ⟨s, ?_, Or.inr ⟨if_neg hpos, fun h => absurd h hpos⟩⟩
    rw [takenBytes_of_nonpos (by omega), Nat.add_zero]
    exact h

/-- The state after a whole run, and the value it returns. -/
theorem Sending.run
    {s : SendState} {n : Nat}
    (h : Sending buf length s n)
    {outcomes : List (BitVec 32)} {s' : SendState} {ret : BitVec 32}
    (hrun : sendLoop buf flags s outcomes = some (s', ret)) :
    Sending buf length s' (n + totalTaken outcomes) ∧
      ∃ len, outcomes.getLast? = some len ∧ ret = s'.returnValue len ∧
        (0 < len.toInt → s'.left = 0) := by
  induction outcomes generalizing s n with
  | nil =>
      cases hrun
  | cons len outcomes ih =>
      have htotal : n + totalTaken (len :: outcomes) =
          n + takenBytes len + totalTaken outcomes := by
        rw [totalTaken, List.map_cons, List.sum_cons, ← totalTaken, Nat.add_assoc]
      rw [htotal]
      rw [sendLoop] at hrun
      by_cases hallowed : s.allows len = true
      · rw [if_pos hallowed] at hrun
        obtain ⟨t, ht, hagain | ⟨hreturn, hleft⟩⟩ := afterSendmsg_cases flags h hallowed
        · rw [hagain] at hrun
          obtain ⟨hend, last, hlast, hret⟩ := ih ht hrun
          refine ⟨hend, last, ?_, hret⟩
          rw [List.getLast?_cons, hlast]
          rfl
        · rw [hreturn] at hrun
          dsimp only at hrun
          by_cases hnil : outcomes = []
          · rw [if_pos hnil] at hrun
            cases hrun
            rw [hnil]
            exact ⟨ht, len, rfl, rfl, hleft⟩
          · rw [if_neg hnil] at hrun
            cases hrun
      · rw [if_neg hallowed] at hrun
        cases hrun

/-- With all bytes sent, nothing is left of a buffer that an `int` can count. -/
theorem Sending.eq_length
    {s : SendState} {n : Nat}
    (h : Sending buf length s n)
    (hlength : length.toNat < 2 ^ 31)
    (hleft : s.left = 0) :
    n = length.toNat := by
  have hinside := h.inside hlength
  have hrequested := h.requested_eq hlength
  rw [SendState.requested, hleft] at hrequested
  have hzero : ((0 : BitVec 32).signExtend 64).toNat = 0 := rfl
  omega

/-- The value that is returned, as long as an `int` can count the bytes. -/
theorem Sending.returnValue_eq
    {s : SendState} {n : Nat}
    (h : Sending buf length s n)
    (hn : n < 2 ^ 31)
    (len : BitVec 32) :
    (0 < n → (s.returnValue len).toInt = n) ∧ (n = 0 → s.returnValue len = len) := by
  have hnat : (BitVec.ofNat 32 n).toNat = n := Nat.mod_eq_of_lt (by omega)
  rw [SendState.returnValue, h.written]
  constructor
  · intro hpos
    have hne : BitVec.ofNat 32 n ≠ 0 := by
      intro hzero
      rw [hzero] at hnat
      have hnone : (0 : BitVec 32).toNat = 0 := rfl
      omega
    rw [if_pos hne, BitVec.toInt_eq_toNat_of_lt (by omega), hnat]
  · intro hzero
    rw [hzero]
    exact if_neg (not_not.mpr rfl)

end Steps

/--
For every buffer, both kinds of flags and every sequence of results after which it
returns: the bytes accepted by the socket are the first ones of the buffer, none
repeated or skipped, the value is their number or else the last result, and all bytes
were sent unless the last result was 0 or an error, if and only if the length of the
buffer fits an `int`, or the last result was 0 or an error and the number of
bytes that were taken fits an `int`.
-/
theorem streamMsgSend_once_iff
    {buf : Int → BitVec 8} {length flags : BitVec 64} {outcomes : List (BitVec 32)}
    {s : SendState} {ret : BitVec 32}
    (hrun : streamMsgSend buf length flags outcomes = some (s, ret)) :
    SendsOnce buf length outcomes s ret ↔
      length.toNat < 2 ^ 31 ∨ EndsWithoutBytes outcomes ∧ totalTaken outcomes < 2 ^ 31 := by
  obtain ⟨hend, last, hlast, hret, hleft⟩ := (sending_start buf length).run hrun
  rw [Nat.zero_add] at hend
  generalize totalTaken outcomes = n at hend
  constructor
  · intro h
    by_cases hlength : length.toNat < 2 ^ 31
    · exact Or.inl hlength
    have hcount := h.count
    have hwhole := h.whole
    rw [hend.accepted] at hcount hwhole
    have hvalue : ret.toInt < 2 ^ 31 := ret.toInt_lt
    have hn : n < 2 ^ 31 := by
      by_contra hlarge
      have hsame := hcount (by omega)
      omega
    exact Or.inr ⟨hwhole.resolve_left (by omega), hn⟩
  · intro h
    have hn : n < 2 ^ 31 := by
      rcases h with hlength | ⟨_, hn⟩
      · exact (hend.inside hlength).trans_lt hlength
      · exact hn
    have hinside : n ≤ length.toNat := by
      by_cases hlength : length.toNat < 2 ^ 31
      · exact hend.inside hlength
      · omega
    obtain ⟨hsome, hnone⟩ := hend.returnValue_eq hn last
    constructor
    case bytes =>
      rw [hend.accepted, take_readFrom buf 0 hinside]
      exact hend.bytes hn
    case count =>
      rw [hend.accepted, hret]
      exact hsome
    case other =>
      intro hzero
      rw [hend.accepted] at hzero
      rw [hret, hnone hzero]
      exact hlast
    case whole =>
      rw [hend.accepted]
      rcases h with hlength | ⟨hends, _⟩
      · by_cases hpos : 0 < last.toInt
        · exact Or.inl (hend.eq_length hlength (hleft hpos))
        · exact Or.inr ⟨last, hlast, by omega⟩
      · exact Or.inr hends

/-- Of a buffer of 4294967301 bytes five are sent, and the call reports success. -/
example :
    streamMsgSend (fun _ => 0) 4294967301 msgDontwait [5] =
      some ({ written := 5, left := 0, accepted := [0, 0, 0, 0, 0] }, 5) := by
  decide

/--
For every buffer whose length an `int` holds, which is what its only caller has, both
kinds of flags and every sequence of results after which it returns: the bytes accepted
by the socket are the first ones of the buffer, none repeated or skipped, the value is
their number or else the last result, and all bytes were sent unless the last result was
0 or an error.
-/
theorem streamMsgSend_sends_once
    {buf : Int → BitVec 8} {length flags : BitVec 64} {outcomes : List (BitVec 32)}
    {s : SendState} {ret : BitVec 32}
    (hlength : length.toNat < 2 ^ 31)
    (hrun : streamMsgSend buf length flags outcomes = some (s, ret)) :
    SendsOnce buf length outcomes s ret :=
  (streamMsgSend_once_iff hrun).mpr (Or.inl hlength)

/-- Ten bytes in two parts, with an interrupted call in between. -/
theorem streamMsgSend_tenBytes :
    ∃ s, streamMsgSend (fun i => BitVec.ofInt 8 i) 10 0 [4, erestartsys, 6] = some (s, 10) ∧
      SendsOnce (fun i => BitVec.ofInt 8 i) 10 [4, erestartsys, 6] s 10 := by
  have hrun : streamMsgSend (fun i => BitVec.ofInt 8 i) 10 0 [4, erestartsys, 6] =
      some ({ written := 10, left := 0, accepted := [0, 1, 2, 3, 4, 5, 6, 7, 8, 9] }, 10) := by
    decide
  exact ⟨_, hrun, streamMsgSend_sends_once (by decide) hrun⟩

end StreamSending

end Poise
