import Mathlib.Tactic
import Poise.Foundations.WireFormat

/-!
# Foundations: the secure hash algorithm and keyed hashes

SHA-1 as FIPS 180 defines it: a message is padded to blocks of 64 bytes, every
block is expanded to a schedule of 80 words, and 80 rounds mix the schedule into
five words.  All words are read and written with the highest byte first.

The second part feeds a message byte by byte and compresses whenever a block is
complete; over whole blocks this is the same as absorbing them one by one.
-/

namespace Foundations

section SecureHash

abbrev Word32 : Type := BitVec 32

abbrev Octets : Type := List (BitVec 8)

/-- The five words of the hash value. -/
structure HashValue where
  a : Word32
  b : Word32
  c : Word32
  d : Word32
  e : Word32
deriving DecidableEq, Repr

def HashValue.initial : HashValue :=
  { a := 0x67452301, b := 0xefcdab89, c := 0x98badcfe, d := 0x10325476, e := 0xc3d2e1f0 }

def HashValue.add (h v : HashValue) : HashValue :=
  { a := h.a + v.a, b := h.b + v.b, c := h.c + v.c, d := h.d + v.d, e := h.e + v.e }

def choose (x y z : Word32) : Word32 :=
  (x &&& y) ^^^ (~~~x &&& z)

def parity (x y z : Word32) : Word32 :=
  x ^^^ y ^^^ z

def majority (x y z : Word32) : Word32 :=
  (x &&& y) ^^^ (x &&& z) ^^^ (y &&& z)

def roundFunction (t : Nat) (x y z : Word32) : Word32 :=
  if t < 20 then choose x y z
  else if t < 40 then parity x y z
  else if t < 60 then majority x y z
  else parity x y z

def roundConstant (t : Nat) : Word32 :=
  if t < 20 then 0x5a827999
  else if t < 40 then 0x6ed9eba1
  else if t < 60 then 0x8f1bbcdc
  else 0xca62c1d6

def hashRound (t : Nat) (w : Word32) (v : HashValue) : HashValue :=
  { a := v.a.rotateLeft 5 + roundFunction t v.b v.c v.d + v.e + roundConstant t + w
    b := v.a
    c := v.b.rotateLeft 30
    d := v.c
    e := v.d }

/-- The word behind a started schedule. -/
def nextWord (w : List Word32) : Word32 :=
  let t := w.length
  (w.getD (t - 3) 0 ^^^ w.getD (t - 8) 0 ^^^ w.getD (t - 14) 0 ^^^ w.getD (t - 16) 0).rotateLeft 1

def expand : Nat → List Word32 → List Word32
  | 0, w => w
  | n + 1, w => expand n (w ++ [nextWord w])

/-- The schedule of a block of 16 words. -/
def schedule (block : List Word32) : List Word32 :=
  expand 64 block

def compress (h : HashValue) (block : List Word32) : HashValue :=
  let w := schedule block
  h.add ((List.range 80).foldl (fun v t => hashRound t (w.getD t 0) v) h)

/-- The words of a sequence of bytes. -/
def bigWords : Octets → List Word32
  | x₀ :: x₁ :: x₂ :: x₃ :: b => BitVec.ofNat 32 (wordValue .big [x₀, x₁, x₂, x₃]) :: bigWords b
  | _ => []

/-- What is put behind a message: a one, zeros up to the last eight bytes, the length in bits. -/
def padding (n : Nat) : Octets :=
  0x80 :: List.replicate ((119 - n % 64) % 64) 0x00 ++ wordBytes .big 8 (8 * n)

/-- Compress some blocks. -/
def absorb : Nat → HashValue → Octets → HashValue
  | 0, h, _ => h
  | n + 1, h, b => absorb n (compress h (bigWords (b.take 64))) (b.drop 64)

def digest (h : HashValue) : Octets :=
  [h.a, h.b, h.c, h.d, h.e].flatMap fun w => wordBytes .big 4 w.toNat

def sha1 (message : Octets) : Octets :=
  let padded := message ++ padding message.length
  digest (absorb (padded.length / 64) .initial padded)

/-- The example of the standard. -/
example :
    sha1 [0x61, 0x62, 0x63] =
      [0xa9, 0x99, 0x3e, 0x36, 0x47, 0x06, 0x81, 0x6a, 0xba, 0x3e,
       0x25, 0x71, 0x78, 0x50, 0xc2, 0x6c, 0x9c, 0xd0, 0xd8, 0x9d] := by
  decide +kernel

section Schedule

theorem getD_append_of_lt
    (v : List Word32)
    {w : List Word32} {t : Nat}
    (ht : t < w.length) :
    (w ++ v).getD t 0 = w.getD t 0 := by
  rw [List.getD_eq_getElem?_getD, List.getElem?_append_left ht, ← List.getD_eq_getElem?_getD]

/-- Words that are there stay. -/
theorem getD_expand_of_lt
    (n : Nat)
    {w : List Word32} {t : Nat}
    (ht : t < w.length) :
    (expand n w).getD t 0 = w.getD t 0 := by
  induction n generalizing w with
  | zero =>
      rfl
  | succ n ih =>
      rw [expand, ih (by rw [List.length_append]; omega), getD_append_of_lt _ ht]

/-- The recurrence of the words behind the block. -/
theorem getD_expand
    (n : Nat)
    {w : List Word32} {t : Nat}
    (hw : 16 ≤ w.length)
    (ht : w.length ≤ t)
    (ht' : t < w.length + n) :
    (expand n w).getD t 0 =
      ((expand n w).getD (t - 3) 0 ^^^ (expand n w).getD (t - 8) 0 ^^^
        (expand n w).getD (t - 14) 0 ^^^ (expand n w).getD (t - 16) 0).rotateLeft 1 := by
  induction n generalizing w with
  | zero =>
      omega
  | succ n ih =>
      have hlength : (w ++ [nextWord w]).length = w.length + 1 := by
        rw [List.length_append, List.length_singleton]
      rw [expand]
      by_cases hfirst : t = w.length
      · have hback : ∀ k, 0 < k → k ≤ 16 →
            (expand n (w ++ [nextWord w])).getD (t - k) 0 = w.getD (w.length - k) 0 := by
          intro k hk hk'
          rw [getD_expand_of_lt n (by omega), getD_append_of_lt _ (by omega), hfirst]
        rw [hback 3 (by omega) (by omega), hback 8 (by omega) (by omega),
          hback 14 (by omega) (by omega), hback 16 (by omega) (by omega),
          getD_expand_of_lt n (by omega), hfirst, List.getD_eq_getElem?_getD,
          List.getElem?_concat_length]
        rfl
      · exact ih (by omega) (by omega) (by omega)

end Schedule

/-- The words of a sequence of bytes, by their positions. -/
theorem bigWords_eq_map
    {b : Octets} {n : Nat}
    (h : b.length = 4 * n) :
    bigWords b =
      (List.range n).map fun i => BitVec.ofNat 32 (wordValue .big (slice b (4 * i) 4)) := by
  induction n generalizing b with
  | zero =>
      have hnil : b = [] := List.eq_nil_of_length_eq_zero h
      rw [hnil]
      rfl
  | succ n ih =>
      obtain ⟨x₀, x₁, x₂, x₃, rest, rfl⟩ : ∃ x₀ x₁ x₂ x₃ rest,
          b = x₀ :: x₁ :: x₂ :: x₃ :: rest := by
        rcases b with _ | ⟨x₀, _ | ⟨x₁, _ | ⟨x₂, _ | ⟨x₃, rest⟩⟩⟩⟩ <;>
          simp only [List.length_cons, List.length_nil] at h
        · omega
        · omega
        · omega
        · omega
        · exact ⟨x₀, x₁, x₂, x₃, rest, rfl⟩
      have hrest : rest.length = 4 * n := by
        simp only [List.length_cons] at h
        omega
      rw [bigWords, List.range_succ_eq_map, List.map_cons, List.map_map, ih hrest]
      rfl

section Feeding

/-- Take a byte: compress when it completes a block. -/
def feed (q : HashValue × Octets) (x : BitVec 8) : HashValue × Octets :=
  if q.2.length + 1 = 64 then (compress q.1 (bigWords (q.2 ++ [x])), []) else (q.1, q.2 ++ [x])

theorem foldl_feed_of_lt
    {h : HashValue} {pending b : Octets}
    (hlen : pending.length + b.length < 64) :
    b.foldl feed (h, pending) = (h, pending ++ b) := by
  induction b generalizing pending with
  | nil =>
      rw [List.foldl_nil, List.append_nil]
  | cons x b ih =>
      rw [List.length_cons] at hlen
      have hfeed : feed (h, pending) x = (h, pending ++ [x]) := if_neg (by dsimp only; omega)
      rw [List.foldl_cons, hfeed, ih (by rw [List.length_append, List.length_singleton]; omega),
        List.append_assoc, List.singleton_append]

/-- Bytes of a whole block are compressed. -/
theorem foldl_feed_block
    {h : HashValue} {b : Octets}
    (hlen : b.length = 64) :
    b.foldl feed (h, []) = (compress h (bigWords b), []) := by
  obtain ⟨front, x, rfl⟩ : ∃ front x, b = front ++ [x] := by
    refine ⟨b.dropLast, b.getLast (by rintro rfl; cases hlen), ?_⟩
    exact (List.dropLast_append_getLast _).symm
  rw [List.length_append, List.length_singleton] at hlen
  have hfront : front.foldl feed (h, []) = (h, front) :=
    foldl_feed_of_lt (by rw [List.length_nil]; omega)
  rw [List.foldl_append, hfront]
  exact if_pos hlen

/-- Bytes of whole blocks are absorbed. -/
theorem foldl_feed
    {h : HashValue} {b : Octets} {n : Nat}
    (hlen : b.length = 64 * n) :
    b.foldl feed (h, []) = (absorb n h b, []) := by
  induction n generalizing h b with
  | zero =>
      have hnil : b = [] := List.eq_nil_of_length_eq_zero hlen
      rw [hnil]
      rfl
  | succ n ih =>
      have hblock : (b.take 64).length = 64 := List.length_take_of_le (by omega)
      have hsplit : b.foldl feed (h, []) =
          (b.drop 64).foldl feed ((b.take 64).foldl feed (h, [])) := by
        rw [← List.foldl_append, List.take_append_drop]
      rw [hsplit, foldl_feed_block hblock, ih (by rw [List.length_drop]; omega), absorb]

/-- How many bytes are pending. -/
theorem length_foldl_feed
    (b : Octets)
    {q : HashValue × Octets}
    (hq : q.2.length < 64) :
    (b.foldl feed q).2.length = (q.2.length + b.length) % 64 := by
  induction b generalizing q with
  | nil =>
      exact (Nat.mod_eq_of_lt hq).symm
  | cons x b ih =>
      have hfeed : (feed q x).2.length = (q.2.length + 1) % 64 := by
        rw [feed]
        split
        · rename_i hfull
          rw [hfull]
          rfl
        · rw [List.length_append, List.length_singleton]
          omega
      rw [List.foldl_cons, ih (by omega), hfeed, List.length_cons]
      omega

end Feeding

theorem length_padded
    (message : Octets) :
    (message ++ padding message.length).length % 64 = 0 := by
  rw [padding, List.length_append, List.cons_append, List.length_cons, List.length_append,
    List.length_replicate, length_wordBytes]
  omega

/-- The hash of a message is what feeding the padded message gives. -/
theorem sha1_eq_feed
    (message : Octets) :
    sha1 message =
      digest ((message ++ padding message.length).foldl feed (.initial, [])).1 := by
  have hlen := length_padded message
  rw [sha1, foldl_feed (n := (message ++ padding message.length).length / 64) (by omega)]

section KeyedHash

/-- A key as a block: long keys are hashed, then zeros fill the block. -/
def keyBlock (hash : Octets → Octets) (blockLength : Nat) (key : Octets) : Octets :=
  let short := if blockLength < key.length then hash key else key
  short ++ List.replicate (blockLength - short.length) 0x00

/-- HMAC over a hash function. -/
def hmac (hash : Octets → Octets) (blockLength : Nat) (key message : Octets) : Octets :=
  let block := keyBlock hash blockLength key
  hash (block.map (· ^^^ 0x5c) ++ hash (block.map (· ^^^ 0x36) ++ message))

/-- The dynamic truncation of RFC 4226: 31 bits at a position given by the last byte. -/
def truncateHash (hash : Octets) : Nat :=
  wordValue .big (slice hash ((hash.getD 19 0).toNat % 16) 4) % 2 ^ 31

/-- The six digits of HOTP for a key and a counter. -/
def hotp (key : Octets) (counter : Nat) : Nat :=
  truncateHash (hmac sha1 64 key (wordBytes .big 8 counter)) % 1000000

end KeyedHash

end SecureHash

end Foundations
