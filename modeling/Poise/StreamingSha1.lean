import Poise.Foundations.SecureHash

/-!
# Poise client: the streaming SHA-1

The kernel module computes SHA-1 over bytes that are written one by one.  Block
and state are unions of bytes and words on a little-endian machine: bytes are
placed at their index with the two lowest bits flipped, so that the words of a
full block have the highest byte first, and the schedule is computed in place in
the sixteen words of the block.

All variables are static and keep whatever an earlier use has left in them.
-/

namespace Poise

open Foundations

section StreamingSha1

/-- The static variables. -/
structure Sha1Static where
  bufferOffset : Nat
  byteCount : BitVec 32
  keyBuffer : Buffer (BitVec 8) 64
  innerHash : Buffer (BitVec 8) 20
  sha1Buffer : Buffer (BitVec 8) 64
  sha1State : Buffer (BitVec 8) 20

def rol32 (number : BitVec 32) (bits : Nat) : BitVec 32 :=
  (number <<< bits) ||| (number >>> (32 - bits))

def sha1K0 : BitVec 32 := 0x5a827999

def sha1K20 : BitVec 32 := 0x6ed9eba1

def sha1K40 : BitVec 32 := 0x8f1bbcdc

def sha1K60 : BitVec 32 := 0xca62c1d6

/-- The words of a union. -/
def wordAt {n : Nat} (b : Buffer (BitVec 8) n) (i : Nat) : BitVec 32 :=
  b.loadWord .little i

def setWord {n : Nat} (b : Buffer (BitVec 8) n) (i : Nat) (v : BitVec 32) : Buffer (BitVec 8) n :=
  b.storeWord .little i v

/-- The next word of the schedule takes the place of the oldest one. -/
def rollSchedule (buffer : Buffer (BitVec 8) 64) (i : Nat) : Buffer (BitVec 8) 64 :=
  if i ≥ 16 then
    let t := wordAt buffer ((i + 13) &&& 15) ^^^ wordAt buffer ((i + 8) &&& 15) ^^^
      wordAt buffer ((i + 2) &&& 15) ^^^ wordAt buffer (i &&& 15)
    setWord buffer (i &&& 15) (rol32 t 1)
  else
    buffer

/-- The body of the loop of `hashBlock`. -/
def hashStep (q : HashValue × Buffer (BitVec 8) 64) (i : Nat) :
    HashValue × Buffer (BitVec 8) 64 :=
  let v := q.1
  let buffer := rollSchedule q.2 i
  let t :=
    if i < 20 then (v.d ^^^ (v.b &&& (v.c ^^^ v.d))) + sha1K0
    else if i < 40 then (v.b ^^^ v.c ^^^ v.d) + sha1K20
    else if i < 60 then ((v.b &&& v.c) ||| (v.d &&& (v.b ||| v.c))) + sha1K40
    else (v.b ^^^ v.c ^^^ v.d) + sha1K60
  let t := t + (rol32 v.a 5 + v.e + wordAt buffer (i &&& 15))
  ({ a := t, b := v.a, c := rol32 v.b 30, d := v.c, e := v.d }, buffer)

/-- The words of the state. -/
def stateWords (state : Buffer (BitVec 8) 20) : HashValue :=
  { a := wordAt state 0
    b := wordAt state 1
    c := wordAt state 2
    d := wordAt state 3
    e := wordAt state 4 }

def addToWord (state : Buffer (BitVec 8) 20) (i : Nat) (v : BitVec 32) : Buffer (BitVec 8) 20 :=
  setWord state i (wordAt state i + v)

def hashBlock (s : Sha1Static) : Sha1Static :=
  let q := (List.range 80).foldl hashStep (stateWords s.sha1State, s.sha1Buffer)
  let state := addToWord s.sha1State 0 q.1.a
  let state := addToWord state 1 q.1.b
  let state := addToWord state 2 q.1.c
  let state := addToWord state 3 q.1.d
  let state := addToWord state 4 q.1.e
  { s with sha1Buffer := q.2, sha1State := state }

def addUncounted (s : Sha1Static) (data : BitVec 8) : Sha1Static :=
  let s := { s with sha1Buffer := s.sha1Buffer.store (s.bufferOffset ^^^ 3) [data] }
  let s := { s with bufferOffset := (s.bufferOffset + 1) % 256 }
  if s.bufferOffset = 64 then
    { hashBlock s with bufferOffset := 0 }
  else
    s

/-- The loop that pads with zeros, with a bound on its iterations. -/
def padZeros : Nat → Sha1Static → Option Sha1Static
  | 0, _ => none
  | fuel + 1, s => if s.bufferOffset ≠ 56 then padZeros fuel (addUncounted s 0x00) else some s

def pad (s : Sha1Static) : Option Sha1Static :=
  (padZeros 64 (addUncounted s 0x80)).map fun s =>
    let s := addUncounted s 0
    let s := addUncounted s 0
    let s := addUncounted s 0
    let s := addUncounted s (BitVec.setWidth 8 (s.byteCount >>> 29))
    let s := addUncounted s (BitVec.setWidth 8 (s.byteCount >>> 21))
    let s := addUncounted s (BitVec.setWidth 8 (s.byteCount >>> 13))
    let s := addUncounted s (BitVec.setWidth 8 (s.byteCount >>> 5))
    addUncounted s (BitVec.setWidth 8 (s.byteCount <<< 3))

def sha1InitState : Octets :=
  [0x01, 0x23, 0x45, 0x67, 0x89, 0xab, 0xcd, 0xef, 0xfe, 0xdc, 0xba, 0x98,
   0x76, 0x54, 0x32, 0x10, 0xf0, 0xe1, 0xd2, 0xc3]

def sha1Init (s : Sha1Static) : Sha1Static :=
  { s with
    sha1State := s.sha1State.store 0 sha1InitState
    byteCount := 0
    bufferOffset := 0 }

def sha1Write (s : Sha1Static) (data : BitVec 8) : Sha1Static :=
  addUncounted { s with byteCount := s.byteCount + 1 } data

/-- Swap the bytes of a word. -/
def swapWord (a : BitVec 32) : BitVec 32 :=
  let b := a <<< 24
  let b := b ||| ((a <<< 8) &&& 0x00ff0000)
  let b := b ||| ((a >>> 8) &&& 0x0000ff00)
  b ||| (a >>> 24)

def swapAt (state : Buffer (BitVec 8) 20) (i : Nat) : Buffer (BitVec 8) 20 :=
  setWord state i (swapWord (wordAt state i))

/-- `sha1_result`: the hash is in the bytes of the state. -/
def sha1Result (s : Sha1Static) : Option Sha1Static :=
  (pad s).map fun s => { s with sha1State := (List.range 5).foldl swapAt s.sha1State }

section Compression

theorem rol32_eq
    (x : BitVec 32)
    {bits : Nat}
    (h : bits < 32) :
    rol32 x bits = x.rotateLeft bits := by
  rw [BitVec.rotateLeft_eq_rotateLeftAux_of_lt h]
  rfl

/-- The functions of the rounds, as they are written in the code. -/
theorem choose_eq
    (x y z : BitVec 32) :
    z ^^^ (x &&& (y ^^^ z)) = choose x y z := by
  ext i hi
  simp only [choose, BitVec.getElem_xor, BitVec.getElem_and, BitVec.getElem_not]
  cases x[i] <;> cases y[i] <;> cases z[i] <;> rfl

theorem majority_eq
    (x y z : BitVec 32) :
    (x &&& y) ||| (z &&& (x ||| y)) = majority x y z := by
  ext i hi
  simp only [majority, BitVec.getElem_xor, BitVec.getElem_and, BitVec.getElem_or]
  cases x[i] <;> cases y[i] <;> cases z[i] <;> rfl

theorem and_fifteen
    (i : Nat) :
    i &&& 15 = i % 16 :=
  Nat.and_two_pow_sub_one_eq_mod i 4

/-- The words of the block. -/
def blockWords (buffer : Buffer (BitVec 8) 64) : List (BitVec 32) :=
  (List.range 16).map (wordAt buffer)

/-- The latest sixteen words of a schedule are in the block, each at its index modulo sixteen. -/
def Rolled (w : List (BitVec 32)) (i : Nat) (buffer : Buffer (BitVec 8) 64) : Prop :=
  ∀ t, t < max i 16 → max i 16 ≤ t + 16 → wordAt buffer (t % 16) = w.getD t 0

theorem rolled_start
    (buffer : Buffer (BitVec 8) 64) :
    Rolled (schedule (blockWords buffer)) 0 buffer := by
  intro t ht _
  have hlt : t < 16 := by
    omega
  have hlength : (blockWords buffer).length = 16 := by
    rw [blockWords, List.length_map, List.length_range]
  rw [schedule, getD_expand_of_lt 64 (by omega), Nat.mod_eq_of_lt hlt, blockWords,
    List.getD_eq_getElem?_getD, List.getElem?_map, List.getElem?_range hlt]
  rfl

/-- Rolling puts the next word of the schedule into the block. -/
theorem Rolled.roll
    {block : List (BitVec 32)} {i : Nat} {buffer : Buffer (BitVec 8) 64}
    (hblock : block.length = 16)
    (h : Rolled (schedule block) i buffer)
    (hi : i < 80) :
    Rolled (schedule block) (i + 1) (rollSchedule buffer i) ∧
      wordAt (rollSchedule buffer i) (i % 16) = (schedule block).getD i 0 := by
  rw [rollSchedule]
  split
  · rename_i hge
    have hword : ∀ k, 0 < k → k ≤ 16 → ∀ j, j % 16 = (i - k) % 16 →
        wordAt buffer (j &&& 15) = (schedule block).getD (i - k) 0 := by
      intro k hk hk' j hj
      rw [and_fifteen, hj]
      exact h (i - k) (by omega) (by omega)
    have hnext : rol32 (wordAt buffer ((i + 13) &&& 15) ^^^ wordAt buffer ((i + 8) &&& 15) ^^^
        wordAt buffer ((i + 2) &&& 15) ^^^ wordAt buffer (i &&& 15)) 1 =
          (schedule block).getD i 0 := by
      rw [hword 3 (by omega) (by omega) (i + 13) (by omega),
        hword 8 (by omega) (by omega) (i + 8) (by omega),
        hword 14 (by omega) (by omega) (i + 2) (by omega),
        hword 16 (by omega) (by omega) i (by omega), rol32_eq _ (by omega), schedule,
        ← getD_expand 64 (by omega) (by omega) (by omega)]
    dsimp only
    rw [hnext, and_fifteen]
    have hnew : wordAt (setWord buffer (i % 16) ((schedule block).getD i 0)) (i % 16) =
        (schedule block).getD i 0 :=
      buffer.loadWord_storeWord_self .little (by omega) _
    refine ⟨?_, hnew⟩
    intro t ht ht'
    by_cases hlast : t = i
    · rw [hlast]
      exact hnew
    · rw [wordAt, setWord, buffer.loadWord_storeWord_of_ne .little (by omega)]
      exact h t (by omega) (by omega)
  · refine ⟨fun t ht ht' => h t (by omega) (by omega), ?_⟩
    exact h i (by omega) (by omega)

/-- One pass of the loop is one round. -/
theorem hashStep_fst
    {block : List (BitVec 32)} {i : Nat} {q : HashValue × Buffer (BitVec 8) 64}
    (hblock : block.length = 16)
    (h : Rolled (schedule block) i q.2)
    (hi : i < 80) :
    (hashStep q i).1 = hashRound i ((schedule block).getD i 0) q.1 := by
  obtain ⟨v, buffer⟩ := q
  have hword := (h.roll hblock hi).2
  rw [hashStep, hashRound]
  dsimp only at hword ⊢
  have hmix : (if i < 20 then choose v.b v.c v.d + sha1K0
      else if i < 40 then (v.b ^^^ v.c ^^^ v.d) + sha1K20
      else if i < 60 then majority v.b v.c v.d + sha1K40
      else (v.b ^^^ v.c ^^^ v.d) + sha1K60) =
        roundFunction i v.b v.c v.d + roundConstant i := by
    rw [roundFunction, roundConstant]
    split
    · rfl
    · split
      · rfl
      · split <;> rfl
  have hsum : ∀ f k r e w : BitVec 32, f + k + (r + e + w) = r + f + e + k + w := by
    intro f k r e w
    ac_rfl
  rw [and_fifteen, hword, rol32_eq _ (by omega), rol32_eq _ (by omega), choose_eq, majority_eq,
    hmix, hsum]

/-- The loop of `hashBlock` makes the rounds of the block it finds. -/
theorem foldl_hashStep
    (v : HashValue)
    (buffer : Buffer (BitVec 8) 64)
    {n : Nat}
    (hn : n ≤ 80) :
    Rolled (schedule (blockWords buffer)) n ((List.range n).foldl hashStep (v, buffer)).2 ∧
      ((List.range n).foldl hashStep (v, buffer)).1 =
        (List.range n).foldl
          (fun v t => hashRound t ((schedule (blockWords buffer)).getD t 0) v) v := by
  have hlength : (blockWords buffer).length = 16 := by
    rw [blockWords, List.length_map, List.length_range]
  induction n with
  | zero =>
      exact ⟨rolled_start buffer, rfl⟩
  | succ n ih =>
      obtain ⟨hrolled, hrounds⟩ := ih (by omega)
      rw [List.range_succ, List.foldl_concat, List.foldl_concat, ← hrounds]
      exact ⟨(hrolled.roll hlength (by omega)).1, hashStep_fst hlength hrolled (by omega)⟩

/-- Adding to the words of the state one by one adds the hash values. -/
theorem stateWords_addToWord
    (state : Buffer (BitVec 8) 20)
    (v : HashValue) :
    stateWords (addToWord (addToWord (addToWord (addToWord (addToWord state 0 v.a) 1 v.b) 2 v.c)
      3 v.d) 4 v.e) = (stateWords state).add v := by
  have hself : ∀ (b : Buffer (BitVec 8) 20) i x, i < 5 →
      wordAt (addToWord b i x) i = wordAt b i + x := fun b i x hi =>
    b.loadWord_storeWord_self .little (by omega) _
  have hother : ∀ (b : Buffer (BitVec 8) 20) i j x, j ≠ i →
      wordAt (addToWord b i x) j = wordAt b j := fun b i j x hij =>
    b.loadWord_storeWord_of_ne .little hij _
  simp (disch := decide) only [stateWords, HashValue.add, hself, hother]

/-- `hashBlock` compresses the block. -/
theorem stateWords_hashBlock
    (s : Sha1Static) :
    stateWords (hashBlock s).sha1State =
      compress (stateWords s.sha1State) (blockWords s.sha1Buffer) := by
  have hrounds := (foldl_hashStep (stateWords s.sha1State) s.sha1Buffer (Nat.le_refl 80)).2
  rw [hashBlock, compress]
  dsimp only
  rw [stateWords_addToWord, hrounds]

end Compression

section Writing

/-- What the variables stand for: a hash value and the bytes that wait for a block. -/
structure Holds (s : Sha1Static) (q : HashValue × Octets) : Prop where
  state : stateWords s.sha1State = q.1
  offset : s.bufferOffset = q.2.length
  room : q.2.length < 64
  buffer : ∀ k, k < q.2.length → s.sha1Buffer.elems[k ^^^ 3]? = q.2[k]?

/-- Flipping the two lowest bits turns the bytes of a word around. -/
theorem flip_in_word :
    ∀ i, i < 16 → ∀ j, j < 4 → (4 * i + (3 - j)) ^^^ 3 = 4 * i + j := by
  decide

theorem flip_lt :
    ∀ k, k < 64 → k ^^^ 3 < 64 := by
  decide

/-- A full block has the words of its bytes, the highest byte first. -/
theorem blockWords_eq_bigWords
    {buffer : Buffer (BitVec 8) 64} {p : Octets}
    (hlen : p.length = 64)
    (hbytes : ∀ k, k < 64 → buffer.elems[k ^^^ 3]? = p[k]?) :
    blockWords buffer = bigWords p := by
  rw [blockWords, bigWords_eq_map (n := 16) hlen]
  refine List.map_congr_left fun i hi => ?_
  have hi' := List.mem_range.mp hi
  have hslice : slice buffer.elems (4 * i) 4 = (slice p (4 * i) 4).reverse := by
    have hlength : (slice p (4 * i) 4).length = 4 := length_slice (by omega)
    apply List.ext_getElem?
    intro j
    by_cases hj : j < 4
    · have hbyte := hbytes (4 * i + (3 - j)) (by omega)
      rw [flip_in_word i hi' j hj] at hbyte
      rw [List.getElem?_reverse (by omega), hlength, slice, slice,
        List.getElem?_take_of_lt hj, List.getElem?_take_of_lt (by omega), List.getElem?_drop,
        List.getElem?_drop, hbyte]
    · rw [List.getElem?_eq_none, List.getElem?_eq_none]
      · rw [List.length_reverse]
        omega
      · rw [slice, List.length_take]
        omega
  rw [wordAt, Buffer.loadWord, hslice]
  rfl

/-- The next byte is stored behind those that are pending. -/
theorem Holds.stored
    {s : Sha1Static} {q : HashValue × Octets}
    (h : Holds s q)
    (x : BitVec 8)
    {k : Nat}
    (hk : k < q.2.length + 1) :
    (s.sha1Buffer.store (s.bufferOffset ^^^ 3) [x]).elems[k ^^^ 3]? = (q.2 ++ [x])[k]? := by
  have hbuffer : (s.sha1Buffer.store (s.bufferOffset ^^^ 3) [x]).elems =
      s.sha1Buffer.elems.set (q.2.length ^^^ 3) x := by
    rw [h.offset]
    rfl
  rw [hbuffer]
  by_cases hlast : k = q.2.length
  · have hlt : q.2.length ^^^ 3 < s.sha1Buffer.elems.length := by
      rw [s.sha1Buffer.length_eq]
      exact flip_lt _ h.room
    rw [hlast, List.getElem?_set_self hlt, List.getElem?_concat_length]
  · have hne : q.2.length ^^^ 3 ≠ k ^^^ 3 := by
      intro heq
      have hback := congrArg (· ^^^ 3) heq
      simp only [Nat.xor_assoc, Nat.xor_self, Nat.xor_zero] at hback
      exact hlast hback.symm
    rw [List.getElem?_set_ne hne, List.getElem?_append_left (by omega)]
    exact h.buffer k (by omega)

/-- One byte more. -/
theorem addUncounted_holds
    {s : Sha1Static} {q : HashValue × Octets}
    (h : Holds s q)
    (x : BitVec 8) :
    Holds (addUncounted s x) (feed q x) := by
  have hroom := h.room
  have hcount : (s.bufferOffset + 1) % 256 = q.2.length + 1 := by
    rw [h.offset]
    omega
  rw [addUncounted, feed]
  dsimp only
  rw [hcount]
  split
  · rename_i hfull
    constructor
    case state =>
      have hwords := blockWords_eq_bigWords (p := q.2 ++ [x])
        (by rw [List.length_append]; exact hfull) (fun k hk => h.stored x (by omega))
      dsimp only
      rw [stateWords_hashBlock]
      dsimp only
      rw [hwords, h.state]
    case offset =>
      rfl
    case room =>
      exact Nat.succ_pos 63
    case buffer =>
      intro k hk
      cases hk
  · constructor
    case state =>
      exact h.state
    case offset =>
      dsimp only
      rw [List.length_append, List.length_singleton]
    case room =>
      dsimp only
      rw [List.length_append, List.length_singleton]
      omega
    case buffer =>
      intro k hk
      dsimp only at hk
      rw [List.length_append] at hk
      exact h.stored x hk

/-- Some bytes more. -/
theorem foldl_addUncounted_holds
    (b : Octets)
    {s : Sha1Static} {q : HashValue × Octets}
    (h : Holds s q) :
    Holds (b.foldl addUncounted s) (b.foldl feed q) := by
  induction b generalizing s q with
  | nil =>
      exact h
  | cons x b ih =>
      exact ih (addUncounted_holds h x)

/-- What adding a byte leaves alone. -/
theorem addUncounted_kept
    (s : Sha1Static)
    (x : BitVec 8) :
    (addUncounted s x).byteCount = s.byteCount ∧ (addUncounted s x).keyBuffer = s.keyBuffer ∧
      (addUncounted s x).innerHash = s.innerHash := by
  rw [addUncounted]
  dsimp only
  split <;> exact ⟨rfl, rfl, rfl⟩

theorem foldl_addUncounted_kept
    (b : Octets)
    (s : Sha1Static) :
    (b.foldl addUncounted s).byteCount = s.byteCount ∧
      (b.foldl addUncounted s).keyBuffer = s.keyBuffer ∧
      (b.foldl addUncounted s).innerHash = s.innerHash := by
  induction b generalizing s with
  | nil =>
      exact ⟨rfl, rfl, rfl⟩
  | cons x b ih =>
      obtain ⟨hcount, hkey, hinner⟩ := ih (addUncounted s x)
      obtain ⟨hcount', hkey', hinner'⟩ := addUncounted_kept s x
      exact ⟨hcount.trans hcount', hkey.trans hkey', hinner.trans hinner'⟩

/-- The loop of `pad` adds zeros until eight bytes of the block are left. -/
theorem padZeros_eq
    {s : Sha1Static} {q : HashValue × Octets} {z fuel : Nat}
    (h : Holds s q)
    (hz : z < 64)
    (hend : (q.2.length + z) % 64 = 56)
    (hfuel : z < fuel) :
    padZeros fuel s = some ((List.replicate z 0x00).foldl addUncounted s) := by
  induction z generalizing s q fuel with
  | zero =>
      have hoffset := h.offset
      have hroom := h.room
      cases fuel with
      | zero =>
          omega
      | succ fuel =>
          exact if_neg (by omega)
  | succ z ih =>
      have hoffset := h.offset
      have hroom := h.room
      have hlength := length_foldl_feed [0x00] hroom
      cases fuel with
      | zero =>
          omega
      | succ fuel =>
          have hloop : padZeros (fuel + 1) s = padZeros fuel (addUncounted s 0x00) :=
            if_pos (by omega)
          rw [hloop, ih (addUncounted_holds h 0x00) (by omega) ?_ (by omega), List.replicate_succ,
            List.foldl_cons]
          rw [List.foldl_cons, List.foldl_nil, List.length_singleton] at hlength
          omega

theorem setWidth_shiftRight
    {n : Nat}
    (hn : n < 4294967296)
    (m : Nat) :
    BitVec.setWidth 8 (BitVec.ofNat 32 n >>> m) = BitVec.ofNat 8 (n / 2 ^ m) := by
  apply BitVec.eq_of_toNat_eq
  rw [BitVec.toNat_setWidth, BitVec.toNat_ushiftRight, BitVec.toNat_ofNat, BitVec.toNat_ofNat,
    Nat.mod_eq_of_lt hn, Nat.shiftRight_eq_div_pow]

theorem setWidth_shiftLeft
    (n : Nat) :
    BitVec.setWidth 8 (BitVec.ofNat 32 n <<< 3) = BitVec.ofNat 8 (8 * n) := by
  apply BitVec.eq_of_toNat_eq
  rw [BitVec.toNat_setWidth, BitVec.toNat_shiftLeft, BitVec.toNat_ofNat, BitVec.toNat_ofNat,
    Nat.shiftLeft_eq]
  omega

/-- The bytes of the length, as the code computes them. -/
theorem lengthBytes_eq
    {n : Nat}
    (hn : n < 4294967296) :
    wordBytes .big 8 (8 * n) =
      [0, 0, 0, BitVec.setWidth 8 (BitVec.ofNat 32 n >>> 29),
        BitVec.setWidth 8 (BitVec.ofNat 32 n >>> 21), BitVec.setWidth 8 (BitVec.ofNat 32 n >>> 13),
        BitVec.setWidth 8 (BitVec.ofNat 32 n >>> 5),
        BitVec.setWidth 8 (BitVec.ofNat 32 n <<< 3)] := by
  have hhigh : ∀ k, 40 ≤ k → 8 * n / 2 ^ k = 0 := by
    intro k hk
    have hpow : 2 ^ 40 ≤ 2 ^ k := Nat.pow_le_pow_right (by omega) hk
    exact Nat.div_eq_of_lt (by omega)
  have hlow : ∀ k, 8 * n / 2 ^ (3 + k) = n / 2 ^ k := by
    intro k
    rw [Nat.pow_add, ← Nat.div_div_eq_div_mul, Nat.mul_div_cancel_left n (by omega)]
  rw [wordBytes_big_eight, hhigh 56 (by omega), hhigh 48 (by omega), hhigh 40 (by omega), hlow 29,
    hlow 21, hlow 13, hlow 5, setWidth_shiftRight hn, setWidth_shiftRight hn,
    setWidth_shiftRight hn, setWidth_shiftRight hn, setWidth_shiftLeft]
  rfl

/-- `pad` adds the padding of the standard for the counted bytes. -/
theorem pad_eq
    {s : Sha1Static} {q : HashValue × Octets} {n : Nat}
    (h : Holds s q)
    (hn : n < 4294967296)
    (hcount : s.byteCount = BitVec.ofNat 32 n)
    (hlength : q.2.length = n % 64) :
    pad s = some ((padding n).foldl addUncounted s) := by
  have hroom := h.room
  have hone := length_foldl_feed [0x80] hroom
  rw [List.foldl_cons, List.foldl_nil, List.length_singleton] at hone
  have hzeros := @padZeros_eq _ _ ((119 - n % 64) % 64) 64
    (addUncounted_holds h 0x80) (by omega) (by omega) (by omega)
  have hkept : ((List.replicate ((119 - n % 64) % 64) 0x00).foldl addUncounted
      (addUncounted s 0x80)).byteCount = BitVec.ofNat 32 n := by
    rw [(foldl_addUncounted_kept _ _).1, (addUncounted_kept _ _).1, hcount]
  rw [pad, hzeros, Option.map_some, padding, lengthBytes_eq hn, List.cons_append, List.foldl_cons,
    List.foldl_append]
  generalize (List.replicate ((119 - n % 64) % 64) 0x00).foldl addUncounted
    (addUncounted s 0x80) = padded at hkept
  simp only [(addUncounted_kept _ _).1, hkept, List.foldl_cons, List.foldl_nil]

end Writing

section Result

/-- The bytes of a word in memory. -/
theorem littleBytes_word
    (v : BitVec 32) :
    wordBytes .little 4 v.toNat =
      [v.extractLsb' 0 8, v.extractLsb' 8 8, v.extractLsb' 16 8, v.extractLsb' 24 8] := by
  have hbyte : ∀ m, v.extractLsb' m 8 = BitVec.ofNat 8 (v.toNat / 2 ^ m) := by
    intro m
    rw [BitVec.extractLsb', Nat.shiftRight_eq_div_pow]
  have hbytes : wordBytes .little 4 v.toNat =
      [BitVec.ofNat 8 v.toNat, BitVec.ofNat 8 (v.toNat / 256), BitVec.ofNat 8 (v.toNat / 256 / 256),
        BitVec.ofNat 8 (v.toNat / 256 / 256 / 256)] := rfl
  rw [hbytes, hbyte, hbyte, hbyte, hbyte, Nat.div_div_eq_div_mul, Nat.div_div_eq_div_mul,
    Nat.pow_zero, Nat.div_one]
  rfl

/-- A swapped word is in memory with its highest byte first. -/
theorem wordBytes_swapWord
    (v : BitVec 32) :
    wordBytes .little 4 (swapWord v).toNat = wordBytes .big 4 v.toNat := by
  have h₀ : (swapWord v).extractLsb' 0 8 = v.extractLsb' 24 8 := by
    ext i hi
    interval_cases i <;> simp [swapWord]
  have h₁ : (swapWord v).extractLsb' 8 8 = v.extractLsb' 16 8 := by
    ext i hi
    interval_cases i <;> simp [swapWord]
  have h₂ : (swapWord v).extractLsb' 16 8 = v.extractLsb' 8 8 := by
    ext i hi
    interval_cases i <;> simp [swapWord]
  have h₃ : (swapWord v).extractLsb' 24 8 = v.extractLsb' 0 8 := by
    ext i hi
    interval_cases i <;> simp [swapWord]
  have hbig : wordBytes .big 4 v.toNat = (wordBytes .little 4 v.toNat).reverse := rfl
  rw [littleBytes_word, h₀, h₁, h₂, h₃, hbig, littleBytes_word]
  rfl

/-- After the swaps the bytes of the state are the digest. -/
theorem foldl_swapAt
    (state : Buffer (BitVec 8) 20) :
    ((List.range 5).foldl swapAt state).elems = digest (stateWords state) := by
  have hself : ∀ (b : Buffer (BitVec 8) 20) i, i < 5 →
      wordAt (swapAt b i) i = swapWord (wordAt b i) := fun b i hi =>
    b.loadWord_storeWord_self .little (by omega) _
  have hother : ∀ (b : Buffer (BitVec 8) 20) i j, j ≠ i →
      wordAt (swapAt b i) j = wordAt b j := fun b i j hij =>
    b.loadWord_storeWord_of_ne .little hij _
  have hfold : (List.range 5).foldl swapAt state =
      swapAt (swapAt (swapAt (swapAt (swapAt state 0) 1) 2) 3) 4 := rfl
  have hwords : ∀ i, i < 5 →
      wordAt (swapAt (swapAt (swapAt (swapAt (swapAt state 0) 1) 2) 3) 4) i =
        swapWord (wordAt state i) := by
    intro i hi
    interval_cases i <;> simp (disch := decide) only [hself, hother]
  have hbytes := Buffer.flatMap_loadWord (n := 5) .little
    (swapAt (swapAt (swapAt (swapAt (swapAt state 0) 1) 2) 3) 4)
  have hdigest : digest (stateWords state) =
      (List.range 5).flatMap fun i => wordBytes .big 4 (wordAt state i).toNat := rfl
  rw [hfold, ← hbytes, hdigest]
  refine List.flatMap_congr fun i hi => ?_
  rw [← wordBytes_swapWord, ← hwords i (List.mem_range.mp hi)]
  rfl

/-- The variables after a message was written. -/
structure Written (s : Sha1Static) (message : Octets) : Prop where
  holds : Holds s (message.foldl feed (.initial, []))
  count : s.byteCount = BitVec.ofNat 32 message.length

theorem written_init
    (s : Sha1Static) :
    Written (sha1Init s) [] := by
  have hstate : (s.sha1State.store 0 sha1InitState).elems = sha1InitState :=
    s.sha1State.elems_store_whole rfl
  constructor
  case holds =>
    constructor
    case state =>
      have hword : ∀ i, wordAt (s.sha1State.store 0 sha1InitState) i =
          BitVec.ofNat 32 (wordValue .little (slice sha1InitState (4 * i) 4)) := by
        intro i
        rw [wordAt, Buffer.loadWord, hstate]
      rw [sha1Init, stateWords]
      dsimp only
      rw [hword, hword, hword, hword, hword]
      decide
    case offset =>
      rfl
    case room =>
      exact Nat.succ_pos 63
    case buffer =>
      intro k hk
      cases hk
  case count =>
    rfl

theorem Written.write
    {s : Sha1Static} {message : Octets}
    (h : Written s message)
    (x : BitVec 8) :
    Written (sha1Write s x) (message ++ [x]) := by
  have hheld : Holds { s with byteCount := s.byteCount + 1 } (message.foldl feed (.initial, [])) :=
    ⟨h.holds.state, h.holds.offset, h.holds.room, h.holds.buffer⟩
  constructor
  case holds =>
    rw [List.foldl_concat]
    exact addUncounted_holds hheld x
  case count =>
    rw [sha1Write, (addUncounted_kept _ x).1, h.count, List.length_append, List.length_singleton]
    exact (BitVec.ofNat_add _ 1).symm

theorem Written.writes
    {s : Sha1Static} {message : Octets}
    (h : Written s message)
    (b : Octets) :
    Written (b.foldl sha1Write s) (message ++ b) := by
  induction b generalizing s message with
  | nil =>
      rw [List.append_nil]
      exact h
  | cons x b ih =>
      have hrest := ih (h.write x)
      rw [List.append_assoc] at hrest
      exact hrest

/-- Writing leaves the variables of the keyed hash alone. -/
theorem foldl_sha1Write_kept
    (b : Octets)
    (s : Sha1Static) :
    (b.foldl sha1Write s).keyBuffer = s.keyBuffer ∧
      (b.foldl sha1Write s).innerHash = s.innerHash := by
  induction b generalizing s with
  | nil =>
      exact ⟨rfl, rfl⟩
  | cons x b ih =>
      obtain ⟨hkey, hinner⟩ := ih (sha1Write s x)
      obtain ⟨_, hkey', hinner'⟩ := addUncounted_kept { s with byteCount := s.byteCount + 1 } x
      exact ⟨hkey.trans hkey', hinner.trans hinner'⟩

/-- The result of a written message. -/
theorem Written.result
    {s : Sha1Static} {message : Octets}
    (h : Written s message)
    (hlen : message.length < 4294967296) :
    ∃ s', sha1Result s = some s' ∧ s'.sha1State.elems = sha1 message ∧
      s'.keyBuffer = s.keyBuffer ∧ s'.innerHash = s.innerHash := by
  have hpending := length_foldl_feed message (q := (.initial, [])) (Nat.succ_pos 63)
  have hpad := pad_eq h.holds hlen h.count (by rw [hpending, List.length_nil, Nat.zero_add])
  have hfed := foldl_addUncounted_holds (padding message.length) h.holds
  obtain ⟨_, hkey, hinner⟩ := foldl_addUncounted_kept (padding message.length) s
  rw [← List.foldl_append] at hfed
  generalize (padding message.length).foldl addUncounted s = padded at hpad hfed hkey hinner
  refine ⟨{ padded with sha1State := (List.range 5).foldl swapAt padded.sha1State }, ?_, ?_, hkey,
    hinner⟩
  · rw [sha1Result, hpad, Option.map_some]
  · dsimp only
    rw [foldl_swapAt, hfed.state, sha1_eq_feed]

end Result

/--
For every message shorter than 2³² bytes and whatever the static variables hold
before: initialising, writing the bytes of the message one by one and asking for
the result leaves the SHA-1 digest of the message in the state.
-/
theorem streaming_sha1_correct
    (s : Sha1Static)
    (message : Octets)
    (hlen : message.length < 2 ^ 32) :
    ∃ s', sha1Result (message.foldl sha1Write (sha1Init s)) = some s' ∧
      s'.sha1State.elems = sha1 message := by
  have hwritten := (written_init s).writes message
  rw [List.nil_append] at hwritten
  obtain ⟨s', hresult, hstate, _⟩ := hwritten.result hlen
  exact ⟨s', hresult, hstate⟩

/-- The static variables as they are at first. -/
def clearSha1 : Sha1Static :=
  { bufferOffset := 0
    byteCount := 0
    keyBuffer := ⟨List.replicate 64 0, List.length_replicate⟩
    innerHash := ⟨List.replicate 20 0, List.length_replicate⟩
    sha1Buffer := ⟨List.replicate 64 0, List.length_replicate⟩
    sha1State := ⟨List.replicate 20 0, List.length_replicate⟩ }

/-- The theorem on the example of the standard. -/
theorem streaming_sha1_abc :
    ∃ s', sha1Result ([0x61, 0x62, 0x63].foldl sha1Write (sha1Init clearSha1)) = some s' ∧
      s'.sha1State.elems = sha1 [0x61, 0x62, 0x63] :=
  streaming_sha1_correct clearSha1 [0x61, 0x62, 0x63] (by decide)

end StreamingSha1

end Poise
