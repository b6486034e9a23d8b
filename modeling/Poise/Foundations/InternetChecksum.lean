import Mathlib.Data.Nat.ModEq
import Mathlib.Tactic
import Poise.Foundations.ByteBuffer

/-!
# Foundations: the Internet checksum

Bytes are read as 16-bit words in network byte order, the last one padded with a
zero byte.  The checksum is the complement of their sum in one's-complement
arithmetic, where a carry out of the top bit is added at the bottom.

One's-complement sums are compared through plain sums: they agree modulo 65535,
and one of them is zero only together with the other.  Stores of words at even
positions change the plain sum by what they replace.  In the other byte order the
same checksum is computed, with its bytes swapped.
-/

namespace Foundations

section InternetChecksum

/-- The 16-bit words of a sequence of bytes. -/
def words : List (BitVec 8) → List Nat
  | [] => []
  | [x] => [x.toNat * 256]
  | x :: y :: rest => (x.toNat * 256 + y.toNat) :: words rest

/-- The plain sum of the words. -/
def wordSum (b : List (BitVec 8)) : Nat :=
  (words b).sum

/-- Addition of words with end-around carry. -/
def onesAdd (a b : Nat) : Nat :=
  if a + b < 65536 then a + b else a + b - 65535

/-- The one's-complement sum of the words. -/
def onesSum (b : List (BitVec 8)) : Nat :=
  (words b).foldr onesAdd 0

def checksum (b : List (BitVec 8)) : Nat :=
  65535 - onesSum b

/-- The check of a receiver: the sum over everything, checksum included, is all ones. -/
def Verifies (b : List (BitVec 8)) : Prop :=
  onesSum b = 65535

instance
    (b : List (BitVec 8)) :
    Decidable (Verifies b) :=
  inferInstanceAs (Decidable (onesSum b = 65535))

section Sums

variable {b : List (BitVec 8)} {i : Nat}

theorem wordSum_singleton
    (x : BitVec 8) :
    wordSum [x] = x.toNat * 256 := by
  rw [wordSum, words, List.sum_singleton]

theorem wordSum_cons_cons
    (x y : BitVec 8)
    (b : List (BitVec 8)) :
    wordSum (x :: y :: b) = x.toNat * 256 + y.toNat + wordSum b :=
  List.sum_cons

theorem lt_of_mem_words
    {w : Nat}
    (h : w ∈ words b) :
    w < 65536 := by
  induction b using words.induct with
  | case1 =>
      cases h
  | case2 x =>
      rw [words, List.mem_singleton] at h
      have := x.isLt
      omega
  | case3 x y rest ih =>
      rw [words, List.mem_cons] at h
      rcases h with rfl | h
      · have hx := x.isLt
        have hy := y.isLt
        omega
      · exact ih h

/-- Sums with end-around carry and plain sums. -/
theorem foldr_onesAdd
    (ws : List Nat)
    (h : ∀ w, w ∈ ws → w < 65536) :
    ws.foldr onesAdd 0 < 65536 ∧ ws.foldr onesAdd 0 % 65535 = ws.sum % 65535 ∧
      (ws.foldr onesAdd 0 = 0 ↔ ws.sum = 0) := by
  induction ws with
  | nil =>
      exact ⟨by decide, rfl, Iff.rfl⟩
  | cons w ws ih =>
      obtain ⟨hlt, hmod, hzero⟩ := ih fun v hv => h v (List.mem_cons_of_mem w hv)
      have hw := h w List.mem_cons_self
      rw [List.foldr_cons, List.sum_cons, onesAdd]
      split
      · omega
      · omega

theorem onesSum_lt
    (b : List (BitVec 8)) :
    onesSum b < 65536 :=
  (foldr_onesAdd (words b) fun _ => lt_of_mem_words).1

theorem onesSum_mod
    (b : List (BitVec 8)) :
    onesSum b % 65535 = wordSum b % 65535 :=
  (foldr_onesAdd (words b) fun _ => lt_of_mem_words).2.1

/-- Only words that are all zero have the sum zero: the other zero is 65535. -/
theorem onesSum_eq_zero_iff
    (b : List (BitVec 8)) :
    onesSum b = 0 ↔ wordSum b = 0 :=
  (foldr_onesAdd (words b) fun _ => lt_of_mem_words).2.2

/-- The check of a receiver in terms of the plain sum. -/
theorem verifies_iff
    (b : List (BitVec 8)) :
    Verifies b ↔ wordSum b % 65535 = 0 ∧ 0 < wordSum b := by
  have hlt := onesSum_lt b
  have hmod := onesSum_mod b
  have hzero := onesSum_eq_zero_iff b
  rw [Verifies]
  omega

/-- The checksum completes the plain sum to a multiple of 65535. -/
theorem wordSum_add_checksum
    (b : List (BitVec 8)) :
    (wordSum b + checksum b) % 65535 = 0 ∧ 0 < wordSum b + checksum b := by
  have hlt := onesSum_lt b
  have hmod := onesSum_mod b
  have hzero := onesSum_eq_zero_iff b
  rw [checksum]
  omega

/-- Behind an even number of bytes the words start anew. -/
theorem wordSum_append
    {a : List (BitVec 8)}
    (h : a.length % 2 = 0)
    (c : List (BitVec 8)) :
    wordSum (a ++ c) = wordSum a + wordSum c := by
  induction a using words.induct with
  | case1 =>
      exact (Nat.zero_add _).symm
  | case2 x =>
      rw [List.length_singleton] at h
      omega
  | case3 x y rest ih =>
      rw [List.length_cons, List.length_cons] at h
      rw [List.cons_append, List.cons_append, wordSum_cons_cons, wordSum_cons_cons,
        ih (by omega)]
      omega

theorem wordSum_be16Bytes
    (v : Nat) :
    wordSum (be16Bytes v) = v % 65536 := by
  have hnil : wordSum [] = 0 := rfl
  rw [be16Bytes, wordSum_cons_cons, hnil, BitVec.toNat_ofNat, BitVec.toNat_ofNat]
  omega

/-- What a byte at a position counts in the sum. -/
def byteWeight (i : Nat) : Nat :=
  if i % 2 = 0 then 256 else 1

theorem byteWeight_add_two
    (i : Nat) :
    byteWeight (i + 2) = byteWeight i := by
  rw [byteWeight, byteWeight, Nat.add_mod_right]

theorem byteAt_cons_succ
    (x : BitVec 8)
    (b : List (BitVec 8))
    (i : Nat) :
    byteAt (x :: b) (i + 1) = byteAt b i :=
  rfl

/-- A store of one byte changes the sum at its position. -/
theorem wordSum_set
    (h : i < b.length)
    (x : BitVec 8) :
    wordSum (b.set i x) + byteWeight i * byteAt b i = wordSum b + byteWeight i * x.toNat := by
  induction b using words.induct generalizing i with
  | case1 =>
      cases h
  | case2 y =>
      obtain rfl : i = 0 := by
        rw [List.length_singleton] at h
        omega
      have hbyte : byteAt [y] 0 = y.toNat := rfl
      have hweight : byteWeight 0 = 256 := rfl
      rw [List.set_cons_zero, wordSum_singleton, wordSum_singleton, hbyte, hweight]
      omega
  | case3 y z rest ih =>
      rcases i with _ | _ | i
      · have hbyte : byteAt (y :: z :: rest) 0 = y.toNat := rfl
        have hweight : byteWeight 0 = 256 := rfl
        rw [List.set_cons_zero, wordSum_cons_cons, wordSum_cons_cons, hbyte, hweight]
        omega
      · have hbyte : byteAt (y :: z :: rest) 1 = z.toNat := rfl
        have hweight : byteWeight 1 = 1 := rfl
        rw [List.set_cons_succ, List.set_cons_zero, wordSum_cons_cons, wordSum_cons_cons, hbyte,
          hweight]
        omega
      · rw [List.length_cons, List.length_cons] at h
        have hrest := ih (i := i) (by omega)
        rw [List.set_cons_succ, List.set_cons_succ, byteAt_cons_succ, byteAt_cons_succ,
          byteWeight_add_two, wordSum_cons_cons, wordSum_cons_cons]
        omega

/-- A store of a word changes the sum by what it replaces. -/
theorem wordSum_overwrite
    (heven : i % 2 = 0)
    (h : i + 2 ≤ b.length)
    (v : Nat) :
    wordSum (overwrite b i (be16Bytes v)) + be16 b i = wordSum b + v % 65536 := by
  have hfirst := wordSum_set (b := b) (i := i) (by omega) (BitVec.ofNat 8 (v / 256))
  have hsecond := wordSum_set (b := b.set i (BitVec.ofNat 8 (v / 256))) (i := i + 1)
    (by rw [List.length_set]; omega) (BitVec.ofNat 8 v)
  have hkept : byteAt (b.set i (BitVec.ofNat 8 (v / 256))) (i + 1) = byteAt b (i + 1) := by
    rw [byteAt, byteAt, List.getElem?_set_ne (by omega)]
  have hhigh : byteWeight i = 256 := if_pos heven
  have hlow : byteWeight (i + 1) = 1 := if_neg (by omega)
  rw [hhigh, BitVec.toNat_ofNat] at hfirst
  rw [hlow, hkept, BitVec.toNat_ofNat] at hsecond
  rw [be16Bytes, overwrite, overwrite, overwrite, be16]
  omega

/-- A number of any size counts as its low 32 bits and what is above them. -/
theorem mod_eq_low_add_high
    (v : Nat) :
    v % 65535 = (v % 4294967296 + v / 4294967296) % 65535 := by
  omega

/-- A store of two words changes the sum, up to carries, by the number it replaces. -/
theorem wordSum_overwrite_be32
    (heven : i % 2 = 0)
    (h : i + 4 ≤ b.length)
    (v : Nat) :
    (wordSum (overwrite b i (be32Bytes v)) + be32 b i) % 65535 =
      (wordSum b + v % 4294967296) % 65535 := by
  have hstores : overwrite b i (be32Bytes v) =
      overwrite (overwrite b i (be16Bytes (v / 65536))) (i + 2) (be16Bytes v) :=
    overwrite_append b i (be16Bytes (v / 65536)) (be16Bytes v)
  have hfirst := wordSum_overwrite heven (b := b) (by omega) (v / 65536)
  have hsecond := wordSum_overwrite (b := overwrite b i (be16Bytes (v / 65536))) (i := i + 2)
    (by omega) (by rw [length_overwrite]; omega) v
  rw [be16_overwrite_of_outside (Or.inr (Nat.le_refl (i + 2)))] at hsecond
  have hhalves : v % 4294967296 = v / 65536 % 65536 * 65536 + v % 65536 := by
    omega
  rw [hstores, be32, hhalves]
  generalize v / 65536 % 65536 = high at *
  generalize v % 65536 = low at *
  omega

/-- A checksum stored in a cleared field makes the bytes pass the check. -/
theorem verifies_overwrite_checksum
    (heven : i % 2 = 0)
    (h : i + 2 ≤ b.length)
    (hclear : be16 b i = 0) :
    Verifies (overwrite b i (be16Bytes (checksum b))) := by
  obtain ⟨hmod, hpos⟩ := wordSum_add_checksum b
  have hstore := wordSum_overwrite heven h (checksum b)
  have hsmall : checksum b % 65536 = checksum b := Nat.mod_eq_of_lt (by rw [checksum]; omega)
  rw [hclear, hsmall, Nat.add_zero] at hstore
  rw [verifies_iff, hstore]
  exact ⟨hmod, hpos⟩

/-- The checksum depends on the plain sum alone. -/
theorem checksum_congr
    {a b : List (BitVec 8)}
    (h : wordSum a = wordSum b) :
    checksum a = checksum b := by
  have hlta := onesSum_lt a
  have hltb := onesSum_lt b
  have hmoda := onesSum_mod a
  have hmodb := onesSum_mod b
  have hzeroa := onesSum_eq_zero_iff a
  have hzerob := onesSum_eq_zero_iff b
  rw [h] at hmoda hzeroa
  rw [checksum, checksum]
  omega

end Sums

section ByteSwap

/-- The plain sum of the words in the other byte order. -/
def littleSum : List (BitVec 8) → Nat
  | [] => 0
  | [x] => x.toNat
  | x :: y :: rest => x.toNat + 256 * y.toNat + littleSum rest

/-- The two bytes of a word in the other order. -/
def swapBytes (v : Nat) : Nat :=
  v % 256 * 256 + v / 256

/-- The two sums agree modulo 65535 up to a swap of the bytes. -/
theorem littleSum_spec
    (b : List (BitVec 8)) :
    littleSum b % 65535 = 256 * wordSum b % 65535 ∧ (littleSum b = 0 ↔ wordSum b = 0) := by
  induction b using littleSum.induct with
  | case1 =>
      exact ⟨rfl, Iff.rfl⟩
  | case2 x =>
      rw [littleSum, wordSum_singleton]
      omega
  | case3 x y rest ih =>
      obtain ⟨hmod, hzero⟩ := ih
      rw [littleSum, wordSum_cons_cons]
      omega

/-- A word with the sum in the other byte order, up to carries, has the swapped bytes of the
one's-complement sum. -/
theorem eq_swapBytes_onesSum
    {b : List (BitVec 8)} {t : Nat}
    (hlt : t < 65536)
    (hmod : t % 65535 = littleSum b % 65535)
    (hzero : t = 0 ↔ littleSum b = 0) :
    t = swapBytes (onesSum b) := by
  obtain ⟨hlittle, hnone⟩ := littleSum_spec b
  have hsum := onesSum_mod b
  have hsumLt := onesSum_lt b
  have hsumZero := onesSum_eq_zero_iff b
  have hscaled : 256 * wordSum b % 65535 = 256 * onesSum b % 65535 :=
    (Nat.ModEq.mul_left 256 hsum).symm
  rw [hscaled] at hlittle
  rw [swapBytes]
  generalize onesSum b = u at *
  generalize littleSum b = l at *
  generalize wordSum b = w at *
  omega

/-- Complement and swap can be exchanged. -/
theorem swapBytes_complement
    {v : Nat}
    (h : v < 65536) :
    65535 - swapBytes v = swapBytes (65535 - v) := by
  rw [swapBytes, swapBytes]
  omega

end ByteSwap

end InternetChecksum

end Foundations
