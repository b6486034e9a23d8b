import Mathlib.Tactic
import Poise.Foundations.ByteBuffer

/-!
# Foundations: numbers and records in byte sequences

Numbers of a fixed width in either byte order, and readers that take a value from
the front of a byte sequence and return the rest.  A sequence of records without
separators is read back when every record is, whatever stands behind it.
-/

namespace Foundations

universe u

section WireFormat

inductive ByteOrder where
  | little
  | big
deriving DecidableEq, Repr

/-- The low bytes of a number, the lowest first. -/
def littleBytes : Nat → Nat → List (BitVec 8)
  | 0, _ => []
  | n + 1, v => BitVec.ofNat 8 v :: littleBytes n (v / 256)

def littleValue : List (BitVec 8) → Nat
  | [] => 0
  | x :: b => x.toNat + 256 * littleValue b

/-- A number in a field of some bytes. -/
def wordBytes (order : ByteOrder) (n v : Nat) : List (BitVec 8) :=
  match order with
  | .little => littleBytes n v
  | .big => (littleBytes n v).reverse

def wordValue (order : ByteOrder) (b : List (BitVec 8)) : Nat :=
  match order with
  | .little => littleValue b
  | .big => littleValue b.reverse

theorem length_littleBytes
    (n v : Nat) :
    (littleBytes n v).length = n := by
  induction n generalizing v with
  | zero =>
      rfl
  | succ n ih =>
      rw [littleBytes, List.length_cons, ih]

theorem littleValue_littleBytes
    (n v : Nat) :
    littleValue (littleBytes n v) = v % 256 ^ n := by
  induction n generalizing v with
  | zero =>
      rw [Nat.pow_zero, Nat.mod_one]
      rfl
  | succ n ih =>
      have hpow : 256 ^ (n + 1) = 256 * 256 ^ n := Nat.pow_succ'
      rw [hpow, Nat.mod_mul, littleBytes, littleValue, ih, BitVec.toNat_ofNat]

/-- A number in a field that is too wide for it. -/
theorem littleBytes_wide
    (m n : Nat)
    {v : Nat}
    (h : v < 256 ^ m) :
    littleBytes (m + n) v = littleBytes m v ++ List.replicate n 0 := by
  induction m generalizing v with
  | zero =>
      obtain rfl : v = 0 := by
        rw [Nat.pow_zero] at h
        omega
      rw [Nat.zero_add, littleBytes, List.nil_append]
      induction n with
      | zero =>
          rfl
      | succ n ih =>
          rw [littleBytes, Nat.zero_div, ih, List.replicate_succ]
          rfl
  | succ m ih =>
      have hpow : 256 ^ (m + 1) = 256 * 256 ^ m := Nat.pow_succ'
      have hrest : v / 256 < 256 ^ m := Nat.div_lt_of_lt_mul (by omega)
      rw [Nat.add_right_comm, littleBytes, littleBytes, ih hrest, List.cons_append]

@[simp] theorem length_wordBytes
    (order : ByteOrder)
    (n v : Nat) :
    (wordBytes order n v).length = n := by
  cases order with
  | little =>
      exact length_littleBytes n v
  | big =>
      rw [wordBytes, List.length_reverse, length_littleBytes]

/-- The eight bytes of a number, the highest first. -/
theorem wordBytes_big_eight
    (v : Nat) :
    wordBytes .big 8 v =
      [BitVec.ofNat 8 (v / 2 ^ 56), BitVec.ofNat 8 (v / 2 ^ 48), BitVec.ofNat 8 (v / 2 ^ 40),
        BitVec.ofNat 8 (v / 2 ^ 32), BitVec.ofNat 8 (v / 2 ^ 24), BitVec.ofNat 8 (v / 2 ^ 16),
        BitVec.ofNat 8 (v / 2 ^ 8), BitVec.ofNat 8 v] := by
  have hbytes : wordBytes .big 8 v =
      [BitVec.ofNat 8 (v / 256 / 256 / 256 / 256 / 256 / 256 / 256),
        BitVec.ofNat 8 (v / 256 / 256 / 256 / 256 / 256 / 256),
        BitVec.ofNat 8 (v / 256 / 256 / 256 / 256 / 256),
        BitVec.ofNat 8 (v / 256 / 256 / 256 / 256), BitVec.ofNat 8 (v / 256 / 256 / 256),
        BitVec.ofNat 8 (v / 256 / 256), BitVec.ofNat 8 (v / 256), BitVec.ofNat 8 v] := rfl
  simp only [hbytes, Nat.div_div_eq_div_mul, Nat.reduceMul, Nat.reducePow]

/-- A stored number is read back modulo its width. -/
theorem wordValue_wordBytes
    (order : ByteOrder)
    (n v : Nat) :
    wordValue order (wordBytes order n v) = v % 256 ^ n := by
  cases order with
  | little =>
      exact littleValue_littleBytes n v
  | big =>
      rw [wordBytes, wordValue, List.reverse_reverse, littleValue_littleBytes]

theorem littleBytes_littleValue
    (b : List (BitVec 8)) :
    littleBytes b.length (littleValue b) = b := by
  induction b with
  | nil =>
      rfl
  | cons x b ih =>
      have hx := x.isLt
      have hlow : BitVec.ofNat 8 (x.toNat + 256 * littleValue b) = x :=
        BitVec.eq_of_toNat_eq (by rw [BitVec.toNat_ofNat]; omega)
      have hhigh : (x.toNat + 256 * littleValue b) / 256 = littleValue b := by
        omega
      rw [List.length_cons, littleBytes, littleValue, hlow, hhigh, ih]

/-- A field holds the bytes of the number that it is read as. -/
theorem wordBytes_wordValue
    (order : ByteOrder)
    (b : List (BitVec 8)) :
    wordBytes order b.length (wordValue order b) = b := by
  cases order with
  | little =>
      exact littleBytes_littleValue b
  | big =>
      have hback := littleBytes_littleValue b.reverse
      rw [List.length_reverse] at hback
      rw [wordBytes, wordValue, hback, List.reverse_reverse]

/-- Fields of one length are equal when they are read as the same number. -/
theorem wordValue_inj
    {order : ByteOrder} {b b' : List (BitVec 8)}
    (hlength : b.length = b'.length)
    (h : wordValue order b = wordValue order b') :
    b = b' := by
  rw [← wordBytes_wordValue order b, h, hlength, wordBytes_wordValue]

theorem littleValue_lt
    (b : List (BitVec 8)) :
    littleValue b < 256 ^ b.length := by
  induction b with
  | nil =>
      exact Nat.one_pos
  | cons x b ih =>
      have hx := x.isLt
      rw [littleValue, List.length_cons, Nat.pow_succ]
      omega

theorem wordValue_lt
    (order : ByteOrder)
    (b : List (BitVec 8)) :
    wordValue order b < 256 ^ b.length := by
  cases order with
  | little =>
      exact littleValue_lt b
  | big =>
      have hlt := littleValue_lt b.reverse
      rw [List.length_reverse] at hlt
      exact hlt

/-- A sequence of fields of four bytes. -/
theorem flatMap_slice
    {b : List (BitVec 8)} {n : Nat}
    (h : b.length = 4 * n) :
    ((List.range n).flatMap fun i => slice b (4 * i) 4) = b := by
  induction n generalizing b with
  | zero =>
      exact (List.eq_nil_of_length_eq_zero h).symm
  | succ n ih =>
      have hfront : (b.take (4 * n)).length = 4 * n := List.length_take_of_le (by omega)
      have hinit : ((List.range n).flatMap fun i => slice b (4 * i) 4) = b.take (4 * n) := by
        rw [← ih hfront]
        refine List.flatMap_congr fun i hi => ?_
        have hlt := List.mem_range.mp hi
        refine slice_congr fun k _ hk => ?_
        rw [List.getElem?_take_of_lt (by omega)]
      have hlast : slice b (4 * n) 4 = b.drop (4 * n) :=
        List.take_of_length_le (by rw [List.length_drop]; omega)
      rw [List.range_succ, List.flatMap_append, hinit, List.flatMap_singleton, hlast,
        List.take_append_drop]

section Views

variable {n : Nat} (order : ByteOrder)

/-- The words of a buffer. -/
def Buffer.loadWord (b : Buffer (BitVec 8) n) (i : Nat) : BitVec 32 :=
  BitVec.ofNat 32 (wordValue order (slice b.elems (4 * i) 4))

def Buffer.storeWord (b : Buffer (BitVec 8) n) (i : Nat) (v : BitVec 32) : Buffer (BitVec 8) n :=
  b.store (4 * i) (wordBytes order 4 v.toNat)

theorem Buffer.loadWord_storeWord_self
    (b : Buffer (BitVec 8) n)
    {i : Nat}
    (hi : 4 * i + 4 ≤ n)
    (v : BitVec 32) :
    (b.storeWord order i v).loadWord order i = v := by
  have hlen := length_wordBytes order 4 v.toNat
  have hread : slice (b.storeWord order i v).elems (4 * i) 4 = wordBytes order 4 v.toNat := by
    have hself := @slice_overwrite_self _ b.elems (4 * i) (wordBytes order 4 v.toNat)
      (by rw [hlen, b.length_eq]; exact hi)
    rw [hlen] at hself
    exact hself
  rw [Buffer.loadWord, hread, wordValue_wordBytes]
  exact BitVec.eq_of_toNat_eq (by rw [BitVec.toNat_ofNat]; have := v.isLt; omega)

theorem Buffer.loadWord_storeWord_of_ne
    (b : Buffer (BitVec 8) n)
    {i j : Nat}
    (hij : j ≠ i)
    (v : BitVec 32) :
    (b.storeWord order i v).loadWord order j = b.loadWord order j := by
  have hread : slice (b.storeWord order i v).elems (4 * j) 4 = slice b.elems (4 * j) 4 :=
    slice_congr fun k _ _ => getElem?_overwrite_of_outside (by rw [length_wordBytes]; omega)
  rw [Buffer.loadWord, hread, ← Buffer.loadWord]

/-- The bytes of the words of a buffer. -/
theorem Buffer.flatMap_loadWord
    {n : Nat}
    (b : Buffer (BitVec 8) (4 * n)) :
    ((List.range n).flatMap fun i => wordBytes order 4 (b.loadWord order i).toNat) = b.elems := by
  rw [← flatMap_slice b.length_eq]
  refine List.flatMap_congr fun i hi => ?_
  have hlt := List.mem_range.mp hi
  have hlen : (slice b.elems (4 * i) 4).length = 4 := length_slice (by rw [b.length_eq]; omega)
  have hvalue := wordValue_lt order (slice b.elems (4 * i) 4)
  have hbytes := wordBytes_wordValue order (slice b.elems (4 * i) 4)
  have hwidth : 256 ^ 4 = 2 ^ 32 := rfl
  rw [hlen] at hvalue hbytes
  rw [hwidth] at hvalue
  rw [Buffer.loadWord, BitVec.toNat_ofNat, Nat.mod_eq_of_lt hvalue, hbytes]

end Views

section Readers

/-- Take some bytes. -/
def readBytes (n : Nat) (b : List (BitVec 8)) : Option (List (BitVec 8) × List (BitVec 8)) :=
  if n ≤ b.length then some (b.take n, b.drop n) else none

/-- Take a number of some bytes. -/
def readWord (order : ByteOrder) (n : Nat) (b : List (BitVec 8)) :
    Option (Nat × List (BitVec 8)) :=
  (readBytes n b).map fun q => (wordValue order q.1, q.2)

theorem readBytes_append
    {n : Nat} {x : List (BitVec 8)}
    (h : x.length = n)
    (rest : List (BitVec 8)) :
    readBytes n (x ++ rest) = some (x, rest) := by
  rw [readBytes, if_pos (by rw [List.length_append]; omega), List.take_left' h, List.drop_left' h]

theorem readWord_append
    (order : ByteOrder)
    {n v : Nat}
    (h : v < 256 ^ n)
    (rest : List (BitVec 8)) :
    readWord order n (wordBytes order n v ++ rest) = some (v, rest) := by
  rw [readWord, readBytes_append (length_wordBytes order n v), Option.map_some,
    wordValue_wordBytes, Nat.mod_eq_of_lt h]

variable {α : Type u}

/-- Read records until nothing is left. -/
def readAll (readOne : List (BitVec 8) → Option (α × List (BitVec 8))) :
    Nat → List (BitVec 8) → Option (List α)
  | _, [] => some []
  | 0, _ :: _ => none
  | fuel + 1, x :: b =>
      (readOne (x :: b)).bind fun q => (readAll readOne fuel q.2).map fun rs => q.1 :: rs

/-- Records that are each read back are read back from their concatenation. -/
theorem readAll_flatMap
    {readOne : List (BitVec 8) → Option (α × List (BitVec 8))} {write : α → List (BitVec 8)}
    {rs : List α} {fuel : Nat}
    (hread : ∀ r, r ∈ rs → ∀ rest, readOne (write r ++ rest) = some (r, rest))
    (hpos : ∀ r, r ∈ rs → write r ≠ [])
    (hfuel : (rs.flatMap write).length ≤ fuel) :
    readAll readOne fuel (rs.flatMap write) = some rs := by
  induction rs generalizing fuel with
  | nil =>
      cases fuel <;> rfl
  | cons r rs ih =>
      have hone := hread r List.mem_cons_self (rs.flatMap write)
      have hrest := fun fuel => @ih fuel (fun q hq => hread q (List.mem_cons_of_mem r hq))
        (fun q hq => hpos q (List.mem_cons_of_mem r hq))
      rw [List.flatMap_cons] at hfuel ⊢
      cases hw : write r with
      | nil =>
          exact absurd hw (hpos r List.mem_cons_self)
      | cons x b =>
          rw [hw, List.cons_append, List.length_cons, List.length_append] at hfuel
          rw [hw, List.cons_append] at hone
          cases fuel with
          | zero =>
              omega
          | succ fuel =>
              rw [List.cons_append, readAll, hone, Option.bind_some, hrest fuel (by omega),
                Option.map_some]

end Readers

section Strings

/-- The bytes in front of the first zero; without a zero the string has no end. -/
def readString : List (BitVec 8) → Option (List (BitVec 8))
  | [] => none
  | x :: b => if x = 0 then some [] else (readString b).map fun s => x :: s

theorem exists_readString
    {b : List (BitVec 8)}
    (h : 0 ∈ b) :
    ∃ s, readString b = some s := by
  induction b with
  | nil =>
      cases h
  | cons x b ih =>
      by_cases hx : x = 0
      · exact ⟨[], by rw [readString, if_pos hx]⟩
      · have hrest : 0 ∈ b := (List.mem_cons.mp h).resolve_left (Ne.symm hx)
        obtain ⟨s, hs⟩ := ih hrest
        exact ⟨x :: s, by rw [readString, if_neg hx, hs, Option.map_some]⟩

/-- What follows the string is not read. -/
theorem readString_append
    {b s : List (BitVec 8)}
    (h : readString b = some s)
    (rest : List (BitVec 8)) :
    readString (b ++ rest) = some s := by
  induction b generalizing s with
  | nil =>
      cases h
  | cons x b ih =>
      rw [readString] at h
      rw [List.cons_append, readString]
      by_cases hx : x = 0
      · rw [if_pos hx] at h ⊢
        exact h
      · rw [if_neg hx] at h ⊢
        obtain ⟨t, ht, hs⟩ := Option.map_eq_some_iff.mp h
        rw [ih ht, Option.map_some, hs]

/-- A string that does not end here goes on with what follows. -/
theorem readString_append_of_notMem
    {b : List (BitVec 8)}
    (h : 0 ∉ b)
    (rest : List (BitVec 8)) :
    readString (b ++ rest) = (readString rest).map fun s => b ++ s := by
  induction b with
  | nil =>
      simp
  | cons x b ih =>
      obtain ⟨hx, hrest⟩ := not_or.mp (mt List.mem_cons.mpr h)
      rw [List.cons_append, readString, if_neg (Ne.symm hx), ih hrest, Option.map_map]
      rfl

theorem mem_of_readString
    {b s : List (BitVec 8)}
    (h : readString b = some s) :
    0 ∈ b := by
  by_contra hnone
  have hrest := readString_append_of_notMem hnone []
  rw [List.append_nil, h] at hrest
  cases hrest

end Strings

end WireFormat

end Foundations
