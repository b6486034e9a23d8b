import Mathlib.Tactic

/-!
# Foundations: stores into a buffer

Packets are patched in place: fields are stored at fixed positions, regions are
moved inside the buffer, and its end is cut off.  A store outside of the buffer
is dropped, so stores never change the length.

The lemmas say where a store is seen and where it is not, and how stores act on
a buffer that is seen as a front and a rest.  The second part reads regions of
memory, the third reads and stores numbers in network byte order.
-/

namespace Foundations

universe u

section Stores

variable {α : Type u}

/-- Store a list of elements from a position on. -/
def overwrite : List α → Nat → List α → List α
  | b, _, [] => b
  | b, i, x :: xs => overwrite (b.set i x) (i + 1) xs

/-- A region of a buffer. -/
def slice (b : List α) (i n : Nat) : List α :=
  (b.drop i).take n

/-- Move a region inside the buffer; the source is read before anything is stored. -/
def memmove (b : List α) (dst src n : Nat) : List α :=
  overwrite b dst (slice b src n)

@[simp] theorem length_overwrite
    (b : List α)
    (i : Nat)
    (xs : List α) :
    (overwrite b i xs).length = b.length := by
  induction xs generalizing b i with
  | nil =>
      rfl
  | cons x xs ih =>
      rw [overwrite, ih, List.length_set]

@[simp] theorem length_memmove
    (b : List α)
    (dst src n : Nat) :
    (memmove b dst src n).length = b.length :=
  length_overwrite _ _ _

/-- A store is not seen in front of its position or behind its end. -/
theorem getElem?_overwrite_of_outside
    {b : List α} {i j : Nat} {xs : List α}
    (h : j < i ∨ i + xs.length ≤ j) :
    (overwrite b i xs)[j]? = b[j]? := by
  induction xs generalizing b i with
  | nil =>
      rfl
  | cons x xs ih =>
      rw [List.length_cons] at h
      rw [overwrite, ih (by omega), List.getElem?_set_ne (by omega)]

/-- Storing a list in two parts. -/
theorem overwrite_append
    (b : List α)
    (i : Nat)
    (xs ys : List α) :
    overwrite b i (xs ++ ys) = overwrite (overwrite b i xs) (i + xs.length) ys := by
  induction xs generalizing b i with
  | nil =>
      rfl
  | cons x xs ih =>
      rw [List.cons_append, overwrite, overwrite, ih, List.length_cons, Nat.add_assoc,
        Nat.add_comm 1]

/-- A store into the front of a buffer. -/
theorem overwrite_append_left
    {a b : List α} {i : Nat} {xs : List α}
    (h : i + xs.length ≤ a.length) :
    overwrite (a ++ b) i xs = overwrite a i xs ++ b := by
  induction xs generalizing a i with
  | nil =>
      rfl
  | cons x xs ih =>
      rw [List.length_cons] at h
      rw [overwrite, overwrite, List.set_append_left _ _ (by omega),
        ih (by rw [List.length_set]; omega)]

/-- A store behind the front of a buffer. -/
theorem overwrite_append_right
    {a b : List α} {i : Nat} {xs : List α}
    (h : a.length ≤ i) :
    overwrite (a ++ b) i xs = a ++ overwrite b (i - a.length) xs := by
  induction xs generalizing b i with
  | nil =>
      rfl
  | cons x xs ih =>
      rw [overwrite, overwrite, List.set_append_right _ _ h, ih (by omega),
        Nat.sub_add_comm h]

/-- A store at the beginning replaces as much as it stores. -/
theorem overwrite_zero
    {b xs : List α}
    (h : xs.length ≤ b.length) :
    overwrite b 0 xs = xs ++ b.drop xs.length := by
  induction xs generalizing b with
  | nil =>
      rfl
  | cons x xs ih =>
      cases b with
      | nil =>
          cases h
      | cons y b =>
          have hrest : xs.length ≤ b.length := by
            simpa using h
          have hstep : overwrite (x :: b) 1 xs = x :: overwrite b 0 xs :=
            overwrite_append_right (a := [x]) (Nat.le_refl 1)
          rw [overwrite, List.set_cons_zero, hstep, ih hrest, List.length_cons,
            List.drop_succ_cons, List.cons_append]

/-- A region in the front of a buffer. -/
theorem slice_append_left
    {a : List α} (b : List α) {i n : Nat}
    (h : i + n ≤ a.length) :
    slice (a ++ b) i n = slice a i n := by
  rw [slice, slice, List.drop_append_of_le_length (by omega),
    List.take_append_of_le_length (by rw [List.length_drop]; omega)]

/-- A region behind the front of a buffer. -/
theorem slice_append_right
    (a b : List α) (i n : Nat) :
    slice (a ++ b) (a.length + i) n = slice b i n := by
  rw [slice, slice, List.drop_append, List.drop_eq_nil_of_le (Nat.le_add_right _ _),
    List.nil_append, Nat.add_sub_cancel_left]

theorem length_slice
    {b : List α} {i n : Nat}
    (h : i + n ≤ b.length) :
    (slice b i n).length = n := by
  rw [slice, List.length_take, List.length_drop]
  omega

/-- The front of a buffer. -/
theorem slice_front
    (b : List α)
    (n : Nat) :
    slice b 0 n = b.take n := by
  rw [slice, List.drop_zero]

/-- The rest of a buffer. -/
theorem slice_rest
    (b : List α)
    (i : Nat) :
    slice b i (b.length - i) = b.drop i := by
  rw [slice, ← List.length_drop, List.take_length]

/-- The region of the whole buffer. -/
theorem slice_whole
    (b : List α) :
    slice b 0 b.length = b := by
  rw [slice_front, List.take_length]

/-- A buffer cut in two. -/
theorem slice_append_slice
    (b : List α)
    (m : Nat) :
    slice b 0 m ++ slice b m (b.length - m) = b := by
  rw [slice_front, slice_rest, List.take_append_drop]

/-- The part of a buffer behind a store. -/
theorem drop_overwrite_of_le
    {b : List α} {i j : Nat} {xs : List α}
    (h : i + xs.length ≤ j) :
    (overwrite b i xs).drop j = b.drop j := by
  apply List.ext_getElem?
  intro k
  rw [List.getElem?_drop, List.getElem?_drop, getElem?_overwrite_of_outside (by omega)]

/-- The part of a buffer that a store is in. -/
theorem drop_overwrite_of_ge
    {b : List α} {i j : Nat} {xs : List α}
    (h : j ≤ i) :
    (overwrite b i xs).drop j = overwrite (b.drop j) (i - j) xs := by
  induction xs generalizing b i with
  | nil =>
      rfl
  | cons x xs ih =>
      rw [overwrite, overwrite, ih (by omega), List.drop_set, if_neg (by omega),
        Nat.sub_add_comm h]

/-- The front of a buffer after a store. -/
theorem take_overwrite
    (b : List α)
    (i n : Nat)
    (xs : List α) :
    (overwrite b i xs).take n = overwrite (b.take n) i xs := by
  induction xs generalizing b i with
  | nil =>
      rfl
  | cons x xs ih =>
      rw [overwrite, overwrite, ih, List.take_set]

/-- A store at the end of the front extends it. -/
theorem take_overwrite_end
    {b : List α} {i : Nat} {xs : List α}
    (h : i + xs.length ≤ b.length) :
    (overwrite b i xs).take (i + xs.length) = b.take i ++ xs := by
  have hfront : (b.take i).length = i := List.length_take_of_le (by omega)
  have hrest : xs.length ≤ (b.drop i).length := by
    rw [List.length_drop]
    omega
  have hsplit : overwrite b i xs = b.take i ++ (xs ++ (b.drop i).drop xs.length) := by
    have hstore := @overwrite_append_right _ (b.take i) (b.drop i) i xs (by omega)
    rw [List.take_append_drop, hfront, Nat.sub_self, overwrite_zero hrest] at hstore
    exact hstore
  rw [hsplit, ← List.append_assoc]
  exact List.take_left' (by rw [List.length_append, hfront])

/-- A stored list is read back. -/
theorem slice_overwrite_self
    {b : List α} {i : Nat} {xs : List α}
    (h : i + xs.length ≤ b.length) :
    slice (overwrite b i xs) i xs.length = xs := by
  have hfront : (b.take i).length = i := List.length_take_of_le (by omega)
  have hdrop := congrArg (List.drop i) (take_overwrite_end h)
  rw [List.drop_take, Nat.add_sub_cancel_left, List.drop_left' hfront] at hdrop
  exact hdrop

/-- A region is given by its elements. -/
theorem slice_congr
    {a b : List α} {i n : Nat}
    (h : ∀ k, i ≤ k → k < i + n → a[k]? = b[k]?) :
    slice a i n = slice b i n := by
  apply List.ext_getElem?
  intro k
  rw [slice, slice, List.getElem?_take, List.getElem?_take]
  split
  · rw [List.getElem?_drop, List.getElem?_drop, h _ (by omega) (by omega)]
  · rfl

/-- Moving a region behind the front of a buffer. -/
theorem memmove_append_right
    (a b : List α) (dst src n : Nat) :
    memmove (a ++ b) (a.length + dst) (a.length + src) n = a ++ memmove b dst src n := by
  rw [memmove, memmove, slice_append_right, overwrite_append_right (Nat.le_add_right _ _),
    Nat.add_sub_cancel_left]

/-- A buffer of a fixed size. -/
structure Buffer (α : Type u) (n : Nat) where
  elems : List α
  length_eq : elems.length = n

def Buffer.store {n : Nat} (b : Buffer α n) (i : Nat) (xs : List α) : Buffer α n :=
  ⟨overwrite b.elems i xs, (length_overwrite b.elems i xs).trans b.length_eq⟩

theorem Buffer.elems_store
    {n : Nat}
    (b : Buffer α n)
    (i : Nat)
    (xs : List α) :
    (b.store i xs).elems = overwrite b.elems i xs :=
  rfl

/-- A store over the whole buffer. -/
theorem Buffer.elems_store_whole
    {n : Nat}
    (b : Buffer α n)
    {xs : List α}
    (h : xs.length = n) :
    (b.store 0 xs).elems = xs := by
  have hlength : b.elems.length = xs.length := b.length_eq.trans h.symm
  rw [Buffer.elems_store, overwrite_zero (Nat.le_of_eq hlength.symm),
    List.drop_eq_nil_of_le (Nat.le_of_eq hlength), List.append_nil]

end Stores

section Memory

variable {α : Type u}

/-- What stands in memory from a position on, in front of and behind a pointer. -/
def readFrom (mem : Int → α) (i : Int) (n : Nat) : List α :=
  (List.range n).map fun k : Nat => mem (i + k)

@[simp] theorem length_readFrom
    (mem : Int → α)
    (i : Int)
    (n : Nat) :
    (readFrom mem i n).length = n := by
  rw [readFrom, List.length_map, List.length_range]

/-- Reads of adjacent regions. -/
theorem readFrom_add
    (mem : Int → α)
    (i : Int)
    (m n : Nat) :
    readFrom mem i (m + n) = readFrom mem i m ++ readFrom mem (i + m) n := by
  rw [readFrom, readFrom, readFrom, List.range_add, List.map_append, List.map_map]
  congr 1
  refine List.map_congr_left fun k _ => ?_
  rw [Function.comp_apply, Nat.cast_add, Int.add_assoc]

/-- The front of what is read. -/
theorem take_readFrom
    (mem : Int → α)
    (i : Int)
    {m n : Nat}
    (h : m ≤ n) :
    (readFrom mem i n).take m = readFrom mem i m := by
  obtain ⟨k, rfl⟩ := Nat.exists_eq_add_of_le h
  rw [readFrom_add, List.take_left' (length_readFrom mem i m)]

end Memory

section NetworkOrder

/-- A byte of a buffer, zero outside of it. -/
def byteAt (b : List (BitVec 8)) (i : Nat) : Nat :=
  (b[i]?.getD 0).toNat

/-- A 16-bit number in network byte order. -/
def be16 (b : List (BitVec 8)) (i : Nat) : Nat :=
  byteAt b i * 256 + byteAt b (i + 1)

/-- A 32-bit number in network byte order. -/
def be32 (b : List (BitVec 8)) (i : Nat) : Nat :=
  be16 b i * 65536 + be16 b (i + 2)

def be16Bytes (v : Nat) : List (BitVec 8) :=
  [BitVec.ofNat 8 (v / 256), BitVec.ofNat 8 v]

def be32Bytes (v : Nat) : List (BitVec 8) :=
  be16Bytes (v / 65536) ++ be16Bytes v

variable {b : List (BitVec 8)} {i j : Nat}

theorem length_be16Bytes
    (v : Nat) :
    (be16Bytes v).length = 2 :=
  rfl

theorem byteAt_lt
    (b : List (BitVec 8))
    (i : Nat) :
    byteAt b i < 256 :=
  (b[i]?.getD 0).isLt

theorem be16_lt
    (b : List (BitVec 8))
    (i : Nat) :
    be16 b i < 65536 := by
  have h₁ := byteAt_lt b i
  have h₂ := byteAt_lt b (i + 1)
  rw [be16]
  omega

theorem be32_lt
    (b : List (BitVec 8))
    (i : Nat) :
    be32 b i < 4294967296 := by
  have h₁ := be16_lt b i
  have h₂ := be16_lt b (i + 2)
  rw [be32]
  omega

theorem byteAt_drop
    (b : List (BitVec 8))
    (j i : Nat) :
    byteAt (b.drop j) i = byteAt b (j + i) := by
  rw [byteAt, byteAt, List.getElem?_drop]

theorem be16_drop
    (b : List (BitVec 8))
    (j i : Nat) :
    be16 (b.drop j) i = be16 b (j + i) := by
  rw [be16, be16, byteAt_drop, byteAt_drop, Nat.add_assoc]

theorem be32_drop
    (b : List (BitVec 8))
    (j i : Nat) :
    be32 (b.drop j) i = be32 b (j + i) := by
  rw [be32, be32, be16_drop, be16_drop, Nat.add_assoc]

theorem byteAt_append_left
    (c : List (BitVec 8))
    (h : i < b.length) :
    byteAt (b ++ c) i = byteAt b i := by
  rw [byteAt, byteAt, List.getElem?_append_left h]

theorem be16_append_left
    (c : List (BitVec 8))
    (h : i + 2 ≤ b.length) :
    be16 (b ++ c) i = be16 b i := by
  rw [be16, be16, byteAt_append_left c (by omega), byteAt_append_left c (by omega)]

theorem be32_append_left
    (c : List (BitVec 8))
    (h : i + 4 ≤ b.length) :
    be32 (b ++ c) i = be32 b i := by
  rw [be32, be32, be16_append_left c (by omega), be16_append_left c (by omega)]

theorem byteAt_overwrite_of_outside
    {xs : List (BitVec 8)}
    (h : j < i ∨ i + xs.length ≤ j) :
    byteAt (overwrite b i xs) j = byteAt b j := by
  rw [byteAt, byteAt, getElem?_overwrite_of_outside h]

theorem be16_overwrite_of_outside
    {xs : List (BitVec 8)}
    (h : j + 2 ≤ i ∨ i + xs.length ≤ j) :
    be16 (overwrite b i xs) j = be16 b j := by
  rw [be16, be16, byteAt_overwrite_of_outside (by omega),
    byteAt_overwrite_of_outside (by omega)]

theorem be32_overwrite_of_outside
    {xs : List (BitVec 8)}
    (h : j + 4 ≤ i ∨ i + xs.length ≤ j) :
    be32 (overwrite b i xs) j = be32 b j := by
  rw [be32, be32, be16_overwrite_of_outside (by omega), be16_overwrite_of_outside (by omega)]

/-- A stored byte is read back. -/
theorem byteAt_overwrite_cons
    {x : BitVec 8} {xs : List (BitVec 8)}
    (h : i < b.length) :
    byteAt (overwrite b i (x :: xs)) i = x.toNat := by
  rw [overwrite, byteAt_overwrite_of_outside (Or.inl (Nat.lt_succ_self i)), byteAt,
    List.getElem?_set_self h]
  rfl

/-- A stored number is read back modulo its width. -/
theorem be16_overwrite_self
    (v : Nat)
    (h : i + 2 ≤ b.length) :
    be16 (overwrite b i (be16Bytes v)) i = v % 65536 := by
  have hfirst : byteAt (overwrite b i (be16Bytes v)) i = (BitVec.ofNat 8 (v / 256)).toNat :=
    byteAt_overwrite_cons (by omega)
  have hsecond : byteAt (overwrite b i (be16Bytes v)) (i + 1) = (BitVec.ofNat 8 v).toNat := by
    rw [be16Bytes, overwrite]
    exact byteAt_overwrite_cons (by rw [List.length_set]; omega)
  rw [be16, hfirst, hsecond, BitVec.toNat_ofNat, BitVec.toNat_ofNat]
  omega

/-- A number stored among other fields is read back. -/
theorem be16_overwrite_inside
    (xs ys : List (BitVec 8))
    (v : Nat)
    (h : i + xs.length + 2 ≤ b.length) :
    be16 (overwrite b i (xs ++ be16Bytes v ++ ys)) (i + xs.length) = v % 65536 := by
  rw [overwrite_append, overwrite_append, List.length_append, length_be16Bytes,
    be16_overwrite_of_outside (Or.inl (by omega)),
    be16_overwrite_self v (by rw [length_overwrite]; exact h)]

theorem be32_overwrite_self
    (v : Nat)
    (h : i + 4 ≤ b.length) :
    be32 (overwrite b i (be32Bytes v)) i = v % 4294967296 := by
  have hsplit : overwrite b i (be32Bytes v) =
      overwrite (overwrite b i (be16Bytes (v / 65536))) (i + 2) (be16Bytes v) :=
    overwrite_append b i (be16Bytes (v / 65536)) (be16Bytes v)
  have hlow : be16 (overwrite b i (be32Bytes v)) (i + 2) = v % 65536 := by
    rw [hsplit]
    exact be16_overwrite_self v (by rw [length_overwrite]; omega)
  have hhigh : be16 (overwrite b i (be32Bytes v)) i = v / 65536 % 65536 := by
    rw [hsplit, be16_overwrite_of_outside (Or.inl (Nat.le_refl _))]
    exact be16_overwrite_self (v / 65536) (by omega)
  rw [be32, hhigh, hlow]
  omega

end NetworkOrder

end Foundations
