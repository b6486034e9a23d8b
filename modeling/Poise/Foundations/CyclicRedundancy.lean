import Mathlib.Tactic

/-!
# Cyclic redundancy codes

A cyclic redundancy code of width `w` is computed by a shift register.  Each bit
of the message is added to the bit that leaves the register; when the sum is
one, the generator polynomial is added to what remains.  The codes in use differ
in the polynomial, in the initial value, in what is added at the end, and in the
order in which the bits enter and leave.

The generator has a non-zero constant term, so the lowest bit of the register is
the sum that was formed last.  Hence a step can be undone, and two messages that
differ only within `w` consecutive bits have different codes.
-/

namespace Foundations

section CyclicRedundancy

variable {w : Nat}

/-- The order in which the bits of a message enter the register. -/
inductive BitOrder where
  | straight
  | reflectedBytes
  | reversed
deriving DecidableEq, Repr

/-- A message with the bits of each byte in reverse order. -/
def reflectBytes : List Bool → List Bool
  | a :: b :: c :: d :: e :: f :: g :: h :: bits =>
      h :: g :: f :: e :: d :: c :: b :: a :: reflectBytes bits
  | bits => bits.reverse

/-- The bits of a message as they enter the register. -/
def BitOrder.arrange : BitOrder → List Bool → List Bool
  | .straight => id
  | .reflectedBytes => reflectBytes
  | .reversed => List.reverse

/--
The parameters of a code.  The polynomial is given without its leading term
`x ^ w`, the coefficient of `x ^ i` at bit `i`.
-/
structure Crc (w : Nat) where
  poly : BitVec w
  constant_term : poly.getLsbD 0 = true
  init : BitVec w
  xorOut : BitVec w
  order : BitOrder
  reflectOut : Bool

/-- The bit that is fed back: the one that leaves the register plus the one that enters. -/
def feedback (r : BitVec w) (b : Bool) : Bool :=
  r.msb ^^ b

/-- One step of the shift register. -/
def Crc.shift (crc : Crc w) (r : BitVec w) (b : Bool) : BitVec w :=
  (r <<< 1) ^^^ (if feedback r b then crc.poly else 0)

/-- The register after a message. -/
def Crc.register (crc : Crc w) (r : BitVec w) (bits : List Bool) : BitVec w :=
  bits.foldl crc.shift r

/-- The code of a message. -/
def Crc.compute (crc : Crc w) (bits : List Bool) : BitVec w :=
  let r := crc.register crc.init (crc.order.arrange bits)
  (if crc.reflectOut then r.reverse else r) ^^^ crc.xorOut

theorem Crc.width_pos (crc : Crc w) : 0 < w := by
  have h := crc.constant_term
  by_contra hw
  rw [BitVec.getLsbD_of_ge _ _ (by omega)] at h
  cases h

/-- The lowest bit after a step is the bit that was fed back. -/
theorem Crc.shift_low (crc : Crc w) (r : BitVec w) (b : Bool) :
    (crc.shift r b).getLsbD 0 = feedback r b := by
  have hpos := crc.width_pos
  cases hfb : feedback r b <;>
    simp [Crc.shift, hfb, crc.constant_term]

/-- The other bits after a step are the bits below them, up to what was fed back. -/
theorem Crc.shift_high (crc : Crc w) (r : BitVec w) (b : Bool) {i : Nat} (hi : i + 1 < w) :
    (crc.shift r b).getLsbD (i + 1) =
      (r.getLsbD i ^^ (feedback r b && crc.poly.getLsbD (i + 1))) := by
  have hlow : (r <<< 1).getLsbD (i + 1) = r.getLsbD i := by
    rw [BitVec.getLsbD_shiftLeft]
    simp only [hi, decide_true, Bool.true_and, Nat.add_sub_cancel]
    simp
  rw [Crc.shift, BitVec.getLsbD_xor, hlow]
  cases feedback r b <;> simp

/-- Two registers with the same lowest bits. -/
def AgreeBelow (k : Nat) (r s : BitVec w) : Prop :=
  ∀ i, i < k → r.getLsbD i = s.getLsbD i

/-- A step backwards: one bit less is known to agree. -/
theorem Crc.agreeBelow_of_shift
    (crc : Crc w)
    {k : Nat} {r s : BitVec w} {b c : Bool}
    (hk : k + 1 ≤ w)
    (h : AgreeBelow (k + 1) (crc.shift r b) (crc.shift s c)) :
    AgreeBelow k r s := by
  have hfb := h 0 (Nat.succ_pos k)
  rw [crc.shift_low, crc.shift_low] at hfb
  intro i hi
  have hbit := h (i + 1) (by omega)
  rw [crc.shift_high r b (by omega), crc.shift_high s c (by omega), hfb] at hbit
  exact Bool.xor_left_inj.mp hbit

/-- As many steps backwards as two messages have bits. -/
theorem Crc.agreeBelow_of_register
    (crc : Crc w)
    {k : Nat} {x y : List Bool} {r s : BitVec w}
    (hlen : x.length = y.length)
    (hk : k + x.length ≤ w)
    (h : AgreeBelow (k + x.length) (crc.register r x) (crc.register s y)) :
    AgreeBelow k r s := by
  induction x generalizing y r s k with
  | nil =>
      cases y with
      | nil =>
          exact h
      | cons c y =>
          cases hlen
  | cons b x ih =>
      cases y with
      | nil =>
          cases hlen
      | cons c y =>
          rw [List.length_cons] at hk
          rw [List.length_cons, ← Nat.add_assoc, Nat.add_right_comm] at h
          have hstep : AgreeBelow (k + 1) (crc.shift r b) (crc.shift s c) :=
            ih (Nat.succ.inj hlen) (by omega) h
          exact crc.agreeBelow_of_shift (by omega) hstep

/-- A step with the same bit can be undone. -/
theorem Crc.shift_injective (crc : Crc w) (b : Bool) :
    Function.Injective (fun r => crc.shift r b) := by
  intro r s h
  have hpos := crc.width_pos
  have hagree : AgreeBelow (w - 1) r s := by
    refine crc.agreeBelow_of_shift (b := b) (c := b) (by omega) ?_
    intro i _
    exact congrArg (fun v => v.getLsbD i) h
  have hmsb : r.msb = s.msb := by
    have hfb := congrArg (fun v => v.getLsbD 0) h
    simp only [crc.shift_low, feedback] at hfb
    exact Bool.xor_left_inj.mp hfb
  rw [BitVec.msb_eq_getLsbD_last, BitVec.msb_eq_getLsbD_last] at hmsb
  refine BitVec.eq_of_getLsbD_eq fun i hi => ?_
  rcases Nat.lt_or_ge i (w - 1) with hlt | hge
  · exact hagree i hlt
  · rwa [show i = w - 1 by omega]

/-- The register after a fixed message determines the register before it. -/
theorem Crc.register_injective (crc : Crc w) (bits : List Bool) :
    Function.Injective (fun r => crc.register r bits) := by
  induction bits with
  | nil =>
      intro r s h
      exact h
  | cons b bits ih =>
      intro r s h
      exact crc.shift_injective b (ih h)

/-- From one register, messages of at most `w` bits lead to different registers. -/
theorem Crc.register_window
    (crc : Crc w)
    {x y : List Bool} {r : BitVec w}
    (hlen : x.length = y.length)
    (hx : x.length ≤ w)
    (h : crc.register r x = crc.register r y) :
    x = y := by
  induction x generalizing y r with
  | nil =>
      exact (List.length_eq_zero_iff.mp hlen.symm).symm
  | cons b x ih =>
      cases y with
      | nil =>
          cases hlen
      | cons c y =>
          rw [List.length_cons] at hx
          have hlen' : x.length = y.length := Nat.succ.inj hlen
          have hagree : AgreeBelow 1 (crc.shift r b) (crc.shift r c) := by
            refine crc.agreeBelow_of_register hlen' (by omega) ?_
            intro i _
            exact congrArg (fun v => v.getLsbD i) h
          have hfb := hagree 0 Nat.one_pos
          rw [crc.shift_low, crc.shift_low] at hfb
          have hbc : b = c := Bool.xor_right_inj.mp hfb
          subst hbc
          rw [ih hlen' (by omega) h]

/-- Messages that differ within a window of `w` bits lead to different registers. -/
theorem Crc.register_burst
    (crc : Crc w)
    {before x y after : List Bool} {r : BitVec w}
    (hlen : x.length = y.length)
    (hx : x.length ≤ w)
    (h : crc.register r (before ++ x ++ after) = crc.register r (before ++ y ++ after)) :
    x = y := by
  simp only [Crc.register, List.foldl_append] at h
  exact crc.register_window hlen hx (crc.register_injective after h)

/-- Induction over the bytes of a message, with at most seven bits left. -/
@[elab_as_elim]
theorem byte_induction
    {motive : List Bool → Prop}
    (short : ∀ bits, bits.length < 8 → motive bits)
    (byte : ∀ a b c d e f g h bits,
      motive bits → motive (a :: b :: c :: d :: e :: f :: g :: h :: bits))
    (bits : List Bool) : motive bits := by
  induction bits using reflectBytes.induct with
  | case1 a b c d e f g h bits ih =>
      exact byte a b c d e f g h bits ih
  | case2 bits hne =>
      refine short bits (Nat.lt_of_not_le fun hge => ?_)
      rcases bits with _ | ⟨a, _ | ⟨b, _ | ⟨c, _ | ⟨d, _ | ⟨e, _ | ⟨f, _ | ⟨g, _ | ⟨h, t⟩⟩⟩⟩⟩⟩⟩⟩
      case cons.cons.cons.cons.cons.cons.cons.cons =>
        exact hne a b c d e f g h t rfl
      all_goals simp at hge

theorem reflectBytes_short {bits : List Bool} (h : bits.length < 8) :
    reflectBytes bits = bits.reverse := by
  refine reflectBytes.eq_2 bits ?_
  rintro a b c d e f g i t rfl
  simp only [List.length_cons] at h
  omega

theorem reflectBytes_reflectBytes (bits : List Bool) :
    reflectBytes (reflectBytes bits) = bits := by
  induction bits using byte_induction with
  | short bits hlt =>
      rw [reflectBytes_short hlt, reflectBytes_short (by simpa using hlt), List.reverse_reverse]
  | byte a b c d e f g h bits ih =>
      simp only [reflectBytes, ih]

@[simp] theorem length_reflectBytes (bits : List Bool) :
    (reflectBytes bits).length = bits.length := by
  induction bits using byte_induction with
  | short bits hlt =>
      rw [reflectBytes_short hlt, List.length_reverse]
  | byte a b c d e f g h bits ih =>
      simp only [reflectBytes, List.length_cons, ih]

/-- Whole bytes in front are reflected by themselves. -/
theorem reflectBytes_append {x : List Bool} (hx : 8 ∣ x.length) (y : List Bool) :
    reflectBytes (x ++ y) = reflectBytes x ++ reflectBytes y := by
  induction x using byte_induction with
  | short bits hlt =>
      have hnil : bits = [] := List.length_eq_zero_iff.mp (by omega)
      rw [hnil]
      rfl
  | byte a b c d e f g h bits ih =>
      have hbits : 8 ∣ bits.length := by
        simp only [List.length_cons] at hx
        omega
      simp only [List.cons_append, reflectBytes, ih hbits]

theorem BitOrder.arrange_injective (order : BitOrder) :
    Function.Injective order.arrange := by
  cases order with
  | straight =>
      exact Function.injective_id
  | reflectedBytes =>
      exact Function.LeftInverse.injective reflectBytes_reflectBytes
  | reversed =>
      exact List.reverse_injective

@[simp] theorem BitOrder.length_arrange (order : BitOrder) (bits : List Bool) :
    (order.arrange bits).length = bits.length := by
  cases order <;> simp [BitOrder.arrange]

/-- In every order a window of whole bytes stays a window. -/
theorem BitOrder.arrange_window
    (order : BitOrder)
    {before : List Bool}
    (hbefore : 8 ∣ before.length)
    (after : List Bool) :
    ∃ before' after', ∀ x, 8 ∣ x.length →
      order.arrange (before ++ x ++ after) = before' ++ order.arrange x ++ after' := by
  cases order with
  | straight =>
      exact ⟨before, after, fun _ _ => rfl⟩
  | reflectedBytes =>
      refine ⟨reflectBytes before, reflectBytes after, fun x hx => ?_⟩
      simp only [BitOrder.arrange, List.append_assoc]
      rw [reflectBytes_append hbefore, reflectBytes_append hx]
  | reversed =>
      refine ⟨after.reverse, before.reverse, fun x _ => ?_⟩
      simp only [BitOrder.arrange, List.reverse_append, List.append_assoc]

/-- What is done to the register at the end loses nothing. -/
theorem Crc.register_eq_of_compute_eq
    (crc : Crc w)
    {x y : List Bool}
    (h : crc.compute x = crc.compute y) :
    crc.register crc.init (crc.order.arrange x) = crc.register crc.init (crc.order.arrange y) := by
  have hout := (BitVec.xor_left_inj crc.xorOut).mp h
  cases hr : crc.reflectOut with
  | false =>
      simpa [hr] using hout
  | true =>
      have hrev := congrArg BitVec.reverse hout
      simpa [hr, BitVec.reverse_reverse_eq] using hrev

/--
Two messages that differ only in a window of whole bytes, no longer than the
width of the code, have different codes.
-/
theorem Crc.compute_burst
    (crc : Crc w)
    {before x y after : List Bool}
    (hbefore : 8 ∣ before.length)
    (hbytes : 8 ∣ x.length)
    (hlen : x.length = y.length)
    (hx : x.length ≤ w)
    (h : crc.compute (before ++ x ++ after) = crc.compute (before ++ y ++ after)) :
    x = y := by
  obtain ⟨before', after', harrange⟩ := crc.order.arrange_window hbefore after
  have hreg := crc.register_eq_of_compute_eq h
  rw [harrange x hbytes, harrange y (hlen ▸ hbytes)] at hreg
  refine crc.order.arrange_injective (crc.register_burst ?_ ?_ hreg)
  · simpa using hlen
  · simpa using hx

/-- The bits of a word, the highest first. -/
def highFirst {n : Nat} (v : BitVec n) : List Bool :=
  (List.range n).map v.getMsbD

@[simp] theorem length_highFirst {n : Nat} (v : BitVec n) : (highFirst v).length = n := by
  simp [highFirst]

theorem highFirst_injective {n : Nat} :
    Function.Injective (highFirst : BitVec n → List Bool) := by
  intro u v h
  refine BitVec.eq_of_getMsbD_eq fun i hi => ?_
  exact List.map_inj_left.mp h i (List.mem_range.mpr hi)

/-- The code with the generator `x ^ 16 + x ^ 15 + x ^ 2 + 1`, bytes and result reflected. -/
def crc16 : Crc 16 :=
  { poly := 0x8005
    constant_term := rfl
    init := 0
    xorOut := 0
    order := .reflectedBytes
    reflectOut := true }

-- the check value of this code, on the text of the digits 1 to 9
example : crc16.compute (highFirst (0x313233343536373839 : BitVec 72)) = 0xBB3D := by
  decide +kernel

end CyclicRedundancy

end Foundations
