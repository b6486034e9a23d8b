import Mathlib.Tactic
import Mathlib.Data.List.TakeWhile

/-!
# Foundations: decimal text

Generated configuration text carries its numbers as decimal digits, and the
reader of such text takes the longest leading run of digits.  This module has
the reader, the round trip with the printer of the standard library, and the
fact that a number printed at the end of a name can be read back from the name.

The reader follows the C library convention: leading blanks are skipped, one
sign is allowed, and text after the digits is ignored.
-/

namespace Foundations

section DecimalText

/-- The value of the leading decimal digits, if there is at least one. -/
def leadingDigits (cs : List Char) : Option Nat :=
  match cs.takeWhile Char.isDigit with
  | [] => none
  | d :: ds => some (Nat.ofDigitChars 10 (d :: ds) 0)

/-- Read a decimal integer from the front of a text. -/
def readInt (s : String) : Option Int :=
  match s.toList.dropWhile Char.isWhitespace with
  | '-' :: cs => (leadingDigits cs).map (fun n => -(n : Int))
  | '+' :: cs => (leadingDigits cs).map Int.ofNat
  | cs => (leadingDigits cs).map Int.ofNat

/-- Every character of a printed natural number is a digit. -/
theorem isDigit_of_mem_repr
    {n : Nat} {c : Char}
    (hc : c ∈ n.repr.toList) :
    c.isDigit = true := by
  rw [Nat.toList_repr] at hc
  exact Nat.isDigit_of_mem_toDigits (by decide) (by decide) hc

/-- A printed number is read back whole. -/
theorem leadingDigits_repr
    (n : Nat) :
    leadingDigits n.repr.toList = some n := by
  have hall :
      n.repr.toList.takeWhile Char.isDigit = n.repr.toList := by
    rw [List.takeWhile_eq_self_iff]
    intro c hc
    exact isDigit_of_mem_repr hc
  unfold leadingDigits
  rw [hall, Nat.toList_repr]
  have hofDigits : Nat.ofDigitChars 10 (Nat.toDigits 10 n) 0 = n :=
    Nat.ofDigitChars_ten_toDigits
  cases hd : Nat.toDigits 10 n with
  | nil =>
      exact absurd hd Nat.toDigits_ne_nil
  | cons d ds =>
      rw [hd] at hofDigits
      simp only [hofDigits]

/-- A digit is neither a blank nor a sign. -/
theorem digit_not_blank_not_sign
    {c : Char}
    (hc : c.isDigit = true) :
    c.isWhitespace = false ∧ c ≠ '-' ∧ c ≠ '+' := by
  refine ⟨?_, ?_, ?_⟩
  · by_contra hw
    have hblank : c.isWhitespace = true := by
      simpa using hw
    simp only [Char.isWhitespace, Bool.or_eq_true, decide_eq_true_eq] at hblank
    rcases hblank with ((rfl | rfl) | rfl) | rfl <;> exact absurd hc (by decide)
  · rintro rfl
    exact absurd hc (by decide)
  · rintro rfl
    exact absurd hc (by decide)

/-- Printing a natural number and reading it back gives the number. -/
@[simp] theorem readInt_repr
    (n : Nat) :
    readInt n.repr = some (n : Int) := by
  have hval := leadingDigits_repr n
  cases hcs : n.repr.toList with
  | nil =>
      rw [hcs] at hval
      simp [leadingDigits] at hval
  | cons d ds =>
      have hdig : d.isDigit = true :=
        isDigit_of_mem_repr (n := n) (by rw [hcs]; simp)
      obtain ⟨hblank, hminus, hplus⟩ := digit_not_blank_not_sign hdig
      rw [hcs] at hval
      unfold readInt
      rw [hcs, List.dropWhile_cons_of_neg (by simp [hblank])]
      split
      · rename_i heq
        cases heq
        exact absurd rfl hminus
      · rename_i heq
        cases heq
        exact absurd rfl hplus
      · rw [hval]
        rfl

/-- Printing an integer and reading it back gives the integer. -/
@[simp] theorem readInt_intRepr
    (n : Int) :
    readInt n.repr = some n := by
  cases n with
  | ofNat m =>
      exact readInt_repr m
  | negSucc m =>
      have htext : (Int.negSucc m).repr.toList = '-' :: (m + 1).repr.toList := by
        have happ : (Int.negSucc m).repr = "-" ++ (m + 1).repr := rfl
        rw [happ, String.toList_append]
        rfl
      unfold readInt
      rw [htext, List.dropWhile_cons_of_neg (by decide)]
      simp only [leadingDigits_repr]
      rfl

/--
Two texts that end in a digit run after the same kind of non-digit character
have the same digit run.
-/
theorem digits_suffix_unique
    {a b ds es : List Char} {x y : Char}
    (hx : x.isDigit = false)
    (hy : y.isDigit = false)
    (hds : ∀ c, c ∈ ds → c.isDigit = true)
    (hes : ∀ c, c ∈ es → c.isDigit = true)
    (h : a ++ x :: ds = b ++ y :: es) :
    ds = es := by
  have hsuffix :
      ∀ (l r : List Char) (z : Char),
        z.isDigit = false →
        (∀ c, c ∈ r → c.isDigit = true) →
        (l ++ z :: r).reverse.takeWhile Char.isDigit = r.reverse := by
    intro l r z hz hr
    rw [List.reverse_append, List.reverse_cons, List.append_assoc]
    rw [List.takeWhile_append_of_pos
      (by intro c hc; exact hr c (List.mem_reverse.mp hc))]
    simp [hz]
  have h₁ := hsuffix a ds x hx hds
  have h₂ := hsuffix b es y hy hes
  rw [h] at h₁
  exact List.reverse_injective (h₁.symm.trans h₂)

/-- A number printed after a mark that ends in a non-digit is determined by the text. -/
theorem repr_suffix_injective
    {a b : String} {m : String} {i j : Nat} {pre : List Char} {x : Char}
    (hm : m.toList = pre ++ [x])
    (hx : x.isDigit = false)
    (h : a ++ m ++ i.repr = b ++ m ++ j.repr) :
    i = j := by
  have hl := congrArg String.toList h
  simp only [String.toList_append, hm, List.append_assoc, List.singleton_append] at hl
  rw [← List.append_assoc a.toList, ← List.append_assoc b.toList] at hl
  have hdig :=
    digits_suffix_unique hx hx
      (fun c hc => isDigit_of_mem_repr hc)
      (fun c hc => isDigit_of_mem_repr hc) hl
  rw [Nat.toList_repr, Nat.toList_repr] at hdig
  calc
    i = Nat.ofDigitChars 10 (Nat.toDigits 10 i) 0 :=
      Nat.ofDigitChars_ten_toDigits.symm
    _ = Nat.ofDigitChars 10 (Nat.toDigits 10 j) 0 := by
      rw [hdig]
    _ = j :=
      Nat.ofDigitChars_ten_toDigits

end DecimalText

end Foundations
