import Mathlib.Tactic
import Mathlib.Data.List.Sort
import Mathlib.Data.String.Basic

/-!
# Poise compiler: the policy program

This module embeds the classes of the compiler that hold a parsed policy
(`ListExpr`, `ListPred`, `BinaryPred`, `MatchExpr`, `Monitor` and `Program`).

The two maps from names to lists and to monitors are read off the vectors of
declarations: an assignment to a map key replaces the earlier one, so a lookup
takes the last declaration of the name.  Member functions that assert fail
with an explicit error.
-/

namespace Poise

/-- The ways in which the compiler process ends without producing code. -/
inductive Failure where
  | assertion
  | nullPointer
  | emptyStack
  | invalidArgument
  | outOfRange
deriving DecidableEq, Repr

/-- A fallible computation with a continuation succeeds when both parts do. -/
theorem bind_eq_ok_iff
    {α β : Type}
    {x : Except Failure α} {f : α → Except Failure β} {b : β} :
    (x >>= f) = .ok b ↔ ∃ a, x = .ok a ∧ f a = .ok b := by
  cases x with
  | error e =>
      constructor
      · intro h
        cases h
      · rintro ⟨a, ha, _⟩
        cases ha
  | ok a =>
      constructor
      · intro h
        exact ⟨a, rfl, h⟩
      · rintro ⟨a', ha, hf⟩
        cases ha
        exact hf

/-- Actions of the policy language. -/
inductive PolicyAction where
  | drop
  | fwd1 | fwd2 | fwd3 | fwd4 | fwd5 | fwd6 | fwd7
  | fwd8 | fwd9 | fwd10 | fwd11 | fwd12 | fwd13 | fwd14
deriving DecidableEq, Repr

def minActionVal : Nat := 1

def maxActionVal : Nat := 15

/-- The value of the normal forward action. -/
def normalActionVal : Nat := minActionVal

/-- The value of the drop action. -/
def dropActionVal : Nat := maxActionVal

/-- The table from actions to decision values. -/
def actionToVal : PolicyAction → Nat
  | .fwd1 => 1
  | .fwd2 => 2
  | .fwd3 => 3
  | .fwd4 => 4
  | .fwd5 => 5
  | .fwd6 => 6
  | .fwd7 => 7
  | .fwd8 => 8
  | .fwd9 => 9
  | .fwd10 => 10
  | .fwd11 => 11
  | .fwd12 => 12
  | .fwd13 => 13
  | .fwd14 => 14
  | .drop => maxActionVal

/-- Every action has a value between the two bounds. -/
theorem actionToVal_bounds
    (a : PolicyAction) :
    minActionVal ≤ actionToVal a ∧ actionToVal a ≤ maxActionVal := by
  cases a <;> decide

/-- List operators. -/
inductive ListOp where
  | isIn
  | notIn
deriving DecidableEq, Repr

/-- Comparison operators of the grammar. -/
inductive BinOp where
  | gt
  | lt
  | le
  | ge
  | eq
deriving DecidableEq, Repr

/-- A test on list membership. -/
structure ListPred where
  listvar : String
  listop : ListOp
  listbodyvar : String
deriving DecidableEq, Repr

/-- A comparison; both sides are kept as text. -/
structure BinaryPred where
  lhs : String
  op : BinOp
  rhs : String
deriving DecidableEq, Repr

/-- The predicate a match expression tests. -/
inductive MatchBody where
  | pred (bp : BinaryPred)
  | list (lp : ListPred)
  | monitor (mvar : String) (bp : Option BinaryPred)
deriving DecidableEq, Repr

/-- A match expression with the actions of its branches. -/
structure MatchExpr where
  body : MatchBody
  ifAction : Option PolicyAction := none
  elseAction : Option PolicyAction := none
  numActions : Nat := 0
deriving DecidableEq, Repr

namespace MatchExpr

def setIfAction (me : MatchExpr) (a : PolicyAction) : Except Failure MatchExpr :=
  match me.ifAction with
  | some _ => .error .assertion
  | none => .ok { me with ifAction := some a, numActions := me.numActions + 1 }

def setElseAction (me : MatchExpr) (a : PolicyAction) : Except Failure MatchExpr :=
  match me.elseAction with
  | some _ => .error .assertion
  | none => .ok { me with elseAction := some a, numActions := me.numActions + 1 }

/-- Whether both branches have their action. -/
def getIfthenelse (me : MatchExpr) : Bool :=
  me.numActions == 2

def getIfAction (me : MatchExpr) : Except Failure PolicyAction :=
  match me.ifAction with
  | some a => .ok a
  | none => .error .assertion

def getElseAction (me : MatchExpr) : Except Failure PolicyAction :=
  match me.elseAction with
  | some a => .ok a
  | none => .error .assertion

end MatchExpr

/-- A monitor variable with the list test that refreshes it. -/
structure Monitor where
  mvar : String
  lp : ListPred
deriving DecidableEq, Repr

/-- A parsed policy. -/
structure Program where
  listV : List (String × List Int) := []
  matchexprV : List MatchExpr := []
  monitorV : List Monitor := []
  headerV : List String := []
deriving DecidableEq, Repr

namespace Program

def addListexpr (p : Program) (thelistvar : String) (items : List Int) : Program :=
  { p with listV := p.listV ++ [(thelistvar, items)] }

/-- The list the name stands for after the last declaration of the name. -/
def getListByName (p : Program) (thelistvar : String) : Option (List Int) :=
  p.listV.reverse.lookup thelistvar

def addMonitor (p : Program) (them : Monitor) : Program :=
  { p with monitorV := p.monitorV ++ [them] }

/-- The monitor the name stands for after the last declaration of the name. -/
def getMonByName (p : Program) (mvar : String) : Option Monitor :=
  p.monitorV.reverse.find? (fun m => m.mvar == mvar)

def addMatchexpr (p : Program) (theme : MatchExpr) : Program :=
  { p with matchexprV := p.matchexprV ++ [theme] }

/-- Change the match expression that was added last. -/
def updateLatestmatchexpr
    (p : Program) (f : MatchExpr → Except Failure MatchExpr) :
    Except Failure Program :=
  match p.matchexprV.getLast? with
  | none => .error .assertion
  | some me => do
      let me' ← f me
      .ok { p with matchexprV := p.matchexprV.dropLast ++ [me'] }

def addHeader (p : Program) (h : String) : Program :=
  { p with headerV := p.headerV ++ [h] }

end Program

/-- The library function that drops consecutive duplicates. -/
def unique : List String → List String
  | [] => []
  | [a] => [a]
  | a :: b :: l =>
      if a = b then unique (b :: l) else a :: unique (b :: l)

/-- Counting the headers sorts them and drops the duplicates. -/
def Program.countHeaders (p : Program) : Program :=
  { p with headerV := unique (p.headerV.insertionSort (· ≤ ·)) }

/-- Dropping consecutive duplicates keeps the elements. -/
theorem mem_unique
    (x : String) :
    ∀ l : List String, x ∈ unique l ↔ x ∈ l
  | [] => by simp [unique]
  | [a] => by simp [unique]
  | a :: b :: l => by
      have ih := mem_unique x (b :: l)
      by_cases hab : a = b
      · subst hab
        simp only [unique, if_true, ih]
        simp
      · simp only [unique, hab, if_false, List.mem_cons] at ih ⊢
        rw [ih]

/-- In a sorted list the duplicates are consecutive, so none is left. -/
theorem nodup_unique :
    ∀ l : List String,
      l.Pairwise (· ≤ ·) →
      (unique l).Nodup
  | [], _ => by simp [unique]
  | [a], _ => by simp [unique]
  | a :: b :: l, hsorted => by
      obtain ⟨ha, hrest⟩ := List.pairwise_cons.mp hsorted
      have ih := nodup_unique (b :: l) hrest
      by_cases hab : a = b
      · subst hab
        simpa [unique] using ih
      · simp only [unique, hab, if_false, List.nodup_cons]
        refine ⟨?_, ih⟩
        intro hmem
        rw [mem_unique] at hmem
        rcases List.mem_cons.mp hmem with heq | htail
        · exact hab heq
        · have hba : b ≤ a := (List.pairwise_cons.mp hrest).1 a htail
          exact hab (le_antisymm (ha b (by simp)) hba)

/-- After counting, every header occurs once. -/
theorem nodup_countHeaders
    (p : Program) :
    p.countHeaders.headerV.Nodup := by
  apply nodup_unique
  exact List.pairwise_insertionSort (· ≤ ·) p.headerV

end Poise
