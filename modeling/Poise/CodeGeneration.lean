import Poise.CheckMerging
import Poise.StageAllocation
import Poise.Foundations.PriorityWrites
import Poise.Foundations.ConsecutiveRuns

/-!
# Poise compiler: code generation

The compiler emits a P4 policy (header fields, tables, monitors and the control
`EvaluateContext`) and a file of commands that add table entries.  Both are kept
here in structured form: tables, entries and applications refer to each other by
table name, and the match values of an entry are the texts of the command.

The last section embeds `compile_tofino`.  The sort of the checks is a
parameter that promises no more than the library sort does.
-/

namespace Poise

open Foundations

section CodeGeneration

/-- Match kinds of the generated tables. -/
inductive MatchKind where
  | exact
  | range
deriving DecidableEq, Repr

/-- Fields a generated table reads: a policy header or the activity of a monitor. -/
inductive Field where
  | poiseH (h : String)
  | monActive (m : String)
deriving DecidableEq, Repr

/-- The name of a field in a command. -/
def Field.key : Field → String
  | .poiseH h => "poise_h_" ++ h
  | .monActive m => m ++ "_meta_active"

/-- A generated table: its name, its key and its size. -/
structure TableDef where
  name : String
  reads : List (Field × MatchKind)
  size : Nat
deriving DecidableEq, Repr

/-- What the monitor template is instantiated with besides its evaluation table. -/
structure MonitorDef where
  name : String
  header : String
  timeout : Nat
deriving DecidableEq, Repr

/-- The table a monitor is refreshed by. -/
def refreshTable (m : String) : String :=
  "monitor_" ++ m ++ "_tab"

/-- The tables of the monitor template besides its evaluation table. -/
def MonitorDef.templateTables (d : MonitorDef) : List TableDef :=
  [{ name := refreshTable d.name, reads := [(.poiseH d.header, .exact)], size := 1 },
   { name := "check_" ++ d.name ++ "_active_tab", reads := [], size := 1 },
   { name := "update_" ++ d.name ++ "_tab", reads := [], size := 1 }]

/-- Statements of `EvaluateContext`. -/
inductive EvalStmt where
  | applyTable (name : String)
  | applyMonitor (m : String)
deriving DecidableEq, Repr

/-- One `add_entry set_ctx_dec` command. -/
structure TableEntry where
  table : String
  keys : List (String × String)
  actionX : Nat
deriving DecidableEq, Repr

/-- Everything the compiler emits for one policy. -/
structure PolicyCode where
  recirTimes : Nat
  headerDefs : List String
  tables : List TableDef
  monitors : List MonitorDef
  evalCtx : List (Nat × List EvalStmt)
  entries : List TableEntry
deriving DecidableEq, Repr

/-- All tables of the generated program. -/
def PolicyCode.allTables (code : PolicyCode) : List TableDef :=
  code.tables ++ code.monitors.flatMap MonitorDef.templateTables

/-- The lines of the header definition, without duplicates. -/
def generateHeaderDef (checkV : List Check) : List String :=
  unique
    ((checkV.map (fun c =>
      "      " ++ c.header ++ " : " ++ toString c.fieldLen ++ ";\n")).insertionSort (· ≤ ·))

/-- The part of a table name in front of the round and the id. -/
def tableStem (c : Check) : String :=
  match c.type with
  | .monitor => c.monName
  | _ => c.header

/-- The name given to the table of a check. -/
def tableNameOf (c : Check) : String :=
  "eval_" ++ tableStem c ++ "_tab_rec" ++ c.recNum.repr ++ "_id" ++ c.id.repr

/-- A table name shows the stem, the round and the id of its check. -/
theorem tableNameOf_injective
    {c d : Check}
    (h : tableNameOf c = tableNameOf d) :
    tableStem c = tableStem d ∧ c.recNum = d.recNum ∧ c.id = d.id := by
  have hid : c.id = d.id :=
    repr_suffix_injective (by decide : "_id".toList = ['_', 'i'] ++ ['d']) (by decide) h
  have hround : "eval_" ++ tableStem c ++ "_tab_rec" ++ c.recNum.repr =
      "eval_" ++ tableStem d ++ "_tab_rec" ++ d.recNum.repr := by
    simpa only [tableNameOf, hid, String.append_left_inj] using h
  have hrec : c.recNum = d.recNum :=
    repr_suffix_injective
      (by decide : "_tab_rec".toList = ['_', 't', 'a', 'b', '_', 'r', 'e'] ++ ['c'])
      (by decide) hround
  refine ⟨?_, hrec, hid⟩
  simpa only [hrec, String.append_left_inj, String.append_right_inj] using hround

def nameTable (c : Check) : Check :=
  { c with tableName := tableNameOf c }

/-- The table of one check. -/
def tableDefOf (c : Check) : Except Failure TableDef :=
  match c.type with
  | .range =>
      .ok { name := c.tableName, reads := [(.poiseH c.header, .range)], size := c.tableSize }
  | .exact =>
      .ok { name := c.tableName, reads := [(.poiseH c.header, .exact)], size := c.tableSize }
  | .list =>
      .ok { name := c.tableName, reads := [(.poiseH c.header, .exact)], size := c.tableSize }
  | .monitor =>
      .ok {
        name := c.tableName
        reads :=
          (.monActive c.monName, .exact) ::
            (if c.extraCheck then c.extraHeader.map (fun h => (Field.poiseH h, MatchKind.exact))
              else [])
        size := 2 }
  | .invalid => .error .assertion

def generateTableDef : List Check → Except Failure (List TableDef)
  | [] => .ok []
  | c :: cs => do
      let t ← tableDefOf c
      let ts ← generateTableDef cs
      .ok (t :: ts)

/-- The monitors the template is instantiated for. -/
def monitorDefs (checkV : List Check) : List MonitorDef :=
  (checkV.filter (fun c => c.type == .monitor)).map
    (fun c => { name := c.monName, header := c.header, timeout := c.timeoutVal })

/-- Statements emitted for one check. -/
def evalStmts (c : Check) : List EvalStmt :=
  match c.type with
  | .monitor => [.applyMonitor c.monName, .applyTable c.tableName]
  | .invalid => []
  | _ => [.applyTable c.tableName]

/-- The chain of branches on the recirculation counter. -/
def generateEvalCtx (checkV : List Check) : List (Nat × List EvalStmt) :=
  (runsFrom Check.recNum 0 [] checkV).map (fun b => (b.1, b.2.flatMap evalStmts))

/-- The commands emitted for one check. -/
def entriesOf (c : Check) : List TableEntry :=
  match c.type with
  | .exact =>
      [{ table := c.tableName
         keys := [(Field.key (.poiseH c.header), c.predHi)]
         actionX := c.ifActionVal }]
  | .range =>
      [{ table := c.tableName
         keys :=
           [(Field.key (.poiseH c.header) ++ "_start", c.predLo),
            (Field.key (.poiseH c.header) ++ "_end", c.predHi)]
         actionX := c.ifActionVal }]
  | .list =>
      c.list.map (fun e =>
        { table := c.tableName
          keys := [(Field.key (.poiseH c.header), toString e)]
          actionX := c.ifActionVal })
  | .monitor =>
      if c.extraCheck then
        c.extraHeader.map (fun h =>
          { table := c.tableName
            keys :=
              [(Field.key (.monActive c.monName), "0"),
               (Field.key (.poiseH h), mapGet c.hToVal h)]
            actionX := c.elseActionVal })
      else
        [{ table := c.tableName
           keys := [(Field.key (.monActive c.monName), "0")]
           actionX := c.elseActionVal }]
  | .invalid => []

def generateCmd (checkV : List Check) : List TableEntry :=
  checkV.flatMap entriesOf

/-- The code for checks that have their round and their table name. -/
def policyCode (checkV : List Check) (currRec : Nat) (tables : List TableDef) : PolicyCode :=
  { recirTimes := currRec
    headerDefs := generateHeaderDef checkV
    tables := tables
    monitors := monitorDefs checkV
    evalCtx := generateEvalCtx checkV
    entries := generateCmd checkV }

/-- Sorting, allocation, naming and emission. -/
def generateP4
    (S : UnstableSort Check Check.priority) (checkV : List Check) :
    Except Failure PolicyCode := do
  match ← allocateResources (S.sort checkV) with
  | none => .error .assertion
  | some (placed, currRec) => do
      let named := placed.map nameTable
      let tables ← generateTableDef named
      .ok (policyCode named currRec tables)

/-- The checks in front of code generation. -/
def optimizedChecks (prog : Program) : Except Failure (List Check) := do
  let checkV ← processMatchexprs prog.countHeaders
  let checkV ← mergeSameHeaders prog.countHeaders.headerV checkV
  .ok (mergeMonitors prog.countHeaders.monitorV checkV)

def compileTofino
    (S : UnstableSort Check Check.priority) (prog : Program) :
    Except Failure PolicyCode := do
  let checkV ← optimizedChecks prog
  generateP4 S checkV

/-- The three stages in front of code generation. -/
theorem optimizedChecks_eq_ok
    {prog : Program} {optimized : List Check}
    (h : optimizedChecks prog = .ok optimized) :
    ∃ checks marked,
      processMatchexprs prog.countHeaders = .ok checks ∧
      mergeHeaders prog.countHeaders.headerV checks = .ok marked ∧
      optimized = mergeMonitors prog.monitorV (removeInvalidChecks marked) := by
  unfold optimizedChecks at h
  obtain ⟨checks, hchecks, h⟩ := bind_eq_ok_iff.mp h
  obtain ⟨merged, hmerged, h⟩ := bind_eq_ok_iff.mp h
  obtain ⟨marked, hmarked, hmerged⟩ := bind_eq_ok_iff.mp hmerged
  cases hmerged
  cases h
  exact ⟨checks, marked, hchecks, hmarked, rfl⟩

/-- A policy that was accepted, and the vector of checks its code was generated from. -/
structure Compiled
    (S : UnstableSort Check Check.priority) (prog : Program) (code : PolicyCode)
    (optimized placed : List Check) (tables : List TableDef) : Prop where
  checks : optimizedChecks prog = .ok optimized
  walk : allocateFrom 0 0 (S.sort optimized) = .ok (placed, code.recirTimes)
  rounds : code.recirTimes < maxRecTimes
  tableDefs : generateTableDef (placed.map nameTable) = .ok tables
  emitted : code = policyCode (placed.map nameTable) code.recirTimes tables

/-- Every accepted policy has such a vector. -/
theorem compileTofino_compiled
    {S : UnstableSort Check Check.priority} {prog : Program} {code : PolicyCode}
    (h : compileTofino S prog = .ok code) :
    ∃ optimized placed tables, Compiled S prog code optimized placed tables := by
  unfold compileTofino at h
  obtain ⟨optimized, hopt, h⟩ := bind_eq_ok_iff.mp h
  unfold generateP4 at h
  obtain ⟨res, halloc, h⟩ := bind_eq_ok_iff.mp h
  cases res with
  | none =>
      cases h
  | some pair =>
      obtain ⟨placed, currRec⟩ := pair
      obtain ⟨tables, htables, h⟩ := bind_eq_ok_iff.mp h
      cases h
      obtain ⟨hwalk, hlt⟩ := allocateResources_eq_some_iff.mp halloc
      exact ⟨optimized, placed, tables, hopt, hwalk, hlt, htables, rfl⟩

/-- The vectors behind the code are those of the stages of the compiler. -/
theorem compileTofino_compiled_of
    {S : UnstableSort Check Check.priority} {prog : Program} {code : PolicyCode}
    {optimized placed : List Check} {rounds : Nat}
    (h : compileTofino S prog = .ok code)
    (hopt : optimizedChecks prog = .ok optimized)
    (halloc : allocateResources (S.sort optimized) = .ok (some (placed, rounds))) :
    ∃ tables, Compiled S prog code optimized placed tables := by
  obtain ⟨optimized', placed', tables, hcomp⟩ := compileTofino_compiled h
  obtain rfl : optimized = optimized' := Except.ok.inj (hopt.symm.trans hcomp.checks)
  have hwalk := (allocateResources_eq_some_iff.mp halloc).1
  have hsame := Except.ok.inj (hwalk.symm.trans hcomp.walk)
  obtain rfl : placed = placed' := congrArg Prod.fst hsame
  exact ⟨tables, hcomp⟩

/-- Up to placement and names the code is generated from the sorted checks. -/
theorem Compiled.map_unplaced
    {S : UnstableSort Check Check.priority} {prog : Program} {code : PolicyCode}
    {optimized placed : List Check} {tables : List TableDef}
    (hcomp : Compiled S prog code optimized placed tables) :
    (placed.map nameTable).map unplaced = (S.sort optimized).map unplaced := by
  rw [← allocateFrom_unplaced hcomp.walk, List.map_map]
  rfl

/-- A placed check is an optimized one up to its place. -/
theorem Compiled.exists_optimized
    {S : UnstableSort Check Check.priority} {prog : Program} {code : PolicyCode}
    {optimized placed : List Check} {tables : List TableDef}
    (hcomp : Compiled S prog code optimized placed tables)
    {c : Check}
    (hc : c ∈ placed) :
    ∃ d, d ∈ optimized ∧ unplaced d = unplaced c := by
  have hmem : unplaced c ∈ placed.map unplaced := List.mem_map_of_mem hc
  rw [allocateFrom_unplaced hcomp.walk] at hmem
  obtain ⟨d, hd, heq⟩ := List.mem_map.mp hmem
  exact ⟨d, (S.perm optimized).mem_iff.mp hd, heq⟩

/-- What holds of all pairs of optimized checks holds of all pairs of placed ones. -/
theorem Compiled.pairwise_placed
    {S : UnstableSort Check Check.priority} {prog : Program} {code : PolicyCode}
    {optimized placed : List Check} {tables : List TableDef}
    (hcomp : Compiled S prog code optimized placed tables)
    {R : Check → Check → Prop}
    (hR : ∀ c d, R (unplaced c) (unplaced d) ↔ R c d)
    (hsymm : ∀ {c d}, R c d → R d c)
    (h : optimized.Pairwise R) :
    placed.Pairwise R := by
  have hbare : ∀ l : List Check, (l.map unplaced).Pairwise R ↔ l.Pairwise R := by
    intro l
    simp only [List.pairwise_map, hR]
  rw [← hbare, allocateFrom_unplaced hcomp.walk, hbare, (S.perm optimized).pairwise_iff hsymm]
  exact h

/-- What holds of all optimized checks, whatever their place and name, holds of all placed ones. -/
theorem Compiled.forall_placed
    {S : UnstableSort Check Check.priority} {prog : Program} {code : PolicyCode}
    {optimized placed : List Check} {tables : List TableDef}
    (hcomp : Compiled S prog code optimized placed tables)
    {P : Check → Prop}
    (hP : ∀ c, P (unplaced c) ↔ P c)
    (h : ∀ c, c ∈ optimized → P c) :
    ∀ c, c ∈ placed.map nameTable → P c := by
  intro c hc
  have hmem : unplaced c ∈ (placed.map nameTable).map unplaced :=
    List.mem_map_of_mem hc
  rw [hcomp.map_unplaced] at hmem
  obtain ⟨d, hd, heq⟩ := List.mem_map.mp hmem
  rw [← hP c, ← heq, hP d]
  exact h d ((S.perm optimized).mem_iff.mp hd)

/-- Some placed check has a property exactly when some optimized check does. -/
theorem Compiled.exists_placed_iff
    {S : UnstableSort Check Check.priority} {prog : Program} {code : PolicyCode}
    {optimized placed : List Check} {tables : List TableDef}
    (hcomp : Compiled S prog code optimized placed tables)
    {P : Check → Prop}
    (hP : ∀ c, P (unplaced c) ↔ P c) :
    (∃ c, c ∈ placed.map nameTable ∧ P c) ↔ ∃ c, c ∈ optimized ∧ P c := by
  have hbare : ∀ l : List Check,
      (∃ c, c ∈ l ∧ P c) ↔ ∃ c, c ∈ l.map unplaced ∧ P c := by
    intro l
    simp [hP]
  rw [hbare, hcomp.map_unplaced, ← hbare]
  simp only [(S.perm optimized).mem_iff]

/-- All placed checks have a property exactly when all optimized checks do. -/
theorem Compiled.forall_placed_iff
    {S : UnstableSort Check Check.priority} {prog : Program} {code : PolicyCode}
    {optimized placed : List Check} {tables : List TableDef}
    (hcomp : Compiled S prog code optimized placed tables)
    {P : Check → Prop}
    (hP : ∀ c, P (unplaced c) ↔ P c) :
    (∀ c, c ∈ placed.map nameTable → P c) ↔ ∀ c, c ∈ optimized → P c := by
  have hnot := hcomp.exists_placed_iff (P := fun c => ¬ P c) (fun c => not_congr (hP c))
  constructor
  · intro h c hc
    by_contra hbad
    obtain ⟨d, hd, hdbad⟩ := hnot.mpr ⟨c, hc, hbad⟩
    exact hdbad (h d hd)
  · exact hcomp.forall_placed hP

/-- The tables of a vector of checks. -/
theorem mem_generateTableDef
    {checkV : List Check} {tables : List TableDef}
    (h : generateTableDef checkV = .ok tables)
    {t : TableDef} :
    t ∈ tables ↔ ∃ c, c ∈ checkV ∧ tableDefOf c = .ok t := by
  induction checkV generalizing tables with
  | nil =>
      cases h
      simp
  | cons c cs ih =>
      rw [generateTableDef] at h
      obtain ⟨t', ht', h⟩ := bind_eq_ok_iff.mp h
      obtain ⟨ts, hts, h⟩ := bind_eq_ok_iff.mp h
      cases h
      have hhead : t = t' ↔ tableDefOf c = .ok t := by
        rw [ht', Except.ok.injEq, eq_comm]
      simp only [List.mem_cons, ih hts, hhead, or_and_right, exists_or, exists_eq_left]

/-- The tables of a vector of checks, one for each check. -/
theorem generateTableDef_forall₂
    {checkV : List Check} {tables : List TableDef}
    (h : generateTableDef checkV = .ok tables) :
    List.Forall₂ (fun c t => tableDefOf c = .ok t) checkV tables := by
  induction checkV generalizing tables with
  | nil =>
      cases h
      exact List.Forall₂.nil
  | cons c cs ih =>
      rw [generateTableDef] at h
      obtain ⟨t, ht, h⟩ := bind_eq_ok_iff.mp h
      obtain ⟨ts, hts, h⟩ := bind_eq_ok_iff.mp h
      cases h
      exact List.Forall₂.cons ht (ih hts)

/-- A table carries the name of its check. -/
theorem tableDefOf_name
    {c : Check} {t : TableDef}
    (h : tableDefOf c = .ok t) :
    t.name = c.tableName := by
  unfold tableDefOf at h
  split at h
  all_goals first | cases h; rfl | cases h

/-- Every check that is not invalid has a table. -/
theorem exists_tableDefOf
    {c : Check}
    (hlive : c.type ≠ .invalid) :
    ∃ t, tableDefOf c = .ok t := by
  rw [tableDefOf]
  split
  · exact ⟨_, rfl⟩
  · exact ⟨_, rfl⟩
  · exact ⟨_, rfl⟩
  · exact ⟨_, rfl⟩
  · rename_i htype
    exact absurd htype hlive

/-- Entries carry the name of the table of their check. -/
theorem entriesOf_table
    {c : Check} {e : TableEntry}
    (he : e ∈ entriesOf c) :
    e.table = c.tableName := by
  unfold entriesOf at he
  split at he
  · rw [List.mem_singleton.mp he]
  · rw [List.mem_singleton.mp he]
  · obtain ⟨x, _, rfl⟩ := List.mem_map.mp he
    rfl
  · split at he
    · obtain ⟨x, _, rfl⟩ := List.mem_map.mp he
      rfl
    · rw [List.mem_singleton.mp he]
  · simp at he

/-- Entries write one of the two values of their check. -/
theorem entriesOf_actionX
    {c : Check} {e : TableEntry}
    (he : e ∈ entriesOf c) :
    e.actionX = c.ifActionVal ∨ e.actionX = c.elseActionVal := by
  unfold entriesOf at he
  split at he
  · rw [List.mem_singleton.mp he]
    exact Or.inl rfl
  · rw [List.mem_singleton.mp he]
    exact Or.inl rfl
  · obtain ⟨x, _, rfl⟩ := List.mem_map.mp he
    exact Or.inl rfl
  · split at he
    · obtain ⟨x, _, rfl⟩ := List.mem_map.mp he
      exact Or.inr rfl
    · rw [List.mem_singleton.mp he]
      exact Or.inr rfl
  · simp at he

end CodeGeneration

end Poise
