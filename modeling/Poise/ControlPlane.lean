import Mathlib.Tactic
import Poise.PassSpecification
import Poise.Foundations.IndexPool
import Poise.Foundations.CellHistory

/-!
# Poise control plane: connection indexes

The controller hands out the indexes of the decision registers: `poise_add` pops
one for a learned connection and `age_out` returns the one of an entry it
deletes.  Calls of the driver can raise; whether each of them does is an input.

* Indexes are never shared: the free ones and the installed ones are distinct,
  and distinct installed indexes have distinct decision cells on the data plane.
* An index is lost exactly when a table add raises, because the popped index is
  not put back.
-/

namespace Poise

open Foundations

section ControlPlane

def unseen : BitVec 8 := 0

def connTbSize : Nat := 100000

/-- An installed entry of `conn_tab`, with the decision its connection was learned with. -/
structure ConnEntry where
  handle : Nat
  key : ConnKey
  idx : Nat
  decision : BitVec 8
deriving DecidableEq, Repr

/-- The controller's pool of indexes and the switch table they are installed in. -/
structure ConnIndexes where
  freeIdxs : List Nat
  connTab : List ConnEntry

/-- The pool, the switch table and the decision registers by index. -/
structure ControlState extends ConnIndexes where
  connDecision : Nat → BitVec 8
  txnOpen : Bool

/-- How an operation ends. -/
inductive Outcome where
  | returned
  | raised
deriving DecidableEq, Repr

/-- What the driver does in one `poise_add`: the handle of the new entry, unless the add raises. -/
structure AddCalls where
  add : Option Nat
  writeOk : Bool
deriving DecidableEq, Repr

/-- What the driver does with one aged entry; a missing entry raises in any case. -/
structure AgeCalls where
  getOk : Bool
  deleteOk : Bool
  writeOk : Bool
deriving DecidableEq, Repr

/-- The indexes after `setup`. -/
def setup : ControlState :=
  { freeIdxs := List.range connTbSize
    connTab := []
    connDecision := fun _ => 0
    txnOpen := false }

namespace ConnIndexes

def pop (t : ConnIndexes) : ConnIndexes :=
  { t with freeIdxs := t.freeIdxs.dropLast }

def install (t : ConnIndexes) (e : ConnEntry) : ConnIndexes :=
  { t with connTab := t.connTab ++ [e] }

/-- The entry with a handle. -/
def getEntry (t : ConnIndexes) (handle : Nat) : Option ConnEntry :=
  t.connTab.find? (fun e => e.handle == handle)

def delete (t : ConnIndexes) (handle : Nat) : ConnIndexes :=
  { t with connTab := t.connTab.eraseP (fun e => e.handle == handle) }

def recycleIdx (t : ConnIndexes) (idx : Nat) : ConnIndexes :=
  { t with freeIdxs := t.freeIdxs ++ [idx] }

/-- The indexes of the installed entries. -/
def installed (t : ConnIndexes) : List Nat :=
  t.connTab.map ConnEntry.idx

/-- A new entry is behind the ones that are there. -/
theorem getEntry_install
    {t : ConnIndexes} {handle : Nat} {e : ConnEntry}
    (new : ConnEntry)
    (h : t.getEntry handle = some e) :
    (t.install new).getEntry handle = some e := by
  unfold getEntry at h ⊢
  rw [install, List.find?_append, h]
  rfl

end ConnIndexes

def ControlState.writeDecision (s : ControlState) (idx : Nat) (v : BitVec 8) : ControlState :=
  { s with connDecision := Function.update s.connDecision idx v }

theorem ControlState.connDecision_writeDecision
    (s : ControlState) (idx : Nat) (v : BitVec 8) (j : Nat) :
    (s.writeDecision idx v).connDecision j = if j = idx then v else s.connDecision j := by
  simp [ControlState.writeDecision, Function.update_apply]

/--
`poise_add`.  The last free index is popped before the table add; the handler of
a failed add returns without it, and the handler of a failed register write
raises by itself, because it calls a string.
-/
def poiseAdd
    (key : ConnKey) (decision : BitVec 8) (pd : AddCalls) (s : ControlState) :
    ControlState × Outcome :=
  match s.freeIdxs.getLast? with
  | none => (s, .returned)
  | some idx =>
      let s := { s with toConnIndexes := s.pop }
      match pd.add with
      | none => (s, .returned)
      | some handle =>
          let s :=
            { s with
              toConnIndexes :=
                s.install { handle := handle, key := key, idx := idx, decision := decision } }
          if pd.writeOk then (s.writeDecision idx decision, .returned) else (s, .raised)

/-- A message of a learning digest, as the controller reads it. -/
structure LearnMsg where
  tcpSrcPort : BitVec 16
  ipv4SrcAddr : BitVec 32
  ipv4Protocol : BitVec 8
  metaIsContext : Bool
  metaDigestDec : BitVec 8
deriving DecidableEq, Repr

/-- The key `poise_add` installs for a message. -/
def LearnMsg.key (m : LearnMsg) : ConnKey :=
  (m.ipv4SrcAddr, m.tcpSrcPort, m.ipv4Protocol)

/-- The loop over the messages of a batch. -/
def learnLoop : List (LearnMsg × AddCalls) → ControlState → ControlState × Outcome
  | [], s => (s, .returned)
  | (m, pd) :: msgs, s =>
      if m.metaIsContext then
        match poiseAdd m.key m.metaDigestDec pd s with
        | (s, .returned) => learnLoop msgs s
        | (s, .raised) => (s, .raised)
      else
        learnLoop msgs s

def learningNotificationsProcess
    (msgs : List (LearnMsg × AddCalls)) (s : ControlState) : ControlState × Outcome :=
  match learnLoop msgs { s with txnOpen := true } with
  | (s, .returned) => ({ s with txnOpen := false }, .returned)
  | (s, .raised) => (s, .raised)

/-- The body of the loop of `age_out`. -/
def ageOutEntry (handle : Nat) (pd : AgeCalls) (s : ControlState) : ControlState × Outcome :=
  match s.getEntry handle with
  | none => (s, .raised)
  | some e =>
      if pd.getOk = false ∨ pd.deleteOk = false then
        (s, .raised)
      else
        let s := { s with toConnIndexes := s.delete handle }
        let s := { s with toConnIndexes := s.recycleIdx e.idx }
        (if pd.writeOk then s.writeDecision e.idx unseen else s, .returned)

def ageOut : List (Nat × AgeCalls) → ControlState → ControlState × Outcome
  | [], s => (s, .returned)
  | (handle, pd) :: rest, s =>
      match ageOutEntry handle pd s with
      | (s, .returned) => ageOut rest s
      | (s, .raised) => (s, .raised)

/-- The operations of the controller. -/
inductive ControlOp where
  | poiseAdd (key : ConnKey) (decision : BitVec 8) (pd : AddCalls)
  | learn (msgs : List (LearnMsg × AddCalls))
  | ageOut (entries : List (Nat × AgeCalls))

def controlStep (s : ControlState) : ControlOp → ControlState
  | .poiseAdd key decision pd => (poiseAdd key decision pd s).1
  | .learn msgs => (learningNotificationsProcess msgs s).1
  | .ageOut entries => (ageOut entries s).1

/-- The state after some operations on a controller that was set up. -/
def controlRun (ops : List ControlOp) : ControlState :=
  ops.foldl controlStep setup

/-- The number of table adds that raise in one `poise_add`; with no free index none is made. -/
def failedAdd (pd : AddCalls) (s : ControlState) : Nat :=
  if s.freeIdxs ≠ [] ∧ pd.add = none then 1 else 0

/-- The number of table adds that raise in a batch. -/
def failedInBatch : List (LearnMsg × AddCalls) → ControlState → Nat
  | [], _ => 0
  | (m, pd) :: msgs, s =>
      if m.metaIsContext then
        failedAdd pd s +
          match poiseAdd m.key m.metaDigestDec pd s with
          | (s, .returned) => failedInBatch msgs s
          | (_, .raised) => 0
      else
        failedInBatch msgs s

/-- The number of table adds that raise in an operation. -/
def failedAdds (s : ControlState) : ControlOp → Nat
  | .poiseAdd _ _ pd => failedAdd pd s
  | .learn msgs => failedInBatch msgs { s with txnOpen := true }
  | .ageOut _ => 0

/-- All indexes are accounted for, with some of them neither free nor installed. -/
def IndexesAccounted (held : List Nat) (t : ConnIndexes) : Prop :=
  Accounted (List.range connTbSize) t.freeIdxs held t.installed

namespace IndexesAccounted

variable {t : ConnIndexes} {held : List Nat} {idx : Nat}

/-- The index `poise_add` pops is held afterwards. -/
theorem pop
    (h : IndexesAccounted held t)
    (hlast : t.freeIdxs.getLast? = some idx) :
    IndexesAccounted (idx :: held) t.pop := by
  obtain ⟨init, hinit⟩ := List.getLast?_eq_some_iff.mp hlast
  have hpop : t.pop.freeIdxs = init := by
    rw [ConnIndexes.pop, hinit, List.dropLast_concat]
  unfold IndexesAccounted at h ⊢
  rw [hinit] at h
  rw [hpop]
  exact h.take

/-- A held index is installed with its entry. -/
theorem install
    (e : ConnEntry)
    (h : IndexesAccounted (e.idx :: held) t) :
    IndexesAccounted held (t.install e) := by
  have hinstalled : (t.install e).installed = t.installed ++ [e.idx] := by
    simp [ConnIndexes.install, ConnIndexes.installed]
  unfold IndexesAccounted at h ⊢
  rw [hinstalled]
  exact h.place

/-- The index of a deleted entry is held. -/
theorem delete
    {handle : Nat} {e : ConnEntry}
    (h : IndexesAccounted held t)
    (hget : t.getEntry handle = some e) :
    IndexesAccounted (e.idx :: held) (t.delete handle) := by
  obtain ⟨he, before, after, htab, hbefore⟩ := List.find?_eq_some_iff_append.mp hget
  have herase : (t.delete handle).connTab = before ++ after := by
    rw [ConnIndexes.delete, htab, List.eraseP_append_right _ (by simpa using hbefore),
      List.eraseP_cons_of_pos (p := fun e : ConnEntry => e.handle == handle) he]
  have hinstalled :
      t.installed = before.map ConnEntry.idx ++ e.idx :: after.map ConnEntry.idx := by
    simp [ConnIndexes.installed, htab]
  unfold IndexesAccounted at h ⊢
  rw [ConnIndexes.installed, herase, List.map_append]
  rw [hinstalled] at h
  exact h.withdraw

/-- A recycled index is free again. -/
theorem recycle
    (h : IndexesAccounted (idx :: held) t) :
    IndexesAccounted held (t.recycleIdx idx) :=
  h.giveBack

end IndexesAccounted

/-- One `poise_add` loses an index exactly when its table add raises. -/
theorem poiseAdd_accounted
    (key : ConnKey) (decision : BitVec 8) (pd : AddCalls)
    {s : ControlState} {lost : List Nat}
    (h : IndexesAccounted lost s.toConnIndexes) :
    ∃ new,
      IndexesAccounted (new ++ lost) (poiseAdd key decision pd s).1.toConnIndexes ∧
        new.length = failedAdd pd s := by
  cases hlast : s.freeIdxs.getLast? with
  | none =>
      have hempty : s.freeIdxs = [] := List.getLast?_eq_none_iff.mp hlast
      refine ⟨[], ?_, ?_⟩
      · simpa [poiseAdd, hlast] using h
      · simp [failedAdd, hempty]
  | some idx =>
      have hne : s.freeIdxs ≠ [] := by
        intro hnil
        simp [hnil] at hlast
      have htaken := h.pop hlast
      cases hadd : pd.add with
      | none =>
          refine ⟨[idx], ?_, ?_⟩
          · simp only [poiseAdd, hlast, hadd]
            exact htaken
          · simp [failedAdd, hne, hadd]
      | some handle =>
          have hplaced :=
            IndexesAccounted.install
              { handle := handle, key := key, idx := idx, decision := decision } htaken
          refine ⟨[], ?_, ?_⟩
          · cases hwrite : pd.writeOk with
            | true =>
                simp only [poiseAdd, hlast, hadd, hwrite, if_true]
                exact hplaced
            | false =>
                simp only [poiseAdd, hlast, hadd, hwrite, Bool.false_eq_true, if_false]
                exact hplaced
          · simp [failedAdd, hadd]

/-- A batch loses as many indexes as table adds raise in it. -/
theorem learnLoop_accounted
    (msgs : List (LearnMsg × AddCalls))
    {s : ControlState} {lost : List Nat}
    (h : IndexesAccounted lost s.toConnIndexes) :
    ∃ new,
      IndexesAccounted (new ++ lost) (learnLoop msgs s).1.toConnIndexes ∧
        new.length = failedInBatch msgs s := by
  induction msgs generalizing s lost with
  | nil =>
      exact ⟨[], h, rfl⟩
  | cons msg msgs ih =>
      obtain ⟨m, pd⟩ := msg
      by_cases hctx : m.metaIsContext = true
      · obtain ⟨new, hstep, hlen⟩ := poiseAdd_accounted m.key m.metaDigestDec pd h
        rcases hres : poiseAdd m.key m.metaDigestDec pd s with ⟨s', outcome⟩
        rw [hres] at hstep
        cases outcome with
        | returned =>
            obtain ⟨new', hrest, hlen'⟩ := ih hstep
            refine ⟨new' ++ new, ?_, ?_⟩
            · simpa [learnLoop, hctx, hres, List.append_assoc] using hrest
            · simp [failedInBatch, hctx, hres, hlen, hlen']
              omega
        | raised =>
            refine ⟨new, ?_, ?_⟩
            · simpa [learnLoop, hctx, hres] using hstep
            · simp [failedInBatch, hctx, hres, hlen]
      · obtain ⟨new, hrest, hlen⟩ := ih h
        refine ⟨new, ?_, ?_⟩
        · simpa [learnLoop, hctx] using hrest
        · simpa [failedInBatch, hctx] using hlen

/-- Ageing an entry out returns its index. -/
theorem ageOutEntry_accounted
    (handle : Nat) (pd : AgeCalls)
    {s : ControlState} {lost : List Nat}
    (h : IndexesAccounted lost s.toConnIndexes) :
    IndexesAccounted lost (ageOutEntry handle pd s).1.toConnIndexes := by
  cases hget : s.getEntry handle with
  | none =>
      simpa [ageOutEntry, hget] using h
  | some e =>
      by_cases hraise : pd.getOk = false ∨ pd.deleteOk = false
      · simpa [ageOutEntry, hget, hraise] using h
      · have hback := (h.delete hget).recycle
        cases hwrite : pd.writeOk with
        | true =>
            simp only [ageOutEntry, hget, hraise, hwrite, if_true, if_false]
            exact hback
        | false =>
            simp only [ageOutEntry, hget, hraise, hwrite, Bool.false_eq_true, if_false]
            exact hback

theorem ageOut_accounted
    (entries : List (Nat × AgeCalls))
    {s : ControlState} {lost : List Nat}
    (h : IndexesAccounted lost s.toConnIndexes) :
    IndexesAccounted lost (ageOut entries s).1.toConnIndexes := by
  induction entries generalizing s with
  | nil =>
      exact h
  | cons entry rest ih =>
      obtain ⟨handle, pd⟩ := entry
      have hstep := ageOutEntry_accounted handle pd h
      rcases hres : ageOutEntry handle pd s with ⟨s', outcome⟩
      rw [hres] at hstep
      cases outcome with
      | returned =>
          simpa [ageOut, hres] using ih hstep
      | raised =>
          simpa [ageOut, hres] using hstep

/-- One operation loses as many indexes as table adds raise in it. -/
theorem controlStep_accounted
    (op : ControlOp)
    {s : ControlState} {lost : List Nat}
    (h : IndexesAccounted lost s.toConnIndexes) :
    ∃ new,
      IndexesAccounted (new ++ lost) (controlStep s op).toConnIndexes ∧
        new.length = failedAdds s op := by
  cases op with
  | poiseAdd key decision pd =>
      exact poiseAdd_accounted key decision pd h
  | learn msgs =>
      have hopen :
          IndexesAccounted lost { s with txnOpen := true : ControlState }.toConnIndexes := h
      obtain ⟨new, hloop, hlen⟩ := learnLoop_accounted msgs hopen
      refine ⟨new, ?_, hlen⟩
      rcases hres : learnLoop msgs { s with txnOpen := true } with ⟨s', outcome⟩
      rw [hres] at hloop
      cases outcome with
      | returned =>
          simp only [controlStep, learningNotificationsProcess, hres]
          exact hloop
      | raised =>
          simp only [controlStep, learningNotificationsProcess, hres]
          exact hloop
  | ageOut entries =>
      exact ⟨[], ageOut_accounted entries h, rfl⟩

/-- The table adds that raise in a run from setup. -/
def failedAddsInRun (ops : List ControlOp) : Nat :=
  ((trace controlStep setup ops).map (fun q => failedAdds q.1 q.2)).sum

/-- Over a run all indexes are accounted for, and as many are lost as table adds raised. -/
theorem controlRun_accounted
    (ops : List ControlOp) :
    ∃ lost,
      IndexesAccounted lost (controlRun ops).toConnIndexes ∧ lost.length = failedAddsInRun ops := by
  induction ops using List.reverseRecOn with
  | nil =>
      refine ⟨[], ?_, rfl⟩
      simp [IndexesAccounted, Accounted, controlRun, setup, ConnIndexes.installed]
  | append_singleton ops op ih =>
      obtain ⟨lost, hacc, hlen⟩ := ih
      obtain ⟨new, hstep, hnew⟩ := controlStep_accounted op hacc
      refine ⟨new ++ lost, ?_, ?_⟩
      · simpa [controlRun, List.foldl_append] using hstep
      · simp only [failedAddsInRun, trace_append, List.map_append, List.sum_append,
          List.length_append] at hlen ⊢
        rw [hlen, hnew]
        simp [controlRun, Nat.add_comm]

/-- The cell the data plane uses for an index of the pool. -/
def cellOfIndex (idx : Nat) : ConnCell :=
  connCellOf (BitVec.ofNat 20 idx)

/-- Indexes below 57000 have a cell of the first array, the others one of the second. -/
theorem cellOfIndex_eq
    {idx : Nat}
    (hidx : idx < connTbSize) :
    cellOfIndex idx =
      if idx < 57000 then .first (BitVec.ofNat 20 idx)
      else .second (BitVec.ofNat 20 (idx - 57000)) := by
  have hsize : connTbSize = 100000 := rfl
  have htoNat : (BitVec.ofNat 20 idx).toNat = idx := by
    rw [BitVec.toNat_ofNat]
    exact Nat.mod_eq_of_lt (by omega)
  have hoffset : maxConnRegsPerMau.toNat = 57000 := rfl
  by_cases hfirst : idx < 57000
  · have hin : inConnRegs1 (BitVec.ofNat 20 idx) = true := by
      rw [inConnRegs1, htoNat]
      exact decide_eq_true (by omega)
    rw [if_pos hfirst, cellOfIndex, connCellOf, if_pos hin]
  · have hout : ¬ inConnRegs1 (BitVec.ofNat 20 idx) = true := by
      rw [inConnRegs1, htoNat]
      simp only [decide_eq_true_eq]
      omega
    have hsub : BitVec.ofNat 20 idx - maxConnRegsPerMau = BitVec.ofNat 20 (idx - 57000) := by
      apply BitVec.eq_of_toNat_eq
      rw [BitVec.toNat_sub, htoNat, hoffset, BitVec.toNat_ofNat]
      omega
    rw [if_neg hfirst, cellOfIndex, connCellOf, if_neg hout, hsub]

/-- Distinct indexes of the pool have distinct cells. -/
theorem cellOfIndex_injective
    {i j : Nat}
    (hi : i < connTbSize)
    (hj : j < connTbSize)
    (h : cellOfIndex i = cellOfIndex j) :
    i = j := by
  have hsize : connTbSize = 100000 := rfl
  have hback : ∀ a b : Nat, a < 2 ^ 20 → b < 2 ^ 20 →
      BitVec.ofNat 20 a = BitVec.ofNat 20 b → a = b := by
    intro a b ha hb hab
    have htoNat := congrArg BitVec.toNat hab
    rwa [BitVec.toNat_ofNat, BitVec.toNat_ofNat, Nat.mod_eq_of_lt ha,
      Nat.mod_eq_of_lt hb] at htoNat
  rw [cellOfIndex_eq hi, cellOfIndex_eq hj] at h
  split at h
  · split at h
    · injection h with h
      exact hback i j (by omega) (by omega) h
    · cases h
  · split at h
    · cases h
    · injection h with h
      have := hback (i - 57000) (j - 57000) (by omega) (by omega) h
      omega

/-- Installed entries with the same cell are the same entry. -/
theorem IndexesAccounted.eq_of_cell
    {t : ConnIndexes} {held : List Nat} {e e' : ConnEntry}
    (h : IndexesAccounted held t)
    (he : e ∈ t.connTab)
    (he' : e' ∈ t.connTab)
    (hcell : cellOfIndex e.idx = cellOfIndex e'.idx) :
    e = e' := by
  have hbound : ∀ x, x ∈ t.connTab → x.idx < connTbSize := by
    intro x hx
    exact List.mem_range.mp
      (Accounted.mem_all h (Or.inr (Or.inr (List.mem_map.mpr ⟨x, hx, rfl⟩))))
  have hidx := cellOfIndex_injective (hbound e he) (hbound e' he') hcell
  have hinstalled : t.installed.Nodup := (Accounted.nodup h List.nodup_range).2.2.1
  exact List.inj_on_of_nodup_map hinstalled he he' hidx

/--
After any sequence of operations, whatever the driver does: the free indexes are
distinct and none of them is installed, installed entries have distinct indexes
below the table size, and distinct installed indexes have distinct decision cells,
below 57000 the cell of the same number in the first array, otherwise the cell of
the difference in the second, which has 43000 of them.
-/
theorem connection_cells_distinct
    (ops : List ControlOp) :
    (controlRun ops).freeIdxs.Nodup ∧
      (∀ i, i ∈ (controlRun ops).freeIdxs → i ∉ (controlRun ops).installed) ∧
      (controlRun ops).installed.Nodup ∧
      (∀ i, i ∈ (controlRun ops).installed →
        i < connTbSize ∧
          ((i < 57000 ∧ cellOfIndex i = .first (BitVec.ofNat 20 i)) ∨
            (¬ i < 57000 ∧ (i - 57000) % 2 ^ 20 < 43000 ∧
              cellOfIndex i = .second (BitVec.ofNat 20 ((i - 57000) % 2 ^ 20))))) ∧
      (∀ i j, i ∈ (controlRun ops).installed → j ∈ (controlRun ops).installed →
        i ≠ j → cellOfIndex i ≠ cellOfIndex j) := by
  have hsize : connTbSize = 100000 := rfl
  obtain ⟨lost, hacc, _⟩ := controlRun_accounted ops
  obtain ⟨hfree, _, hinstalled, hdisj, _⟩ := Accounted.nodup hacc List.nodup_range
  have hbound : ∀ i, i ∈ (controlRun ops).installed → i < connTbSize := by
    intro i hi
    exact List.mem_range.mp (Accounted.mem_all hacc (Or.inr (Or.inr hi)))
  refine ⟨hfree, fun i hi => (hdisj i hi).2, hinstalled, ?_, ?_⟩
  · intro i hi
    have hlt := hbound i hi
    have hcell := cellOfIndex_eq hlt
    refine ⟨hlt, ?_⟩
    by_cases hfirst : i < 57000
    · rw [if_pos hfirst] at hcell
      exact Or.inl ⟨hfirst, hcell⟩
    · rw [if_neg hfirst] at hcell
      have hmod : (i - 57000) % 2 ^ 20 = i - 57000 := Nat.mod_eq_of_lt (by omega)
      rw [hmod]
      exact Or.inr ⟨hfirst, by omega, hcell⟩
  · intro i j hi hj hne heq
    exact hne (cellOfIndex_injective (hbound i hi) (hbound j hj) heq)

/-- Every index is free or installed. -/
def Conserved (t : ConnIndexes) : Prop :=
  ∀ i, i < connTbSize → i ∈ t.freeIdxs ∨ i ∈ t.installed

/-- Indexes are conserved exactly when none of them is lost. -/
theorem conserved_iff
    {t : ConnIndexes} {lost : List Nat}
    (h : IndexesAccounted lost t) :
    Conserved t ↔ lost = [] := by
  rw [← Accounted.complete_iff h List.nodup_range]
  simp only [Conserved, List.mem_range]

/--
After any sequence of operations every index is free or installed if and only if
no table add of the run raised.
-/
theorem conserved_iff_no_failed_add
    (ops : List ControlOp) :
    Conserved (controlRun ops).toConnIndexes ↔
      ∀ s op, (s, op) ∈ trace controlStep setup ops → failedAdds s op = 0 := by
  obtain ⟨lost, hacc, hlen⟩ := controlRun_accounted ops
  rw [conserved_iff hacc, ← List.length_eq_zero_iff, hlen, failedAddsInRun,
    List.sum_eq_zero_iff]
  constructor
  · intro h s op hmem
    exact h _ (List.mem_map.mpr ⟨(s, op), hmem, rfl⟩)
  · intro h n hn
    obtain ⟨⟨s, op⟩, hmem, rfl⟩ := List.mem_map.mp hn
    exact h s op hmem

/-- A connection is learned twice; the second table add raises. -/
def learnedTwice : List ControlOp :=
  [.poiseAdd (0x0a000001, 4000, 6) 15 { add := some 0, writeOk := true },
   .poiseAdd (0x0a000001, 4000, 6) 15 { add := none, writeOk := true }]

/-- The second add raises while an index is free. -/
theorem failedAdds_learnedTwice
    {s : ControlState} {init : List Nat} {i j : Nat}
    (hfree : s.freeIdxs = init ++ [j] ++ [i]) :
    ((trace controlStep s learnedTwice).map (fun q => failedAdds q.1 q.2)).sum = 1 := by
  simp [learnedTwice, controlStep, failedAdds, failedAdd, poiseAdd, hfree, ConnIndexes.pop,
    ConnIndexes.install, ControlState.writeDecision]

/-- Learning a connection twice loses an index. -/
theorem learnedTwice_not_conserved :
    ¬ Conserved (controlRun learnedTwice).toConnIndexes := by
  obtain ⟨lost, hacc, hlen⟩ := controlRun_accounted learnedTwice
  have hfree : setup.freeIdxs = List.range 99998 ++ [99998] ++ [99999] := by
    rw [setup, show connTbSize = 99998 + 1 + 1 from rfl, List.range_succ, List.range_succ]
  have hcount : failedAddsInRun learnedTwice = 1 := failedAdds_learnedTwice hfree
  rw [conserved_iff hacc, ← List.length_eq_zero_iff, hlen, hcount]
  exact Nat.one_ne_zero

end ControlPlane

end Poise
