import Mathlib.Tactic
import Poise.OptimizedChecks

/-!
# Poise compiler: fields and match values of the generated code

The generated program is closed when every header field that a table reads is
declared once in `poise_h_t` and every match value of the commands is an integer
literal.

Declarations come from the headers of the checks.  Reads come from the same
headers and, for monitors, from the headers of their extra conditions, which are
not declared on their own account.  Match values are copied from the policy, and
the grammar lets a comparison have a header or an arithmetic expression where a
literal or a field is needed.
-/

namespace Poise

open Foundations

section GeneratedFields

/-- Identifiers of the target language. -/
def isFieldName (s : String) : Bool :=
  match s.toList with
  | [] => false
  | c :: cs => (c.isAlpha || c == '_') && cs.all (fun d => d.isAlphanum || d == '_')

/-- The line that declares a field. -/
def fieldLine (h : String) (len : Nat) : String :=
  "      " ++ h ++ " : " ++ toString len ++ ";\n"

/-- A field is declared by one line, with one width. -/
def DeclaredOnce (code : PolicyCode) (h : String) : Prop :=
  ∃ len, code.headerDefs.count (fieldLine h len) = 1 ∧
    ∀ other, other ≠ len → fieldLine h other ∉ code.headerDefs

/-- Every header field that is read is a field and is declared once. -/
def FieldsDeclared (code : PolicyCode) : Prop :=
  ∀ t, t ∈ code.allTables → ∀ h kind, (Field.poiseH h, kind) ∈ t.reads →
    isFieldName h = true ∧ DeclaredOnce code h

/-- Every match value is an integer literal. -/
def ValuesLiteral (code : PolicyCode) : Prop :=
  ∀ e, e ∈ code.entries → ∀ key, key ∈ e.keys → IsIntLiteral key.2

/-- The headers that are read on behalf of a check. -/
def checkReads (c : Check) : List String :=
  c.header :: if c.type = .monitor ∧ c.extraCheck = true then c.extraHeader else []

theorem fieldLine_injective
    {h k : String} {m n : Nat}
    (heq : fieldLine h m = fieldLine k n) :
    h = k ∧ m = n := by
  have hcut : "      " ++ h ++ " : " ++ m.repr = "      " ++ k ++ " : " ++ n.repr :=
    (String.append_left_inj _).mp heq
  have hlen : m = n :=
    repr_suffix_injective (by decide : " : ".toList = [' ', ':'] ++ [' ']) (by decide) hcut
  subst hlen
  refine ⟨?_, rfl⟩
  simpa only [String.append_left_inj, String.append_right_inj] using hcut

/-- The fields that are declared are the headers of the checks. -/
theorem mem_generateHeaderDef
    {checkV : List Check} {line : String} :
    line ∈ generateHeaderDef checkV ↔
      ∃ c, c ∈ checkV ∧ fieldLine c.header c.fieldLen = line := by
  rw [generateHeaderDef, mem_unique, List.mem_insertionSort, List.mem_map]
  rfl

theorem nodup_generateHeaderDef
    (checkV : List Check) :
    (generateHeaderDef checkV).Nodup := by
  apply nodup_unique
  exact List.pairwise_insertionSort _ _

section OneProgram

variable {S : UnstableSort Check Check.priority} {prog : Program} {code : PolicyCode}
variable {optimized placed : List Check} {tables : List TableDef}

/-- A field is declared once when it is the header of some check. -/
theorem declaredOnce_iff
    (hcomp : Compiled S prog code optimized placed tables)
    (hlen : ∀ c, c ∈ optimized → c.fieldLen = 16)
    {h : String} :
    DeclaredOnce code h ↔ ∃ c, c ∈ optimized ∧ c.header = h := by
  have hmem : ∀ line, line ∈ code.headerDefs ↔
      ∃ c, c ∈ optimized ∧ fieldLine c.header c.fieldLen = line := by
    intro line
    rw [hcomp.emitted]
    exact mem_generateHeaderDef.trans (hcomp.exists_placed_iff (fun _ => Iff.rfl))
  have hnodup : code.headerDefs.Nodup := by
    rw [hcomp.emitted]
    exact nodup_generateHeaderDef _
  constructor
  · rintro ⟨len, hone, _⟩
    have hpos : 0 < code.headerDefs.count (fieldLine h len) := by
      omega
    obtain ⟨c, hc, hline⟩ := (hmem _).mp (List.count_pos_iff.mp hpos)
    exact ⟨c, hc, (fieldLine_injective hline).1⟩
  · rintro ⟨c, hc, rfl⟩
    refine ⟨16, List.count_eq_one_of_mem hnodup ((hmem _).mpr ⟨c, hc, by rw [hlen c hc]⟩), ?_⟩
    intro other hne hin
    obtain ⟨d, hd, hline⟩ := (hmem _).mp hin
    have hwidth := (fieldLine_injective hline).2
    rw [hlen d hd] at hwidth
    exact hne hwidth.symm

/-- The fields a table of a check reads. -/
theorem tableDefOf_reads
    {c : Check} {t : TableDef}
    (h : tableDefOf c = .ok t)
    {x : String} :
    (∃ kind, (Field.poiseH x, kind) ∈ t.reads) ↔
      if c.type = .monitor then c.extraCheck = true ∧ x ∈ c.extraHeader else x = c.header := by
  rw [tableDefOf] at h
  split at h
  · rename_i htype
    cases h
    simp [htype]
  · rename_i htype
    cases h
    simp [htype]
  · rename_i htype
    cases h
    simp [htype]
  · rename_i htype
    cases h
    cases hextra : c.extraCheck <;> simp [htype]
  · cases h

/-- The header fields that are read by the tables of the program. -/
theorem exists_read_iff
    (hcomp : Compiled S prog code optimized placed tables)
    (hlive : ∀ c, c ∈ optimized → c.type ≠ .invalid)
    {h : String} :
    (∃ t, t ∈ code.allTables ∧ ∃ kind, (Field.poiseH h, kind) ∈ t.reads) ↔
      ∃ c, c ∈ optimized ∧ h ∈ checkReads c := by
  have hplaced : ∀ c, c ∈ placed.map nameTable → c.type ≠ .invalid :=
    hcomp.forall_placed (fun _ => Iff.rfl) hlive
  rw [← hcomp.exists_placed_iff (P := fun c => h ∈ checkReads c) (fun _ => Iff.rfl), hcomp.emitted]
  constructor
  · rintro ⟨t, ht, hread⟩
    rcases List.mem_append.mp ht with ht | ht
    · obtain ⟨c, hc, hdef⟩ := (mem_generateTableDef hcomp.tableDefs).mp ht
      have hfield := (tableDefOf_reads hdef).mp hread
      refine ⟨c, hc, ?_⟩
      split at hfield
      · rename_i htype
        simp [checkReads, htype, hfield]
      · simp [checkReads, hfield]
    · obtain ⟨d, hd, ht⟩ := List.mem_flatMap.mp ht
      obtain ⟨c, hc, rfl⟩ := List.mem_map.mp hd
      refine ⟨c, List.mem_of_mem_filter hc, ?_⟩
      simp only [MonitorDef.templateTables, List.mem_cons, List.not_mem_nil, or_false] at ht
      rcases ht with rfl | rfl | rfl
      · simp only [List.mem_singleton, Prod.mk.injEq, Field.poiseH.injEq] at hread
        obtain ⟨_, rfl, _⟩ := hread
        exact List.mem_cons_self
      · simp at hread
      · simp at hread
  · rintro ⟨c, hc, hread⟩
    by_cases htype : c.type = .monitor
    · rcases List.mem_cons.mp hread with rfl | hextra
      · -- the template reads the watched header
        have hmon : (MonitorDef.mk c.monName c.header c.timeoutVal) ∈
            monitorDefs (placed.map nameTable) :=
          List.mem_map.mpr ⟨c, List.mem_filter.mpr ⟨hc, by simp [htype]⟩, rfl⟩
        exact ⟨_, List.mem_append_right _ (List.mem_flatMap.mpr ⟨_, hmon, List.mem_cons_self⟩),
          .exact, List.mem_cons_self⟩
      · obtain ⟨t, ht⟩ := exists_tableDefOf (hplaced c hc)
        refine ⟨t, List.mem_append_left _ ((mem_generateTableDef hcomp.tableDefs).mpr
          ⟨c, hc, ht⟩), (tableDefOf_reads ht).mpr ?_⟩
        rw [if_pos htype]
        by_cases hcheck : c.extraCheck = true
        · rw [if_pos ⟨htype, hcheck⟩] at hextra
          exact ⟨hcheck, hextra⟩
        · simp [hcheck] at hextra
    · obtain ⟨t, ht⟩ := exists_tableDefOf (hplaced c hc)
      refine ⟨t, List.mem_append_left _ ((mem_generateTableDef hcomp.tableDefs).mpr
        ⟨c, hc, ht⟩), (tableDefOf_reads ht).mpr ?_⟩
      rw [if_neg htype]
      simpa [checkReads, htype] using hread

/-- The reads are declared when those of each check are the headers of checks. -/
theorem fieldsDeclared_iff
    (hcomp : Compiled S prog code optimized placed tables)
    (hlive : ∀ c, c ∈ optimized → c.type ≠ .invalid)
    (hlen : ∀ c, c ∈ optimized → c.fieldLen = 16) :
    FieldsDeclared code ↔
      ∀ c, c ∈ optimized → ∀ h, h ∈ checkReads c →
        isFieldName h = true ∧ ∃ d, d ∈ optimized ∧ d.header = h := by
  simp only [FieldsDeclared, declaredOnce_iff hcomp hlen]
  constructor
  · intro hall c hc h hh
    obtain ⟨t, ht, kind, hread⟩ := (exists_read_iff hcomp hlive).mpr ⟨c, hc, hh⟩
    exact hall t ht h kind hread
  · intro hall t ht h kind hread
    obtain ⟨c, hc, hh⟩ := (exists_read_iff hcomp hlive).mp ⟨t, ht, kind, hread⟩
    exact hall c hc h hh

/-- The match values of the commands of a check are literals. -/
def LiteralEntries (c : Check) : Prop :=
  (c.type = .exact → IsIntLiteral c.predHi) ∧
    (c.type = .range → IsIntLiteral c.predLo ∧ IsIntLiteral c.predHi) ∧
    (c.type = .monitor → c.extraCheck = true →
      ∀ h, h ∈ c.extraHeader → IsIntLiteral (mapGet c.hToVal h))

theorem literalEntries_iff
    (c : Check) :
    (∀ e, e ∈ entriesOf c → ∀ key, key ∈ e.keys → IsIntLiteral key.2) ↔ LiteralEntries c := by
  have hzero : IsIntLiteral "0" := ⟨0, rfl⟩
  have hprint : ∀ n : Int, IsIntLiteral (toString n) := fun n => ⟨n, rfl⟩
  rw [entriesOf, LiteralEntries]
  split
  · rename_i htype
    simp [htype]
  · rename_i htype
    simp only [List.mem_singleton, forall_eq, List.forall_mem_cons, htype]
    simp
  · rename_i htype
    simpa [htype] using fun n _ => hprint n
  · rename_i htype
    cases hextra : c.extraCheck with
    | false =>
        simp [htype, hzero]
    | true =>
        simp only [if_true, List.forall_mem_map, List.forall_mem_cons, List.not_mem_nil,
          false_implies, implies_true, and_true, hzero, true_and, htype]
        simp
  · rename_i htype
    simp [htype]

theorem valuesLiteral_iff
    (hcomp : Compiled S prog code optimized placed tables) :
    ValuesLiteral code ↔ ∀ c, c ∈ optimized → LiteralEntries c := by
  rw [← hcomp.forall_placed_iff (fun _ => Iff.rfl), ValuesLiteral, hcomp.emitted]
  simp only [← literalEntries_iff]
  constructor
  · intro h c hc e he
    exact h e (List.mem_flatMap.mpr ⟨c, hc, he⟩)
  · intro h e he
    obtain ⟨c, hc, he⟩ := List.mem_flatMap.mp he
    exact h c hc e he

/-- A header name does not read as a number. -/
theorem readInt_headerName
    {s : String}
    (h : isHeaderName s = true) :
    readInt s = none := by
  rw [isHeaderName] at h
  split at h
  · rename_i ds hs
    rw [readInt, hs]
    rfl
  · cases h

/-- A text that was converted when its check was merged is a literal. -/
theorem literal_of_stoi
    {t : String} {n : Int}
    (htext : NumberOrHeader t)
    (h : stoi t = .ok n) :
    IsIntLiteral t := by
  rcases htext with hlit | hname
  · exact hlit
  · rw [stoi, readInt_headerName hname] at h
    cases h

/--
The policies with closed code: comparisons are of one header with a number, and
a header that only occurs in the extra condition of a monitor is also the header
of a statement of its own.
-/
structure ClosedSource (checks : List Check) : Prop where
  texts : ∀ c, c ∈ checks → c.type = .exact ∨ c.type = .range →
    IsIntLiteral c.predLo ∧ IsIntLiteral c.predHi
  headers : ∀ c, c ∈ checks → c.type ≠ .invalid → isFieldName c.header = true
  extras : ∀ x h, h ∈ extrasRead checks x →
    (∃ c, c ∈ checks ∧ c.type ≠ .invalid ∧ c.header = h) ∧
      IsIntLiteral (extraValue (monitorGroup checks x) h)

end OneProgram

section Closed

variable {checks : List Check} {hs : List String} {optimized : List Check}

/-- The checks that reach code generation have the width of the checks they come from. -/
theorem OptimizedFrom.fieldLen
    (hfrom : OptimizedFrom checks hs optimized)
    (hsrc : SourceChecks checks)
    {c : Check}
    (hc : c ∈ optimized) :
    c.fieldLen = 16 := by
  by_cases htype : c.type = .monitor
  · obtain ⟨first, rest, hgroup, hfold⟩ := hfrom.folded hsrc hc htype
    have hmem := (mem_monitorGroup.mp (hgroup ▸ List.mem_cons_self)).1
    exact hfold.fieldLen.trans (hsrc.fieldLen hmem)
  · rcases hfrom.kept_or_merged hc htype with hkept | hmerged
    · exact hsrc.fieldLen (mem_keptPlain.mp hkept).1
    · obtain ⟨h, _, _, rfl⟩ := mem_mergedChecks.mp hmerged
      rfl

/-- The texts of all comparisons are literals when those that reach code generation are. -/
theorem OptimizedFrom.texts_iff
    (hfrom : OptimizedFrom checks hs optimized)
    (hsrc : SourceChecks checks) :
    (∀ c, c ∈ optimized → c.type = .exact ∨ c.type = .range →
        IsIntLiteral c.predLo ∧ IsIntLiteral c.predHi) ↔
      ∀ c, c ∈ checks → c.type = .exact ∨ c.type = .range →
        IsIntLiteral c.predLo ∧ IsIntLiteral c.predHi := by
  constructor
  · intro h c hc hkind
    by_cases haway : mergedAway checks hs c = true
    · have hexact : c.type = .exact := by
        have hmergeable := (mergedAway_iff.mp haway).2.2
        rcases hkind with ht | ht
        · exact ht
        · simp [isMergeable, ht] at hmergeable
      obtain ⟨n, hn⟩ := (groupItems_ok_iff checks hs).mp hfrom.items c hc haway hexact
      have hlit := literal_of_stoi ((hsrc.parsed c hc).texts hkind).1 hn
      rw [(hsrc.plain hc (by simp [hexact])).exactText hexact]
      exact ⟨hlit, hlit⟩
    · refine h c (hfrom.mem_of_kept (mem_keptPlain.mpr ⟨hc, ?_, by simpa using haway⟩)) hkind
      rcases hkind with ht | ht <;> simp [isPlain, ht]
  · intro h c hc hkind
    exact h c (hfrom.comparison_mem hc hkind) hkind

/-- The extra headers that are read, and their values, for every monitor. -/
theorem OptimizedFrom.extras_iff
    (hfrom : OptimizedFrom checks hs optimized)
    (hsrc : SourceChecks checks)
    (P : String → String → Prop) :
    (∀ c, c ∈ optimized → c.type = .monitor → c.extraCheck = true →
        ∀ h, h ∈ c.extraHeader → P h (mapGet c.hToVal h)) ↔
      ∀ x h, h ∈ extrasRead checks x → P h (extraValue (monitorGroup checks x) h) := by
  constructor
  · intro hall x h hh
    rw [extrasRead] at hh
    split at hh
    · cases hh
    · rename_i first rest hgroup
      split at hh
      · rename_i hcheck
        obtain ⟨c, hc, htype, _, hfold⟩ := hfrom.exists_folded hsrc hgroup
        rw [hgroup, ← hfold.values h]
        exact hall c hc htype (hfold.extraCheck.trans hcheck) h (hfold.extraHeader ▸ hh)
      · cases hh
  · intro hall c hc htype hcheck h hh
    obtain ⟨first, rest, hgroup, hfold⟩ := hfrom.folded hsrc hc htype
    rw [hfold.values h, ← hgroup]
    apply hall c.monName h
    rw [extrasRead, hgroup]
    simp only [← hfold.extraCheck, hcheck, if_true]
    exact hfold.extraHeader ▸ hh

end Closed

/--
For every parsed policy that the compiler accepts, the generated code is closed
exactly when the checks of the policy are.
-/
theorem generatedCode_closed_iff
    {S : UnstableSort Check Check.priority} {policy : List Statement} {prog : Program}
    {checks : List Check} {code : PolicyCode}
    (hparse : parsePolicy policy = .ok prog)
    (hchecks : processMatchexprs prog.countHeaders = .ok checks)
    (hcompile : compileTofino S prog = .ok code) :
    FieldsDeclared code ∧ ValuesLiteral code ↔ ClosedSource checks := by
  have hsrc := processMatchexprs_source (parsePolicy_wellFormed hparse) hchecks
  obtain ⟨optimized, placed, tables, hcomp⟩ := compileTofino_compiled hcompile
  have hfrom := optimizedChecks_from hchecks hcomp.checks
  rw [fieldsDeclared_iff hcomp hfrom.live (fun c hc => hfrom.fieldLen hsrc hc),
    valuesLiteral_iff hcomp]
  simp only [hfrom.header_iff hsrc]
  -- what an extra condition needs, on either side
  have hextras := hfrom.extras_iff hsrc (fun h v =>
    (∃ c, c ∈ checks ∧ c.type ≠ .invalid ∧ c.header = h) ∧ IsIntLiteral v)
  constructor
  · rintro ⟨hfields, hvalues⟩
    refine ⟨(hfrom.texts_iff hsrc).mp ?_, ?_, hextras.mp ?_⟩
    · intro c hc hkind
      obtain ⟨hexact, hrange, _⟩ := hvalues c hc
      rcases hkind with ht | ht
      · have hmem := hfrom.comparison_mem hc (Or.inl ht)
        rw [← (hsrc.plain hmem (by simp [ht])).exactText ht]
        exact ⟨hexact ht, hexact ht⟩
      · exact hrange ht
    · intro c hc hlive
      obtain ⟨d, hd, hheader⟩ := (hfrom.header_iff hsrc).mpr ⟨c, hc, hlive, rfl⟩
      rw [← hheader]
      exact (hfields d hd d.header List.mem_cons_self).1
    · intro c hc htype hcheck h hh
      have hread : h ∈ checkReads c := by
        simp [checkReads, htype, hcheck, hh]
      exact ⟨(hfields c hc h hread).2, (hvalues c hc).2.2 htype hcheck h hh⟩
  · intro hclosed
    have hextra := hextras.mpr hclosed.extras
    have htexts := (hfrom.texts_iff hsrc).mpr hclosed.texts
    refine ⟨?_, ?_⟩
    · intro c hc h hh
      have hlive : ∃ d, d ∈ checks ∧ d.type ≠ .invalid ∧ d.header = h := by
        rcases List.mem_cons.mp hh with rfl | hh
        · exact (hfrom.header_iff hsrc).mp ⟨c, hc, rfl⟩
        · split at hh
          · rename_i hmon
            exact (hextra c hc hmon.1 hmon.2 h hh).1
          · cases hh
      obtain ⟨d, hd, hdlive, rfl⟩ := hlive
      exact ⟨hclosed.headers d hd hdlive, d, hd, hdlive, rfl⟩
    · intro c hc
      refine ⟨fun ht => (htexts c hc (Or.inl ht)).2, fun ht => htexts c hc (Or.inr ht), ?_⟩
      intro htype hcheck h hh
      exact (hextra c hc htype hcheck h hh).2

/-- A monitor with an extra condition on a header of its own. -/
def extraConditionPolicy : List Statement :=
  [.defList "list1" 1 [2],
   .monitor "m0" { var := "h1", op := .isIn, listvar := "list1" },
   .ifThenElse (.monitorAnd "m0" (.varConst "h2" (.op .eq) 3)) .fwd1 .drop]

/-- The same monitor, with a statement that compares the other header. -/
def comparedExtraPolicy : List Statement :=
  extraConditionPolicy ++ [.ifThenElse (.pred (.varConst "h2" (.op .eq) 5)) .drop .fwd1]

/-- The theorem on a policy whose extra header is compared by itself as well. -/
theorem comparedExtra_closed :
    FieldsDeclared (codeOf comparedExtraPolicy) ∧ ValuesLiteral (codeOf comparedExtraPolicy) := by
  have h : AcceptedPolicy comparedExtraPolicy := ⟨by decide +kernel, by decide +kernel⟩
  refine (generatedCode_closed_iff h.parsed h.checks h.compiled).mpr ⟨?_, ?_, ?_⟩
  · have htexts : ∀ c, c ∈ checksOf comparedExtraPolicy → c.type = .exact ∨ c.type = .range →
        c.predLo = "5" ∧ c.predHi = "5" := by
      decide +kernel
    intro c hc hkind
    obtain ⟨hlo, hhi⟩ := htexts c hc hkind
    exact ⟨⟨5, hlo⟩, ⟨5, hhi⟩⟩
  · decide +kernel
  · have hnames : ∀ c, c ∈ checksOf comparedExtraPolicy → c.type = .monitor →
        c.monName = "m0" ∧ ∀ h, h ∈ c.extraHeader → h = "h2" := by
      decide +kernel
    intro x h hh
    obtain ⟨c, hc, htype, rfl, hin⟩ := exists_of_mem_extrasRead hh
    obtain ⟨hname, hheader⟩ := hnames c hc htype
    rw [hname, hheader h hin]
    exact ⟨by decide +kernel, 3, by decide +kernel⟩

/--
The header of the extra condition is read by the table of the monitor and is not
declared.
-/
theorem extraCondition_not_declared :
    parsePolicy extraConditionPolicy = .ok (programOf extraConditionPolicy) ∧
      compileTofino (UnstableSort.insertion _) (programOf extraConditionPolicy) =
        .ok (codeOf extraConditionPolicy) ∧
      ¬ FieldsDeclared (codeOf extraConditionPolicy) := by
  refine ⟨by decide +kernel, by decide +kernel, ?_⟩
  intro hdeclared
  have htable : ∃ t, t ∈ (codeOf extraConditionPolicy).allTables ∧
      (Field.poiseH "h2", MatchKind.exact) ∈ t.reads := by
    decide +kernel
  have hlines : (codeOf extraConditionPolicy).headerDefs = [fieldLine "h1" 16] := by
    decide +kernel
  obtain ⟨t, ht, hread⟩ := htable
  obtain ⟨_, len, hone, _⟩ := hdeclared t ht "h2" .exact hread
  rw [hlines] at hone
  have hmem : fieldLine "h2" len ∈ [fieldLine "h1" 16] :=
    List.count_pos_iff.mp (by rw [hone]; exact Nat.one_pos)
  have hname := (fieldLine_injective (List.mem_singleton.mp hmem)).1
  exact absurd hname (by decide)

end GeneratedFields

end Poise
