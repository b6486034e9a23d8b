import Poise.MonitorTemplate
import Poise.GeneratedFields

/-!
# Poise compiler: what an instantiated template declares

`EvaluateContext` applies tables by name, and the commands add entries under the name
of a table, with the names of the fields that it reads.  For a monitor all of them are
declared by the template.

A declaration is a text that the instantiated template contains.  A block of lines of
the template is found in it with its placeholders filled, so that each declaration is
a computation on one block.
-/

namespace Poise

open Foundations

section TemplateDeclarations

/-- The tables that a statement applies. -/
def EvalStmt.tables : EvalStmt → List String
  | .applyTable name => [name]
  | .applyMonitor m => [refreshTable m, "update_" ++ m ++ "_tab", "check_" ++ m ++ "_active_tab"]

/-- The line of a table for a field that it reads. -/
def Field.readLine : Field → String
  | .poiseH h => extraLine h
  | .monActive m => "        " ++ m ++ "_meta.active: exact;\n"

/-- The first line of a table. -/
def tableLine (name : String) : String :=
  "table " ++ name ++ " \x7b\n"

/-- A table that offers the action of the commands and reads some fields. -/
def DeclaresTable (text : List Char) (name : String) (fields : List Field) : Prop :=
  ∃ lines, '\x7d' ∉ lines ∧ (∀ f, f ∈ fields → f.readLine.toList <:+: lines) ∧
    (tableLine name).toList ++ ("    reads \x7b\n".toList ++ (lines ++
      "    \x7d\n    actions \x7bset_ctx_dec; nop;\x7d\n".toList)) <:+: text

/-- The metadata that holds whether a monitor is active. -/
def DeclaresActive (text : List Char) (m : String) : Prop :=
  ("header_type " ++ m ++ "_meta_t \x7b\n   fields \x7b\n      active: 16;\n   \x7d\n").toList <:+:
      text ∧
    ("metadata " ++ m ++ "_meta_t " ++ m ++ "_meta;\n").toList <:+: text

/-- Every name that the generated control and the commands use for a check is declared. -/
structure DeclaresNames (text : List Char) (c : Check) : Prop where
  applied : ∀ s, s ∈ evalStmts c → ∀ name, name ∈ s.tables → (tableLine name).toList <:+: text
  keys : ∀ e, e ∈ entriesOf c → ∃ fields, fields.map Field.key = e.keys.map Prod.fst ∧
    DeclaresTable text e.table fields
  active : DeclaresActive text c.monName

/-- The text of a line of the template for a check. -/
def fillLine (c : Check) (line : String) : List Char :=
  ((linePieces line.toList).map (Piece.render holes.reverse (fillValue c))).flatten

/-- The text of a piece for a check. -/
def fillPiece (c : Check) : Piece → List Char
  | .text t => t
  | .hole h => (h.value c).toList

theorem fillLine_eq
    (c : Check)
    {line : String} {pieces : List Piece}
    (hcut : cutHoles 0 line.toList = pieces) :
    fillLine c line = (pieces.map (fillPiece c)).flatten ++ ['\n'] := by
  have hpieces : pieces.map (Piece.render holes.reverse (fillValue c)) =
      pieces.map (fillPiece c) := by
    apply List.map_congr_left
    intro q _
    cases q with
    | text t =>
        rfl
    | hole h =>
        rw [Piece.render, if_pos (List.mem_reverse.mpr (mem_holes h))]
        rfl
  rw [fillLine, linePieces, hcut, List.map_append, List.flatten_append, hpieces]
  rfl

/-- A block of lines of the template is found in the instantiated one. -/
theorem infix_instantiated
    (c : Check)
    (block : List String)
    (hblock : block <:+: templateLines) :
    block.flatMap (fillLine c) <:+: instantiated c := by
  have hlines (lines : List String) :
      (((lines.map String.toList).flatMap linePieces).map
        (Piece.render holes.reverse (fillValue c))).flatten = lines.flatMap (fillLine c) := by
    induction lines with
    | nil =>
        rfl
    | cons line lines ih =>
        rw [List.map_cons, List.flatMap_cons, List.map_append, List.flatten_append, ih,
          List.flatMap_cons]
        rfl
  obtain ⟨front, behind, hwhole⟩ := hblock
  rw [instantiated, rendered, templatePieces, hlines, ← hwhole, List.flatMap_append,
    List.flatMap_append]
  exact List.infix_append _ _ _

section Blocks

variable {c : Check}

/-- The first line of a table that is named after the monitor. -/
theorem tableLine_found
    (c : Check)
    (line : String)
    {front behind : String}
    (hline : line ∈ templateLines)
    (hcut : cutHoles 0 line.toList =
      [.text ("table ".toList ++ front.toList), .hole .monName,
        .text (behind.toList ++ " \x7b".toList)]) :
    (tableLine (front ++ c.monName ++ behind)).toList <:+: instantiated c := by
  have hfound := infix_instantiated c [line]
    ((List.singleton_infix_iff line templateLines).mpr hline)
  have hend : " \x7b\n".toList = " \x7b".toList ++ ['\n'] := rfl
  simp only [List.flatMap_singleton, fillLine_eq c hcut, List.map_cons, List.map_nil,
    List.flatten_cons, List.flatten_nil, fillPiece, Hole.value, List.append_assoc,
    List.append_nil] at hfound
  simp only [tableLine, String.toList_append, hend, List.append_assoc]
  exact hfound

/-- The tables that `EvaluateContext` applies for a monitor besides the evaluation table. -/
theorem applyMonitor_declared
    (c : Check)
    {name : String}
    (hname : name ∈ (EvalStmt.applyMonitor c.monName).tables) :
    (tableLine name).toList <:+: instantiated c := by
  simp only [EvalStmt.tables, List.mem_cons, List.not_mem_nil, or_false] at hname
  rcases hname with rfl | rfl | rfl
  · exact tableLine_found c "table monitor_MONNAME_tab \x7b" (by decide +kernel)
      (by decide +kernel)
  · exact tableLine_found c "table update_MONNAME_tab \x7b" (by decide +kernel)
      (by decide +kernel)
  · exact tableLine_found c "table check_MONNAME_active_tab \x7b" (by decide +kernel)
      (by decide +kernel)

theorem active_declared
    (c : Check) :
    DeclaresActive (instantiated c) c.monName := by
  constructor
  · have hcut : cutHoles 0 "header_type MONNAME_meta_t \x7b".toList =
        [.text "header_type ".toList, .hole .monName, .text "_meta_t \x7b".toList] := by
      decide +kernel
    have hfields : cutHoles 0 "   fields \x7b".toList = [.text "   fields \x7b".toList] := by
      decide +kernel
    have hactive : cutHoles 0 "      active: 16;".toList = [.text "      active: 16;".toList] := by
      decide +kernel
    have hend : cutHoles 0 "   \x7d".toList = [.text "   \x7d".toList] := by
      decide +kernel
    have hfound := infix_instantiated c ["header_type MONNAME_meta_t \x7b", "   fields \x7b",
      "      active: 16;", "   \x7d"] (by decide +kernel)
    have hlines : "_meta_t \x7b\n   fields \x7b\n      active: 16;\n   \x7d\n".toList =
        "_meta_t \x7b".toList ++ (['\n'] ++ ("   fields \x7b".toList ++ (['\n'] ++
          ("      active: 16;".toList ++ (['\n'] ++ ("   \x7d".toList ++ ['\n'])))))) := by
      decide +kernel
    simp only [List.flatMap_cons, List.flatMap_nil, fillLine_eq c hcut, fillLine_eq c hfields,
      fillLine_eq c hactive, fillLine_eq c hend, List.map_cons, List.map_nil, List.flatten_cons,
      List.flatten_nil, fillPiece, Hole.value, List.append_assoc, List.append_nil] at hfound
    rw [String.toList_append, String.toList_append, hlines, List.append_assoc]
    exact hfound
  · have hcut : cutHoles 0 "metadata MONNAME_meta_t MONNAME_meta;".toList =
        [.text "metadata ".toList, .hole .monName, .text "_meta_t ".toList, .hole .monName,
          .text "_meta;".toList] := by
      decide +kernel
    have hfound := infix_instantiated c ["metadata MONNAME_meta_t MONNAME_meta;"]
      (by decide +kernel)
    have hend : "_meta;\n".toList = "_meta;".toList ++ ['\n'] := rfl
    simp only [List.flatMap_cons, List.flatMap_nil, fillLine_eq c hcut, List.map_cons,
      List.map_nil, List.flatten_cons, List.flatten_nil, fillPiece, Hole.value,
      List.append_assoc, List.append_nil] at hfound
    simp only [String.toList_append, hend, List.append_assoc]
    exact hfound

/-- The lines of the fields that the evaluation table reads. -/
def evalReads (c : Check) : List Char :=
  (Field.readLine (.monActive c.monName)).toList ++ ((extraReads c).toList ++ ['\n'])

/-- The evaluation table. -/
theorem evalTable_found
    (htype : c.type = .monitor) :
    (tableLine (tableNameOf c)).toList ++ ("    reads \x7b\n".toList ++ (evalReads c ++
      "    \x7d\n    actions \x7bset_ctx_dec; nop;\x7d\n".toList)) <:+: instantiated c := by
  have hcut : cutHoles 0 "table eval_MONNAME_tab_recRECNUM_idIDNUM \x7b".toList =
      [.text ("table ".toList ++ "eval_".toList), .hole .monName, .text "_tab_rec".toList,
        .hole .recNum, .text "_id".toList, .hole .idNum, .text " \x7b".toList] := by
    decide +kernel
  have hreads : cutHoles 0 "    reads \x7b".toList = [.text "    reads \x7b".toList] := by
    decide +kernel
  have hactive : cutHoles 0 "        MONNAME_meta.active: exact;".toList =
      [.text "        ".toList, .hole .monName, .text "_meta.active: exact;".toList] := by
    decide +kernel
  have hextra : cutHoles 0 "EXTRA_CHECK".toList = [.hole .extraCheck] := by
    decide +kernel
  have hend : cutHoles 0 "    \x7d".toList = [.text "    \x7d".toList] := by
    decide +kernel
  have hactions : cutHoles 0 "    actions \x7bset_ctx_dec; nop;\x7d".toList =
      [.text "    actions \x7bset_ctx_dec; nop;\x7d".toList] := by
    decide +kernel
  have hfound := infix_instantiated c ["table eval_MONNAME_tab_recRECNUM_idIDNUM \x7b",
    "    reads \x7b", "        MONNAME_meta.active: exact;", "EXTRA_CHECK", "    \x7d",
    "    actions \x7bset_ctx_dec; nop;\x7d"] (by decide +kernel)
  have hlines : "    \x7d\n    actions \x7bset_ctx_dec; nop;\x7d\n".toList =
      "    \x7d".toList ++ (['\n'] ++
        ("    actions \x7bset_ctx_dec; nop;\x7d".toList ++ ['\n'])) := by
    decide +kernel
  have hfirst : " \x7b\n".toList = " \x7b".toList ++ ['\n'] := rfl
  have hreadsEnd : "    reads \x7b\n".toList = "    reads \x7b".toList ++ ['\n'] := rfl
  have hactiveEnd : "_meta.active: exact;\n".toList = "_meta.active: exact;".toList ++ ['\n'] := rfl
  have hstem : tableStem c = c.monName := by
    rw [tableStem, htype]
  simp only [List.flatMap_cons, List.flatMap_nil, fillLine_eq c hcut, fillLine_eq c hreads,
    fillLine_eq c hactive, fillLine_eq c hextra, fillLine_eq c hend, fillLine_eq c hactions,
    List.map_cons, List.map_nil, List.flatten_cons, List.flatten_nil, fillPiece, Hole.value,
    List.append_assoc, List.append_nil] at hfound
  simp only [tableLine, tableNameOf, hstem, evalReads, Field.readLine, String.toList_append,
    hlines, hfirst, hreadsEnd, hactiveEnd, List.append_assoc]
  exact hfound

theorem brace_notMem_evalReads
    (htexts : MonitorTexts c) :
    '\x7d' ∉ evalReads c := by
  have hname : isNameChar '\x7d' = false := rfl
  have hread : isReadChar '\x7d' = false := by
    decide +kernel
  have hfront : '\x7d' ∉ "        ".toList := by
    decide
  have hbehind : '\x7d' ∉ "_meta.active: exact;\n".toList := by
    decide
  intro hmem
  rw [evalReads, List.mem_append, List.mem_append, Field.readLine, mem_toList_append_append] at hmem
  rcases hmem with ((hmem | hmem) | hmem) | hmem | hmem
  · exact hfront hmem
  · rw [htexts.monName.2 _ hmem] at hname
    cases hname
  · exact hbehind hmem
  · rw [isReadChar_of_mem_extraReads htexts hmem] at hread
    cases hread
  · cases List.mem_singleton.mp hmem

/-- The evaluation table reads the activity of the monitor and the extra headers. -/
theorem evalTable_declared
    (htype : c.type = .monitor)
    (htexts : MonitorTexts c)
    {fields : List Field}
    (hfields : ∀ f, f ∈ fields →
      f = .monActive c.monName ∨ c.extraCheck = true ∧ ∃ h, h ∈ c.extraHeader ∧ f = .poiseH h) :
    DeclaresTable (instantiated c) (tableNameOf c) fields := by
  refine ⟨evalReads c, brace_notMem_evalReads htexts, ?_, evalTable_found htype⟩
  intro f hf
  rcases hfields f hf with rfl | ⟨hextra, h, hh, rfl⟩
  · exact (List.prefix_append _ _).isInfix
  · have hline : (extraLine h).toList <:+: (extraReads c).toList := by
      rw [toList_extraReads, if_pos hextra, List.flatMap_def]
      exact List.infix_of_mem_flatten (List.mem_map_of_mem hh)
    refine hline.trans ?_
    rw [evalReads]
    exact List.infix_append' _ _ _

/-- The template declares what the generated code uses for its check. -/
theorem declaresNames_instantiated
    (htype : c.type = .monitor)
    (hname : c.tableName = tableNameOf c)
    (htexts : MonitorTexts c) :
    DeclaresNames (instantiated c) c := by
  refine ⟨?_, ?_, active_declared c⟩
  · intro s hs name hin
    simp only [evalStmts, htype, List.mem_cons, List.not_mem_nil, or_false] at hs
    rcases hs with rfl | rfl
    · exact applyMonitor_declared c hin
    · rw [EvalStmt.tables, List.mem_singleton] at hin
      rw [hin, hname]
      exact (List.prefix_append _ _).isInfix.trans (evalTable_found htype)
  · intro e he
    rw [entriesOf_table he, hname]
    simp only [entriesOf, htype] at he
    split at he
    · rename_i hextra
      obtain ⟨h, hh, rfl⟩ := List.mem_map.mp he
      refine ⟨[.monActive c.monName, .poiseH h], rfl, evalTable_declared htype htexts ?_⟩
      intro f hf
      simp only [List.mem_cons, List.not_mem_nil, or_false] at hf
      rcases hf with rfl | rfl
      · exact Or.inl rfl
      · exact Or.inr ⟨hextra, h, hh, rfl⟩
    · cases List.mem_singleton.mp he
      refine ⟨[.monActive c.monName], rfl, evalTable_declared htype htexts ?_⟩
      intro f hf
      exact Or.inl (List.mem_singleton.mp hf)

end Blocks

/-- The substitution ends for every text and pattern, and replaces the leftmost occurrences of the
pattern.  For every monitor check of a policy that is parsed and compiled, the instantiated
template contains no placeholder and declares all names that the generated code uses. -/
theorem template_substitution :
    (∀ subject search replace : String, search ≠ "" →
      ∃ pieces, Leftmost search.toList pieces ∧
        search.toList.intercalate pieces = subject.toList ∧
        ∀ fuel, subject.toList.length < fuel →
          replaceStringInPlace fuel subject search replace =
            some (String.ofList (replace.toList.intercalate pieces))) ∧
    ∀ (S : UnstableSort Check Check.priority) (policy : List Statement) (prog : Program)
      (code : PolicyCode) (optimized placed : List Check) (tables : List TableDef),
      parsePolicy policy = .ok prog → Compiled S prog code optimized placed tables →
      ∀ c, c ∈ placed.map nameTable → c.type = .monitor →
        ∃ text rounds, (∀ fuel, rounds ≤ fuel →
            instantiateTemplate fuel monitorTemplate c = some text) ∧
          (∀ h : Hole, ¬ h.name.toList <:+: text.toList) ∧ DeclaresNames text.toList c := by
  constructor
  · intro subject search replace hsearch
    have hempty : search.toList ≠ [] := fun h => hsearch (String.toList_eq_nil_iff.mp h)
    obtain ⟨pieces, hleft, hjoin, hreplace⟩ := exists_leftmost hempty subject.toList
    refine ⟨pieces, hleft, hjoin, ?_⟩
    intro fuel hfuel
    rw [replaceStringInPlace_eq hempty hfuel, hreplace]
  · intro S policy prog code optimized placed tables hparse hcomp c hc htype
    have htexts := hcomp.monitorTexts hparse c hc htype
    have hname : c.tableName = tableNameOf c := by
      obtain ⟨d, _, rfl⟩ := List.mem_map.mp hc
      rfl
    refine ⟨String.ofList (instantiated c), templateFuel c, ?_, ?_, ?_⟩
    · intro fuel hfuel
      exact instantiateTemplate_eq htexts hfuel
    · intro h
      rw [String.toList_ofList]
      exact not_infix_rendered (fills_fillValue htexts)
        (fun g => List.mem_reverse.mpr (mem_holes g)) h
    · rw [String.toList_ofList]
      exact declaresNames_instantiated htype hname htexts

/-- The theorem on a replacement that contains the pattern, and on a monitor with an extra
condition. -/
theorem template_substitution_extraCondition :
    (∃ pieces, Leftmost "aa".toList pieces ∧ "aa".toList.intercalate pieces = "xaaa".toList ∧
      replaceStringInPlace 5 "xaaa" "aa" "aaa" =
        some (String.ofList ("aaa".toList.intercalate pieces))) ∧
    ∃ c, c ∈ (placedOf extraConditionPolicy).map nameTable ∧ c.extraHeader = ["h2"] ∧
      ∃ text rounds, instantiateTemplate rounds monitorTemplate c = some text ∧
        (∀ h : Hole, ¬ h.name.toList <:+: text.toList) ∧ DeclaresNames text.toList c := by
  obtain ⟨hreplace, hpolicy⟩ := template_substitution
  constructor
  · obtain ⟨pieces, hleft, hjoin, hresult⟩ := hreplace "xaaa" "aa" "aaa" (by decide)
    exact ⟨pieces, hleft, hjoin, hresult 5 (by decide)⟩
  · have h : AcceptedPolicy extraConditionPolicy := ⟨by decide +kernel, by decide +kernel⟩
    obtain ⟨tables, hcomp⟩ := compileTofino_compiled_of h.compiled h.optimized h.placed
    have hmonitor : ∃ c, c ∈ (placedOf extraConditionPolicy).map nameTable ∧
        c.type = .monitor ∧ c.extraHeader = ["h2"] := by
      decide +kernel
    obtain ⟨c, hc, htype, hextra⟩ := hmonitor
    obtain ⟨text, rounds, hrun, hplain, hdeclared⟩ :=
      hpolicy _ _ _ _ _ _ _ h.parsed hcomp c hc htype
    exact ⟨c, hc, hextra, text, rounds, hrun rounds (Nat.le_refl rounds), hplain, hdeclared⟩

end TemplateDeclarations

end Poise
