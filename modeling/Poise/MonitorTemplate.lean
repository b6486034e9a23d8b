import Poise.PolicyTexts
import Poise.Foundations.TextReplacement

/-!
# Poise compiler: the monitor template

`generate_table_def` instantiates a template for every monitor check by six textual
substitutions, one after the other.  `ReplaceStringInPlace` edits the string that it
scans, and goes on behind what it has inserted.

The template is cut into pieces, texts and placeholders.  At every stage some of the
placeholders are filled, and no occurrence of the next one reaches over the border of
two pieces, so that a substitution fills exactly one kind of placeholder.  That this
is so is a finite check on the pieces, as filled placeholders only enter it through
the class of characters that they are made of.
-/

namespace Poise

open Foundations

section MonitorTemplate

/-- The file `monitor_template.p4`. -/
def templateLines : List String :=
  [
   "#define MONNAME_TIMEOUT TIMEOUTVAL",
   "",
   "header_type MONNAME_meta_t \x7b",
   "   fields \x7b",
   "      active: 16;",
   "   \x7d",
   "\x7d",
   "",
   "metadata MONNAME_meta_t MONNAME_meta;",
   "",
   "register MONNAME_ts_high_32 \x7b",
   "    width: 32;",
   "    instance_count: 1;",
   "\x7d",
   "",
   "table monitor_MONNAME_tab \x7b",
   "    reads \x7b",
   "        poise_h.HNAME: exact;",
   "    \x7d",
   "    actions \x7bnop;\x7d",
   "    default_action: nop;",
   "    size: 1;",
   "\x7d",
   "",
   "blackbox stateful_alu read_MONNAME_t \x7b",
   "    reg: MONNAME_ts_high_32;",
   "",
   "    condition_lo: meta.tstamp_high_32 - register_lo < MONNAME_TIMEOUT;",
   "",
   "    update_lo_1_predicate: condition_lo;",
   "    update_lo_1_value: register_lo;",
   "",
   "    output_predicate: condition_lo;",
   "    output_dst: MONNAME_meta.active;",
   "    output_value: predicate;",
   "\x7d",
   "",
   "action check_MONNAME_active(idx) \x7b",
   "    read_MONNAME_t.execute_stateful_alu(idx);",
   "\x7d",
   "",
   "table check_MONNAME_active_tab \x7b",
   "    actions\x7bcheck_MONNAME_active;\x7d",
   "    default_action: check_MONNAME_active;",
   "    size: 1;",
   "\x7d",
   "",
   "blackbox stateful_alu write_MONNAME_t \x7b",
   "    reg: MONNAME_ts_high_32;",
   "",
   "    condition_lo: true;",
   "",
   "    update_lo_1_predicate: condition_lo;",
   "    update_lo_1_value: meta.tstamp_high_32;",
   "",
   "    output_dst: MONNAME_meta.active;",
   "    output_value: predicate;",
   "\x7d",
   "",
   "action update_MONNAME(idx) \x7b",
   "    write_MONNAME_t.execute_stateful_alu(idx);",
   "\x7d",
   "",
   "table update_MONNAME_tab \x7b",
   "    actions\x7bupdate_MONNAME;\x7d",
   "    default_action: update_MONNAME;",
   "    size: 1;",
   "\x7d",
   "",
   "table eval_MONNAME_tab_recRECNUM_idIDNUM \x7b",
   "    reads \x7b",
   "        MONNAME_meta.active: exact;",
   "EXTRA_CHECK",
   "    \x7d",
   "    actions \x7bset_ctx_dec; nop;\x7d",
   "    default_action: nop;",
   "    size: 2;",
   "\x7d"]

def monitorTemplate : String :=
  String.ofList (templateLines.flatMap fun line => line.toList ++ ['\n'])

/-- The loop of `ReplaceStringInPlace` from a position on; it may take a number of rounds. -/
def replaceLoop (search replace : List Char) : Nat → List Char → Nat → Option (List Char)
  | 0, _, _ => none
  | fuel + 1, subject, pos =>
      match findFrom search subject pos with
      | none => some subject
      | some pos =>
          replaceLoop search replace fuel
            (subject.take pos ++ replace ++ subject.drop (pos + search.length))
            (pos + replace.length)

def replaceStringInPlace (fuel : Nat) (subject search replace : String) : Option String :=
  (replaceLoop search.toList replace.toList fuel subject.toList 0).map String.ofList

/-- The line for one extra header. -/
def extraLine (h : String) : String :=
  "        poise_h." ++ h ++ " : exact;\n"

/-- The lines for the extra headers. -/
def extraReads (c : Check) : String :=
  if c.extraCheck then
    c.extraHeader.foldl (fun extra h => extra ++ extraLine h) ""
  else
    ""

/-- The branch of `generate_table_def` for monitor checks. -/
def instantiateTemplate (fuel : Nat) (monTemplate : String) (c : Check) : Option String := do
  let mon ← replaceStringInPlace fuel monTemplate "MONNAME" c.monName
  let mon ← replaceStringInPlace fuel mon "HNAME" c.header
  let mon ← replaceStringInPlace fuel mon "TIMEOUTVAL" c.timeoutVal.repr
  let mon ← replaceStringInPlace fuel mon "RECNUM" c.recNum.repr
  let mon ← replaceStringInPlace fuel mon "IDNUM" c.id.repr
  replaceStringInPlace fuel mon "EXTRA_CHECK" (extraReads c)

/-- The placeholders of the template. -/
inductive Hole where
  | monName
  | hName
  | timeoutVal
  | recNum
  | idNum
  | extraCheck
deriving DecidableEq, Repr

/-- The placeholders in the order of the substitutions. -/
def holes : List Hole :=
  [.monName, .hName, .timeoutVal, .recNum, .idNum, .extraCheck]

def Hole.name : Hole → String
  | .monName => "MONNAME"
  | .hName => "HNAME"
  | .timeoutVal => "TIMEOUTVAL"
  | .recNum => "RECNUM"
  | .idNum => "IDNUM"
  | .extraCheck => "EXTRA_CHECK"

/-- What a placeholder is replaced by. -/
def Hole.value (c : Check) : Hole → String
  | .monName => c.monName
  | .hName => c.header
  | .timeoutVal => c.timeoutVal.repr
  | .recNum => c.recNum.repr
  | .idNum => c.id.repr
  | .extraCheck => extraReads c

section Substitution

/-- Enough rounds complete the pass over what is left of the subject. -/
theorem replaceLoop_eq
    {search : List Char}
    (hsearch : search ≠ [])
    (replace : List Char)
    {fuel : Nat} {rest : List Char}
    (hfuel : rest.length < fuel)
    (done : List Char) :
    replaceLoop search replace fuel (done ++ rest) done.length =
      some (done ++ replaceAll search replace rest) := by
  induction fuel generalizing done rest with
  | zero =>
      omega
  | succ fuel ih =>
      rw [replaceLoop, findFrom_append]
      cases hfirst : firstMatch search rest with
      | none =>
          rw [replaceAll_of_absent (not_infix_of_firstMatch_eq_none hfirst)]
          rfl
      | some i =>
          obtain ⟨t, u, rfl, rfl, hpiece⟩ := eq_append_of_firstMatch hsearch hfirst
          have hpos := List.length_pos_of_ne_nil hsearch
          rw [List.length_append, List.length_append] at hfuel
          have htake : (done ++ (t ++ search ++ u)).take (done.length + t.length) = done ++ t := by
            rw [← List.length_append, List.append_assoc t, ← List.append_assoc done, List.take_left]
          have hdrop : (done ++ (t ++ search ++ u)).drop
              (done.length + t.length + search.length) = u := by
            rw [← List.append_assoc, ← List.append_assoc, ← List.length_append,
              ← List.length_append, List.drop_left]
          have hlength : (done ++ t ++ replace).length =
              done.length + t.length + replace.length := by
            rw [List.length_append, List.length_append]
          simp only [Option.map_some, htake, hdrop]
          rw [← hlength, ih (by omega) (done ++ t ++ replace), replaceAll_append hsearch hpiece,
            List.append_assoc, List.append_assoc]

theorem replaceStringInPlace_eq
    {fuel : Nat} {subject search : String}
    (hsearch : search.toList ≠ [])
    (hfuel : subject.toList.length < fuel)
    (replace : String) :
    replaceStringInPlace fuel subject search replace =
      some (String.ofList (replaceAll search.toList replace.toList subject.toList)) := by
  have h := replaceLoop_eq hsearch replace.toList hfuel []
  rw [List.nil_append, List.length_nil, List.nil_append] at h
  rw [replaceStringInPlace, h, Option.map_some]

end Substitution

section Pieces

/-- A piece of the template. -/
inductive Piece where
  | text (t : List Char)
  | hole (h : Hole)
deriving DecidableEq, Repr

/-- Cut a text at the placeholders, behind a number of characters. -/
def cutHoles : Nat → List Char → List Piece
  | _, [] => []
  | skip + 1, _ :: s => cutHoles skip s
  | 0, x :: s =>
      match holes.find? fun h => h.name.toList.isPrefixOf (x :: s) with
      | some h => .hole h :: cutHoles (h.name.toList.length - 1) s
      | none =>
          match cutHoles 0 s with
          | .text t :: rest => .text (x :: t) :: rest
          | rest => .text [x] :: rest

/-- The pieces of a line, and the end of the line. -/
def linePieces (line : List Char) : List Piece :=
  cutHoles 0 line ++ [.text ['\n']]

def templatePieces : List Piece :=
  (templateLines.map String.toList).flatMap linePieces

variable {done : List Hole} {value : Hole → List Char}

/-- The text of a piece when some placeholders are filled. -/
def Piece.render (done : List Hole) (value : Hole → List Char) : Piece → List Char
  | .text t => t
  | .hole h => if h ∈ done then value h else h.name.toList

/-- The text of the template when some placeholders are filled. -/
def rendered (done : List Hole) (value : Hole → List Char) : List Char :=
  (templatePieces.map (Piece.render done value)).flatten

theorem mem_holes
    (h : Hole) :
    h ∈ holes := by
  cases h <;> decide

theorem Hole.name_ne_nil
    (h : Hole) :
    h.name.toList ≠ [] := by
  cases h <;> decide

/-- The pieces make up the text. -/
theorem flatten_cutHoles
    (value : Hole → List Char)
    (skip : Nat)
    (s : List Char) :
    ((cutHoles skip s).map (Piece.render [] value)).flatten = s.drop skip := by
  induction s generalizing skip with
  | nil =>
      rw [cutHoles, List.drop_nil]
      rfl
  | cons x s ih =>
      cases skip with
      | succ skip =>
          rw [cutHoles, ih, List.drop_succ_cons]
      | zero =>
          rw [cutHoles]
          split
          · rename_i h hfind
            have hfound := List.find?_some hfind
            obtain ⟨rest, hrest⟩ := List.isPrefixOf_iff_prefix.mp hfound
            obtain ⟨y, name, hname⟩ := List.exists_cons_of_ne_nil h.name_ne_nil
            rw [hname, List.cons_append, List.cons.injEq] at hrest
            obtain ⟨rfl, rfl⟩ := hrest
            rw [List.map_cons, List.flatten_cons, ih, Piece.render, if_neg List.not_mem_nil, hname,
              List.length_cons, Nat.add_sub_cancel, List.drop_left, List.drop_zero,
              List.cons_append]
          · have hrest := ih 0
            split
            · rename_i t rest hcut
              rw [hcut, List.drop_zero, List.map_cons, List.flatten_cons] at hrest
              rw [List.map_cons, List.flatten_cons, List.drop_zero, ← hrest]
              rfl
            · rw [List.map_cons, List.flatten_cons, hrest]
              rfl

theorem rendered_nil
    (value : Hole → List Char) :
    rendered [] value = monitorTemplate.toList := by
  rw [monitorTemplate, String.toList_ofList, rendered, templatePieces, List.map_flatMap,
    List.flatMap_map]
  have hline (line : List Char) :
      ((linePieces line).map (Piece.render [] value)).flatten = line ++ ['\n'] := by
    rw [linePieces, List.map_append, List.flatten_append, flatten_cutHoles, List.drop_zero]
    rfl
  induction templateLines with
  | nil =>
      rfl
  | cons line lines ih =>
      rw [List.flatMap_cons, List.flatten_append, hline, ih, List.flatMap_cons]

/-- The texts between the placeholders of a line contain none. -/
theorem not_infix_of_mem_cutHoles
    {skip : Nat} {s t : List Char}
    (hmem : Piece.text t ∈ cutHoles skip s)
    (h : Hole) :
    ¬ h.name.toList <:+: t := by
  induction s generalizing skip t with
  | nil =>
      rw [cutHoles] at hmem
      cases hmem
  | cons x s ih =>
      cases skip with
      | succ skip =>
          rw [cutHoles] at hmem
          exact ih hmem
      | zero =>
          rw [cutHoles] at hmem
          split at hmem
          · rcases List.mem_cons.mp hmem with heq | hmem
            · cases heq
            · exact ih hmem
          · rename_i hnone
            have hfront : ¬ h.name.toList <+: x :: s := by
              intro hin
              exact List.find?_eq_none.mp hnone h (mem_holes h) (List.isPrefixOf_iff_prefix.mpr hin)
            have hsplit := flatten_cutHoles (fun _ => []) 0 s
            split at hmem
            · rename_i u rest hcut
              rw [hcut, List.drop_zero, List.map_cons, List.flatten_cons] at hsplit
              rcases List.mem_cons.mp hmem with heq | hmem
              · cases heq
                rw [List.infix_cons_iff]
                rintro (hin | hin)
                · apply hfront
                  refine hin.trans ?_
                  rw [List.cons_prefix_cons]
                  exact ⟨rfl, _, hsplit⟩
                · have hhead : Piece.text u ∈ cutHoles 0 s := by
                    rw [hcut]
                    exact List.mem_cons_self
                  exact ih hhead hin
              · have hrest : Piece.text t ∈ cutHoles 0 s := by
                  rw [hcut]
                  exact List.mem_cons_of_mem _ hmem
                exact ih hrest
            · rcases List.mem_cons.mp hmem with heq | hmem
              · cases heq
                rw [List.infix_cons_iff]
                rintro (hin | hin)
                · apply hfront
                  refine hin.trans ?_
                  rw [List.cons_prefix_cons]
                  exact ⟨rfl, List.nil_prefix⟩
                · have hnil := List.infix_nil.mp hin
                  exact hfront (by rw [hnil]; exact List.nil_prefix)
              · exact ih hmem

end Pieces

section Stages

/-- Characters that a placeholder may contain: capital letters, and one of them a low line. -/
def Hole.hasChar (h : Hole) (x : Char) : Bool :=
  x.isUpper || (h == .extraCheck && x == '_')

/-- The characters of the lines for extra headers. -/
def isReadChar (x : Char) : Bool :=
  isExprChar x || (extraLine "").toList.contains x

/-- The edge of a piece cannot be part of an occurrence of a placeholder.  The last placeholder is
searched for when all others are filled. -/
def Piece.edgeFree (edge : List Char → Option Char) (h : Hole) : Piece → Bool
  | .text t => (edge t).any fun x => !h.hasChar x
  | .hole g => h == .extraCheck && g != .extraCheck

/-- At every border of two pieces one of the edges is free. -/
def bordersFree (h : Hole) : List Piece → Bool
  | a :: b :: rest =>
      (a.edgeFree List.getLast? h || b.edgeFree List.head? h) && bordersFree h (b :: rest)
  | _ => true

theorem map_toList_cons
    {l : List Char} {ss : List String} {ls : List (List Char)}
    (h : ss.map String.toList = ls) :
    (String.ofList l :: ss).map String.toList = l :: ls := by
  rw [List.map_cons, String.toList_ofList, h]

/-- The borders of the template. -/
theorem bordersFree_templatePieces
    (h : Hole) :
    bordersFree h templatePieces = true := by
  have hlines : ∃ lines, templateLines.map String.toList = lines ∧
      ∀ h, h ∈ holes → bordersFree h (lines.flatMap linePieces) = true := by
    apply Exists.intro
    apply And.intro
    · unfold templateLines
      repeat apply map_toList_cons
      exact List.map_nil
    · decide +kernel
  obtain ⟨lines, hchars, hfree⟩ := hlines
  rw [templatePieces, hchars]
  exact hfree h (mem_holes h)

/-- The texts that placeholders are filled with. -/
structure Fills (value : Hole → List Char) : Prop where
  ne_nil : ∀ h, h ≠ .extraCheck → value h ≠ []
  names : ∀ h, h ≠ .extraCheck → ∀ x, x ∈ value h → isNameChar x = true
  reads : ∀ h x, x ∈ value h → isReadChar x = true

/-- The order of the substitutions: the last placeholder is filled behind all others. -/
def InOrder (done : List Hole) (h : Hole) : Prop :=
  h = .extraCheck → ∀ g, g ≠ .extraCheck → g ∈ done

variable {done : List Hole} {value : Hole → List Char}

theorem hasChar_of_mem_name
    {h : Hole} {x : Char}
    (hx : x ∈ h.name.toList) :
    h.hasChar x = true := by
  have hall : h.name.toList.all h.hasChar = true := by
    cases h <;> decide +kernel
  exact List.all_eq_true.mp hall x hx

theorem hasChar_of_isNameChar
    {x : Char}
    (hx : isNameChar x = true)
    (h : Hole) :
    h.hasChar x = false := by
  simp only [isNameChar, Bool.or_eq_true, beq_iff_eq] at hx
  rcases hx with (hdigit | rfl) | rfl
  · have hupper : x.isUpper = false := by
      by_contra hne
      have hcapital : x.val ≥ 'A'.val ∧ x.val ≤ 'Z'.val :=
        of_decide_eq_true (Bool.eq_true_of_not_eq_false hne)
      have hA : 'A'.val.toNat = 65 := rfl
      have h9 : '9'.val.toNat = 57 := rfl
      simp only [Char.isDigit, Bool.and_eq_true, decide_eq_true_eq, ge_iff_le,
        UInt32.le_iff_toNat_le] at hcapital hdigit
      omega
    have hline : (x == '_') = false := by
      rw [beq_eq_false_iff_ne]
      rintro rfl
      exact absurd hdigit (by decide)
    rw [Hole.hasChar, hupper, hline, Bool.and_false, Bool.or_false]
  · cases h <;> rfl
  · cases h <;> rfl

/-- No filled placeholder contains the name of one. -/
theorem Fills.absent
    (hfills : Fills value)
    (g h : Hole) :
    ¬ h.name.toList <:+: value g := by
  have hany : h.name.toList.any (fun x => !isReadChar x) = true := by
    cases h <;> decide +kernel
  obtain ⟨x, hx, hread⟩ := List.any_eq_true.mp hany
  intro hin
  rw [hfills.reads g x (hin.subset hx)] at hread
  cases hread

theorem not_infix_name
    {g h : Hole}
    (hne : g ≠ h) :
    ¬ h.name.toList <:+: g.name.toList := by
  revert hne
  cases g <;> cases h <;> decide +kernel

/-- A free edge shows a character that the placeholder does not contain. -/
theorem exists_of_edgeFree
    (hfills : Fills value)
    {h : Hole}
    (horder : InOrder done h)
    {edge : List Char → Option Char}
    (hedge : ∀ t, t ≠ [] → ∃ x, x ∈ t ∧ edge t = some x)
    {q : Piece}
    (hfree : q.edgeFree edge h = true) :
    ∃ x ∈ edge (q.render done value), x ∉ h.name.toList := by
  cases q with
  | text t =>
      obtain ⟨x, hx, hchar⟩ := (Option.any_eq_true _ _).mp hfree
      refine ⟨x, hx, ?_⟩
      intro hmem
      rw [hasChar_of_mem_name hmem] at hchar
      cases hchar
  | hole g =>
      simp only [Piece.edgeFree, Bool.and_eq_true, beq_iff_eq, bne_iff_ne] at hfree
      obtain ⟨rfl, hg⟩ := hfree
      obtain ⟨x, hx, hval⟩ := hedge (value g) (hfills.ne_nil g hg)
      refine ⟨x, by rw [Piece.render, if_pos (horder rfl g hg)]; exact hval, ?_⟩
      intro hmem
      have hchar := hasChar_of_mem_name hmem
      rw [hasChar_of_isNameChar (hfills.names g hg x hx)] at hchar
      cases hchar

/-- No occurrence of the next placeholder reaches over a border. -/
theorem isChain_separated
    (hfills : Fills value)
    {h : Hole}
    (horder : InOrder done h) :
    (templatePieces.map (Piece.render done value)).IsChain (Separated h.name.toList) := by
  have hfree := bordersFree_templatePieces h
  revert hfree
  generalize templatePieces = pieces
  intro hfree
  induction pieces with
  | nil =>
      exact List.IsChain.nil
  | cons a pieces ih =>
      cases pieces with
      | nil =>
          exact List.IsChain.singleton _
      | cons b pieces =>
          rw [bordersFree, Bool.and_eq_true, Bool.or_eq_true] at hfree
          refine List.IsChain.cons_cons ?_ (ih hfree.2)
          rcases hfree.1 with hlast | hfirst
          · refine Or.inl (exists_of_edgeFree hfills horder ?_ hlast)
            intro t ht
            exact ⟨t.getLast ht, List.getLast_mem ht, List.getLast?_eq_some_getLast ht⟩
          · refine Or.inr (exists_of_edgeFree hfills horder ?_ hfirst)
            intro t ht
            exact ⟨t.head ht, List.head_mem ht, List.head?_eq_some_head ht⟩

/-- The only pieces that contain a placeholder are its own, until they are filled. -/
theorem not_infix_render
    (hfills : Fills value)
    (h : Hole)
    {q : Piece}
    (hq : q ∈ templatePieces)
    (hother : q = .hole h → h ∈ done) :
    ¬ h.name.toList <:+: q.render done value := by
  cases q with
  | text t =>
      obtain ⟨line, _, hmem⟩ := List.mem_flatMap.mp hq
      rcases List.mem_append.mp hmem with hmem | hmem
      · exact not_infix_of_mem_cutHoles hmem h
      · cases List.mem_singleton.mp hmem
        rw [Piece.render]
        cases h <;> decide +kernel
  | hole g =>
      rw [Piece.render]
      split
      · exact hfills.absent g h
      · rename_i hout
        apply not_infix_name
        rintro rfl
        exact hout (hother rfl)

/-- A substitution fills the pieces of its placeholder. -/
theorem replaceAll_rendered
    (hfills : Fills value)
    {h : Hole}
    (hout : h ∉ done)
    (horder : InOrder done h) :
    replaceAll h.name.toList (value h) (rendered done value) = rendered (h :: done) value := by
  have hparts : ∀ t, t ∈ templatePieces.map (Piece.render done value) →
      t = h.name.toList ∨ ¬ h.name.toList <:+: t := by
    intro t ht
    obtain ⟨q, hq, rfl⟩ := List.mem_map.mp ht
    by_cases hown : q = .hole h
    · rw [hown, Piece.render, if_neg hout]
      exact Or.inl rfl
    · exact Or.inr (not_infix_render hfills h hq fun heq => absurd heq hown)
  rw [rendered, replaceAll_flatten h.name_ne_nil (isChain_separated hfills horder) hparts,
    rendered, List.map_map]
  congr 1
  apply List.map_congr_left
  intro q hq
  rw [Function.comp_apply]
  by_cases hown : q = .hole h
  · rw [hown, Piece.render, Piece.render, if_neg hout, if_pos rfl, if_pos List.mem_cons_self]
  · have hnot : ¬ h.name.toList <:+: q.render done value :=
      not_infix_render hfills h hq fun heq => absurd heq hown
    rw [if_neg (fun heq => hnot (by rw [heq]))]
    cases q with
    | text t =>
        rfl
    | hole g =>
        have hne : g ≠ h := fun heq => hown (by rw [heq])
        simp only [Piece.render, List.mem_cons, hne, false_or]

/-- No placeholder is left. -/
theorem not_infix_rendered
    (hfills : Fills value)
    (hall : ∀ h, h ∈ done)
    (h : Hole) :
    ¬ h.name.toList <:+: rendered done value := by
  intro hin
  obtain ⟨t, ht, hint⟩ := exists_infix_of_infix_flatten h.name_ne_nil
    (isChain_separated hfills fun _ g _ => hall g) hin
  obtain ⟨q, hq, rfl⟩ := List.mem_map.mp ht
  exact not_infix_render hfills h hq (fun _ => hall h) hint

end Stages

section Instantiation

variable {c : Check}

/-- The texts that the placeholders are filled with for a check. -/
def fillValue (c : Check) (h : Hole) : List Char :=
  (h.value c).toList

theorem toList_extraReads
    (c : Check) :
    (extraReads c).toList =
      if c.extraCheck then c.extraHeader.flatMap fun h => (extraLine h).toList else [] := by
  have hfold (hs : List String) (extra : String) :
      (hs.foldl (fun extra h => extra ++ extraLine h) extra).toList =
        extra.toList ++ hs.flatMap fun h => (extraLine h).toList := by
    induction hs generalizing extra with
    | nil =>
        rw [List.foldl_nil, List.flatMap_nil, List.append_nil]
    | cons h hs ih =>
        rw [List.foldl_cons, ih, String.toList_append, List.flatMap_cons, List.append_assoc]
  rw [extraReads]
  split
  · rw [hfold]
    rfl
  · rfl

theorem mem_toList_append_append
    (t u v : String)
    {x : Char} :
    x ∈ (t ++ u ++ v).toList ↔ (x ∈ t.toList ∨ x ∈ u.toList) ∨ x ∈ v.toList := by
  rw [String.toList_append, String.toList_append, List.mem_append, List.mem_append]

theorem isReadChar_of_mem_extraLine
    {h : String}
    (htext : ExprText h)
    {x : Char}
    (hx : x ∈ (extraLine h).toList) :
    isReadChar x = true := by
  have hparts (t : String) : x ∈ (extraLine t).toList ↔
      (x ∈ "        poise_h.".toList ∨ x ∈ t.toList) ∨ x ∈ " : exact;\n".toList :=
    mem_toList_append_append _ t _
  rw [isReadChar, Bool.or_eq_true, List.contains_iff_mem, hparts]
  rcases (hparts h).mp hx with (hx | hx) | hx
  · exact Or.inr (Or.inl (Or.inl hx))
  · exact Or.inl (htext x hx)
  · exact Or.inr (Or.inr hx)

theorem isReadChar_of_mem_extraReads
    (htexts : MonitorTexts c)
    {x : Char}
    (hx : x ∈ (extraReads c).toList) :
    isReadChar x = true := by
  rw [toList_extraReads] at hx
  split at hx
  · obtain ⟨h, hh, hx⟩ := List.mem_flatMap.mp hx
    exact isReadChar_of_mem_extraLine (htexts.extras h hh) hx
  · cases hx

theorem nameText_value
    (htexts : MonitorTexts c)
    {h : Hole}
    (hh : h ≠ .extraCheck) :
    NameText (h.value c) := by
  cases h with
  | monName => exact htexts.monName
  | hName => exact htexts.header
  | timeoutVal => exact nameText_repr c.timeoutVal
  | recNum => exact nameText_repr c.recNum
  | idNum => exact nameText_repr c.id
  | extraCheck => exact absurd rfl hh

theorem fills_fillValue
    (htexts : MonitorTexts c) :
    Fills (fillValue c) := by
  refine ⟨fun h hh => (nameText_value htexts hh).1, fun h hh => (nameText_value htexts hh).2, ?_⟩
  intro h x hx
  by_cases hh : h = .extraCheck
  · rw [hh] at hx
    exact isReadChar_of_mem_extraReads htexts hx
  · rw [isReadChar, (nameText_value htexts hh).expr x hx, Bool.true_or]

/-- The instantiated template. -/
def instantiated (c : Check) : List Char :=
  rendered holes.reverse (fillValue c)

/-- A number of rounds that suffices for every substitution. -/
def templateFuel (c : Check) : Nat :=
  (holes.reverse.tails.map fun done => (rendered done (fillValue c)).length).sum + 1

theorem length_rendered_lt
    {done : List Hole}
    (hdone : done ∈ holes.reverse.tails) :
    (rendered done (fillValue c)).length < templateFuel c := by
  have hmem : (rendered done (fillValue c)).length ∈
      holes.reverse.tails.map fun done => (rendered done (fillValue c)).length :=
    List.mem_map_of_mem hdone
  exact Nat.lt_succ_of_le (List.le_sum_of_mem hmem)

/-- The substitutions come in the order of the placeholders. -/
theorem inOrder_of_suffix
    {done : List Hole} {h : Hole}
    (hstage : h :: done <:+ holes.reverse) :
    InOrder done h := by
  rintro rfl g hg
  have hlast : holes.reverse = .extraCheck :: holes.dropLast.reverse := rfl
  rw [hlast, List.suffix_cons_iff] at hstage
  rcases hstage with heq | hsuffix
  · have hmem := List.mem_reverse.mpr (mem_holes g)
    rw [hlast, ← heq] at hmem
    exact (List.mem_cons.mp hmem).resolve_left hg
  · have hmem : Hole.extraCheck ∈ holes.dropLast.reverse := hsuffix.subset List.mem_cons_self
    exact absurd hmem (by decide)

/-- One of the substitutions. -/
theorem replaceStringInPlace_hole
    (htexts : MonitorTexts c)
    {fuel : Nat}
    (hfuel : templateFuel c ≤ fuel)
    (done : List Hole)
    (h : Hole)
    (hstage : h :: done <:+ holes.reverse) :
    replaceStringInPlace fuel (String.ofList (rendered done (fillValue c))) h.name (h.value c) =
      some (String.ofList (rendered (h :: done) (fillValue c))) := by
  have hnodup : holes.reverse.Nodup := by decide
  have hout : h ∉ done := (List.nodup_cons.mp (hnodup.sublist hstage.sublist)).1
  have hlength := length_rendered_lt (c := c)
    ((List.mem_tails done holes.reverse).mpr ((List.suffix_cons h done).trans hstage))
  rw [replaceStringInPlace_eq h.name_ne_nil (by rw [String.toList_ofList]; omega),
    String.toList_ofList]
  exact congrArg (fun t => some (String.ofList t))
    (replaceAll_rendered (fills_fillValue htexts) hout (inOrder_of_suffix hstage))

/-- The six substitutions fill all placeholders. -/
theorem instantiateTemplate_eq
    (htexts : MonitorTexts c)
    {fuel : Nat}
    (hfuel : templateFuel c ≤ fuel) :
    instantiateTemplate fuel monitorTemplate c = some (String.ofList (instantiated c)) := by
  have hstart : monitorTemplate = String.ofList (rendered [] (fillValue c)) := by
    rw [rendered_nil, String.ofList_toList]
  have hmon : replaceStringInPlace fuel _ "MONNAME" c.monName = _ :=
    replaceStringInPlace_hole htexts hfuel [] .monName (by decide)
  have hheader : replaceStringInPlace fuel _ "HNAME" c.header = _ :=
    replaceStringInPlace_hole htexts hfuel [.monName] .hName (by decide)
  have htimeout : replaceStringInPlace fuel _ "TIMEOUTVAL" c.timeoutVal.repr = _ :=
    replaceStringInPlace_hole htexts hfuel [.hName, .monName] .timeoutVal (by decide)
  have hrec : replaceStringInPlace fuel _ "RECNUM" c.recNum.repr = _ :=
    replaceStringInPlace_hole htexts hfuel [.timeoutVal, .hName, .monName] .recNum (by decide)
  have hid : replaceStringInPlace fuel _ "IDNUM" c.id.repr = _ :=
    replaceStringInPlace_hole htexts hfuel [.recNum, .timeoutVal, .hName, .monName] .idNum
      (by decide)
  have hextra : replaceStringInPlace fuel _ "EXTRA_CHECK" (extraReads c) = _ :=
    replaceStringInPlace_hole htexts hfuel [.idNum, .recNum, .timeoutVal, .hName, .monName]
      .extraCheck (by decide)
  rw [hstart]
  simp only [instantiateTemplate, hmon, hheader, htimeout, hrec, hid, bind, Option.bind]
  exact hextra

end Instantiation

end MonitorTemplate

end Poise
