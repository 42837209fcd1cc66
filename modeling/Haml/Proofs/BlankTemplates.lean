import Haml.Proofs.LogicalLines
import Haml.Proofs.OutlineLines
import Haml.Proofs.Rows
import Haml.Proofs.Writing

/-!
# Blank templates

A template of nothing but spaces, tabs and line ends is compiled without a fault. Each of its
lines keeps its end and is indented to its depth; what stands behind the last line end is lost.
-/

namespace Haml

/-- A text of spaces, tabs and line ends. -/
def BlankText (t : Text) : Prop := ∀ c ∈ t, isIndent c = true ∨ isLineBreak c = true

instance (t : Text) : Decidable (BlankText t) := List.decidableBAll _ t

theorem BlankText.isIndent {t : Text} (h : BlankText t) (ht : OneLine t) :
    ∀ c ∈ t, isIndent c = true := by
  intro c hc
  apply (h c hc).resolve_right
  intro hb
  rw [ht c hc] at hb
  cases hb

namespace SourceLine

/-- The markup of a blank line: its indentation to the full depth and its end. The last line has
no end and no markup. -/
def blankMarkup (s : SourceLine) : Text :=
  if s.ending = [] then [] else Text.indentation (indentDepth s.text) ++ s.ending

/-- The row of a blank line. The last line has none if it is empty. -/
def blankRow? (s : SourceLine) : Option Row :=
  if s.text = [] then
    if s.ending = [] then none else some (.empty s.ending)
  else some (.blank (indentDepth s.text) (if s.ending = [] then none else some s.ending))

theorem blankRow?_append {u e : Text} (he : e ≠ []) :
    blankRow? ⟨u, e⟩ =
      some (if u = [] then .empty e else .blank (indentDepth u) (some e)) := by
  by_cases hu : u = [] <;> simp [blankRow?, hu, he]

/-- The row of a blank line opens nothing and closes nothing, and writes its markup. -/
theorem compile_blankRow? {s : SourceLine} {row : Row} (h : s.blankRow? = some row)
    (filters : FilterRegistry) (stack : ElementStack) :
    ∃ events, row.compile filters stack = some (events, stack) ∧
      Script.Writes (events.filterMap Event.instruction?) s.blankMarkup := by
  by_cases ht : s.text = [] <;> by_cases he : s.ending = [] <;>
    simp only [blankRow?, ht, he, if_true, if_false, reduceCtorEq, Option.some.injEq] at h <;>
    subst h
  · refine ⟨_, rfl, ?_⟩
    simp only [blankMarkup, ht, he, if_false]
    exact Script.writes_markup s.ending
  · refine ⟨_, rfl, ?_⟩
    simp only [blankMarkup, he, if_true]
    exact Script.writes_depth _
  · refine ⟨_, rfl, ?_⟩
    simp only [blankMarkup, he, if_false]
    exact (Script.writes_depth _).cons (Script.writes_markup _)

theorem blankMarkup_of_blankRow?_eq_none {s : SourceLine} (h : s.blankRow? = none) :
    s.blankMarkup = [] := by
  by_cases he : s.ending = []
  · simp [blankMarkup, he]
  · rw [show s = ⟨s.text, s.ending⟩ from rfl, blankRow?_append he] at h
    cases h

end SourceLine

/-- The rows of blank lines write the markup of the lines, one after another. -/
theorem compileRows_blankRows (filters : FilterRegistry) (stack : ElementStack)
    (lines : List SourceLine) :
    ∃ events, compileRows filters stack (lines.filterMap SourceLine.blankRow?) =
        some (events, stack) ∧
      Script.Writes (events.filterMap Event.instruction?)
        (lines.flatMap SourceLine.blankMarkup) := by
  induction lines with
  | nil => exact ⟨[], rfl, .nil⟩
  | cons s lines ih =>
    obtain ⟨events, hc, hw⟩ := ih
    cases hs : s.blankRow? with
    | none =>
      rw [List.filterMap_cons_none hs, List.flatMap_cons, s.blankMarkup_of_blankRow?_eq_none hs]
      exact ⟨events, hc, hw⟩
    | some row =>
      obtain ⟨own, hown, hwrites⟩ := s.compile_blankRow? hs filters stack
      refine ⟨own ++ events, ?_, ?_⟩
      · rw [List.filterMap_cons_some hs, compileRows, hown, Option.bind_some, hc]
        rfl
      · rw [List.filterMap_append, List.flatMap_cons]
        exact hwrites.append hw

namespace Lexer

variable {l : Lexer} {n : Nat} {w e t more : Text}

/-- On a line of nothing but blanks the lexer is on all of them. -/
theorem Reads.on_blanks (h : l.Reads .line n (w ++ more)) (hw : ∀ c ∈ w, isIndent c = true)
    (hne : w ≠ []) (hmore : ∀ c, more.head? = some c → isIndent c = false) :
    l.On .line n ⟨.space, w, w⟩ more := by
  obtain ⟨c, w, rfl⟩ := List.exists_cons_of_ne_nil hne
  refine Reads.on h ?_ (oneLine_of_all rfl rfl hw)
  have hrun : (w ++ more).takeWhile isIndent = w := by
    rw [List.takeWhile_append_of_pos fun x hx => hw x (List.mem_cons_of_mem c hx)]
    cases more with
    | nil => simp
    | cons a more => simp [hmore a rfl]
  rw [List.cons_append, read?_indent (hw c (by simp)), hrun]

theorem On.depth_passSpace {x : Lexeme} (h : l.On .line n x more) (hx : x.kind = .space) :
    l.token.depth = indentDepth x.text ∧ l.passSpace.Reads .line n more := by
  have hs : l.token.kind = .space := h.kind.trans hx
  have hp : l.passSpace = l.next := if_pos hs
  rw [Token.depth, if_pos hs, h.text, hp]
  exact ⟨rfl, h.next⟩

/-- A blank line with its end is read as its row. -/
theorem Reads.readRow_blank (h : l.Reads .line n (w ++ (e ++ more)))
    (hw : ∀ c ∈ w, isIndent c = true) (he : Pattern.lineEnd (e ++ more) = some e) :
    l.kind ≠ .eof ∧
      l.readRow.value = .ok (if w = [] then .empty e else .blank (indentDepth w) (some e)) ∧
      l.readRow.lexer.Reads .line (n + 1) more := by
  by_cases hne : w = []
  · subst hne
    rw [List.nil_append] at h
    have hon := h.on_lineEnd he
    have hb : l.kind.breaksLine = true := by rw [hon.kind]; rfl
    refine ⟨by simp [hon.kind], ?_, ?_⟩
    · simp [readRow, hb, newline_of_lineEnd hon.kind, hon.matched]
    · simp only [readRow, hb, if_true]
      exact hon.next
  · have hmore : ∀ c, (e ++ more).head? = some c → isIndent c = false := by
      intro c hc
      exact isIndent_eq_false (p := isLineBreak) rfl rfl (afterLine_lineEnd he c hc)
    have hon := h.on_blanks hw hne hmore
    obtain ⟨hdepth, hpass⟩ := hon.depth_passSpace rfl
    have hend := hpass.on_lineEnd he
    have hb : l.kind.breaksLine = false := by rw [hon.kind]; rfl
    have hb' : l.passSpace.kind.breaksLine = true := by rw [hend.kind]; rfl
    have heof : l.passSpace.kind ≠ .eof := by simp [hend.kind]
    refine ⟨by simp [hon.kind], ?_, ?_⟩
    · simp [readRow, hb, hb', heof, hne, hdepth, newline_of_lineEnd hend.kind, hend.matched]
    · simp only [readRow, hb, hb', heof, if_true, if_false, Bool.false_eq_true]
      exact hend.next

/-- Blanks behind the last line end are read as a row without an end. -/
theorem Reads.readRow_last (h : l.Reads .line n w) (hw : ∀ c ∈ w, isIndent c = true)
    (hne : w ≠ []) :
    l.kind ≠ .eof ∧ l.readRow.value = .ok (.blank (indentDepth w) none) ∧
      l.readRow.lexer.kind = .eof := by
  have hon : l.On .line n ⟨.space, w, w⟩ [] := Reads.on_blanks (by simpa using h) hw hne (by simp)
  obtain ⟨hdepth, hpass⟩ := hon.depth_passSpace rfl
  have hb : l.kind.breaksLine = false := by rw [hon.kind]; rfl
  refine ⟨by simp [hon.kind], ?_, ?_⟩
  · simp [readRow, hb, hpass.kind_eof, hdepth]
  · simp only [readRow, hb, hpass.kind_eof, if_true, Bool.false_eq_true, if_false]

/-- A blank text is read as the rows of its lines. -/
theorem Reads.rows_blank (h : l.Reads .line n t) (ht : BlankText t) :
    l.rows = .ok (t.sourceLines.filterMap SourceLine.blankRow?) := by
  -- by the number of characters that are left; each line end is passed with its line
  induction hn : t.length using Nat.strong_induction_on generalizing l n t with
  | _ k ih =>
    obtain hone | ⟨w, e, more, rfl, hone, he⟩ := t.oneLine_or_exists_lineEnd
    · rw [Text.sourceLines_of_oneLine hone]
      by_cases hne : t = []
      · subst hne
        exact rows_of_eof h.kind_eof
      · obtain ⟨hk, hrow, heof⟩ := h.readRow_last (ht.isIndent hone) hne
        rw [rows, dif_neg hk, hrow, rows_of_eof heof]
        simp [SourceLine.blankRow?, hne, Except.map]
    · have hw : BlankText w := fun c hc => ht c (by simp [hc])
      have hmore : BlankText more := fun c hc => ht c (by simp [hc])
      have hproper : e ≠ [] := Pattern.lineEnd_proper _ _ he
      have hlt : more.length < k := by
        have := List.length_pos_iff.2 hproper
        simp only [List.length_append] at hn
        omega
      obtain ⟨hk, hrow, hreads⟩ := h.readRow_blank (hw.isIndent hone) he
      rw [rows, dif_neg hk, hrow, ih _ hlt hreads hmore rfl, Text.sourceLines_append hone he,
        List.filterMap_cons_some (SourceLine.blankRow?_append hproper)]
      rfl

end Lexer

/-- A blank template is compiled without a fault, with whatever filters and in either mode. Its
markup is that of its lines: each is indented to its depth and keeps its end. -/
theorem Template.compileWith_blank (name source : Text) (o : Options) (filters : FilterRegistry)
    (h : BlankText source) :
    Template.compileWith ⟨name, source⟩ o filters =
      .ok ⟨Script.preamble o.tolerant ++
        Script.literalCode (source.sourceLines.flatMap SourceLine.blankMarkup) ++
          Script.epilogue, []⟩ := by
  have hreads := Lexer.next_reads (Lexer.ofText source)
  have hrows := hreads.rows_blank h
  obtain ⟨events, hcompile, hwrites⟩ := compileRows_blankRows filters {} source.sourceLines
  obtain ⟨u, -, hrun⟩ := Template.compileWith_of_rows (t := ⟨name, source⟩) hrows hcompile
  obtain ⟨hinstructions, hcode⟩ := hrun o
  have hclose : ((({} : ElementStack).close 0 u).1) = [] := rfl
  rw [hcode, hinstructions, hclose, List.append_nil, Script.body_of_writes hwrites]

/-- Tabs and odd widths come to a whole depth, and the three line ends stay apart. -/
theorem Template.compileWith_blank_of_each_end :
    BlankText "  \n\t\n\r\n   \r\n   \r  ".toList ∧
      Template.compileWith ⟨[], "  \n\t\n\r\n   \r\n   \r  ".toList⟩ {} {} =
        .ok ⟨Script.preamble false ++
          Script.literalCode "  \n  \n\r\n    \r\n    \r".toList ++ Script.epilogue, []⟩ :=
  ⟨by decide, Template.compileWith_blank _ _ {} {} (by decide)⟩

end Haml
