import Haml.Proofs.RowFronts
import Haml.Proofs.SelfClosing

/-!
# White space around and inside tags

A tag may be marked to have no white space around it, or none just inside. What is pending when
such a tag starts or ends is trimmed, so there is never white space in front of it, or in front
of its end. What comes behind it is written by others, and not all of them look at the mark.
-/

namespace Haml

namespace Lexer

variable {l : Lexer} {depth : Nat} {head : TagHead} {contents : Contents}

/-- A tag that closes itself has nothing on its line. -/
theorem hasInlineContents_of_selfClosing (hv : (l.readTag depth).value = .ok head)
    (h : head.options.selfClosing = true) : (l.readTag depth).lexer.hasInlineContents = false := by
  obtain ⟨pairs, entries, hl, hh⟩ := ok_of_readTag hv
  rw [lexer_readTag hv]
  rw [readTag_of_ok depth hl hh] at hv
  by_contra hinline
  rw [Bool.not_eq_false] at hinline
  by_cases hmarked : l.tagMarks.1.selfClosing = true
  · rw [if_pos (by rw [hmarked, hinline]; rfl)] at hv
    cases hv
  · rw [if_neg (by simp [hmarked])] at hv
    cases hv
    simp [hasContents, hinline, hmarked] at h

theorem contents_of_selfClosing (hv : (l.readLine depth).value = .ok (.tag head contents))
    (h : head.options.selfClosing = true) : ∃ newline, contents = .text [] true 0 newline := by
  obtain ⟨ht, htag⟩ := tag_of_readLine hv
  have hends := hasInlineContents_of_selfClosing htag h
  rw [hasInlineContents_eq, Bool.not_eq_false'] at hends
  have hline : (l.readTag depth).lexer.passSpace.takeLine =
      ([], (l.readTag depth).lexer.passSpace) := if_pos hends
  have hexpression := announcesExpression_eq_false hends
  have hbang : (l.readTag depth).lexer.passSpace.kind ≠ .bang := by
    intro hb
    simp [endsLine, hb, Token.Kind.endsLine] at hends
  rw [readLine_tag ht htag] at hv
  simp only [readContents, readBody_eq, hexpression, hbang, hline, endText, hends,
    if_true, if_false, Bool.false_eq_true, Except.map] at hv
  cases hv
  exact ⟨_, rfl⟩

theorem readMatter_of_readRow {u : Upcoming} {m : Matter}
    (h : l.readRow.value = .ok (.written depth u m)) :
    (l.passSpace.readMatter depth).value = .ok m := by
  simp only [readRow] at h
  split at h
  · cases h
  · split at h
    · cases h
    · split at h
      · cases h
      · obtain ⟨m', hm⟩ := ok_of_map_ok h
        rw [hm] at h
        cases h
        exact hm

theorem readLine_of_readMatter {ps : List Probe} {x : Line}
    (h : (l.readMatter depth).value = .ok (.line ps x)) : (l.readLine depth).value = .ok x := by
  rw [readMatter] at h
  split at h
  · cases h
  · obtain ⟨x', hx⟩ := ok_of_map_ok h
    simp only [hx, Except.map] at h
    cases h
    exact hx

/-- What stands on a row was read as a line. -/
theorem exists_readLine_of_mem_rows {rows : List Row} (h : l.rows = .ok rows) {u : Upcoming}
    {ps : List Probe} {x : Line} (hmem : .written depth u (.line ps x) ∈ rows) :
    ∃ l' : Lexer, (l'.readLine depth).value = .ok x := by
  fun_induction Lexer.rows l generalizing rows with
  | case1 l hl =>
    cases h
    cases hmem
  | case2 => cases h
  | case3 l hl row hr ih =>
    obtain ⟨more, hmore⟩ := ok_of_map_ok h
    rw [hmore] at h
    cases h
    rcases List.mem_cons.1 hmem with rfl | hmem
    · exact ⟨l.passSpace, readLine_of_readMatter (readMatter_of_readRow hr)⟩
    · exact ih hmore hmem

end Lexer

namespace TagHead

def endTag (head : TagHead) : Text :=
  if head.options.selfClosing then "/>" else "</" ++ head.name ++ ">"

def mark (head : TagHead) : Text := if head.options.selfClosing then "/>" else ">"

def gap (head : TagHead) : Text :=
  if if head.options.selfClosing then head.options.outer else head.options.inner then "\n" else []

theorem endsWhite_mark (head : TagHead) (s : List Sign) :
    Sign.endsWhite (s ++ head.mark.signs) = false := by
  rw [mark]
  split
  · exact Sign.endsWhite_append rfl s ['/']
  · exact Sign.endsWhite_append rfl s []

theorem endsWhite_endTag (head : TagHead) (s : List Sign) :
    Sign.endsWhite (s ++ head.endTag.signs) = false := by
  rw [endTag]
  split
  · exact Sign.endsWhite_append rfl s ['/']
  · exact Sign.endsWhite_append rfl s _

/-- The signs in front of the name of a tag that starts behind `s`. -/
def lead (head : TagHead) (depth : Nat) (framed : Bool) (s : List Sign) : List Sign :=
  if head.options.outer then
    s ++ if 0 < depth && framed then (Text.indentation depth).signs else []
  else Sign.trim s

/-- The attributes of a tag are a text or a place of code. -/
theorem drawAll_attributes (head : TagHead) (k : Nat) :
    ∃ attributes, ∀ (s : List Sign) (is : List Instruction),
      Stroke.drawAll s (Script.strokes k (head.attributeInstruction :: is)) =
        Stroke.drawAll (s ++ attributes) (Script.strokes k is) := by
  rw [attributeInstruction]
  split
  · refine ⟨[.code], fun s is => ?_⟩
    have hne : (Script.dynamicAttributes head.attributes head.point).isEmpty = false := by
      simp [Script.dynamicAttributes_ne_nil]
    have hdraw : Stroke.draw s (.write (Script.dynamicAttributes head.attributes head.point)) =
        s ++ [.code] := by
      rw [Stroke.draw, hne]
      rfl
    rw [← hdraw]
    rfl
  · exact ⟨_, fun s is => rfl⟩

theorem drawAll_lead (head : TagHead) (k depth : Nat) (framed : Bool) (s : List Sign)
    (is : List Instruction) :
    Stroke.drawAll s (Script.strokes k ((if head.options.outer then [] else [.trimMarkup]) ++
        (if 0 < depth && head.options.outer && framed then [.markup (Text.indentation depth)]
          else []) ++ is)) =
      Stroke.drawAll (head.lead depth framed s) (Script.strokes k is) := by
  rw [lead]
  cases head.options.outer with
  | false =>
    simp only [Bool.and_false, Bool.false_and, Bool.false_eq_true, if_false, List.append_nil]
    rfl
  | true =>
    simp only [if_true, Bool.and_true, List.nil_append]
    split
    · rfl
    · rw [List.nil_append, List.append_nil]

/-- What opens a tag: nothing is trimmed from its name on. -/
theorem drawAll_opening (head : TagHead) (k depth : Nat) (framed : Bool) (s : List Sign) :
    ∃ attributes, Stroke.drawAll s (Script.strokes k (head.opening depth framed)) =
      head.lead depth framed s ++ Text.signs ("<" ++ head.name) ++ attributes ++
        head.mark.signs ++ head.gap.signs := by
  obtain ⟨attributes, hattributes⟩ := head.drawAll_attributes k
  have hmarkup (s : List Sign) (t : Text) (is : List Instruction) :
      Stroke.drawAll s (Script.strokes k (.markup t :: is)) =
        Stroke.drawAll (s ++ t.signs) (Script.strokes k is) := rfl
  have hend (s : List Sign) (t : Text) (b : Bool) :
      Stroke.drawAll s (Script.strokes k (.markup t :: if b then [.markup "\n"] else [])) =
        s ++ t.signs ++ Text.signs (if b then "\n" else []) := by
    rw [hmarkup]
    cases b with
    | false => exact (List.append_nil _).symm
    | true => rfl
  refine ⟨attributes, ?_⟩
  rw [opening, List.append_assoc, drawAll_lead, List.cons_append, hmarkup, List.cons_append,
    hattributes, List.nil_append, mark, gap]
  split
  · exact hend _ _ _
  · exact hend _ _ _

theorem depthBehind_opening (head : TagHead) (k depth : Nat) (framed : Bool) :
    (head.opening depth framed).foldl Instruction.depthBehind k = k := by
  have hattribute : Instruction.depthBehind k head.attributeInstruction = k := by
    rw [attributeInstruction]
    split <;> rfl
  have hmarkup (t : Text) : Instruction.depthBehind k (.markup t) = k := rfl
  have htrim : Instruction.depthBehind k .trimMarkup = k := rfl
  cases ho : head.options.outer <;> cases hi : head.options.inner <;>
    simp [opening, ho, hi, apply_ite (List.foldl _ _), hmarkup, htrim, hattribute]

end TagHead

structure PlacedTag where
  done : List Row
  depth : Nat
  upcoming : Upcoming
  probes : List Probe
  head : TagHead
  contents : Contents
  rest : List Row

namespace PlacedTag

def row (p : PlacedTag) : Row :=
  .written p.depth p.upcoming (.line p.probes (.tag p.head p.contents))

def rows (p : PlacedTag) : List Row := p.done ++ p.row :: p.rest

def around (p : PlacedTag) : ElementStack :=
  ((rowsBehind {} p.done).close p.depth p.upcoming).2

/-- What is open behind the row of the tag. -/
def within (p : PlacedTag) : ElementStack := p.row.stackBehind (rowsBehind {} p.done)

/-- The rows that belong to the tag: those that are deeper, unless it closes itself. -/
def block (p : PlacedTag) : List Row :=
  if p.head.options.selfClosing then [] else p.rest.takeWhile (·.staysWithin p.depth)

def beyond (p : PlacedTag) : List Row :=
  if p.head.options.selfClosing then p.rest else p.rest.dropWhile (·.staysWithin p.depth)

def upToEnd (p : PlacedTag) : List Row := p.done ++ p.row :: p.block

variable (p : PlacedTag)

theorem upToEnd_append_beyond : p.upToEnd ++ p.beyond = p.rows := by
  rw [upToEnd, rows, List.append_assoc, List.cons_append, block, beyond]
  split
  · rfl
  · rw [List.takeWhile_append_dropWhile]

theorem rowsBehind_upToEnd : rowsBehind {} p.upToEnd = rowsBehind p.within p.block := by
  rw [upToEnd, rowsBehind_append]
  rfl

theorem within_of_selfClosing (h : p.head.options.selfClosing = true) : p.within = p.around := by
  simp [within, around, row, Row.stackBehind, Matter.element?, Line.element?, TagHead.element?, h]

theorem within_of_not_selfClosing (h : p.head.options.selfClosing = false) :
    p.within = p.around.set p.depth (.tag p.head.name p.head.options) := by
  simp [within, around, row, Row.stackBehind, Matter.element?, Line.element?, TagHead.element?, h]

/-- Up to its end, a tag that does not close itself stays open. -/
theorem get?_upToEnd (h : p.head.options.selfClosing = false) {i : Nat} (hi : i ≤ p.depth) :
    (rowsBehind {} p.upToEnd).get? i =
      if i = p.depth then some (.tag p.head.name p.head.options) else p.around.get? i := by
  have hblock : ∀ r ∈ p.block, r.staysWithin p.depth = true := by
    intro r hr
    rw [block, h] at hr
    exact List.mem_takeWhile_imp hr
  rw [rowsBehind_upToEnd, get?_rowsBehind hblock hi, p.within_of_not_selfClosing h,
    ElementStack.get?_set]

/-- Nothing is open at the depth of a tag when it starts. -/
theorem closingStrokes_around : p.around.closingStrokes p.depth = [] := by
  have hnone : p.around.openFrom p.depth = [] :=
    ElementStack.openFrom_eq_nil fun i hi => by
      rw [around, ElementStack.get?_close, if_neg (by omega)]
  rw [ElementStack.closingStrokes, hnone]
  rfl

/-- Behind the end of a tag there is open what was open around it. -/
theorem endingStrokes_beyond :
    endingStrokes (rowsBehind {} p.upToEnd) p.beyond =
      (rowsBehind {} p.upToEnd).closingStrokes p.depth ++ endingStrokes p.around p.beyond := by
  cases h : p.head.options.selfClosing with
  | true =>
    have hstack : rowsBehind {} p.upToEnd = p.around := by
      rw [rowsBehind_upToEnd, block, h, p.within_of_selfClosing h]
      rfl
    rw [hstack, closingStrokes_around]
    rfl
  | false =>
    have hhead : ∀ r, p.beyond.head? = some r → r.staysWithin p.depth = false := by
      intro r hr
      simp only [beyond, h, Bool.false_eq_true, if_false] at hr
      have hnot := List.head?_dropWhile_not (fun r => Row.staysWithin p.depth r) p.rest
      rw [hr] at hnot
      exact hnot
    have hsame : ((rowsBehind {} p.upToEnd).close p.depth p.upcoming).2.Same p.around := by
      intro i
      rw [ElementStack.get?_close]
      by_cases hi : i < p.depth
      · rw [if_pos hi, p.get?_upToEnd h (Nat.le_of_lt hi), if_neg (by omega)]
      · rw [if_neg hi, around, ElementStack.get?_close, if_neg hi]
    rw [endingStrokes_close _ hhead p.upcoming, endingStrokes_of_same hsame]

/-- The output of the template is what is written up to the end of the tag, and what comes
behind. -/
theorem sheet_upToEnd (tolerant : Bool) :
    sheet tolerant p.rows 0 =
      Stroke.drawAll (sheet tolerant p.upToEnd p.depth) (endingStrokes p.around p.beyond) := by
  have hending (rows : List Row) : sheet tolerant rows 0 =
      Stroke.drawAll [] (.write (Script.preamble tolerant) :: endingStrokes {} rows) := rfl
  rw [hending, ← upToEnd_append_beyond, endingStrokes_append, endingStrokes_beyond, sheet,
    ← Stroke.drawAll_append, List.cons_append, List.append_assoc]

/-- The row of the tag comes behind what is written in front of it. -/
theorem sheet_row (tolerant : Bool) (rows : List Row) (d : Nat) :
    sheet tolerant (p.done ++ p.row :: rows) d =
      Stroke.drawAll (sheet tolerant p.done p.depth)
        (Script.strokes p.depth ((Line.tag p.head p.contents).instructions p.depth
            ((rowsBehind {} p.done).framesLines p.depth)) ++
          (rowsStrokes p.within rows ++ (rowsBehind p.within rows).closingStrokes d)) := by
  have hbehind : rowsBehind {} (p.done ++ p.row :: rows) = rowsBehind p.within rows := by
    rw [rowsBehind_append]
    rfl
  have hstrokes : rowsStrokes {} (p.done ++ p.row :: rows) =
      rowsStrokes {} p.done ++ (p.row.strokes (rowsBehind {} p.done) ++
        rowsStrokes p.within rows) := rowsStrokes_append {} p.done _
  rw [sheet, hbehind, hstrokes, sheet, ← Stroke.drawAll_append]
  simp only [row, Row.strokes, Matter.strokes, List.append_assoc, List.cons_append]

variable {p}

/-- A tag that does not close itself is closed behind everything in it. -/
theorem sheet_end (h : p.head.options.selfClosing = false) (tolerant : Bool) :
    ∃ framed, sheet tolerant p.upToEnd p.depth =
      Stroke.drawAll (sheet tolerant p.upToEnd (p.depth + 1))
        (Script.strokes p.depth ((Element.tag p.head.name p.head.options).closing p.depth framed
          .anything)) := by
  have hopen : (rowsBehind {} p.upToEnd).get? p.depth =
      some (.tag p.head.name p.head.options) := by
    rw [p.get?_upToEnd h (Nat.le_refl _), if_pos rfl]
  refine ⟨(rowsBehind {} p.upToEnd).framesLines p.depth, ?_⟩
  rw [sheet, ElementStack.closingStrokes_of_get? hopen, ← List.append_assoc, ← List.cons_append,
    Stroke.drawAll_append, ← sheet]

/-- The tag is opened: what is written up to its mark is no longer touched. -/
theorem sheet_opening (tolerant : Bool) :
    ∃ attributes,
      let opened := p.head.lead p.depth ((rowsBehind {} p.done).framesLines p.depth)
          (sheet tolerant p.done p.depth) ++
        Text.signs ("<" ++ p.head.name) ++ attributes ++ p.head.mark.signs
      opened ++ p.head.gap.signs = Stroke.drawAll (sheet tolerant p.done p.depth)
          (Script.strokes p.depth
            (p.head.opening p.depth ((rowsBehind {} p.done).framesLines p.depth))) ∧
        sheet tolerant p.rows 0 = opened ++ Stroke.drawAll p.head.gap.signs
          (Script.strokes p.depth
              (p.contents.insideTag p.depth p.head.options.inner p.head.point) ++
            endingStrokes p.within p.rest) := by
  obtain ⟨attributes, hopening⟩ := p.head.drawAll_opening p.depth p.depth
    ((rowsBehind {} p.done).framesLines p.depth) (sheet tolerant p.done p.depth)
  refine ⟨attributes, hopening.symm, ?_⟩
  rw [rows, sheet_row, Line.instructions, Script.strokes_append, List.append_assoc,
    Stroke.drawAll_append, hopening, Stroke.drawAll_behind (p.head.endsWhite_mark _),
    p.head.depthBehind_opening]
  rfl

/-- The end of a tag without white space around it is the last thing written up to it. -/
theorem sheet_endTag (houter : p.head.options.outer = false)
    (hcontents : p.head.options.selfClosing = true →
      ∃ newline, p.contents = .text [] true 0 newline) (tolerant : Bool) :
    ∃ front, sheet tolerant p.upToEnd p.depth = front ++ p.head.endTag.signs := by
  cases h : p.head.options.selfClosing with
  | true =>
    obtain ⟨newline, hempty⟩ := hcontents h
    obtain ⟨attributes, hopening⟩ := p.head.drawAll_opening p.depth p.depth
      ((rowsBehind {} p.done).framesLines p.depth) (sheet tolerant p.done p.depth)
    have hinside : p.contents.insideTag p.depth p.head.options.inner p.head.point = [] := by
      rw [hempty]
      rfl
    have hbehind : (rowsBehind p.within []).closingStrokes p.depth = [] := by
      rw [← p.closingStrokes_around, ← p.within_of_selfClosing h]
      rfl
    have hgap : p.head.gap.signs = [] := by simp [TagHead.gap, h, houter, Text.signs]
    have hmark : p.head.endTag = p.head.mark := by simp [TagHead.endTag, TagHead.mark, h]
    rw [upToEnd, block, if_pos h, sheet_row, Line.instructions, hinside, hbehind, List.append_nil,
      rowsStrokes, List.append_nil, List.append_nil, hopening, hgap, List.append_nil, hmark]
    exact ⟨_, rfl⟩
  | false =>
    obtain ⟨framed, hend⟩ := sheet_end h tolerant
    have hclosing : (Element.tag p.head.name p.head.options).closing p.depth framed .anything =
        (if p.head.options.inner then [.markup (Text.indentation p.depth)] else [.trimMarkup]) ++
          [.markup p.head.endTag] := by
      simp [Element.closing, houter, TagHead.endTag, h]
    rw [hend, hclosing, Script.strokes_append, Stroke.drawAll_append]
    exact ⟨_, rfl⟩

/-- The end of a tag without white space just inside is written behind visible signs. -/
theorem sheet_trimmedEnd (hinner : p.head.options.inner = false)
    (hopen : p.head.options.selfClosing = false) (tolerant : Bool) :
    ∃ newline : Text, sheet tolerant p.upToEnd p.depth =
      Sign.trim (sheet tolerant p.upToEnd (p.depth + 1)) ++ p.head.endTag.signs ++
        newline.signs := by
  obtain ⟨framed, hend⟩ := sheet_end hopen tolerant
  have hclosing : (Element.tag p.head.name p.head.options).closing p.depth framed .anything =
      .trimMarkup :: .markup p.head.endTag ::
        if p.head.options.outer && framed then [.markup "\n"] else [] := by
    simp [Element.closing, hinner, TagHead.endTag, hopen]
  rw [hend, hclosing]
  split
  · exact ⟨"\n", rfl⟩
  · exact ⟨[], (List.append_nil _).symm⟩

/-- White space around a tag that is marked to have none. There is none in front of the tag.
Behind its end there is some exactly if what comes next starts with some: the end of an element
around the tag, or the next row, each with its own indentation. -/
theorem white_space_around {t : Template} (p : PlacedTag)
    (h : (Lexer.ofText t.source).next.rows = .ok p.rows)
    (hmarkup : ∀ r ∈ p.rows, r.isMarkup = true) (houter : p.head.options.outer = false)
    (o : Options) (filters : FilterRegistry) :
    let output := (t.run o filters).instructions
    t.compileWith o filters =
        .ok ⟨Chunk.allCode Script.pushLiteral (Script.chunks output), []⟩ ∧
      (∃ front behind,
        Script.signs output = front ++ Text.signs ("<" ++ p.head.name) ++ behind ∧
        front = Sign.trim (sheet o.tolerant p.done p.depth) ∧ Sign.endsWhite front = false) ∧
      ∃ front behind,
        Script.signs output = front ++ p.head.endTag.signs ++ behind ∧
        front ++ p.head.endTag.signs = sheet o.tolerant p.upToEnd p.depth ∧
        Sign.startsWhite behind = (endingFront p.around {} p.beyond).white := by
  obtain ⟨hcode, hsigns⟩ := Template.compileWith_of_isMarkup h hmarkup o filters
  refine ⟨hcode, ?_, ?_⟩
  · obtain ⟨attributes, -, hopening⟩ := sheet_opening (p := p) o.tolerant
    have hlead (framed : Bool) (s : List Sign) : p.head.lead p.depth framed s = Sign.trim s := by
      simp [TagHead.lead, houter]
    have happend (a b c d e : List Sign) :
        a ++ b ++ c ++ d ++ e ++ [.code] = a ++ b ++ (c ++ d ++ e ++ [.code]) := by
      simp only [List.append_assoc]
    rw [hsigns, hopening, hlead]
    exact ⟨_, _, happend _ _ _ _ _, rfl, Sign.endsWhite_trim _⟩
  · have hcontents (hs : p.head.options.selfClosing = true) :
        ∃ newline, p.contents = .text [] true 0 newline := by
      have hmem : p.row ∈ p.rows := by simp [rows]
      obtain ⟨l, hl⟩ := Lexer.exists_readLine_of_mem_rows h hmem
      exact Lexer.contents_of_selfClosing hl hs
    obtain ⟨front, hfront⟩ := sheet_endTag houter hcontents o.tolerant
    have hbeyond : ∀ r ∈ p.beyond, r.isMarkup = true := by
      intro r hr
      apply hmarkup
      rw [← p.upToEnd_append_beyond]
      exact List.mem_append_right _ hr
    have hbehind : sheet o.tolerant p.rows 0 = front ++ p.head.endTag.signs ++
        Stroke.drawAll [] (endingStrokes p.around p.beyond) := by
      rw [sheet_upToEnd, hfront, ← Stroke.drawAll_behind (p.head.endsWhite_endTag front),
        List.append_nil]
    refine ⟨front, Stroke.drawAll [] (endingStrokes p.around p.beyond) ++ [.code], ?_, hfront.symm,
      ?_⟩
    · rw [hsigns, hbehind, List.append_assoc]
    · rw [Front.startsWhite_drawAll, strokes_endingStrokes _ hbeyond]
      rfl

/-- The item of a list that is marked has the indentation of the next one behind it. -/
theorem white_space_around_item :
    let t : Template := ⟨"a", "%ul\n  %li> a\n  %li b\n"⟩
    ∃ p : PlacedTag, (Lexer.ofText t.source).next.rows = .ok p.rows ∧
      (∀ r ∈ p.rows, r.isMarkup = true) ∧ p.head.options.outer = false ∧
      let output := (t.run {} .builtin).instructions
      t.compileWith {} .builtin =
          .ok ⟨Chunk.allCode Script.pushLiteral (Script.chunks output), []⟩ ∧
        (∃ front behind, Script.signs output = front ++ Text.signs "<li" ++ behind ∧
          Sign.endsWhite front = false) ∧
        ∃ front behind, Script.signs output = front ++ Text.signs "</li>" ++ behind ∧
          front ++ Text.signs "</li>" = sheet false p.upToEnd 1 ∧
          Sign.startsWhite behind = true := by
  intro t
  let list : Row := .written 0 ⟨.element, 3, "\n  %li> a\n  %li b\n"⟩
    (.line [] (.tag ⟨"ul", {}, {}, ⟨2, 0, "  %li> a"⟩⟩ (.text [] true 0 "\n")))
  let next : Row := .written 1 ⟨.element, 18, " b\n"⟩
    (.line [] (.tag ⟨"li", {}, {}, ⟨3, 6, "  %li b"⟩⟩ (.text "b" true 0 "\n")))
  let item : PlacedTag :=
    { done := [list]
      depth := 1
      upcoming := ⟨.element, 9, "> a\n  %li b\n"⟩
      probes := []
      head := ⟨"li", {}, { outer := false }, ⟨2, 6, "  %li> a"⟩⟩
      contents := .text "a" true 0 "\n"
      rest := [next] }
  have hrows : (Lexer.ofText t.source).next.rows = .ok item.rows := by decide +kernel
  have hmarkup : ∀ r ∈ item.rows, r.isMarkup = true := by decide +kernel
  have hwhite : (endingFront item.around {} item.beyond).white = true := by decide +kernel
  obtain ⟨hcode, ⟨front, behind, hstart, -, hfront⟩, front', behind', hend, hsheet, hbehind⟩ :=
    white_space_around item hrows hmarkup rfl {} .builtin
  exact ⟨item, hrows, hmarkup, rfl, hcode, ⟨front, behind, hstart, hfront⟩, front', behind',
    hend, hsheet, hbehind.trans hwhite⟩

/-- The second item of a list keeps its indentation behind a first one that is marked to have no
white space around it. -/
theorem indentation_behind_item :
    Template.compileWith ⟨"a", "%ul\n  %li> a\n  %li b\n"⟩ {} .builtin =
      .ok ⟨Script.preamble false ++
        Script.pushLiteral ("<ul><li>\n    a\n  </li>" ++ "  <li>\n    b\n  </li>\n</ul>\n") ++
          Script.epilogue, []⟩ := by
  decide +kernel

/-- White space just inside a tag that is marked to have none. There is none in front of its end.
Behind its head there is some exactly if its contents and the rows behind it start with some. A
text or a tag right inside it is written without its indentation; escaped text and comments are
indented all the same, and so is everything that is deeper by more than one level. -/
theorem white_space_inside {t : Template} (p : PlacedTag)
    (h : (Lexer.ofText t.source).next.rows = .ok p.rows)
    (hmarkup : ∀ r ∈ p.rows, r.isMarkup = true) (hinner : p.head.options.inner = false)
    (hopen : p.head.options.selfClosing = false) (o : Options) (filters : FilterRegistry) :
    let output := (t.run o filters).instructions
    t.compileWith o filters =
        .ok ⟨Chunk.allCode Script.pushLiteral (Script.chunks output), []⟩ ∧
      (∃ front behind,
        Script.signs output = front ++ Text.signs ">" ++ behind ∧
        front ++ Text.signs ">" = Stroke.drawAll (sheet o.tolerant p.done p.depth)
          (Script.strokes p.depth
            (p.head.opening p.depth ((rowsBehind {} p.done).framesLines p.depth))) ∧
        Sign.startsWhite behind =
          (endingFront p.within (p.contents.front p.depth false {}) p.rest).white) ∧
      ∃ front behind,
        Script.signs output = front ++ Text.signs ("</" ++ p.head.name ++ ">") ++ behind ∧
        front = Sign.trim (sheet o.tolerant p.upToEnd (p.depth + 1)) ∧
        Sign.endsWhite front = false := by
  obtain ⟨hcode, hsigns⟩ := Template.compileWith_of_isMarkup h hmarkup o filters
  refine ⟨hcode, ?_, ?_⟩
  · have hmark : p.head.mark = ">" := by simp [TagHead.mark, hopen]
    have hgap : p.head.gap.signs = [] := by simp [TagHead.gap, hopen, hinner, Text.signs]
    have hrest : ∀ r ∈ p.rest, r.isMarkup = true := by
      intro r hr
      exact hmarkup r (List.mem_append_right _ (List.mem_cons_of_mem _ hr))
    obtain ⟨attributes, hopening, hsheet⟩ := sheet_opening (p := p) o.tolerant
    rw [hgap, List.append_nil, hmark] at hopening
    rw [hgap, hmark] at hsheet
    rw [hsheet, List.append_assoc] at hsigns
    refine ⟨_, _, hsigns, hopening, ?_⟩
    rw [Front.startsWhite_drawAll, Front.strokes_append, Contents.strokes_insideTag,
      strokes_endingStrokes _ hrest, hinner]
    rfl
  · obtain ⟨newline, hend⟩ := sheet_trimmedEnd hinner hopen o.tolerant
    have hendTag : p.head.endTag = "</" ++ p.head.name ++ ">" := by simp [TagHead.endTag, hopen]
    rw [sheet_upToEnd, hend, Stroke.drawAll_behind (p.head.endsWhite_endTag _), hendTag,
      List.append_assoc] at hsigns
    exact ⟨_, _, hsigns, rfl, Sign.endsWhite_trim _⟩

/-- Escaped text is indented although the tag around it is marked. -/
theorem white_space_inside_paragraph :
    let t : Template := ⟨"a", "%p<\n  & x\n"⟩
    ∃ p : PlacedTag, (Lexer.ofText t.source).next.rows = .ok p.rows ∧
      (∀ r ∈ p.rows, r.isMarkup = true) ∧ p.head.options.inner = false ∧
      p.head.options.selfClosing = false ∧
      let output := (t.run {} .builtin).instructions
      t.compileWith {} .builtin =
          .ok ⟨Chunk.allCode Script.pushLiteral (Script.chunks output), []⟩ ∧
        (∃ front behind, Script.signs output = front ++ Text.signs ">" ++ behind ∧
          front ++ Text.signs ">" = [.code] ++ Text.signs "<p>" ∧
          Sign.startsWhite behind = true) ∧
        ∃ front behind, Script.signs output = front ++ Text.signs "</p>" ++ behind ∧
          Sign.endsWhite front = false := by
  intro t
  let text : Row := .written 1 ⟨.ampersand, 7, " x\n"⟩
    (.line [] (.escaped "x" ⟨2, 3, "  & x"⟩ "\n"))
  let paragraph : PlacedTag :=
    { done := []
      depth := 0
      upcoming := ⟨.element, 2, "<\n  & x\n"⟩
      probes := []
      head := ⟨"p", {}, { inner := false }, ⟨1, 3, "%p<"⟩⟩
      contents := .text [] true 0 "\n"
      rest := [text] }
  have hrows : (Lexer.ofText t.source).next.rows = .ok paragraph.rows := by decide +kernel
  have hmarkup : ∀ r ∈ paragraph.rows, r.isMarkup = true := by decide +kernel
  have hwhite : (endingFront paragraph.within (paragraph.contents.front paragraph.depth false {})
      paragraph.rest).white = true := by decide +kernel
  have hopened : Stroke.drawAll (sheet false paragraph.done paragraph.depth)
      (Script.strokes paragraph.depth (paragraph.head.opening paragraph.depth
        ((rowsBehind {} paragraph.done).framesLines paragraph.depth))) =
      [.code] ++ Text.signs "<p>" := by decide +kernel
  obtain ⟨hcode, ⟨front, behind, hstart, hfront, hbehind⟩, front', behind', hend, -, hlast⟩ :=
    white_space_inside paragraph hrows hmarkup rfl rfl {} .builtin
  exact ⟨paragraph, hrows, hmarkup, rfl, rfl, hcode,
    ⟨front, behind, hstart, hfront.trans hopened, hbehind.trans hwhite⟩, front', behind', hend,
    hlast⟩

/-- Escaped text and comments keep their indentation behind the head of a tag that is marked to
have no white space just inside. -/
theorem indentation_inside_paragraph :
    Template.compileWith ⟨"a", "%p<\n  & x\n"⟩ {} .builtin =
        .ok ⟨Script.preamble false ++ Script.pushLiteral ("<p>" ++ "  x</p>\n") ++
          Script.epilogue, []⟩ ∧
      Template.compileWith ⟨"a", "%p<\n  / x\n"⟩ {} .builtin =
        .ok ⟨Script.preamble false ++ Script.pushLiteral ("<p>" ++ "  <!-- x  --></p>\n") ++
          Script.epilogue, []⟩ := by
  decide +kernel

end PlacedTag

end Haml
