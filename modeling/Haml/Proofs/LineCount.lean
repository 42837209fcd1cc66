import Haml.Expression
import Haml.Proofs.CursorPlace
import Haml.Proofs.LineTokens

/-!
# Lines and columns

The line and the column of a cursor are a function of the text behind it: whatever
is asked of a lexer, and in whatever order, they are what counting the line ends of
that text gives. The same holds of the places of the tokens that are scanned.
-/

namespace Haml

theorem Unsplit.of_cons {c : Char} {m r : Text} (h : Unsplit (c :: m) r) : Unsplit m r := by
  by_cases hm : m = []
  · rw [hm]
    exact unsplit_of_getLast? (by decide) r
  · exact h.tail hm

/-- A character is followed by the line feed of its line end only within the text. -/
theorem Unsplit.head {c : Char} {m r : Text} (h : Unsplit (c :: m) r)
    (hcrlf : ∀ u, c = '\r' → m = '\n' :: u → False) : Unsplit [c] (m ++ r) := by
  rintro ⟨hl, hh⟩
  obtain rfl : c = '\r' := by simpa using hl
  cases m with
  | nil => exact h ⟨rfl, hh⟩
  | cons a m =>
    obtain rfl : a = '\n' := by simpa using hh
    exact hcrlf m rfl rfl

namespace Text

def lineEnds : Text → Nat
  | [] => 0
  | '\r' :: '\n' :: t => lineEnds t + 1
  | c :: t => lineEnds t + if isLineBreak c then 1 else 0

/-- What stands behind the last line end of a text. -/
def openLine (t : Text) : Text := (t.reverse.takeWhile fun c => !isLineBreak c).reverse

def firstLine (t : Text) : Text := t.takeWhile fun c => !isLineBreak c

def lines : Text → List Text
  | [] => [[]]
  | '\r' :: '\n' :: t => [] :: lines t
  | c :: t => if isLineBreak c then [] :: lines t else (lines t).modifyHead (c :: ·)

theorem lineEnds_cons {c : Char} {t : Text} (h : Unsplit [c] t) :
    lineEnds (c :: t) = lineEnds t + if isLineBreak c then 1 else 0 := by
  rw [lineEnds.eq_def]
  split
  · contradiction
  · rename_i heq
    obtain ⟨rfl, rfl⟩ := List.cons.inj heq
    exact absurd ⟨rfl, rfl⟩ h
  · rename_i heq
    obtain ⟨rfl, rfl⟩ := List.cons.inj heq
    rfl

theorem lines_cons {c : Char} {t : Text} (h : Unsplit [c] t) :
    lines (c :: t) =
      if isLineBreak c then [] :: lines t else (lines t).modifyHead (c :: ·) := by
  rw [lines.eq_def]
  split
  · contradiction
  · rename_i heq
    obtain ⟨rfl, rfl⟩ := List.cons.inj heq
    exact absurd ⟨rfl, rfl⟩ h
  · rename_i heq
    obtain ⟨rfl, rfl⟩ := List.cons.inj heq
    rfl

theorem lineEnds_append {s t : Text} (h : Unsplit s t) :
    lineEnds (s ++ t) = lineEnds s + lineEnds t := by
  fun_induction lineEnds s with
  | case1 => rw [List.nil_append, Nat.zero_add]
  | case2 s ih =>
    change lineEnds (s ++ t) + 1 = _
    rw [ih h.of_cons.of_cons]
    omega
  | case3 c s hcrlf ih =>
    rw [List.cons_append, lineEnds_cons (h.head hcrlf), ih h.of_cons]
    omega

theorem lineEnds_eq_zero_iff {t : Text} : lineEnds t = 0 ↔ OneLine t := by
  fun_induction lineEnds t with
  | case1 => simp [OneLine]
  | case2 t => simp [OneLine, isLineBreak]
  | case3 c t _ ih => cases hc : isLineBreak c <;> simp_all [OneLine]

/-- A text is open from its last line end on. -/
theorem openLine_append (s t : Text) :
    openLine (s ++ t) = if OneLine t then openLine s ++ t else openLine t := by
  have hiff : (t.reverse.takeWhile fun c => !isLineBreak c).length = t.reverse.length ↔
      OneLine t := by
    constructor
    · intro hlength c hc
      have hself := (List.takeWhile_prefix fun c => !isLineBreak c).eq_of_length hlength
      rw [← List.mem_reverse, ← hself] at hc
      simpa using List.mem_takeWhile_imp hc
    · intro ht
      rw [List.takeWhile_eq_self_iff.2]
      intro c hc
      simp [ht c (List.mem_reverse.1 hc)]
  simp only [openLine, List.reverse_append, List.takeWhile_append, hiff]
  split <;> simp

theorem openLine_of_oneLine {t : Text} (h : OneLine t) : openLine t = t := by
  have happend := openLine_append [] t
  rw [if_pos h] at happend
  exact happend

theorem openLine_cons_lineBreak {c : Char} (h : isLineBreak c = true) (t : Text) :
    openLine (c :: t) = openLine t := by
  have hopen : openLine [c] = [] := by simp [openLine, h]
  rw [← List.singleton_append, openLine_append, hopen]
  split
  · rename_i ht
    exact (openLine_of_oneLine ht).symm
  · rfl

theorem exists_lines (t : Text) : ∃ ls, lines t = firstLine t :: ls := by
  fun_induction lines t with
  | case1 => exact ⟨[], rfl⟩
  | case2 t => exact ⟨lines t, rfl⟩
  | case3 c t _ hc => exact ⟨lines t, by simp [firstLine, hc]⟩
  | case4 c t _ hc ih =>
    obtain ⟨ls, h⟩ := ih
    exact ⟨ls, by simp [h, firstLine, hc]⟩

/-- What follows a text goes on with the line whose number is the count of line ends
in the text. -/
theorem getElem?_lines_append {s t : Text} (h : Unsplit s t) :
    (lines (s ++ t))[lineEnds s]? = some (openLine s ++ firstLine t) := by
  fun_induction lineEnds s with
  | case1 =>
    obtain ⟨ls, hls⟩ := exists_lines t
    rw [List.nil_append, hls]
    rfl
  | case2 s ih =>
    rw [openLine_cons_lineBreak rfl, openLine_cons_lineBreak rfl]
    exact ih h.of_cons.of_cons
  | case3 c s hcrlf ih =>
    have hline := ih h.of_cons
    rw [List.cons_append, lines_cons (h.head hcrlf)]
    cases hb : isLineBreak c with
    | true =>
      rw [openLine_cons_lineBreak hb]
      exact hline
    | false =>
      obtain ⟨ls, hls⟩ := exists_lines (s ++ t)
      simp only [Bool.false_eq_true, if_false, Nat.add_zero, hls, List.modifyHead_cons] at hline ⊢
      rw [← List.singleton_append (l := s), openLine_append]
      -- The character belongs to the line behind the text if no line end parts them.
      by_cases hs : OneLine s
      · rw [if_pos hs, lineEnds_eq_zero_iff.2 hs]
        rw [openLine_of_oneLine hs, lineEnds_eq_zero_iff.2 hs] at hline
        have hc : openLine [c] = [c] := by simp [openLine, hb]
        rw [hc]
        simpa using hline
      · rw [if_neg hs]
        obtain ⟨n, hn⟩ := Nat.exists_eq_succ_of_ne_zero (mt lineEnds_eq_zero_iff.1 hs)
        rw [hn] at hline ⊢
        exact hline

end Text

namespace Cursor

variable {source : Text} {c : Cursor}

/-- The cursor behind `before`, with `rest` left to read: everything else about it is
counted from these two texts. -/
def counted (before rest : Text) : Cursor where
  source := before ++ rest
  position := before.byteSize
  rest := rest
  mark := 0
  line := 1 + before.lineEnds
  column := before.openLine.length
  lineTail := before.openLine ++ rest

/-- The cursor is what counting gives, at a place of its source that is not within a
line end. -/
def Counted (source : Text) (c : Cursor) : Prop :=
  ∃ before rest, source = before ++ rest ∧ Unsplit before rest ∧ c = counted before rest

theorem counted_ofText (source : Text) : (ofText source).Counted source :=
  ⟨[], source, rfl, unsplit_of_getLast? (by decide) source, rfl⟩

/-- A line end is counted, and the next line starts behind it. -/
theorem breakLine_counted {before m rest : Text} (h : Unsplit before (m ++ rest))
    (hm : m = ['\r', '\n'] ∨ m = ['\n'] ∨ m = ['\r']) :
    (counted before (m ++ rest)).breakLine m.length rest = counted (before ++ m) rest := by
  have hends : Text.lineEnds (before ++ m) = before.lineEnds + 1 := by
    rw [Text.lineEnds_append]
    · rcases hm with rfl | rfl | rfl <;> rfl
    · rcases hm with rfl | rfl | rfl <;> exact h
  have hopen : Text.openLine (before ++ m) = [] := by
    rw [Text.openLine_append]
    rcases hm with rfl | rfl | rfl <;> rfl
  have hsize : m.length = m.byteSize := by rcases hm with rfl | rfl | rfl <;> rfl
  simp [counted, breakLine, hends, hopen, hsize, Nat.add_assoc]

theorem Counted.step (h : c.Counted source) : c.step.Counted source := by
  obtain ⟨before, rest, rfl, hs, rfl⟩ := h
  have hbreak {m t : Text} (hm : m = ['\r', '\n'] ∨ m = ['\n'] ∨ m = ['\r'])
      (hs : Unsplit before (m ++ t)) (ht : Unsplit (before ++ m) t) :
      ((counted before (m ++ t)).breakLine m.length t).Counted (before ++ (m ++ t)) :=
    ⟨before ++ m, t, (List.append_assoc _ _ _).symm, ht, breakLine_counted hs hm⟩
  unfold Cursor.step
  split
  · exact ⟨before, rest, rfl, hs, rfl⟩
  · rename_i t heq
    obtain rfl : rest = ['\r', '\n'] ++ t := heq
    exact hbreak (.inl rfl) hs (unsplit_of_getLast? (by simp) t)
  · rename_i ch t hcrlf heq
    obtain rfl : rest = [ch] ++ t := heq
    split
    · rename_i hb
      have hch : ch = '\n' ∨ ch = '\r' := by simpa [isLineBreak] using hb
      rcases hch with rfl | rfl
      · exact hbreak (.inr (.inl rfl)) hs (unsplit_of_getLast? (by simp) t)
      · refine hbreak (.inr (.inr rfl)) hs ?_
        rintro ⟨-, hn⟩
        obtain ⟨u, rfl⟩ := List.head?_eq_some_iff.1 hn
        exact hcrlf u rfl rfl
    · rename_i hb
      have hb : isLineBreak ch = false := by simpa using hb
      have hr : ch ≠ '\r' := by
        rintro rfl
        cases hb
      have hone : OneLine [ch] := by simpa [OneLine] using hb
      have hends : Text.lineEnds (before ++ [ch]) = before.lineEnds := by
        rw [Text.lineEnds_append (t := [ch]) hs, Text.lineEnds_eq_zero_iff.2 hone, Nat.add_zero]
      refine ⟨before ++ [ch], t, by simp, unsplit_of_getLast? (by simpa using hr) t, ?_⟩
      simp [counted, hends, Text.openLine_append, hone]

theorem Counted.skip (h : c.Counted source) (t : Text) : (c.skip t).Counted source := by
  fun_induction Cursor.skip t c with
  | case1 => exact h
  | case2 t c ih => exact ih h.step
  | case3 x t c _ ih => exact ih h.step

/-- The cursor stands behind `before` in `source`, and its numbers are in step with
that text: the position with its bytes, the line with its line ends, the column with
the characters behind the last of them. The line that is shown is the one of that
number. -/
structure InStep (source before : Text) (c : Cursor) : Prop where
  cut : source = before ++ c.rest
  unsplit : Unsplit before c.rest
  position : c.position = before.byteSize
  line : c.line = 1 + before.lineEnds
  column : c.column = before.openLine.length
  text : source.lines[c.line - 1]? = some c.point.text
  column_le : c.column ≤ c.point.text.length

theorem Counted.inStep (h : c.Counted source) : ∃ before, c.InStep source before := by
  obtain ⟨before, rest, rfl, hs, rfl⟩ := h
  have hopen : ∀ a ∈ before.openLine, (!isLineBreak a) = true := by
    intro a ha
    exact List.mem_takeWhile_imp (p := fun c => !isLineBreak c) (List.mem_reverse.1 ha)
  have htext : (counted before rest).point.text = before.openLine ++ rest.firstLine :=
    List.takeWhile_append_of_pos hopen
  refine ⟨before, rfl, hs, rfl, rfl, rfl, ?_, ?_⟩
  · rw [htext, counted, Nat.add_sub_cancel_left]
    exact Text.getElem?_lines_append hs
  · rw [htext, List.length_append]
    exact Nat.le_add_right _ _

end Cursor

/-- The token starts behind `before` in `source`, and says so. -/
structure Token.StartsBehind (source before : Text) (t : Token) : Prop where
  cutOff : CutOff before source
  start : t.span.start = before.byteSize
  line : t.span.line = 1 + before.lineEnds
  column : t.span.column = before.openLine.length + 1

def Token.Placed (source : Text) (t : Token) : Prop := ∃ before, t.StartsBehind source before

namespace Lexer

inductive Action where
  | next
  | pushBack
  | lookAhead (count : Nat)
  | takeLine
  | setMode (mode : Mode)
  | clearMode
  | readChar
  | readExpression
  deriving DecidableEq, Repr

/-- The lexer after an action. A move that cannot be taken back changes nothing, nor
does looking ahead. -/
def act (l : Lexer) : Action → Lexer
  | .next => l.next
  | .pushBack => l.pushBack.toOption.getD l
  | .lookAhead _ => l
  | .takeLine => l.takeLine.2
  | .setMode mode => l.inMode mode
  | .clearMode => l.inMode .line
  | .readChar => l.readChar.2
  | .readExpression => l.readExpression.2

def continuedTokens (l : Lexer) (segment : Text) : List Token :=
  let l' := (l.skip segment).next
  if _ : l'.kind = .continuation then
    match continued? l'.rest with
    | some more => l'.token :: l'.continuedTokens more
    | none => [l'.token]
  else [l'.token]
termination_by l.rest.length
decreasing_by
  have hlt : (l.skip segment).next.rest.length < (l.skip segment).rest.length :=
    rest_length_next_lt_of_kind (by simp_all [l'])
  exact Nat.lt_of_lt_of_le hlt (Cursor.skip_rest_length_le segment l.cursor)

def lineTokens (l : Lexer) : List Token :=
  if l.endsLine then []
  else
    match continued? l.rest with
    | some segment => l.continuedTokens segment
    | none => [(l.skip (l.rest.takeWhile fun c => !isLineBreak c)).next.token]

def scanned (l : Lexer) : Action → List Token
  | .next => [l.next.token]
  | .lookAhead count => (List.range count).map fun i => l.lookAhead (i + 1)
  | .takeLine => l.lineTokens
  | _ => []

def perform (l : Lexer) (actions : List Action) : Lexer := actions.foldl act l

def scannedBy (l : Lexer) : List Action → List Token
  | [] => []
  | a :: actions => l.scanned a ++ (l.act a).scannedBy actions

/-- Both places that a lexer knows are counted right, and both tokens that it holds
are placed right. -/
structure Counts (source : Text) (l : Lexer) : Prop where
  cursor : l.cursor.Counted source
  start : l.start.Counted source
  token : l.token.Placed source
  previous : ∀ t, l.previous = some t → t.Placed source

variable {source : Text} {l : Lexer}

theorem counts_ofText (source : Text) : (ofText source).Counts source :=
  ⟨Cursor.counted_ofText source, Cursor.counted_ofText source, ⟨[], .nil source, rfl, rfl, rfl⟩,
    by rintro _ ⟨⟩⟩

namespace Counts

theorem skip (h : l.Counts source) (t : Text) : (l.skip t).Counts source :=
  ⟨h.cursor.skip t, h.start, h.token, h.previous⟩

/-- The next token starts where the cursor is. -/
theorem placed_next (h : l.Counts source) : l.next.token.Placed source := by
  obtain ⟨before, rest, hsource, hs, hc⟩ := h.cursor
  have hspan : l.next.token.span.start = l.cursor.position ∧
      l.next.token.span.line = l.cursor.line ∧
      l.next.token.span.column = l.cursor.column + 1 := by
    simp only [Lexer.next, scan]
    split <;> exact ⟨rfl, rfl, rfl⟩
  rw [hc] at hspan
  exact ⟨before, ⟨rest, hsource, hs⟩, hspan.1, hspan.2.1, hspan.2.2⟩

theorem next (h : l.Counts source) : l.next.Counts source := by
  refine ⟨?_, h.cursor, h.placed_next, ?_⟩
  · simp only [Lexer.next, scan]
    split
    · exact h.cursor
    · exact h.cursor.skip _
  · rintro t ⟨⟩
    exact h.token

theorem takeContinued (h : l.Counts source) (segment : Text) :
    (l.takeContinued segment).2.Counts source := by
  fun_induction Lexer.takeContinued l segment with
  | case1 l segment l' _ more _ r ih => exact ih (h.skip segment).next
  | case2 l segment => exact (h.skip segment).next
  | case3 l segment => exact (h.skip segment).next

theorem takeLine (h : l.Counts source) : l.takeLine.2.Counts source := by
  simp only [Lexer.takeLine]
  split
  · exact h
  · split
    · exact h.takeContinued _
    · exact (h.skip _).next

theorem continuedTokens (h : l.Counts source) (segment : Text) :
    ∀ t ∈ l.continuedTokens segment, t.Placed source := by
  fun_induction Lexer.continuedTokens l segment with
  | case1 l segment l' _ more _ ih =>
    rintro t (_ | ⟨_, ht⟩)
    · exact (h.skip segment).placed_next
    · exact ih (h.skip segment).next t ht
  | case2 l segment =>
    rintro t (_ | ⟨_, ⟨⟩⟩)
    exact (h.skip segment).placed_next
  | case3 l segment =>
    rintro t (_ | ⟨_, ⟨⟩⟩)
    exact (h.skip segment).placed_next

theorem lookAhead (h : l.Counts source) (n : Nat) :
    (l.lookAhead (n + 1)).Placed source := by
  induction n generalizing l with
  | zero => exact h.placed_next
  | succ n ih => exact ih h.next

/-- An action keeps both places counted right. -/
theorem act (h : l.Counts source) (a : Action) : (l.act a).Counts source := by
  cases a with
  | next => exact h.next
  | pushBack =>
    simp only [Lexer.act, Lexer.pushBack]
    split
    · exact h
    · split
      · exact h
      · rename_i t ht
        exact ⟨h.start, h.start, h.previous t ht, by rintro _ ⟨⟩⟩
  | lookAhead count => exact h
  | takeLine => exact h.takeLine
  | setMode mode => exact ⟨h.cursor, h.start, h.token, h.previous⟩
  | clearMode => exact ⟨h.cursor, h.start, h.token, h.previous⟩
  | readChar => exact ⟨h.cursor.step, h.start, h.token, h.previous⟩
  | readExpression =>
    simp only [Lexer.act, Lexer.readExpression]
    split <;> exact h.skip _

/-- The tokens that an action scans are placed right. -/
theorem scanned (h : l.Counts source) (a : Action) :
    ∀ t ∈ l.scanned a, t.Placed source := by
  cases a with
  | next =>
    rintro t (_ | ⟨_, ⟨⟩⟩)
    exact h.placed_next
  | lookAhead count =>
    intro t ht
    obtain ⟨i, -, rfl⟩ := List.mem_map.1 ht
    exact h.lookAhead i
  | takeLine =>
    simp only [Lexer.scanned, lineTokens]
    split
    · rintro t ⟨⟩
    · split
      · exact h.continuedTokens _
      · rintro t (_ | ⟨_, ⟨⟩⟩)
        exact (h.skip _).placed_next
  | _ => rintro t ⟨⟩

theorem perform (h : l.Counts source) (actions : List Action) :
    (l.perform actions).Counts source := by
  simp only [Lexer.perform]
  induction actions generalizing l with
  | nil => exact h
  | cons a actions ih => exact ih (h.act a)

theorem scannedBy (h : l.Counts source) (actions : List Action) :
    ∀ t ∈ l.scannedBy actions, t.Placed source := by
  induction actions generalizing l with
  | nil => rintro t ⟨⟩
  | cons a actions ih =>
    intro t ht
    rcases List.mem_append.1 ht with ht | ht
    · exact h.scanned a t ht
    · exact ih (h.act a) t ht

end Counts

/-- Whatever is asked of a lexer, and in whatever order, the cursor and the start of
the current token stand between characters of the source and not within a line end,
and their lines and columns are counted right. So are those of the tokens that the
lexer holds, and of every token that was scanned on the way. -/
theorem places_keep_step (source : Text) (actions : List Action) :
    let l := (ofText source).perform actions
    (∃ before, l.cursor.InStep source before) ∧ (∃ before, l.start.InStep source before) ∧
      ∀ t, t = l.token ∨ l.previous = some t ∨ t ∈ (ofText source).scannedBy actions →
        ∃ before, t.StartsBehind source before := by
  intro l
  have hstart := counts_ofText source
  have h : l.Counts source := hstart.perform actions
  refine ⟨h.cursor.inStep, h.start.inStep, ?_⟩
  rintro t (rfl | ht | ht)
  · exact h.token
  · exact h.previous t ht
  · exact hstart.scannedBy actions t ht

/-- A continued line with a line end of two characters, and a value that holds a
carriage return, which is read, taken back and read again. -/
theorem places_keep_step_in_value :
    let source : Text := "é |\r\n%p(a='b\rc')"
    let actions : List Action :=
      [.next, .takeLine, .next, .next, .setMode .list, .next, .next, .next, .pushBack,
        .lookAhead 2, .next, .readChar]
    let l := (ofText source).perform actions
    (l.cursor.line = 3 ∧ l.cursor.column = 3 ∧ ∃ before, l.cursor.InStep source before) ∧
      (l.start.line = 2 ∧ l.start.column = 5 ∧ ∃ before, l.start.InStep source before) ∧
      l.kind = .quoted ∧ ∃ before, l.token.StartsBehind source before := by
  intro source actions l
  obtain ⟨hcursor, hstart, htokens⟩ := places_keep_step source actions
  exact ⟨⟨by decide +kernel, by decide +kernel, hcursor⟩,
    ⟨by decide +kernel, by decide +kernel, hstart⟩, by decide +kernel, htokens l.token (.inl rfl)⟩

end Lexer

end Haml
