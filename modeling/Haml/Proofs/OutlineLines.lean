import Haml.Line.Meaning
import Haml.Proofs.Outline

/-!
# The lines of an outline

How each line of an outline is read, and what the line that was read stands for.
-/

namespace Haml

theorem Lexeme.read?_element (name : ElementName) {c : Char} (hc : c.isAlphanum = false)
    (t : Text) :
    read? .line ('%' :: name.text ++ c :: t) =
      some ⟨.element, '%' :: name.text, name.text⟩ := by
  have hword : signed ['%'] (Pattern.headed Char.isAlpha Char.isAlphanum)
      ('%' :: (name.text ++ c :: t)) = some ('%' :: name.text) := by
    rw [signed_cons, name.headed_text hc]
    rfl
  have hbar : signed ['|'] (Pattern.andThen (Pattern.many isIndent) Pattern.lineEnd)
      ('%' :: (name.text ++ c :: t)) = none := rfl
  have hrules : (rules .line).findSome? (·.read? ('%' :: (name.text ++ c :: t))) =
      some ⟨.element, '%' :: name.text, name.text⟩ := by
    simp [rules, commonRules, lineRules, Rule.read?, hword, hbar, Pattern.lineEnd, Pattern.many1,
      Pattern.headed, isIndent, Cut.apply]
  rw [List.cons_append, read?, hrules]
  rfl

namespace Lexer

variable {l : Lexer} {n d : Nat} {more : Text}

theorem readName_of_element (h : l.kind = .element) : l.readName = (some l.token.text, l.next) :=
  if_pos h

theorem readSelectors_of_ne (hi : l.kind ≠ .idSelector) (hc : l.kind ≠ .classSelector) :
    l.readSelectors = (([], []), l) := by
  rw [readSelectors, if_neg hi, if_neg hc]

theorem readReference_of_ne (h : l.kind ≠ .reference) : l.readReference = (none, l) := if_neg h

theorem readAttributeList_of_ne (h : l.kind ≠ .openParen) :
    l.readAttributeList = { value := .ok [], lexer := l } := if_neg h

theorem readAttributeHash_of_ne (h : l.kind ≠ .openBrace) :
    l.readAttributeHash = { value := .ok [], lexer := l } := if_neg h

theorem readSpaceMarks_of_ne (hg : l.kind ≠ .greater) (hl : l.kind ≠ .less) (o : TagOptions) :
    l.readSpaceMarks o = (o, l) := by
  rw [readSpaceMarks, if_neg fun h => hg h.1, if_neg fun h => hl h.1]

theorem hasInlineContents_of_lineEnd (h : l.kind = .lineEnd) : l.hasInlineContents = false := by
  rw [hasInlineContents, if_neg (by rw [h]; decide), endsLine, h]
  rfl

/-- At the end of a line, contents can only be a deeper line below. -/
theorem hasContents_of_lineEnd (h : l.kind = .lineEnd) (d : Nat) :
    l.hasContents d = decide (d < l.next.token.depth) := by
  rw [hasContents, hasInlineContents_of_lineEnd h, h]
  rfl

theorem newline_of_lineEnd (h : l.kind = .lineEnd) : l.token.newline = l.token.matched := by
  have hk : l.token.kind = .lineEnd := h
  rw [Token.newline, hk]

/-- A tag of nothing but its name. -/
theorem readTag_bare (h : l.kind = .element) (hend : l.next.kind = .lineEnd) (d : Nat) :
    l.readTag d =
      { value := .ok
          { name := l.token.text
            attributes := {}
            options :=
              { selfClosing :=
                  isSelfClosingName l.token.text && !decide (d < l.next.next.token.depth) }
            point := l.next.point }
        lexer := l.next } := by
  have hselectors : l.next.readSelectors = (([], []), l.next) :=
    readSelectors_of_ne (by rw [hend]; decide) (by rw [hend]; decide)
  have hmarks : l.next.readMarks = ({}, l.next) := by
    rw [readMarks, if_neg (by rw [hend]; decide),
      readSpaceMarks_of_ne (by rw [hend]; decide) (by rw [hend]; decide)]
  simp only [readTag, readName_of_element h, hselectors,
    readReference_of_ne (l := l.next) (by rw [hend]; decide),
    readAttributeList_of_ne (l := l.next) (by rw [hend]; decide),
    readAttributeHash_of_ne (l := l.next) (by rw [hend]; decide), hmarks,
    hasContents_of_lineEnd hend, Bool.false_and, Bool.false_eq_true, if_false, Option.getD_some,
    Bool.false_or]

/-- At the end of a line there is only empty text. -/
theorem readContents_of_lineEnd (h : l.kind = .lineEnd) (inner : Bool) :
    l.readContents inner =
      { value := .ok (.text [] true 0 l.token.matched), lexer := l.next } := by
  have hp : l.passSpace = l := if_neg (by rw [h]; decide)
  have hend : l.endsLine = true := by rw [endsLine, h]; rfl
  rw [readContents, hp, readBody_eq, takeLine_of_endsLine hend]
  simp [h, Token.Kind.announcesExpression, endText, hend, newline_of_lineEnd h,
    passLineEnd, Token.Kind.breaksLine, Text.after?]

/-- The text behind a backslash is read as it stands. -/
theorem Reads.readLine_text {t : PlainText}
    (h : l.Reads .line n ('\\' :: t.text ++ '\n' :: more)) (d : Nat) :
    l.kind ≠ .filter ∧ ∃ l', l.readLine d =
        { value := .ok (.plain (.text t.text true 0 ['\n']) l.point), lexer := l' } ∧
      l'.Reads .line (n + 1) more := by
  have hon : l.On .line n ⟨.other, ['\\'], ['\\']⟩ (t.text ++ '\n' :: more) :=
    Reads.on h rfl (by decide)
  obtain ⟨htext, hline⟩ := h.takeLine t.lineBody
  have hend := hline.on_newline
  have hk : l.kind = .other := hon.kind
  have hp : l.passSpace = l := if_neg (by rw [hk]; decide)
  have hbody : l.readBody true =
      { value := .ok (.text t.text true 0 ['\n']), lexer := l.takeLine.2.next } := by
    have hends : l.takeLine.2.endsLine = true := by rw [endsLine, hend.kind]; rfl
    have hnewline : l.takeLine.2.token.newline = ['\n'] :=
      (newline_of_lineEnd hend.kind).trans hend.matched
    have hbreaks : l.takeLine.2.kind.breaksLine = true := by rw [hend.kind]; rfl
    simp [readBody_eq, hk, Token.Kind.announcesExpression, endText, htext, hends, hnewline,
      passLineEnd, hbreaks, Text.after?]
  refine ⟨by rw [hk]; decide, l.takeLine.2.next, ?_, hend.next⟩
  simp [readLine_eq, hk, Token.Kind.announcesExpression, startsTag, readContents, hp, hbody,
    Except.map]

end Lexer

/-- The line that starts a container, read with or without a deeper line below. -/
def Container.reading (deeper : Bool) (point : Point) : Container → Line
  | tag name =>
    .tag ⟨name.text, {}, { selfClosing := isSelfClosingName name.text && !deeper }, point⟩
      (.text [] true 0 ['\n'])
  | comment => .comment [] ['\n'] deeper
  | conditional c => .comment ('[' :: c.text ++ [']']) ['\n'] deeper

namespace Lexer

variable {l : Lexer} {n : Nat} {more : Text}

theorem Reads.readLine_tag {name : ElementName}
    (h : l.Reads .line n ('%' :: name.text ++ '\n' :: more)) (d : Nat) :
    l.kind = .element ∧ l.readLine d =
        { value := .ok ((Container.tag name).reading (decide (d < l.next.next.token.depth))
            l.next.point)
          lexer := l.next.next } ∧
      l.next.next.Reads .line (n + 1) more := by
  have hon : l.On .line n ⟨.element, '%' :: name.text, name.text⟩ ('\n' :: more) :=
    Reads.on h (Lexeme.read?_element name rfl _) (Container.tag name).lineBody.oneLine
  have hend := hon.next.on_newline
  have hk : l.kind = .element := hon.kind
  refine ⟨hk, ?_, hend.next⟩
  simp [readLine_eq, hk, Token.Kind.announcesExpression, startsTag, readTag_bare hk hend.kind,
    readContents_of_lineEnd hend.kind, hend.matched, hon.text, Except.map, Container.reading]

/-- Behind a slash, the rest of the line is the text of a comment. -/
theorem readLine_slash (hk : l.kind = .slash)
    (hend : l.next.takeLine.2.Reads .line n ('\n' :: more)) (d : Nat) :
    l.readLine d =
        { value := .ok (.comment l.next.takeLine.1 ['\n']
            (decide (d < l.next.takeLine.2.next.token.depth)))
          lexer := l.next.takeLine.2.next } ∧
      l.next.takeLine.2.next.Reads .line (n + 1) more := by
  have hon := hend.on_newline
  have hkind : l.next.takeLine.2.kind = .lineEnd := hon.kind
  have hbreaks : l.next.takeLine.2.kind.breaksLine = true := by rw [hkind]; rfl
  have hnewline : l.next.takeLine.2.token.newline = ['\n'] :=
    (newline_of_lineEnd hkind).trans hon.matched
  refine ⟨?_, hon.next⟩
  simp only [readLine_eq, hk, hasContents_of_lineEnd hkind, hnewline, passLineEnd, hbreaks, if_true]

theorem Reads.readLine_container {c : Container}
    (h : l.Reads .line n (c.line ++ '\n' :: more)) (d : Nat) :
    l.kind ≠ .filter ∧ ∃ point l', l.readLine d =
        { value := .ok (c.reading (decide (d < l'.token.depth)) point), lexer := l' } ∧
      l'.Reads .line (n + 1) more := by
  cases c with
  | tag name =>
    obtain ⟨hk, hline, hnext⟩ := h.readLine_tag d
    exact ⟨by rw [hk]; decide, _, _, hline, hnext⟩
  | comment =>
    have hon : l.On .line n ⟨.slash, ['/'], ['/']⟩ ('\n' :: more) :=
      Reads.on h rfl (by decide)
    have htake : l.next.takeLine = ([], l.next) :=
      takeLine_of_endsLine (by rw [endsLine, hon.next.on_newline.kind]; rfl)
    obtain ⟨hline, hnext⟩ := readLine_slash hon.kind (by rw [htake]; exact hon.next) d
    rw [htake] at hline hnext
    exact ⟨by rw [hon.kind]; decide, l.point, _, hline, hnext⟩
  | conditional c =>
    have hon : l.On .line n ⟨.slash, ['/'], ['/']⟩ ('[' :: c.text ++ [']'] ++ '\n' :: more) :=
      Reads.on h rfl (by decide)
    obtain ⟨htext, hend⟩ := hon.next.takeLine c.lineBody
    obtain ⟨hline, hnext⟩ := readLine_slash hon.kind hend d
    rw [htext] at hline
    exact ⟨by rw [hon.kind]; decide, l.point, _, hline, hnext⟩

end Lexer

namespace Container

open Script

def element : Container → Element
  | tag name => .tag name.text {}
  | comment => .comment ['\n']
  | conditional _ => .conditional ['\n']

theorem isCondition_condition (c : Condition) : isCondition ('[' :: c.text ++ [']']) = true := by
  have htrim : Text.trimEnd (c.text ++ [']']) = c.text ++ [']'] := by
    rw [Text.trimEnd, Text.dropEndWhile_append, if_neg (by decide)]
    rfl
  have hline : '\n' ∉ c.text := by
    intro h
    have := c.oneLine _ h
    cases this
  simp [isCondition, htrim, hline]

/-- A tag without attributes and marks is a line of its own. -/
theorem writes_bareTag (name : Text) (selfClosing : Bool) (point : Point) (d : Nat) :
    Writes ((Line.tag ⟨name, {}, { selfClosing := selfClosing }, point⟩
        (.text [] true 0 ['\n'])).instructions d true)
      (markupLine d ("<" ++ name ++ if selfClosing then "/>".toList else ">".toList)) := by
  have htext (a b c e : Text) :
      a ++ [b ++ c, [], e, ['\n']].flatten = a ++ (b ++ c ++ e) ++ ['\n'] := by
    simp
  have hmarkup : (Line.tag ⟨name, {}, { selfClosing := selfClosing }, point⟩
        (.text [] true 0 ['\n'])).instructions d true =
      (if 0 < d then [.markup (Text.indentation d)] else []) ++
        [("<" ++ name : Text), [], if selfClosing then "/>".toList else ">".toList,
          ['\n']].map .markup := by
    cases selfClosing <;> cases d <;> rfl
  have hindentation : Writes (if 0 < d then [.markup (Text.indentation d)] else [])
      (Text.indentation d) := by
    cases d with
    | zero => exact .nil
    | succ d => exact writes_markup _
  have hwrites := hindentation.append (writes_markups
    [("<" ++ name : Text), [], if selfClosing then "/>".toList else ">".toList, ['\n']])
  rw [htext] at hwrites
  rw [hmarkup]
  exact hwrites

variable {c : Container}

/-- A container that does not close itself is left open behind its first line. -/
theorem reading_of_open {deeper : Bool}
    (h : deeper = true ∨ c.mayBeEmpty = true ∧ c.selfClosed? = none) (point : Point) (d : Nat) :
    (c.reading deeper point).element? = some c.element ∧
      Writes ((c.reading deeper point).instructions d true) (markupLine d c.opening) := by
  cases c with
  | tag name =>
    have hself : (isSelfClosingName name.text && !deeper) = false := by
      rcases h with rfl | ⟨-, h⟩
      · simp
      · cases hname : isSelfClosingName name.text with
        | false => rfl
        | true =>
          rw [selfClosed?, hname] at h
          cases h
    rw [reading, hself]
    exact ⟨rfl, writes_bareTag name.text false point d⟩
  | comment =>
    obtain rfl : deeper = true := h.resolve_right fun h => by cases h.1
    have htext (a b : Text) : [a ++ b, [], ['\n']].flatten = a ++ b ++ ['\n'] := by simp
    have hwrites := writes_markups [Text.indentation d ++ "<!--", [], ['\n']]
    rw [htext] at hwrites
    exact ⟨rfl, hwrites⟩
  | conditional c =>
    obtain rfl : deeper = true := h.resolve_right fun h => by cases h.1
    have htext (a b c : Text) :
        [a ++ b, '[' :: c ++ [']'], ['>'], ['\n']].flatten =
          a ++ (b ++ ['['] ++ c ++ [']', '>']) ++ ['\n'] := by
      simp
    have hwrites := writes_markups
      [Text.indentation d ++ "<!--", '[' :: c.text ++ [']'], ['>'], ['\n']]
    rw [htext] at hwrites
    simp only [reading, Line.element?, Line.instructions, isCondition_condition, if_true]
    exact ⟨rfl, hwrites⟩

theorem reading_of_selfClosed {alone : Text} (h : c.selfClosed? = some alone) (point : Point)
    (d : Nat) :
    (c.reading false point).element? = none ∧
      Writes ((c.reading false point).instructions d true) (markupLine d alone) := by
  cases c with
  | tag name =>
    cases hname : isSelfClosingName name.text with
    | false =>
      rw [selfClosed?, hname] at h
      cases h
    | true =>
      rw [selfClosed?, hname] at h
      cases h
      rw [reading, hname]
      exact ⟨rfl, writes_bareTag name.text true point d⟩
  | comment => cases h
  | conditional c => cases h

end Container

theorem PlainText.writes_line (t : PlainText) (point : Point) (d : Nat) :
    Script.Writes ((Line.plain (.text t.text true 0 ['\n']) point).instructions d true)
      (markupLine d t.text) := by
  have hinstructions : (Line.plain (.text t.text true 0 ['\n']) point).instructions d true =
      [.text (Text.indentation d ++ t.text) true point .verbatim, .markup ['\n']] := by
    simp [Line.instructions, Contents.withoutTag, textInstructions, t.ne_nil, framedText]
  rw [hinstructions]
  exact (Script.writes_text (t.uninterpolated.indented d) point).cons (Script.writes_markup _)

end Haml
