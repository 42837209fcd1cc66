import Haml.Block
import Haml.Line.Basic
import Haml.Tag.Reader

/-!
# Reading lines

Most lines say all they say with their first token and the text behind it. A tag or a
text line has contents, which are taken to the end of the line; only then the line is
found to end with them.
-/

namespace Haml

namespace Lexer

section Taking

variable {m : Type → Type} [Monad m] (take : LineTaker m)

/-- Takes contents from their first token on, with the lexer where they end. A leading
backslash only keeps the text from being anything else. -/
def takeBodyM (l : Lexer) : m (Contents × Lexer) :=
  if l.kind.announcesExpression then do
    let ⟨line, _⟩ ← take l.next
    pure (.expression l.kind.embedMode line.1 l.point line.2.token.newline, line.2)
  else if l.kind = .bang then do
    let ⟨line, _⟩ ← take l.next.passSpace
    pure (.text line.1 false l.next.token.depth line.2.token.newline, line.2)
  else do
    let ⟨line, _⟩ ← take l
    pure (.text ((Text.after? "\\" line.1).getD line.1) true 0 line.2.token.newline, line.2)

/-- How to read the line at `depth` from its first token on, unless it is a tag or text. -/
def directive? (l : Lexer) (depth : Nat) : Option (m (Line × Lexer)) :=
  match l.kind with
  | .doctype => some do
    let ⟨line, _⟩ ← take l.next.passSpace
    pure (.doctype line.1 line.2.token.newline, line.2.passLineEnd)
  | .minus => some do
    let ⟨line, _⟩ ← take l.next
    pure (.code line.1 line.2.token.newline, line.2.passLineEnd)
  | .silentComment => some do
    let block ← l.takeBlockM take depth
    pure (.hidden, block.2)
  | .slash => some do
    let ⟨line, _⟩ ← take l.next
    pure (.comment line.1 line.2.token.newline (line.2.hasContents depth), line.2.passLineEnd)
  | .ampersand => some do
    let ⟨line, _⟩ ← take l.next.passSpace
    pure (.escaped line.1 l.point line.2.token.newline, line.2.passLineEnd)
  | _ =>
    if l.kind.announcesExpression then some do
      let ⟨line, _⟩ ← take l.next
      pure (.expression l.kind.embedMode line.1 l.point line.2.token.newline, line.2.passLineEnd)
    else none

end Taking

def takeBody (l : Lexer) : Contents × Lexer := (l.takeBodyM takeAnyLine).run

theorem takeBody_eq (l : Lexer) :
    l.takeBody =
      if l.kind.announcesExpression then
        let line := l.next.takeLine
        (.expression l.kind.embedMode line.1 l.point line.2.token.newline, line.2)
      else if l.kind = .bang then
        let line := l.next.passSpace.takeLine
        (.text line.1 false l.next.token.depth line.2.token.newline, line.2)
      else
        let line := l.takeLine
        (.text ((Text.after? "\\" line.1).getD line.1) true 0 line.2.token.newline, line.2) := by
  rw [takeBody, takeBodyM]
  split
  · rfl
  · split <;> rfl

/-- Finds the line to end behind contents. Behind a tag without inner white space an
expression leaves the line end to be read. -/
def endContents (l : Lexer) (inner : Bool) : Contents → Except Diagnostic Lexer
  | .expression _ _ _ _ => .ok (if inner then l.passLineEnd else l)
  | .text _ _ _ _ => if l.endsLine then .ok l.passLineEnd else .error (l.fault .expectedLineEnd)

def endText (l : Lexer) (text : Text) (interpolate : Bool) (extra : Nat) : Reading Contents :=
  if l.endsLine then
    { value := .ok (.text text interpolate extra l.token.newline), lexer := l.passLineEnd }
  else { value := .error (l.fault .expectedLineEnd), lexer := l }

def readBody (l : Lexer) (inner : Bool) : Reading Contents :=
  let body := l.takeBody
  match body.2.endContents inner body.1 with
  | .ok l' => { value := .ok body.1, lexer := l' }
  | .error d => { value := .error d, lexer := body.2 }

theorem readBody_eq (l : Lexer) (inner : Bool) :
    l.readBody inner =
      if l.kind.announcesExpression then
        let line := l.next.takeLine
        { value := .ok (.expression l.kind.embedMode line.1 l.point line.2.token.newline)
          lexer := if inner then line.2.passLineEnd else line.2 }
      else if l.kind = .bang then
        let line := l.next.passSpace.takeLine
        line.2.endText line.1 false l.next.token.depth
      else
        let line := l.takeLine
        line.2.endText ((Text.after? "\\" line.1).getD line.1) true 0 := by
  have htext (l' : Lexer) (t : Text) (i : Bool) (n : Nat) :
      (match l'.endContents inner (.text t i n l'.token.newline) with
        | .ok l'' => { value := .ok (.text t i n l'.token.newline), lexer := l'' }
        | .error d => { value := .error d, lexer := l' }) = l'.endText t i n := by
    cases h : l'.endsLine <;> simp [endContents, endText, h]
  rw [readBody, takeBody_eq]
  by_cases ha : l.kind.announcesExpression
  · simp only [ha, if_true, endContents]
  · by_cases hb : l.kind = .bang
    · rw [if_neg ha, if_pos hb, if_neg ha, if_pos hb]
      exact htext _ _ _ _
    · rw [if_neg ha, if_neg hb, if_neg ha, if_neg hb]
      exact htext _ _ _ _

def readContents (l : Lexer) (inner : Bool) : Reading Contents := l.passSpace.readBody inner

/-- Reads a line at `depth` as a whole, from its first token behind the indentation on. -/
def readLine (l : Lexer) (depth : Nat) : Reading Line :=
  match l.directive? takeAnyLine depth with
  | some read => { value := .ok read.run.1, lexer := read.run.2 }
  | none =>
    if l.startsTag then
      let tag := l.readTag depth
      match tag.value with
      | .error e => { value := .error e, lexer := tag.lexer, probes := tag.probes }
      | .ok head =>
        let contents := tag.lexer.readContents head.options.inner
        { value := contents.value.map (.tag head)
          lexer := contents.lexer
          probes := tag.probes }
    else
      let contents := l.readContents true
      { value := contents.value.map (.plain · l.point), lexer := contents.lexer }

theorem readLine_eq (l : Lexer) (depth : Nat) :
    l.readLine depth =
      match l.kind with
      | .doctype =>
        let line := l.next.passSpace.takeLine
        { value := .ok (.doctype line.1 line.2.token.newline), lexer := line.2.passLineEnd }
      | .minus =>
        let line := l.next.takeLine
        { value := .ok (.code line.1 line.2.token.newline), lexer := line.2.passLineEnd }
      | .silentComment => { value := .ok .hidden, lexer := (l.takeBlock depth).2 }
      | .slash =>
        let line := l.next.takeLine
        { value := .ok (.comment line.1 line.2.token.newline (line.2.hasContents depth))
          lexer := line.2.passLineEnd }
      | .ampersand =>
        let line := l.next.passSpace.takeLine
        { value := .ok (.escaped line.1 l.point line.2.token.newline)
          lexer := line.2.passLineEnd }
      | _ =>
        if l.kind.announcesExpression then
          let line := l.next.takeLine
          { value := .ok (.expression l.kind.embedMode line.1 l.point line.2.token.newline)
            lexer := line.2.passLineEnd }
        else if l.startsTag then
          let tag := l.readTag depth
          match tag.value with
          | .error e => { value := .error e, lexer := tag.lexer, probes := tag.probes }
          | .ok head =>
            let contents := tag.lexer.readContents head.options.inner
            { value := contents.value.map (.tag head)
              lexer := contents.lexer
              probes := tag.probes }
        else
          let contents := l.readContents true
          { value := contents.value.map (.plain · l.point), lexer := contents.lexer } := by
  rw [readLine, directive?]
  cases hk : l.kind <;> rfl

theorem readLine_announced {l : Lexer} (h : l.kind.announcesExpression) (depth : Nat) :
    l.readLine depth =
      { value := .ok (.expression l.kind.embedMode l.next.takeLine.1 l.point
          l.next.takeLine.2.token.newline)
        lexer := l.next.takeLine.2.passLineEnd } := by
  cases hk : l.kind <;> simp_all [readLine_eq, Token.Kind.announcesExpression]

theorem readLine_refused {l : Lexer} {depth : Nat} {d : Diagnostic} (h : l.startsTag)
    (hd : (l.readTag depth).value = .error d) :
    l.readLine depth =
      { value := .error d, lexer := (l.readTag depth).lexer, probes := (l.readTag depth).probes } := by
  cases hk : l.kind <;> simp_all [startsTag, readLine_eq, Token.Kind.announcesExpression]

theorem readLine_tag {l : Lexer} {depth : Nat} {head : TagHead} (h : l.startsTag)
    (hhead : (l.readTag depth).value = .ok head) :
    l.readLine depth =
      { value := ((l.readTag depth).lexer.readContents head.options.inner).value.map (.tag head)
        lexer := ((l.readTag depth).lexer.readContents head.options.inner).lexer
        probes := (l.readTag depth).probes } := by
  cases hk : l.kind <;> simp_all [startsTag, readLine_eq, Token.Kind.announcesExpression]

theorem remaining_endText_le (l : Lexer) (t : Text) (i : Bool) (n : Nat) :
    (l.endText t i n).lexer.remaining ≤ l.remaining := by
  simp only [endText]
  split
  · exact remaining_passLineEnd_le l
  · exact Nat.le_refl _

theorem remaining_readBody_lt {l : Lexer} (h : l.endsLine = false) (inner : Bool) :
    (l.readBody inner).lexer.remaining < l.remaining := by
  have hn := remaining_next_lt (kind_ne_eof_of_not_endsLine h)
  simp only [readBody_eq]
  split
  · have ht := remaining_takeLine_le l.next
    have he := remaining_passLineEnd_le l.next.takeLine.2
    cases inner <;> simp only [Bool.false_eq_true, if_false, if_true] <;> omega
  · split
    · have hp := remaining_passSpace_le l.next
      have ht := remaining_takeLine_le l.next.passSpace
      exact Nat.lt_of_le_of_lt (remaining_endText_le _ _ _ _) (by omega)
    · exact Nat.lt_of_le_of_lt (remaining_endText_le _ _ _ _) (remaining_takeLine_lt h)

theorem announcesExpression_eq_false {k : Token.Kind} (h : k.endsLine) :
    k.announcesExpression = false := by
  cases k <;> simp_all [Token.Kind.endsLine, Token.Kind.announcesExpression]

/-- Where the line has ended, the body is the text that is left of it. -/
theorem readBody_of_endsLine {l : Lexer} (h : l.endsLine) (inner : Bool) :
    l.readBody inner =
      l.takeLine.2.endText ((Text.after? "\\" l.takeLine.1).getD l.takeLine.1) true 0 := by
  have ha : l.kind.announcesExpression = false := announcesExpression_eq_false h
  have hb : l.kind ≠ .bang := by
    intro hb
    simp [endsLine, hb, Token.Kind.endsLine] at h
  simp only [readBody_eq, ha, hb, Bool.false_eq_true, if_false]

theorem remaining_readBody_le (l : Lexer) (inner : Bool) :
    (l.readBody inner).lexer.remaining ≤ l.remaining := by
  cases h : l.endsLine with
  | false => exact Nat.le_of_lt (remaining_readBody_lt h inner)
  | true =>
    rw [readBody_of_endsLine h]
    exact Nat.le_trans (remaining_endText_le _ _ _ _) (remaining_takeLine_le l)

theorem remaining_readContents_le (l : Lexer) (inner : Bool) :
    (l.readContents inner).lexer.remaining ≤ l.remaining :=
  Nat.le_trans (remaining_readBody_le _ inner) (remaining_passSpace_le l)

theorem remaining_readContents_lt {l : Lexer} (h : l.endsLine = false) (inner : Bool) :
    (l.readContents inner).lexer.remaining < l.remaining := by
  by_cases hs : l.kind = .space
  · have hp : l.passSpace = l.next := by simp [passSpace, hs]
    rw [readContents, hp]
    exact Nat.lt_of_le_of_lt (remaining_readBody_le _ inner) (remaining_next_lt (by simp [hs]))
  · have hp : l.passSpace = l := by simp [passSpace, hs]
    rw [readContents, hp]
    exact remaining_readBody_lt h inner

/-- A line that has not ended is read past its first token, even if it is faulty. -/
theorem remaining_readLine_lt {l : Lexer} (h : l.endsLine = false) (depth : Nat) :
    (l.readLine depth).lexer.remaining < l.remaining := by
  have hn := remaining_next_lt (kind_ne_eof_of_not_endsLine h)
  have hs := remaining_passSpace_le l.next
  have line (k : Lexer) (hk : k.remaining ≤ l.next.remaining) :
      k.takeLine.2.passLineEnd.remaining < l.remaining := by
    have ht := remaining_takeLine_le k
    have he := remaining_passLineEnd_le k.takeLine.2
    omega
  simp only [readLine_eq]
  split
  · exact line _ hs
  · exact line _ (Nat.le_refl _)
  · exact remaining_takeBlock_lt h depth
  · exact line _ (Nat.le_refl _)
  · exact line _ hs
  · split
    · exact line _ (Nat.le_refl _)
    · split
      · rename_i ht
        have hr := remaining_readTag_lt ht depth
        split
        · exact hr
        · exact Nat.lt_of_le_of_lt (remaining_readContents_le _ _) hr
      · exact remaining_readContents_lt h true

end Lexer

end Haml
