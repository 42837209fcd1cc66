import Haml.Source.Cursor
import Haml.Token.Lexeme

/-!
# Lexer

A lexer stands on one token of a source. It can move to the next token, take
back one move, and look further ahead; the mode, which may be changed between
two tokens, says which tokens there are. What is still to be read bounds every
loop over tokens: `remaining` falls with each move off a token that is not the
end of the source.
-/

namespace Haml

structure Lexer where
  /-- Where the current token ends. -/
  cursor : Cursor
  mode : Mode
  token : Token
  /-- The token to which the last move can be taken back. -/
  previous : Option Token
  /-- Where the current token starts. -/
  start : Cursor
  deriving DecidableEq, Repr

inductive PushBackFault where
  /-- The lexer stands on the end of the source. -/
  | atEnd
  /-- No move has been made since the last one was taken back. -/
  | noMove
  deriving DecidableEq, Repr

def PushBackFault.message : PushBackFault → Text
  | .atEnd => "Cannot push back the end of input"
  | .noMove => "Only one token can be pushed back"

namespace Lexer

/-- The lexer before the first token, on an empty line end. -/
def ofText (source : Text) : Lexer where
  cursor := Cursor.ofText source
  mode := .line
  token := ⟨.lineEnd, [], [], ⟨0, 0, 1, 1⟩⟩
  previous := none
  start := Cursor.ofText source

def kind (l : Lexer) : Token.Kind := l.token.kind

def rest (l : Lexer) : Text := l.cursor.rest

def point (l : Lexer) : Point := l.cursor.point

def endsLine (l : Lexer) : Bool := l.kind.endsLine

def inMode (l : Lexer) (mode : Mode) : Lexer := { l with mode := mode }

def scan (mode : Mode) (c : Cursor) : Token × Cursor :=
  match Lexeme.read? mode c.rest with
  | none => (⟨.eof, [], [], ⟨c.position, c.position, c.line, c.column + 1⟩⟩, c)
  | some x =>
    (⟨x.kind, x.matched, x.text,
      ⟨c.position, c.position + x.matched.byteSize, c.line, c.column + 1⟩⟩, c.skip x.matched)

def next (l : Lexer) : Lexer where
  cursor := (scan l.mode l.cursor).2
  mode := l.mode
  token := (scan l.mode l.cursor).1
  previous := some l.token
  start := l.cursor

def pushBack (l : Lexer) : Except PushBackFault Lexer :=
  if l.kind = .eof then .error .atEnd
  else
    match l.previous with
    | none => .error .noMove
    | some t => .ok { l with cursor := l.start, token := t, previous := none }

/-- The token that is current after `n` more moves. -/
def lookAhead (l : Lexer) : Nat → Token
  | 0 => l.token
  | n + 1 => l.next.lookAhead n

/-- Moves past a text behind the current token, which stays current. -/
def skip (l : Lexer) (t : Text) : Lexer := { l with cursor := l.cursor.skip t }

/-- Reads one character behind the current token; a carriage return takes a line
feed after it along. -/
def readChar (l : Lexer) : Option Char × Lexer :=
  (l.rest.head?, { l with cursor := l.cursor.step })

/-- How much is left to read, the current token counting as one. -/
def remaining (l : Lexer) : Nat := l.rest.length + if l.kind = .eof then 0 else 1

theorem pushBack_next {l : Lexer} (h : l.next.kind ≠ .eof) :
    l.next.pushBack =
      .ok { l.next with cursor := l.cursor, token := l.token, previous := none } := by
  simp only [pushBack, h, if_false]
  rfl

theorem rest_length_next_le (l : Lexer) : l.next.rest.length ≤ l.rest.length := by
  simp only [next, rest, scan]
  split
  · exact Nat.le_refl _
  · exact Cursor.skip_rest_length_le _ _

theorem rest_length_next_lt {l : Lexer} (h : l.rest ≠ []) :
    l.next.rest.length < l.rest.length := by
  simp only [next, rest, scan]
  split
  · rename_i hn
    exact absurd (Lexeme.read?_eq_none.1 hn) h
  · rename_i x hx
    exact Cursor.skip_rest_length_lt (Lexeme.matched_ne_nil hx) h

theorem kind_next_of_rest_nil {l : Lexer} (h : l.rest = []) : l.next.kind = .eof := by
  have hr : l.cursor.rest = [] := h
  simp [next, kind, scan, hr, Lexeme.read?]

theorem rest_length_next_lt_of_kind {l : Lexer} (h : l.next.kind ≠ .eof) :
    l.next.rest.length < l.rest.length :=
  rest_length_next_lt fun hr => h (kind_next_of_rest_nil hr)

theorem remaining_le_rest_length (l : Lexer) : l.remaining ≤ l.rest.length + 1 := by
  simp only [remaining]
  split <;> omega

theorem remaining_next_le_rest_length (l : Lexer) : l.next.remaining ≤ l.rest.length := by
  by_cases h : l.rest = []
  · have hk := kind_next_of_rest_nil h
    have hl := rest_length_next_le l
    simp only [remaining, hk, if_true]
    omega
  · have hl := rest_length_next_lt h
    have hr := remaining_le_rest_length l.next
    omega

theorem remaining_next_le (l : Lexer) : l.next.remaining ≤ l.remaining := by
  have h := remaining_next_le_rest_length l
  simp only [remaining] at *
  omega

theorem remaining_next_lt {l : Lexer} (h : l.kind ≠ .eof) : l.next.remaining < l.remaining := by
  have hl := remaining_next_le_rest_length l
  have hr : l.remaining = l.rest.length + 1 := by simp [remaining, h]
  omega

@[simp] theorem kind_skip (l : Lexer) (t : Text) : (l.skip t).kind = l.kind := rfl

@[simp] theorem kind_inMode (l : Lexer) (m : Mode) : (l.inMode m).kind = l.kind := rfl

@[simp] theorem endsLine_inMode (l : Lexer) (m : Mode) : (l.inMode m).endsLine = l.endsLine := rfl

@[simp] theorem remaining_inMode (l : Lexer) (m : Mode) :
    (l.inMode m).remaining = l.remaining := rfl

theorem remaining_skip_le (l : Lexer) (t : Text) : (l.skip t).remaining ≤ l.remaining := by
  have h : (l.skip t).rest.length ≤ l.rest.length := Cursor.skip_rest_length_le t l.cursor
  exact Nat.add_le_add_right h _

theorem kind_ne_eof_of_not_endsLine {l : Lexer} (h : l.endsLine = false) : l.kind ≠ .eof := by
  intro hk
  simp [endsLine, hk, Token.Kind.endsLine] at h

theorem breaksLine_eq_false {l : Lexer} (h : l.endsLine = false) : l.kind.breaksLine = false := by
  cases hk : l.kind <;> simp_all [endsLine, Token.Kind.endsLine, Token.Kind.breaksLine]

theorem kind_ne_eof_of_breaksLine {l : Lexer} (h : l.kind.breaksLine) : l.kind ≠ .eof := by
  intro hk
  simp [hk, Token.Kind.breaksLine] at h

/-- All tokens from the next one on, up to and with the end of the source. -/
def tokens (l : Lexer) : List Token :=
  if _ : l.next.kind = .eof then [l.next.token] else l.next.token :: l.next.tokens
termination_by l.rest.length
decreasing_by
  apply rest_length_next_lt_of_kind
  assumption

def passSpace (l : Lexer) : Lexer := if l.kind = .space then l.next else l

/-- Moves off a line end, if another line may follow it. -/
def passLineEnd (l : Lexer) : Lexer := if l.kind.breaksLine then l.next else l

def passBlank (l : Lexer) : Lexer :=
  if l.kind = .space ∨ l.kind = .lineEnd then l.next.passBlank else l
termination_by l.remaining
decreasing_by
  apply remaining_next_lt
  intro hk
  simp_all

theorem remaining_passSpace_le (l : Lexer) : l.passSpace.remaining ≤ l.remaining := by
  simp only [passSpace]
  split
  · exact remaining_next_le l
  · exact Nat.le_refl _

theorem remaining_passLineEnd_le (l : Lexer) : l.passLineEnd.remaining ≤ l.remaining := by
  simp only [passLineEnd]
  split
  · exact remaining_next_le l
  · exact Nat.le_refl _

theorem remaining_passBlank_le (l : Lexer) : l.passBlank.remaining ≤ l.remaining := by
  fun_induction passBlank l with
  | case1 l _ ih => exact Nat.le_trans ih (remaining_next_le l)
  | case2 l _ => exact Nat.le_refl _

end Lexer

end Haml
