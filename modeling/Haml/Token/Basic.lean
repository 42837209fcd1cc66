import Haml.Text.Basic

/-!
# Tokens

A token is a stretch of the source with a kind: the text it covers, the part of
that text that carries its meaning, and where it stands.
-/

namespace Haml

namespace Token

inductive Kind where
  | eof
  | space
  | lineEnd
  | continuation
  | element
  | idSelector
  | classSelector
  | reference
  | silentComment
  | escaped
  | unescaped
  | doctype
  | filter
  | attributeName
  | identifier
  | quoted
  | equals
  | bang
  | minus
  | ampersand
  | less
  | greater
  | tilde
  | slash
  | openParen
  | closeParen
  | openBrace
  | closeBrace
  | comma
  | colon
  | other
  deriving DecidableEq, Repr

def Kind.endsLine : Kind → Bool
  | .eof | .lineEnd | .continuation => true
  | _ => false

/-- Whether tokens of this kind break a line: they end it and another follows. -/
def Kind.breaksLine : Kind → Bool
  | .lineEnd | .continuation => true
  | _ => false

def Kind.announcesExpression : Kind → Bool
  | .equals | .escaped | .unescaped | .tilde => true
  | _ => false

/-- Where a token stands: byte offsets of its two ends, and the line and column
of its first character, both from one. -/
structure Span where
  start : Nat
  stop : Nat
  line : Nat
  column : Nat
  deriving DecidableEq, Repr

end Token

structure Token where
  kind : Token.Kind
  /-- The text the token covers. -/
  matched : Text
  /-- The part of that text that carries the meaning. -/
  text : Text
  span : Token.Span
  deriving DecidableEq, Repr

/-- How many columns a run of spaces and tabs is wide; a tab is two columns wide. -/
def indentWidth : Text → Nat
  | [] => 0
  | c :: t => (if c = '\t' then 2 else 1) + indentWidth t

/-- The depth of a line that starts with the given run of spaces and tabs: two
columns, the last pair perhaps incomplete, are a level. -/
def indentDepth (t : Text) : Nat := (indentWidth t + 1) / 2

/-- The depth of a line whose first token this is. -/
def Token.depth (t : Token) : Nat :=
  if t.kind = .space then indentDepth t.text else 0

/-- The line end that a line ended by this token is written with. -/
def Token.newline (t : Token) : Text :=
  match t.kind with
  | .lineEnd => t.matched
  | .continuation => (t.matched.drop 1).dropWhile fun c => c == ' ' || c == '\t'
  | _ => ['\n']

end Haml
