import Haml.Diagnostic

/-!
# Expressions

The value of an attribute hash entry is script text whose end is found by its
brackets and quotes alone. It ends before a comma or a closing brace outside all
brackets, or at the end of its line.
-/

namespace Haml

namespace Expression

inductive Ending where
  /-- Every bracket and quote is closed. -/
  | complete
  /-- The line ends inside a bracket or a quote. -/
  | unterminated
  /-- A closing bracket does not belong to the innermost open one. -/
  | unbalanced
  deriving DecidableEq, Repr

structure Scanned where
  text : Text
  ending : Ending
  deriving DecidableEq, Repr

def isQuote (c : Char) : Bool := c == '\'' || c == '"' || c == '\x60'

def closer? : Char → Option Char
  | '(' => some ')'
  | '[' => some ']'
  | '\x7b' => some '\x7d'
  | _ => none

def isCloser (c : Char) : Bool := c == ')' || c == ']' || c == '\x7d'

/-- The verdict when reading stops with these brackets and this quote open. -/
def stopped (closers : Text) (quote : Option Char) : Scanned :=
  ⟨[], if closers.isEmpty && quote.isNone then .complete else .unterminated⟩

def Scanned.push (t : Text) (s : Scanned) : Scanned := { s with text := t ++ s.text }

/-- Reads an expression inside the brackets still to be closed by `closers`,
innermost first, and inside `quote`. In a quote a backslash hides the character
after it, also a line end. -/
def scan : Text → Option Char → Text → Scanned
  | closers, quote, [] => stopped closers quote
  | closers, some q, '\\' :: '\r' :: '\n' :: t => (scan closers (some q) t).push ['\\', '\r', '\n']
  | closers, some q, '\\' :: c :: t => (scan closers (some q) t).push ['\\', c]
  | closers, some q, c :: t =>
    if isLineBreak c then stopped closers (some q)
    else (scan closers (if c = q then none else some q) t).push [c]
  | closers, none, c :: t =>
    if isQuote c then (scan closers (some c) t).push [c]
    else
      match closer? c with
      | some d => (scan (d :: closers) none t).push [c]
      | none =>
        if isCloser c then
          match closers with
          | [] => if c = '\x7d' then stopped [] none else ⟨[], .unbalanced⟩
          | d :: outer => if c = d then (scan outer none t).push [c] else ⟨[], .unbalanced⟩
        else if isLineBreak c || (c == ',' && closers.isEmpty) then stopped closers none
        else (scan closers none t).push [c]

def Ending.fault? : Ending → Option Fault
  | .complete => none
  | .unterminated => some .unterminatedExpression
  | .unbalanced => some .unbalancedBrackets

end Expression

/-- Reads an expression behind the current token, which stays current. -/
def Lexer.readExpression (l : Lexer) : Except Diagnostic Text × Lexer :=
  let s := Expression.scan [] none l.rest
  let l' := l.skip s.text
  match s.ending.fault? with
  | none => (.ok s.text.trim, l')
  | some f => (.error (l'.fault f), l')

theorem Lexer.remaining_readExpression_le (l : Lexer) :
    l.readExpression.2.remaining ≤ l.remaining := by
  simp only [readExpression]
  split <;> exact remaining_skip_le l _

end Haml
