import Haml.Text.Pattern
import Haml.Token.Basic

/-!
# Lexemes

Which token stands at the start of a text. Line ends and runs of spaces and tabs
are the same everywhere; what else is recognised depends on whether the text is a
template line, an attribute list or an attribute hash. The first rule that
matches wins, and a character that no rule takes is a token of its own.
-/

namespace Haml

inductive Mode where
  | line
  /-- An attribute list, between parentheses. -/
  | list
  /-- An attribute hash, between braces. -/
  | hash
  deriving DecidableEq, Repr

/-- A token without its place. -/
structure Lexeme where
  kind : Token.Kind
  matched : Text
  text : Text
  deriving DecidableEq, Repr

namespace Lexeme

/-- How the meaning of a token is cut out of the text it covers. -/
inductive Cut where
  | whole
  | afterSign
  | betweenMarks
  deriving DecidableEq, Repr

def Cut.apply : Cut → Text → Text
  | .whole, t => t
  | .afterSign, t => t.drop 1
  | .betweenMarks, t => (t.drop 1).dropLast

structure Rule where
  kind : Token.Kind
  pattern : Pattern
  cut : Cut := .whole

def isSelectorChar (c : Char) : Bool := c.isAlphanum || c == '_' || c == '-'

def isNameStart (c : Char) : Bool := c.isAlpha || c == '_'

def isNameChar (c : Char) : Bool := c.isAlphanum || c == '_'

def signed (sign : Text) (p : Pattern) : Pattern := Pattern.andThen (Pattern.exactly sign) p

/-- A text between two equal quotes, on one line. -/
def quotedBy (q : Char) : Pattern :=
  signed [q] (Pattern.andThen (Pattern.many fun c => c != q && c != '\n') (Pattern.exactly [q]))

def commonRules : List Rule := [
  { kind := .lineEnd, pattern := Pattern.lineEnd },
  { kind := .space, pattern := Pattern.many1 isIndent }]

def lineRules : List Rule := [
  { kind := .continuation
    pattern := signed "|" (Pattern.andThen (Pattern.many isIndent) Pattern.lineEnd) },
  { kind := .element
    pattern := signed "%" (Pattern.headed Char.isAlpha Char.isAlphanum), cut := .afterSign },
  { kind := .idSelector, pattern := signed "#" (Pattern.many1 isSelectorChar), cut := .afterSign },
  { kind := .classSelector
    pattern := signed "." (Pattern.many1 isSelectorChar), cut := .afterSign },
  { kind := .silentComment, pattern := Pattern.exactly "-#" },
  { kind := .escaped, pattern := Pattern.exactly "&=" },
  { kind := .unescaped, pattern := Pattern.exactly "!=" },
  { kind := .reference
    pattern := signed "["
      (Pattern.andThen (Pattern.headed isNameStart isNameChar) (Pattern.exactly "]"))
    cut := .betweenMarks },
  { kind := .doctype, pattern := Pattern.exactly "!!!" },
  { kind := .filter, pattern := signed ":" Pattern.word, cut := .afterSign }]

def hashRules : List Rule := [
  { kind := .identifier, pattern := Pattern.headed isNameStart isNameChar }]

def listRules : List Rule := [
  { kind := .attributeName
    pattern := Pattern.headed Char.isAlpha fun c => c.isAlphanum || c == '-' },
  { kind := .quoted, pattern := quotedBy '\'', cut := .betweenMarks },
  { kind := .quoted, pattern := quotedBy '"', cut := .betweenMarks }]

/-- The rules of a mode, in the order in which they are tried. -/
def rules (mode : Mode) : List Rule :=
  commonRules ++
    match mode with
    | .line => lineRules
    | .list => listRules
    | .hash => hashRules

/-- The kind of a character that no rule takes. -/
def signKind : Char → Token.Kind
  | '\x7b' => .openBrace
  | '\x7d' => .closeBrace
  | ',' => .comma
  | ':' => .colon
  | '/' => .slash
  | '(' => .openParen
  | ')' => .closeParen
  | '=' => .equals
  | '!' => .bang
  | '-' => .minus
  | '&' => .ampersand
  | '<' => .less
  | '>' => .greater
  | '~' => .tilde
  | _ => .other

def Rule.read? (r : Rule) (t : Text) : Option Lexeme :=
  (r.pattern t).map fun m => ⟨r.kind, m, r.cut.apply m⟩

/-- The lexeme at the start of a text; there is none only at its end. -/
def read? (mode : Mode) : Text → Option Lexeme
  | [] => none
  | c :: t =>
    some (((rules mode).findSome? (·.read? (c :: t))).getD ⟨signKind c, [c], [c]⟩)

theorem signed_proper {sign : Text} (h : sign ≠ []) (p : Pattern) :
    Pattern.Proper (signed sign p) :=
  Pattern.andThen_proper (Pattern.exactly_proper h) p

theorem proper_of_mem_rules {mode : Mode} {r : Rule} (h : r ∈ rules mode) :
    Pattern.Proper r.pattern := by
  revert r
  cases mode <;>
    simp [rules, commonRules, lineRules, listRules, hashRules, quotedBy, signed_proper,
      Pattern.lineEnd_proper, Pattern.many1_proper, Pattern.headed_proper,
      Pattern.exactly_proper]

theorem matched_ne_nil {mode : Mode} {t : Text} {x : Lexeme} (h : read? mode t = some x) :
    x.matched ≠ [] := by
  cases t with
  | nil => simp [read?] at h
  | cons c t =>
    simp only [read?, Option.some.injEq] at h
    cases hf : (rules mode).findSome? (·.read? (c :: t)) with
    | none => simp [← h, hf]
    | some y =>
      obtain ⟨r, hr, hy⟩ := List.exists_of_findSome?_eq_some hf
      obtain ⟨m, hm, rfl⟩ := Option.map_eq_some_iff.1 hy
      have hx : x.matched = m := by rw [← h, hf]; rfl
      rw [hx]
      exact proper_of_mem_rules hr _ _ hm

theorem read?_eq_none {mode : Mode} {t : Text} : read? mode t = none ↔ t = [] := by
  cases t <;> simp [read?]

end Lexeme

end Haml
