import Haml.Token.Lexer

/-!
# Diagnostics

What can be wrong with a template, and where.
-/

namespace Haml

inductive Fault where
  /-- A tag marked as self-closing is followed by contents. -/
  | selfClosingContents
  /-- Something stands where a line should end. -/
  | expectedLineEnd
  /-- Neither a name nor a closing parenthesis stands in an attribute list. -/
  | expectedAttribute
  | expectedEquals
  | expectedAttributeValue
  | expectedHashKey
  | expectedHashSeparator
  | expectedColon
  /-- A hash key has no value. -/
  | expectedExpression (key : Text)
  | unbalancedBrackets
  | unterminatedExpression
  | unknownFilter (name : Text)
  | pushBack (cause : PushBackFault)
  /-- A filter refuses its block, in its own words. -/
  | refusedByFilter (message : Text)
  deriving DecidableEq, Repr

def Fault.message : Fault → Text
  | .selfClosingContents => "A self-closing tag can not have any contents"
  | .expectedLineEnd => "Expected EOL or EOF"
  | .expectedAttribute =>
    "Expecting either an attribute name to continue the attributes or a closing bracket to end"
  | .expectedEquals => "Expected '=' after attribute name"
  | .expectedAttributeValue => "Expected a quoted string or an identifier for the attribute value"
  | .expectedHashKey => "Expected an identifier for the attribute hash key"
  | .expectedHashSeparator => "Expected ',' or '\x7d' after attribute hash value"
  | .expectedColon => "Expected ':' after attribute hash key"
  | .expectedExpression key => "Expected an expression for attribute hash key '" ++ key ++ "'"
  | .unbalancedBrackets => "Unbalanced brackets in attribute hash expression"
  | .unterminatedExpression => "Unterminated expression in attribute hash"
  | .unknownFilter name =>
    "Filter '" ++ name ++
      "' not registered. Filter functions need to be added to the filter registry"
  | .pushBack cause => cause.message
  | .refusedByFilter message => message

structure Diagnostic where
  fault : Fault
  point : Point
  deriving DecidableEq, Repr

def Diagnostic.report (d : Diagnostic) : Text := d.point.report d.fault.message

/-- The diagnostic in words, for faults of the lexer itself. -/
def Diagnostic.lexerReport (d : Diagnostic) : Text :=
  "Lexer error at line " ++ Text.ofNat d.point.line ++ ", column " ++ Text.ofNat d.point.column ++
    ": " ++ d.fault.message

def Lexer.fault (l : Lexer) (f : Fault) : Diagnostic := ⟨f, l.point⟩

/-- A move that cannot be taken back, as a diagnostic; the line is not quoted. -/
def Lexer.pushBackFault (l : Lexer) (cause : PushBackFault) : Diagnostic :=
  ⟨.pushBack cause, ⟨l.cursor.line, l.cursor.column, []⟩⟩

end Haml
