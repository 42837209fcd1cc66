import Haml.Event
import Haml.Html.Attributes
import Haml.Html.Doctype
import Haml.Line.Basic
import Haml.Script.Block

/-!
# The meaning of lines

The instructions that a line stands for, the element that it leaves open, and the order
in which the two come about. They depend on the line, its depth, and whether the element
around it lets lines be set off by line ends and indentation.
-/

namespace Haml

/-- Text on a line of its own, indented, or joined to what surrounds it. -/
def framedText (framed : Bool) (depth : Nat) (t : Text) : Text :=
  if framed then Text.indentation depth ++ t else t.trim

/-- The instructions for text contents; empty text leaves no trace. -/
def textInstructions (text : Text) (framed : Bool) (depth : Nat) (interpolate : Bool)
    (point : Point) (newline : Text) : List Instruction :=
  if text.isEmpty then []
  else [.text (framedText framed depth text) interpolate point .verbatim, .markup newline]

/-- The instructions for an expression at a depth, on a line of its own if
`framed`. -/
def expressionInstructions (depth : Nat) (framed : Bool) (mode : EmbedMode) (code : Text)
    (point : Point) (newline : Text) : List Instruction :=
  let indentation := Text.indentation depth
  if framed then
    [.markup indentation, .expression indentation code mode point, .markup newline]
  else [.expression indentation code mode point]

def Contents.insideTag (depth : Nat) (inner : Bool) (point : Point) :
    Contents → List Instruction
  | .expression mode code p newline =>
    expressionInstructions (depth + 1) inner mode code p newline
  | .text t interpolate _ newline =>
    textInstructions t inner (depth + 1) interpolate point newline

def Contents.withoutTag (depth : Nat) (framed : Bool) (point : Point) :
    Contents → List Instruction
  | .expression mode code p newline =>
    expressionInstructions (depth + 1) true mode code p newline
  | .text t interpolate extra newline =>
    textInstructions t framed (depth + extra) interpolate point newline

def TagHead.attributeInstruction (h : TagHead) : Instruction :=
  let a := h.attributes
  if a.isDynamic then .attributes a h.point
  else .markup (Html.staticAttributes a.ids a.classes a.pairs)

def TagHead.opening (h : TagHead) (depth : Nat) (framed : Bool) : List Instruction :=
  (if h.options.outer then [] else [.trimMarkup]) ++
    (if 0 < depth && h.options.outer && framed then [.markup (Text.indentation depth)] else []) ++
    [.markup ("<" ++ h.name), h.attributeInstruction] ++
    if h.options.selfClosing then
      .markup "/>" :: if h.options.outer then [.markup "\n"] else []
    else .markup ">" :: if h.options.inner then [.markup "\n"] else []

def TagHead.element? (h : TagHead) : Option Element :=
  if h.options.selfClosing then none else some (.tag h.name h.options)

def TagHead.events (h : TagHead) (depth : Nat) (framed : Bool) : List Event :=
  (h.opening depth framed).map .emit ++ (h.element?.map (.opened depth)).toList

def isCondition : Text → Bool
  | '[' :: t => (Text.trimEnd t).getLast? == some ']' && !(Text.trimEnd t).contains '\n'
  | _ => false

namespace Line

def instructions (depth : Nat) (framed : Bool) : Line → List Instruction
  | .doctype parameters newline =>
    [.markup (Text.indentation depth), .markup (Html.doctype parameters ++ newline)]
  | .expression mode c point newline =>
    expressionInstructions depth true mode c point newline
  | .code c newline => [.depth depth, .code c newline]
  | .hidden => []
  | .comment t _ hasContents =>
    [.markup (Text.indentation depth ++ "<!--"), .markup t] ++
      (if isCondition t then [.markup ">"] else []) ++
      if hasContents then [.markup "\n"] else []
  | .escaped t point newline =>
    [.markup (Text.indentation depth), .text t false point .escape, .markup newline]
  | .tag head contents =>
    head.opening depth framed ++ contents.insideTag depth head.options.inner head.point
  | .plain contents point => contents.withoutTag depth framed point

def element? : Line → Option Element
  | .code c _ => (Script.openedBlock? c).map .block
  | .comment t newline _ =>
    some (if isCondition t then .conditional newline else .comment newline)
  | .tag head _ => head.element?
  | _ => none

/-- What happens when a line at `depth` is compiled, in order. The element of a tag or a
comment is open before its contents are written. -/
def events (depth : Nat) (framed : Bool) (line : Line) : List Event :=
  match line with
  | .comment t _ hasContents =>
    [.emit (.markup (Text.indentation depth ++ "<!--")), .emit (.markup t)] ++
      (line.element?.map (.opened depth)).toList ++
      (if isCondition t then [.emit (.markup ">")] else []) ++
      if hasContents then [.emit (.markup "\n")] else []
  | .tag head contents =>
    head.events depth framed ++ (contents.insideTag depth head.options.inner head.point).map .emit
  | _ => (line.instructions depth framed).map .emit ++ (line.element?.map (.opened depth)).toList

/-- The instructions of a line are given in order, and at one point among them its element is
opened. -/
theorem exists_events (line : Line) (depth : Nat) (framed : Bool) :
    ∃ before after : List Instruction, line.instructions depth framed = before ++ after ∧
      line.events depth framed =
        before.map .emit ++ (line.element?.map (.opened depth)).toList ++ after.map .emit := by
  cases line with
  | comment t newline hasContents =>
    refine ⟨[.markup (Text.indentation depth ++ "<!--"), .markup t],
      (if isCondition t then [.markup ">"] else []) ++ if hasContents then [.markup "\n"] else [],
      by simp only [instructions, List.append_assoc], ?_⟩
    cases hc : isCondition t <;> cases hasContents <;> simp [events, element?, hc]
  | tag head contents => exact ⟨_, _, rfl, rfl⟩
  | _ => exact ⟨_, [], (List.append_nil _).symm, (List.append_nil _).symm⟩

theorem filterMap_instruction?_events (line : Line) (depth : Nat) (framed : Bool) :
    (line.events depth framed).filterMap Event.instruction? = line.instructions depth framed := by
  obtain ⟨before, after, hi, he⟩ := line.exists_events depth framed
  rw [he, hi, List.filterMap_append, List.filterMap_append, Event.filterMap_instruction?_emit,
    Event.filterMap_instruction?_emit]
  cases line.element? <;> simp [Event.instruction?]

theorem mem_events {line : Line} {depth : Nat} {framed : Bool} {e : Event}
    (he : e ∈ line.events depth framed) :
    (∃ i ∈ line.instructions depth framed, e = .emit i) ∨ ∃ element, e = .opened depth element := by
  obtain ⟨before, after, hi, hevents⟩ := line.exists_events depth framed
  rw [hevents] at he
  rw [hi]
  simp only [List.mem_append, List.mem_map] at he ⊢
  rcases he with (⟨i, hi, rfl⟩ | he) | ⟨i, hi, rfl⟩
  · exact .inl ⟨i, .inl hi, rfl⟩
  · cases hx : line.element? with
    | none =>
      rw [hx] at he
      cases he
    | some element =>
      rw [hx] at he
      exact .inr ⟨element, List.mem_singleton.1 he⟩
  · exact .inl ⟨i, .inr hi, rfl⟩

theorem filterMap_diagnostic?_events (line : Line) (depth : Nat) (framed : Bool) :
    (line.events depth framed).filterMap Event.diagnostic? = [] := by
  obtain ⟨before, after, -, he⟩ := line.exists_events depth framed
  rw [he, List.filterMap_append, List.filterMap_append, Event.filterMap_diagnostic?_emit,
    Event.filterMap_diagnostic?_emit]
  cases line.element? <;> rfl

end Line

end Haml
