import Haml.Reading
import Haml.Tag.Basic

/-!
# Reading tags

A tag is an element name or a selector, more selectors, an object reference, an
attribute list, an attribute hash and marks, in this order and all but the first
optional. The list and the hash may go over several lines.
-/

namespace Haml

namespace Lexer

def startsTag (l : Lexer) : Bool :=
  l.kind = .element || l.kind = .idSelector || l.kind = .classSelector

def readName (l : Lexer) : Option Text × Lexer :=
  if l.kind = .element then (some l.token.text, l.next) else (none, l)

def readSelectors (l : Lexer) : (List Text × List Text) × Lexer :=
  if l.kind = .idSelector then
    let r := l.next.readSelectors
    ((l.token.text :: r.1.1, r.1.2), r.2)
  else if l.kind = .classSelector then
    let r := l.next.readSelectors
    ((r.1.1, l.token.text :: r.1.2), r.2)
  else (([], []), l)
termination_by l.remaining
decreasing_by all_goals exact remaining_next_lt (by simp_all)

def readReference (l : Lexer) : Option Text × Lexer :=
  if l.kind = .reference then (some l.token.text, l.next) else (none, l)

/-- The marks for white space; each counts once. -/
def readSpaceMarks (o : TagOptions) (l : Lexer) : TagOptions × Lexer :=
  if l.kind = .greater ∧ o.outer then l.next.readSpaceMarks { o with outer := false }
  else if l.kind = .less ∧ o.inner then l.next.readSpaceMarks { o with inner := false }
  else (o, l)
termination_by l.remaining
decreasing_by all_goals exact remaining_next_lt (by simp_all)

def readMarks (l : Lexer) : TagOptions × Lexer :=
  if l.kind = .slash then l.next.readSpaceMarks { selfClosing := true }
  else l.readSpaceMarks {}

def readAttribute (l : Lexer) : Reading (Text × Text) :=
  let sign := l.next.passSpace
  if sign.kind = .equals then
    let value := sign.next.passSpace
    if value.kind = .quoted ∨ value.kind = .attributeName then
      { value := .ok (l.token.text, value.token.text), lexer := value.next }
    else { value := .error (value.fault .expectedAttributeValue), lexer := value }
  else { value := .error (sign.fault .expectedEquals), lexer := sign }

theorem remaining_readAttribute_lt {l : Lexer} (h : l.kind ≠ .eof) :
    l.readAttribute.lexer.remaining < l.remaining := by
  have hs : l.next.passSpace.remaining < l.remaining :=
    Nat.lt_of_le_of_lt (remaining_passSpace_le _) (remaining_next_lt h)
  have hv : l.next.passSpace.next.passSpace.remaining ≤ l.next.passSpace.remaining :=
    Nat.le_trans (remaining_passSpace_le _) (remaining_next_le _)
  have hn := remaining_next_le l.next.passSpace.next.passSpace
  simp only [readAttribute]
  split
  · split <;> simp only <;> omega
  · exact hs

def readAttributes (l : Lexer) : Reading (List (Text × Text)) :=
  match _ : l.kind with
  | .closeParen => { value := .ok [], lexer := l }
  | .attributeName =>
    match l.readAttribute.value with
    | .error e => { value := .error e, lexer := l.readAttribute.lexer }
    | .ok a =>
      let r := l.readAttribute.lexer.readAttributes
      { value := r.value.map (a :: ·), lexer := r.lexer }
  | .space => l.next.readAttributes
  | .lineEnd => l.next.readAttributes
  | _ => { value := .error (l.fault .expectedAttribute), lexer := l }
termination_by l.remaining
decreasing_by
  · exact remaining_readAttribute_lt (by simp_all)
  · exact remaining_next_lt (by simp_all)
  · exact remaining_next_lt (by simp_all)

def readAttributeList (l : Lexer) : Reading (List (Text × Text)) :=
  if l.kind = .openParen then
    let r := (l.inMode .list).next.readAttributes
    match r.value with
    | .ok as => { value := .ok as, lexer := (r.lexer.inMode .line).next }
    | .error e => { value := .error e, lexer := r.lexer.inMode .line }
  else { value := .ok [], lexer := l }

/-- One entry of an attribute hash; the lexer is left behind the expression. -/
def readHashEntry (l : Lexer) : Reading (Text × Text) :=
  let sign := l.next.passSpace
  if sign.kind = .colon then
    let r := sign.readExpression
    let probe := Probe.mk sign.cursor.position r.2.cursor.position r.1.toOption
    match r.1 with
    | .error e => { value := .error e, lexer := r.2, probes := [probe] }
    | .ok e =>
      if e.isEmpty then
        { value := .error (r.2.fault (.expectedExpression l.token.text))
          lexer := r.2
          probes := [probe] }
      else { value := .ok (l.token.text, e), lexer := r.2, probes := [probe] }
  else { value := .error (sign.fault .expectedColon), lexer := sign }

theorem remaining_readHashEntry_lt {l : Lexer} (h : l.kind ≠ .eof) :
    l.readHashEntry.lexer.remaining < l.remaining := by
  have hs : l.next.passSpace.remaining < l.remaining :=
    Nat.lt_of_le_of_lt (remaining_passSpace_le _) (remaining_next_lt h)
  have he := Nat.lt_of_le_of_lt (remaining_readExpression_le _) hs
  simp only [readHashEntry]
  split
  · split
    · exact he
    · split <;> exact he
  · exact hs

/-- Less is left at the sign behind an entry of a hash. -/
theorem remaining_hashSeparator_lt {l : Lexer} (h : l.passBlank.kind = .identifier) :
    l.passBlank.readHashEntry.lexer.next.passBlank.remaining < l.remaining :=
  calc l.passBlank.readHashEntry.lexer.next.passBlank.remaining
    _ ≤ l.passBlank.readHashEntry.lexer.next.remaining := remaining_passBlank_le _
    _ ≤ l.passBlank.readHashEntry.lexer.remaining := remaining_next_le _
    _ < l.passBlank.remaining := remaining_readHashEntry_lt (by simp [h])
    _ ≤ l.remaining := remaining_passBlank_le l

def readHashEntries (l : Lexer) : Reading (List (Text × Text)) :=
  let key := l.passBlank
  match _ : key.kind with
  | .closeBrace => { value := .ok [], lexer := key }
  | .identifier =>
    let entry := key.readHashEntry
    match entry.value with
    | .error e => { value := .error e, lexer := entry.lexer, probes := entry.probes }
    | .ok e =>
      let sign := entry.lexer.next.passBlank
      match sign.kind with
      | .comma =>
        let r := sign.next.readHashEntries
        { value := r.value.map (e :: ·), lexer := r.lexer, probes := entry.probes ++ r.probes }
      | .closeBrace => { value := .ok [e], lexer := sign, probes := entry.probes }
      | _ =>
        { value := .error (sign.fault .expectedHashSeparator)
          lexer := sign
          probes := entry.probes }
  | _ => { value := .error (key.fault .expectedHashKey), lexer := key }
termination_by l.remaining
decreasing_by
  exact Nat.lt_of_le_of_lt (remaining_next_le sign) (remaining_hashSeparator_lt (by assumption))

section HashEntries

variable {l : Lexer} {e : Text × Text}

theorem readHashEntries_of_closed (hk : l.passBlank.kind = .closeBrace) :
    l.readHashEntries = { value := .ok [], lexer := l.passBlank } := by
  rw [readHashEntries.eq_def]
  simp only
  split <;> simp_all

theorem readHashEntries_of_noKey (hk : l.passBlank.kind ≠ .closeBrace)
    (hi : l.passBlank.kind ≠ .identifier) :
    l.readHashEntries =
      { value := .error (l.passBlank.fault .expectedHashKey), lexer := l.passBlank } := by
  rw [readHashEntries.eq_def]
  simp only

variable (hk : l.passBlank.kind = .identifier)

include hk

theorem readHashEntries_of_refused {d : Diagnostic}
    (hd : l.passBlank.readHashEntry.value = .error d) :
    l.readHashEntries =
      { value := .error d
        lexer := l.passBlank.readHashEntry.lexer
        probes := l.passBlank.readHashEntry.probes } := by
  rw [readHashEntries.eq_def]
  simp only
  split <;> simp_all

variable (he : l.passBlank.readHashEntry.value = .ok e)

include he

/-- Behind an entry, what it is followed by says whether there are more. -/
theorem readHashEntries_of_entry :
    l.readHashEntries =
      let entry := l.passBlank.readHashEntry
      let sign := entry.lexer.next.passBlank
      match sign.kind with
      | .comma =>
        let r := sign.next.readHashEntries
        { value := r.value.map (e :: ·), lexer := r.lexer, probes := entry.probes ++ r.probes }
      | .closeBrace => { value := .ok [e], lexer := sign, probes := entry.probes }
      | _ =>
        { value := .error (sign.fault .expectedHashSeparator)
          lexer := sign
          probes := entry.probes } := by
  rw [readHashEntries.eq_def]
  simp only
  split <;> simp_all

end HashEntries

def readAttributeHash (l : Lexer) : Reading (List (Text × Text)) :=
  if l.kind = .openBrace then
    let r := (l.inMode .hash).next.readHashEntries
    match r.value with
    | .ok es => { value := .ok es, lexer := (r.lexer.inMode .line).next, probes := r.probes }
    | .error e => { value := .error e, lexer := r.lexer.inMode .line, probes := r.probes }
  else { value := .ok [], lexer := l }

theorem remaining_readSelectors_le (l : Lexer) :
    l.readSelectors.2.remaining ≤ l.remaining := by
  fun_induction readSelectors l with
  | case1 l _ r ih => exact Nat.le_trans ih (remaining_next_le l)
  | case2 l _ _ r ih => exact Nat.le_trans ih (remaining_next_le l)
  | case3 l _ _ => exact Nat.le_refl _

theorem kind_ne_eof_of_startsTag {l : Lexer} (h : l.startsTag) : l.kind ≠ .eof := by
  intro hk
  simp [startsTag, hk] at h

/-- The first token of a tag is read with its name or with its selectors. -/
theorem readSelectors_readName {l : Lexer} (h : l.startsTag) :
    l.readName.2.readSelectors.2 = l.next.readSelectors.2 := by
  by_cases he : l.kind = .element
  · simp only [readName, he, if_true]
  · have hn : l.readName.2 = l := by simp [readName, he]
    rw [hn, readSelectors]
    by_cases hi : l.kind = .idSelector
    · simp [hi]
    · have hc : l.kind = .classSelector := by simpa [startsTag, he, hi] using h
      simp [hc]

/-- A tag is read past its first token. -/
theorem remaining_readSelectors_lt {l : Lexer} (h : l.startsTag) :
    l.readName.2.readSelectors.2.remaining < l.remaining := by
  rw [readSelectors_readName h]
  exact Nat.lt_of_le_of_lt (remaining_readSelectors_le _)
    (remaining_next_lt (kind_ne_eof_of_startsTag h))

theorem remaining_readReference_le (l : Lexer) :
    l.readReference.2.remaining ≤ l.remaining := by
  simp only [readReference]
  split
  · exact remaining_next_le l
  · exact Nat.le_refl _

theorem remaining_readSpaceMarks_le (o : TagOptions) (l : Lexer) :
    (l.readSpaceMarks o).2.remaining ≤ l.remaining := by
  fun_induction readSpaceMarks o l with
  | case1 o l _ ih => exact Nat.le_trans ih (remaining_next_le l)
  | case2 o l _ _ ih => exact Nat.le_trans ih (remaining_next_le l)
  | case3 o l _ _ => exact Nat.le_refl _

theorem remaining_readMarks_le (l : Lexer) : l.readMarks.2.remaining ≤ l.remaining := by
  simp only [readMarks]
  split
  · exact Nat.le_trans (remaining_readSpaceMarks_le _ _) (remaining_next_le l)
  · exact remaining_readSpaceMarks_le _ _

theorem remaining_readAttributes_le (l : Lexer) :
    l.readAttributes.lexer.remaining ≤ l.remaining := by
  fun_induction readAttributes l with
  | case1 l _ => exact Nat.le_refl _
  | case2 l h e _ => exact Nat.le_of_lt (remaining_readAttribute_lt (by simp [h]))
  | case3 l h a _ r ih =>
    exact Nat.le_trans ih (Nat.le_of_lt (remaining_readAttribute_lt (by simp [h])))
  | case4 l _ ih => exact Nat.le_trans ih (remaining_next_le l)
  | case5 l _ ih => exact Nat.le_trans ih (remaining_next_le l)
  | case6 l _ _ _ _ => exact Nat.le_refl _

theorem remaining_readAttributeList_le (l : Lexer) :
    l.readAttributeList.lexer.remaining ≤ l.remaining := by
  simp only [readAttributeList]
  split
  · have hn : (l.inMode .list).next.remaining ≤ l.remaining := remaining_next_le (l.inMode .list)
    have hr := Nat.le_trans (remaining_readAttributes_le _) hn
    split
    · exact Nat.le_trans (remaining_next_le _) hr
    · exact hr
  · exact Nat.le_refl _

theorem remaining_readHashEntries_le (l : Lexer) :
    l.readHashEntries.lexer.remaining ≤ l.remaining := by
  fun_induction readHashEntries l with
  | case1 l key _ => exact remaining_passBlank_le l
  | case2 l key h entry e _ =>
    exact Nat.le_trans (Nat.le_of_lt (remaining_readHashEntry_lt (by simp [h])))
      (remaining_passBlank_le l)
  | case3 l key h entry e _ sign _ r ih =>
    have hs : sign.remaining < l.remaining := remaining_hashSeparator_lt h
    exact Nat.le_trans ih (Nat.le_trans (remaining_next_le sign) (Nat.le_of_lt hs))
  | case4 l key h entry e _ sign _ =>
    exact Nat.le_of_lt (remaining_hashSeparator_lt h)
  | case5 l key h entry e _ sign _ _ =>
    exact Nat.le_of_lt (remaining_hashSeparator_lt h)
  | case6 l key _ _ => exact remaining_passBlank_le l

theorem remaining_readAttributeHash_le (l : Lexer) :
    l.readAttributeHash.lexer.remaining ≤ l.remaining := by
  simp only [readAttributeHash]
  split
  · have hn : (l.inMode .hash).next.remaining ≤ l.remaining := remaining_next_le (l.inMode .hash)
    have hr := Nat.le_trans (remaining_readHashEntries_le _) hn
    split
    · exact Nat.le_trans (remaining_next_le _) hr
    · exact hr
  · exact Nat.le_refl _

/-- Whether something other than spaces and tabs follows on the line. -/
def hasInlineContents (l : Lexer) : Bool :=
  if l.kind = .space then !l.next.endsLine else !l.endsLine

/-- Whether a tag or comment at `depth` that ends here has contents: something on
its own line, or a deeper line right below. -/
def hasContents (l : Lexer) (depth : Nat) : Bool :=
  l.hasInlineContents ||
    match l.kind with
    | .eof => false
    | .space => depth < (l.lookAhead 2).depth
    | _ => depth < (l.lookAhead 1).depth

/-- A whole tag, of a line at `depth`. An element that has no contents and may
close itself does so. -/
def readTag (l : Lexer) (depth : Nat) : Reading TagHead :=
  let name := l.readName
  let selectors := name.2.readSelectors
  let reference := selectors.2.readReference
  let list := reference.2.readAttributeList
  match list.value with
  | .error e => { value := .error e, lexer := list.lexer }
  | .ok pairs =>
    let point := list.lexer.point
    let hash := list.lexer.readAttributeHash
    match hash.value with
    | .error e => { value := .error e, lexer := hash.lexer, probes := hash.probes }
    | .ok entries =>
      let marks := hash.lexer.readMarks
      if marks.1.selfClosing && marks.2.hasInlineContents then
        { value := .error ⟨.selfClosingContents, point⟩, lexer := marks.2, probes := hash.probes }
      else
        let tagName := name.1.getD defaultTagName
        let closes := isSelfClosingName tagName && !marks.2.hasContents depth
        { value := .ok
            { name := tagName
              attributes := ⟨selectors.1.1, selectors.1.2, pairs, entries, reference.1⟩
              options := { marks.1 with selfClosing := marks.1.selfClosing || closes }
              point := point }
          lexer := marks.2
          probes := hash.probes }

theorem remaining_readTag_lt {l : Lexer} (h : l.startsTag) (depth : Nat) :
    (l.readTag depth).lexer.remaining < l.remaining := by
  have hs := remaining_readSelectors_lt h
  have hr := Nat.lt_of_le_of_lt (remaining_readReference_le _) hs
  have hl := Nat.lt_of_le_of_lt (remaining_readAttributeList_le _) hr
  have hh := Nat.lt_of_le_of_lt (remaining_readAttributeHash_le _) hl
  have hm := Nat.lt_of_le_of_lt (remaining_readMarks_le _) hh
  simp only [readTag]
  split
  · exact hl
  · split
    · exact hh
    · split <;> exact hm

end Lexer

end Haml
