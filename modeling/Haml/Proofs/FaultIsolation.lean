import Haml.Proofs.Rendering

/-!
# Faulty lines

Three kinds of lines are refused wherever they stand. In a tolerant compilation
each costs itself and the lines below it, and nothing else: all other lines are
compiled as if it were not there, and it is reported once.
-/

namespace Haml

abbrev AttributeName := Word Char.isAlpha fun c => c.isAlphanum || c == '-'

abbrev FilterName := Word isWordChar isWordChar

/-- Lines that are refused when the given filters are registered. -/
inductive FaultyLine (filters : FilterRegistry) where
  /-- An attribute without a value. -/
  | valueless (name : ElementName) (a b : AttributeName)
  /-- A filter that is not registered. -/
  | unregistered (name : FilterName) (unknown : filters.find? name.text = none)
  /-- Contents behind a tag that closes itself. -/
  | selfClosing (name : ElementName) (t : PlainText) (visible : ∃ c ∈ t.text, isIndent c = false)

namespace FaultyLine

variable {filters : FilterRegistry}

def text : FaultyLine filters → Text
  | valueless name a b => '%' :: name.text ++ '(' :: (a.text ++ ' ' :: (b.text ++ [')']))
  | unregistered name _ => ':' :: name.text
  | selfClosing name t _ => '%' :: name.text ++ '/' :: ' ' :: t.text

def message : FaultyLine filters → Text
  | valueless _ _ _ => "Expected '=' after attribute name"
  | unregistered name _ =>
    "Filter '" ++ name.text ++
      "' not registered. Filter functions need to be added to the filter registry"
  | selfClosing _ _ _ => "A self-closing tag can not have any contents"

theorem lineBody (x : FaultyLine filters) : LineBody x.text := by
  have htag (name : ElementName) {t : Text} (h : OneLine t) (h' : Unbarred t) :
      LineBody ('%' :: name.text ++ t) :=
    ⟨(Container.tag name).lineBody.oneLine.append h,
      (Container.tag name).lineBody.unbarred.append h', _, _, rfl, rfl⟩
  cases x with
  | valueless name a b =>
    apply htag
    · have ha := a.oneLine_text ⟨rfl, rfl⟩ ⟨rfl, rfl⟩
      have hb := b.oneLine_text ⟨rfl, rfl⟩ ⟨rfl, rfl⟩
      exact OneLine.append (s := ['(']) (by decide)
        (ha.append (OneLine.append (s := [' ']) (by decide) (hb.append (by decide))))
    · apply unbarred_of_not_mem
      have ha : '|' ∉ a.text := a.not_mem_text rfl rfl
      have hb : '|' ∉ b.text := b.not_mem_text rfl rfl
      simp [ha, hb]
  | unregistered name _ =>
    exact ⟨OneLine.append (s := [':']) (by decide) (name.oneLine_text ⟨rfl, rfl⟩ ⟨rfl, rfl⟩),
      Unbarred.append (s := [':']) (by decide) (unbarred_of_not_mem (name.not_mem_text rfl rfl)),
      _, _, rfl, rfl⟩
  | selfClosing name t _ =>
    exact htag name (OneLine.append (s := ['/', ' ']) (by decide) t.oneLine)
      (Unbarred.append (s := ['/', ' ']) (by decide) t.unbarred)

end FaultyLine

instance (filters : FilterRegistry) : FaultyForm (FaultyLine filters) where
  text := FaultyLine.text
  message := FaultyLine.message
  lineBody := FaultyLine.lineBody

theorem Lexeme.read?_filter (name : FilterName) (t : Text) :
    read? .line (':' :: name.text ++ '\n' :: t) = some ⟨.filter, ':' :: name.text, name.text⟩ := by
  have hword : Pattern.word (name.text ++ '\n' :: t) = some name.text :=
    name.headed_text (by decide) t
  have hrules : (rules .line).findSome? (·.read? (':' :: (name.text ++ '\n' :: t))) =
      some ⟨.filter, ':' :: name.text, name.text⟩ := by
    simp [rules, commonRules, lineRules, Rule.read?, hword, Pattern.lineEnd, Pattern.many1,
      Pattern.headed, isIndent, Cut.apply, signed, Pattern.andThen, Pattern.exactly]
  rw [List.cons_append, read?, hrules]
  rfl

/-- A word for which a mode has a rule of its own is read to its end. -/
theorem Lexeme.read?_word {mode : Mode} {kind : Token.Kind} {p q : Char → Bool}
    {others : List Rule}
    (hrules : rules mode =
      commonRules ++ { kind := kind, pattern := Pattern.headed p q } :: others)
    (hbreak : p '\n' = false ∧ p '\r' = false) (hindent : p ' ' = false ∧ p '\t' = false)
    (w : Word p q) {c : Char} (hc : q c = false) (t : Text) :
    read? mode (w.text ++ c :: t) = some ⟨kind, w.text, w.text⟩ := by
  have hword := w.headed_text hc t
  have hend : Pattern.lineEnd (w.text ++ c :: t) = none :=
    Pattern.lineEnd_eq_none.2 (isLineBreak_eq_false hbreak.1 hbreak.2 w.head_mem)
  have hspace : Pattern.many1 isIndent (w.text ++ c :: t) = none := by
    have hi : isIndent w.head = false := isIndent_eq_false hindent.1 hindent.2 w.head_mem
    simp [Pattern.many1, Word.text, Pattern.headed, hi]
  have hfirst : (rules mode).findSome? (·.read? (w.text ++ c :: t)) =
      some ⟨kind, w.text, w.text⟩ := by
    simp [hrules, commonRules, Rule.read?, hword, hend, hspace, Cut.apply]
  rw [Word.text, List.cons_append] at hfirst ⊢
  rw [read?, hfirst]
  rfl

theorem Lexeme.read?_attributeName (name : AttributeName) {c : Char}
    (hc : (c.isAlphanum || c == '-') = false) (t : Text) :
    read? .list (name.text ++ c :: t) = some ⟨.attributeName, name.text, name.text⟩ :=
  read?_word rfl ⟨rfl, rfl⟩ ⟨rfl, rfl⟩ name hc t

namespace Lexer

variable {l l' : Lexer} {n d : Nat} {more : Text} {e : Diagnostic}

theorem readAttributes_of_error (hk : l.kind = .attributeName)
    (he : l.readAttribute.value = .error e) :
    l.readAttributes = { value := .error e, lexer := l.readAttribute.lexer } := by
  rw [readAttributes]
  split <;> simp_all

/-- An attribute list that starts with a name and no sign behind it. -/
theorem readTag_valueless (hk : l.kind = .element) (hopen : l.next.kind = .openParen)
    (hname : (l.next.inMode .list).next.kind = .attributeName)
    (hsign : (l.next.inMode .list).next.next.passSpace.kind ≠ .equals) (d : Nat) :
    l.readTag d =
      { value := .error ((l.next.inMode .list).next.next.passSpace.fault .expectedEquals)
        lexer := (l.next.inMode .list).next.next.passSpace.inMode .line } := by
  have hselectors : l.next.readSelectors = (([], []), l.next) :=
    readSelectors_of_ne (by rw [hopen]; decide) (by rw [hopen]; decide)
  have hreference : l.next.readReference = (none, l.next) :=
    readReference_of_ne (by rw [hopen]; decide)
  have hattribute : (l.next.inMode .list).next.readAttribute =
      { value := .error ((l.next.inMode .list).next.next.passSpace.fault .expectedEquals)
        lexer := (l.next.inMode .list).next.next.passSpace } := by
    simp only [readAttribute, hsign, if_false]
  have hattributes := readAttributes_of_error hname (by rw [hattribute])
  simp only [readTag, readName_of_element hk, hselectors, hreference, readAttributeList, hopen,
    if_true, hattributes, hattribute]

/-- A mark that closes the tag, and something behind it. -/
theorem readTag_selfClosing (hk : l.kind = .element) (hslash : l.next.kind = .slash)
    (hspace : l.next.next.kind = .space) (hend : l.next.next.next.endsLine = false) (d : Nat) :
    l.readTag d =
      { value := .error ⟨.selfClosingContents, l.next.point⟩, lexer := l.next.next } := by
  have hselectors : l.next.readSelectors = (([], []), l.next) :=
    readSelectors_of_ne (by rw [hslash]; decide) (by rw [hslash]; decide)
  have hmarks : l.next.readMarks = ({ selfClosing := true }, l.next.next) := by
    rw [readMarks, if_pos hslash,
      readSpaceMarks_of_ne (by rw [hspace]; decide) (by rw [hspace]; decide)]
  have hinline : l.next.next.hasInlineContents = true := by
    rw [hasInlineContents, if_pos hspace, hend]
    rfl
  simp only [readTag, readName_of_element hk, hselectors,
    readReference_of_ne (l := l.next) (by rw [hslash]; decide),
    readAttributeList_of_ne (l := l.next) (by rw [hslash]; decide),
    readAttributeHash_of_ne (l := l.next) (by rw [hslash]; decide), hmarks, hinline, Bool.and_self,
    if_true]

end Lexer

namespace Context

variable {ctx : Context} {l l' : Lexer} {d : Nat} {e : Diagnostic}

/-- A line whose tag is refused does nothing. -/
theorem ownStep_of_refusedTag (stack : ElementStack) (hk : l.kind = .element)
    (ht : l.readTag d = { value := .error e, lexer := l' }) :
    ctx.ownStep stack l d =
      { events := [], stack := stack, lexer := l', fault := some e } := by
  have hdir : l.directive? Lexer.takeAnyLine d = none := by
    simp [Lexer.directive?, hk, Token.Kind.announcesExpression]
  have hstart : l.startsTag := by simp [Lexer.startsTag, hk]
  rw [ownStep_eq, if_neg (by rw [hk]; decide), lineStep_eq, hdir]
  simp [hstart, ht]

end Context

/-- Text with a visible character is a line behind its leading blanks. -/
theorem PlainText.exists_lineBody (t : PlainText) (h : ∃ c ∈ t.text, isIndent c = false) :
    ∃ w b, t.text = w ++ b ∧ (∀ c ∈ w, isIndent c = true) ∧ LineBody b := by
  have hsplit : t.text = t.text.takeWhile isIndent ++ t.text.dropWhile isIndent :=
    List.takeWhile_append_dropWhile.symm
  have hone := t.oneLine
  have hbar := t.unbarred
  rw [hsplit] at hone hbar
  refine ⟨_, _, hsplit, fun c hc => List.mem_takeWhile_imp hc,
    hone.of_append_right, hbar.of_append_right, ?_⟩
  cases hb : t.text.dropWhile isIndent with
  | nil =>
    obtain ⟨c, hc, hi⟩ := h
    rw [List.dropWhile_eq_nil_iff.1 hb c hc] at hi
    cases hi
  | cons a u =>
    have ha := List.head?_dropWhile_not isIndent t.text
    rw [hb] at ha
    exact ⟨a, u, rfl, by simpa using ha⟩

namespace FaultyLine

variable {filters : FilterRegistry} {stack : ElementStack} {l : Lexer} {n : Nat} {more : Text}

theorem refuses_valueless (name : ElementName) (a b : AttributeName) (d : Nat)
    (hl : l.Reads .line n ((valueless name a b : FaultyLine filters).text ++ '\n' :: more)) :
    ∃ diagnostic l', Context.ownStep ⟨true, filters⟩ stack l d =
        { events := [], stack := stack, lexer := l', fault := some diagnostic } ∧
      diagnostic.fault = .expectedEquals ∧ diagnostic.point.line = n ∧ l'.Within n more := by
  have htext : (valueless name a b : FaultyLine filters).text ++ '\n' :: more =
      '%' :: name.text ++ '(' :: (a.text ++ ' ' :: (b.text ++ ')' :: '\n' :: more)) := by
    simp [text]
  rw [htext] at hl
  have hon : l.On .line n ⟨.element, '%' :: name.text, name.text⟩ _ :=
    Lexer.Reads.on hl (Lexeme.read?_element name rfl _) (Container.tag name).lineBody.oneLine
  have hopen : l.next.On .line n ⟨.openParen, ['('], ['(']⟩ _ :=
    Lexer.Reads.on hon.next rfl (by decide)
  have hname : (l.next.inMode .list).next.On .list n ⟨.attributeName, a.text, a.text⟩ _ :=
    Lexer.Reads.on (hopen.inMode .list).next (Lexeme.read?_attributeName a rfl _)
      (a.oneLine_text ⟨rfl, rfl⟩ ⟨rfl, rfl⟩)
  have hspace : (l.next.inMode .list).next.next.On .list n ⟨.space, [' '], [' ']⟩ _ :=
    Lexer.Reads.on hname.next (Lexer.read?_space (w := []) (by simp [isIndent])
      (isIndent_eq_false rfl rfl b.head_mem) .list _) (by decide)
  have hpass : (l.next.inMode .list).next.next.passSpace =
      (l.next.inMode .list).next.next.next := if_pos hspace.kind
  have hsign : (l.next.inMode .list).next.next.passSpace.On .list n
      ⟨.attributeName, b.text, b.text⟩ (')' :: '\n' :: more) := by
    rw [hpass]
    exact Lexer.Reads.on hspace.next (Lexeme.read?_attributeName b rfl _)
      (b.oneLine_text ⟨rfl, rfl⟩ ⟨rfl, rfl⟩)
  refine ⟨_, _, Context.ownStep_of_refusedTag stack hon.kind (Lexer.readTag_valueless hon.kind
    hopen.kind hname.kind (by simp [hsign.kind]) d), rfl, hsign.line, ?_, hsign.line, ?_⟩
  · rw [Lexer.endsLine_inMode, Lexer.endsLine, hsign.kind]
    rfl
  · exact ⟨[')'], hsign.rest, by decide, by decide⟩

theorem refuses_unregistered (name : FilterName) (unknown : filters.find? name.text = none)
    (d : Nat) (hl : l.Reads .line n ((unregistered name unknown).text ++ '\n' :: more)) :
    ∃ diagnostic l', Context.ownStep ⟨true, filters⟩ stack l d =
        { events := [], stack := stack, lexer := l', fault := some diagnostic } ∧
      diagnostic.fault = .unknownFilter name.text ∧ diagnostic.point.line = n ∧
      l'.Within n more := by
  have hwithin := hl.within (unregistered name unknown).lineBody
  have hon : l.On .line n ⟨.filter, ':' :: name.text, name.text⟩ ('\n' :: more) :=
    Lexer.Reads.on hl (Lexeme.read?_filter name more)
      (unregistered name unknown).lineBody.oneLine
  refine ⟨l.fault (.unknownFilter name.text), l, ?_, rfl, hon.line, hwithin⟩
  have htext : l.token.text = name.text := hon.text
  rw [Context.ownStep_eq, if_pos hon.kind, Context.filterStep_eq, htext, unknown]

theorem refuses_selfClosing (name : ElementName) (t : PlainText)
    (visible : ∃ c ∈ t.text, isIndent c = false) (d : Nat)
    (hl : l.Reads .line n
      ((selfClosing name t visible : FaultyLine filters).text ++ '\n' :: more)) :
    ∃ diagnostic l', Context.ownStep ⟨true, filters⟩ stack l d =
        { events := [], stack := stack, lexer := l', fault := some diagnostic } ∧
      diagnostic.fault = .selfClosingContents ∧ diagnostic.point.line = n ∧
      l'.Within n more := by
  obtain ⟨w, b, ht, hw, hb⟩ := t.exists_lineBody visible
  have htext : (selfClosing name t visible : FaultyLine filters).text ++ '\n' :: more =
      '%' :: name.text ++ '/' :: (' ' :: w ++ (b ++ '\n' :: more)) := by
    simp [text, ht]
  rw [htext] at hl
  have hon : l.On .line n ⟨.element, '%' :: name.text, name.text⟩ _ :=
    Lexer.Reads.on hl (Lexeme.read?_element name rfl _) (Container.tag name).lineBody.oneLine
  have hslash : l.next.On .line n ⟨.slash, ['/'], ['/']⟩ _ :=
    Lexer.Reads.on hon.next rfl (by decide)
  have hblank : ∀ c ∈ ' ' :: w, isIndent c = true := by
    intro c hc
    rcases List.mem_cons.1 hc with rfl | hc
    · rfl
    · exact hw c hc
  have hspace : l.next.next.On .line n ⟨.space, ' ' :: w, ' ' :: w⟩ (b ++ '\n' :: more) := by
    obtain ⟨a, u, rfl, ha⟩ := hb.visible
    exact Lexer.Reads.on hslash.next (Lexer.read?_space hblank ha .line _)
      (oneLine_of_all rfl rfl hblank)
  have hend := (hspace.next.within hb).endsLine
  refine ⟨_, _, Context.ownStep_of_refusedTag stack hon.kind (Lexer.readTag_selfClosing hon.kind
    hslash.kind hspace.kind hend d), rfl, hslash.line, ?_, hspace.line, ?_⟩
  · rw [Lexer.endsLine, hspace.kind]
    rfl
  · exact ⟨b, hspace.rest, hb.oneLine, hb.unbarred⟩

/-- A tolerant compilation refuses every faulty line, with its message. -/
theorem refuses (x : FaultyLine filters) :
    Context.Refuses ⟨true, filters⟩ (FaultyForm.text x) (FaultyForm.message x) := by
  refine ⟨rfl, fun stack l n d more hl => ?_⟩
  cases x with
  | valueless name a b =>
    obtain ⟨diagnostic, l', hown, hfault, hrest⟩ := refuses_valueless name a b d hl
    exact ⟨diagnostic, l', hown, by rw [hfault]; rfl, hrest⟩
  | unregistered name unknown =>
    obtain ⟨diagnostic, l', hown, hfault, hrest⟩ := refuses_unregistered name unknown d hl
    exact ⟨diagnostic, l', hown, by rw [hfault]; rfl, hrest⟩
  | selfClosing name t visible =>
    obtain ⟨diagnostic, l', hown, hfault, hrest⟩ := refuses_selfClosing name t visible d hl
    exact ⟨diagnostic, l', hown, by rw [hfault]; rfl, hrest⟩

end FaultyLine

/-- Faults are isolated: a tolerant compilation renders what is left of an outline
without its faulty lines, and reports the outermost of these in order. -/
theorem Outline.compileWith_of_prints_faulty {filters : FilterRegistry}
    {o : Outline (FaultyLine filters)} {source : Text} (h : o.Prints 0 source)
    (hfilled : o.isFilled = true) (hopen : o.isOpen = true) (name : Text) :
    ∃ diagnostics, Template.compileWith ⟨name, source⟩ ⟨true⟩ filters =
        .ok ⟨Script.preamble true ++ Script.literalCode (o.prune.render 0) ++ Script.epilogue,
          diagnostics⟩ ∧
      diagnostics.map (fun d => (d.fault.message, d.point.line)) = o.faults 1 := by
  rw [Outline.render_prune hopen]
  exact h.compileWith hfilled FaultyLine.refuses name

/-- Two entries, the first of them faulty, with an unknown filter behind them, and a
faulty paragraph at the end. -/
def Outline.draft : Outline (FaultyLine .builtin) :=
  .element (.tag ⟨'n', ['a', 'v'], rfl, by decide⟩)
    (.faulty (.valueless ⟨'d', ['d'], rfl, by decide⟩ ⟨'a', [], rfl, by decide⟩
        ⟨'c', [], rfl, by decide⟩)
      (.element (.tag ⟨'p', [], rfl, by decide⟩)
        (.faulty (.unregistered ⟨'n', ['o'], rfl, by decide⟩ rfl) .nil .nil) .nil)
      (.element (.tag ⟨'d', ['d'], rfl, by decide⟩)
        (.text ⟨"y", by decide, by decide, by decide, by decide⟩ .nil)
        (.faulty (.unregistered ⟨'n', ['o'], rfl, by decide⟩ rfl)
          (.text ⟨"w", by decide, by decide, by decide, by decide⟩ .nil) .nil)))
    (.faulty (.selfClosing ⟨'p', [], rfl, by decide⟩
        ⟨" z", by decide, by decide, by decide, by decide⟩ ⟨'z', .tail _ (.head _), rfl⟩) .nil
      (.text ⟨"end", by decide, by decide, by decide, by decide⟩ .nil))

def Outline.draftSource : Text :=
  "%nav\n\t%dd(a c)\n    %p\n\t\t\t:no\n  %dd\n\t\t\\y\n :no\n    \\w\n%p/  z\n\\end\n"

theorem Outline.compile_draft :
    draft.Prints 0 draftSource ∧ draft.isFilled = true ∧ draft.isOpen = true ∧
    ∃ diagnostics, Template.compile ⟨"draft", draftSource⟩ ⟨true⟩ =
        .ok ⟨Script.preamble true ++
          Script.literalCode "<nav>\n  <dd>\n    y\n  </dd>\n</nav>\nend\n" ++ Script.epilogue,
          diagnostics⟩ ∧
      diagnostics.map (fun d => (d.fault.message, d.point.line)) =
        [("Expected '=' after attribute name".toList, 2),
          ("Filter '".toList ++ "no".toList ++
            "' not registered. Filter functions need to be added to the filter registry".toList, 7),
          ("A self-closing tag can not have any contents".toList, 9)] := by
  have hprints : draft.Prints 0 draftSource :=
    .element (w := []) (by decide)
      (.faulty (w := ['\t']) (by decide)
        (.element (w := [' ', ' ', ' ', ' ']) (by decide)
          (.faulty (w := ['\t', '\t', '\t']) (by decide) (.nil 4) (.nil 3)) (.nil 2))
        (.element (w := [' ', ' ']) (by decide)
          (.text (w := ['\t', '\t']) (by decide) (.nil 2))
          (.faulty (w := [' ']) (by decide)
            (.text (w := [' ', ' ', ' ', ' ']) (by decide) (.nil 2)) (.nil 1))))
      (.faulty (w := []) (by decide) (.nil 1) (.text (w := []) (by decide) (.nil 0)))
  have hrender : draft.prune.render 0 =
      "<nav>\n  <dd>\n    y\n  </dd>\n</nav>\nend\n".toList := by
    decide
  have h := compileWith_of_prints_faulty hprints rfl rfl "draft"
  rw [hrender] at h
  exact ⟨hprints, rfl, rfl, h⟩

end Haml
