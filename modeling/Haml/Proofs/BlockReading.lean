import Haml.Proofs.BlockLines
import Haml.Proofs.RunLines
import Haml.Proofs.SeamRows

/-!
# Reading blocks

Below a filter line or a silent comment the block is read: of the logical lines below, the
longest run that is a block. Each of its lines gives an entry, and the lexer is left on the
first token of the line behind the block.
-/

namespace Haml

namespace Pattern

variable {c : Char}

/-- No text that the pattern matches has the character in it. -/
def Avoids (c : Char) (p : Pattern) : Prop := ∀ t m, p t = some m → c ∉ m

theorem avoids_exactly {lead : Text} (h : c ∉ lead) : Avoids c (exactly lead) := by
  intro t m hm
  simp only [exactly] at hm
  split at hm <;> cases hm
  exact h

theorem avoids_headed {p q : Char → Bool} (hp : p c = false) (hq : q c = false) :
    Avoids c (headed p q) := by
  intro t m hm hc
  cases t with
  | nil => cases hm
  | cons a t =>
    simp only [headed] at hm
    split at hm
    · rename_i ha
      cases hm
      rcases List.mem_cons.1 hc with rfl | hc
      · rw [hp] at ha
        cases ha
      · have hrun := List.mem_takeWhile_imp hc
        rw [hq] at hrun
        cases hrun
    · cases hm

theorem avoids_andThen {p q : Pattern} (hp : Avoids c p) (hq : Avoids c q) :
    Avoids c (andThen p q) := by
  intro t m hm
  obtain ⟨a, b, rfl, ha, hb⟩ := andThen_eq_some hm
  rw [List.mem_append, not_or]
  exact ⟨hp _ a ha, hq _ b hb⟩

theorem avoids_lineEnd (h : isLineBreak c = false) : Avoids c lineEnd := by
  intro t m hm hc
  have hall : m.all isLineBreak = true := by
    unfold lineEnd at hm
    split at hm <;> cases hm <;> rfl
  have hbreak := List.all_eq_true.1 hall c hc
  rw [h] at hbreak
  cases hbreak

end Pattern

namespace Lexeme

/-- A line end starts with a line break. -/
theorem lineBreak_of_lineEnd {mode : Mode} {c : Char} {t : Text} {x : Lexeme}
    (h : read? mode (c :: t) = some x) (hk : x.kind = .lineEnd) : isLineBreak c = true := by
  by_contra hb
  cases (Pattern.lineEnd_eq_none.2 (by simpa using hb)).symm.trans (lineEnd_of_read? h hk)

/-- A bar stands only in the token that continues a line, or by itself. -/
theorem avoids_bar_of_mem_rules {r : Rule} (h : r ∈ rules .line) (hk : r.kind ≠ .continuation) :
    Pattern.Avoids '|' r.pattern := by
  have hsigned {sign : Text} {p : Pattern} (hsign : '|' ∉ sign) (hp : Pattern.Avoids '|' p) :
      Pattern.Avoids '|' (signed sign p) :=
    Pattern.avoids_andThen (Pattern.avoids_exactly hsign) hp
  simp only [rules, commonRules, lineRules, List.cons_append, List.nil_append, List.mem_cons,
    List.not_mem_nil, or_false] at h
  rcases h with rfl | rfl | rfl | rfl | rfl | rfl | rfl | rfl | rfl | rfl | rfl | rfl
  · exact Pattern.avoids_lineEnd rfl
  · exact Pattern.avoids_headed rfl rfl
  · exact absurd rfl hk
  · exact hsigned (by decide) (Pattern.avoids_headed rfl rfl)
  · exact hsigned (by decide) (Pattern.avoids_headed rfl rfl)
  · exact hsigned (by decide) (Pattern.avoids_headed rfl rfl)
  · exact Pattern.avoids_exactly (by decide)
  · exact Pattern.avoids_exactly (by decide)
  · exact Pattern.avoids_exactly (by decide)
  · exact hsigned (by decide) (Pattern.avoids_andThen (Pattern.avoids_headed rfl rfl)
      (Pattern.avoids_exactly (by decide)))
  · exact Pattern.avoids_exactly (by decide)
  · exact hsigned (by decide) (Pattern.avoids_headed (by decide) (by decide))

theorem bar_of_mem {t : Text} {x : Lexeme} (h : read? .line t = some x) (hb : '|' ∈ x.matched) :
    x.kind = .continuation ∨ x = ⟨.other, ['|'], ['|']⟩ := by
  cases t with
  | nil => cases h
  | cons c t =>
    rcases read?_cases h with ⟨r, hr, hx⟩ | ⟨-, rfl⟩
    · obtain ⟨m, hm, rfl⟩ := Option.map_eq_some_iff.1 hx
      left
      by_contra hk
      exact avoids_bar_of_mem_rules hr hk _ m hm hb
    · obtain rfl : '|' = c := by simpa using hb
      exact .inr rfl

def lineKinds : List Token.Kind := lineRules.map Rule.kind

/-- Only a template line has tokens of these kinds. -/
theorem mode_of_lineKind {mode : Mode} {t : Text} {x : Lexeme} (h : read? mode t = some x)
    (hk : x.kind ∈ lineKinds) : mode = .line := by
  cases t with
  | nil => cases h
  | cons c t =>
    simp only [lineKinds, lineRules, List.map_cons, List.map_nil, List.mem_cons, List.not_mem_nil,
      or_false] at hk
    rcases read?_cases h with ⟨r, hr, hx⟩ | ⟨-, rfl⟩
    · obtain ⟨m, -, rfl⟩ := Option.map_eq_some_iff.1 hx
      revert r
      cases mode <;> simp [rules, commonRules, listRules, hashRules]
    · simp only [signKind] at hk
      split at hk <;> simp at hk

end Lexeme

namespace Lexer

variable {l : Lexer} {before t r m : Text} {s : SourceLine} {below : List SourceLine}
  {depth : Nat}

/-- The lexer is on the first token of `rest`, which stands behind `before`. -/
structure Begins (l : Lexer) (before rest : Text) : Prop where
  mode : l.mode = .line
  unsplit : Unsplit before rest
  scanned : scan .line (.counted before rest) = (l.token, l.cursor)

theorem At.begins_next (h : l.At before t) (hm : l.mode = .line) : l.next.Begins before t := by
  refine ⟨hm, h.unsplit, ?_⟩
  rw [← h.cursor, ← hm]
  rfl

theorem OnText.begins_next {kind : Token.Kind} (h : l.OnText kind before m r)
    (hm : l.mode = .line) : l.next.Begins (before ++ m) r :=
  h.behind.begins_next hm

namespace Begins

/-- The current token is the lexeme that the text starts with. -/
theorem onText {x : Lexeme} (h : l.Begins before (x.matched ++ r))
    (hx : Lexeme.read? .line (x.matched ++ r) = some x) :
    l.OnText x.kind before x.matched r ∧ l.token.text = x.text := by
  let l' : Lexer := { l with cursor := .counted before (x.matched ++ r) }
  have hat : l'.At before (x.matched ++ r) := ⟨rfl, h.unsplit⟩
  have hscan : scan l'.mode l'.cursor = (l.token, l.cursor) := by
    rw [← h.scanned, ← h.mode]
  have htoken : l'.next.token = l.token := congrArg Prod.fst hscan
  have hcursor : l'.next.cursor = l.cursor := congrArg Prod.snd hscan
  have hon : l'.next.OnText x.kind before x.matched r := hat.next (by rw [h.mode]; exact hx)
  refine ⟨⟨?_, ?_, ?_, ?_, hon.behind.unsplit⟩, ?_⟩
  · rw [kind, ← htoken]
    exact hon.kind
  · rw [← htoken]
    exact hon.matched
  · rw [← htoken]
    exact hon.startsBehind
  · rw [← hcursor]
    exact hon.behind.cursor
  · have hread : Lexeme.read? .line (Cursor.counted before (x.matched ++ r)).rest = some x := hx
    have hscanned := h.scanned
    rw [scan, hread] at hscanned
    exact congrArg Token.text (congrArg Prod.fst hscanned).symm

theorem kind_of_nil (h : l.Begins before []) : l.kind = .eof := by
  have hscanned := h.scanned
  rw [scan_of_nil rfl] at hscanned
  exact congrArg Token.kind (congrArg Prod.fst hscanned).symm

/-- The first token is the end of the source, or a lexeme that the text starts with. -/
theorem cases (h : l.Begins before t) :
    t = [] ∧ l.kind = .eof ∨
      ∃ x r, t = x.matched ++ r ∧ Lexeme.read? .line t = some x ∧
        l.OnText x.kind before x.matched r := by
  cases hx : Lexeme.read? .line t with
  | none =>
    obtain rfl := Lexeme.read?_eq_none.1 hx
    exact .inl ⟨rfl, h.kind_of_nil⟩
  | some x =>
    obtain ⟨r, rfl, -⟩ := Lexeme.read?_cuts hx
    exact .inr ⟨x, r, rfl, rfl, (h.onText hx).1⟩

theorem kind_ne_space (h : l.Begins before t) (ht : ∀ c, t.head? = some c → isIndent c = false) :
    l.kind ≠ .space := by
  intro hk
  rcases h.cases with ⟨-, heof⟩ | ⟨x, r, -, hx, hon⟩
  · rw [heof] at hk
    cases hk
  · obtain ⟨⟨c, u, rfl, hc⟩, -⟩ := Lexeme.read?_space_cases hx (hon.kind.symm.trans hk)
    rw [ht c rfl] at hc
    cases hc

theorem onText_space {c : Char} {w : Text} (h : l.Begins before (c :: w ++ r))
    (hw : ∀ a ∈ c :: w, isIndent a = true) (hr : ∀ a, r.head? = some a → isIndent a = false) :
    l.OnText .space before (c :: w) r ∧ l.token.text = c :: w := by
  have htake : (w ++ r).takeWhile isIndent = w := by
    rw [List.takeWhile_append_of_pos fun a ha => hw a (List.mem_cons_of_mem c ha)]
    cases r with
    | nil => simp
    | cons a r => simp [hr a rfl]
  have hread := read?_indent (hw c (by simp)) .line (w ++ r)
  rw [htake] at hread
  exact h.onText (x := ⟨.space, c :: w, c :: w⟩) hread

/-- The indentation of a line is its first token and gives its depth. -/
theorem passSpace (h : l.Begins before t) (hlines : t.sourceLines = s :: below) :
    l.token.depth = s.depth ∧ (l.kind = .space ↔ s.indentation ≠ []) ∧
      ∃ r, t = s.indentation ++ r ∧ r.sourceLines = ⟨s.body, s.ending⟩ :: below ∧
        (∀ c, r.head? = some c → isIndent c = false) ∧
        l.passSpace.Begins (before ++ s.indentation) r := by
  obtain ⟨r, rfl, hr, hhead⟩ := Text.sourceLines_body hlines
  have hall := List.all_eq_true.1 s.all_indentation
  rw [SourceLine.depth]
  generalize s.indentation = w at h hall
  cases w with
  | nil =>
    have hk := h.kind_ne_space hhead
    refine ⟨if_neg hk, by simp [hk], r, rfl, hr, hhead, ?_⟩
    rw [Lexer.passSpace, if_neg hk, List.append_nil]
    exact h
  | cons c w =>
    obtain ⟨hon, htext⟩ := h.onText_space hall hhead
    have hk : l.token.kind = .space := hon.kind
    refine ⟨?_, by simp [hon.kind], r, rfl, hr, hhead, ?_⟩
    · rw [Token.depth, if_pos hk, htext]
    · rw [Lexer.passSpace, if_pos hon.kind]
      exact hon.begins_next h.mode

/-! ### Gaps -/

/-- A line is a gap if its first token ends it. -/
theorem gap_of_endsLine (h : l.Begins before t) (hlines : t.sourceLines = s :: below)
    (hl : l.endsLine = true) : s.gap = true := by
  obtain ⟨hone, hafter⟩ := Text.afterLine_of_sourceLines hlines
  have ht := Text.eq_of_sourceLines hlines
  cases hs : s.text with
  | nil => simp [SourceLine.gap, SourceLine.blank, hs]
  | cons c u =>
    have hc : isLineBreak c = false := hone c (by simp [hs])
    rw [hs, List.cons_append] at ht
    rcases h.cases with ⟨hnil, -⟩ | ⟨x, r, hr, hx, hon⟩
    · rw [hnil] at ht
      cases ht
    rw [endsLine, hon.kind] at hl
    cases hk : x.kind with
    | eof => exact absurd hk (Lexeme.kind_ne_eof hx)
    | lineEnd =>
      rw [ht] at hx
      rw [Lexeme.lineBreak_of_lineEnd hx hk] at hc
      cases hc
    | continuation =>
      obtain ⟨b, e, hm, hb, he⟩ := Lexeme.bar_of_continuation hx hk
      rw [hm] at hr
      obtain ⟨hbar, hbefore⟩ := SourceLine.beforeBar_of_bar hlines hr hb he
      simp [SourceLine.gap, SourceLine.bare, hbar, hbefore]
    | _ =>
      rw [hk] at hl
      cases hl

/-- Without indentation, the first token of a gap ends the line. -/
theorem endsLine_of_gap (h : l.Begins before t) (hlines : t.sourceLines = s :: below)
    (ht : ∀ c, t.head? = some c → isIndent c = false) (hs : s.gap = true) :
    l.kind = .eof ∧ below = [] ∨
      l.kind.breaksLine = true ∧ below ≠ [] ∧
        l.next.Begins (before ++ s.whole) (below.flatMap SourceLine.whole) := by
  have hempty {u v : Text} (huv : t = u ++ v) (hu : u.all isIndent = true) : u = [] := by
    cases u with
    | nil => rfl
    | cons c u =>
      rw [huv] at ht
      have hc := List.all_eq_true.1 hu c (by simp)
      rw [ht c rfl] at hc
      cases hc
  rw [SourceLine.gap, Bool.or_eq_true] at hs
  obtain hone | ⟨u, e, r, rfl, hu, he⟩ := t.oneLine_or_exists_lineEnd
  · rw [Text.sourceLines_of_oneLine hone] at hlines
    cases hlines
    left
    rcases hs with hs | hs
    · obtain rfl := hempty (List.append_nil t).symm hs
      exact ⟨h.kind_of_nil, rfl⟩
    · simp [SourceLine.bare, SourceLine.continued] at hs
  · rw [Text.sourceLines_append hu he] at hlines
    cases hlines
    right
    have hne : r.sourceLines ≠ [] := by
      obtain ⟨first, rest, hr⟩ := r.exists_sourceLines
      simp [hr]
    rw [Text.flatMap_whole_sourceLines]
    rcases hs with hs | hs
    · obtain rfl := hempty rfl hs
      obtain ⟨hon, -⟩ := h.onText (x := ⟨.lineEnd, e, e⟩) (Lexeme.read?_lineEnd he .line)
      exact ⟨by rw [hon.kind]; rfl, hne, hon.begins_next h.mode⟩
    · rw [SourceLine.bare, Bool.and_eq_true] at hs
      obtain ⟨-, b, htext, hb⟩ := SourceLine.exists_blanks hs.1
      have hnil : (SourceLine.mk u e).beforeBar = [] := by
        refine hempty (v := '|' :: b ++ (e ++ r)) ?_ hs.2
        rw [← List.append_assoc _ _ (e ++ r), ← htext]
      rw [hnil] at htext
      obtain rfl : u = '|' :: b := htext
      have hread := Lexeme.read?_bar hb he
      rw [← List.append_assoc] at hread
      have hbegins : l.Begins before ('|' :: (b ++ e) ++ r) := by simpa using h
      obtain ⟨hon, -⟩ := hbegins.onText
        (x := ⟨.continuation, '|' :: (b ++ e), '|' :: (b ++ e)⟩) hread
      refine ⟨by rw [hon.kind]; rfl, hne, ?_⟩
      rw [SourceLine.whole, List.cons_append]
      exact hon.begins_next h.mode

/-- Behind its indentation, the first token ends a line if it is a gap. -/
theorem endsLine_passSpace (h : l.Begins before t) (hlines : t.sourceLines = s :: below) :
    l.passSpace.endsLine = s.gap := by
  obtain ⟨-, -, r, -, hr, hhead, hbody⟩ := h.passSpace hlines
  have hgap := s.gap_body
  cases hs : s.gap with
  | false =>
    cases hl : l.passSpace.endsLine with
    | false => rfl
    | true =>
      rw [hbody.gap_of_endsLine hr hl, hs] at hgap
      cases hgap
  | true =>
    rw [endsLine]
    rcases hbody.endsLine_of_gap hr hhead (hgap.trans hs) with ⟨hk, -⟩ | ⟨hk, -⟩
    · rw [hk]
      rfl
    · cases hk' : l.passSpace.kind <;> simp_all [Token.Kind.breaksLine, Token.Kind.endsLine]

/-- Behind a gap stands the next line, if there is one. -/
theorem pass_gap (h : l.Begins before t) (hlines : t.sourceLines = s :: below)
    (hs : s.gap = true) :
    l.passSpace.kind = .eof ∧ below = [] ∨
      l.passSpace.kind.breaksLine = true ∧
        l.passSpace.passLineEnd.Begins (before ++ s.whole) (below.flatMap SourceLine.whole) ∧
        Text.sourceLines (below.flatMap SourceLine.whole) = below := by
  obtain ⟨-, -, r, -, hr, hhead, hbody⟩ := h.passSpace hlines
  refine (hbody.endsLine_of_gap hr hhead (s.gap_body.trans hs)).imp_right ?_
  rintro ⟨hk, hne, hnext⟩
  have hbelow := (Text.sourceLines_below hlines).resolve_left fun hlast => hne hlast.2
  refine ⟨hk, ?_, hbelow.2⟩
  rw [passLineEnd, if_pos hk, SourceLine.whole, s.text_eq]
  simpa [SourceLine.whole] using hnext

theorem onBlankLine_iff (h : l.Begins before t) (hlines : t.sourceLines = s :: below) :
    l.onBlankLine = true ↔ s.gap = true ∧ l.kind ≠ .eof := by
  rw [← h.endsLine_passSpace hlines]
  by_cases hk : l.kind = .space
  · simp [Lexer.onBlankLine, Lexer.passSpace, hk, Token.Kind.breaksLine]
  · simp only [Lexer.onBlankLine, Lexer.passSpace, hk, if_false, endsLine]
    cases hk' : l.kind <;> simp_all [Token.Kind.breaksLine, Token.Kind.endsLine]

/-- A gap on which nothing is blank is the end of the source. -/
theorem last_of_gap (h : l.Begins before t) (hlines : t.sourceLines = s :: below)
    (hs : s.gap = true) (hb : l.onBlankLine = false) : l.token.depth = 0 ∧ below = [] := by
  have hk : l.kind = .eof := by
    by_contra hk
    rw [(h.onBlankLine_iff hlines).2 ⟨hs, hk⟩] at hb
    cases hb
  have hspace : l.kind ≠ .space := by simp [hk]
  have hpass : l.passSpace = l := if_neg hspace
  refine ⟨if_neg hspace, ?_⟩
  rcases h.pass_gap hlines hs with ⟨-, hbelow⟩ | ⟨hbreaks, -⟩
  · exact hbelow
  · rw [hpass, hk] at hbreaks
    cases hbreaks

/-- Whether a deeper line follows is read off the first line that is no gap. -/
theorem deeperLineFollows (h : l.Begins before t) (depth : Nat) :
    l.deeperLineFollows depth = deeperFollows SourceLine.gap (depth < ·.depth) t.sourceLines := by
  generalize hlines : t.sourceLines = lines
  induction lines generalizing l before t with
  | nil =>
    obtain ⟨first, rest, hne⟩ := t.exists_sourceLines
    rw [hlines] at hne
    cases hne
  | cons s below ih =>
    have hdepth := (h.passSpace hlines).1
    cases hb : l.onBlankLine with
    | true =>
      have hs := ((h.onBlankLine_iff hlines).1 hb).1
      rw [(deeperLineFollows_of_blank hb depth).1, deeperFollows_of_gap hs]
      rcases h.pass_gap hlines hs with ⟨hk, rfl⟩ | ⟨-, hnext, hbelow⟩
      · rw [passLineEnd, if_neg (by simp [hk, Token.Kind.breaksLine])]
        exact deeperLineFollows_of_other (by rw [hk]; rfl) (by simp [hk]) depth
      · exact ih hnext hbelow
    | false =>
      rw [Lexer.deeperLineFollows_of_visible hb]
      cases hs : s.gap with
      | false => rw [Haml.deeperFollows_of_visible hs, hdepth]
      | true =>
        obtain ⟨hzero, rfl⟩ := h.last_of_gap hlines hs hb
        rw [deeperFollows_of_gap hs, hzero]
        rfl

end Begins

/-! ### Logical lines -/

/-- A line that is not continued is taken from the current token to its end. -/
theorem At.takeLine_of_not_continued (h : l.At before r) (hl : l.endsLine = false)
    (hlines : r.sourceLines = s :: below) (hs : s.continued = false) :
    l.takeLine = (l.token.matched ++ s.text, (l.skip s.text).next) := by
  have hcont := continued?_eq hlines
  have hline : (l.rest.takeWhile fun c => !isLineBreak c) = s.text := by
    rw [h.rest_eq]
    exact Text.firstLine_eq hlines
  rw [← h.rest_eq, hs] at hcont
  simp [Lexer.takeLine, hl, hcont, hline]

theorem At.begins_end (h : l.At before r) (hm : l.mode = .line)
    (hlines : r.sourceLines = s :: below) :
    (l.skip s.text).next.passLineEnd.Begins (before ++ s.whole)
      (below.flatMap SourceLine.whole) := by
  have hone := (Text.afterLine_of_sourceLines hlines).1
  rw [Text.eq_of_sourceLines hlines] at h
  have hend : (l.skip s.text).next.Begins (before ++ s.text) _ :=
    (h.skip_oneLine hone).begins_next hm
  have htail := Text.sourceLines_tail hlines
  have hspace : (l.skip s.text).next.passSpace = (l.skip s.text).next := by
    refine if_neg ?_
    rw [(hend.passSpace htail).2.1]
    simp [SourceLine.indentation]
  rcases hend.pass_gap htail rfl with ⟨hk, rfl⟩ | ⟨-, hnext, -⟩
  · have hlast : s.ending = [] := by
      rcases Text.sourceLines_below hlines with ⟨hnil, -⟩ | ⟨-, hnone⟩
      · exact hnil
      · cases hnone
    rw [hspace] at hk
    rw [passLineEnd, if_neg (by simp [hk, Token.Kind.breaksLine]), SourceLine.whole, hlast,
      List.append_nil]
    rwa [hlast] at hend
  · rw [hspace] at hnext
    simpa [SourceLine.whole] using hnext

/-- From a token that is not continued itself, the logical line is taken up to the next one. -/
theorem OnText.takeLine {kind : Token.Kind} (h : l.OnText kind before m r) (hm : l.mode = .line)
    (hl : l.endsLine = false) (hone : OneLine m) (hbar : Unbarred m)
    (hlines : Text.sourceLines (m ++ r) = s :: below) (hs : s.gap = false) :
    l.takeLine.1 = (LogicalLine.mk s (below.takeWhile s.joins)).text ∧
      l.passLine.Begins (before ++ (LogicalLine.mk s (below.takeWhile s.joins)).whole)
        ((below.dropWhile s.joins).flatMap SourceLine.whole) := by
  obtain ⟨first, rest, hr⟩ := r.exists_sourceLines
  rw [Text.sourceLines_behind hone, hr, List.modifyHead_cons] at hlines
  obtain ⟨hfirst, rfl⟩ := List.cons.inj hlines
  have hcontinued : s.continued = first.continued := by
    rw [← hfirst, SourceLine.continued_behind hbar]
  cases hc : first.continued with
  | false =>
    have hnone := joins_none (.inr (hcontinued.trans hc)) rest
    have hend := h.behind.begins_end hm hr
    rw [hnone.1, hnone.2, passLine, h.behind.takeLine_of_not_continued hl hr hc, h.matched]
    refine ⟨?_, ?_⟩
    · rw [LogicalLine.text, if_neg (by simp [hcontinued, hc]), ← hfirst]
      rfl
    · rw [← hfirst]
      simpa [LogicalLine.whole, LogicalLine.lines, SourceLine.whole, SourceLine.behind] using hend
  | true =>
    have hjoins : s.joins = SourceLine.continued := by
      funext t
      simp [SourceLine.joins, hcontinued, hc, hs]
    have htaken := (h.behind.takeLine hm hl).2
    rw [hr, List.takeWhile_cons_of_pos hc, List.dropWhile_cons_of_pos hc] at htaken
    obtain ⟨htext, init, last, b, hrun, hlast, -, hon⟩ := htaken (by simp)
    have hk : l.takeLine.2.kind.breaksLine = true := by
      rw [hon.kind]
      rfl
    have hnext := hon.begins_next ((reaches_takeLine l).mode hm)
    rw [hjoins]
    refine ⟨?_, ?_⟩
    · rw [LogicalLine.text, if_pos (hcontinued.trans hc), htext, h.matched, LogicalLine.lines,
        List.flatMap_cons, List.flatMap_cons, ← hfirst, SourceLine.beforeBar_behind hc,
        List.append_assoc]
    · have hwhole : (LogicalLine.mk s (rest.takeWhile SourceLine.continued)).whole =
          m ++ (init ++ [last]).flatMap SourceLine.whole := by
        rw [← hrun, LogicalLine.whole, LogicalLine.lines, List.flatMap_cons, List.flatMap_cons,
          ← hfirst]
        simp [SourceLine.whole, SourceLine.behind]
      rw [passLine, passLineEnd, if_pos hk, hwhole]
      simpa [SourceLine.whole, hlast] using hnext

theorem takeDeeperLines_of_not_follows (h : l.deeperLineFollows depth = false) :
    l.takeDeeperLines depth = ([], l) := by
  cases hb : l.onBlankLine with
  | true => rw [takeDeeperLines_of_blank hb, h]; rfl
  | false =>
    rw [Lexer.deeperLineFollows_of_visible hb, decide_eq_false_iff_not] at h
    exact takeDeeperLines_of_le hb (by omega)

/-- The first of some deeper lines is taken, or the gap before it. -/
theorem Begins.takeDeeperLines_of_follows (h : l.Begins before t)
    (hlines : t.sourceLines = s :: below)
    (hfollows : l.deeperLineFollows depth = true) :
    ∃ l' : Lexer,
      l.takeDeeperLines depth =
        (LogicalLine.entry depth ⟨s, below.takeWhile s.joins⟩ :: (l'.takeDeeperLines depth).1,
          (l'.takeDeeperLines depth).2) ∧
      l'.Begins (before ++ (LogicalLine.mk s (below.takeWhile s.joins)).whole)
        ((below.dropWhile s.joins).flatMap SourceLine.whole) := by
  cases hb : l.onBlankLine with
  | true =>
    have hs := ((h.onBlankLine_iff hlines).1 hb).1
    rw [takeDeeperLines_of_blank hb, if_pos hfollows, (joins_none (.inl hs) below).1,
      (joins_none (.inl hs) below).2]
    rcases h.pass_gap hlines hs with ⟨hk, rfl⟩ | ⟨-, hnext, -⟩
    · rw [h.deeperLineFollows, hlines, deeperFollows_of_gap hs] at hfollows
      cases hfollows
    · refine ⟨l.passSpace.passLineEnd, ?_, ?_⟩
      · rw [LogicalLine.entry_of_gap hs]
      · simpa [LogicalLine.whole, LogicalLine.lines] using hnext
  | false =>
    rw [Lexer.deeperLineFollows_of_visible hb, decide_eq_true_iff] at hfollows
    have hs : s.gap = false := by
      by_contra hs
      rw [(h.last_of_gap hlines (by simpa using hs) hb).1] at hfollows
      cases hfollows
    obtain ⟨hdepth, -, r, rfl, -, hhead, -⟩ := h.passSpace hlines
    have hall := List.all_eq_true.1 s.all_indentation
    have hbar := SourceLine.unbarred_of_all_isIndent s.all_indentation
    rw [takeDeeperLines_of_deeper hb hfollows]
    cases hw : s.indentation with
    | nil =>
      rw [hdepth, SourceLine.depth, hw] at hfollows
      cases hfollows
    | cons c w =>
      rw [hw] at h hall hbar hlines
      have hon := (h.onText_space hall hhead).1
      have hl : l.endsLine = false := by
        rw [endsLine, hon.kind]
        rfl
      obtain ⟨htext, hpass⟩ :=
        hon.takeLine h.mode hl (oneLine_of_all rfl rfl hall) hbar hlines hs
      exact ⟨l.passLine, by rw [LogicalLine.entry_of_visible hs, htext], hpass⟩

/-- The lines from a place on that make a block are taken, each as its entry. -/
theorem Begins.takeDeeperLines {lines : List SourceLine}
    (h : l.Begins before (lines.flatMap SourceLine.whole)) (hlines : AreLines lines)
    (depth : Nat) :
    ∃ run rest, logicalLines lines = run ++ rest ∧
      LongestBlock LogicalLine.gap (depth < ·.depth) (run ++ rest) run ∧
      (l.takeDeeperLines depth).1 = run.map (·.entry depth) ∧
      (l.takeDeeperLines depth).2.Begins (before ++ run.flatMap LogicalLine.whole)
        (rest.flatMap LogicalLine.whole) := by
  fun_induction logicalLines lines generalizing l before with
  | case1 =>
    have hk : l.kind = .eof := h.kind_of_nil
    have hnone : l.takeDeeperLines depth = ([], l) :=
      takeDeeperLines_of_not_follows
        (deeperLineFollows_of_other (by rw [hk]; rfl) (by simp [hk]) depth)
    rw [hnone]
    exact ⟨[], [], rfl, .nil rfl, rfl, by simpa using h⟩
  | case2 s below ih =>
    have hsource := hlines.resolve_left (by simp)
    cases hf : l.deeperLineFollows depth with
    | false =>
      rw [takeDeeperLines_of_not_follows hf]
      rw [h.deeperLineFollows, hsource, ← deeperFollows_logicalLines, logicalLines_cons] at hf
      refine ⟨[], _, rfl, .nil hf, rfl, ?_⟩
      rw [← logicalLines_cons, flatMap_whole_logicalLines]
      simpa using h
    | true =>
      obtain ⟨l', htake, hnext⟩ := h.takeDeeperLines_of_follows hsource hf
      have hrest := (areLines_below hsource).of_suffix (List.dropWhile_suffix s.joins)
      obtain ⟨run, rest, hcut, hblock, htexts, hlexer⟩ := ih hnext hrest
      rw [htake]
      refine ⟨⟨s, _⟩ :: run, rest, by rw [hcut]; rfl, hblock.cons ?_, by rw [htexts]; rfl, ?_⟩
      · rwa [h.deeperLineFollows, hsource, ← deeperFollows_logicalLines, logicalLines_cons,
          hcut] at hf
      · rwa [List.flatMap_cons, ← List.append_assoc]

/-! ### Blocks of a source -/

/-- Below a filter line or a silent comment the block is taken. -/
theorem Begins.takeBlock {lines : List SourceLine}
    (h : l.Begins before (lines.flatMap SourceLine.whole))
    (hlines : Text.sourceLines (lines.flatMap SourceLine.whole) = lines)
    (hk : l.passSpace.kind = .filter ∨ l.passSpace.kind = .silentComment) (depth : Nat) :
    ∃ line run rest, logicalLines lines = line :: (run ++ rest) ∧
      line.depth = l.token.depth ∧
      LongestBlock LogicalLine.gap (depth < ·.depth) (run ++ rest) run ∧
      (l.passSpace.takeBlock depth).1 = run.map (·.entry depth) ∧
      (l.passSpace.takeBlock depth).2.Begins
        (before ++ (line :: run).flatMap LogicalLine.whole)
        (rest.flatMap LogicalLine.whole) := by
  cases lines with
  | nil => cases hlines
  | cons s below =>
    have hl : l.passSpace.endsLine = false := by
      rcases hk with hk | hk <;> rw [endsLine, hk] <;> rfl
    have hs : s.gap = false := (h.endsLine_passSpace hlines).symm.trans hl
    obtain ⟨hdepth, -, r, -, hr, -, hbody⟩ := h.passSpace hlines
    have hmode : l.passSpace.mode = .line := hbody.mode
    rcases hbody.cases with ⟨-, heof⟩ | ⟨x, r', rfl, hx, hon⟩
    · rw [endsLine, heof] at hl
      cases hl
    have hnobar : '|' ∉ x.matched := by
      intro hbar
      rw [hon.kind] at hk
      rcases Lexeme.bar_of_mem hx hbar with hbar | rfl
      · rw [hbar] at hk
        cases hk <;> contradiction
      · cases hk <;> contradiction
    have hone := (Lexeme.inline_of_read? hx (by rw [← hon.kind]; exact hl)).2
    obtain ⟨-, hpass⟩ := hon.takeLine hmode hl hone (unbarred_of_not_mem hnobar) hr
      (s.gap_body.trans hs)
    have hwhole : before ++ s.indentation ++
        (LogicalLine.mk ⟨s.body, s.ending⟩ (below.takeWhile s.joins)).whole =
          before ++ (LogicalLine.mk s (below.takeWhile s.joins)).whole := by
      simp only [LogicalLine.whole, LogicalLine.lines, List.flatMap_cons, SourceLine.whole]
      conv_rhs => rw [s.text_eq]
      simp only [List.append_assoc]
    rw [s.joins_body, hwhole] at hpass
    have hrest := (areLines_below hlines).of_suffix (List.dropWhile_suffix s.joins)
    obtain ⟨run, rest, hcut, hblock, htexts, hlexer⟩ := hpass.takeDeeperLines hrest depth
    refine ⟨⟨s, _⟩, run, rest, by rw [logicalLines_cons, hcut], hdepth.symm, hblock, htexts, ?_⟩
    rwa [List.flatMap_cons, ← List.append_assoc]

theorem column_scan (mode : Mode) (c : Cursor) : (scan mode c).1.span.column = c.column + 1 := by
  simp only [scan]
  split <;> rfl

theorem Begins.column (h : l.Begins before t) :
    l.token.span.column = before.openLine.length + 1 := by
  have hcolumn := column_scan .line (.counted before t)
  rwa [h.scanned] at hcolumn

/-- Indentation, ends of lines and the tokens of a template line are scanned as in one. -/
theorem scan_line {mode : Mode} {c : Cursor} (h : scan mode c = (l.token, l.cursor))
    (hk : l.kind = .space ∨ l.endsLine = true ∨ l.kind ∈ Lexeme.lineKinds) :
    scan .line c = scan mode c := by
  cases hx : Lexeme.read? mode c.rest with
  | none =>
    have hnil := Lexeme.read?_eq_none.1 hx
    rw [scan_of_nil hnil, scan_of_nil hnil]
  | some x =>
    have hkind : l.kind = x.kind := by
      rw [scan, hx] at h
      exact (congrArg Token.kind (congrArg Prod.fst h)).symm
    have hline (hx' : x.kind ∈ Lexeme.lineKinds) : scan .line c = scan mode c := by
      rw [Lexeme.mode_of_lineKind hx hx']
    rw [endsLine, hkind] at hk
    rcases hk with hk | hk | hk
    · obtain ⟨⟨a, u, hrest, ha⟩, -⟩ := Lexeme.read?_space_cases hx hk
      rw [scan, scan, hrest, read?_indent ha, read?_indent ha]
    · cases hend : x.kind with
      | eof => exact absurd hend (Lexeme.kind_ne_eof hx)
      | lineEnd =>
        cases hrest : c.rest with
        | nil =>
          rw [hrest] at hx
          cases hx
        | cons a u =>
          rw [hrest] at hx
          have ha := Lexeme.lineBreak_of_lineEnd hx hend
          obtain ⟨e, he⟩ := Option.ne_none_iff_exists'.1
            (mt Pattern.lineEnd_eq_none.1 (by simp [ha]) : Pattern.lineEnd (a :: u) ≠ none)
          rw [scan, scan, hrest, Lexeme.read?_lineEnd he, Lexeme.read?_lineEnd he]
      | continuation => exact hline (by rw [hend]; decide)
      | _ =>
        rw [hend] at hk
        cases hk
    · exact hline hk

/-- On such a token the lexer is on the first token of what is left of the source. -/
theorem OnToken.begins {source : Text} (h : l.OnToken source) (hm : l.mode = .line)
    (hk : l.kind = .space ∨ l.endsLine = true ∨ l.kind ∈ Lexeme.lineKinds) :
    ∃ before rest, source = before ++ rest ∧ l.Begins before rest := by
  obtain ⟨mode, c, ⟨before, rest, rfl, hs, rfl⟩, hscan⟩ := h.scanned
  exact ⟨before, rest, rfl, hm, hs, (scan_line hscan hk).trans hscan⟩

/-- At the start of a line that is indented or starts with a token of a template line, the lexer
is on the first token of the lines from there on. -/
theorem AtLine.begins {source : Text} (h : l.AtLine source) (hm : l.mode = .line)
    (hk : l.kind = .space ∨ l.kind ∈ Lexeme.lineKinds) :
    ∃ above lines, source.sourceLines = above ++ lines ∧
      Text.sourceLines (lines.flatMap SourceLine.whole) = lines ∧
      l.Begins (above.flatMap SourceLine.whole) (lines.flatMap SourceLine.whole) := by
  obtain ⟨before, rest, rfl, hbegins⟩ := h.onToken.begins hm (hk.imp_right .inr)
  have heof : l.kind ≠ .eof := by
    rintro heof
    rw [heof] at hk
    exact absurd hk (by decide)
  have hopen : before.openLine = [] := by
    have hcolumn := hbegins.column
    rw [h.starts.resolve_left heof] at hcolumn
    exact List.length_eq_zero_iff.1 (Nat.succ.inj hcolumn).symm
  obtain ⟨above, hlines, hwhole⟩ := Text.sourceLines_split hbegins.unsplit hopen
  refine ⟨above, rest.sourceLines, hlines, ?_, ?_⟩
  · rw [Text.flatMap_whole_sourceLines]
  · rw [hwhole, Text.flatMap_whole_sourceLines]
    exact hbegins

end Lexer

namespace Context

variable {ctx : Context} {source : Text} {stack : ElementStack} {l : Lexer}
  {events : List Event}

/-- A run that has come to a line that starts with a token of a template line is on the first
token of the lines from there on. -/
theorem Steps.begins (h : ctx.Steps {} (Lexer.ofText source).next events stack l)
    (hk : l.passSpace.kind ∈ Lexeme.lineKinds) (hl : l.passSpace.endsLine = false) :
    ∃ above lines, source.sourceLines = above ++ lines ∧
      Text.sourceLines (lines.flatMap SourceLine.whole) = lines ∧
      l.Begins (above.flatMap SourceLine.whole) (lines.flatMap SourceLine.whole) := by
  have hlines := h.betweenLines (.inl (Lexer.atLine_ofText source)) rfl
  by_cases hs : l.kind = .space
  · have hline := hlines.atLine (by rw [Lexer.endsLine, hs]; rfl)
    exact hline.begins (h.mode rfl) (.inl hs)
  · rw [Lexer.passSpace, if_neg hs] at hk hl
    exact (hlines.atLine hl).begins (h.mode rfl) (.inr hk)

/-- Wherever a run has come to a filter line or a silent comment, its block is taken. -/
theorem Steps.takeBlock (h : ctx.Steps {} (Lexer.ofText source).next events stack l)
    (hk : l.passSpace.kind = .filter ∨ l.passSpace.kind = .silentComment) :
    let depth := l.token.depth
    let block := l.passSpace.takeBlock depth
    ∃ above lines line run below, source.sourceLines = above ++ lines ∧
      l.Begins (above.flatMap SourceLine.whole) (lines.flatMap SourceLine.whole) ∧
      logicalLines lines = line :: (run ++ below) ∧ line.depth = depth ∧
      LongestBlock LogicalLine.gap (depth < ·.depth) (run ++ below) run ∧
      block.1 = run.map (·.entry depth) ∧
      block.2.Begins (above.flatMap SourceLine.whole ++ (line :: run).flatMap LogicalLine.whole)
        (below.flatMap LogicalLine.whole) := by
  intro depth block
  have hl : l.passSpace.endsLine = false := by
    rcases hk with hk | hk <;> rw [Lexer.endsLine, hk] <;> rfl
  have hkind : l.passSpace.kind ∈ Lexeme.lineKinds := by
    rcases hk with hk | hk <;> rw [hk] <;> decide
  obtain ⟨above, lines, hsource, hlines, hbegins⟩ := h.begins hkind hl
  obtain ⟨line, run, below, hcut, hdepth, hblock, htexts, hlexer⟩ :=
    hbegins.takeBlock hlines hk depth
  exact ⟨above, lines, line, run, below, hsource, hbegins, hcut, hdepth, hblock, htexts, hlexer⟩

end Context

end Haml
