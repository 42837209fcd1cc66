import Haml.Proofs.DiagnosticOrder
import Haml.Proofs.LineStarts

/-!
# The lines that a construct covers

A construct goes from its first token to where reading it ends. A place between the two is
on one of its lines, or at the very start of the line below: its last line may be left
behind with the line end that was read. Off the start of a line the exception does not
arise, and expressions and text stand off it.
-/

namespace Haml

/-- The number of the line that an offset of the source is on. -/
def Text.lineAt (source : Text) (offset : Nat) : Nat := 1 + (source.takeBytes offset).lineEnds

/-- The last line of which something stands between the two offsets; a line end belongs
to the line that it ends. -/
def Text.lastLineWithin (source : Text) (start stop : Nat) : Nat :=
  if start < stop ∧ (source.takeBytes stop).openLine = [] then source.lineAt stop - 1
  else source.lineAt stop

namespace Cursor.Counted

variable {source : Text} {a b c : Cursor}

theorem eq_of_position (h : b.Counted source) (h' : c.Counted source)
    (heq : b.position = c.position) : b = c := by
  obtain ⟨before, rest, rfl, -, rfl⟩ := h
  obtain ⟨before', rest', hsource, -, rfl⟩ := h'
  have hbefore : before = before' := by
    have htake := Text.takeBytes_append before rest
    rw [hsource, show before.byteSize = before'.byteSize from heq, Text.takeBytes_append] at htake
    exact htake.symm
  subst hbefore
  rw [List.append_cancel_left hsource]

theorem lineAt (h : c.Counted source) : source.lineAt c.position = c.line := by
  obtain ⟨before, rest, rfl, -, rfl⟩ := h
  rw [Text.lineAt, show (counted before rest).position = before.byteSize from rfl,
    Text.takeBytes_append]
  rfl

theorem openLine (h : c.Counted source) :
    (source.takeBytes c.position).openLine = [] ↔ c.column = 0 := by
  obtain ⟨before, rest, rfl, -, rfl⟩ := h
  rw [show (counted before rest).position = before.byteSize from rfl, Text.takeBytes_append,
    ← List.length_eq_zero_iff]
  rfl

theorem line_le (h : b.Counted source) (h' : c.Counted source) (hle : b.position ≤ c.position) :
    b.line ≤ c.line := by
  rcases Nat.lt_or_eq_of_le hle with hlt | heq
  · rcases h.before h' hlt with hline | ⟨hline, -⟩
    · exact Nat.le_of_lt hline
    · exact Nat.le_of_eq hline
  · rw [h.eq_of_position h' heq]

/-- A place between two others is on one of the lines from the first to the last of them,
or at the very start of the line below. -/
theorem within (ha : a.Counted source) (hb : b.Counted source) (hc : c.Counted source)
    (hac : a.position ≤ c.position) (hcb : c.position ≤ b.position) :
    source.lineAt a.position ≤ c.line ∧
      (c.line ≤ source.lastLineWithin a.position b.position ∨
        c.line = source.lastLineWithin a.position b.position + 1 ∧ c.column = 0) := by
  have hline := hc.line_le hb hcb
  refine ⟨by rw [ha.lineAt]; exact ha.line_le hc hac, ?_⟩
  simp only [Text.lastLineWithin, hb.lineAt, hb.openLine]
  split
  · rename_i hopen
    by_cases hlt : c.line < b.line
    · left
      omega
    · right
      have hpos : 0 < b.line := hb.anchored.line_pos
      have heq : c.line = b.line - 1 + 1 := by omega
      refine ⟨heq, ?_⟩
      -- On the line of `b`, on which nothing stands before `b`.
      rcases Nat.lt_or_eq_of_le hcb with hbefore | heq
      · rcases hc.before hb hbefore with h | ⟨-, h⟩
        · exact absurd h hlt
        · have hcolumn : c.column < b.column := h
          omega
      · rw [hc.eq_of_position hb heq]
        exact hopen.2
  · exact .inl hline

end Cursor.Counted

theorem Token.Placed.exists_cursor {source : Text} {t : Token} (h : t.Placed source) :
    ∃ c : Cursor, c.Counted source ∧ c.position = t.span.start := by
  obtain ⟨before, ⟨rest, hsource, hs⟩, hstart, -⟩ := h
  exact ⟨.counted before rest, ⟨before, rest, hsource, hs, rfl⟩, hstart.symm⟩

def Instruction.point? : Instruction → Option Point
  | .expression _ _ _ point => some point
  | .text _ _ point _ => some point
  | .attributes _ point => some point
  | _ => none

def Instruction.isAttributes : Instruction → Bool
  | .attributes _ _ => true
  | _ => false

namespace Lexer

variable {source : Text} {l m : Lexer} {depth : Nat}

/-- Where the construct that starts with the current token ends: behind the name of a
filter, at the token with which reading goes on behind a line that is read, and behind the
token that is refused. -/
def constructStop (l : Lexer) (depth : Nat) : Nat :=
  if l.kind = .filter then l.cursor.position
  else
    match (l.readLine depth).value with
    | .ok _ => (l.readLine depth).lexer.token.span.start
    | .error _ => (l.readLine depth).lexer.cursor.position

def firstLine (l : Lexer) (source : Text) : Nat := source.lineAt l.token.span.start

def lastLine (l : Lexer) (source : Text) (depth : Nat) : Nat :=
  source.lastLineWithin l.token.span.start (l.constructStop depth)

theorem OnToken.start_le (h : l.OnToken source) : l.token.span.start ≤ l.cursor.position := by
  obtain ⟨mode, c, -, hscan⟩ := h.scanned
  have hstart : (scan mode c).1.span.start ≤ (scan mode c).2.position := by
    simp only [scan]
    split
    · exact Nat.le_refl _
    · exact Cursor.position_skip_le _ _
  rw [hscan] at hstart
  exact hstart

/-- The end of a source stands where it starts. -/
theorem OnToken.start_of_eof (h : l.OnToken source) (hk : l.kind = .eof) :
    l.token.span.start = l.cursor.position := by
  obtain ⟨mode, c, -, hscan⟩ := h.scanned
  cases hx : Lexeme.read? mode c.rest with
  | none =>
    simp only [scan, hx] at hscan
    obtain ⟨htoken, hcursor⟩ := Prod.mk.inj hscan
    rw [← htoken, ← hcursor]
  | some x =>
    simp only [scan, hx] at hscan
    rw [kind, ← (Prod.mk.inj hscan).1] at hk
    exact absurd hk (Lexeme.kind_ne_eof hx)

theorem exists_constructStop (h : l.Counts source) (hl : l.endsLine = false) (depth : Nat) :
    ∃ c : Cursor, c.Counted source ∧ c.position = l.constructStop depth := by
  have hcounts := (advances_readLine hl depth).reaches.counts h
  simp only [constructStop]
  split
  · exact ⟨l.cursor, h.cursor, rfl⟩
  · split
    · exact hcounts.token.exists_cursor
    · exact ⟨_, hcounts.cursor, rfl⟩

/-- A place that is reached before the construct ends is on its lines, or at the very
start of the line below. -/
theorem OnToken.point_within (h : l.OnToken source) (depth : Nat) (hl : l.endsLine = false)
    (hm : l.Reaches m) (hstop : m.cursor.position ≤ l.constructStop depth) :
    m.point.AnchoredIn source ∧ l.firstLine source ≤ m.point.line ∧
      (m.point.line ≤ l.lastLine source depth ∨
        m.point.line = l.lastLine source depth + 1 ∧ m.point.column = 0) := by
  have hcounts := (hm.counts h.counts).cursor
  obtain ⟨a, ha, hstart⟩ := h.counts.token.exists_cursor
  obtain ⟨b, hb, hend⟩ := exists_constructStop h.counts hl depth
  have hfrom : a.position ≤ m.cursor.position := by
    rw [hstart]
    exact Nat.le_trans h.start_le hm.position_le
  have hwithin := ha.within hb hcounts hfrom (by rw [hend]; exact hstop)
  rw [hstart, hend] at hwithin
  exact ⟨hcounts.anchored, hwithin⟩

/-- Up to a token that does not end a line there is no exception. -/
theorem OnToken.line_le_last (h : l.OnToken source) (hl : l.endsLine = false) {n : Lexer}
    (hm : l.Reaches m) (hn : m.Reaches n) (htoken : n.OnToken source) (hend : n.endsLine = false)
    (hstop : n.cursor.position ≤ l.constructStop depth) :
    m.point.line ≤ l.lastLine source depth := by
  have hcolumn := htoken.column_pos hend
  have hline : m.cursor.line ≤ n.cursor.line :=
    (hm.counts h.counts).cursor.line_le htoken.counts.cursor hn.position_le
  rcases (h.point_within depth hl (hm.trans hn) hstop).2.2 with hle | ⟨-, hzero⟩
  · exact Nat.le_trans hline hle
  · have hzero : n.cursor.column = 0 := hzero
    omega

/-! ### The points of a line -/

theorem readContents_of_eof (hk : l.kind = .eof) (inner : Bool) :
    (l.readContents inner).lexer = l := by
  simp [readContents, passSpace, readBody_eq, endText, takeLine, passLineEnd, endsLine, hk,
    Token.Kind.announcesExpression, Token.Kind.endsLine, Token.Kind.breaksLine]

theorem advances_readContents_of_breaksLine (hb : l.kind.breaksLine = true) (inner : Bool) :
    l.Advances (l.readContents inner).lexer := by
  have hlexer : (l.readContents inner).lexer = l.next := by
    cases hk : l.kind <;> simp_all [readContents, passSpace, readBody_eq, endText, takeLine,
      passLineEnd, endsLine, Token.Kind.announcesExpression, Token.Kind.endsLine,
      Token.Kind.breaksLine]
  rw [hlexer]
  exact advances_next (kind_ne_eof_of_breaksLine hb)

/-- What is read as contents ends before the token with which reading goes on. -/
theorem OnToken.position_le_readContents (h : l.OnToken source) (inner : Bool) :
    l.cursor.position ≤ (l.readContents inner).lexer.token.span.start := by
  by_cases he : l.kind = .eof
  · rw [readContents_of_eof he, h.start_of_eof he]
  · cases hb : l.kind.breaksLine with
    | true => exact (advances_readContents_of_breaksLine hb inner).position_le_start
    | false =>
      exact (advances_readContents (endsLine_eq_false he (by simp [hb])) inner).position_le_start

/-- Contents that carry a point stand on a token that does not end the line. -/
theorem endsLine_of_contents {c : Contents} {inner : Bool}
    (hv : (l.readContents inner).value = .ok c) :
    (∀ mode code q newline, c = .expression mode code q newline →
        l.passSpace.endsLine = false ∧ q = l.passSpace.point) ∧
      ∀ t interpolate extra newline, c = .text t interpolate extra newline → t ≠ [] →
        l.passSpace.endsLine = false := by
  simp only [readContents, readBody_eq] at hv
  split at hv
  · rename_i ha
    cases hv
    constructor
    · rintro mode code q newline ⟨⟩
      refine ⟨?_, rfl⟩
      cases hk : l.passSpace.kind <;>
        simp_all [endsLine, Token.Kind.announcesExpression, Token.Kind.endsLine]
    · rintro t interpolate extra newline ⟨⟩
  · split at hv
    · rename_i hb
      have hl : l.passSpace.endsLine = false := by rw [endsLine, hb]; rfl
      simp only [endText] at hv
      split at hv
      · cases hv
        exact ⟨by rintro _ _ _ _ ⟨⟩, fun _ _ _ _ _ _ => hl⟩
      · cases hv
    · simp only [endText] at hv
      split at hv
      · cases hv
        refine ⟨by rintro _ _ _ _ ⟨⟩, ?_⟩
        rintro t interpolate extra newline ⟨⟩ ht
        by_contra hl
        simp only [takeLine_of_endsLine (Bool.of_not_eq_false hl)] at ht
        exact ht rfl
      · cases hv

end Lexer

/-- The points that the instructions of a line carry, and whether they are those of
attributes. -/
inductive Line.Carries : Line → Bool → Point → Prop where
  | expression (mode : EmbedMode) (code : Text) (p : Point) (newline : Text) :
      Carries (.expression mode code p newline) false p
  | escaped (t : Text) (p : Point) (newline : Text) : Carries (.escaped t p newline) false p
  | attributes (head : TagHead) (c : Contents) : Carries (.tag head c) true head.point
  | tagExpression (head : TagHead) (mode : EmbedMode) (code : Text) (p : Point) (newline : Text) :
      Carries (.tag head (.expression mode code p newline)) false p
  | tagText (head : TagHead) {t : Text} (ht : t ≠ []) (interpolate : Bool) (extra : Nat)
      (newline : Text) : Carries (.tag head (.text t interpolate extra newline)) false head.point
  | plainExpression (mode : EmbedMode) (code : Text) (p : Point) (newline : Text) (q : Point) :
      Carries (.plain (.expression mode code p newline) q) false p
  | plainText (t : Text) (interpolate : Bool) (extra : Nat) (newline : Text) (q : Point) :
      Carries (.plain (.text t interpolate extra newline) q) false q

section Carried

variable {x : Line} {framed : Bool} {i : Instruction} {p : Point} {depth : Nat}

theorem point_of_expressionInstructions {mode : EmbedMode} {code newline : Text} {q : Point}
    (hi : i ∈ expressionInstructions depth framed mode code q newline) (hp : i.point? = some p) :
    p = q ∧ i.isAttributes = false := by
  simp only [expressionInstructions] at hi
  split at hi <;> simp only [List.mem_cons, List.not_mem_nil, or_false] at hi
  · rcases hi with rfl | rfl | rfl <;> cases hp
    exact ⟨rfl, rfl⟩
  · subst hi
    cases hp
    exact ⟨rfl, rfl⟩

theorem point_of_textInstructions {t newline : Text} {interpolate : Bool} {q : Point}
    (hi : i ∈ textInstructions t framed depth interpolate q newline) (hp : i.point? = some p) :
    p = q ∧ t ≠ [] ∧ i.isAttributes = false := by
  simp only [textInstructions] at hi
  split at hi
  · cases hi
  · rename_i ht
    simp only [List.mem_cons, List.not_mem_nil, or_false] at hi
    rcases hi with rfl | rfl <;> cases hp
    exact ⟨rfl, by simpa using ht, rfl⟩

/-- Markup carries no point. -/
theorem not_mem_of_markup {is : List Instruction} (h : ∀ j ∈ is, j.isMarkup = true)
    (hp : i.point? = some p) : i ∉ is := by
  intro hi
  have hi := h i hi
  cases i <;> simp_all [Instruction.isMarkup, Instruction.point?]

theorem point_of_opening {head : TagHead} (hi : i ∈ head.opening depth framed)
    (hp : i.point? = some p) : p = head.point ∧ i.isAttributes = true := by
  have hmarkup (is : List Instruction) (his : ∀ j ∈ is, j.isMarkup = true) : i ∉ is :=
    not_mem_of_markup his hp
  simp only [TagHead.opening, List.mem_append, List.mem_cons, List.not_mem_nil, or_false] at hi
  rcases hi with ((hi | hi) | rfl | rfl) | hi
  · refine absurd hi (hmarkup _ ?_)
    split <;> simp [Instruction.isMarkup]
  · refine absurd hi (hmarkup _ ?_)
    split <;> simp [Instruction.isMarkup]
  · cases hp
  · simp only [TagHead.attributeInstruction] at hp ⊢
    split at hp <;> cases hp
    rename_i hd
    simp [hd, Instruction.isAttributes]
  · refine absurd hi (hmarkup _ ?_)
    split
    · split <;> simp [Instruction.isMarkup]
    · split <;> simp [Instruction.isMarkup]

theorem Line.carries_of_mem (hi : i ∈ x.instructions depth framed) (hp : i.point? = some p) :
    x.Carries i.isAttributes p := by
  cases x <;> simp only [Line.instructions] at hi
  case doctype parameters newline =>
    exact absurd hi (not_mem_of_markup (by simp [Instruction.isMarkup]) hp)
  case expression mode code q newline =>
    obtain ⟨rfl, ha⟩ := point_of_expressionInstructions hi hp
    rw [ha]
    exact .expression mode code p newline
  case code c newline =>
    simp only [List.mem_cons, List.not_mem_nil, or_false] at hi
    rcases hi with rfl | rfl <;> cases hp
  case hidden => cases hi
  case comment t newline hasContents =>
    refine absurd hi (not_mem_of_markup ?_ hp)
    intro j hj
    simp only [List.mem_append, List.mem_cons, List.not_mem_nil, or_false] at hj
    rcases hj with ((rfl | rfl) | hj) | hj
    · rfl
    · rfl
    · split at hj
      · rw [List.mem_singleton.1 hj]
        rfl
      · cases hj
    · split at hj
      · rw [List.mem_singleton.1 hj]
        rfl
      · cases hj
  case escaped t q newline =>
    simp only [List.mem_cons, List.not_mem_nil, or_false] at hi
    rcases hi with rfl | rfl | rfl <;> cases hp
    exact .escaped t p newline
  case tag head contents =>
    rcases List.mem_append.1 hi with hi | hi
    · obtain ⟨rfl, ha⟩ := point_of_opening hi hp
      rw [ha]
      exact .attributes head contents
    · cases contents with
      | expression mode code q newline =>
        obtain ⟨rfl, ha⟩ := point_of_expressionInstructions hi hp
        rw [ha]
        exact .tagExpression head mode code p newline
      | text t interpolate extra newline =>
        obtain ⟨rfl, ht, ha⟩ := point_of_textInstructions hi hp
        rw [ha]
        exact .tagText head ht interpolate extra newline
  case plain contents q =>
    cases contents with
    | expression mode code r newline =>
      simp only [Contents.withoutTag] at hi
      obtain ⟨rfl, ha⟩ := point_of_expressionInstructions hi hp
      rw [ha]
      exact .plainExpression mode code p newline q
    | text t interpolate extra newline =>
      obtain ⟨rfl, -, ha⟩ := point_of_textInstructions hi hp
      rw [ha]
      exact .plainText t interpolate extra newline p

end Carried

namespace Lexer

variable {source : Text} {l m : Lexer} {depth : Nat} {p : Point}

/-- Up to the first token of contents that do not end the line, points are on its lines. -/
theorem OnToken.line_le_of_contents (h : l.OnToken source) (hl : l.endsLine = false) {t : Lexer}
    (ht : t.OnToken source) {inner : Bool} (hb : t.passSpace.endsLine = false)
    (hstop : l.constructStop depth = (t.readContents inner).lexer.token.span.start)
    (hm : l.Reaches m) (hn : m.Reaches t.passSpace) :
    m.point.line ≤ l.lastLine source depth := by
  refine h.line_le_last hl hm hn ht.passSpace hb ?_
  rw [hstop]
  exact (advances_readBody hb inner).position_le_start

/-- The points of a line that is read are on its lines, but for that of its attributes. -/
theorem OnToken.carried (h : l.OnToken source) (hl : l.endsLine = false) (hf : l.kind ≠ .filter)
    {x : Line} (hv : (l.readLine depth).value = .ok x) {attributes : Bool}
    (hp : x.Carries attributes p) :
    p.AnchoredIn source ∧ l.firstLine source ≤ p.line ∧
      (p.line ≤ l.lastLine source depth ∨
        attributes = true ∧ p.line = l.lastLine source depth + 1 ∧ p.column = 0) := by
  have hstop : l.constructStop depth = (l.readLine depth).lexer.token.span.start := by
    simp only [constructStop, hf, if_false, hv]
  have hadvances := (advances_readLine hl depth).position_le_start
  -- A point that is no exception.
  have hon {m : Lexer} (hm : l.Reaches m) (hle : m.cursor.position ≤ l.constructStop depth)
      (hlast : m.point.line ≤ l.lastLine source depth) :
      m.point.AnchoredIn source ∧ l.firstLine source ≤ m.point.line ∧
        (m.point.line ≤ l.lastLine source depth ∨ attributes = true ∧
          m.point.line = l.lastLine source depth + 1 ∧ m.point.column = 0) := by
    obtain ⟨hanchored, hfirst, -⟩ := h.point_within depth hl hm hle
    exact ⟨hanchored, hfirst, .inl hlast⟩
  have hown := hon (.refl l) (hstop ▸ hadvances)
    (h.line_le_last hl (.refl l) (.refl l) h hl (hstop ▸ hadvances))
  by_cases ha : l.kind.announcesExpression
  · rw [readLine_announced ha] at hv
    cases hv
    cases hp
    exact hown
  by_cases ht : l.startsTag
  · cases htag : (l.readTag depth).value with
    | error d =>
      rw [readLine_refused ht htag] at hv
      cases hv
    | ok head =>
      obtain ⟨hlist, hmarks, -, hhead⟩ := h.readTag htag
      have hreach := (advances_readTag ht depth).reaches
      have hbehind := (passes_readTag_of_list l depth).reaches
      rw [readLine_tag ht htag] at hv hstop
      obtain ⟨c, hc⟩ := ok_of_map_ok hv
      rw [hc] at hv
      cases hv
      obtain ⟨hexpression, htext⟩ := endsLine_of_contents hc
      have hle := hmarks.position_le_readContents head.options.inner
      have hspace := reaches_passSpace (l.readTag depth).lexer
      cases hp with
      | attributes =>
        rw [hhead]
        obtain ⟨hanchored, hfirst, hlast⟩ := h.point_within depth hl
          l.reaches_behindList (by rw [hstop]; exact Nat.le_trans hbehind.position_le hle)
        exact ⟨hanchored, hfirst, hlast.imp id fun hbelow => ⟨rfl, hbelow⟩⟩
      | tagExpression mode code p newline =>
        obtain ⟨hb, rfl⟩ := hexpression _ _ _ _ rfl
        refine hon (hreach.trans hspace) ?_
          (h.line_le_of_contents hl hmarks hb hstop (hreach.trans hspace) (.refl _))
        rw [hstop]
        exact (advances_readBody hb _).position_le_start
      | tagText head ht' interpolate extra newline =>
        have hb := htext _ _ _ _ rfl ht'
        rw [hhead]
        exact hon l.reaches_behindList
          (by rw [hstop]; exact Nat.le_trans hbehind.position_le hle)
          (h.line_le_of_contents hl hmarks hb hstop l.reaches_behindList (hbehind.trans hspace))
  simp only [Lexer.readLine_eq, ha, ht] at hv
  split at hv <;> try contradiction
  all_goals try (cases hv; cases hp)
  · exact hown
  · obtain ⟨c, hc⟩ := ok_of_map_ok hv
    rw [hc] at hv
    cases hv
    obtain ⟨hexpression, -⟩ := endsLine_of_contents hc
    cases hp with
    | plainExpression mode code p newline =>
      obtain ⟨hb, rfl⟩ := hexpression _ _ _ _ rfl
      have hspace := reaches_passSpace l
      have hlexer : (l.readLine depth).lexer = (l.readContents true).lexer := by
        simp only [Lexer.readLine_eq, ha, ht]
        split <;> first | contradiction | rfl
      rw [hlexer] at hstop
      refine hon hspace ?_ (h.line_le_of_contents hl h hb hstop hspace (.refl _))
      rw [hstop]
      exact (advances_readBody hb true).position_le_start
    | plainText => exact hown

end Lexer

end Haml
