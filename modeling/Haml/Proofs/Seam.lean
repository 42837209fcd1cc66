import Haml.Proofs.Abreast
import Haml.Proofs.ConstructLines
import Haml.Proofs.LineReading
import Haml.Proofs.LockstepRows

/-!
# Two texts behind the same lines

Behind the same lines one lexer has `more` before it and another one has `more'`. On the
lines themselves they go side by side, unless a quote that is not closed there leads one
of them past the seam. The start of the first line behind the seam is reached by both or
by none.
-/

namespace Haml.Lexer

variable {more more' : Text} {l l' m : Lexer}

theorem Moves.rest_length_le {n : Nat} (h : Moves n l l') : l'.rest.length ≤ l.rest.length := by
  induction h with
  | refl => exact Nat.le_refl _
  | next _ _ ih => exact Nat.le_trans (rest_length_next_le _) ih
  | skip _ _ ih => exact Nat.le_trans (Cursor.skip_rest_length_le _ _) ih
  | inMode _ _ ih => exact ih
  | back _ hb ih =>
    rw [rest, (place_of_pushBack_next hb).1]
    exact ih

theorem Reaches.rest_length_le (h : l.Reaches l') : l'.rest.length ≤ l.rest.length := by
  obtain ⟨n, -, h⟩ := h.moves
  exact h.rest_length_le

/-- Two lexers on the same token of a text, behind which `more` follows for the one and
`more'` for the other. -/
def Level (more more' : Text) (l l' : Lexer) : Prop := ∃ m, Abreast more m l ∧ Abreast more' m l'

/-- Two lexers on the first tokens behind the seam. -/
structure AtSeam (more more' : Text) (l l' : Lexer) : Prop where
  reads : ∃ n, l.Reads .line n more
  reads' : ∃ n, l'.Reads .line n more'

def UpToSeam (more more' : Text) (l l' : Lexer) : Prop :=
  Level more more' l l' ∨ AtSeam more more' l l'

/-- Two lexers of which one has read on behind the seam. -/
def PastSeam (more more' : Text) (l l' : Lexer) : Prop :=
  l.rest.length < more.length ∨ l'.rest.length < more'.length

/-- Whoever is on the first token of a text stands where the text alone starts. -/
theorem Reads.abreast {n : Nat} (h : l.Reads .line n more) : Abreast [] (ofText more).next l := by
  obtain ⟨hm, c, hc, -, hscan⟩ := h
  let k : Lexer := { l with cursor := c, mode := .line }
  have htoken : k.next.token = l.token := (congrArg Prod.fst hscan).symm
  have hcursor : k.next.cursor = l.cursor := (congrArg Prod.snd hscan).symm
  have hnext : Abreast [] (ofText more).next k.next := abreast_next rfl hc
  refine ⟨hm, ?_, htoken ▸ hnext.matched, htoken ▸ hnext.text, ?_, .inl rfl⟩
  · rw [Lexer.kind, ← htoken]
    exact hnext.kind
  · rw [rest, ← hcursor]
    exact hnext.rest

theorem AtSeam.first (h : AtSeam more more' l l') : Abreast [] (ofText more).next l := by
  obtain ⟨n, hn⟩ := h.reads
  exact hn.abreast

theorem AtSeam.second (h : AtSeam more more' l l') : Abreast [] (ofText more').next l' := by
  obtain ⟨n, hn⟩ := h.reads'
  exact hn.abreast

namespace Level

theorem kind (h : Level more more' l l') : l'.kind = l.kind := by
  obtain ⟨m, h, h'⟩ := h
  rw [h.kind, h'.kind]

theorem mode (h : Level more more' l l') : l'.mode = l.mode := by
  obtain ⟨m, h, h'⟩ := h
  rw [h.mode, h'.mode]

theorem token (h : Level more more' l l') :
    l'.token.matched = l.token.matched ∧ l'.token.text = l.token.text := by
  obtain ⟨m, h, h'⟩ := h
  rw [h.matched, h'.matched, h.text, h'.text]
  exact ⟨rfl, rfl⟩

theorem newline (h : Level more more' l l') : l'.token.newline = l.token.newline := by
  obtain ⟨m, h, h'⟩ := h
  rw [h.newline, h'.newline]

theorem inMode (h : Level more more' l l') (mode : Mode) :
    Level more more' (l.inMode mode) (l'.inMode mode) := by
  obtain ⟨m, h, h'⟩ := h
  exact ⟨m.inMode mode, h.inMode mode, h'.inMode mode⟩

theorem kind_ne_eof (h : Level more more' l l') (hne : more ≠ []) : l.kind ≠ .eof := by
  obtain ⟨m, h, -⟩ := h
  intro hk
  exact hne (h.more_eq_nil (h.kind.symm.trans hk))

/-- A move leads to the same token, or behind the seam. -/
theorem next (h : Level more more' l l') (hne : more ≠ []) :
    Level more more' l.next l'.next ∨ PastSeam more more' l.next l'.next := by
  obtain ⟨m, h, h'⟩ := h
  -- A lexeme that is longer than what the lines have left.
  have hpast {k : Lexer} {after : Text} {x : Lexeme} (hk : Abreast after m k)
      (hx : Lexeme.read? m.mode (m.rest ++ after) = some x)
      (hlt : m.rest.length < x.matched.length) : k.next.rest.length < after.length := by
    rw [← hk.mode, ← hk.rest] at hx
    obtain ⟨r, hr, hrest, -⟩ := next_of_read? hx
    rw [hk.rest] at hr
    have hlength := congrArg List.length hr
    simp only [List.length_append] at hlength
    rw [hrest]
    omega
  rcases (h.closes.resolve_left hne).2 with ht | ⟨hnil, -⟩
  · cases hx : Lexeme.read? m.mode m.rest with
    | none => exact absurd (Lexeme.read?_eq_none.1 hx) ht.ne_nil
    | some x =>
      rcases Lexeme.read?_append_or ht m.mode with hsame | ⟨-, -, y, hy, hlt⟩
      · have hnext := h.next_of_read? ht hx (hsame.trans hx)
        rcases h'.closes with rfl | ⟨-, ht' | ⟨hnil, -⟩⟩
        · exact .inl ⟨m.next, hnext, abreast_next h'.mode (h'.rest.trans (List.append_nil _))⟩
        · rcases Lexeme.read?_append_or ht' m.mode with hsame' | ⟨-, -, y, hy, hlt⟩
          · exact .inl ⟨m.next, hnext, h'.next_of_read? ht' hx (hsame'.trans hx)⟩
          · exact .inr (.inr (hpast h' hy hlt))
        · exact absurd hnil ht.ne_nil
      · exact .inr (.inl (hpast h hy hlt))
  · right
    left
    have hrest : l.rest = more := by rw [h.rest, hnil, List.nil_append]
    rw [← hrest]
    exact rest_length_next_lt (hrest ▸ hne)

/-- On a template line a move leads to the same token, or from the end of the last line
to the seam. -/
theorem next_line (h : Level more more' l l') (hm : l.mode = .line) :
    UpToSeam more more' l.next l'.next := by
  have hm' : l'.mode = .line := h.mode.trans hm
  obtain ⟨m, h, h'⟩ := h
  have hmode : m.mode = .line := h.mode.symm.trans hm
  have hlist : m.mode = .list → m.next.kind ≠ .other := fun hlist => by
    rw [hmode] at hlist
    cases hlist
  by_cases hnil : m.rest = []
  · have hrest : l.rest = more := by rw [h.rest, hnil, List.nil_append]
    have hrest' : l'.rest = more' := by rw [h'.rest, hnil, List.nil_append]
    refine .inr ⟨⟨l.cursor.line, ?_⟩, ⟨l'.cursor.line, ?_⟩⟩
    · have hreads := next_reads l
      rwa [hm, hrest] at hreads
    · have hreads := next_reads l'
      rwa [hm', hrest'] at hreads
  · exact .inl ⟨m.next, h.next (.inr hnil) hlist, h'.next (.inr hnil) hlist⟩

theorem next_within (h : Level more more' l l') (hm : l.mode = .line) (hl : l.endsLine = false) :
    Level more more' l.next l'.next := by
  obtain ⟨m, h, h'⟩ := h
  have hmode := h.mode.symm.trans hm
  have hk : m.kind ≠ .lineEnd := by
    rw [← h.kind]
    exact Abreast.kind_ne_lineEnd hl
  exact ⟨m.next, h.next_within hmode hk, h'.next_within hmode hk⟩

theorem continued? (h : Level more more' l l') (hk : l.kind ≠ .lineEnd) :
    Haml.continued? l'.rest = Haml.continued? l.rest := by
  obtain ⟨m, h, h'⟩ := h
  have hk : m.kind ≠ .lineEnd := by rwa [← h.kind]
  rw [h.continued? hk, h'.continued? hk]

/-- Past the text before a closing bar, and onto the bar. -/
theorem next_segment (h : Level more more' l l') (hm : l.mode = .line) (hk : l.kind ≠ .lineEnd)
    {t : Text} (ht : Haml.continued? l.rest = some t) :
    Level more more' (l.skip t).next (l'.skip t).next := by
  obtain ⟨m, h, h'⟩ := h
  have hmode := h.mode.symm.trans hm
  have hk : m.kind ≠ .lineEnd := by rwa [← h.kind]
  rw [h.continued? hk] at ht
  exact ⟨_, h.next_segment hmode hk ht, h'.next_segment hmode hk ht⟩

/-- Past the rest of the line, and onto its end. -/
theorem next_lineEnd (h : Level more more' l l') (hm : l.mode = .line) (hl : l.endsLine = false) :
    (l'.rest.takeWhile fun c => !isLineBreak c) = (l.rest.takeWhile fun c => !isLineBreak c) ∧
      Level more more' (l.skip (l.rest.takeWhile fun c => !isLineBreak c)).next
        (l'.skip (l.rest.takeWhile fun c => !isLineBreak c)).next := by
  obtain ⟨m, h, h'⟩ := h
  have hmode := h.mode.symm.trans hm
  have hl : m.endsLine = false := by rwa [← h.endsLine]
  obtain ⟨htext, hnext⟩ := h.next_lineEnd hmode hl
  obtain ⟨htext', hnext'⟩ := h'.next_lineEnd hmode hl
  rw [htext, htext']
  exact ⟨rfl, _, hnext, hnext'⟩

theorem passLineEnd (h : Level more more' l l') (hm : l.mode = .line) :
    UpToSeam more more' l.passLineEnd l'.passLineEnd := by
  simp only [Lexer.passLineEnd, h.kind]
  split
  · exact h.next_line hm
  · exact .inl h

/-- An expression ends on the line or is not closed there; a backslash may hide the line
end and lead behind the seam. -/
theorem scanExpression (h : Level more more' l l') (hk : l.kind = .colon) (hne : more ≠ [])
    (hstart : ∀ c, more.head? = some c → isLineBreak c = false) :
    l.scanExpression.Agree .inCode (Level more more') (Level more more')
      (fun _ => PastSeam more more') Likeness.inCode.text l'.scanExpression := by
  obtain ⟨m, h, h'⟩ := h
  have hkind : m.kind ≠ .lineEnd := by
    rw [← h.kind, hk]
    exact nofun
  have ht := (h.terminated hkind).resolve_left hne
  rcases Expression.scan_append_or [] none (.inl ht) with
    ⟨hscan, hlt⟩ | ⟨-, hlt⟩
  · have hscan' : Expression.scan [] none (m.rest ++ more') = Expression.scan [] none m.rest := by
      rcases h'.terminated hkind with rfl | ht'
      · rw [List.append_nil]
      · rcases Expression.scan_append_or [] none (.inl ht') with
          ⟨hscan', -⟩ | ⟨hall, -⟩
        · exact hscan'
        · rw [hall] at hlt
          exact absurd hlt (Nat.lt_irrefl _)
    rw [← h.rest] at hscan
    rw [← h'.rest] at hscan'
    obtain ⟨r, hr, hs⟩ := Expression.scan_cuts [] none m.rest
    have hleft : r ≠ [] := by
      rintro rfl
      rw [List.append_nil] at hr
      exact absurd (congrArg List.length hr) (by omega)
    have hskip : Level more more' (l.skip (Expression.scan [] none m.rest).text)
        (l'.skip (Expression.scan [] none m.rest).text) :=
      ⟨_, h.skip hr hs (.inr hleft), h'.skip hr hs (.inr hleft)⟩
    simp only [Lexer.scanExpression, readExpression, hscan, hscan']
    split
    · exact .ok rfl rfl rfl hskip (.cons trivial .nil)
    · exact .fault rfl rfl ⟨trivial, trivial⟩ hskip (.cons trivial .nil)
  · refine .lost (.inl ?_)
    obtain ⟨c, u, rfl⟩ := List.exists_cons_of_ne_nil hne
    have hlt := hlt c rfl (hstart c rfl)
    rw [← h.rest] at hlt
    obtain ⟨r, hr, hs⟩ := Expression.scan_cuts [] none l.rest
    have hlexer : l.scanExpression.lexer = l.skip (Expression.scan [] none l.rest).text := by
      simp only [Lexer.scanExpression, readExpression]
      split <;> rfl
    rw [hlexer, rest_skip hr hs]
    have hlength := congrArg List.length hr
    rw [h.rest] at hlength hlt
    simp only [List.length_append] at hlength
    omega

end Level

/-- On the same lines two lexers go in lockstep, up to the seam. -/
theorem lockstep_level (hne : more ≠ [])
    (hstart : ∀ c, more.head? = some c → isLineBreak c = false) :
    Lockstep .inCode (Level more more') (UpToSeam more more') fun _ => PastSeam more more' where
  kind h := .inl h.kind
  token h _ _ := h.token
  newline h := h.newline.symm
  point _ := trivial
  inMode h mode := h.inMode mode
  within h hm hl := h.next_within hm hl
  continued h _ hk := h.continued? hk
  segment h hm _ hk ht := h.next_segment hm hk ht
  line h hm hl := h.next_lineEnd hm hl
  next h _ := h.next hne
  finish h hk := absurd hk (h.kind_ne_eof hne)
  expression h hk := h.scanExpression hk hne hstart
  lost h hm hm' _ :=
    h.imp (Nat.lt_of_le_of_lt hm.rest_length_le) (Nat.lt_of_le_of_lt hm'.rest_length_le)
  past h hm _ := h.passLineEnd hm
  stay h _ := .inl h

/-! ### Where the seam is -/

section Places

variable {source a : Text}

theorem matched_next (l : Lexer) : l.next.token.matched ++ l.next.rest = l.rest := by
  cases hx : Lexeme.read? l.mode l.rest with
  | none =>
    have hnil := Lexeme.read?_eq_none.1 hx
    obtain ⟨-, hmatched, -, hrest⟩ := next_of_nil hnil
    rw [hmatched, hrest, hnil]
    rfl
  | some x =>
    obtain ⟨r, hr, hrest, -, hmatched, -⟩ := next_of_read? hx
    rw [hmatched, hrest, hr]

theorem Counts.position_eq (h : l.Counts source) :
    ∃ before, source = before ++ l.rest ∧ l.cursor.position = before.byteSize := by
  obtain ⟨before, hstep⟩ := h.cursor.inStep
  exact ⟨before, hstep.cut, hstep.position⟩

/-- Where the current token starts, in bytes and on its line. -/
theorem OnToken.start_eq (h : l.OnToken source) :
    ∃ before, source = before ++ (l.token.matched ++ l.rest) ∧
      l.token.span.start = before.byteSize ∧
        l.token.span.column = before.openLine.length + 1 := by
  obtain ⟨mode, c, hc, hscan⟩ := h.scanned
  obtain ⟨before, hstep⟩ := hc.inStep
  -- The token is what a lexer at its start moves to.
  let k : Lexer := { l with cursor := c, mode := mode }
  have htoken : k.next.token = l.token := congrArg Prod.fst hscan
  have hcursor : k.next.cursor = l.cursor := congrArg Prod.snd hscan
  have hrest : k.next.rest = l.rest := by rw [rest, hcursor, rest]
  refine ⟨before, ?_, ?_, ?_⟩
  · rw [hstep.cut, ← htoken, ← hrest, matched_next]
    rfl
  · rw [← htoken, start_next, ← hstep.position]
  · rw [← htoken, column_next, ← hstep.column]

theorem OnToken.matched_ne_nil (h : l.OnToken source) (hk : l.kind ≠ .eof) :
    l.token.matched ≠ [] := by
  rcases h.cases with ⟨he, -⟩ | ⟨_, _, x, _, hx, _, hmatched, -⟩
  · exact absurd he hk
  · rw [hmatched]
    exact Lexeme.matched_ne_nil hx

theorem Abreast.start_lt (h : Abreast more m l) (hl : l.OnToken (a ++ more)) (hk : l.kind ≠ .eof) :
    l.token.span.start < a.byteSize := by
  obtain ⟨before, hsource, hstart, -⟩ := hl.start_eq
  have ha : a = before ++ (l.token.matched ++ m.rest) := by
    rw [h.rest, ← List.append_assoc l.token.matched, ← List.append_assoc] at hsource
    exact List.append_cancel_right hsource
  have hpos : l.token.matched.byteSize ≠ 0 := fun hzero =>
    hl.matched_ne_nil hk (Text.byteSize_eq_zero.1 hzero)
  rw [hstart, ha, Text.byteSize_append, Text.byteSize_append]
  omega

theorem start_of_abreast_ofText (h : Abreast [] (ofText more).next l)
    (hl : l.OnToken (a ++ more)) : l.token.span.start = a.byteSize := by
  obtain ⟨before, hsource, hstart, -⟩ := hl.start_eq
  have hmore : l.token.matched ++ l.rest = more := by
    rw [h.matched, h.rest, List.append_nil, matched_next]
    rfl
  rw [hmore] at hsource
  rw [hstart, List.append_cancel_right hsource]

theorem Counts.position_lt (h : l.Counts (a ++ more)) (hlt : l.rest.length < more.length) :
    a.byteSize < l.cursor.position := by
  obtain ⟨before, hsource, hposition⟩ := h.position_eq
  have hlength := congrArg List.length hsource
  simp only [List.length_append] at hlength
  obtain ⟨u, rfl⟩ : a <+: before :=
    List.prefix_of_prefix_length_le ⟨more, rfl⟩ ⟨l.rest, hsource.symm⟩ (by omega)
  have hne : u ≠ [] := by
    rintro rfl
    rw [List.append_nil] at hlength
    omega
  have hpos : Text.byteSize u ≠ 0 := fun hzero => hne (Text.byteSize_eq_zero.1 hzero)
  rw [hposition, Text.byteSize_append]
  omega

end Places

end Haml.Lexer
