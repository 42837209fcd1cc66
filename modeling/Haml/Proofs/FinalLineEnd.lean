import Haml.Proofs.LastLineEnd
import Haml.Proofs.LockstepRows
import Haml.Proofs.SameCode

/-!
# Templates without a final line end

A template whose last line is neither blank nor continued has the same code with a line
feed behind it. The rows are the same, but for one that the line feed makes of its own
behind a tag without inner white space: closing the tag takes the white space off that
this row has written.
-/

namespace Haml

theorem Pattern.closingBrace_lineFeed (t : Text) :
    (closingBrace (t ++ ['\n'])).isSome = (closingBrace t).isSome := by
  have hbrace : Blind (exactly ['\x7d']) := blind_exactly (by decide)
  have hblank : isBlank '\n' = true := by decide
  simp only [closingBrace, andThen, many, Option.isSome_map, List.takeWhile_append]
  split
  · rename_i hall
    rw [(List.takeWhile_prefix isBlank).eq_of_length hall]
    simp [hblank]
  · rw [List.drop_append_of_le_length (List.takeWhile_prefix _).length_le, hbrace]

theorem Lexeme.isIndent_of_space {mode : Mode} {t : Text} {x : Lexeme} (h : read? mode t = some x)
    (hk : x.kind = .space) {c : Char} (hc : c ∈ x.matched) : isIndent c = true := by
  cases t with
  | nil => cases h
  | cons a t =>
    rcases read?_cases h with ⟨r, hr, hx⟩ | ⟨-, rfl⟩
    · obtain ⟨m, hm, rfl⟩ := Option.map_eq_some_iff.1 hx
      rw [eq_spaceRule hr hk] at hm
      simp only [Pattern.many1, Pattern.headed] at hm
      split at hm
      · rename_i ha
        cases hm
        rcases List.mem_cons.1 hc with rfl | hc
        · exact ha
        · exact List.mem_takeWhile_imp hc
      · cases hm
    · exact absurd hk signKind_ne.2

/-! ### The end of the source -/

namespace Lexer

variable {source : Text} {l l' : Lexer}

theorem kind_next_ne_eof (h : l.rest ≠ []) : l.next.kind ≠ .eof := by
  cases hx : Lexeme.read? l.mode l.rest with
  | none => exact absurd (Lexeme.read?_eq_none.1 hx) h
  | some x =>
    obtain ⟨_, _, _, hkind, _⟩ := next_of_read? hx
    rw [hkind]
    exact Lexeme.kind_ne_eof hx

/-- The last token of a source, and the line that stands before it. -/
theorem OnToken.source_eq (h : l.OnToken source) (hk : l.kind ≠ .eof) (hr : l.rest = []) :
    ∃ before, source = before ++ l.token.matched ∧
      l.token.span.column = before.openLine.length + 1 := by
  rcases h.cases with ⟨he, -⟩ | ⟨_, before, x, r, _, _, hmatched, hcolumn, _, hcursor⟩
  · exact absurd he hk
  · obtain ⟨b, rest, rfl, -, hc⟩ := h.counts.cursor
    have hsource : b ++ rest = before ++ x.matched ++ r :=
      congrArg (fun c : Cursor => c.source) (hc.symm.trans hcursor)
    have hrest : r = [] := by
      rw [Lexer.rest, hcursor] at hr
      exact hr
    exact ⟨before, by rw [hsource, hrest, List.append_nil, hmatched], hcolumn⟩

theorem openLine_append {before m : Text} (hb : before.openLine = []) (hm : OneLine m) :
    Text.openLine (before ++ m) = m := by
  have hline : ∀ c ∈ m.reverse, (!isLineBreak c) = true := fun c hc => by
    rw [hm c (List.mem_reverse.1 hc)]
    rfl
  rw [Text.openLine, List.reverse_append, List.takeWhile_append_of_pos hline, List.reverse_append,
    List.reverse_reverse]
  rw [Text.openLine] at hb
  rw [hb, List.nil_append]

/-- The indentation of a line is not the end of a source whose last line is not blank. -/
theorem OnToken.rest_ne_nil_of_indentation (h : l.OnToken source) (hk : l.kind = .space)
    (hcolumn : l.token.span.column = 1) (hvisible : ∃ c ∈ source.openLine, isIndent c = false) :
    l.rest ≠ [] := by
  intro hr
  obtain ⟨before, hsource, hc⟩ := h.source_eq (by simp [hk]) hr
  have hopen : before.openLine = [] := List.eq_nil_of_length_eq_zero (by omega)
  have hblank : ∀ c ∈ l.token.matched, isIndent c = true := by
    rcases h.cases with ⟨he, -⟩ | ⟨_, _, x, _, hx, hkind, hmatched, -⟩
    · rw [hk] at he
      cases he
    · intro c hc
      rw [hmatched] at hc
      exact Lexeme.isIndent_of_space hx (hkind.symm.trans hk) hc
  have hone : OneLine l.token.matched := fun c hc =>
    isLineBreak_eq_false (p := isIndent) rfl rfl (hblank c hc)
  obtain ⟨c, hmem, hindent⟩ := hvisible
  rw [hsource, openLine_append hopen hone] at hmem
  rw [hblank c hmem] at hindent
  cases hindent

/-- A line feed behind a line that is not blank does not stand at the start of a line. -/
theorem not_atLine_of_lineFeed (hk : l.kind = .lineEnd) (hmatched : l.token.matched = ['\n'])
    (hr : l.rest = []) (hvisible : ∃ c ∈ source.openLine, isIndent c = false) :
    ¬l.AtLine (source ++ ['\n']) := by
  intro hline
  have hcolumn := hline.starts.resolve_left (by simp [hk])
  obtain ⟨before, hsource, hc⟩ := hline.onToken.source_eq (by simp [hk]) hr
  rw [hmatched] at hsource
  have hopen : source.openLine = [] := by
    rw [List.append_cancel_right hsource]
    exact List.eq_nil_of_length_eq_zero (by omega)
  obtain ⟨c, hmem, -⟩ := hvisible
  rw [hopen] at hmem
  cases hmem

end Lexer

/-! ### Lines that leave their end -/

theorem Lexer.hasInlineContents_of_expression {l : Lexer} {inner : Bool} {c : Contents}
    (hv : (l.readContents inner).value = .ok c) (hc : c.isExpression = true) :
    l.hasInlineContents = true := by
  have hends : l.passSpace.endsLine = false := by
    simp only [readContents, readBody_eq, endText] at hv
    split at hv
    · rename_i ha
      cases he : l.passSpace.endsLine with
      | false => rfl
      | true =>
        rw [announcesExpression_eq_false he] at ha
        cases ha
    · split at hv <;> split at hv <;> cases hv <;> cases hc
  rw [hasInlineContents]
  rw [passSpace] at hends
  split at hends
  · rename_i hk
    rw [if_pos hk, hends]
    rfl
  · rename_i hk
    rw [if_neg hk, hends]
    rfl

/-- A tag with something behind it does not close itself. -/
theorem Lexer.selfClosing_of_inlineContents {l : Lexer} {depth : Nat} {head : TagHead}
    (hv : (l.readTag depth).value = .ok head)
    (hc : (l.readTag depth).lexer.hasInlineContents = true) : head.options.selfClosing = false := by
  obtain ⟨pairs, entries, hl, hh⟩ := ok_of_readTag hv
  rw [lexer_readTag hv] at hc
  rw [readTag_of_ok depth hl hh] at hv
  split at hv
  · cases hv
  · rename_i hmarks
    cases hv
    have hcontents : l.tagMarks.2.hasContents depth = true := by
      rw [hasContents, hc, Bool.true_or]
    have hunmarked : l.tagMarks.1.selfClosing = false := by simpa [hc] using hmarks
    simp only [hunmarked, hcontents, Bool.not_true, Bool.and_false, Bool.or_false]

theorem Lexer.startsTag_of_readLine {l : Lexer} {depth : Nat} {x : Line}
    (hv : (l.readLine depth).value = .ok x) (hx : x.leavesEnd = true) : l.startsTag = true := by
  by_contra ht
  simp only [readLine_eq] at hv
  split at hv
  iterate 5
    cases hv
    cases hx
  split at hv
  · cases hv
    cases hx
  · obtain ⟨c, hc⟩ := ok_of_map_ok hv
    simp only [hc, Except.map] at hv
    cases hv
    cases hx

/-- A line that leaves its end to be read opens an element without inner white space. -/
theorem Lexer.element?_of_leavesEnd {l : Lexer} {depth : Nat} {x : Line}
    (hv : (l.readLine depth).value = .ok x) (hx : x.leavesEnd = true) :
    ∃ name options, x.element? = some (.tag name options) ∧ options.inner = false := by
  have ht := startsTag_of_readLine hv hx
  cases htag : (l.readTag depth).value with
  | error d =>
    rw [readLine_refused ht htag] at hv
    cases hv
  | ok head =>
    rw [readLine_tag ht htag] at hv
    obtain ⟨c, hc⟩ := ok_of_map_ok hv
    simp only [hc, Except.map] at hv
    cases hv
    obtain ⟨hinner, hexpression⟩ : head.options.inner = false ∧ c.isExpression = true := by
      simpa [Line.leavesEnd] using hx
    have hclosing :=
      selfClosing_of_inlineContents htag (hasInlineContents_of_expression hc hexpression)
    exact ⟨head.name, head.options, by simp [Line.element?, TagHead.element?, hclosing], hinner⟩

/-- The row ends with a tag that takes off the white space before it is closed. -/
def Row.OpensTight (row : Row) : Prop :=
  ∃ depth u ps x name options, row = .written depth u (.line ps x) ∧
    x.element? = some (.tag name options) ∧ options.inner = false

/-- A row is read up to the start of a line, or it leaves its end to be read. -/
theorem Lexer.OnToken.atLine_readRow {source : Text} {l : Lexer} (h : l.OnToken source)
    (hm : l.mode = .line) {row : Row} (hv : l.readRow.value = .ok row) :
    l.readRow.lexer.AtLine source ∨
      row.OpensTight ∧ l.readRow.lexer.OnToken source ∧ l.readRow.lexer.endsLine = true := by
  have hspace := h.passSpace
  have hmode := (reaches_passSpace l).mode hm
  simp only [readRow] at hv ⊢
  split at hv
  · rename_i hb
    rw [if_pos hb]
    exact .inl (h.atLine_next hb)
  rename_i hb
  rw [if_neg hb]
  split at hv
  · rename_i he
    rw [if_pos he]
    exact .inl ⟨hspace, .inl he⟩
  rename_i he
  rw [if_neg he]
  split at hv
  · rename_i hb
    rw [if_pos hb]
    exact .inl (hspace.atLine_next hb)
  rename_i hb
  rw [if_neg hb]
  simp only [readMatter] at hv ⊢
  split at hv
  · rename_i hk
    rw [if_pos hk]
    exact .inl (hspace.atLine_takeBlock hmode _)
  · rename_i hk
    rw [if_neg hk]
    obtain ⟨x, hx⟩ := ok_of_map_ok (ok_of_map_ok hv).choose_spec
    simp only [hx, Except.map] at hv
    cases hv
    refine (hspace.atLine_readLine hmode hx).imp_right fun hleft => ⟨?_, hleft.2⟩
    obtain ⟨name, options, helement, hinner⟩ := element?_of_leavesEnd hx hleft.1
    exact ⟨_, _, _, x, name, options, rfl, helement, hinner⟩

/-! ### Rows -/

/-- What the rows of a template and those of the template with a line feed behind it come
to: the line feed may be a row of its own behind a tag without inner white space. -/
inductive TwinRows : Except Diagnostic (List Row) → Except Diagnostic (List Row) → Prop where
  | fault (d d' : Diagnostic) : TwinRows (.error d) (.error d')
  | same {rows rows' : List Row} (h : List.Forall₂ (Row.Like .inCode) rows rows') :
      TwinRows (.ok rows) (.ok rows')
  | left {rows rows' : List Row} {row : Row} (h : List.Forall₂ (Row.Like .inCode) rows rows')
      (hlast : rows'.getLast? = some row) (hrow : row.OpensTight) :
      TwinRows (.ok rows) (.ok (rows' ++ [.empty ['\n']]))

theorem TwinRows.cons {rows rows' : Except Diagnostic (List Row)} {row row' : Row}
    (h : TwinRows rows rows') (hrow : row.Like .inCode row') :
    TwinRows (rows.map (row :: ·)) (rows'.map (row' :: ·)) := by
  cases h with
  | fault d d' => exact .fault d d'
  | same h => exact .same (.cons hrow h)
  | @left rows rows' last h hlast hleft =>
    refine .left (.cons hrow h) ?_ hleft
    rw [List.getLast?_cons, hlast]
    rfl

namespace Lexer.Twin

variable {source : Text} {l l' : Lexer}

theorem closesBlock (h : Twin l l') (hkind : l'.kind = l.kind) :
    Script.closesBlock l'.upcoming = Script.closesBlock l.upcoming := by
  have hbrace : (Pattern.closingBrace l'.rest).isSome = (Pattern.closingBrace l.rest).isSome := by
    cases h with
    | before _ _ _ _ rest => rw [rest, Pattern.closingBrace_lineFeed]
    | brink kind _ kind' =>
      rw [kind, kind'] at hkind
      cases hkind
    | behind h => rw [h.rest, List.append_nil]
  change (decide (l'.kind = .minus) && _) = (decide (l.kind = .minus) && _)
  rw [hkind]
  exact congrArg _ hbrace

/-- Behind the indentation of a line both lexers are on the same token. -/
theorem kind_passSpace (h : Twin l l') (hkind : l'.kind = l.kind) (hl : l.OnToken source)
    (hstart : l.endsLine = true ∨ l.token.span.column = 1)
    (hvisible : ∃ c ∈ source.openLine, isIndent c = false) :
    l'.passSpace.kind = l.passSpace.kind := by
  by_cases hk : l.kind = .space
  · have hcolumn := hstart.resolve_left (by simp [Lexer.endsLine, hk, Token.Kind.endsLine])
    have hrest := hl.rest_ne_nil_of_indentation hk hcolumn hvisible
    simp only [passSpace, hkind, hk, if_true]
    exact (h.next (by simp [hk])).kind_eq.resolve_right fun hc => kind_next_ne_eof hrest hc.1
  · simp only [passSpace, hkind, hk, if_false]

/-- A row is read alike with the line feed behind the source. -/
theorem readRow (h : Twin l l') (hm : l.mode = .line) (hkind : l'.kind = l.kind)
    (hl : l.OnToken source) (hstart : l.endsLine = true ∨ l.token.span.column = 1)
    (hvisible : ∃ c ∈ source.openLine, isIndent c = false) :
    l.readRow.Agree .inCode Twin Twin NotLost (Row.Like .inCode) l'.readRow := by
  have hmode := (reaches_passSpace l).mode hm
  have hspace := lockstep_twin.passSpace_within h hm
  have hindented := h.kind_passSpace hkind hl hstart hvisible
  exact (lockstep_twin.readRow h hm hkind hindented (hspace.closesBlock hindented)
    (fun _ _ hlook => hlook.hasContents (mode_outlook hmode) _)
    fun _ => (lockstep_twin.takeBlock resumes_twin hspace hmode _).resolve_left id).resolve_left
      fun hlost => hlost.2

/-- When the first lexer alone is at its end, the second is on the line feed. -/
theorem lineFeed (h : Twin l l') (hk : l.kind = .eof) (hk' : l'.kind = .lineEnd) :
    l'.token.matched = ['\n'] ∧ l'.rest = [] := by
  cases h with
  | before _ kind =>
    rw [kind, hk] at hk'
    cases hk'
  | brink _ _ _ matched' rest' => exact ⟨matched', rest'⟩
  | behind h =>
    rw [h.kind, hk] at hk'
    cases hk'

/-- On the line feed at the end there is one row more. -/
theorem rows_of_lineFeed (h : Twin l l') (hk : l.kind = .eof) (hk' : l'.kind = .lineEnd) :
    l'.rows = .ok [.empty ['\n']] := by
  have hmatched := (h.lineFeed hk hk').1
  have htoken : l'.token.kind = .lineEnd := hk'
  have hb : l'.kind.breaksLine = true := by rw [hk']; rfl
  have hrow : l'.readRow = { value := .ok (.empty ['\n']), lexer := l'.next } := by
    simp only [Lexer.readRow, hb, if_true, Token.newline, htoken, hmatched]
  rw [rows_of_row (by simp [hk']) (by rw [hrow]), hrow]
  simp only [rows_of_eof (h.finish hk hk').2]
  rfl

/-- The rows of a source, and those with a line feed behind it. -/
theorem twinRows (h : Twin l l') (hm : l.mode = .line) (hkind : l'.kind = l.kind)
    (hl : l.OnToken source) (hl' : l'.OnToken (source ++ ['\n']))
    (hstart : l.endsLine = true ∨ l.token.span.column = 1)
    (hvisible : ∃ c ∈ source.openLine, isIndent c = false) : TwinRows l.rows l'.rows := by
  suffices hall : ∀ m, Twin l m → m.kind = l.kind → m.OnToken (source ++ ['\n']) →
      TwinRows l.rows m.rows from hall l' h hkind hl'
  clear h hkind hl'
  fun_induction Lexer.rows l with
  | case1 l he =>
    intro m _ hkind _
    rw [rows_of_eof (hkind.trans he)]
    exact .same .nil
  | case2 l hne d hd =>
    intro m h hkind hl'
    cases h.readRow hm hkind hl hstart hvisible with
    | lost h => exact h.elim
    | ok hv =>
      rw [hd] at hv
      cases hv
    | fault _ hd' =>
      rw [rows_of_refused (hkind.trans_ne hne) hd']
      exact .fault _ _
  | case3 l hne row hrow ih =>
    intro m h hkind hl'
    cases h.readRow hm hkind hl hstart hvisible with
    | lost h => exact h.elim
    | fault hd =>
      rw [hrow] at hd
      cases hd
    | @ok v row' hv hv' hR hnext _ =>
      obtain rfl : row = v := Except.ok.inj (hrow.symm.trans hv)
      rw [rows_of_row (hkind.trans_ne hne) hv']
      have hleft := hl.atLine_readRow hm hrow
      have hleft' := hl'.atLine_readRow (h.mode.trans hm) hv'
      rcases hnext.kind_eq with heq | ⟨he, hn⟩
      · refine (ih ((advances_readRow hne).mode hm) (hleft.elim AtLine.onToken fun h => h.2.1) ?_ _
          hnext heq (hleft'.elim AtLine.onToken fun h => h.2.1)).cons hR
        rcases hleft with hline | hend
        · exact hline.starts.imp_left fun he => by rw [Lexer.endsLine, he]; rfl
        · exact .inl hend.2.2
      · obtain ⟨hmatched, hrest⟩ := hnext.lineFeed he hn
        have htight := (hleft'.resolve_left (not_atLine_of_lineFeed hn hmatched hrest hvisible)).1
        rw [rows_of_eof he, hnext.rows_of_lineFeed he hn]
        exact .left (.cons hR .nil) rfl htight

end Lexer.Twin

/-! ### Templates -/

/-- White space before a tag that takes it off makes no difference. -/
theorem endAlike_lineFeed {o : List Event × ElementStack} {d : Nat} {name : Text}
    {options : TagOptions} {rest : List (Nat × Element)}
    (hopen : o.2.openFrom 0 = (d, .tag name options) :: rest) (hinner : options.inner = false) :
    EndAlike o (o.1 ++ [.emit (.markup ['\n'])], o.2) := by
  refine ⟨fun u v hu hv p w => ?_, ?_⟩
  case refine_2 => simp [Instruction.showsPoint]
  have hclose := ElementStack.alike_close_of_eof (.refl o.2) 0 hu hv
  obtain ⟨more, hmore⟩ : ∃ more,
      ((o.2.close 0 u).1.filterMap Event.instruction?).map (·.atPoint p) =
        .depth d :: .trimMarkup :: more := by
    rw [ElementStack.close_events, hopen, List.flatMap_cons, List.filterMap_append,
      ElementStack.closingEvents, List.filterMap_cons_none rfl, Event.filterMap_instruction?_emit]
    simp only [Element.closing, hinner]
    exact ⟨_, rfl⟩
  -- The line feed is trimmed with whatever stood before it.
  have htrim (w : Script.Writer) : (w.run [.markup ['\n']]).run (.depth d :: .trimMarkup :: more) =
      w.run (.depth d :: .trimMarkup :: more) := rfl
  simp only [List.filterMap_append, List.map_append, Script.Writer.run_append]
  rw [← hclose.run p, hmore]
  exact congrArg Script.Writer.buffer (htrim _).symm

/-- What a row opens is closed first. -/
theorem ElementStack.openFrom_set_close (s : ElementStack) (d : Nat) (u : Upcoming) (e : Element) :
    ∃ rest, ((s.close d u).2.set d e).openFrom 0 = (d, e) :: rest := by
  have hopen := ((s.close d u).2.set d e).openFrom_append (Nat.zero_le d) u
  have hget : ((s.close d u).2.set d e).get? d = some e := by rw [get?_set, if_pos rfl]
  have hdeeper : ((s.close d u).2.set d e).openFrom (d + 1) = [] := by
    apply openFrom_eq_nil
    intro i hi
    rw [get?_set, if_neg (by omega), get?_close, if_neg (by omega)]
  rw [openFrom_eq_append ((s.close d u).2.set d e) d, hdeeper, hget] at hopen
  exact ⟨_, hopen⟩

theorem Row.OpensTight.openFrom {row : Row} (h : row.OpensTight) {filters : FilterRegistry}
    {s : ElementStack} {o : List Event × ElementStack} (ho : row.compile filters s = some o) :
    ∃ d name options rest, o.2.openFrom 0 = (d, .tag name options) :: rest ∧
      options.inner = false := by
  obtain ⟨d, u, ps, x, name, options, rfl, helement, hinner⟩ := h
  obtain ⟨rest, hrest⟩ := s.openFrom_set_close d u (.tag name options)
  simp only [Row.compile, Matter.compile, helement, Option.map_some, Option.getD_some] at ho
  cases ho
  exact ⟨d, name, options, rest, hrest, hinner⟩

/-- The last row decides what is closed first. -/
theorem Row.OpensTight.openFrom_rows {row : Row} (h : row.OpensTight) {filters : FilterRegistry}
    {s : ElementStack} {rows : List Row} {o : List Event × ElementStack}
    (ho : compileRows filters s (rows ++ [row]) = some o) :
    ∃ d name options rest, o.2.openFrom 0 = (d, .tag name options) :: rest ∧
      options.inner = false := by
  rw [compileRows_append] at ho
  obtain ⟨o₁, -, ho⟩ := Option.bind_eq_some_iff.1 ho
  obtain ⟨o₂, ho₂, rfl⟩ := Option.map_eq_some_iff.1 ho
  obtain ⟨own, hown, ho₂⟩ := Option.bind_eq_some_iff.1 ho₂
  cases ho₂
  obtain ⟨d, name, options, rest, hopen, hinner⟩ := h.openFrom hown
  exact ⟨d, name, options, rest, hopen, hinner⟩

/-- The rows of both templates are compiled alike up to the end. -/
theorem TwinRows.endAlike {rows rows' : Except Diagnostic (List Row)} (h : TwinRows rows rows')
    {filters : FilterRegistry} (hf : filters.Steady .inCode) :
    Option.Rel EndAlike (rows.toOption.bind (compileRows filters {}))
      (rows'.toOption.bind (compileRows filters {})) := by
  have halike {rows rows' : List Row} (h : List.Forall₂ (Row.Like .inCode) rows rows') :
      Option.Rel (OutcomesLike .inCode) (compileRows filters {} rows)
        (compileRows filters {} rows') :=
    like_compileRows hf (.refl _) h
  cases h with
  | fault d d' => exact .none
  | same h => exact rel_imp (halike h) fun _ _ h => h.alike.endAlike
  | @left rows rows' row h hlast hrow =>
    obtain ⟨init, rfl⟩ := List.getLast?_eq_some_iff.1 hlast
    have hall := halike h
    have hopen (o : List Event × ElementStack)
        (ho : compileRows filters {} (init ++ [row]) = some o) := hrow.openFrom_rows ho
    simp only [Except.toOption, Option.bind_some, compileRows_append filters {} (init ++ [row])]
    generalize compileRows filters {} rows = o at *
    generalize compileRows filters {} (init ++ [row]) = o' at *
    cases hall with
    | none => exact .none
    | @some o o' h =>
      obtain ⟨d, name, options, rest, hfirst, hinner⟩ := hopen o' rfl
      exact .some (h.alike.endAlike.trans (endAlike_lineFeed hfirst hinner))

theorem unended_of_openLine {t : Text} (hvisible : ∃ c ∈ t.openLine, isIndent c = false)
    (hbar : Unbarred t.openLine) : Unended t := by
  have hends : ∃ c, t.getLast? = some c ∧ isLineBreak c = false := by
    obtain ⟨a, ha, -⟩ := hvisible
    by_contra hnone
    rw [Text.openLine_eq_nil_iff.2 fun c hc => by
      cases hb : isLineBreak c with
      | true => rfl
      | false => exact absurd ⟨c, hc, hb⟩ hnone] at ha
    cases ha
  have hline : Text.lastLine (t ++ ['\n']) = t.openLine := by
    obtain ⟨c, hc, hb⟩ := hends
    rw [List.getLast?_eq_head?_reverse] at hc
    obtain ⟨u, hu⟩ := List.head?_eq_some_iff.1 hc
    have hcr : c ≠ '\r' := by
      rintro rfl
      cases hb
    have hn : isLineBreak '\n' = true := rfl
    simp [Text.lastLine, Text.openLine, hu, hcr, hn]
  exact ⟨hends, not_endsBarred (hline ▸ hbar)⟩

namespace Template

/-- A missing line end at the end of a template does not matter: if its last line has
something other than spaces and tabs in it, and does not end with a bar, blanks aside,
then it is refused with a line feed behind it just if it is refused without, and otherwise
has the same code but for points. -/
theorem compile_final_lineFeed (t t' : Template) (hsource : t'.source = t.source ++ ['\n'])
    (hvisible : ∃ c ∈ t.source.openLine, isIndent c = false) (hbar : Unbarred t.source.openLine) :
    SameButForPoints .builtin t t' := by
  have hend := unended_of_openLine hvisible hbar
  have hbefore : Lexer.Twin (Lexer.ofText t.source) (Lexer.ofText t'.source) :=
    .before rfl rfl rfl rfl hsource (.inl hend) nofun
  have htwin := hbefore.next nofun
  have hrest : (Lexer.ofText t.source).rest ≠ [] := hend.ne_nil
  have hkind := htwin.kind_eq.resolve_right fun hc => Lexer.kind_next_ne_eof hrest hc.1
  have hl := Lexer.atLine_ofText t.source
  have hl' := Lexer.atLine_ofText t'.source
  have hrows := htwin.twinRows rfl hkind hl.onToken (hsource ▸ hl'.onToken)
    (.inr (Lexer.column_next _)) hvisible
  exact sameButForPoints_of_outcomes (hrows.endAlike (FilterRegistry.steady_builtin _))

/-- The last line is a tag that leaves its line end to be read. -/
theorem compile_final_lineFeed_behind_tag :
    let t : Template := ⟨"a", "%ul\n  %li<= x"⟩
    let t' : Template := ⟨"b", "%ul\n  %li<= x\n"⟩
    ('x' ∈ t.source.openLine ∧ isIndent 'x' = false) ∧ Unbarred t.source.openLine ∧
      SameButForPoints .builtin t t' := by
  intro t t'
  have hvisible : 'x' ∈ t.source.openLine ∧ isIndent 'x' = false := by decide
  have hbar : Unbarred t.source.openLine := by decide
  exact ⟨hvisible, hbar, compile_final_lineFeed t t' rfl ⟨'x', hvisible⟩ hbar⟩

end Template

end Haml
