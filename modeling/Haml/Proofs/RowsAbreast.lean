import Haml.Proofs.Abreast
import Haml.Proofs.LockstepRows

/-!
# Rows of lexers abreast

Lexers abreast go in lockstep: what the first of them reads without a fault, the other one
reads as well. In attribute lists and hashes the first may come upon a token at which it
gives up, where the other could go on. So the rows of a text that `more` follows are its own
rows and then those of `more`, but for where they stand.
-/

namespace Haml.Lexer

variable {more : Text} {l l' : Lexer}

/-- An expression is read alike, and is of the same length. -/
theorem Abreast.readExpression (h : Abreast more l l') (hk : l.kind ≠ .lineEnd) {e : Text}
    (he : l.readExpression.1 = .ok e) :
    l'.readExpression.1 = .ok e ∧ Abreast more l.readExpression.2 l'.readExpression.2 ∧
      l'.readExpression.2.cursor.position - l'.cursor.position =
        l.readExpression.2.cursor.position - l.cursor.position := by
  have hending : (Expression.scan [] none l.rest).ending = .complete := by
    simp only [Lexer.readExpression] at he
    cases hs : (Expression.scan [] none l.rest).ending with
    | complete => rfl
    | unterminated =>
      rw [hs] at he
      cases he
    | unbalanced =>
      rw [hs] at he
      cases he
  obtain ⟨hscan, hrest⟩ : Expression.scan [] none l'.rest = Expression.scan [] none l.rest ∧
      (more = [] ∨ (Expression.scan [] none l.rest).text.length < l.rest.length) := by
    rw [h.rest]
    rcases h.terminated hk with rfl | ht
    · exact ⟨by rw [List.append_nil], .inl rfl⟩
    · obtain ⟨hscan, hlt⟩ := Expression.scan_append (.inl ht) hending
      exact ⟨hscan, .inr hlt⟩
  obtain ⟨r, hr, hu⟩ := Expression.scan_cuts [] none l.rest
  obtain ⟨r', hr', hu'⟩ := Expression.scan_cuts [] none l'.rest
  have hposition := (Cursor.skip_exact (c := l.cursor) hr hu).2.2
  have hposition' := (Cursor.skip_exact (c := l'.cursor) hr' hu').2.2
  rw [hscan] at hposition'
  simp only [Lexer.readExpression, hscan, hending, Expression.Ending.fault?] at he ⊢
  refine ⟨he, ?_, ?_⟩
  · refine h.skip hr hu (hrest.imp id fun hlt hnil => ?_)
    rw [hnil, List.append_nil] at hr
    rw [← hr] at hlt
    exact Nat.lt_irrefl _ hlt
  · simp only [Lexer.skip, hposition, hposition']
    omega

/-- Lexers that are lost when the first of them has to give up. -/
def LostIf (P : Prop) (_ _ : Lexer) : Prop := P

theorem lockstep_abreast (more : Text) :
    Lockstep .unplaced (Abreast more) (Beside more) LostIf where
  toTogether := together_abreast (fun _ _ => trivial) more
  next h _ := h.next_or_stuck
  finish h hk hk' := by
    rw [h.kind, hk] at hk'
    cases hk'
  expression := by
    intro l l' h hk
    cases he : l.readExpression.1 with
    | error d => exact .lost ⟨d, he⟩
    | ok e =>
      obtain ⟨he', hlexer, hlength⟩ := h.readExpression (by simp [hk]) he
      refine .ok he he' rfl hlexer (.cons ?_ .nil)
      change Probe.unplaced _ = Probe.unplaced _
      simp only [Probe.unplaced, he, he', hlength]
  lost h _ _ himp := himp h
  past h hm _ := h.passLineEnd hm
  stay h _ := .inl h

/-! ### Behind a line -/

section Behind

variable (hv : StartsVisibly more)
include hv

/-- The first token of a text that starts visibly. -/
theorem visible_first (hne : more ≠ []) :
    (ofText more).next.kind ≠ .space ∧ (ofText more).next.endsLine = false := by
  cases hx : Lexeme.read? .line more with
  | none => exact absurd (Lexeme.read?_eq_none.1 hx) hne
  | some x =>
    obtain ⟨r, -, -, hk, -⟩ := next_of_read? (l := ofText more) hx
    rw [endsLine, hk]
    exact hv x hx

/-- Where the first of two lexers has come to its end, the other is on a visible
token. -/
theorem Beside.cases (h : Beside more l l') :
    Abreast more l l' ∨
      l.kind = .eof ∧ l'.kind ≠ .space ∧ l'.endsLine = false ∧
        Abreast [] (ofText more).next l' := by
  rcases h with h | ⟨hne, hk, h⟩
  · exact .inl h
  · obtain ⟨hs, he⟩ := visible_first hv hne
    exact .inr ⟨hk, by rwa [h.kind], h.endsLine.trans he, h⟩

theorem Beside.depth (h : Beside more l l') : l'.token.depth = l.token.depth := by
  rcases h.cases hv with h | ⟨hk, hs, -⟩
  · exact h.depth
  · have hk : l.token.kind = .eof := hk
    have hs : l'.token.kind ≠ .space := hs
    rw [Token.depth, Token.depth, if_neg hs, hk, if_neg (by decide)]

theorem Abreast.hasContents (h : Abreast more l l') (hm : l.mode = .line) (depth : Nat) :
    l'.hasContents depth = l.hasContents depth := by
  have hfirst : (l'.lookAhead 1).depth = (l.lookAhead 1).depth := (h.beside_next hm).depth hv
  simp only [Lexer.hasContents, (lockstep_abreast more).hasInlineContents h hm, h.kind]
  cases hk : l.kind with
  | space =>
    have hsecond : (l'.lookAhead 2).depth = (l.lookAhead 2).depth :=
      ((h.next_within hm (by simp [hk])).beside_next hm).depth hv
    simp only [hsecond]
  | eof => rfl
  | _ => simp only [hfirst]

/-- Whether a block goes on does not depend on `more`, which starts no deeper line. -/
theorem resumes_abreast : Resumes (Abreast more) (Beside more) fun _ _ => False := by
  refine resumes_of_eof (fun h hk => h.abreast hk) fun h hk depth => ?_
  rcases h.cases hv with h | ⟨-, hs, he, -⟩
  · exact deeperLineFollows_of_eof (h.kind.trans hk) depth
  · exact deeperLineFollows_of_other (breaksLine_eq_false he) hs depth

/-! ### Rows -/

/-- A row that the first lexer reads is read by the other one as well. -/
theorem Abreast.readRow (h : Abreast more l l') (hm : l.mode = .line) {row : Row}
    (hrow : l.readRow.value = .ok row) :
    ∃ row', l'.readRow.value = .ok row' ∧ row.Like .unplaced row' ∧
      Beside more l.readRow.lexer l'.readRow.lexer := by
  have hspace := h.passSpace hm
  have hmode := (reaches_passSpace l).mode hm
  rcases (lockstep_abreast more).readRow h hm h.kind hspace.kind trivial
    (fun _ _ hlook => hlook.hasContents hv (mode_outlook hmode) _)
    (fun _ => ((lockstep_abreast more).takeBlock (resumes_abreast hv) hspace hmode _).resolve_left
      id) with ⟨ht, hfails⟩ | hagree
  · obtain ⟨d, hd⟩ := fails_readRow_of_tag ht hfails
    rw [hrow] at hd
    cases hd
  · cases hagree with
    | lost h => exact h.elim
    | ok hv hv' hR hlexer _ =>
      obtain rfl := Except.ok.inj (hrow.symm.trans hv)
      exact ⟨_, hv', hR, hlexer⟩
    | fault hd =>
      rw [hrow] at hd
      cases hd

/-- The rows of a text that `more` follows are its own and then those of `more`. -/
theorem Beside.rows (h : Beside more l l') (hm : l.mode = .line)
    {rows after : List Row} (hrows : l.rows = .ok rows)
    (hafter : ∀ m, Abreast [] (ofText more).next m →
      ∃ after', m.rows = .ok after' ∧ List.Forall₂ (Row.Like .unplaced) after after')
    (hnil : more = [] → after = []) :
    ∃ rows', l'.rows = .ok rows' ∧
      List.Forall₂ (Row.Like .unplaced) (rows ++ after) rows' := by
  suffices hall : ∀ rows, l.rows = .ok rows → ∀ m, Beside more l m →
      ∃ rows', m.rows = .ok rows' ∧
        List.Forall₂ (Row.Like .unplaced) (rows ++ after) rows' from hall rows hrows l' h
  clear h hrows
  fun_induction Lexer.rows l with
  | case1 l hk =>
    intro rows hrows m h
    cases hrows
    rcases h with h | ⟨-, -, h⟩
    · exact ⟨[], rows_of_eof (h.kind.trans hk), by rw [hnil (h.more_eq_nil hk)]; exact .nil⟩
    · exact hafter m h
  | case2 =>
    intro rows hrows
    cases hrows
  | case3 l hk row hrow ih =>
    intro rows hrows m h
    have h := h.abreast hk
    obtain ⟨row', hrow', hsame, hlexer⟩ := h.readRow hv hm hrow
    obtain ⟨rest, hrest⟩ := ok_of_map_ok hrows
    rw [hrest] at hrows
    cases hrows
    obtain ⟨rest', hrest', hmore⟩ :=
      ih ((advances_readRow hk).reaches.mode hm) rest hrest _ hlexer
    refine ⟨row' :: rest', ?_, .cons hsame hmore⟩
    rw [rows_of_row (h.kind.trans_ne hk) hrow', hrest']
    rfl

end Behind

end Haml.Lexer
