import Haml.Proofs.RowsAbreast

/-!
# The same text at two places

Lexers with the same text before them go in lockstep to its end, wherever the text stands.
So its rows are alike, up to what is written into the code.
-/

namespace Haml.Lexer

variable {l l' : Lexer}

theorem Abreast.next_same (h : Abreast [] l l') : Abreast [] l.next l'.next :=
  abreast_next h.mode (h.rest.trans (List.append_nil _))

theorem lockstep_same : Lockstep .inCode (Abreast []) (Abreast []) NotLost where
  toTogether := together_abreast (fun _ _ => trivial) []
  next h _ := .inl h.next_same
  finish h hk hk' := by
    rw [h.kind, hk] at hk'
    cases hk'
  expression := by
    intro l l' h _
    have hrest := h.rest.trans (List.append_nil _)
    obtain ⟨r, hr, hs⟩ := Expression.scan_cuts [] none l.rest
    have hskip := h.skip hr hs (.inl rfl)
    simp only [scanExpression, readExpression, hrest]
    split
    · exact .ok rfl rfl rfl hskip (.cons trivial .nil)
    · exact .fault rfl rfl ⟨trivial, trivial⟩ hskip (.cons trivial .nil)
  lost h := h.elim
  past h hm _ := (h.passLineEnd hm).resolve_right fun hc => hc.1 rfl
  stay h _ := h

theorem resumes_same : Resumes (Abreast []) (Abreast []) fun _ _ => False :=
  resumes_of_eof (fun h _ => h) fun h hk => deeperLineFollows_of_eof (h.kind.trans hk)

namespace Abreast

theorem hasContents_same (h : Abreast [] l l') (hm : l.mode = .line) (depth : Nat) :
    l'.hasContents depth = l.hasContents depth := by
  have hfirst : (l'.lookAhead 1).depth = (l.lookAhead 1).depth := h.next_same.depth
  have hsecond : (l'.lookAhead 2).depth = (l.lookAhead 2).depth := h.next_same.next_same.depth
  simp only [Lexer.hasContents, lockstep_same.hasInlineContents h hm, h.kind, hfirst, hsecond]

theorem closesBlock_same (h : Abreast [] l l') :
    Script.closesBlock l'.upcoming = Script.closesBlock l.upcoming := by
  have hrest := h.rest.trans (List.append_nil _)
  change (decide (l'.kind = .minus) && (Pattern.closingBrace l'.rest).isSome) =
    (decide (l.kind = .minus) && _)
  rw [h.kind, hrest]
  rfl

theorem readRow_same (h : Abreast [] l l') (hm : l.mode = .line) :
    l.readRow.Agree .inCode (Abreast []) (Abreast []) NotLost (Row.Like .inCode) l'.readRow := by
  have hspace := h.passSpace hm
  have hmode := (reaches_passSpace l).mode hm
  exact (lockstep_same.readRow h hm h.kind hspace.kind hspace.closesBlock_same
    (fun _ _ hlook => hlook.hasContents_same (mode_outlook hmode) _)
    fun _ => (lockstep_same.takeBlock resumes_same hspace hmode _).resolve_left id).resolve_left
      fun hlost => hlost.2

/-- Two lexers that stand where a third one does. -/
theorem of_same {k : Lexer} (h : Abreast [] k l) (h' : Abreast [] k l') :
    Abreast [] l l' :=
  ⟨h'.mode.trans h.mode.symm, h'.kind.trans h.kind.symm, h'.matched.trans h.matched.symm,
    h'.text.trans h.text.symm, by rw [h'.rest, h.rest, List.append_nil, List.append_nil], .inl rfl⟩

/-- The rows of a text are alike wherever it stands. -/
theorem rows_same (h : Abreast [] l l') (hm : l.mode = .line) :
    (∃ d d', l.rows = .error d ∧ l'.rows = .error d') ∨
      ∃ rows rows', l.rows = .ok rows ∧ l'.rows = .ok rows' ∧
        List.Forall₂ (Row.Like .inCode) rows rows' := by
  suffices hall : ∀ m, Abreast [] l m → (∃ d d', l.rows = .error d ∧ m.rows = .error d') ∨
      ∃ rows rows', l.rows = .ok rows ∧ m.rows = .ok rows' ∧
        List.Forall₂ (Row.Like .inCode) rows rows' from hall l' h
  clear h
  fun_induction Lexer.rows l with
  | case1 l he =>
    intro m h
    exact .inr ⟨[], [], rfl, rows_of_eof (h.kind.trans he), .nil⟩
  | case2 l hne d hd =>
    intro m h
    cases h.readRow_same hm with
    | lost h => exact h.elim
    | ok hv =>
      rw [hd] at hv
      cases hv
    | fault _ hd' => exact .inl ⟨_, _, rfl, rows_of_refused (h.kind.trans_ne hne) hd'⟩
  | case3 l hne row hrow ih =>
    intro m h
    cases h.readRow_same hm with
    | lost h => exact h.elim
    | fault hd =>
      rw [hrow] at hd
      cases hd
    | @ok v row' hv hv' hR hnext _ =>
      obtain rfl : row = v := Except.ok.inj (hrow.symm.trans hv)
      rw [rows_of_row (h.kind.trans_ne hne) hv']
      rcases ih ((advances_readRow hne).mode hm) _ hnext with
        ⟨d, d', hd, hd'⟩ | ⟨rows, rows', hrows, hrows', hall⟩
      · exact .inl ⟨d, d', by rw [hd]; rfl, by rw [hd']; rfl⟩
      · exact .inr ⟨_, _, by rw [hrows]; rfl, by rw [hrows']; rfl, .cons hR hall⟩

end Abreast

end Haml.Lexer
