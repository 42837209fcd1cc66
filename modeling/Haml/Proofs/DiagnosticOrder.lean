import Haml.Proofs.FaultPlaces

/-!
# The order of diagnostics

A tolerant run notes at most one fault with each step. It shows behind the start of
the token that the step starts on, and not behind the start of the token that the run
goes on with. Since places further on in the source are later points, the faults of a
run are noted in the order of their points.
-/

namespace Haml

/-- The point shows a line of `source` by its number, and a place on that line. -/
structure Point.AnchoredIn (source : Text) (p : Point) : Prop where
  line_pos : 0 < p.line
  text : source.lines[p.line - 1]? = some p.text
  column_le : p.column ≤ p.text.length

theorem Cursor.Counted.anchored {source : Text} {c : Cursor} (h : c.Counted source) :
    c.point.AnchoredIn source := by
  obtain ⟨before, h⟩ := h.inStep
  have hline : 0 < c.line := by
    have := h.line
    omega
  exact ⟨hline, h.text, h.column_le⟩

namespace Context

variable {filters : FilterRegistry} {stack : ElementStack} {l : Lexer}

/-- What stands behind the indentation of a line notes no fault, unless it is a filter
that refuses its block; that fault shows behind the name of the filter. -/
theorem noted_construct (hf : filters.ReportPoints) (stack : ElementStack) (l : Lexer)
    (depth : Nat) :
    let s := construct ⟨true, filters⟩ stack l depth
    s.events.filterMap Event.diagnostic? = [] ∨
      s.fault = none ∧ l.Advances s.lexer ∧
        ∃ d, s.events.filterMap Event.diagnostic? = [d] ∧ d.point = l.point := by
  intro s
  simp only [s, construct_eq, ownStep_eq]
  split
  · exact .inl rfl
  rename_i hk
  split
  · exact .inl rfl
  rename_i hb
  have he := Lexer.endsLine_eq_false hk hb
  simp only [List.filterMap_append, ElementStack.filterMap_diagnostic?_close, List.nil_append,
    List.filterMap_cons, Event.diagnostic?_emit]
  split
  · have hemitted (name : Text) (n : Nat) (is : List Instruction) :
        (Event.filtering name n :: is.map .emit).filterMap Event.diagnostic? = [] :=
      Event.filterMap_diagnostic?_emit is
    simp only [filterStep_eq]
    split
    · exact .inl rfl
    · rename_i filter hfilter
      split
      · exact .inl (hemitted _ _ _)
      · rename_i d hd
        right
        refine ⟨rfl, Lexer.advances_takeBlock he depth, d, ?_, hf _ _ hfilter _ _ _ _ hd⟩
        simp only [if_true, List.filterMap_append, hemitted]
        rfl
  · exact .inl (diagnostics_lineStep _ _ _)

/-- A step that notes a fault does so at a place behind the start of its first token, and
goes on with a token that starts at that place or behind it. -/
theorem noted_step (hf : filters.ReportPoints) (stack : ElementStack) (hl : l.kind ≠ .eof)
    (hbehind : l.BehindStart) :
    let s := step ⟨true, filters⟩ stack l
    s.events.filterMap Event.diagnostic? = [] ∨
      ∃ d m, s.events.filterMap Event.diagnostic? = [d] ∧ l.Reaches m ∧ d.point = m.point ∧
        l.token.span.start < m.cursor.position ∧
        (s.lexer.kind = .eof ∨ m.cursor.position ≤ s.lexer.token.span.start) := by
  intro s
  have hspace := Lexer.reaches_passSpace l
  have hstart {m : Lexer} (hm : l.passSpace.Reaches m) : l.token.span.start < m.cursor.position :=
    Nat.lt_of_lt_of_le (hbehind.resolve_left hl) (hspace.trans hm).position_le
  have hnoted := noted_construct hf stack l.passSpace l.token.depth
  simp only at hnoted
  simp only [s, step_eq]
  split
  · exact .inl rfl
  simp only [indentedLine_eq]
  cases hfault : (construct ⟨true, filters⟩ stack l.passSpace l.token.depth).fault with
  | none =>
    rcases hnoted with hnone | ⟨-, hadvances, d, hd, hp⟩
    · exact .inl hnone
    · exact .inr ⟨d, _, hd, hspace, hp, hstart (.refl _), .inr hadvances.position_le_start⟩
  | some d =>
    have hnone := hnoted.resolve_right fun h => by
      rw [hfault] at h
      cases h.1
    have hreport : (⟨true, filters⟩ : Context).filters.ReportPoints := hf
    obtain ⟨m, hm, hstop, hp⟩ := place_of_fault hreport hfault
    obtain ⟨l', hl'⟩ := Lexer.exists_recover
      (construct ⟨true, filters⟩ stack l.passSpace l.token.depth).lexer l.token.depth
    simp only [hl', if_true]
    refine .inr ⟨d, m, ?_, hspace.trans hm, hp, hstart hm, ?_⟩
    · simp only [List.cons_append, List.filterMap_cons, Event.diagnostic?_emit,
        List.filterMap_append, hnone]
      rfl
    · exact (Lexer.eof_or_advances_recover hl').imp id fun h =>
        (hstop.advances h).position_le_start

/-- The faults that a run notes from `l` on show at places of the source that follow one
another, all behind the start of the current token. -/
theorem noted_runFrom {source : Text} (hf : filters.ReportPoints) (stack : ElementStack)
    (hc : l.Counts source) (hbehind : l.BehindStart) :
    ∃ places : List Cursor,
      (runFrom ⟨true, filters⟩ stack l).diagnostics.map Diagnostic.point =
        places.map Cursor.point ∧
      (∀ c ∈ places, c.Counted source ∧ l.token.span.start < c.position) ∧
      places.Pairwise fun c c' => c.position < c'.position := by
  generalize hctx : (⟨true, filters⟩ : Context) = ctx
  fun_induction runFrom ctx stack l with
  | case1 stack l =>
    refine ⟨[], ?_, by simp, .nil⟩
    rw [Run.diagnostics, ElementStack.filterMap_diagnostic?_close]
    rfl
  | case2 stack l hl s d hd =>
    subst hctx
    rw [fault_step_tolerant rfl] at hd
    cases hd
  | case3 stack l hl s hs ih =>
    subst hctx
    have hadvances := advances_step _ stack hl hs
    have hlt := hadvances.start_lt hbehind hl
    obtain ⟨places, hpoints, hplaces, hsorted⟩ :=
      ih (hadvances.reaches.counts hc) (hadvances.reaches.behindStart hbehind)
    have hplaces' : ∀ c ∈ places, c.Counted source ∧ l.token.span.start < c.position :=
      fun c hc => ⟨(hplaces c hc).1, Nat.lt_trans hlt (hplaces c hc).2⟩
    rw [Run.diagnostics, Run.after, List.filterMap_append, List.map_append]
    rcases noted_step hf stack hl hbehind with hnone | ⟨d, m, hd, hm, hp, hbefore, hafter⟩
    · exact ⟨places, by rw [hnone]; exact hpoints, hplaces', hsorted⟩
    · refine ⟨m.cursor :: places, ?_, ?_, ?_⟩
      · rw [hd, List.map_cons, List.map_cons, List.map_nil, hp, ← hpoints]
        rfl
      · rintro c (_ | ⟨_, hmem⟩)
        · exact ⟨(hm.counts hc).cursor, hbefore⟩
        · exact hplaces' c hmem
      · refine List.pairwise_cons.2 ⟨fun c hmem => ?_, hsorted⟩
        rcases hafter with heof | hle
        · -- Behind the last line there is nothing to note.
          rw [runFrom_of_eof heof, Run.diagnostics, ElementStack.filterMap_diagnostic?_close]
            at hpoints
          rw [List.map_eq_nil_iff.1 hpoints.symm] at hmem
          cases hmem
        · exact Nat.lt_of_le_of_lt hle (hplaces c hmem).2

end Context

/-- A tolerant compilation notes faults in the order of their points, no two at the same
one, and each shows the line of the source that it is on and a place on that line. -/
theorem Template.diagnostics_in_source_order (t : Template) (filters : FilterRegistry)
    (hf : filters.ReportPoints) :
    ∃ c, t.compileWith ⟨true⟩ filters = .ok c ∧
      c.diagnostics.Pairwise (fun d d' => d.point.Before d'.point) ∧
      ∀ d ∈ c.diagnostics, d.point.AnchoredIn t.source := by
  have hcounts := (Lexer.counts_ofText t.source).next
  obtain ⟨places, hpoints, hplaces, hsorted⟩ :=
    Context.noted_runFrom hf {} hcounts (Lexer.behindStart_next _)
  refine ⟨_, compileWith_of_ok (o := ⟨true⟩) (Context.fault_runFrom_tolerant filters {} _), ?_, ?_⟩
  · rw [← List.pairwise_map (f := Diagnostic.point), hpoints, List.pairwise_map]
    exact hsorted.imp_of_mem fun hc hc' hlt =>
      (hplaces _ hc).1.before (hplaces _ hc').1 hlt
  · intro d hd
    have hmem : d.point ∈ places.map Cursor.point := hpoints ▸ List.mem_map_of_mem hd
    obtain ⟨c, hc, heq⟩ := List.mem_map.1 hmem
    rw [← heq]
    exact (hplaces c hc).1.anchored

/-- An attribute list that ends with its line, a filter that refuses its block, a hash
that is refused in its second line, and an unknown filter at the end of the source. -/
theorem Template.diagnostics_in_source_order_of_draft :
    let filters := FilterRegistry.builtin.register "strict" (.refusing "No such luck")
    let t : Template := ⟨"draft", "%p(a\n:strict\n  c\n\n%q\x7bb: 1,\n  c d\x7d\n:none"⟩
    filters.ReportPoints ∧ ∃ c, t.compileWith ⟨true⟩ filters = .ok c ∧
      c.diagnostics.map (fun d => (d.point.line, d.point.column)) =
        [(2, 0), (2, 7), (6, 5), (7, 5)] ∧
      c.diagnostics.Pairwise (fun d d' => d.point.Before d'.point) ∧
      ∀ d ∈ c.diagnostics, d.point.AnchoredIn t.source := by
  intro filters t
  have hf : filters.ReportPoints := by
    intro name f h
    obtain ⟨e, he, rfl⟩ := FilterRegistry.mem_of_find? h
    refine FilterRegistry.forall_insert (P := Filter.ReportsPoint) ?_ ?_ e he
    · rintro _ _ _ _ ⟨⟩
      rfl
    · intro e he block depth point d hd
      rw [FilterRegistry.fault_builtin e he] at hd
      cases hd
  obtain ⟨c, hc, horder⟩ := diagnostics_in_source_order t filters hf
  have hok := compileWith_of_ok (t := t) (o := ⟨true⟩)
    (Context.fault_runFrom_tolerant filters {} (Lexer.ofText t.source).next)
  rw [hc] at hok
  cases hok
  exact ⟨hf, _, hc, by decide +kernel, horder⟩

end Haml
