import Haml.Proofs.RowsAbreast

/-!
# Templates one after another

A template may be cut in two between lines, where the second part starts at the
outermost depth. Compiling the whole then does what compiling the first part does
and after it what compiling the second part does: nothing that is read in the first
part looks into the second, and what the first leaves open is closed by the first
line of the second as it is by its own end.
-/

namespace Haml

def Text.lastLine (t : Text) : Text :=
  let unended := match t.reverse with
    | '\n' :: '\r' :: u => u
    | c :: u => if isLineBreak c then u else c :: u
    | [] => []
  (unended.takeWhile fun c => !isLineBreak c).reverse

/-- A bar, blanks and a line end at the end of a text belong to its last line. -/
theorem not_endsBarred {t : Text} (h : Unbarred t.lastLine) : ¬EndsBarred t := by
  rintro ⟨u, b, e, rfl, hb, he⟩
  have hbar : isIndent '|' = false := rfl
  have hindent : ∀ c ∈ b.reverse, isIndent c = true := fun c hc => hb c (List.mem_reverse.1 hc)
  have hline : ∀ c ∈ b.reverse, (!isLineBreak c) = true := fun c hc => by
    simp [isLineBreak_eq_false (p := isIndent) rfl rfl (hindent c hc)]
  have hlast : (u ++ '|' :: (b ++ e)).lastLine =
      (b.reverse ++ '|' :: u.reverse.takeWhile fun c => !isLineBreak c).reverse := by
    have hreverse : (u ++ '|' :: (b ++ e)).reverse =
        e.reverse ++ (b.reverse ++ '|' :: u.reverse) := by simp
    have htake : ((b.reverse ++ '|' :: u.reverse).takeWhile fun c => !isLineBreak c) =
        b.reverse ++ '|' :: u.reverse.takeWhile fun c => !isLineBreak c := by
      rw [List.takeWhile_append_of_pos hline]
      simp [isLineBreak]
    have hcr : (b.reverse ++ '|' :: u.reverse).head? ≠ some '\r' := by
      cases hrev : b.reverse with
      | nil => simp
      | cons c v =>
        have hc := hindent c (by rw [hrev]; exact .head v)
        rw [List.cons_append, List.head?_cons]
        rintro ⟨rfl⟩
        cases hc
    have hends : e = ['\r', '\n'] ∨ e = ['\n'] ∨ e = ['\r'] := by
      unfold Pattern.lineEnd at he
      split at he <;> simp_all
    have hn : isLineBreak '\n' = true := rfl
    have hr : isLineBreak '\r' = true := rfl
    simp only [Text.lastLine, hreverse]
    rcases hends with rfl | rfl | rfl
    · simp only [List.reverse_cons, List.reverse_nil, List.nil_append, List.cons_append, htake]
    · cases hrest : b.reverse ++ '|' :: u.reverse with
      | nil => simp at hrest
      | cons c v =>
        rw [hrest] at htake hcr
        have hc : c ≠ '\r' := by simpa using hcr
        simp [hc, hn, htake]
    · simp [hr, htake]
  apply h
  rw [hlast, Text.dropEndWhile, List.reverse_reverse, List.dropWhile_append_of_pos hindent]
  simp [hbar]

/-- A text of whole lines, the last one not continued, is terminated by its last line
end, if what follows does not go on with that. -/
theorem terminated_of_lines {a b : Text} (hne : a ≠ [])
    (hends : a.getLast?.all isLineBreak = true) (hbar : Unbarred a.lastLine)
    (hb : b.head? ≠ some '\n') : Terminated a b := by
  refine ⟨?_, fun hs => hb hs.2, not_endsBarred hbar⟩
  have hlast := List.getLast?_eq_some_getLast hne
  rw [hlast] at hends
  exact ⟨a.getLast hne, hlast, hends⟩

theorem StartsVisibly.head?_ne {b : Text} (hb : StartsVisibly b) : b.head? ≠ some '\n' := by
  intro hn
  obtain ⟨u, rfl⟩ := List.head?_eq_some_iff.1 hn
  obtain ⟨m, hm, -⟩ := Lexeme.read?_lineBreak (c := '\n') rfl .line u
  have hk := (hb _ hm).2
  cases hk

namespace Lexer

theorem abreast_ofText {a b : Text} (h : a = [] ∨ Terminated a b) :
    Abreast b (ofText a) (ofText (a ++ b)) := by
  refine ⟨rfl, rfl, rfl, rfl, rfl, .inr ⟨by simp [kind, ofText], ?_⟩⟩
  rcases h with rfl | h
  · exact .inr ⟨rfl, rfl⟩
  · exact .inl h

theorem beside_ofText {a b : Text} (h : a = [] ∨ Terminated a b) :
    Beside b (ofText a).next (ofText (a ++ b)).next :=
  (abreast_ofText h).beside_next rfl

/-- The first row of a text that starts visibly stands at the outermost depth. -/
theorem rows_of_visible {b : Text} (hb : StartsVisibly b) {rows : List Row}
    (h : (ofText b).next.rows = .ok rows) :
    rows = [] ∨ ∃ u m rest, rows = .written 0 u m :: rest := by
  by_cases hne : b = []
  · subst hne
    rw [rows_of_eof rfl] at h
    cases h
    exact .inl rfl
  · obtain ⟨hs, he⟩ := visible_first hb hne
    right
    have hk := kind_ne_eof_of_not_endsLine he
    have hbreak := breaksLine_eq_false he
    have hp : (ofText b).next.passSpace = (ofText b).next := if_neg hs
    have hdepth : (ofText b).next.token.depth = 0 := if_neg hs
    rw [Lexer.rows, dif_neg hk] at h
    cases hrow : (ofText b).next.readRow.value with
    | error d =>
      rw [hrow] at h
      cases h
    | ok row =>
      rw [hrow] at h
      obtain ⟨rest, hrest⟩ := ok_of_map_ok h
      rw [hrest] at h
      cases h
      simp only [readRow, hp, hk, hbreak, hdepth, Bool.false_eq_true, if_false] at hrow
      obtain ⟨m, hm⟩ := ok_of_map_ok hrow
      rw [hm] at hrow
      cases hrow
      exact ⟨_, _, rest, rfl⟩

end Lexer

/-- What a first row at the outermost depth does on a stack: it closes what is open,
and then does what it does on an empty one. -/
theorem compileRows_after {filters : FilterRegistry} (hf : filters.Steady .unplaced)
    {rows : List Row} {o : List Event × ElementStack} (s : ElementStack) (v : Upcoming)
    (hrows : ∃ u m rest, rows = .written 0 u m :: rest)
    (h : compileRows filters {} rows = some o) :
    ∃ o', compileRows filters s rows = some o' ∧
      Event.operations o'.1 = Event.operations (s.close 0 v).1 ++ Event.operations o.1 ∧
      o.2.Like .unplaced o'.2 := by
  obtain ⟨u, m, rest, rfl⟩ := hrows
  obtain ⟨first, hfirst, h⟩ := Option.bind_eq_some_iff.1 h
  obtain ⟨more, hmore, rfl⟩ := Option.map_eq_some_iff.1 h
  obtain ⟨own, hown, rfl⟩ := Option.map_eq_some_iff.1 hfirst
  -- Either way nothing is left open before the row's own matter is compiled.
  obtain ⟨own', hown', hsame⟩ :=
    exists_of_rel ((Matter.Like.refl m).compile hf (s.same_close_zero u u).like 0) hown
  obtain ⟨more', hmore', hsame'⟩ :=
    exists_of_rel (like_compileRows hf hsame.stack (Row.forall₂_like_refl rest)) hmore
  have hempty : Event.operations (({} : ElementStack).close 0 u).1 = [] := rfl
  have hclose := ElementStack.operations_close (.refl s) 0 v u
  refine ⟨(.emit (.depth 0) :: ((s.close 0 u).1 ++ .emit (.depth 0) :: own'.1) ++ more'.1,
      more'.2), ?_, ?_, hsame'.stack⟩
  · simp only [compileRows, Row.compile, hown', hmore', Option.map_some, Option.bind_some]
  · simp only [Event.operations_depth, Event.operations_append, hempty, hclose,
      Event.operations_congr hsame.events, Event.operations_congr hsame'.events, List.nil_append,
      List.append_assoc]

namespace Template

/-- A strict compilation that succeeds is one of rows. -/
theorem rows_of_compile {t : Template} {filters : FilterRegistry} {c : Compilation}
    (h : t.compileWith ⟨false⟩ filters = .ok c) :
    ∃ rows o, (Lexer.ofText t.source).next.rows = .ok rows ∧
      compileRows filters {} rows = some o := by
  obtain ⟨events, stack, l, hsteps, hend⟩ :=
    Context.exists_steps ⟨false, filters⟩ {} (Lexer.ofText t.source).next
  by_cases hk : l.kind = .eof
  · obtain ⟨rows, hrows, hcompile⟩ := Context.rows_of_steps hsteps hk
    exact ⟨rows, _, hrows, hcompile⟩
  · obtain ⟨d, hd⟩ := Option.isSome_iff_exists.1 (hend.resolve_left hk)
    have hfault : (Context.runFrom ⟨false, filters⟩ {} (Lexer.ofText t.source).next).fault =
        some d := by
      rw [hsteps.runFrom_eq, Context.runFrom_of_fault hk hd]
      rfl
    rw [compileWith_of_fault (o := ⟨false⟩) hfault] at h
    cases h

/-- The operations of compiling rows: those of the rows, and those that close what is
open in the end. -/
theorem operations_of_rows {t : Template} {filters : FilterRegistry} {rows : List Row}
    {o : List Event × ElementStack} (h : (Lexer.ofText t.source).next.rows = .ok rows)
    (hc : compileRows filters {} rows = some o) (v : Upcoming) :
    (∃ c, t.compileWith ⟨false⟩ filters = .ok c) ∧
      (t.run ⟨false⟩ filters).operations =
        Event.operations o.1 ++ Event.operations (o.2.close 0 v).1 := by
  obtain ⟨u, -, hrun⟩ := compileWith_of_rows h hc
  obtain ⟨hinstructions, hok⟩ := hrun ⟨false⟩
  refine ⟨⟨_, hok⟩, ?_⟩
  have hclose := ElementStack.operations_close (.refl o.2) 0 v u
  rw [Run.operations, hinstructions, ← hclose, ← Event.operations_append, Event.operations]
  simp [Haml.operations, List.filterMap_cons, Instruction.operation?]

/-- Compiling a template that is cut in two between lines does what compiling its
first part and then its second part does. The first part is a text of whole lines,
the last of them not continued; the second starts neither with a blank line nor with
indentation. -/
theorem compile_parts (whole first second : Template)
    (hwhole : whole.source = first.source ++ second.source)
    (hends : first.source.getLast?.all isLineBreak = true)
    (hbar : Unbarred first.source.lastLine) (hvisible : StartsVisibly second.source)
    (hfirst : ∃ c, first.compile ⟨false⟩ = .ok c) (hsecond : ∃ c, second.compile ⟨false⟩ = .ok c) :
    (∃ c, whole.compile ⟨false⟩ = .ok c) ∧
      (whole.run ⟨false⟩ .builtin).operations =
        (first.run ⟨false⟩ .builtin).operations ++ (second.run ⟨false⟩ .builtin).operations := by
  have hf := FilterRegistry.steady_builtin .unplaced
  obtain ⟨c₁, hfirst⟩ := hfirst
  obtain ⟨c₂, hsecond⟩ := hsecond
  obtain ⟨rows₁, o₁, hrows₁, hcompile₁⟩ := rows_of_compile hfirst
  obtain ⟨rows₂, o₂, hrows₂, hcompile₂⟩ := rows_of_compile hsecond
  -- The second part has the same rows wherever it stands.
  have hshift : ∀ m, Lexer.Abreast [] (Lexer.ofText second.source).next m →
      ∃ rows, m.rows = .ok rows ∧ List.Forall₂ (Row.Like .unplaced) rows₂ rows := by
    intro m hm
    have hnothing : StartsVisibly [] := by decide
    have hend : ∀ k, Lexer.Abreast [] (Lexer.ofText []).next k →
        ∃ rows, k.rows = .ok rows ∧ List.Forall₂ (Row.Like .unplaced) [] rows :=
      fun k hk => ⟨[], Lexer.rows_of_eof hk.kind, .nil⟩
    obtain ⟨rows, hrows, hsame⟩ :=
      Lexer.Beside.rows hnothing (.inl hm) rfl hrows₂ hend fun _ => rfl
    exact ⟨rows, hrows, by simpa using hsame⟩
  have hterminated : first.source = [] ∨ Terminated first.source second.source := by
    by_cases hne : first.source = []
    · exact .inl hne
    · exact .inr (terminated_of_lines hne hends hbar hvisible.head?_ne)
  have hnil : second.source = [] → rows₂ = [] := by
    intro hnil
    rw [hnil, Lexer.rows_of_eof rfl] at hrows₂
    cases hrows₂
    rfl
  obtain ⟨rows, hrows, hsame⟩ := (Lexer.beside_ofText hterminated).rows hvisible rfl hrows₁
    hshift hnil
  rw [← hwhole] at hrows
  -- Compiled after the first part, the rows of the second close what that left open.
  have hafter : ∃ o, compileRows .builtin o₁.2 rows₂ = some o ∧
      Event.operations o.1 ++ Event.operations (o.2.close 0 .anything).1 =
        Event.operations (o₁.2.close 0 .anything).1 ++
          (Event.operations o₂.1 ++ Event.operations (o₂.2.close 0 .anything).1) := by
    rcases Lexer.rows_of_visible hvisible hrows₂ with rfl | hwritten
    · cases hcompile₂
      exact ⟨_, rfl, (List.append_nil _).symm⟩
    · obtain ⟨o, hcompile, hoperations, hstack⟩ :=
        compileRows_after hf o₁.2 .anything hwritten hcompile₂
      refine ⟨o, hcompile, ?_⟩
      rw [hoperations, ElementStack.operations_close hstack 0 .anything .anything,
        List.append_assoc]
  obtain ⟨o, hcompile, hoperations⟩ := hafter
  have hboth : compileRows .builtin {} (rows₁ ++ rows₂) = some (o₁.1 ++ o.1, o.2) := by
    rw [compileRows_append, hcompile₁, Option.bind_some, hcompile, Option.map_some]
  obtain ⟨o', hcompile', houtcome⟩ :=
    exists_of_rel (like_compileRows hf (.refl _) hsame) hboth
  obtain ⟨hok, hrun⟩ := operations_of_rows hrows hcompile' .anything
  refine ⟨hok, ?_⟩
  rw [hrun, (operations_of_rows hrows₁ hcompile₁ .anything).2,
    (operations_of_rows hrows₂ hcompile₂ .anything).2, Event.operations_congr houtcome.events,
    ElementStack.operations_close houtcome.stack 0 .anything .anything, Event.operations_append,
    List.append_assoc, List.append_assoc, hoperations]

/-- A block, a list over two lines and a blank line, and then the line that closes the
block. -/
theorem compile_block_and_closer :
    let first : Template :=
      ⟨"a", "- if (a) \x7b\r\n  %ul(b='c'\n    d=\"e\")\n    %li\x7bf: g\x7d= h\n\n"⟩
    let second : Template := ⟨"b", "- \x7d\n%p\x7bi: [j, 'k']\x7d l\n"⟩
    let whole : Template := ⟨"c", first.source ++ second.source⟩
    first.source.getLast?.all isLineBreak = true ∧ Unbarred first.source.lastLine ∧
      StartsVisibly second.source ∧ (∃ c, whole.compile ⟨false⟩ = .ok c) ∧
      (whole.run ⟨false⟩ .builtin).operations =
        (first.run ⟨false⟩ .builtin).operations ++ (second.run ⟨false⟩ .builtin).operations := by
  intro first second whole
  have hcompiles {r : Except Diagnostic Compilation} (h : r.isOk = true) : ∃ c, r = .ok c := by
    cases r with
    | error d => cases h
    | ok c => exact ⟨c, rfl⟩
  have hends : first.source.getLast?.all isLineBreak = true := by decide +kernel
  have hbar : Unbarred first.source.lastLine := by decide +kernel
  have hvisible : StartsVisibly second.source := by decide +kernel
  exact ⟨hends, hbar, hvisible, compile_parts whole first second rfl hends hbar hvisible
    (hcompiles (by decide +kernel)) (hcompiles (by decide +kernel))⟩

end Template

end Haml
