import Haml.Proofs.OutlineRun

/-!
# Templates that print outlines

A template that prints an outline is compiled to code that pushes the rendering
of the outline in one piece. Without faulty lines there is nothing to tolerate,
so this holds in strict mode as well.
-/

namespace Haml

open Script

instance : FaultyForm Empty where
  text x := x.elim
  message x := x.elim
  lineBody x := x.elim

namespace Outline

variable {φ : Type} [FaultyForm φ] {o : Outline φ} {source : Text}

/-- What comes of a whole template that prints an outline. -/
theorem Prints.compileWith {tolerant : Bool} {filters : FilterRegistry} (h : o.Prints 0 source)
    (hfilled : o.isFilled = true)
    (hφ : ∀ x : φ, Context.Refuses ⟨tolerant, filters⟩ (FaultyForm.text x) (FaultyForm.message x))
    (name : Text) :
    ∃ diagnostics, Template.compileWith ⟨name, source⟩ ⟨tolerant⟩ filters =
        .ok ⟨preamble tolerant ++ literalCode (o.render 0) ++ epilogue, diagnostics⟩ ∧
      diagnostics.map (fun d => (d.fault.message, d.point.line)) = o.faults 1 := by
  have hempty : ∀ i, ({} : ElementStack).get? i = none := fun i => rfl
  have hframed : ({} : ElementStack).Framed := by
    intro i e hi
    rw [hempty] at hi
    cases hi
  have hl : (Lexer.ofText source).next.Reads .line 1 (source ++ []) := by
    rw [List.append_nil]
    exact Lexer.next_reads (Lexer.ofText source)
  obtain ⟨events, stack, l, hsteps, hend, hout⟩ := h.run hφ hfilled (.inl rfl) hframed hl
  obtain ⟨written, hwrites, htext⟩ := hout.writes
  rw [ElementStack.closers_eq_nil fun i _ => hempty i, List.nil_append] at htext
  have hrun : Context.runFrom ⟨tolerant, filters⟩ {} (Lexer.ofText source).next =
      { events := events ++ (stack.close 0 l.upcoming).1 } := by
    rw [hsteps.runFrom_eq, Context.runFrom_of_eof hend.kind_eof]
    rfl
  have hall := hwrites.append (ElementStack.writes_close hout.framed 0 l.upcoming)
  rw [htext, ← List.filterMap_append] at hall
  have hfault : (Context.runFrom ⟨tolerant, filters⟩ {} (Lexer.ofText source).next).fault =
      none := by
    rw [hrun]
  have hok := Template.compileWith_of_ok (t := ⟨name, source⟩) (o := ⟨tolerant⟩) hfault
  rw [hrun] at hok
  have hcode : body (.start tolerant :: Run.instructions
      { events := events ++ (stack.close 0 l.upcoming).1 } ++ [.finish]) =
      preamble tolerant ++ literalCode (o.render 0) ++ epilogue :=
    body_of_writes hall tolerant
  rw [hcode] at hok
  refine ⟨_, hok, ?_⟩
  rw [Run.diagnostics, List.filterMap_append, ElementStack.filterMap_diagnostic?_close,
    List.append_nil]
  exact hout.notes_eq

theorem faults_eq_nil (o : Outline Empty) (n : Nat) : o.faults n = [] := by
  induction o generalizing n with
  | nil => rfl
  | text t next ih => exact ih (n + 1)
  | element c children next ih ih' =>
    rw [faults, ih, ih']
    rfl
  | faulty x => exact x.elim

/-- A template that prints an outline is compiled to the rendering of the outline. -/
theorem compileWith_of_prints {o : Outline Empty} {source : Text} (h : o.Prints 0 source)
    (hfilled : o.isFilled = true) (name : Text) (filters : FilterRegistry) :
    Template.compileWith ⟨name, source⟩ ⟨false⟩ filters =
      .ok ⟨preamble false ++ literalCode (o.render 0) ++ epilogue, []⟩ := by
  obtain ⟨diagnostics, hok, hnotes⟩ := h.compileWith hfilled (fun x => x.elim) name
  rw [faults_eq_nil, List.map_eq_nil_iff] at hnotes
  rw [hok, hnotes]

/-- A list of one item and a conditional comment, and a comment after it. -/
def bookmarks : Outline Empty :=
  .element (.tag ⟨'u', ['l'], rfl, by decide⟩)
    (.element (.tag ⟨'l', ['i'], rfl, by decide⟩)
      (.text ⟨"a|b ", by decide, by decide, by decide, by decide⟩ .nil)
      (.element (.conditional ⟨"if IE", by decide⟩)
        (.element (.tag ⟨'b', ['r'], rfl, by decide⟩) .nil .nil) .nil))
    (.element .comment (.text ⟨"x", by decide, by decide, by decide, by decide⟩ .nil) .nil)

def bookmarksSource : Text := "%ul\n\t%li\n   \\a|b \n  /[if IE]\n\t\t%br\n/\n \\x\n"

theorem compile_bookmarks :
    bookmarks.Prints 0 bookmarksSource ∧ bookmarks.isFilled = true ∧
    Template.compile ⟨"bookmarks", bookmarksSource⟩ ⟨false⟩ =
      .ok ⟨preamble false ++
        literalCode ("<ul>\n  <li>\n    a|b \n  </li>\n  <!--[if IE]>\n    <br/>\n".toList ++
          "  <![endif]-->\n</ul>\n<!--\n  x\n-->\n".toList) ++ epilogue, []⟩ := by
  have hprints : bookmarks.Prints 0 bookmarksSource :=
    .element (w := []) (by decide)
      (.element (w := ['\t']) (by decide)
        (.text (w := [' ', ' ', ' ']) (by decide) (.nil 2))
        (.element (w := [' ', ' ']) (by decide)
          (.element (w := ['\t', '\t']) (by decide) (.nil 3) (.nil 2)) (.nil 1)))
      (.element (w := []) (by decide) (.text (w := [' ']) (by decide) (.nil 1)) (.nil 0))
  have hrender : bookmarks.render 0 =
      "<ul>\n  <li>\n    a|b \n  </li>\n  <!--[if IE]>\n    <br/>\n".toList ++
        "  <![endif]-->\n</ul>\n<!--\n  x\n-->\n".toList := by
    decide
  have h := compileWith_of_prints hprints rfl "bookmarks" .builtin
  rw [hrender] at h
  exact ⟨hprints, rfl, h⟩

end Outline

end Haml
