import Haml.Proofs.BlockEntries

/-!
# What is taken off the lines of a block

The depth of a line counts columns, and a tab is two of them; what a block takes off its
lines counts characters. The two agree for spaces. A line with many tabs is shorter than it is
wide, and characters behind its indentation are taken off with it. The filter that preserves
its block takes two more characters off each line, and so reaches behind the indentation of
every line that is only one column deeper.
-/

namespace Haml

namespace Text

/-- The characters of a text that are neither spaces nor tabs. -/
def visible (t : Text) : Text := t.filter fun c => !isIndent c

theorem visible_append (s t : Text) : visible (s ++ t) = visible s ++ visible t :=
  List.filter_append s t

theorem visible_of_all {w : Text} (h : w.all isIndent = true) : visible w = [] := by
  simpa [visible] using h

/-- A tab is a column more than a character. -/
theorem indentWidth_eq (w : Text) : indentWidth w = w.length + w.count '\t' := by
  induction w with
  | nil => rfl
  | cons c w ih =>
    rw [indentWidth, ih, List.length_cons, List.count_cons]
    by_cases hc : c = '\t'
    · simp [hc]
      omega
    · simp [hc]
      omega

variable {w u : Text} {c : Char}

/-- Characters that are dropped at the start of a line are lost if they are more than its
indentation. -/
theorem visible_drop_iff (hw : w.all isIndent = true) (hc : isIndent c = false) (n : Nat) :
    visible ((w ++ c :: u).drop n) = visible (w ++ c :: u) ↔ n ≤ w.length := by
  have hall : visible (w ++ c :: u) = c :: visible u := by
    rw [visible_append, visible_of_all hw]
    simp [visible, hc]
  constructor
  · intro h
    by_contra hn
    obtain ⟨k, rfl⟩ : ∃ k, n = w.length + (k + 1) := ⟨n - w.length - 1, by omega⟩
    rw [List.drop_length_add_append, List.drop_succ_cons, hall] at h
    have hle := ((List.drop_sublist k u).filter fun c => !isIndent c).length_le
    have hlength := congrArg List.length h
    rw [List.length_cons] at hlength
    simp only [visible] at hlength
    omega
  · intro hn
    have hdrop : (w.drop n).all isIndent = true :=
      List.all_eq_true.2 fun a ha => List.all_eq_true.1 hw a (List.mem_of_mem_drop ha)
    rw [List.drop_append_of_le_length hn, visible_append, visible_of_all hdrop, hall]
    simp [visible, hc]

end Text

namespace LogicalLine

variable {x : LogicalLine}

/-- Behind the indentation of a line that is no gap stands something. -/
theorem exists_visible (h : x.gap = false) :
    ∃ c u, x.text = x.first.indentation ++ c :: u ∧ isIndent c = false := by
  obtain ⟨s, more⟩ := x
  obtain ⟨hblank, hbare⟩ : s.blank = false ∧ s.bare = false := Bool.or_eq_false_iff.1 h
  cases hc : s.continued with
  | false =>
    have htext : text ⟨s, more⟩ = s.indentation ++ s.body := by
      rw [text, if_neg (by simp [hc]), ← s.text_eq]
    cases hb : s.body with
    | nil =>
      rw [SourceLine.blank, s.text_eq, hb, List.append_nil, s.all_indentation] at hblank
      cases hblank
    | cons c u => exact ⟨c, u, by rw [htext, hb], s.isIndent_head_body (by rw [hb]; rfl)⟩
  | true =>
    obtain ⟨hbody, hbefore⟩ := s.beforeBar_body hc
    obtain ⟨-, b, hbar, -⟩ := SourceLine.exists_blanks hbody
    have htext : text ⟨s, more⟩ = s.indentation ++ SourceLine.beforeBar ⟨s.body, s.ending⟩ ++
        more.flatMap SourceLine.beforeBar := by
      rw [text, if_pos hc, lines, List.flatMap_cons, hbefore]
    cases hb : SourceLine.beforeBar ⟨s.body, s.ending⟩ with
    | nil =>
      rw [SourceLine.bare, hc, hbefore, hb, List.append_nil, s.all_indentation] at hbare
      cases hbare
    | cons c u =>
      rw [hb] at htext hbar
      refine ⟨c, u ++ more.flatMap SourceLine.beforeBar, by simp [htext], ?_⟩
      exact s.isIndent_head_body (by rw [show s.body = _ from hbar]; rfl)

/-- The depth of a block is taken off by characters, and reaches behind an indentation that is
shorter. -/
theorem entry_eq (h : x.gap = false) (depth : Nat) :
    x.entry depth = x.first.indentation.drop (2 * depth) ++
      (x.text.drop x.first.indentation.length).drop
        (2 * depth + x.first.indentation.count '\t' - indentWidth x.first.indentation) := by
  obtain ⟨c, u, htext, -⟩ := exists_visible h
  have hwidth := Text.indentWidth_eq x.first.indentation
  have hentry : x.entry depth = x.text.drop (2 * depth) := if_neg (by simp [h])
  rw [hentry, htext, List.drop_append, List.drop_left]
  congr 2
  omega

/-- What a block takes off a line is all indentation exactly if the line has as many columns
to spare as it has tabs. -/
theorem visible_drop_text (h : x.gap = false) (n : Nat) :
    Text.visible (x.text.drop n) = Text.visible x.text ↔
      n + x.first.indentation.count '\t' ≤ indentWidth x.first.indentation := by
  obtain ⟨c, u, htext, hc⟩ := exists_visible h
  have hwidth := Text.indentWidth_eq x.first.indentation
  rw [htext, Text.visible_drop_iff x.first.all_indentation hc]
  omega

end LogicalLine

namespace Context

variable {stack : ElementStack} {l : Lexer} {events : List Event}

/-- What a filter is given of a line of its block, and what the filter that preserves its
block keeps of that. The line is more than twice as many columns wide in front as the block is
deep. Twice the depth of the block is dropped in characters, and two characters more to
preserve it; as many of them are lost from behind the indentation as its width, less its tabs,
falls short of them. So nothing is lost exactly if that many columns are to spare. A block at
depth zero or one loses nothing, and neither does a line with at most one tab; to preserve the
block, that does not hold. -/
theorem indentation_taken_off_by_characters (ctx : Context) (source : Text)
    (h : ctx.Steps {} (Lexer.ofText source).next events stack l)
    (hk : l.passSpace.kind = .filter) :
    let depth := l.token.depth
    let block := l.passSpace.takeBlock depth
    ∃ above lines line run below, source.sourceLines = above ++ lines ∧
      l.Begins (above.flatMap SourceLine.whole) (lines.flatMap SourceLine.whole) ∧
      logicalLines lines = line :: (run ++ below) ∧
      LongestBlock LogicalLine.gap (depth < ·.depth) (run ++ below) run ∧
      block.1 = run.map (·.entry depth) ∧
      (∀ point, (Filter.preserve block.1 depth point).instructions =
        [.text (Text.indentation depth) false point .verbatim,
          .text (Text.join (Html.lineFeed ++ " ") (run.map fun x => (x.entry depth).drop 2) ++ "\n")
            true point .verbatim]) ∧
      ∀ x ∈ run, x.gap = false →
        let w := x.first.indentation
        let tabs := w.count '\t'
        2 * depth < indentWidth w ∧
        x.entry depth = w.drop (2 * depth) ++
          (x.text.drop w.length).drop (2 * depth + tabs - indentWidth w) ∧
        (Text.visible (x.entry depth) = Text.visible x.text ↔
          2 * depth + tabs ≤ indentWidth w) ∧
        (Text.visible ((x.entry depth).drop 2) = Text.visible x.text ↔
          2 * depth + 2 + tabs ≤ indentWidth w) ∧
        (depth ≤ 1 ∨ tabs ≤ 1 → Text.visible (x.entry depth) = Text.visible x.text) := by
  intro depth block
  obtain ⟨above, lines, line, run, below, hsource, hbegins, hcut, -, hblock, hentries, -⟩ :=
    h.takeBlock (.inl hk)
  refine ⟨above, lines, line, run, below, hsource, hbegins, hcut, hblock, hentries, ?_, ?_⟩
  · intro point
    rw [hentries, Filter.preserve, List.map_map]
    rfl
  · intro x hx hgap w tabs
    have hdeeper : depth < indentDepth w := of_decide_eq_true (hblock.deeper x hx hgap)
    have hwide : 2 * depth < indentWidth w := by
      rw [indentDepth] at hdeeper
      omega
    have hentry : x.entry depth = x.text.drop (2 * depth) := if_neg (by simp [hgap])
    have hkept : Text.visible (x.entry depth) = Text.visible x.text ↔
        2 * depth + tabs ≤ indentWidth w := by
      rw [hentry]
      exact LogicalLine.visible_drop_text hgap _
    refine ⟨hwide, LogicalLine.entry_eq hgap depth, hkept, ?_, ?_⟩
    · rw [hentry, List.drop_drop]
      exact LogicalLine.visible_drop_text hgap _
    · intro hsmall
      have hwidth := Text.indentWidth_eq w
      have htabs : tabs ≤ w.length := List.count_le_length
      exact hkept.2 (by omega)

/-- At depth two, a line that is indented by three tabs, one that is indented by spaces, and
one with both. -/
theorem indentation_taken_off_by_characters_at_depth_two :
    let source : Text := "%a\n  %b\n    :plain\n\t\t\tx y\n      z\n \t\t\tw\n"
    let ctx : Context := ⟨false, .builtin⟩
    let first := ctx.step {} (Lexer.ofText source).next
    let second := ctx.step first.stack first.lexer
    let l := second.lexer
    let block := l.passSpace.takeBlock 2
    ctx.Steps {} (Lexer.ofText source).next (first.events ++ second.events) second.stack l ∧
      l.passSpace.kind = .filter ∧
      block.1 = [" y".toList, "  z".toList, "w".toList] ∧
      ∃ above lines line run below, source.sourceLines = above ++ lines ∧
        logicalLines lines = line :: (run ++ below) ∧
        LongestBlock LogicalLine.gap (2 < ·.depth) (run ++ below) run ∧
        block.1 = run.map (·.entry 2) ∧
        ∀ x ∈ run, x.gap = false →
          (Text.visible (x.entry 2) = Text.visible x.text ↔
            4 + x.first.indentation.count '\t' ≤ indentWidth x.first.indentation) := by
  intro source ctx first second l block
  have hstep : ctx.Steps {} (Lexer.ofText source).next (first.events ++ second.events)
      second.stack l :=
    (Steps.single (by decide +kernel) (by decide +kernel)).trans
      (.single (by decide +kernel) (by decide +kernel))
  have hk : l.passSpace.kind = .filter := by decide +kernel
  have hdepth : l.token.depth = 2 := by decide +kernel
  refine ⟨hstep, hk, by decide +kernel, ?_⟩
  obtain ⟨above, lines, line, run, below, hsource, -, hcut, hblock, hentries, -, hlines⟩ :=
    indentation_taken_off_by_characters ctx source hstep hk
  rw [hdepth] at hblock hentries hlines
  exact ⟨above, lines, line, run, below, hsource, hcut, hblock, hentries,
    fun x hx hgap => (hlines x hx hgap).2.2.1⟩

/-- A line that three tabs indent is given to a filter at depth two without its text, and a
line that one space indents is preserved without its text. -/
theorem text_taken_off_with_indentation :
    let source : Text := "%a\n  %b\n    :plain\n\t\t\tx\n:preserve\n y\n"
    let ctx : Context := ⟨false, .builtin⟩
    let first := ctx.step {} (Lexer.ofText source).next
    let second := ctx.step first.stack first.lexer
    let third := ctx.step second.stack second.lexer
    let l := second.lexer
    let l' := third.lexer
    (l.passSpace.kind = .filter ∧ l.token.depth = 2 ∧
      SourceLine.depth ⟨"\t\t\tx", "\n"⟩ = 3 ∧ (l.passSpace.takeBlock 2).1 = [[]]) ∧
    l'.passSpace.kind = .filter ∧ l'.token.depth = 0 ∧
      SourceLine.depth ⟨" y", "\n"⟩ = 1 ∧ (l'.passSpace.takeBlock 0).1 = [" y".toList] ∧
      (Filter.preserve [" y".toList] 0 l'.passSpace.point).instructions.getLast? =
        some (.text ['\n'] true l'.passSpace.point .verbatim) := by
  decide +kernel

end Context

end Haml
