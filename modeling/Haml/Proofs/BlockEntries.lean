import Haml.Filter.Builtin
import Haml.Proofs.BlockReading

/-!
# Entries of blocks

What a filter is given of the lines of its block. Where no line is continued, that is one
entry for each line of the longest run of deeper lines below, blank ones between them
included. Where lines are continued, each logical line gives an entry. The indentation of the
block is taken off an entry by characters, though the depth counts a tab as two columns.
-/

namespace Haml

section Renaming

variable {α β : Type} {f : α → β} {isGap isDeeper : α → Bool} {isGap' isDeeper' : β → Bool}
  {run below : List α}

theorem IsBlock.map_iff (hg : ∀ s ∈ run, isGap' (f s) = isGap s)
    (hd : ∀ s ∈ run, isDeeper' (f s) = isDeeper s) :
    IsBlock isGap' isDeeper' (run.map f) ↔ IsBlock isGap isDeeper run := by
  constructor
  · intro h
    refine ⟨fun s hs hgap => ?_, fun s hs => ?_⟩
    · rw [← hd s hs]
      exact h.deeper (f s) (List.mem_map_of_mem hs) ((hg s hs).trans hgap)
    · rw [← hg s (List.mem_of_getLast? hs)]
      exact h.closed (f s) (by rw [List.getLast?_map, hs]; rfl)
  · intro h
    refine ⟨fun t ht hgap => ?_, fun t ht => ?_⟩
    · obtain ⟨s, hs, rfl⟩ := List.mem_map.1 ht
      rw [hd s hs]
      exact h.deeper s hs ((hg s hs).symm.trans hgap)
    · rw [List.getLast?_map] at ht
      obtain ⟨s, hs, rfl⟩ := Option.map_eq_some_iff.1 ht
      rw [hg s (List.mem_of_getLast? hs)]
      exact h.closed s hs

/-- The block that some lines start with is the same where the lines stand for others. -/
theorem LongestBlock.of_map (h : LongestBlock isGap' isDeeper' ((run ++ below).map f) (run.map f))
    (hg : ∀ s ∈ run ++ below, isGap' (f s) = isGap s)
    (hd : ∀ s ∈ run ++ below, isDeeper' (f s) = isDeeper s) :
    LongestBlock isGap isDeeper (run ++ below) run := by
  have hiff {other : List α} (hother : other <+: run ++ below) :
      IsBlock isGap' isDeeper' (other.map f) ↔ IsBlock isGap isDeeper other :=
    IsBlock.map_iff (fun s hs => hg s (hother.subset hs)) fun s hs => hd s (hother.subset hs)
  have hrun : run <+: run ++ below := List.prefix_append run below
  refine ⟨(hiff hrun).1 h.toIsBlock, hrun, fun other hother hblock => ?_⟩
  have hle := (h.longest _ (hother.map f) ((hiff hother).2 hblock)).length_le
  rw [List.length_map, List.length_map] at hle
  exact List.prefix_of_prefix_length_le hother hrun hle

end Renaming

theorem eq_map_single {run : List LogicalLine} (h : ∀ x ∈ run, x = .single x.first) :
    run = (run.flatMap LogicalLine.lines).map .single := by
  induction run with
  | nil => rfl
  | cons x run ih =>
    have hrun := ih fun y hy => h y (List.mem_cons_of_mem x hy)
    rw [List.flatMap_cons, List.map_append, ← hrun, h x (by simp)]
    rfl

theorem flatMap_whole_single (lines : List SourceLine) :
    (lines.map LogicalLine.single).flatMap LogicalLine.whole = lines.flatMap SourceLine.whole := by
  rw [List.flatMap_map]
  simp [LogicalLine.single, LogicalLine.whole, LogicalLine.lines]

namespace SourceLine

def entry (depth : Nat) (s : SourceLine) : Text := if s.blank then [] else s.text.drop (2 * depth)

variable {s : SourceLine}

theorem continued_of_unbarred (h : Unbarred s.text) : s.continued = false := by
  have hlast : (Text.dropEndWhile isIndent s.text).getLast? ≠ some '|' := h
  simp [continued, hlast]

theorem gap_of_not_continued (h : s.continued = false) : s.gap = s.blank := by
  simp [gap, bare, h]

theorem entry_single (h : s.continued = false) (depth : Nat) :
    (LogicalLine.single s).entry depth = s.entry depth := by
  have htext : (LogicalLine.single s).text = s.text := if_neg (by simp [LogicalLine.single, h])
  rw [LogicalLine.entry, LogicalLine.gap, htext]
  simp only [LogicalLine.single, gap_of_not_continued h, entry]

end SourceLine

namespace Context

variable {ctx : Context} {stack : ElementStack} {l : Lexer} {events : List Event}

/-- Where no line ends in a bar, a filter line or a silent comment takes exactly its block:
the longest run of lines below that are deeper or blank and of which the last is not blank.
Each of them gives an entry, empty for a blank line, and the lexer is left on the first token
of the line behind the block. -/
theorem block_is_longest_deeper_run (ctx : Context) (source : Text)
    (h : ctx.Steps {} (Lexer.ofText source).next events stack l)
    (hk : l.passSpace.kind = .filter ∨ l.passSpace.kind = .silentComment)
    (hbar : ∀ s ∈ source.sourceLines, Unbarred s.text) :
    let depth := l.token.depth
    let block := l.passSpace.takeBlock depth
    ∃ above line run below, source.sourceLines = above ++ line :: (run ++ below) ∧
      l.Begins (above.flatMap SourceLine.whole)
        ((line :: (run ++ below)).flatMap SourceLine.whole) ∧
      line.depth = depth ∧
      LongestBlock SourceLine.blank (depth < ·.depth) (run ++ below) run ∧
      block.1 = run.map (·.entry depth) ∧
      block.2.Begins ((above ++ line :: run).flatMap SourceLine.whole)
        (below.flatMap SourceLine.whole) := by
  intro depth block
  obtain ⟨above, lines, line, run, below, hsource, hbegins, hcut, hdepth, hblock, htexts,
    hlexer⟩ := h.takeBlock hk
  have hnone : ∀ s ∈ lines, s.continued = false := fun s hs =>
    SourceLine.continued_of_unbarred (hbar s (by rw [hsource]; exact List.mem_append_right _ hs))
  rw [logicalLines_of_not_continued hnone] at hcut
  obtain ⟨line, rest, rfl, rfl, hrest⟩ := List.map_eq_cons_iff.1 hcut
  obtain ⟨run, below, rfl, rfl, rfl⟩ := List.map_eq_append_iff.1 hrest
  have hmem : ∀ s ∈ run ++ below, s.continued = false := fun s hs =>
    hnone s (List.mem_cons_of_mem line hs)
  refine ⟨above, line, run, below, hsource, hbegins, hdepth, ?_, ?_, ?_⟩
  · rw [← List.map_append] at hblock
    refine hblock.of_map ?_ fun s hs => rfl
    exact fun s hs => SourceLine.gap_of_not_continued (hmem s hs)
  · rw [htexts, List.map_map]
    exact List.map_congr_left fun s hs =>
      SourceLine.entry_single (hmem s (List.mem_append_left _ hs)) depth
  · rw [← List.map_cons, flatMap_whole_single, flatMap_whole_single,
      ← List.flatMap_append] at hlexer
    exact hlexer

/-- Two lines of a filter with blank lines of two kinds between them, indented by tabs and by
spaces and ended in three ways; the blank line below is left where it is. -/
theorem block_is_longest_deeper_run_between_tags :
    let source : Text := "%ul\r\n  :plain\n\t\ta\r\n \t \r\n\r\n      b\r  \n%p\n"
    let ctx : Context := ⟨false, .builtin⟩
    let first := ctx.step {} (Lexer.ofText source).next
    let l := first.lexer
    let block := l.passSpace.takeBlock 1
    ctx.Steps {} (Lexer.ofText source).next first.events first.stack l ∧
      l.passSpace.kind = .filter ∧ (∀ s ∈ source.sourceLines, Unbarred s.text) ∧
      block.1 = ["a".toList, [], [], "    b".toList] ∧ block.2.rest = "\n%p\n".toList ∧
      ∃ above line run below, source.sourceLines = above ++ line :: (run ++ below) ∧
        LongestBlock SourceLine.blank (1 < ·.depth) (run ++ below) run ∧
        block.1 = run.map (·.entry 1) ∧
        block.2.Begins ((above ++ line :: run).flatMap SourceLine.whole)
          (below.flatMap SourceLine.whole) := by
  intro source ctx first l block
  have hstep : ctx.Steps {} (Lexer.ofText source).next first.events first.stack l :=
    .single (by decide +kernel) (by decide +kernel)
  have hk : l.passSpace.kind = .filter := by decide +kernel
  have hbar : ∀ s ∈ source.sourceLines, Unbarred s.text := by decide +kernel
  have hdepth : l.token.depth = 1 := by decide +kernel
  refine ⟨hstep, hk, hbar, by decide +kernel, by decide +kernel, ?_⟩
  obtain ⟨above, line, run, below, hsource, -, -, hblock, hentries, hlexer⟩ :=
    block_is_longest_deeper_run ctx source hstep (.inl hk) hbar
  rw [hdepth] at hblock hentries hlexer
  exact ⟨above, line, run, below, hsource, hblock, hentries, hlexer⟩

/-- A filter is given the logical lines of its block. The block is the longest run of logical
lines below the filter line that are deeper or gaps and of which the last is no gap; each of
them is one entry, which is empty for a gap and otherwise the text of the lines without the
bars, blanks and line ends that continue them. If none of the lines is continued, each line is
an entry and is given as it stands, without the indentation of the block. -/
theorem filter_receives_logical_lines (ctx : Context) (source : Text)
    (h : ctx.Steps {} (Lexer.ofText source).next events stack l)
    (hk : l.passSpace.kind = .filter) :
    let depth := l.token.depth
    let block := l.passSpace.takeBlock depth
    ∃ above lines line run below, source.sourceLines = above ++ lines ∧
      l.Begins (above.flatMap SourceLine.whole) (lines.flatMap SourceLine.whole) ∧
      logicalLines lines = line :: (run ++ below) ∧
      LongestBlock LogicalLine.gap (depth < ·.depth) (run ++ below) run ∧
      block.1 = run.map (·.entry depth) ∧
      ((∀ s ∈ run.flatMap LogicalLine.lines, s.continued = false) →
        block.1 = (run.flatMap LogicalLine.lines).map (·.entry depth)) := by
  intro depth block
  obtain ⟨above, lines, line, run, below, hsource, hbegins, hcut, -, hblock, hentries, -⟩ :=
    h.takeBlock (.inl hk)
  refine ⟨above, lines, line, run, below, hsource, hbegins, hcut, hblock, hentries, ?_⟩
  intro hnone
  have hsingle : run = (run.flatMap LogicalLine.lines).map .single := by
    refine eq_map_single fun x hx => ?_
    have hmem : x ∈ logicalLines lines := by
      rw [hcut]
      exact List.mem_cons_of_mem line (List.mem_append_left below hx)
    refine eq_single_of_mem_logicalLines hmem (hnone x.first ?_)
    exact List.mem_flatMap.2 ⟨x, hx, by simp [LogicalLine.lines]⟩
  rw [hentries]
  conv_lhs => rw [hsingle, List.map_map]
  exact List.map_congr_left fun s hs => SourceLine.entry_single (hnone s hs) depth

/-- A script whose first two lines end in an operator that is a bar: they are joined, and the
operators are lost. -/
theorem filter_receives_logical_lines_of_script :
    let source : Text := ":javascript\n  var flags = read |\n    write |\n    execute;\n"
    let ctx : Context := ⟨false, .builtin⟩
    let l := (Lexer.ofText source).next
    let block := l.passSpace.takeBlock 0
    ctx.Steps {} (Lexer.ofText source).next [] {} l ∧ l.passSpace.kind = .filter ∧
      block.1 = ["  var flags = read     write ".toList, "    execute;".toList] ∧
      ∃ above lines line run below, source.sourceLines = above ++ lines ∧
        logicalLines lines = line :: (run ++ below) ∧
        LongestBlock LogicalLine.gap (0 < ·.depth) (run ++ below) run ∧
        block.1 = run.map (·.entry 0) := by
  intro source ctx l block
  have hstep : ctx.Steps {} (Lexer.ofText source).next [] {} l := .refl _ _
  have hk : l.passSpace.kind = .filter := by decide +kernel
  have hdepth : l.token.depth = 0 := by decide +kernel
  refine ⟨hstep, hk, by decide +kernel, ?_⟩
  obtain ⟨above, lines, line, run, below, hsource, -, hcut, hblock, hentries, -⟩ :=
    filter_receives_logical_lines ctx source hstep hk
  rw [hdepth] at hblock hentries
  exact ⟨above, lines, line, run, below, hsource, hcut, hblock, hentries⟩

/-- Of three deeper lines, none of them blank, a filter is given two entries, and the first is
none of the lines. -/
theorem script_lines_joined :
    let source : Text := ":javascript\n  var flags = read |\n    write |\n    execute;\n"
    let l := (Lexer.ofText source).next
    let written := ["  var flags = read |".toList, "    write |".toList, "    execute;".toList]
    l.passSpace.kind = .filter ∧ l.token.depth = 0 ∧
      source.sourceLines.map SourceLine.text = ":javascript".toList :: (written ++ [[]]) ∧
      (∀ s ∈ source.sourceLines, s.text ∈ written → 0 < s.depth ∧ s.blank = false) ∧
      (l.passSpace.takeBlock 0).1.filter (fun e => !e.isEmpty) ≠ written := by
  decide +kernel

end Context

end Haml
