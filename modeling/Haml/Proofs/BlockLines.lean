import Haml.Proofs.LogicalLines

/-!
# Lines and blocks

A line is a gap if there is nothing on it but blanks and perhaps the bar that continues it.
A line that is continued and is no gap makes one logical line with the continued lines below
it. A block is a run of lines that are deeper or gaps and of which the last is no gap; what
some lines start with is the longest such run.
-/

namespace Haml

namespace SourceLine

def behind (m : Text) (s : SourceLine) : SourceLine := { s with text := m ++ s.text }

def indentation (s : SourceLine) : Text := s.text.takeWhile isIndent

def body (s : SourceLine) : Text := s.text.dropWhile isIndent

def depth (s : SourceLine) : Nat := indentDepth s.indentation

def blank (s : SourceLine) : Bool := s.text.all isIndent

/-- Whether nothing but the bar that continues the line stands on it. -/
def bare (s : SourceLine) : Bool := s.continued && s.beforeBar.all isIndent

def gap (s : SourceLine) : Bool := s.blank || s.bare

/-- Whether a line below it belongs to the same logical line. -/
def joins (s below : SourceLine) : Bool := s.continued && !s.gap && below.continued

variable {s : SourceLine} {m : Text}

theorem continued_behind (h : Unbarred m) (s : SourceLine) :
    (s.behind m).continued = s.continued := by
  simp only [continued, behind, Text.dropEndWhile_append]
  split
  · rename_i hnil
    rw [hnil]
    have hm : (Text.dropEndWhile isIndent m).getLast? ≠ some '|' := h
    simp [hm]
  · rename_i hne
    rw [List.getLast?_append_of_ne_nil _ hne]

theorem beforeBar_behind (h : s.continued = true) : (s.behind m).beforeBar = m ++ s.beforeBar := by
  have hne : Text.dropEndWhile isIndent s.text ≠ [] := by
    intro hnil
    simp [continued, hnil] at h
  simp only [beforeBar, behind, Text.dropEndWhile_append, if_neg hne]
  exact List.dropLast_append_of_ne_nil hne

theorem unbarred_of_all_isIndent (h : m.all isIndent = true) : Unbarred m := by
  refine unbarred_of_not_mem fun hm => ?_
  have hbar := List.all_eq_true.1 h _ hm
  cases hbar

theorem all_indentation (s : SourceLine) : s.indentation.all isIndent = true :=
  List.all_eq_true.2 fun _ hc => List.mem_takeWhile_imp hc

theorem text_eq (s : SourceLine) : s.text = s.indentation ++ s.body :=
  List.takeWhile_append_dropWhile.symm

theorem isIndent_head_body (s : SourceLine) {c : Char} (h : s.body.head? = some c) :
    isIndent c = false := by
  have hhead := List.head?_dropWhile_not isIndent s.text
  rw [show s.text.dropWhile isIndent = s.body from rfl, h] at hhead
  simpa using hhead

/-- Blanks before a line do not make it visible. -/
theorem gap_behind (h : m.all isIndent = true) (s : SourceLine) : (s.behind m).gap = s.gap := by
  have hblank : (s.behind m).blank = s.blank := by simp [blank, behind, h]
  have hbare : (s.behind m).bare = s.bare := by
    rw [bare, continued_behind (unbarred_of_all_isIndent h), bare]
    cases hc : s.continued with
    | false => rfl
    | true => rw [beforeBar_behind hc, List.all_append, h, Bool.true_and]
  rw [gap, hblank, hbare, gap]

theorem gap_body (s : SourceLine) : gap ⟨s.body, s.ending⟩ = s.gap := by
  rw [← gap_behind s.all_indentation, behind, ← s.text_eq]

theorem continued_body (s : SourceLine) : continued ⟨s.body, s.ending⟩ = s.continued := by
  have hbar := unbarred_of_all_isIndent s.all_indentation
  rw [← continued_behind hbar, behind, ← s.text_eq]

theorem joins_body (s : SourceLine) : joins ⟨s.body, s.ending⟩ = s.joins := by
  funext t
  rw [joins, gap_body, continued_body, joins]

theorem beforeBar_body (s : SourceLine) (h : s.continued = true) :
    continued ⟨s.body, s.ending⟩ = true ∧
      s.beforeBar = s.indentation ++ beforeBar ⟨s.body, s.ending⟩ := by
  have hbody := s.continued_body.trans h
  refine ⟨hbody, ?_⟩
  rw [← beforeBar_behind hbody, behind, ← s.text_eq]

end SourceLine

namespace Text

theorem sourceLines_behind {m : Text} (hm : OneLine m) (r : Text) :
    sourceLines (m ++ r) = r.sourceLines.modifyHead (SourceLine.behind m) := by
  induction m with
  | nil =>
    obtain ⟨first, below, hr⟩ := r.exists_sourceLines
    rw [List.nil_append, hr]
    rfl
  | cons c m ih =>
    obtain ⟨first, below, hr⟩ := r.exists_sourceLines
    rw [List.cons_append, sourceLines_cons (hm c (by simp)),
      ih fun a ha => hm a (List.mem_cons_of_mem c ha), hr]
    rfl

variable {t : Text} {s : SourceLine} {below : List SourceLine}

/-- The lines below a line are the lines of their text, and there are some if it has an end. -/
theorem sourceLines_below (h : t.sourceLines = s :: below) :
    s.ending = [] ∧ below = [] ∨
      s.ending ≠ [] ∧ Text.sourceLines (below.flatMap SourceLine.whole) = below := by
  obtain ht | ⟨u, e, r, rfl, hu, he⟩ := t.oneLine_or_exists_lineEnd
  · rw [sourceLines_of_oneLine ht] at h
    cases h
    exact .inl ⟨rfl, rfl⟩
  · rw [sourceLines_append hu he] at h
    cases h
    exact .inr ⟨Pattern.lineEnd_proper _ _ he, by rw [flatMap_whole_sourceLines]⟩

theorem eq_of_sourceLines (h : t.sourceLines = s :: below) :
    t = s.text ++ (s.ending ++ below.flatMap SourceLine.whole) := by
  conv_lhs => rw [← flatMap_whole_sourceLines t, h, List.flatMap_cons, SourceLine.whole]
  rw [List.append_assoc]

theorem afterLine_of_sourceLines (h : t.sourceLines = s :: below) :
    OneLine s.text ∧ AfterLine (s.ending ++ below.flatMap SourceLine.whole) := by
  obtain ht | ⟨u, e, r, rfl, hu, he⟩ := t.oneLine_or_exists_lineEnd
  · rw [sourceLines_of_oneLine ht] at h
    cases h
    exact ⟨ht, afterLine_nil⟩
  · rw [sourceLines_append hu he] at h
    cases h
    exact ⟨hu, by rw [flatMap_whole_sourceLines]; exact afterLine_lineEnd he⟩

/-- Behind the text of a line stand its end and the lines below. -/
theorem sourceLines_tail (h : t.sourceLines = s :: below) :
    Text.sourceLines (s.ending ++ below.flatMap SourceLine.whole) = ⟨[], s.ending⟩ :: below := by
  obtain ht | ⟨u, e, r, rfl, hu, he⟩ := t.oneLine_or_exists_lineEnd
  · rw [sourceLines_of_oneLine ht] at h
    cases h
    rfl
  · rw [sourceLines_append hu he] at h
    cases h
    rw [flatMap_whole_sourceLines]
    exact sourceLines_append (u := []) (by simp [OneLine]) he

/-- The lines of a text without the indentation of the first. -/
theorem sourceLines_body (h : t.sourceLines = s :: below) :
    ∃ r, t = s.indentation ++ r ∧ r.sourceLines = ⟨s.body, s.ending⟩ :: below ∧
      ∀ c, r.head? = some c → isIndent c = false := by
  obtain ⟨-, hafter⟩ := afterLine_of_sourceLines h
  have hone : OneLine s.indentation :=
    oneLine_of_all rfl rfl (List.all_eq_true.1 s.all_indentation)
  have ht := eq_of_sourceLines h
  rw [s.text_eq, List.append_assoc] at ht
  refine ⟨_, ht, ?_, ?_⟩
  · rw [ht, sourceLines_behind hone] at h
    generalize s.body ++ (s.ending ++ below.flatMap SourceLine.whole) = r at h
    obtain ⟨first, rest, hr⟩ := r.exists_sourceLines
    rw [hr, List.modifyHead_cons] at h
    obtain ⟨hs, rfl⟩ := List.cons.inj h
    have htext : s.indentation ++ first.text = s.indentation ++ s.body := by
      rw [← s.text_eq]
      exact congrArg SourceLine.text hs
    have hending : first.ending = s.ending := by
      rw [← hs]
      rfl
    rw [hr, ← List.append_cancel_left htext, ← hending]
  · intro c hc
    cases hb : s.body with
    | nil =>
      rw [hb, List.nil_append] at hc
      exact isIndent_eq_false (p := isLineBreak) rfl rfl (hafter c hc)
    | cons a u =>
      rw [hb] at hc
      exact s.isIndent_head_body (by rw [hb]; exact hc)

end Text

/-- Nothing stands before the bar of a line that starts with the bar that continues it. -/
theorem SourceLine.beforeBar_of_bar {t b e r : Text} {s : SourceLine} {below : List SourceLine}
    (hlines : t.sourceLines = s :: below)
    (ht : t = '|' :: (b ++ e) ++ r) (hb : ∀ c ∈ b, isIndent c = true)
    (he : Pattern.lineEnd e = some e) : s.continued = true ∧ s.beforeBar = [] := by
  have hne : e ≠ [] := Pattern.lineEnd_proper _ _ he
  have hcut : t = '|' :: b ++ (e ++ r) := by simp [ht]
  have hafter : AfterLine (e ++ r) := by
    intro a ha
    rw [List.head?_append_of_ne_nil _ hne] at ha
    exact afterLine_lineEnd (r := []) (by simpa using he) a (by simpa using ha)
  have hbar : OneLine ('|' :: b) := by
    intro c hc
    rcases List.mem_cons.1 hc with rfl | hc
    · rfl
    · exact isLineBreak_eq_false (p := isIndent) rfl rfl (hb c hc)
  have htext : s.text = '|' :: b := by
    rw [← Text.firstLine_eq hlines, hcut]
    exact takeWhile_line hbar hafter
  have hending : s.ending ≠ [] := by
    intro hnil
    have hbelow := (Text.sourceLines_below hlines).resolve_right fun h => h.1 hnil
    have heq := Text.eq_of_sourceLines hlines
    rw [hnil, hbelow.2, htext, hcut] at heq
    simp [hne] at heq
  have hkept : Text.dropEndWhile isIndent s.text = ['|'] := by
    have hnil : Text.dropEndWhile isIndent b = [] := by
      simpa [Text.dropEndWhile] using hb
    rw [htext, ← List.singleton_append, Text.dropEndWhile_append, if_pos hnil]
    rfl
  simp [continued, beforeBar, hkept, hending]

theorem Unsplit.of_append_right {m b rest : Text} (h : Unsplit (m ++ b) rest)
    (hb : b ≠ []) : Unsplit b rest := by
  rwa [Unsplit, List.getLast?_append_of_ne_nil _ hb] at h

namespace Text

theorem lineEnd_append {e b rest : Text} (h : Pattern.lineEnd (e ++ b) = some e)
    (hs : Unsplit (e ++ b) rest) : Pattern.lineEnd (e ++ (b ++ rest)) = some e := by
  generalize ht : e ++ b = t at h hs
  unfold Pattern.lineEnd at h
  split at h <;> cases h
  · rfl
  · rfl
  · rename_i hcr
    obtain rfl := List.append_cancel_left (ht : ['\r'] ++ b = ['\r'] ++ _)
    have hnext : ∀ u, b ++ rest ≠ '\n' :: u := by
      rintro u hu
      cases b with
      | nil => exact hs ⟨rfl, by rw [List.nil_append] at hu; rw [hu]; rfl⟩
      | cons a b =>
        cases hu
        exact hcr b rfl
    rw [List.singleton_append, Pattern.lineEnd]
    exact hnext

/-- A text that breaks off behind a line end breaks off between two lines. -/
theorem sourceLines_split {before rest : Text} (hs : Unsplit before rest)
    (ho : before.openLine = []) :
    ∃ above, sourceLines (before ++ rest) = above ++ rest.sourceLines ∧
      above.flatMap SourceLine.whole = before := by
  induction hn : before.length using Nat.strong_induction_on generalizing before with
  | _ n ih =>
    obtain hone | ⟨u, e, b, rfl, hu, he⟩ := before.oneLine_or_exists_lineEnd
    · have hnil : before = [] := by
        by_contra hne
        obtain ⟨c, hc⟩ := Option.ne_none_iff_exists'.1 (mt List.getLast?_eq_none_iff.1 hne)
        have hbreak := openLine_eq_nil_iff.1 ho c hc
        rw [hone c (List.mem_of_getLast? hc)] at hbreak
        cases hbreak
      exact ⟨[], by rw [hnil]; rfl, hnil.symm⟩
    · have hne : e ≠ [] := Pattern.lineEnd_proper _ _ he
      have htail : Unsplit (e ++ b) rest := hs.of_append_right (by simp [hne])
      have hb : Unsplit b rest ∧ b.openLine = [] := by
        by_cases hnil : b = []
        · subst hnil
          exact ⟨unsplit_of_getLast? (by decide) rest, rfl⟩
        · rw [openLine_eq_nil_iff, ← List.append_assoc,
            List.getLast?_append_of_ne_nil _ hnil] at ho
          exact ⟨htail.of_append_right hnil, openLine_eq_nil_iff.2 ho⟩
      have hlt : b.length < n := by
        have hpos := List.length_pos_iff.2 hne
        rw [← hn, List.length_append, List.length_append]
        omega
      obtain ⟨above, hlines, hwhole⟩ := ih b.length hlt hb.1 hb.2 rfl
      refine ⟨⟨u, e⟩ :: above, ?_, ?_⟩
      · rw [List.append_assoc, List.append_assoc, sourceLines_append hu (lineEnd_append he htail),
          hlines]
        rfl
      · rw [List.flatMap_cons, hwhole, SourceLine.whole, List.append_assoc]

end Text

/-- Some lines are those of a text; there may be none, behind the last line. -/
def AreLines (lines : List SourceLine) : Prop :=
  lines = [] ∨ Text.sourceLines (lines.flatMap SourceLine.whole) = lines

theorem areLines_below {t : Text} {s : SourceLine} {below : List SourceLine}
    (h : t.sourceLines = s :: below) : AreLines below :=
  (Text.sourceLines_below h).imp And.right And.right

theorem AreLines.of_suffix {lines rest : List SourceLine} (h : AreLines lines)
    (hrest : rest <:+ lines) : AreLines rest := by
  induction lines with
  | nil => exact .inl (List.suffix_nil.1 hrest)
  | cons s below ih =>
    rcases List.suffix_cons_iff.1 hrest with rfl | hrest
    · exact h
    · exact ih (areLines_below (h.resolve_left (by simp))) hrest

/-- A line and the continued lines that make one line with it. -/
structure LogicalLine where
  first : SourceLine
  more : List SourceLine
  deriving DecidableEq, Repr

namespace LogicalLine

def single (s : SourceLine) : LogicalLine := ⟨s, []⟩

def lines (x : LogicalLine) : List SourceLine := x.first :: x.more

def whole (x : LogicalLine) : Text := x.lines.flatMap SourceLine.whole

def gap (x : LogicalLine) : Bool := x.first.gap

def depth (x : LogicalLine) : Nat := x.first.depth

/-- What is read of the lines: their text without the bars, blanks and line ends that
continue them. -/
def text (x : LogicalLine) : Text :=
  if x.first.continued then x.lines.flatMap SourceLine.beforeBar else x.first.text

/-- What a block at `depth` holds for the line: nothing for a gap, and otherwise its text
without the indentation of that depth. -/
def entry (depth : Nat) (x : LogicalLine) : Text :=
  if x.gap then [] else x.text.drop (2 * depth)

theorem entry_of_gap {s : SourceLine} (h : s.gap = true) (more : List SourceLine) (depth : Nat) :
    entry depth ⟨s, more⟩ = [] :=
  if_pos h

theorem entry_of_visible {s : SourceLine} (h : s.gap = false) (more : List SourceLine)
    (depth : Nat) : entry depth ⟨s, more⟩ = (text ⟨s, more⟩).drop (2 * depth) :=
  if_neg (by simp [gap, h])

end LogicalLine

def logicalLines : List SourceLine → List LogicalLine
  | [] => []
  | s :: below => ⟨s, below.takeWhile s.joins⟩ :: logicalLines (below.dropWhile s.joins)
termination_by lines => lines.length
decreasing_by exact Nat.lt_succ_of_le (List.dropWhile_sublist s.joins).length_le

theorem logicalLines_cons (s : SourceLine) (below : List SourceLine) :
    logicalLines (s :: below) =
      ⟨s, below.takeWhile s.joins⟩ :: logicalLines (below.dropWhile s.joins) := by
  rw [logicalLines]

theorem flatMap_lines_logicalLines (lines : List SourceLine) :
    (logicalLines lines).flatMap LogicalLine.lines = lines := by
  fun_induction logicalLines lines with
  | case1 => rfl
  | case2 s below ih =>
    rw [List.flatMap_cons, ih, LogicalLine.lines, List.cons_append,
      List.takeWhile_append_dropWhile]

theorem flatMap_whole_logicalLines (lines : List SourceLine) :
    (logicalLines lines).flatMap LogicalLine.whole = lines.flatMap SourceLine.whole := by
  conv_rhs => rw [← flatMap_lines_logicalLines lines, List.flatMap_assoc]
  rfl

/-- A gap and a line that is not continued are joined with no line below. -/
theorem joins_none {s : SourceLine} (h : s.gap = true ∨ s.continued = false)
    (below : List SourceLine) :
    below.takeWhile s.joins = [] ∧ below.dropWhile s.joins = below := by
  have hjoins (t : SourceLine) : s.joins t = false := by
    rcases h with h | h <;> simp [SourceLine.joins, h]
  cases below <;> simp [hjoins]

/-- A line that is not continued is a logical line by itself. -/
theorem eq_single_of_mem_logicalLines {lines : List SourceLine} {x : LogicalLine}
    (hx : x ∈ logicalLines lines) (hc : x.first.continued = false) : x = .single x.first := by
  fun_induction logicalLines lines with
  | case1 => cases hx
  | case2 s below ih =>
    rcases List.mem_cons.1 hx with rfl | hx
    · rw [(joins_none (.inr hc) below).1]
      rfl
    · exact ih hx

/-- Without continued lines, every line is one by itself. -/
theorem logicalLines_of_not_continued {lines : List SourceLine}
    (h : ∀ s ∈ lines, s.continued = false) : logicalLines lines = lines.map .single := by
  induction lines with
  | nil => rw [logicalLines, List.map_nil]
  | cons s below ih =>
    obtain ⟨hnone, hall⟩ := joins_none (.inr (h s (by simp))) below
    rw [logicalLines_cons, hnone, hall, ih fun t ht => h t (List.mem_cons_of_mem s ht)]
    rfl

/-! ### Blocks -/

section Blocks

variable {α β : Type} {isGap isDeeper : α → Bool} {s : α} {lines below run : List α}

/-- Lines that are deeper or gaps, of which the last is no gap. -/
structure IsBlock (isGap isDeeper : α → Bool) (run : List α) : Prop where
  deeper : ∀ s ∈ run, isGap s = false → isDeeper s = true
  closed : ∀ s, run.getLast? = some s → isGap s = false

structure LongestBlock (isGap isDeeper : α → Bool) (lines run : List α) : Prop
    extends IsBlock isGap isDeeper run where
  isPrefix : run <+: lines
  longest : ∀ other, other <+: lines → IsBlock isGap isDeeper other → other <+: run

/-- Whether the first line that is no gap is deeper. -/
def deeperFollows (isGap isDeeper : α → Bool) (lines : List α) : Bool :=
  (lines.dropWhile isGap).head?.any isDeeper

theorem deeperFollows_of_gap (h : isGap s = true) :
    deeperFollows isGap isDeeper (s :: below) = deeperFollows isGap isDeeper below := by
  rw [deeperFollows, List.dropWhile_cons_of_pos h, deeperFollows]

theorem deeperFollows_of_visible (h : isGap s = false) :
    deeperFollows isGap isDeeper (s :: below) = isDeeper s := by
  rw [deeperFollows, List.dropWhile_cons_of_neg (by simp [h])]
  rfl

namespace IsBlock

theorem nil : IsBlock isGap isDeeper [] := ⟨by simp, by simp⟩

theorem cons (h : IsBlock isGap isDeeper run) (hs : isGap s = false → isDeeper s = true)
    (hlast : run = [] → isGap s = false) : IsBlock isGap isDeeper (s :: run) := by
  refine ⟨?_, fun t ht => ?_⟩
  · intro t ht
    rcases List.mem_cons.1 ht with rfl | ht
    · exact hs
    · exact h.deeper t ht
  · by_cases hnil : run = []
    · subst hnil
      cases ht
      exact hlast rfl
    · rw [List.getLast?_cons_of_ne_nil hnil] at ht
      exact h.closed t ht

theorem tail (h : IsBlock isGap isDeeper (s :: run)) : IsBlock isGap isDeeper run := by
  refine ⟨fun t ht => h.deeper t (List.mem_cons_of_mem s ht), fun t ht => h.closed t ?_⟩
  rw [List.getLast?_cons, ht]
  rfl

end IsBlock

/-- Some block comes first exactly if the first line that is no gap is deeper. -/
theorem deeperFollows_iff :
    deeperFollows isGap isDeeper lines = true ↔
      ∃ run, run ≠ [] ∧ run <+: lines ∧ IsBlock isGap isDeeper run := by
  induction lines with
  | nil =>
    refine ⟨fun h => (by cases h), ?_⟩
    rintro ⟨run, hne, hrun, -⟩
    exact absurd (List.prefix_nil.1 hrun) hne
  | cons s below ih =>
    have hcut {run : List α} (hne : run ≠ []) (hrun : run <+: s :: below) :
        ∃ more, run = s :: more ∧ more <+: below := by
      cases run with
      | nil => exact absurd rfl hne
      | cons t more =>
        obtain ⟨rfl, hmore⟩ := List.cons_prefix_cons.1 hrun
        exact ⟨more, rfl, hmore⟩
    cases hs : isGap s with
    | false =>
      rw [deeperFollows_of_visible hs]
      constructor
      · intro hdeeper
        exact ⟨[s], by simp, List.cons_prefix_cons.2 ⟨rfl, List.nil_prefix⟩,
          IsBlock.nil.cons (fun _ => hdeeper) fun _ => hs⟩
      · rintro ⟨run, hne, hrun, hblock⟩
        obtain ⟨more, rfl, -⟩ := hcut hne hrun
        exact hblock.deeper s (by simp) hs
    | true =>
      rw [deeperFollows_of_gap hs, ih]
      constructor
      · rintro ⟨run, hne, hrun, hblock⟩
        refine ⟨s :: run, by simp, List.cons_prefix_cons.2 ⟨rfl, hrun⟩, hblock.cons ?_ ?_⟩
        · intro hgap
          rw [hs] at hgap
          cases hgap
        · exact fun hnil => absurd hnil hne
      · rintro ⟨run, hne, hrun, hblock⟩
        obtain ⟨more, rfl, hmore⟩ := hcut hne hrun
        refine ⟨more, ?_, hmore, hblock.tail⟩
        rintro rfl
        have hclosed := hblock.closed s rfl
        rw [hs] at hclosed
        cases hclosed

namespace LongestBlock

theorem nil (h : deeperFollows isGap isDeeper lines = false) :
    LongestBlock isGap isDeeper lines [] := by
  refine ⟨.nil, List.nil_prefix, fun other hother hblock => ?_⟩
  by_cases hne : other = []
  · rw [hne]
  · rw [deeperFollows_iff.2 ⟨other, hne, hother, hblock⟩] at h
    cases h

/-- A deeper line, or a gap with a deeper line behind it, is added before the block below. -/
theorem cons (h : LongestBlock isGap isDeeper below run)
    (hs : deeperFollows isGap isDeeper (s :: below) = true) :
    LongestBlock isGap isDeeper (s :: below) (s :: run) := by
  refine ⟨h.toIsBlock.cons ?_ ?_, List.cons_prefix_cons.2 ⟨rfl, h.isPrefix⟩, ?_⟩
  · intro hgap
    rwa [deeperFollows_of_visible hgap] at hs
  · rintro rfl
    cases hgap : isGap s with
    | false => rfl
    | true =>
      rw [deeperFollows_of_gap hgap, deeperFollows_iff] at hs
      obtain ⟨other, hne, hother, hblock⟩ := hs
      exact absurd (List.prefix_nil.1 (h.longest other hother hblock)) hne
  · intro other hother hblock
    cases other with
    | nil => exact List.nil_prefix
    | cons t other =>
      obtain ⟨rfl, hrest⟩ := List.cons_prefix_cons.1 hother
      exact List.cons_prefix_cons.2 ⟨rfl, h.longest other hrest hblock.tail⟩

end LongestBlock

end Blocks

/-- The first line that is no gap starts a logical line. -/
theorem deeperFollows_logicalLines (depth : Nat) (lines : List SourceLine) :
    deeperFollows LogicalLine.gap (depth < ·.depth) (logicalLines lines) =
      deeperFollows SourceLine.gap (depth < ·.depth) lines := by
  induction lines with
  | nil =>
    rw [logicalLines]
    rfl
  | cons s below ih =>
    rw [logicalLines_cons]
    have hgap : (LogicalLine.mk s (below.takeWhile s.joins)).gap = s.gap := rfl
    cases hs : s.gap with
    | false =>
      rw [deeperFollows_of_visible (hgap.trans hs), deeperFollows_of_visible hs]
      rfl
    | true =>
      rw [deeperFollows_of_gap (hgap.trans hs), deeperFollows_of_gap hs,
        (joins_none (.inl hs) below).2, ih]

end Haml
