import Haml.Proofs.Braces
import Haml.Proofs.CodeLines
import Mathlib.Data.Finset.Card

/-!
# Code blocks

A block that a code line opens is closed where its depth is left: by a brace that
is generated, or by the next line if that is a code line that starts with a
closing brace. Such a line keeps the braces of all blocks that end there from
being generated, and itself closes one of them.
-/

namespace Haml

open Script

theorem Element.isLiteral_closing {e : Element} (h : e.isBlock = false) (d : Nat) (framed : Bool)
    (u : Upcoming) : ∀ i ∈ e.closing d framed u, i.isLiteral = true := by
  cases e with
  | block => cases h
  | tag name options =>
    intro i hi
    simp only [closing, List.mem_append, List.mem_singleton] at hi
    rcases hi with (hi | rfl) | hi
    · split at hi <;> rw [List.mem_singleton.1 hi] <;> rfl
    · rfl
    · split at hi
      · rw [List.mem_singleton.1 hi]
        rfl
      · cases hi
  | _ => simp [closing, Instruction.isLiteral]

/-- An element that is closed gives a closing brace back, if it is a block and the
next line does not close it. -/
theorem Element.turns_closing (e : Element) (d : Nat) (framed : Bool) (u : Upcoming) :
    Turns (.depth d :: e.closing d framed u)
      (if closesBlock u then 0 else if e.isBlock then 1 else 0) 0
      (if closesBlock u then 0 else if e.isBlock then 1 else 0) := by
  cases he : e.isBlock with
  | true =>
    cases e with
    | block kind => simpa [closing] using (Turns.depth d _).append (.closeBlock kind u)
    | _ => cases he
  | false =>
    have h := (Turns.depth d 0).append (.of_literal (e.isLiteral_closing he d framed u) 0)
    simpa using h

namespace ElementStack

variable {s : ElementStack} {opens : Finset Nat}

def HasBlocks (s : ElementStack) (opens : Finset Nat) : Prop :=
  ∀ d, d ∈ opens ↔ (s.get? d).any Element.isBlock = true

theorem hasBlocks_empty : ({} : ElementStack).HasBlocks ∅ := fun d => by simp [get?]

theorem HasBlocks.close (h : s.HasBlocks opens) (d : Nat) (u : Upcoming) :
    (s.close d u).2.HasBlocks (opens.filter (· < d)) := by
  intro i
  rw [Finset.mem_filter, get?_close, h i]
  split
  · rename_i hi
    simp [hi]
  · rename_i hi
    simp [hi]

theorem HasBlocks.set (h : s.HasBlocks opens) {d : Nat} (hd : d ∉ opens) (e : Element) :
    (s.set d e).HasBlocks (if e.isBlock then insert d opens else opens) := by
  intro i
  rw [get?_set]
  by_cases hi : i = d
  · subst hi
    cases he : e.isBlock <;> simp [hd, he]
  · cases e.isBlock <;> simp [hi, h i]

/-- As many blocks are open from a depth on as there are depths. -/
theorem HasBlocks.countP_openFrom (h : s.HasBlocks opens) (d : Nat) :
    (s.openFrom d).countP (·.2.isBlock) = (opens.filter (d ≤ ·)).card := by
  have hnodup : (((s.openFrom d).filter (·.2.isBlock)).map (·.1)).Nodup := by
    have hdecreasing := (s.openFrom_decreasing d).sublist (List.filter_sublist (p := (·.2.isBlock)))
    rw [List.Nodup, List.pairwise_map]
    exact hdecreasing.imp fun hlt => by omega
  have hset : (((s.openFrom d).filter (·.2.isBlock)).map (·.1)).toFinset =
      opens.filter (d ≤ ·) := by
    ext i
    simp only [List.mem_toFinset, List.mem_map, List.mem_filter, Finset.mem_filter, h i]
    constructor
    · rintro ⟨⟨k, e⟩, ⟨hk, hb⟩, rfl⟩
      obtain ⟨hd, he⟩ := mem_openFrom.1 hk
      exact ⟨by simp [he, hb], hd⟩
    · rintro ⟨hb, hd⟩
      cases he : s.get? i with
      | none => simp [he] at hb
      | some e => exact ⟨(i, e), ⟨mem_openFrom.2 ⟨hd, he⟩, by simpa [he] using hb⟩, rfl⟩
  rw [List.countP_eq_length_filter, ← hset, List.toFinset_card_of_nodup hnodup, List.length_map]

theorem turns_closingEvents (s : ElementStack) (u : Upcoming) (ps : List (Nat × Element)) :
    Turns ((ps.flatMap (s.closingEvents u)).filterMap Event.instruction?)
      (if closesBlock u then 0 else ps.countP (·.2.isBlock)) 0
      (if closesBlock u then 0 else ps.countP (·.2.isBlock)) := by
  induction ps with
  | nil =>
    have hnil : Turns [] 0 0 0 := Turns.of_literal (by simp) 0
    simpa using hnil
  | cons p ps ih =>
    rw [List.flatMap_cons, List.filterMap_append]
    have hfirst : (s.closingEvents u p).filterMap Event.instruction? =
        .depth p.1 :: p.2.closing p.1 (s.framesLines p.1) u := by
      rw [closingEvents, List.filterMap_cons_none rfl, Event.filterMap_instruction?_emit]
    rw [hfirst]
    have h := ((p.2.turns_closing p.1 (s.framesLines p.1) u).frame
      (if closesBlock u then 0 else ps.countP (·.2.isBlock))).append ih
    by_cases hu : closesBlock u <;> cases hp : p.2.isBlock <;> simp_all [Nat.add_comm]

/-- Closing down to a depth closes the blocks that are open there, unless the next
line does so itself. -/
theorem HasBlocks.turns_close (h : s.HasBlocks opens) (d : Nat) (u : Upcoming) :
    Turns ((s.close d u).1.filterMap Event.instruction?)
      (if closesBlock u then 0 else (opens.filter (d ≤ ·)).card) 0
      (if closesBlock u then 0 else (opens.filter (d ≤ ·)).card) := by
  rw [close_events, ← h.countP_openFrom d]
  exact turns_closingEvents s u _

end ElementStack

/-- A line that stands for literal text alone. -/
def Line.IsStatic (x : Line) (depth : Nat) : Prop :=
  ∀ framed, ∀ i ∈ x.instructions depth framed, i.isLiteral = true

instance (x : Line) (depth : Nat) : Decidable (x.IsStatic depth) :=
  inferInstanceAs (Decidable (∀ _ : Bool, _))

/-- Code that ends in the one brace that it leaves open. -/
structure OpensBlock (c : Text) : Prop where
  braces : Braces 0 c 1
  last : opensBlock c = true

/-- Code that starts with the closing brace of a block, and closes no other. -/
structure ClosesBlock (c : Text) : Prop where
  braces : Braces 1 c 0
  first : c.trimStart.head? = some '\x7d'
  last : openedBlock? c = none

theorem Line.IsStatic.isBlock_element {x : Line} {depth : Nat} (h : x.IsStatic depth)
    {e : Element} (he : x.element? = some e) : e.isBlock = false := by
  cases x with
  | code c newline => cases h true (.code c newline) (by simp [instructions])
  | comment t newline deeper =>
    simp only [element?, Option.some.injEq] at he
    subst he
    split <;> rfl
  | tag head contents =>
    simp only [element?, TagHead.element?] at he
    split at he
    · cases he
    · cases he
      rfl
  | _ => cases he

/-- Code that opens a block does not start with a closing brace. -/
theorem OpensBlock.trimStart {c : Text} (h : OpensBlock c) :
    c.trimStart ≠ [] ∧ c.trimStart.head? ≠ some '\x7d' := by
  constructor
  · intro hnil
    have hblank : ∀ x ∈ c, isBlank x = true := List.dropWhile_eq_nil_iff.1 hnil
    have htrim : c.trimEnd = [] := by
      rw [Text.trimEnd, Text.dropEndWhile, List.dropWhile_eq_nil_iff.2 fun x hx =>
        hblank x (List.mem_reverse.1 hx)]
      rfl
    have hlast := h.last
    rw [opensBlock, htrim] at hlast
    cases hlast
  · intro hbrace
    obtain ⟨u, hu⟩ := List.head?_eq_some_iff.1 hbrace
    have hsplit : c = c.takeWhile isBlank ++ '\x7d' :: u := by
      rw [← hu]
      exact List.takeWhile_append_dropWhile.symm
    have hblanks : Braces 0 (c.takeWhile isBlank) 0 := by
      apply Braces.of_plain
      intro x hx
      have hx := List.mem_takeWhile_imp hx
      refine ⟨?_, ?_, ?_⟩
      · rintro rfl
        cases hx
      · rintro rfl
        cases hx
      · cases hq : Expression.isQuote x with
        | false => rfl
        | true =>
          have hq : (x = '\'' ∨ x = '"') ∨ x = '\x60' := by simpa [Expression.isQuote] using hq
          rcases hq with (rfl | rfl) | rfl <;> cases hx
    have hcount := h.braces.counted
    rw [hsplit, (bare_append (by simp) hblanks.closed _).1, openBraces_append,
      hblanks.counted] at hcount
    cases hcount

theorem OpensBlock.openedBlock {c : Text} (h : OpensBlock c) :
    ∃ kind, openedBlock? c = some kind := by
  simp only [openedBlock?, h.last, if_true]
  split
  · exact ⟨_, rfl⟩
  · exact ⟨_, rfl⟩

/-- How a row changes the depths at which blocks are open, and how many of them it
leaves without a closing brace. A line that closes a block itself stands at the
depth of that block. -/
inductive Row.Shifts (opens : Finset Nat) : Row → Finset Nat → Nat → Prop where
  | empty (newline : Text) : Shifts opens (.empty newline) opens 0
  | blank (d : Nat) (newline : Option Text) : Shifts opens (.blank d newline) opens 0
  | static {d : Nat} {u : Upcoming} {ps : List Probe} {x : Line} (hx : x.IsStatic d) :
      Shifts opens (.written d u (.line ps x)) (opens.filter (· < d)) 0
  | opener {d : Nat} {u : Upcoming} {ps : List Probe} {c newline : Text} (hc : OpensBlock c)
      (hu : continued? u.rest = none) :
      Shifts opens (.written d u (.line ps (.code c newline)))
        (insert d (opens.filter (· < d))) 0
  | closer {d : Nat} {u : Upcoming} {ps : List Probe} {c newline : Text} (hc : ClosesBlock c)
      (hu : continued? u.rest = none) (hd : d ∈ opens) :
      Shifts opens (.written d u (.line ps (.code c newline)))
        (opens.filter (· < d)) (opens.filter (d < ·)).card

/-- Rows of static lines and code lines that open and close blocks, of which `lost`
are left without a closing brace. -/
inductive Blocks : Finset Nat → List Row → Nat → Prop where
  | nil (opens : Finset Nat) : Blocks opens [] 0
  | cons {opens opens' : Finset Nat} {row : Row} {rows : List Row} {k lost : Nat}
      (h : row.Shifts opens opens' k) (h' : Blocks opens' rows lost) :
      Blocks opens (row :: rows) (k + lost)

def Row.code? : Row → Option Text
  | .written _ _ (.line _ (.code c _)) => some c
  | _ => none

def Row.isOpener (row : Row) : Bool := row.code?.any fun c => (openedBlock? c).isSome

def Row.isCloser (row : Row) : Bool := row.code?.any fun c => c.trimStart.head? == some '\x7d'

variable {filters : FilterRegistry} {stack : ElementStack} {opens opens' : Finset Nat}

theorem card_blocks (opens : Finset Nat) (d : Nat) :
    (opens.filter (· < d)).card + (opens.filter (d ≤ ·)).card = opens.card := by
  simpa using Finset.card_filter_add_card_filter_not (s := opens) (· < d)

/-- The block at a depth, and those that are deeper. -/
theorem card_blocks_from {d : Nat} (hd : d ∈ opens) :
    (opens.filter (d ≤ ·)).card = (opens.filter (d < ·)).card + 1 := by
  have hset : opens.filter (d ≤ ·) = insert d (opens.filter (d < ·)) := by
    ext i
    simp only [Finset.mem_filter, Finset.mem_insert]
    constructor
    · rintro ⟨hi, hle⟩
      rcases Nat.eq_or_lt_of_le hle with rfl | hlt
      · exact .inl rfl
      · exact .inr ⟨hi, hlt⟩
    · rintro (rfl | ⟨hi, hlt⟩)
      · exact ⟨hd, Nat.le_refl _⟩
      · exact ⟨hi, Nat.le_of_lt hlt⟩
  rw [hset, Finset.card_insert_of_notMem (by simp)]

/-- The instructions of a written row: it closes what is open at its depth or deeper,
unless it does so itself, and then gives its own. -/
theorem turns_written (hs : stack.HasBlocks opens) {d : Nat} {u : Upcoming} {own : List Event}
    {a b g m : Nat} (hown : Turns (own.filterMap Event.instruction?) a b m)
    (hg : (if closesBlock u then 0 else (opens.filter (d ≤ ·)).card) = g)
    (ha : a + g = opens.card) :
    Turns ((.emit (.depth d) :: ((stack.close d u).1 ++ .emit (.depth d) :: own)).filterMap
      Event.instruction?) opens.card b (g + m) := by
  have hclose := (hs.turns_close d u).frame a
  rw [hg, ha, Nat.add_zero] at hclose
  have h := (Turns.depth d opens.card).append (hclose.append ((Turns.depth d a).append hown))
  simpa using h

theorem turns_code {c newline : Text} {a b : Nat} (hc : Braces a c b)
    (hnewline : newline.all isLineBreak = true) (ps : List Probe) (d : Nat) :
    Turns (ps.map .scanned ++ [.depth d, .code c newline]) a b 0 := by
  have hprobes : Turns (ps.map .scanned) a a 0 := by
    refine Turns.of_literal (fun i hi => ?_) a
    obtain ⟨p, -, rfl⟩ := List.mem_map.1 hi
    rfl
  exact hprobes.append ((Turns.depth d a).append (.code hc hnewline))

/-- What a row does to the blocks that are open is what it writes. -/
theorem Row.Shifts.compile (filters : FilterRegistry) {row : Row} {k : Nat}
    (h : row.Shifts opens opens' k) (hr : row.AsRead) (hs : stack.HasBlocks opens) :
    ∃ events stack' g, row.compile filters stack = some (events, stack') ∧
      stack'.HasBlocks opens' ∧
      Turns (events.filterMap Event.instruction?) opens.card (opens'.card + k) g ∧
      g + row.isCloser.toNat + k + opens'.card = opens.card + row.isOpener.toNat := by
  have hnot (d : Nat) : d ∉ opens.filter (· < d) := by simp
  cases h with
  | empty newline =>
    refine ⟨_, _, 0, rfl, hs, ?_, ?_⟩
    · exact Turns.of_literal (by simp [Instruction.isLiteral]) _
    · simp [isCloser, isOpener, code?]
  | blank d newline =>
    refine ⟨_, _, 0, rfl, hs, ?_, ?_⟩
    · refine Turns.of_literal ?_ _
      cases newline <;> simp [Instruction.isLiteral]
    · simp [isCloser, isOpener, code?]
  | @static d u ps x hx =>
    have hcode : (Row.written d u (.line ps x)).code? = none ∧ closesBlock u = false := by
      cases x with
      | code c newline => cases hx true (.code c newline) (by simp [Line.instructions])
      | _ => exact ⟨rfl, hr⟩
    obtain ⟨hcode, hopen⟩ := hcode
    have hcard := card_blocks opens d
    refine ⟨_, _, (opens.filter (d ≤ ·)).card + 0, rfl, ?_, ?_, ?_⟩
    · cases he : x.element? with
      | none => exact hs.close d u
      | some e =>
        have h := (hs.close d u).set (hnot d) e
        rwa [hx.isBlock_element he] at h
    · refine turns_written hs ?_ (by rw [hopen]; rfl) hcard
      rw [filterMap_instruction?_line]
      refine Turns.of_literal (fun i hi => ?_) _
      rcases List.mem_append.1 hi with hi | hi
      · obtain ⟨p, -, rfl⟩ := List.mem_map.1 hi
        rfl
      · exact hx _ i hi
    · simp only [isCloser, isOpener, hcode, Option.any_none, Bool.toNat_false]
      omega
  | @opener d u ps c newline hc hu =>
    obtain ⟨hne, hfirst⟩ := hc.trimStart
    obtain ⟨kind, hkind⟩ := hc.openedBlock
    obtain ⟨hnewline, hopen⟩ := hr hu hne
    rw [beq_false_of_ne hfirst] at hopen
    have hcard := card_blocks opens d
    have hinsert : (insert d (opens.filter (· < d))).card = (opens.filter (· < d)).card + 1 :=
      Finset.card_insert_of_notMem (hnot d)
    refine ⟨_, _, (opens.filter (d ≤ ·)).card + 0, rfl, ?_, ?_, ?_⟩
    · have h := (hs.close d u).set (hnot d) (.block kind)
      simpa [Line.element?, hkind, Element.isBlock] using h
    · refine turns_written hs ?_ (by rw [hopen]; rfl) hcard
      rw [filterMap_instruction?_line, hinsert]
      exact (turns_code hc.braces hnewline ps d).frame _
    · simp only [isCloser, isOpener, code?, Option.any_some, hkind, beq_false_of_ne hfirst,
        Option.isSome_some, Bool.toNat_false, Bool.toNat_true]
      omega
  | @closer d u ps c newline hc hu hd =>
    have hne : c.trimStart ≠ [] := by
      intro hnil
      have hfirst := hc.first
      rw [hnil] at hfirst
      cases hfirst
    obtain ⟨hnewline, hclosed⟩ := hr hu hne
    rw [hc.first, beq_self_eq_true] at hclosed
    have hcard := card_blocks opens d
    -- The block that the line closes, and those that it leaves without a brace.
    have hfrom := card_blocks_from hd
    refine ⟨_, _, 0 + 0, rfl, ?_, ?_, ?_⟩
    · simpa [Line.element?, hc.last] using hs.close d u
    · have hown := (turns_code hc.braces hnewline ps d).frame
        ((opens.filter (· < d)).card + (opens.filter (d < ·)).card)
      refine turns_written (a := (opens.filter (· < d)).card + (opens.filter (d < ·)).card + 1) hs
        ?_ (by rw [hclosed]; rfl) (by omega)
      rw [filterMap_instruction?_line]
      exact hown
    · simp only [isCloser, isOpener, code?, Option.any_some, hc.first, hc.last,
        beq_self_eq_true, Option.isSome_none, Bool.toNat_false, Bool.toNat_true]
      omega

/-- Rows write a closing brace for every block but those that close themselves and
those that are left without one. -/
theorem Blocks.compile (filters : FilterRegistry) {rows : List Row} {lost : Nat}
    (h : Blocks opens rows lost) (hr : ∀ row ∈ rows, row.AsRead) (hs : stack.HasBlocks opens) :
    ∃ events stack' opens' g, compileRows filters stack rows = some (events, stack') ∧
      stack'.HasBlocks opens' ∧
      Turns (events.filterMap Event.instruction?) opens.card (opens'.card + lost) g ∧
      g + rows.countP Row.isCloser + lost + opens'.card =
        opens.card + rows.countP Row.isOpener := by
  induction h generalizing stack with
  | nil opens =>
    exact ⟨[], stack, opens, 0, rfl, hs, Turns.of_literal (by simp) _, by simp⟩
  | @cons opens opens₁ row rows k lost hrow _ ih =>
    obtain ⟨first, stack₁, g₁, hc₁, hs₁, ht₁, hn₁⟩ :=
      hrow.compile filters (hr row (.head rows)) hs
    obtain ⟨more, stack₂, opens₂, g₂, hc₂, hs₂, ht₂, hn₂⟩ :=
      ih (fun r hm => hr r (.tail row hm)) hs₁
    refine ⟨first ++ more, stack₂, opens₂, g₁ + g₂, ?_, hs₂, ?_, ?_⟩
    · simp [compileRows, hc₁, hc₂]
    · have ht₂ := ht₂.frame k
      rw [Nat.add_comm k, show k + (opens₂.card + lost) = opens₂.card + (k + lost) by omega] at ht₂
      rw [List.filterMap_append]
      exact ht₁.append ht₂
    · have hcount (b : Bool) (n : Nat) : (n + if b then 1 else 0) = b.toNat + n := by
        cases b <;> simp [Nat.add_comm]
      rw [List.countP_cons, List.countP_cons, hcount, hcount]
      omega

/-- Braces in the code of a template of static lines and blocks: none is closed that
was not opened, and for each block that is left without a closing brace one more is
opened than closed. A closing brace is generated for all other blocks but those that
have a line of their own for it. -/
theorem Template.braces_of_blocks (t : Template) (o : Options) (filters : FilterRegistry)
    {rows : List Row} {lost : Nat} (hrows : (Lexer.ofText t.source).next.rows = .ok rows)
    (h : Blocks ∅ rows lost) :
    ∃ code, t.compileWith o filters = .ok ⟨code, []⟩ ∧
      (∀ p, p <+: bare none code → p.count '\x7d' ≤ p.count '\x7b') ∧
      (bare none code).count '\x7b' = (bare none code).count '\x7d' + lost ∧
      (t.run o filters).instructions.countP Instruction.generatesCloser +
        rows.countP Row.isCloser + lost = rows.countP Row.isOpener := by
  obtain ⟨events, stack, opens, g, hcompile, hstack, hturns, hcount⟩ :=
    h.compile filters (Lexer.asRead_of_mem_rows rfl hrows)
      ElementStack.hasBlocks_empty
  obtain ⟨u, hu, hrun⟩ := Template.compileWith_of_rows hrows hcompile
  obtain ⟨hinstructions, hok⟩ := hrun o
  -- The end of the template closes no block itself.
  have hend : closesBlock u = false := by simp [closesBlock, hu]
  have hclose := (hstack.turns_close 0 u).frame lost
  simp only [hend, Bool.false_eq_true, if_false, Nat.zero_le, Finset.filter_true,
    Nat.add_comm lost, Nat.zero_add] at hclose
  have hturns := hturns.append hclose
  rw [← List.filterMap_append, Finset.card_empty] at hturns
  have hbraces := hturns.body o.tolerant
  rw [← hinstructions] at hbraces
  refine ⟨_, hok, fun p hp => count_le_of_openBraces hbraces.counted hp,
    count_of_openBraces hbraces.counted, ?_⟩
  rw [hinstructions, List.countP_append, List.countP_cons, hturns.generated]
  simp only [Instruction.generatesCloser, List.countP_cons, List.countP_nil, Bool.false_eq_true,
    if_false]
  rw [Finset.card_empty] at hcount
  omega

/-- A block that has its own closing line, and one that is open at the end. -/
def Template.tasks : Template where
  name := "tasks"
  source := "- if (a) \x7b\n  %p\n- \x7d\n- b(function () \x7b\n  x\n"

def Template.tasksRows : List Row :=
  [.written 0 ⟨.minus, 1, " if (a) \x7b\n  %p\n- \x7d\n- b(function () \x7b\n  x\n"⟩
      (.line [] (.code " if (a) \x7b" "\n")),
    .written 1 ⟨.element, 15, "\n- \x7d\n- b(function () \x7b\n  x\n"⟩
      (.line [] (.tag ⟨"p", {}, {}, ⟨3, 0, "- \x7d"⟩⟩ (.text [] true 0 "\n"))),
    .written 0 ⟨.minus, 17, " \x7d\n- b(function () \x7b\n  x\n"⟩ (.line [] (.code " \x7d" "\n")),
    .written 0 ⟨.minus, 21, " b(function () \x7b\n  x\n"⟩
      (.line [] (.code " b(function () \x7b" "\n")),
    .written 1 ⟨.other, 41, "\n"⟩ (.line [] (.plain (.text "x" true 0 "\n") ⟨5, 3, "  x"⟩))]

theorem Template.braces_of_tasks :
    (Lexer.ofText tasks.source).next.rows = .ok tasksRows ∧ Blocks ∅ tasksRows 0 ∧
    ∃ code, tasks.compile ⟨false⟩ = .ok ⟨code, []⟩ ∧
      (∀ p, p <+: bare none code → p.count '\x7d' ≤ p.count '\x7b') ∧
      (bare none code).count '\x7b' = (bare none code).count '\x7d' ∧
      (tasks.run ⟨false⟩ .builtin).instructions.countP Instruction.generatesCloser = 1 := by
  have hrows : (Lexer.ofText tasks.source).next.rows = .ok tasksRows := by decide +kernel
  have hblocks : ∃ lost, Blocks ∅ tasksRows lost ∧ lost = 0 :=
    ⟨_, .cons (.opener ⟨by decide, by decide⟩ (by decide))
      (.cons (.static (by decide +kernel))
        (.cons (.closer ⟨by decide, by decide, by decide⟩ (by decide) (by decide))
          (.cons (.opener ⟨by decide, by decide⟩ (by decide))
            (.cons (.static (by decide +kernel)) (.nil _))))), by decide⟩
  obtain ⟨lost, hblocks, rfl⟩ := hblocks
  obtain ⟨code, hok, hprefix, hcount, hgenerated⟩ :=
    tasks.braces_of_blocks ⟨false⟩ .builtin hrows hblocks
  have hclosers : tasksRows.countP Row.isCloser = 1 := by decide
  have hopeners : tasksRows.countP Row.isOpener = 2 := by decide
  exact ⟨hrows, hblocks, code, hok, hprefix, hcount, by omega⟩

/-- One closing line keeps the braces of two blocks from being generated, and closes
only one of them. -/
theorem Template.shared_closing_line :
    let t : Template := ⟨"t", "- if (a) \x7b\n  - if (b) \x7b\n    %p\n- \x7d\n"⟩
    (t.compile ⟨false⟩).toOption.map
      (fun c => ((bare none c.code).count '\x7b', (bare none c.code).count '\x7d')) =
    some (4, 3) := by
  decide +kernel

end Haml
