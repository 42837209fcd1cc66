import Haml.Proofs.OpenElements
import Haml.Proofs.Steps

/-!
# Nesting of elements

Every element that a line opens is closed once, and elements are closed in the
reverse order of their opening. A line that is not blank first closes what is
open at its depth or deeper; only then may it open one element, in a slot that
is empty and below which nothing is open.
-/

namespace Haml

namespace Event

def concernsElement : Event → Bool
  | .opened _ _ | .closed _ _ => true
  | _ => false

/-- The elements that are open after an event, innermost first. An element is
opened inside all that are open, and only the innermost one is closed. -/
def track (live : List (Nat × Element)) : Event → Option (List (Nat × Element))
  | .opened depth e => if live.all (·.1 < depth) then some ((depth, e) :: live) else none
  | .closed depth e => if live.head? = some (depth, e) then some live.tail else none
  | _ => some live

theorem track_of_not_concernsElement {ev : Event} (h : ev.concernsElement = false)
    (live : List (Nat × Element)) : ev.track live = some live := by
  cases ev <;> first | rfl | cases h

/-- Only openings and closings matter for what is open. -/
theorem foldlM_track_filter (events : List Event) (live : List (Nat × Element)) :
    (events.filter concernsElement).foldlM track live = events.foldlM track live := by
  induction events generalizing live with
  | nil => rfl
  | cons ev events ih =>
    cases h : ev.concernsElement with
    | true =>
      rw [List.filter_cons_of_pos h, List.foldlM_cons, List.foldlM_cons]
      exact congrArg _ (funext ih)
    | false =>
      rw [List.filter_cons_of_neg (by simp [h]), List.foldlM_cons,
        track_of_not_concernsElement h, ih]
      rfl

@[simp] theorem filter_concernsElement_emit (is : List Instruction) :
    (is.map emit).filter concernsElement = [] := by
  rw [List.filter_eq_nil_iff]
  intro ev hev
  obtain ⟨i, _, rfl⟩ := List.mem_map.1 hev
  exact Bool.false_ne_true

/-- Well nested events open and close each element equally often, up to what was
and what stays open. -/
theorem count_of_track {events : List Event} {live live' : List (Nat × Element)}
    (h : events.foldlM track live = some live') (depth : Nat) (e : Element) :
    events.count (.opened depth e) + live.count (depth, e) =
      events.count (.closed depth e) + live'.count (depth, e) := by
  induction events generalizing live with
  | nil =>
    cases h
    rfl
  | cons ev events ih =>
    rw [List.foldlM_cons] at h
    cases hev : ev.track live with
    | none => rw [hev] at h; cases h
    | some mid =>
      rw [hev] at h
      have hmid := ih h
      cases ev with
      | opened k x =>
        simp only [track] at hev
        split at hev
        · cases hev
          simp only [List.count_cons, beq_iff_eq, opened.injEq, Prod.mk.injEq, reduceCtorEq,
            if_false] at hmid ⊢
          omega
        · cases hev
      | closed k x =>
        simp only [track] at hev
        split at hev
        · rename_i hhead
          obtain ⟨rest, rfl⟩ := List.head?_eq_some_iff.1 hhead
          cases hev
          simp only [List.count_cons, beq_iff_eq, closed.injEq, Prod.mk.injEq, reduceCtorEq,
            if_false, List.tail_cons] at hmid ⊢
          omega
        · cases hev
      | emit i => cases hev; simpa [List.count_cons] using hmid
      | filtering n k => cases hev; simpa [List.count_cons] using hmid
      | tolerated d => cases hev; simpa [List.count_cons] using hmid

end Event

namespace ElementStack

/-- The stack on which all elements at `depth` or deeper have been closed. -/
def Cleared (s : ElementStack) (depth : Nat) (c : ElementStack) : Prop :=
  ∀ i, c.get? i = if i < depth then s.get? i else none

variable {s c : ElementStack} {d : Nat}

/-- What is open at a depth or deeper comes before what is open above it. -/
theorem openFrom_zero_of_cleared (h : s.Cleared d c) :
    s.openFrom 0 = s.openFrom d ++ c.openFrom 0 := by
  have hs : s.slots.length - 0 ≤ d + max s.slots.length c.slots.length := by omega
  have hc : c.slots.length - 0 ≤ d + max s.slots.length c.slots.length := by omega
  have hd : s.slots.length - d ≤ max s.slots.length c.slots.length := by omega
  have hbelow : ((List.range' 0 d).reverse.filterMap fun k => (c.get? k).map (k, ·)) =
      (List.range' 0 d).reverse.filterMap fun k => (s.get? k).map (k, ·) := by
    apply List.filterMap_congr
    intro k hk
    rw [h k, if_pos (by have := List.mem_range'_1.1 (List.mem_reverse.1 hk); omega)]
  have habove : ((List.range' d (max s.slots.length c.slots.length)).reverse.filterMap fun k =>
      (c.get? k).map (k, ·)) = [] := by
    rw [List.filterMap_eq_nil_iff]
    intro k hk
    rw [h k, if_neg (by have := List.mem_range'_1.1 (List.mem_reverse.1 hk); omega)]
    rfl
  rw [openFrom_eq hs, openFrom_eq hc, openFrom_eq hd, ← List.range'_append_1, Nat.zero_add,
    List.reverse_append, List.filterMap_append, List.filterMap_append, hbelow, habove,
    List.nil_append]

/-- Closing events take the elements at a depth or deeper off the open ones. -/
theorem foldlM_track_closed (above below : List (Nat × Element)) :
    (above.map fun p => Event.closed p.1 p.2).foldlM Event.track (above ++ below) =
      some below := by
  induction above with
  | nil => rfl
  | cons p above ih =>
    rw [List.map_cons, List.foldlM_cons, List.cons_append]
    simpa [Event.track] using ih

theorem openFrom_set (h : s.Cleared d c) (e : Element) :
    (c.set d e).openFrom 0 = (d, e) :: c.openFrom 0 := by
  have hclear : (c.set d e).Cleared d c := by
    intro i
    rw [get?_set]
    by_cases hi : i < d
    · rw [if_pos hi, if_neg (by omega)]
    · rw [if_neg hi, h i, if_neg hi]
  have hdeep : (c.set d e).openFrom (d + 1) = [] := by
    apply openFrom_eq_nil
    intro i hi
    rw [get?_set, if_neg (by omega), h i, if_neg (by omega)]
  rw [openFrom_zero_of_cleared hclear, openFrom_eq_append, hdeep, get?_set, if_pos rfl]
  rfl

theorem closingEvents_marks (u : Upcoming) (ps : List (Nat × Element)) :
    (ps.flatMap (s.closingEvents u)).filter Event.concernsElement =
      ps.map fun p => Event.closed p.1 p.2 := by
  induction ps with
  | nil => rfl
  | cons p ps ih =>
    rw [List.flatMap_cons, List.filter_append, ih, closingEvents,
      List.filter_cons_of_pos rfl, Event.filter_concernsElement_emit]
    rfl

end ElementStack

/-- What a line may do to the open elements behind its closings: leave them as
they are, or open one at its depth. -/
def Opens (cleared : ElementStack) (depth : Nat) (own : List Event) (stack : ElementStack) :
    Prop :=
  (own.filter Event.concernsElement = [] ∧ stack = cleared) ∨
    ∃ e, own.filter Event.concernsElement = [.opened depth e] ∧ stack = cleared.set depth e

/-- What the step of a line does to the open elements. A blank line leaves them
alone. Any other line at `depth` first closes exactly those at `depth` or deeper,
deepest first, and then opens at most one, at `depth`. -/
structure LineDiscipline (stack : ElementStack) (l : Lexer) (s : Step) : Prop where
  blank : l.passSpace.endsLine = true →
    s.events.filter Event.concernsElement = [] ∧ s.stack = stack
  written : l.passSpace.endsLine = false → ∃ own cleared,
    s.events = .emit (.depth l.token.depth) ::
      ((stack.openFrom l.token.depth).flatMap (stack.closingEvents l.passSpace.upcoming) ++
        .emit (.depth l.token.depth) :: own) ∧
    stack.Cleared l.token.depth cleared ∧
    Opens cleared l.token.depth own s.stack

namespace Context

variable (ctx : Context) (stack : ElementStack) (l : Lexer) (depth : Nat)

theorem opens_filterStep :
    Opens stack depth (ctx.filterStep stack l depth).events
      (ctx.filterStep stack l depth).stack := by
  left
  simp only [filterStep_eq]
  split
  · exact ⟨rfl, rfl⟩
  · split
    · exact ⟨Event.filter_concernsElement_emit _, rfl⟩
    · split
      · refine ⟨?_, rfl⟩
        rw [List.filter_append, List.filter_cons_of_neg (by exact Bool.false_ne_true),
          Event.filter_concernsElement_emit]
        rfl
      · exact ⟨Event.filter_concernsElement_emit _, rfl⟩

theorem opens_lineStep :
    Opens stack depth (lineStep stack l depth).events (lineStep stack l depth).stack := by
  obtain ⟨before, after, element?, he, hs⟩ := exists_lineStep stack l depth
  rw [he, hs, Opens, List.filter_append, List.filter_append, Event.filter_concernsElement_emit,
    Event.filter_concernsElement_emit]
  cases element? with
  | none => exact .inl ⟨rfl, rfl⟩
  | some e => exact .inr ⟨e, rfl, rfl⟩

/-- Behind the indentation of a line that is not blank. -/
theorem construct_discipline (h : l.endsLine = false) :
    ∃ own cleared,
      (ctx.construct stack l depth).events =
        (stack.openFrom depth).flatMap (stack.closingEvents l.upcoming) ++
          .emit (.depth depth) :: own ∧
      stack.Cleared depth cleared ∧
      Opens cleared depth own (ctx.construct stack l depth).stack := by
  rw [construct_of_written h]
  simp only [ElementStack.close_events]
  refine ⟨_, (stack.close depth l.upcoming).2, rfl, stack.get?_close depth l.upcoming, ?_⟩
  simp only [ownStep_eq]
  split
  · exact opens_filterStep ctx _ l depth
  · exact opens_lineStep _ l depth

theorem opens_append_tolerated {cleared : ElementStack} {own : List Event} {stack : ElementStack}
    (h : Opens cleared depth own stack) (d : Diagnostic) :
    Opens cleared depth (own ++ [.tolerated d]) stack := by
  have happ : (own ++ [Event.tolerated d]).filter Event.concernsElement =
      own.filter Event.concernsElement := by
    rw [List.filter_append]
    exact List.append_nil _
  rw [Opens, happ]
  exact h

/-- Every step of a run keeps the discipline, with or without a fault. -/
theorem step_discipline : LineDiscipline stack l (ctx.step stack l) where
  blank h := by
    simp only [step_eq]
    split
    · exact ⟨rfl, rfl⟩
    rename_i hb
    simp only [indentedLine_eq, construct_eq]
    by_cases he : l.passSpace.kind = .eof
    · simp only [he, if_true]
      exact ⟨rfl, trivial⟩
    · have hbr : l.passSpace.kind.breaksLine = true := by
        cases hk : l.passSpace.kind <;>
          simp_all [Lexer.endsLine, Token.Kind.endsLine, Token.Kind.breaksLine]
      simp only [he, hbr, if_true, if_false]
      exact ⟨rfl, trivial⟩
  written h := by
    obtain ⟨own, cleared, hevents, hcleared, hopens⟩ :=
      construct_discipline ctx stack l.passSpace l.token.depth h
    rw [step_of_written h]
    simp only [indentedLine_eq]
    split
    · exact ⟨own, cleared, by rw [hevents], hcleared, hopens⟩
    · rename_i d hd
      split
      · split
        all_goals
          refine ⟨own ++ [.tolerated d], cleared, ?_, hcleared,
            opens_append_tolerated _ hopens d⟩
          simp only [hevents, List.cons_append, List.append_assoc]
      · exact ⟨own, cleared, by rw [hevents], hcleared, hopens⟩

/-- A step that keeps the discipline leads from what was open to what is open. -/
theorem track_of_discipline {stack : ElementStack} {l : Lexer} {s : Step}
    (h : LineDiscipline stack l s) :
    s.events.foldlM Event.track (stack.openFrom 0) = some (s.stack.openFrom 0) := by
  rw [← Event.foldlM_track_filter]
  cases hb : l.passSpace.endsLine with
  | true =>
    obtain ⟨hevents, hstack⟩ := h.blank hb
    rw [hevents, hstack]
    rfl
  | false =>
    obtain ⟨own, cleared, hevents, hcleared, hopens⟩ := h.written hb
    have hmarks : s.events.filter Event.concernsElement =
        ((stack.openFrom l.token.depth).map fun p => Event.closed p.1 p.2) ++
          own.filter Event.concernsElement := by
      rw [hevents, List.filter_cons_of_neg (by exact Bool.false_ne_true), List.filter_append,
        ElementStack.closingEvents_marks,
        List.filter_cons_of_neg (by exact Bool.false_ne_true)]
    rw [hmarks, List.foldlM_append, ElementStack.openFrom_zero_of_cleared hcleared,
      ElementStack.foldlM_track_closed]
    rcases hopens with ⟨hown, hstack⟩ | ⟨e, hown, hstack⟩
    · rw [hown, hstack]
      rfl
    · have hall : (cleared.openFrom 0).all (·.1 < l.token.depth) = true := by
        rw [List.all_eq_true]
        rintro ⟨k, e⟩ hk
        have hget := (ElementStack.mem_openFrom.1 hk).2
        rw [hcleared k] at hget
        by_cases hkd : k < l.token.depth
        · exact decide_eq_true hkd
        · rw [if_neg hkd] at hget
          cases hget
      rw [hown, hstack, ElementStack.openFrom_set hcleared]
      show Event.track (cleared.openFrom 0) (.opened l.token.depth e) >>= _ = _
      rw [Event.track, if_pos hall]
      rfl

theorem Steps.track {ctx : Context} {stack stack' : ElementStack} {l l' : Lexer}
    {events : List Event} (h : ctx.Steps stack l events stack' l') :
    events.foldlM Event.track (stack.openFrom 0) = some (stack'.openFrom 0) := by
  induction h with
  | refl => rfl
  | head hl _ _ ih =>
    rw [List.foldlM_append, track_of_discipline (step_discipline _ _ _)]
    exact ih

/-- The closings at the end of a run leave nothing open. -/
theorem track_close (stack : ElementStack) (u : Upcoming) :
    (stack.close 0 u).1.foldlM Event.track (stack.openFrom 0) = some [] := by
  have h := ElementStack.foldlM_track_closed (stack.openFrom 0) []
  rw [List.append_nil] at h
  rw [← Event.foldlM_track_filter, ElementStack.close_events, ElementStack.closingEvents_marks, h]

theorem isEmpty_close (stack : ElementStack) (u : Upcoming) :
    (stack.close 0 u).2.isEmpty = true := by
  rw [ElementStack.isEmpty_iff]
  intro i
  rw [ElementStack.get?_close, if_neg (Nat.not_lt_zero i)]

/-- Events around which only instructions are given open and close the same. -/
theorem track_emit_append (i j : Instruction) (events : List Event) :
    (Event.emit i :: events ++ [Event.emit j]).foldlM Event.track [] =
      events.foldlM Event.track [] := by
  rw [← Event.foldlM_track_filter, ← Event.foldlM_track_filter events, List.cons_append,
    List.filter_cons_of_neg (by exact Bool.false_ne_true), List.filter_append]
  exact congrArg _ (List.append_nil _)

/-- Every opened element is closed exactly once, innermost first. -/
theorem elements_well_nested (ctx : Context) (source : Text) :
    (∀ (stack : ElementStack) (l : Lexer), LineDiscipline stack l (ctx.step stack l)) ∧
    (∀ (stack : ElementStack) (depth : Nat),
      (stack.openFrom depth).Pairwise (fun a b => b.1 < a.1) ∧
      ∀ k e, (k, e) ∈ stack.openFrom depth ↔ depth ≤ k ∧ stack.get? k = some e) ∧
    (∀ events stack l, ctx.Steps {} (Lexer.ofText source).next events stack l →
      events.foldlM Event.track [] = some (stack.openFrom 0)) ∧
    (∃ live, (ctx.run source).events.foldlM Event.track [] = some live) ∧
    ((ctx.run source).fault = none →
      (∃ events stack l, ctx.Steps {} (Lexer.ofText source).next events stack l ∧
        l.kind = .eof ∧
        (ctx.run source).events = .emit (.start ctx.tolerant) ::
          (events ++ (stack.close 0 l.upcoming).1) ++ [.emit .finish] ∧
        (stack.close 0 l.upcoming).2.isEmpty = true) ∧
      (ctx.run source).events.foldlM Event.track [] = some [] ∧
      ∀ depth e, (ctx.run source).events.count (.opened depth e) =
        (ctx.run source).events.count (.closed depth e)) := by
  obtain ⟨events, stack, l, hsteps, hend⟩ := exists_steps ctx {} (Lexer.ofText source).next
  have htrack : events.foldlM Event.track [] = some (stack.openFrom 0) := hsteps.track
  refine ⟨step_discipline ctx,
    fun stack depth => ⟨stack.openFrom_decreasing depth, fun k e => ElementStack.mem_openFrom⟩,
    fun events stack l h => h.track, ?_⟩
  by_cases hl : l.kind = .eof
  · have hfrom : ctx.runFrom {} (Lexer.ofText source).next =
        { events := events ++ (stack.close 0 l.upcoming).1 } := by
      rw [hsteps.runFrom_eq, runFrom_of_eof hl]
      rfl
    have hok : (ctx.runFrom {} (Lexer.ofText source).next).fault = none := by rw [hfrom]
    have hrun := run_of_ok hok
    rw [hfrom] at hrun
    have hall : (ctx.run source).events.foldlM Event.track [] = some [] := by
      rw [hrun]
      simp only
      rw [track_emit_append, List.foldlM_append, htrack]
      exact track_close stack l.upcoming
    refine ⟨⟨_, hall⟩, fun _ => ⟨⟨events, stack, l, hsteps, hl, by rw [hrun],
      isEmpty_close stack l.upcoming⟩, hall, fun depth e => ?_⟩⟩
    exact Event.count_of_track hall depth e
  · obtain ⟨d, hd⟩ := Option.isSome_iff_exists.1 (hend.resolve_left hl)
    have hfrom : ctx.runFrom {} (Lexer.ofText source).next =
        { events := events ++ (ctx.step stack l).events, fault := some d } := by
      rw [hsteps.runFrom_eq, runFrom_of_fault hl hd]
      rfl
    have hfault : (ctx.runFrom {} (Lexer.ofText source).next).fault = some d := by rw [hfrom]
    rw [run_of_fault hfault, hfrom]
    refine ⟨⟨(ctx.step stack l).stack.openFrom 0, ?_⟩, fun h => by cases h⟩
    show (events ++ (ctx.step stack l).events).foldlM Event.track [] = _
    rw [List.foldlM_append, htrack]
    exact track_of_discipline (step_discipline ctx stack l)

end Context

end Haml
