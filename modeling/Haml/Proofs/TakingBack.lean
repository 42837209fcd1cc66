import Haml.Proofs.LineCount
import Mathlib.Data.List.Induction

/-!
# Moves taken back and moves looked ahead

A lexer that looks ahead in place really moves: it marks its place, goes on, and puts everything
back, the place by its offset in the source. A move is taken back in the same way. Nothing but
the mark shows afterwards that the lexer has looked ahead, and a move that was taken back can be
made again.
-/

namespace Haml

namespace Cursor

variable {source : Text} {c kept : Cursor}

def unmarked (c : Cursor) : Cursor := { c with mark := 0 }

/-- Puts the cursor back to a place that was kept. The reader finds it by its offset, and the
counters are as they were. -/
def putBack (c kept : Cursor) : Cursor where
  toReader := c.toReader.seek kept.position
  line := kept.line
  column := kept.column
  lineTail := kept.lineTail

@[simp] theorem rest_unmarked (c : Cursor) : c.unmarked.rest = c.rest := rfl

theorem step_unmarked (c : Cursor) : c.unmarked.step = c.step.unmarked := by
  simp only [step, rest_unmarked]
  split
  · rfl
  · rfl
  · split <;> rfl

theorem mark_step (c : Cursor) : c.step.mark = c.mark := by
  unfold step
  split
  · rfl
  · rfl
  · split <;> rfl

theorem skip_unmarked (t : Text) (c : Cursor) : skip t c.unmarked = (skip t c).unmarked := by
  fun_induction skip t c with
  | case1 => rfl
  | case2 t c ih => rw [skip, step_unmarked, ih]
  | case3 x t c hx ih =>
    rw [skip, step_unmarked, ih]
    exact hx

theorem mark_skip (t : Text) (c : Cursor) : (skip t c).mark = c.mark := by
  fun_induction skip t c with
  | case1 => rfl
  | case2 t c ih => rw [ih, mark_step]
  | case3 x t c _ ih => rw [ih, mark_step]

/-- A place that was counted right is found again. -/
theorem putBack_eq (h : kept.unmarked.Counted source) (hc : c.source = source) :
    c.putBack kept = { kept with mark := c.mark } := by
  obtain ⟨before, rest, hsource, -, hkept⟩ := h
  have hposition : kept.position = before.byteSize := congrArg (·.position) hkept
  have hrest : kept.rest = rest := congrArg (·.rest) hkept
  have hwhole : kept.source = before ++ rest := congrArg (·.source) hkept
  have hsize : min before.byteSize (before ++ rest).byteSize = before.byteSize := by
    rw [Text.byteSize_append]
    omega
  simp only [putBack, Reader.seek, hc, hsource, hposition, hsize, Text.dropBytes_append, hrest,
    hwhole]

end Cursor

namespace Lexer

variable {source : Text} {l l' : Lexer}

def unmarked (l : Lexer) : Lexer :=
  { l with cursor := l.cursor.unmarked, start := l.start.unmarked }

/-! ### The lexer in place -/

def marked (l : Lexer) : Lexer :=
  { l with cursor := { l.cursor with toReader := l.cursor.toReader.setMark } }

def moveOn : Nat → Lexer → Lexer
  | 0, l => l
  | n + 1, l => moveOn n l.next

/-- Returns to the mark, and puts the place, the tokens and the start of the current one back
that were saved. -/
def restore (l saved : Lexer) : Lexer where
  cursor := { l.cursor with toReader := l.cursor.toReader.reset }.putBack saved.cursor
  mode := l.mode
  token := saved.token
  previous := saved.previous
  start := saved.start

/-- Looks ahead in place: the lexer moves on from its mark and is restored. -/
def lookAheadInPlace (l : Lexer) (n : Nat) : Token × Lexer :=
  let ahead := l.marked.moveOn n
  (ahead.token, ahead.restore l)

/-- Takes back the last move in place: the token before it is taken out and becomes current. -/
def pushBackInPlace (l : Lexer) : Except PushBackFault Unit × Lexer :=
  if l.kind = .eof then (.error .atEnd, l)
  else
    let emptied := { l with previous := none }
    match l.previous with
    | none => (.error .noMove, emptied)
    | some t => (.ok (), { emptied with cursor := l.cursor.putBack l.start, token := t })

inductive Answer where
  | done
  | token (t : Token)
  | text (t : Text)
  | char (c : Option Char)
  | expression (e : Except Diagnostic Text)
  | refused (d : Diagnostic)

def serve (l : Lexer) : Action → Answer × Lexer
  | .next => (.token l.next.token, l.next)
  | .pushBack =>
    match l.pushBackInPlace with
    | (.ok _, b) => (.done, b)
    | (.error f, b) => (.refused (b.pushBackFault f), b)
  | .lookAhead count => ((.token (l.lookAheadInPlace count).1), (l.lookAheadInPlace count).2)
  | .takeLine => (.text l.takeLine.1, l.takeLine.2)
  | .setMode mode => (.done, l.inMode mode)
  | .clearMode => (.done, l.inMode .line)
  | .readChar => (.char l.readChar.1, l.readChar.2)
  | .readExpression => (.expression l.readExpression.1, l.readExpression.2)

def served (l : Lexer) (actions : List Action) : Lexer := actions.foldl (fun l a => (l.serve a).2) l

/-- The answer to an action by functions that leave the lexer as it is. -/
def reply (l : Lexer) : Action → Answer
  | .next => .token l.next.token
  | .pushBack =>
    match l.pushBack with
    | .ok _ => .done
    | .error f => .refused (l.pushBackFault f)
  | .lookAhead count => .token (l.lookAhead count)
  | .takeLine => .text l.takeLine.1
  | .setMode _ => .done
  | .clearMode => .done
  | .readChar => .char l.readChar.1
  | .readExpression => .expression l.readExpression.1

/-! ### Marks do not matter -/

@[simp] theorem kind_unmarked (l : Lexer) : l.unmarked.kind = l.kind := rfl

@[simp] theorem rest_unmarked (l : Lexer) : l.unmarked.rest = l.rest := rfl

@[simp] theorem endsLine_unmarked (l : Lexer) : l.unmarked.endsLine = l.endsLine := rfl

theorem scan_unmarked (mode : Mode) (c : Cursor) :
    scan mode c.unmarked = ((scan mode c).1, (scan mode c).2.unmarked) := by
  simp only [scan, Cursor.rest_unmarked]
  split
  · rfl
  · rw [Cursor.skip_unmarked]
    rfl

theorem next_unmarked (l : Lexer) : l.unmarked.next = l.next.unmarked := by
  have hscan := scan_unmarked l.mode l.cursor
  simp only [next, unmarked, hscan]

theorem skip_unmarked (l : Lexer) (t : Text) : l.unmarked.skip t = (l.skip t).unmarked := by
  simp only [skip, unmarked, Cursor.skip_unmarked]

theorem takeContinued_unmarked (l : Lexer) (segment : Text) :
    l.unmarked.takeContinued segment =
      ((l.takeContinued segment).1, (l.takeContinued segment).2.unmarked) := by
  have hnext (l : Lexer) (segment : Text) :
      (l.unmarked.skip segment).next = (l.skip segment).next.unmarked := by
    rw [skip_unmarked, next_unmarked]
  fun_induction takeContinued l segment with
  | case1 l segment l' hk more hmore r ih =>
    rw [takeContinued.eq_def l.unmarked]
    simp only [hnext, kind_unmarked, rest_unmarked, l', hk, hmore, dite_true, ih]
    rfl
  | case2 l segment l' hk hmore =>
    rw [takeContinued.eq_def l.unmarked]
    simp only [hnext, kind_unmarked, rest_unmarked, l', hk, hmore, dite_true]
  | case3 l segment l' hk =>
    rw [takeContinued.eq_def l.unmarked]
    simp only [hnext, kind_unmarked, l', hk, dite_false]

theorem takeLine_unmarked (l : Lexer) :
    l.unmarked.takeLine = (l.takeLine.1, l.takeLine.2.unmarked) := by
  simp only [takeLine, endsLine_unmarked, rest_unmarked]
  by_cases hends : l.endsLine = true
  · simp only [hends, if_true]
  · simp only [hends, Bool.false_eq_true, if_false]
    cases continued? l.rest with
    | none =>
      simp only [skip_unmarked, next_unmarked]
      rfl
    | some segment =>
      simp only [takeContinued_unmarked]
      rfl

theorem readExpression_unmarked (l : Lexer) :
    l.unmarked.readExpression = (l.readExpression.1, l.readExpression.2.unmarked) := by
  simp only [readExpression, rest_unmarked, skip_unmarked]
  cases (Expression.scan [] none l.rest).ending.fault? with
  | none => rfl
  | some f => rfl

theorem marked_unmarked (l : Lexer) : l.marked.unmarked = l.unmarked := rfl

theorem mark_next (l : Lexer) : l.next.cursor.mark = l.cursor.mark := by
  simp only [next, scan]
  split
  · rfl
  · exact Cursor.mark_skip _ _

theorem moveOn_unmarked (n : Nat) (l : Lexer) : l.unmarked.moveOn n = (l.moveOn n).unmarked := by
  induction n generalizing l with
  | zero => rfl
  | succ n ih => rw [moveOn, next_unmarked, ih, moveOn]

theorem mark_moveOn (n : Nat) (l : Lexer) : (l.moveOn n).cursor.mark = l.cursor.mark := by
  induction n generalizing l with
  | zero => rfl
  | succ n ih => rw [moveOn, ih, mark_next]

theorem mode_moveOn (n : Nat) (l : Lexer) : (l.moveOn n).mode = l.mode := by
  induction n generalizing l with
  | zero => rfl
  | succ n ih =>
    rw [moveOn, ih]
    rfl

theorem lookAhead_eq (n : Nat) (l : Lexer) : l.lookAhead n = (l.moveOn n).token := by
  induction n generalizing l with
  | zero => rfl
  | succ n ih => exact ih l.next

theorem Counts.moveOn (h : l.Counts source) (n : Nat) : (l.moveOn n).Counts source := by
  induction n generalizing l with
  | zero => exact h
  | succ n ih => exact ih h.next

/-- The source of a lexer that counts right. -/
theorem Counts.source_eq (h : l.unmarked.Counts source) : l.cursor.source = source := by
  obtain ⟨before, rest, hsource, -, hc⟩ := h.cursor
  exact (congrArg (·.source) hc).trans hsource.symm

/-- Behind a look ahead only the mark is another. -/
theorem lookAheadInPlace_eq (h : l.unmarked.Counts source) (n : Nat) :
    l.lookAheadInPlace n = (l.lookAhead n, l.marked) := by
  have hahead : (l.marked.moveOn n).unmarked.Counts source := by
    rw [← moveOn_unmarked]
    exact Counts.moveOn h n
  have hmark : (l.marked.moveOn n).cursor.mark = l.cursor.position := mark_moveOn n l.marked
  have hcursor := Cursor.putBack_eq (c := { (l.marked.moveOn n).cursor with
    toReader := (l.marked.moveOn n).cursor.toReader.reset }) h.cursor hahead.source_eq
  have htoken : (l.marked.moveOn n).token = l.lookAhead n := by
    have hunmarked := congrArg token (moveOn_unmarked n l.marked)
    rw [marked_unmarked, moveOn_unmarked] at hunmarked
    rw [lookAhead_eq]
    exact hunmarked.symm
  simp only [lookAheadInPlace, restore, htoken, hcursor, mode_moveOn]
  change (_, { l with cursor := { l.cursor with mark := (l.marked.moveOn n).cursor.mark } }) = _
  rw [hmark]
  rfl

/-- A move is taken back if the lexer is not at the end and has made one. -/
theorem pushBackInPlace_eq (h : l.unmarked.Counts source) :
    l.pushBackInPlace = match l.pushBack with
      | .ok b => (.ok (), { b with cursor := { l.start with mark := l.cursor.mark } })
      | .error f => (.error f, l) := by
  by_cases hk : l.kind = .eof
  · simp only [pushBackInPlace, pushBack, hk, if_true]
  · have hcursor : l.cursor.putBack l.start = { l.start with mark := l.cursor.mark } :=
      Cursor.putBack_eq h.start h.source_eq
    cases hp : l.previous with
    | none =>
      simp only [pushBackInPlace, pushBack, hk, hp, if_false]
      rw [← hp]
    | some t => simp only [pushBackInPlace, pushBack, hk, hp, if_false, hcursor]

/-- But for its marks a lexer in place answers and moves as one that is not changed does. -/
theorem serve_eq (h : l.unmarked.Counts source) (a : Action) :
    (l.serve a).1 = l.unmarked.reply a ∧ (l.serve a).2.unmarked = l.unmarked.act a := by
  cases a with
  | next =>
    rw [reply, act, next_unmarked]
    exact ⟨rfl, rfl⟩
  | pushBack =>
    simp only [serve, reply, act, pushBackInPlace_eq h]
    simp only [pushBack, kind_unmarked]
    by_cases hk : l.kind = .eof
    · simp only [hk, if_true]
      exact ⟨rfl, rfl⟩
    · simp only [hk, if_false]
      have hprevious : l.unmarked.previous = l.previous := rfl
      rw [hprevious]
      cases l.previous with
      | none => exact ⟨rfl, rfl⟩
      | some t => exact ⟨rfl, rfl⟩
  | lookAhead count =>
    simp only [serve, reply, act, lookAheadInPlace_eq h, lookAhead_eq, moveOn_unmarked]
    exact ⟨rfl, rfl⟩
  | takeLine => simp only [serve, reply, act, takeLine_unmarked, and_self]
  | setMode mode => exact ⟨rfl, rfl⟩
  | clearMode => exact ⟨rfl, rfl⟩
  | readChar =>
    have hstep : l.cursor.step.unmarked = l.unmarked.cursor.step :=
      (Cursor.step_unmarked l.cursor).symm
    simp only [serve, reply, act, readChar, rest_unmarked, true_and, ← hstep]
    rfl
  | readExpression => simp only [serve, reply, act, readExpression_unmarked, and_self]

theorem counts_serve (h : l.unmarked.Counts source) (a : Action) :
    (l.serve a).2.unmarked.Counts source := by
  rw [(serve_eq h a).2]
  exact h.act a

theorem served_append (l : Lexer) (earlier later : List Action) :
    l.served (earlier ++ later) = (l.served earlier).served later := List.foldl_append ..

/-- Whatever is asked of it, a lexer in place stays in step with one that is not changed. -/
theorem served_unmarked (h : l.unmarked.Counts source) (actions : List Action) :
    (l.served actions).unmarked = l.unmarked.perform actions := by
  induction actions generalizing l with
  | nil => rfl
  | cons a actions ih =>
    have hrest := ih (counts_serve h a)
    rw [(serve_eq h a).2] at hrest
    exact hrest

theorem counts_served (h : l.unmarked.Counts source) (actions : List Action) :
    (l.served actions).unmarked.Counts source := by
  rw [served_unmarked h]
  exact h.perform actions

/-! ### When a move can be taken back -/

def Scans (l : Lexer) : Action → Prop
  | .next => True
  | .takeLine => l.endsLine = false
  | _ => False

def TakesBack (l : Lexer) (a : Action) : Prop := a = .pushBack ∧ l.pushBackInPlace.1 = .ok ()

/-- A token has been scanned, and no move has been taken back since. -/
def HasMoved (l : Lexer) (actions : List Action) : Prop :=
  ∃ earlier a later, actions = earlier ++ a :: later ∧ (l.served earlier).Scans a ∧
    ∀ mid b rest, later = mid ++ b :: rest → ¬(l.served (earlier ++ a :: mid)).TakesBack b

theorem not_hasMoved_nil (l : Lexer) : ¬l.HasMoved [] := by
  rintro ⟨earlier, a, later, hnil, -⟩
  exact List.append_ne_nil_of_right_ne_nil earlier (List.cons_ne_nil a later) hnil.symm

theorem hasMoved_append_singleton (l : Lexer) (actions : List Action) (a : Action) :
    l.HasMoved (actions ++ [a]) ↔
      (l.served actions).Scans a ∨ l.HasMoved actions ∧ ¬(l.served actions).TakesBack a := by
  constructor
  · rintro ⟨earlier, b, later, hall, hscans, hkept⟩
    cases later using List.reverseRecOn with
    | nil =>
      obtain ⟨rfl, rfl⟩ := List.append_singleton_inj.1 hall
      exact .inl hscans
    | append_singleton later c =>
      have hsplit : actions ++ [a] = (earlier ++ b :: later) ++ [c] := by
        rw [hall, List.append_assoc, List.cons_append]
      obtain ⟨rfl, rfl⟩ := List.append_singleton_inj.1 hsplit
      refine .inr ⟨⟨earlier, b, later, rfl, hscans, ?_⟩, hkept later a [] rfl⟩
      rintro mid c rest rfl
      refine hkept mid c (rest ++ [a]) ?_
      rw [List.append_assoc, List.cons_append]
  · rintro (hscans | ⟨⟨earlier, b, later, rfl, hscans, hkept⟩, hlast⟩)
    · refine ⟨actions, a, [], rfl, hscans, ?_⟩
      intro mid b rest hnil
      exact absurd hnil.symm (List.append_ne_nil_of_right_ne_nil mid (List.cons_ne_nil b rest))
    · refine ⟨earlier, b, later ++ [a], by simp, hscans, ?_⟩
      intro mid c rest hall
      cases rest using List.reverseRecOn with
      | nil =>
        obtain ⟨rfl, rfl⟩ := List.append_singleton_inj.1 hall
        exact hlast
      | append_singleton rest d =>
        have hsplit : later ++ [a] = (mid ++ c :: rest) ++ [d] := by
          rw [hall, List.append_assoc, List.cons_append]
        exact hkept mid c rest (List.append_singleton_inj.1 hsplit).1

theorem previous_takeContinued (l : Lexer) (segment : Text) :
    (l.takeContinued segment).2.previous.isSome = true := by
  fun_induction takeContinued l segment with
  | case1 l segment l' hk more hmore r ih => exact ih
  | case2 => rfl
  | case3 => rfl

theorem previous_takeLine (l : Lexer) :
    l.takeLine.2.previous.isSome = (l.previous.isSome || !l.endsLine) := by
  simp only [takeLine]
  cases hends : l.endsLine with
  | true => simp
  | false =>
    simp only [Bool.false_eq_true, if_false, Bool.not_false, Bool.or_true]
    split
    · exact previous_takeContinued l _
    · rfl

theorem previous_serve (h : l.unmarked.Counts source) (a : Action) :
    (l.serve a).2.previous.isSome = true ↔ l.Scans a ∨ l.previous.isSome ∧ ¬l.TakesBack a := by
  cases a with
  | next => simp [serve, Scans, next]
  | pushBack =>
    simp only [serve, Scans, TakesBack, pushBackInPlace_eq h, true_and, false_or]
    by_cases hk : l.kind = .eof
    · simp [pushBack, hk]
    · cases hp : l.previous with
      | none => simp [pushBack, hk, hp]
      | some t => simp [pushBack, hk, hp]
  | takeLine => simp [serve, Scans, TakesBack, previous_takeLine, or_comm]
  | lookAhead count => simp [serve, Scans, TakesBack, lookAheadInPlace_eq h, marked]
  | readExpression =>
    simp only [serve, Scans, TakesBack, readExpression]
    split <;> simp [skip]
  | _ => simp [serve, Scans, TakesBack, inMode, readChar]

theorem previous_served (source : Text) (actions : List Action) :
    ((ofText source).served actions).previous.isSome = true ↔
      (ofText source).HasMoved actions := by
  induction actions using List.reverseRecOn with
  | nil => exact iff_of_false Bool.false_ne_true (not_hasMoved_nil _)
  | append_singleton actions a ih =>
    have hserved : (ofText source).served (actions ++ [a]) =
        (((ofText source).served actions).serve a).2 := served_append _ _ _
    rw [hserved, previous_serve (counts_served (counts_ofText source) actions),
      hasMoved_append_singleton, ih]

/-! ### Looking ahead amid other actions -/

def results (l : Lexer) : List Action → List (Answer × Lexer)
  | [] => []
  | a :: actions => ((l.serve a).1, (l.serve a).2.unmarked) :: (l.serve a).2.results actions

/-- The same, with a look ahead by each of the counts before each action. -/
def resultsAmid (l : Lexer) : List (List Nat × Action) → List (Answer × Lexer)
  | [] => []
  | (counts, a) :: actions =>
    let here := l.served (counts.map .lookAhead)
    ((here.serve a).1, (here.serve a).2.unmarked) :: (here.serve a).2.resultsAmid actions

theorem served_lookAhead (h : l.unmarked.Counts source) (counts : List Nat) :
    (l.served (counts.map .lookAhead)).unmarked = l.unmarked := by
  rw [served_unmarked h]
  induction counts with
  | nil => rfl
  | cons n counts ih => exact ih

theorem resultsAmid_eq (h : l.unmarked.Counts source) (h' : l'.unmarked = l.unmarked)
    (actions : List (List Nat × Action)) :
    l'.resultsAmid actions = l.results (actions.map Prod.snd) := by
  induction actions generalizing l l' with
  | nil => rfl
  | cons first actions ih =>
    obtain ⟨counts, a⟩ := first
    have hhere : (l'.served (counts.map .lookAhead)).unmarked = l.unmarked := by
      rw [served_lookAhead (h' ▸ h), h']
    have hserve := serve_eq h a
    have hserve' := serve_eq (hhere ▸ h) a
    rw [hhere] at hserve'
    have hrest := ih (counts_serve h a) (hserve'.2.trans hserve.2.symm)
    simp only [resultsAmid, results, List.map_cons, hserve'.1, hserve.1, hserve'.2, hserve.2, hrest]

/-! ### The two together -/

theorem served_replicate_next (n : Nat) (l : Lexer) :
    l.served (.replicate n .next) = l.moveOn n := by
  induction n generalizing l with
  | zero => rfl
  | succ n ih => exact ih l.next

/-- A move off the end of the source apart, what was just moved over can be moved over again. -/
theorem pushBackInPlace_next (h : l.unmarked.Counts source) (hk : l.next.kind ≠ .eof) :
    l.next.pushBackInPlace = (.ok (),
      { l.next with cursor := l.cursor, token := l.token, previous := none }) := by
  have hcounts : l.next.unmarked.Counts source := by
    rw [← next_unmarked]
    exact h.next
  have hmark : { l.next.start with mark := l.next.cursor.mark } = l.cursor := by rw [mark_next]; rfl
  rw [pushBackInPlace_eq hcounts, pushBack_next hk]
  simp only [hmark]

theorem pushBackInPlace_fails_iff (h : l.unmarked.Counts source) :
    l.pushBackInPlace.1 ≠ .ok () ↔ l.kind = .eof ∨ l.previous.isSome = false := by
  rw [pushBackInPlace_eq h]
  by_cases hk : l.kind = .eof
  · simp [pushBack, hk]
  · cases hp : l.previous with
    | none => simp [pushBack, hk, hp]
    | some t => simp [pushBack, hk, hp]

theorem pushBackInPlace_of_fails (h : l.unmarked.Counts source)
    (hfails : l.pushBackInPlace.1 ≠ .ok ()) : l.pushBackInPlace.2 = l := by
  rw [pushBackInPlace_eq h] at hfails ⊢
  cases hp : l.pushBack with
  | ok b => simp [hp] at hfails
  | error f => rfl

/-- A lexer that is changed in place by whatever is asked of it, in whatever order, gives the
answers of the one that is not, and differs from it in its marks only. A move cannot be taken
back at the end of the source, nor if no token was scanned since the last one was taken back;
the lexer is then as it was. One that has just been made is taken back as if it had not been
made, and can be made again. Looking ahead finds the token that so many moves lead to, and what
is asked later is answered as if nobody had looked. -/
theorem takes_back_and_looks_ahead (source : Text) (actions : List Action) :
    let l := (ofText source).served actions
    (l.unmarked = (ofText source).perform actions ∧
      ∀ a, (l.serve a).1 = ((ofText source).perform actions).reply a) ∧
    (l.pushBackInPlace.1 ≠ .ok () ↔ l.kind = .eof ∨ ¬(ofText source).HasMoved actions) ∧
    (l.pushBackInPlace.1 ≠ .ok () → l.pushBackInPlace.2 = l) ∧
    (l.next.kind ≠ .eof → ∃ back, l.next.pushBackInPlace = (.ok (), back) ∧
      back.cursor = l.cursor ∧ back.token = l.token ∧ back.mode = l.mode ∧
      back.next = l.next) ∧
    (∀ n, (l.serve (.lookAhead n)).1 = .token (l.served (.replicate n .next)).token) ∧
    ∀ later : List (List Nat × Action), l.resultsAmid later = l.results (later.map Prod.snd) := by
  intro l
  have hstart : (ofText source).unmarked.Counts source := counts_ofText source
  have hserved : l.unmarked = (ofText source).perform actions := served_unmarked hstart actions
  have h : l.unmarked.Counts source := counts_served hstart actions
  refine ⟨⟨hserved, ?_⟩, ?_, pushBackInPlace_of_fails h, ?_, ?_, resultsAmid_eq h rfl⟩
  · intro a
    rw [← hserved]
    exact (serve_eq h a).1
  · rw [pushBackInPlace_fails_iff h, ← previous_served, Bool.not_eq_true]
  · intro hk
    exact ⟨_, pushBackInPlace_next h hk, rfl, rfl, rfl, rfl⟩
  · intro n
    rw [serve, lookAheadInPlace_eq h, lookAhead_eq, served_replicate_next]

/-- A move over a line end of two characters, which is taken back once and not twice. -/
theorem takes_back_and_looks_ahead_over_lineEnd :
    let source : Text := "é\r\n  y"
    let actions : List Action := [.next, .lookAhead 2, .takeLine, .pushBack, .lookAhead 1]
    let l := (ofText source).served actions
    (l.kind ≠ .eof ∧ l.cursor.line = 1 ∧ l.next.cursor.line = 2) ∧
      ¬(ofText source).HasMoved actions ∧ l.pushBackInPlace.2 = l ∧
      (∃ back, l.next.pushBackInPlace = (.ok (), back) ∧ back.cursor = l.cursor ∧
        back.token = l.token ∧ back.mode = l.mode ∧ back.next = l.next) ∧
      l.resultsAmid [([2, 1], .next), ([], .next), ([0, 4], .pushBack)] =
        l.results [.next, .next, .pushBack] := by
  intro source actions l
  have hk : l.kind ≠ .eof := by decide +kernel
  have hfails : l.pushBackInPlace.1 ≠ .ok () := by decide +kernel
  obtain ⟨-, hiff, hsame, hmove, -, hamid⟩ := takes_back_and_looks_ahead source actions
  exact ⟨⟨hk, by decide +kernel, by decide +kernel⟩, (hiff.1 hfails).resolve_left hk,
    hsame hfails, hmove (by decide +kernel), hamid _⟩

end Lexer

end Haml
