import Haml.Proofs.SameText
import Haml.Proofs.SilentComments

/-!
# Templates without their silent comments

A silent comment writes nothing, but it is a line: it closes what is open at its depth, it
may be the contents of the line above it, and it may keep a block from being closed by the
line below it. Where it does none of these, a template has the same code with the comment
as without it.
-/

namespace Haml

/-! ### Closing in two steps -/

namespace Script

/-- Instructions that say their depth first, if there are any. -/
def SaysDepth (is : List Instruction) : Prop := ∀ i, is.head? = some i → ∃ d, i = .depth d

theorem SaysDepth.append {is js : List Instruction} (hi : SaysDepth is) (hj : SaysDepth js) :
    SaysDepth (is ++ js) := by
  intro i hhead
  cases is with
  | nil => exact hj i hhead
  | cons x is => exact hi i hhead

/-- A depth that was said before does not matter to them, nor to a depth behind them. -/
theorem SaysDepth.run_depth {is : List Instruction} (h : SaysDepth is) (w : Writer) (x y : Nat) :
    (w.run [.depth x]).run (is ++ [.depth y]) = w.run (is ++ [.depth y]) := by
  cases is with
  | nil => rfl
  | cons i is =>
    obtain ⟨d, rfl⟩ := h i rfl
    rfl

end Script

namespace ElementStack

variable (s : ElementStack)

theorem saysDepth_close (d : Nat) (u : Upcoming) (p : Point) :
    Script.SaysDepth (((s.close d u).1.filterMap Event.instruction?).map (·.atPoint p)) := by
  rw [close_events]
  induction s.openFrom d with
  | nil => exact nofun
  | cons q ps ih =>
    rw [List.flatMap_cons, List.filterMap_append, List.map_append]
    refine Script.SaysDepth.append ?_ ih
    rw [closingEvents, List.filterMap_cons_none rfl, Event.filterMap_instruction?_emit]
    rintro i ⟨⟩
    exact ⟨q.1, rfl⟩

/-- Down to a lesser depth the same is closed at once or in two steps. -/
theorem close_close {b d : Nat} (h : b ≤ d) (u v : Upcoming) :
    (s.close b v).1 = (s.close d v).1 ++ ((s.close d u).2.close b v).1 ∧
      ((s.close d u).2.close b v).2.Same (s.close b v).2 := by
  constructor
  · rw [close_events, close_events, close_events, s.openFrom_append h u, List.flatMap_append]
    congr 1
    refine List.flatMap_congr fun p hp => closingEvents_congr fun i hi => ?_
    obtain ⟨-, hget⟩ := mem_openFrom.1 hp
    rw [get?_close] at hget ⊢
    have hlt : p.1 < d := by
      by_contra hge
      rw [if_neg hge] at hget
      cases hget
    rw [if_pos (by omega)]
  · intro i
    rw [get?_close, get?_close, get?_close]
    by_cases hi : i < b
    · rw [if_pos hi, if_pos hi, if_pos (by omega)]
    · rw [if_neg hi, if_neg hi]

end ElementStack

/-- What is closed depends on the line below only by whether this closes a block itself,
and only if there is a block. -/
theorem ElementStack.alike_close (s : ElementStack) {d : Nat} {u v : Upcoming}
    (hu : Script.closesBlock u = false)
    (hv : Script.closesBlock v = true → ∀ p ∈ s.openFrom d, p.2.isBlock = false) :
    Event.Alike (s.close d u).1 (s.close d v).1 := by
  cases hblock : Script.closesBlock v with
  | false => exact .of_like ((Like.refl s).events_close d (hblock.trans hu.symm))
  | true =>
    have hsame : (s.close d u).1 = (s.close d v).1 := by
      rw [close_events, close_events]
      refine List.flatMap_congr fun p hp => ?_
      have hp := hv hblock p hp
      obtain ⟨i, e⟩ := p
      cases e with
      | block kind => cases hp
      | _ => rfl
    rw [hsame]
    exact .refl _

/-! ### The row of a silent comment -/

def Row.silent (d : Nat) (u : Upcoming) : Row := .written d u (.line [] .hidden)

/-- Events between two words of the same depth. -/
def Event.atDepth (d : Nat) (es : List Event) : List Event :=
  .emit (.depth d) :: (es ++ [.emit (.depth d)])

theorem Event.atPoint_atDepth (p : Point) (d : Nat) (es : List Event) :
    ((Event.atDepth d es).filterMap Event.instruction?).map (·.atPoint p) =
      [.depth d] ++ ((es.filterMap Event.instruction?).map (·.atPoint p) ++ [.depth d]) := by
  simp [atDepth, Event.instruction?, Instruction.atPoint]

theorem Event.showsPoint_atDepth (d : Nat) (es : List Event) :
    ((Event.atDepth d es).filterMap Event.instruction?).any Instruction.showsPoint =
      (es.filterMap Event.instruction?).any Instruction.showsPoint := by
  have hdepth : [Event.emit (.depth d)].filterMap Event.instruction? = [.depth d] := rfl
  rw [atDepth, ← List.singleton_append, List.filterMap_append, List.filterMap_append,
    List.any_append, List.any_append, hdepth]
  exact Bool.or_false _

section Silent

variable {filters : FilterRegistry} {s : ElementStack} {d k : Nat} {u v : Upcoming}

/-- A silent comment closes what is open at its depth. -/
theorem compileRows_silent (filters : FilterRegistry) (s : ElementStack) (d : Nat) (u : Upcoming)
    (rows : List Row) :
    compileRows filters s (.silent d u :: rows) =
      (compileRows filters (s.close d u).2 rows).map fun o =>
        (Event.atDepth d (s.close d u).1 ++ o.1, o.2) :=
  rfl

/-- The depths that a comment says are of no account to what is closed next. -/
theorem run_silent (hk : k ≤ d) (hu : Script.closesBlock u = false)
    (hv : Script.closesBlock v = true → ∀ p ∈ s.openFrom d, p.2.isBlock = false) (p : Point)
    (w : Script.Writer) (y : Nat) :
    (w.run (((Event.atDepth d (s.close d u).1).filterMap Event.instruction?).map
        (·.atPoint p))).run
      ((((s.close d u).2.close k v).1.filterMap Event.instruction?).map (·.atPoint p) ++
        [.depth y]) =
      w.run (((s.close k v).1.filterMap Event.instruction?).map (·.atPoint p) ++ [.depth y]) := by
  have hfirst := (s.alike_close hu hv).run p
  have hlast := (s.close d u).2.saysDepth_close k v p
  have hall := s.saysDepth_close k v p
  rw [(s.close_close hk u v).1, List.filterMap_append, List.map_append] at hall ⊢
  rw [Event.atPoint_atDepth]
  generalize ((s.close d u).1.filterMap Event.instruction?).map (·.atPoint p) = closed at *
  generalize ((s.close d v).1.filterMap Event.instruction?).map (·.atPoint p) = closed' at *
  generalize (((s.close d u).2.close k v).1.filterMap Event.instruction?).map (·.atPoint p) =
    later at *
  calc (w.run ([.depth d] ++ (closed ++ [.depth d]))).run (later ++ [.depth y])
      = (((w.run [.depth d]).run closed).run [.depth d]).run (later ++ [.depth y]) := by
        rw [Script.Writer.run_append w, Script.Writer.run_append _ closed]
    _ = ((w.run [.depth d]).run closed').run (later ++ [.depth y]) := by
        rw [hlast.run_depth, hfirst]
    _ = (w.run [.depth d]).run (closed' ++ later ++ [.depth y]) := by
        rw [List.append_assoc, Script.Writer.run_append _ closed']
    _ = w.run (closed' ++ later ++ [.depth y]) := hall.run_depth w d y

theorem alike_silent (hk : k ≤ d) (hu : Script.closesBlock u = false)
    (hv : Script.closesBlock v = true → ∀ p ∈ s.openFrom d, p.2.isBlock = false) :
    Event.Alike
      (Event.atDepth d (s.close d u).1 ++ Event.atDepth k ((s.close d u).2.close k v).1)
      (Event.atDepth k (s.close k v).1) := by
  constructor
  · intro p w
    have hlast := (s.close d u).2.saysDepth_close k v p
    have hall := s.saysDepth_close k v p
    rw [List.filterMap_append, List.map_append, Script.Writer.run_append,
      Event.atPoint_atDepth p k ((s.close d u).2.close k v).1, Script.Writer.run_append,
      hlast.run_depth, run_silent hk hu hv, Event.atPoint_atDepth,
      Script.Writer.run_append _ [.depth k], hall.run_depth]
  · simp only [List.filterMap_append, List.any_append, Event.showsPoint_atDepth,
      ElementStack.showsPoint_close]
    rfl

/-- A comment before a line that is not deeper than it changes nothing. -/
theorem alikeOutcome_silent (hf : filters.Steady .inCode) (hk : k ≤ d)
    (hu : Script.closesBlock u = false)
    (hv : Script.closesBlock v = true → ∀ p ∈ s.openFrom d, p.2.isBlock = false) (m : Matter)
    (rows : List Row) :
    Option.Rel AlikeOutcome (compileRows filters s (.silent d u :: .written k v m :: rows))
      (compileRows filters s (.written k v m :: rows)) := by
  have hsame := (s.close_close hk u v).2
  have hmatter := (Matter.Like.refl m).compile hf hsame.like k
  rw [compileRows_silent]
  simp only [compileRows, Row.compile]
  generalize m.compile filters ((s.close d u).2.close k v).2 k = o at *
  generalize m.compile filters (s.close k v).2 k = o' at *
  cases hmatter with
  | none => exact .none
  | @some own own' hown =>
    have hmore := like_compileRows hf hown.stack (Row.forall₂_like_refl rows)
    simp only [Option.map_some, Option.bind_some]
    generalize compileRows filters own.2 rows = q at *
    generalize compileRows filters own'.2 rows = q' at *
    cases hmore with
    | none => exact .none
    | @some more more' hrest =>
      have hevents := ((alike_silent hk hu hv).append hown.alike.events).append hrest.alike.events
      simp only [Event.atDepth, List.append_assoc, List.cons_append, List.nil_append] at hevents
      simp only [Option.map_some, Event.atDepth, List.append_assoc, List.cons_append,
        List.nil_append]
      exact .some ⟨hevents, hrest.stack⟩

/-- Nor does one that nothing follows. -/
theorem endAlike_silent (hu : Script.closesBlock u = false) :
    EndAlike (Event.atDepth d (s.close d u).1, (s.close d u).2) ([], s) := by
  constructor
  · intro u' v hu' hv p w
    have hlast := ElementStack.alike_close_of_eof (.refl (s.close d u).2) 0 hu' hv
    have hrun := run_silent (s := s) (Nat.zero_le d) hu
      (fun h => by rw [closesBlock_of_eof hv] at h; cases h) p w 0
    -- A depth that is said last is not written.
    have hbuffer := congrArg Script.Writer.buffer hrun
    rw [Script.Writer.run_append, Script.Writer.run_append w] at hbuffer
    rw [List.filterMap_append, List.map_append, Script.Writer.run_append, hlast.run p]
    exact hbuffer
  · rw [Event.showsPoint_atDepth, s.showsPoint_close]
    rfl

end Silent

/-! ### The rows of a template -/

theorem EndAlike.prepend {o o' : List Event × ElementStack} (h : EndAlike o o') (es : List Event) :
    EndAlike (es ++ o.1, o.2) (es ++ o'.1, o'.2) := by
  constructor
  · intro u v hu hv p w
    have hsplit (fs : List Event) :
        w.run (((es ++ fs).filterMap Event.instruction?).map (·.atPoint p)) =
          (w.run ((es.filterMap Event.instruction?).map (·.atPoint p))).run
            ((fs.filterMap Event.instruction?).map (·.atPoint p)) := by
      rw [List.filterMap_append, List.map_append, Script.Writer.run_append]
    rw [List.append_assoc, List.append_assoc, hsplit, hsplit, h.buffer u v hu hv p]
  · simp only [List.filterMap_append, List.any_append, h.points]

theorem EndAlike.trans_rel {x y z : Option (List Event × ElementStack)}
    (h : Option.Rel EndAlike x y) (h' : Option.Rel (OutcomesLike .inCode) y z) :
    Option.Rel EndAlike x z := by
  cases h with
  | none =>
    cases h'
    exact .none
  | some h =>
    cases h' with
    | some h' => exact .some (h.trans h'.alike.endAlike)

/-- Without the row of a comment the rows are compiled to the same, if the line below it
is not deeper and does not close a block that the comment has closed. -/
theorem endAlike_silent_between {filters : FilterRegistry} (hf : filters.Steady .inCode)
    {before rows : List Row} {d k : Nat} {u v : Upcoming} (hk : k ≤ d)
    (hu : Script.closesBlock u = false)
    (hfirst : rows = [] ∨ ∃ m more, rows = .written k v m :: more)
    (hv : Script.closesBlock v = true → ∀ o ∈ compileRows filters {} before,
      ∀ p ∈ o.2.openFrom d, p.2.isBlock = false) :
    Option.Rel EndAlike (compileRows filters {} (before ++ .silent d u :: rows))
      (compileRows filters {} (before ++ rows)) := by
  rw [compileRows_append, compileRows_append]
  cases hbefore : compileRows filters {} before with
  | none => exact .none
  | some o =>
    have hopen (hc : Script.closesBlock v = true) : ∀ p ∈ o.2.openFrom d, p.2.isBlock = false :=
      hv hc o hbefore
    have hrest : Option.Rel EndAlike (compileRows filters o.2 (.silent d u :: rows))
        (compileRows filters o.2 rows) := by
      rcases hfirst with rfl | ⟨m, more, rfl⟩
      · rw [compileRows_silent]
        simp only [compileRows, Option.map_some, List.append_nil]
        exact .some (endAlike_silent hu)
      · exact rel_imp (alikeOutcome_silent hf hk hu hopen m more) fun _ _ h => h.endAlike
    exact rel_map hrest fun _ _ h => h.prepend o.1

/-- Behind the seam there is the row of the comment, and then the same as without it. -/
theorem Lexer.AtSeam.rows_comment {b c : Text} {l l' : Lexer} {d k : Nat}
    (h : AtSeam (c ++ b) b l l') (hc : SilentComment d b c) (hb : StartsAt k b) (hk : k ≤ d) :
    (∃ e e', l.rows = .error e ∧ l'.rows = .error e') ∨
      ∃ u v rows rows', l.rows = .ok (.silent d u :: rows) ∧ l'.rows = .ok rows' ∧
        List.Forall₂ (Row.Like .inCode) rows rows' ∧ Script.closesBlock u = false ∧
        Script.closesBlock v = Script.closesBlock (ofText b).next.passSpace.upcoming ∧
        (rows = [] ∨ ∃ m more, rows = .written k v m :: more) := by
  obtain ⟨n, hreads⟩ := h.reads
  obtain ⟨heof, u, n, hrow, hu, hbehind⟩ := hreads.readRow_comment hc hb hk
  have hsame := hbehind.abreast.of_same h.second
  rw [rows_of_row heof hrow]
  rcases hsame.rows_same hbehind.1 with ⟨e, e', he, he'⟩ | ⟨rows, rows', hrows, hrows', halike⟩
  · exact .inl ⟨e, e', by rw [he]; rfl, he'⟩
  · refine .inr ⟨u, _, rows, rows', by rw [hrows]; rfl, hrows', halike, hu, ?_,
      hbehind.rows_startsAt hb hrows⟩
    exact (hbehind.abreast.passSpace rfl).closesBlock_same

namespace Template

/-- No line takes any notice of the silent comment `c` at `depth` between the lines `a` and
the text `b`, which starts at the depth `k`. -/
structure Unnoticed (depth k : Nat) (a c b : Text) : Prop where
  /-- The comment is a line, and not within something that starts before it. -/
  line : (Lexer.ofText (a ++ (c ++ b))).next.ComesTo a.byteSize
  /-- Nor is what follows it, where the comment is left out. -/
  line' : (Lexer.ofText (a ++ b)).next.ComesTo a.byteSize
  /-- It is not all that is nested in the line above it. -/
  nested : ∀ r ∈ ((Lexer.ofText (a ++ (c ++ b))).next.rowsBefore a.byteSize).1,
    r.1.passSpace.looksBelow = true → r.1.readRow.lexer.token.span.start = a.byteSize →
      depth ≤ r.1.token.depth ∨ r.1.token.depth < k
  /-- It does not keep the line below it from closing a block that ends above it. -/
  block : Script.closesBlock (Lexer.ofText b).next.passSpace.upcoming = true →
    ∀ o ∈ compileRows .builtin {}
        (((Lexer.ofText (a ++ (c ++ b))).next.rowsBefore a.byteSize).1.map Prod.snd),
      ∀ p ∈ o.2.openFrom depth, p.2.isBlock = false
  /-- It does not part a closing brace from a lone hyphen. -/
  brace : (Pattern.closingBrace b).isSome = true →
    Text.trimStart (Text.openLine (Text.trimEnd a)) ≠ ['-']

variable {a b c : Text} {depth k : Nat}

theorem endAlike_outcomes_of_unnoticed {whole rest : Template}
    (hwhole : whole.source = a ++ (c ++ b)) (hrest : rest.source = a ++ b)
    (hends : a.getLast?.all isLineBreak = true) (hbar : Unbarred a.lastLine)
    (hc : SilentComment depth b c) (hb : StartsAt k b) (hk : k ≤ depth)
    (h : Unnoticed depth k a c b) :
    Option.Rel EndAlike (whole.outcome? .builtin) (rest.outcome? .builtin) := by
  have hseam := hc.seam hb hk
  have hlevel : Lexer.Level (c ++ b) b (Lexer.ofText (a ++ (c ++ b))) (Lexer.ofText (a ++ b)) := by
    have hterminated {t : Text} (ht : (Lexer.ofText t).next.onBlankLine = false) :
        a = [] ∨ Terminated a t := by
      by_cases hne : a = []
      · exact .inl hne
      · refine .inr (terminated_of_lines hne hends hbar fun hn => ?_)
        cases not_lineBreak_of_visible ht hn
    exact ⟨_, Lexer.abreast_ofText (hterminated hseam.visible),
      Lexer.abreast_ofText (hterminated hseam.visible')⟩
  have hbrace : (Pattern.closingBrace b).isSome = (Pattern.closingBrace (c ++ b)).isSome ∨
      Text.trimStart (Text.openLine (Text.trimEnd a)) ≠ ['-'] := by
    rw [hc.closingBrace]
    cases hopen : (Pattern.closingBrace b).isSome with
    | false => exact .inl rfl
    | true => exact .inr (h.brace hopen)
  have hdepth := ((Lexer.next_reads (Lexer.ofText (c ++ b))).startsAt hc.startsAt).2
  have hdepth' := ((Lexer.next_reads (Lexer.ofText b)).startsAt hb).2
  have hrows := (hlevel.next_line rfl).rowsBefore hseam hbrace rfl (Lexer.atLine_ofText _).onToken
    (Lexer.atLine_ofText _).onToken (.inr (Lexer.column_next _)) h.line h.line'
    (by rw [hdepth, hdepth']; exact h.nested)
  simp only [outcome?, hwhole, hrest]
  rcases hrows with ⟨e, e', he, he'⟩ | ⟨hbefore, hat⟩
  · rw [he, he']
    exact .none
  · rw [Lexer.rows_eq_before a.byteSize,
      Lexer.rows_eq_before a.byteSize (Lexer.ofText (a ++ b)).next]
    rcases hat.rows_comment hc hb hk with
      ⟨e, e', he, he'⟩ | ⟨u, v, rows, rows', hrows, hrows', halike, hu, hv, hfirst⟩
    · rw [he, he']
      exact .none
    · rw [hrows, hrows']
      have hsilent := endAlike_silent_between (FilterRegistry.steady_builtin _) hk hu hfirst
        (fun hclose => h.block (hv.symm.trans hclose))
      have hsame := like_compileRows (FilterRegistry.steady_builtin .inCode) (.refl {})
        (List.rel_append hbefore halike)
      exact EndAlike.trans_rel hsilent hsame

/-- **A silent comment of which no line takes notice is invisible.** Without it the
template is refused like before, or it has the same code but for points, and altogether
the same code if that shows none. -/
theorem compile_without_comment (whole rest : Template)
    (hwhole : whole.source = a ++ (c ++ b)) (hrest : rest.source = a ++ b)
    (hends : a.getLast?.all isLineBreak = true) (hbar : Unbarred a.lastLine)
    (hc : SilentComment depth b c) (hb : StartsAt k b) (hk : k ≤ depth)
    (h : Unnoticed depth k a c b) :
    SameButForPoints .builtin whole rest ∧
      (whole.showsPoints .builtin = false →
        (whole.compile ⟨false⟩).toOption.map Compilation.code =
          (rest.compile ⟨false⟩).toOption.map Compilation.code) := by
  have houtcomes := endAlike_outcomes_of_unnoticed hwhole hrest hends hbar hc hb hk h
  have hsame := sameButForPoints_of_outcomes houtcomes
  refine ⟨hsame, fun hunseen => ?_⟩
  rw [compile, compile]
  rcases hsame with ⟨e, e', he, he'⟩ | ⟨x, x', hx, hx', -⟩
  · rw [he, he']
    rfl
  · rw [hx, hx']
    exact congrArg some (code_of_outcomes houtcomes hunseen hx hx').symm

/-- A comment with a deeper line, behind a tag within a block and before the line that
closes the block. -/
theorem compile_without_comment_in_block :
    let a : Text := "- if (x) \x7b\n  %p a\n".toList
    let c : Text := "  -# c\n    d\n".toList
    let b : Text := "- \x7d\n".toList
    let whole : Template := ⟨"a", a ++ (c ++ b)⟩
    let rest : Template := ⟨"b", a ++ b⟩
    SilentComment 1 b c ∧ StartsAt 0 b ∧ Unnoticed 1 0 a c b ∧
      Script.closesBlock (Lexer.ofText b).next.passSpace.upcoming = true ∧
      (whole.compile ⟨false⟩).isOk = true ∧ whole.showsPoints .builtin = false ∧
      SameButForPoints .builtin whole rest ∧
      (whole.compile ⟨false⟩).toOption.map Compilation.code =
        (rest.compile ⟨false⟩).toOption.map Compilation.code := by
  intro a c b whole rest
  have hc : SilentComment 1 b c :=
    .intro (w := "  ".toList) (t := " c".toList) (e := "\n".toList) (by decide) (by decide)
      (by decide) (by decide)
      (.cons (k := 2) (w := "    ".toList) (b := "d".toList) (e := "\n".toList) (by decide)
        (by decide) ⟨by decide, by decide, 'd', [], rfl, rfl⟩ (by decide) .nil)
  have hb : StartsAt 0 b :=
    .inr ⟨[], "- \x7d".toList, "\n".toList, rfl, by decide,
      ⟨by decide, by decide, '-', _, rfl, rfl⟩, afterLine_lineFeed []⟩
  have h : Unnoticed 1 0 a c b :=
    ⟨by decide +kernel, by decide +kernel, by decide +kernel, by decide +kernel, by decide +kernel⟩
  have hsame := compile_without_comment whole rest rfl rfl (by decide +kernel) (by decide +kernel)
    hc hb (by decide) h
  have hunseen : whole.showsPoints .builtin = false := by decide +kernel
  exact ⟨hc, hb, h, by decide +kernel, by decide +kernel, hunseen, hsame.1, hsame.2 hunseen⟩

/-- Comments that are noticed. They are all that is nested in a tag or in a markup comment,
part of the block of a filter or of another comment, between a block or a lone hyphen and
the line that closes it, and, behind a carriage return, part of a quoted value or between
its quotes. -/
theorem code_changed_by_comment :
    let code (t : Text) : Option Text :=
      ((⟨"a", t⟩ : Template).compile ⟨false⟩).toOption.map Compilation.code
    let Noticed (a : Text) (depth : Nat) (c b : Text) : Prop :=
      a.getLast?.all isLineBreak = true ∧ Unbarred a.lastLine ∧ SilentComment depth b c ∧
        StartsAt 0 b ∧ (⟨"a", a ++ (c ++ b)⟩ : Template).showsPoints .builtin = false ∧
        code (a ++ (c ++ b)) ≠ code (a ++ b)
    Noticed "%br\n".toList 1 "  -# c\n".toList [] ∧
      Noticed "/ a\n".toList 1 "  -# c\n".toList [] ∧
      Noticed ":plain\n".toList 1 "  -# c\n".toList [] ∧
      Noticed "-# a\n\n".toList 1 "  -# c\n".toList "%p\n".toList ∧
      Noticed "- if (x) \x7b\n  %p\n".toList 0 "-# c\n".toList "- \x7d\n".toList ∧
      Noticed "- if (x) \x7b\n-\n".toList 0 "-# c\n".toList "\x7d\n".toList ∧
      Noticed "%p(x='\r".toList 0 "-# c')\n".toList [] ∧
      Noticed "%p(x='\r".toList 0 "-# c\n".toList "')\n".toList := by
  intro code Noticed
  have hcomment {a w t b : Text} {depth : Nat}
      (hc : Lexer.Indents depth w ∧ OneLine t ∧ Unbarred t) (hb : StartsAt 0 b)
      (ha : a.getLast?.all isLineBreak = true ∧ Unbarred a.lastLine)
      (h : (⟨"a", a ++ (w ++ ('-' :: '#' :: t ++ ['\n']) ++ b)⟩ : Template).showsPoints .builtin =
          false ∧
        code (a ++ (w ++ ('-' :: '#' :: t ++ ['\n']) ++ b)) ≠ code (a ++ b)) :
      Noticed a depth (w ++ ('-' :: '#' :: t ++ ['\n'])) b :=
    ⟨ha.1, ha.2, .intro (e := ['\n']) hc.1 hc.2.1 hc.2.2 (.inl (by simp [Pattern.lineEnd]))
      (DeeperLines.nil : DeeperLines depth b []), hb, h⟩
  have hend : StartsAt 0 [] := .inl ⟨rfl, rfl⟩
  have hline {c : Char} {t : Text} (h : OneLine (c :: t) ∧ Unbarred (c :: t) ∧ isIndent c = false) :
      StartsAt 0 (c :: t ++ ['\n']) :=
    .inr ⟨[], c :: t, ['\n'], rfl, by decide, ⟨h.1, h.2.1, c, t, rfl, h.2.2⟩, afterLine_lineFeed []⟩
  exact ⟨hcomment (w := "  ".toList) (t := " c".toList) (by decide) hend (by decide)
      (by decide +kernel),
    hcomment (w := "  ".toList) (t := " c".toList) (by decide) hend (by decide)
      (by decide +kernel),
    hcomment (w := "  ".toList) (t := " c".toList) (by decide) hend (by decide)
      (by decide +kernel),
    hcomment (w := "  ".toList) (t := " c".toList) (by decide) (hline (t := "p".toList) (by decide))
      (by decide) (by decide +kernel),
    hcomment (w := []) (t := " c".toList) (by decide) (hline (t := " \x7d".toList) (by decide))
      (by decide) (by decide +kernel),
    hcomment (w := []) (t := " c".toList) (by decide) (hline (t := []) (by decide)) (by decide)
      (by decide +kernel),
    hcomment (w := []) (t := " c')".toList) (by decide) hend (by decide) (by decide +kernel),
    hcomment (w := []) (t := " c".toList) (by decide) (hline (t := ")".toList) (by decide))
      (by decide) (by decide +kernel)⟩

end Template

end Haml
