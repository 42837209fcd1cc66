import Haml.Proofs.CodeLines

/-!
# Template lines are read as such

The rest of a line is only ever taken where template lines are read, and it ends on a
token that ends the line. In an attribute list or hash neither would hold: there a
closing bar is a token like any other.

That nothing takes the rest of a line elsewhere is said by compiling with a way to take
lines that would give up there: it never does, and the step of the line is the same.
-/

namespace Haml

namespace Text

theorem exists_dropEndWhile (p : Char → Bool) (t : Text) :
    ∃ b, t = dropEndWhile p t ++ b ∧ ∀ c ∈ b, p c = true := by
  refine ⟨(t.reverse.takeWhile p).reverse, ?_, ?_⟩
  · rw [dropEndWhile, ← List.reverse_append, List.takeWhile_append_dropWhile, List.reverse_reverse]
  · intro c hc
    exact List.mem_takeWhile_imp (List.mem_reverse.1 hc)

end Text

/-- Behind the text before a closing bar stand the bar, blanks and a line end. -/
theorem continued?_split {t segment : Text} (h : continued? t = some segment) :
    ∃ b e r, t = segment ++ '|' :: (b ++ (e ++ r)) ∧ (∀ a ∈ b, isIndent a = true) ∧
      Pattern.lineEnd (e ++ r) = some e := by
  simp only [continued?] at h
  split at h
  · rename_i hbar
    cases h
    obtain ⟨hlast, hlt⟩ := hbar
    obtain ⟨b, hline, hb⟩ := Text.exists_dropEndWhile isIndent
      (t.takeWhile fun c => !isLineBreak c)
    have ht : t = (t.takeWhile fun c => !isLineBreak c) ++ t.dropWhile fun c => !isLineBreak c :=
      List.takeWhile_append_dropWhile.symm
    have hkept := List.dropLast_append_getLast? _ hlast
    cases hrest : t.dropWhile fun c => !isLineBreak c with
    | nil =>
      rw [hrest, List.append_nil] at ht
      rw [← ht] at hlt
      exact absurd hlt (Nat.lt_irrefl _)
    | cons c u =>
      have hc : ¬isLineBreak c = false := by
        have hc := List.head?_dropWhile_not (fun c => !isLineBreak c) t
        rw [hrest] at hc
        simpa using hc
      obtain ⟨e, he⟩ := Option.ne_none_iff_exists'.1 (mt Pattern.lineEnd_eq_none.1 hc :
        Pattern.lineEnd (c :: u) ≠ none)
      obtain ⟨r, hr, -⟩ := Pattern.cuts_lineEnd _ _ he
      refine ⟨b, e, r, ?_, hb, hr ▸ he⟩
      conv_lhs => rw [ht, hrest, hline, ← hkept, hr]
      simp
  · cases h

/-- A bar at the end of a line is read as a continuation, up to the end of the line. -/
theorem Lexeme.read?_bar {b e r : Text} (hb : ∀ a ∈ b, isIndent a = true)
    (he : Pattern.lineEnd (e ++ r) = some e) :
    read? .line ('|' :: (b ++ (e ++ r))) =
      some ⟨.continuation, '|' :: (b ++ e), '|' :: (b ++ e)⟩ := by
  have hblanks : (b ++ (e ++ r)).takeWhile isIndent = b := by
    rw [List.takeWhile_append_of_pos hb]
    cases hr : e ++ r with
    | nil =>
      rw [hr] at he
      cases he
    | cons c u =>
      have hc : isLineBreak c = true := by
        by_contra hc
        rw [hr, Pattern.lineEnd_eq_none.2 (by simpa using hc)] at he
        cases he
      simp [isIndent_eq_false (p := isLineBreak) rfl rfl hc]
  have hbar : signed ['|'] (Pattern.andThen (Pattern.many isIndent) Pattern.lineEnd)
      ('|' :: (b ++ (e ++ r))) = some ('|' :: (b ++ e)) := by
    rw [signed_cons]
    simp [Pattern.andThen, Pattern.many, hblanks, he]
  have hend : Pattern.lineEnd ('|' :: (b ++ (e ++ r))) = none := Pattern.lineEnd_eq_none.2 rfl
  simp [read?, rules, commonRules, lineRules, Rule.read?, hend, hbar, Pattern.many1,
    Pattern.headed, isIndent, Cut.apply]

namespace Lexer

variable {l : Lexer}

theorem kind_skip_segment {segment : Text} (hm : l.mode = .line)
    (hs : continued? l.rest = some segment) : (l.skip segment).next.kind = .continuation := by
  obtain ⟨b, e, r, hr, hb, he⟩ := continued?_split hs
  have hrest : (l.skip segment).rest = '|' :: (b ++ (e ++ r)) := rest_skip hr fun h => by cases h.2
  have hmode : (l.skip segment).mode = .line := hm
  have hread := Lexeme.read?_bar hb he
  rw [← hrest, ← hmode] at hread
  obtain ⟨_, -, -, hk, -⟩ := next_of_read? hread
  exact hk

theorem endsLine_takeContinued {segment : Text} (hm : l.mode = .line)
    (hs : continued? l.rest = some segment) : (l.takeContinued segment).2.endsLine = true := by
  fun_induction takeContinued l segment with
  | case1 l segment l' _ more hmore r ih => exact ih hm hmore
  | case2 l segment l' hk => rw [endsLine, hk]; rfl
  | case3 l segment l' hk => exact absurd (kind_skip_segment hm hs) hk

/-- Behind the characters of a line stands its end. -/
theorem endsLine_skip_line (l : Lexer) :
    (l.skip (l.rest.takeWhile fun c => !isLineBreak c)).next.endsLine = true := by
  obtain ⟨u, hu, hs⟩ := (oneLine_takeWhile l.rest).cutOff (List.takeWhile_prefix _)
  have hrest := rest_skip hu hs
  have hdrop : u = l.rest.dropWhile fun c => !isLineBreak c :=
    List.append_cancel_left (hu.symm.trans List.takeWhile_append_dropWhile.symm)
  cases u with
  | nil =>
    rw [endsLine, kind_next_of_rest_nil hrest]
    rfl
  | cons c u =>
    have hbreak : isLineBreak c = true := by
      have h := List.head?_dropWhile_not (fun c => !isLineBreak c) l.rest
      rw [← hdrop] at h
      simpa using h
    obtain ⟨m, hm, -⟩ := Lexeme.read?_lineBreak hbreak
      (l.skip (l.rest.takeWhile fun c => !isLineBreak c)).mode u
    rw [← hrest] at hm
    obtain ⟨_, -, -, hk, -⟩ := next_of_read? hm
    rw [endsLine, hk]
    rfl

/-- The rest of a template line ends on a token that ends the line. -/
theorem endsLine_takeLine (hm : l.mode = .line) : l.takeLine.2.endsLine = true := by
  cases hl : l.endsLine with
  | true => rw [takeLine_of_endsLine hl, hl]
  | false =>
    simp only [takeLine, hl, Bool.false_eq_true, if_false]
    split
    · rename_i hs
      exact endsLine_takeContinued hm hs
    · exact endsLine_skip_line l

/-- Where a line is taken as a template line, it is found to end with its contents. -/
theorem endsLine_takeBody (hm : l.mode = .line) : l.takeBody.2.endsLine = true := by
  rw [takeBody_eq]
  split
  · exact endsLine_takeLine (l := l.next) hm
  · split
    · exact endsLine_takeLine ((reaches_passSpace l.next).mode hm)
    · exact endsLine_takeLine hm

/-- The check for the line end is passed by the contents of a template line. -/
theorem exists_endContents (hm : l.mode = .line) (inner : Bool) :
    ∃ l', l.takeBody.2.endContents inner l.takeBody.1 = .ok l' := by
  have hend := endsLine_takeBody hm
  cases l.takeBody.1 with
  | expression => exact ⟨_, rfl⟩
  | text => exact ⟨_, if_pos hend⟩

/-! ### Taking lines as template lines only -/

/-- The rest of the logical line, unless the lexer is within a list or a hash. -/
def takeLine? : LineTaker Option := fun l => if l.mode = .line then some (takeAnyLine l) else none

theorem takeLine?_of_line (hm : l.mode = .line) : takeLine? l = some ⟨l.takeLine, rfl⟩ := if_pos hm

theorem takeDeeperLinesM_takeLine? (hm : l.mode = .line) (depth : Nat) :
    l.takeDeeperLinesM takeLine? depth = some (l.takeDeeperLines depth) := by
  induction l using takeDeeperLines_induction depth with
  | gap l hb hd heq ih =>
    have hmode : l.passSpace.passLineEnd.mode = .line :=
      ((reaches_passSpace l).trans (reaches_passLineEnd _)).mode hm
    rw [takeDeeperLinesM, dif_pos hb, if_pos hd, ih hmode, heq]
    rfl
  | below l hb hd heq =>
    rw [takeDeeperLinesM, dif_pos hb, if_neg hd, heq]
    rfl
  | deeper l hb hd heq ih =>
    have htail : l.takeLine.2.passLineEnd.takeDeeperLinesM takeLine? depth =
        some (l.passLine.takeDeeperLines depth) := ih ((reaches_passLine l).mode hm)
    rw [takeDeeperLinesM, dif_neg hb, dif_pos hd, takeLine?_of_line hm, heq]
    simp only [Option.bind_eq_bind, Option.bind_some, htail]
    rfl
  | outside l hb hd heq =>
    rw [takeDeeperLinesM, dif_neg hb, dif_neg hd, heq]
    rfl

theorem takeBlockM_takeLine? (hm : l.mode = .line) (depth : Nat) :
    l.takeBlockM takeLine? depth = some (l.takeBlock depth) := by
  rw [takeBlockM, takeLine?_of_line hm]
  exact takeDeeperLinesM_takeLine? ((reaches_passLine l).mode hm) depth

theorem passDeeperLinesM_takeLine? (hm : l.mode = .line) (depth : Nat) :
    l.passDeeperLinesM takeLine? depth = some (l.passDeeperLines depth) := by
  induction l using passDeeperLines_induction depth with
  | ended l hk heq =>
    rw [passDeeperLinesM, if_pos hk, heq]
    rfl
  | stopped l hk hs heq =>
    rw [passDeeperLinesM, if_neg hk, dif_pos hs, heq]
    split
    · split <;> rfl
    · rfl
  | deeper l hk hs heq ih =>
    have hmode := (reaches_passSpace l).mode hm
    rw [passDeeperLinesM, if_neg hk, dif_neg hs, takeLine?_of_line hmode, heq]
    exact ih ((reaches_passLine _).mode hmode)

/-- Recovering from a fault starts with the way back to template lines. -/
theorem recoverM_takeLine? (l : Lexer) (depth : Nat) :
    l.recoverM takeLine? depth = some (l.recover depth) := by
  rw [recoverM, takeLine?_of_line rfl]
  exact passDeeperLinesM_takeLine? ((reaches_passLine (l.inMode .line)).mode rfl) depth

theorem takeBodyM_takeLine? (hm : l.mode = .line) :
    l.takeBodyM takeLine? = some l.takeBody := by
  have hnext : l.next.mode = .line := hm
  have hspace := (reaches_passSpace l.next).mode hm
  rw [takeBodyM, takeBody_eq]
  split
  · rw [takeLine?_of_line hnext]
    rfl
  · split
    · rw [takeLine?_of_line hspace]
      rfl
    · rw [takeLine?_of_line hm]
      rfl

theorem directive?_takeLine? (hm : l.mode = .line) (depth : Nat) :
    l.directive? takeLine? depth =
      (l.directive? takeAnyLine depth).map fun read => some read.run := by
  have hnext : l.next.mode = .line := hm
  have hspace := (reaches_passSpace l.next).mode hm
  simp only [directive?]
  split
  · rw [takeLine?_of_line hspace]
    rfl
  · rw [takeLine?_of_line hnext]
    rfl
  · rw [takeBlockM_takeLine? hm]
    rfl
  · rw [takeLine?_of_line hnext]
    rfl
  · rw [takeLine?_of_line hspace]
    rfl
  · split
    · rw [takeLine?_of_line hnext]
      rfl
    · rfl

end Lexer

namespace Context

open Lexer

variable {l : Lexer}

theorem filterStepM_takeLine? (ctx : Context) (stack : ElementStack) (hm : l.mode = .line)
    (depth : Nat) :
    ctx.filterStepM takeLine? stack l depth = some (ctx.filterStep stack l depth) := by
  rw [filterStepM, filterStep_eq]
  split
  · rfl
  · simp only [takeBlockM_takeLine? hm, Option.bind_eq_bind, Option.bind_some]
    split
    · rfl
    · split <;> rfl

theorem contentsStepM_takeLine? (stack : ElementStack) (hm : l.mode = .line) (inner : Bool)
    (write : Contents → List Instruction) :
    contentsStepM takeLine? stack l inner write = some (contentsStep stack l inner write) := by
  rw [contentsStepM, contentsStep_eq, takeBodyM_takeLine? ((reaches_passSpace l).mode hm)]
  simp only [Option.bind_eq_bind, Option.bind_some]
  split <;> rfl

theorem lineStepM_takeLine? (stack : ElementStack) (hm : l.mode = .line) (depth : Nat) :
    lineStepM takeLine? stack l depth = some (lineStep stack l depth) := by
  rw [lineStepM, lineStep_eq, directive?_takeLine? hm]
  cases l.directive? takeAnyLine depth with
  | some read => rfl
  | none =>
    simp only [Option.map_none]
    by_cases ht : l.startsTag
    · have htag := (advances_readTag ht depth).mode hm
      simp only [ht, if_true, tagStepM]
      cases (l.readTag depth).value with
      | error d => rfl
      | ok head =>
        simp only [contentsStepM_takeLine? _ htag, Option.bind_eq_bind, Option.bind_some]
        rfl
    · simp only [ht]
      exact contentsStepM_takeLine? stack hm true _

theorem ownStepM_takeLine? (ctx : Context) (stack : ElementStack) (hm : l.mode = .line)
    (depth : Nat) :
    ctx.ownStepM takeLine? stack l depth = some (ctx.ownStep stack l depth) := by
  rw [ownStepM, ownStep_eq]
  split
  · exact ctx.filterStepM_takeLine? stack hm depth
  · exact lineStepM_takeLine? stack hm depth

theorem constructM_takeLine? (ctx : Context) (stack : ElementStack) (hm : l.mode = .line)
    (depth : Nat) :
    ctx.constructM takeLine? stack l depth = some (ctx.construct stack l depth) := by
  rw [constructM, construct_eq]
  split
  · rfl
  · split
    · rfl
    · simp only [ctx.ownStepM_takeLine? _ hm, Option.bind_eq_bind, Option.bind_some]
      rfl

theorem indentedLineM_takeLine? (ctx : Context) (stack : ElementStack) (hm : l.mode = .line) :
    ctx.indentedLineM takeLine? stack l = some (ctx.indentedLine stack l) := by
  rw [indentedLineM, indentedLine_eq,
    ctx.constructM_takeLine? stack ((reaches_passSpace l).mode hm)]
  simp only [Option.bind_eq_bind, Option.bind_some]
  split
  · rfl
  · split
    · rw [recoverM_takeLine?]
      simp only [Option.bind_some]
      split <;> rfl
    · rfl

/-- Where template lines are read, a line is compiled without taking anything else for one. -/
theorem stepM_takeLine? (ctx : Context) (stack : ElementStack) (hm : l.mode = .line) :
    ctx.stepM takeLine? stack l = some (ctx.step stack l) := by
  rw [stepM, step_eq]
  split
  · rfl
  · exact ctx.indentedLineM_takeLine? stack hm

/-! ### The check for the line end -/

/-- When the contents of a template line are written, the line is found to end with them. -/
theorem fault_contentsStep (stack : ElementStack) (hm : l.mode = .line) (inner : Bool)
    (write : Contents → List Instruction) : (contentsStep stack l inner write).fault = none := by
  obtain ⟨l', hl'⟩ := exists_endContents ((reaches_passSpace l).mode hm) inner
  simp only [contentsStep_eq, hl']

/-- A template line can be refused at one place only: in its tag, before the element is opened
and the contents are written. -/
theorem lineStep_of_fault {stack : ElementStack} {depth : Nat} {d : Diagnostic}
    (hm : l.mode = .line) (hd : (lineStep stack l depth).fault = some d) :
    l.startsTag = true ∧ (l.readTag depth).value = .error d ∧
      lineStep stack l depth =
        { events := (l.readTag depth).probes.map fun p => .emit (.scanned p)
          stack := stack
          lexer := (l.readTag depth).lexer
          fault := some d } := by
  rw [lineStep_eq] at hd ⊢
  cases hdir : l.directive? takeAnyLine depth with
  | some read =>
    simp only [hdir] at hd
    cases hd
  | none =>
    by_cases ht : l.startsTag
    · simp only [hdir, ht, if_true] at hd ⊢
      cases htag : (l.readTag depth).value with
      | error e =>
        simp only [htag] at hd ⊢
        cases hd
        exact ⟨trivial, rfl, rfl⟩
      | ok head =>
        simp only [htag] at hd
        rw [fault_contentsStep _ ((advances_readTag ht depth).mode hm)] at hd
        cases hd
    · simp only [hdir, ht] at hd
      rw [if_neg Bool.false_ne_true, fault_contentsStep stack hm] at hd
      cases hd

theorem lineStep_of_error {stack : ElementStack} {depth : Nat} {d : Diagnostic}
    (hm : l.mode = .line) (hv : (l.readLine depth).value = .error d) :
    lineStep stack l depth =
      { events := (l.readLine depth).probes.map fun p => .emit (.scanned p)
        stack := stack
        lexer := (l.readLine depth).lexer
        fault := some d } := by
  have hfault : (lineStep stack l depth).fault = some d := fault_lineStep_of_error hv
  obtain ⟨ht, htag, hstep⟩ := lineStep_of_fault hm hfault
  rw [hstep, readLine_refused ht htag]

end Context

end Haml
