import Haml.Proofs.Moves
import Haml.Proofs.Tolerance

/-!
# Termination

Each step of a run that does not end it moves the lexer off its token, so the
token it goes on with starts further on in the source. Every loop inside a step
makes no more moves than there is left to read.
-/

namespace Haml

namespace Context

variable {ctx : Context} {stack stack' : ElementStack} {l l' : Lexer} {events : List Event}

/-- A line is compiled past its first token, or its first token names an unknown
filter. -/
theorem advances_construct (ctx : Context) (stack : ElementStack) (depth : Nat)
    (h : l.endsLine = false) :
    l.Advances (ctx.construct stack l depth).lexer ∨
      ((ctx.construct stack l depth).lexer = l ∧
        (ctx.construct stack l depth).fault.isSome) := by
  rw [construct_of_written h]
  simp only [ownStep_eq]
  split
  · simp only [filterStep_eq]
    split
    · exact .inr ⟨rfl, rfl⟩
    · have ht := Lexer.advances_takeBlock h depth
      left
      split
      · exact ht
      · split <;> exact ht
  · have hr := Lexer.advances_readLine h depth
    left
    simp only [lexer_lineStep]
    exact hr

/-- Behind the indentation of a blank line the lexer goes on to the next line. -/
theorem reaches_construct_of_blank (ctx : Context) (stack : ElementStack) (depth : Nat)
    (h : l.endsLine = true) :
    l.Reaches (ctx.construct stack l depth).lexer ∧ (ctx.construct stack l depth).fault = none := by
  simp only [construct_eq]
  split
  · exact ⟨.refl l, rfl⟩
  · rename_i hk
    have hb : l.kind.breaksLine := by
      cases hk' : l.kind <;>
        simp_all [Lexer.endsLine, Token.Kind.endsLine, Token.Kind.breaksLine]
    rw [if_pos hb]
    exact ⟨(Lexer.advances_next hk).reaches, rfl⟩

/-- Where a line leaves the lexer that was compiled without a fault, or passed over. -/
theorem lexer_indentedLine (hf : (ctx.indentedLine stack l).fault = none) :
    let s := ctx.construct stack l.passSpace l.token.depth
    (s.fault = none ∧ (ctx.indentedLine stack l).lexer = s.lexer) ∨
      (s.fault.isSome ∧ s.lexer.recover l.token.depth = .ok (ctx.indentedLine stack l).lexer) := by
  simp only [indentedLine_eq] at hf ⊢
  cases hs : (ctx.construct stack l.passSpace l.token.depth).fault with
  | none => exact .inl ⟨rfl, rfl⟩
  | some d =>
    right
    refine ⟨rfl, ?_⟩
    simp only [hs] at hf ⊢
    split at hf
    · rename_i ht
      rw [if_pos ht]
      split at hf
      · rename_i l' hr
        exact hr
      · cases hf
    · cases hf

/-- A line that is compiled without a fault, or passed over, is left behind. -/
theorem advances_step (ctx : Context) (stack : ElementStack) (hl : l.kind ≠ .eof)
    (hf : (ctx.step stack l).fault = none) : l.Advances (ctx.step stack l).lexer := by
  cases hb : l.kind.breaksLine with
  | true =>
    simp only [step_eq, hb, if_true]
    exact Lexer.advances_next hl
  | false =>
    simp only [step_eq, hb, Bool.false_eq_true, if_false] at hf ⊢
    have hline := lexer_indentedLine hf
    cases he : l.passSpace.endsLine with
    | true =>
      have hs : l.kind = .space := by
        by_contra hs
        have hp : l.passSpace = l := if_neg hs
        rw [hp] at he
        cases hk : l.kind <;>
          simp_all [Lexer.endsLine, Token.Kind.endsLine, Token.Kind.breaksLine]
      have hp : l.passSpace = l.next := if_pos hs
      obtain ⟨hreach, hok⟩ := reaches_construct_of_blank ctx stack l.token.depth he
      rcases hline with ⟨-, hlexer⟩ | ⟨hsome, -⟩
      · rw [hlexer]
        rw [hp] at hreach ⊢
        exact (Lexer.advances_next hl).trans hreach
      · simp [hok] at hsome
    | false =>
      have hspace := Lexer.reaches_passSpace l
      have hc := advances_construct ctx stack l.token.depth he
      rcases hline with ⟨hok, hlexer⟩ | ⟨-, hrecover⟩
      · rw [hlexer]
        exact hspace.advances (hc.resolve_right fun h => by simp [hok] at h)
      · rcases hc with hc | ⟨hsame, -⟩
        · exact hspace.advances (hc.trans (Lexer.reaches_recover hrecover))
        · rw [hsame] at hrecover
          exact hspace.advances (Lexer.advances_recover he hrecover)

/-- A tolerant step has no fault. -/
theorem fault_step_tolerant (h : ctx.tolerant = true) (stack : ElementStack) (l : Lexer) :
    (ctx.step stack l).fault = none := by
  obtain ⟨tolerant, filters⟩ := ctx
  obtain rfl : tolerant = true := h
  cases hs : (step ⟨false, filters⟩ stack l).fault with
  | none => rw [step_tolerant_of_ok filters stack l hs, hs]
  | some d => exact (step_tolerant_of_fault filters stack l hs).1

theorem Steps.reaches (h : ctx.Steps stack l events stack' l') : l.Reaches l' := by
  induction h with
  | refl _ l => exact .refl l
  | head hl hf _ ih => exact (advances_step ctx _ hl hf).reaches.trans ih

end Context

/-- Every loop inside a line ends, from wherever it is entered: after no more moves
than there is left to read. -/
structure Lexer.LoopsEnd (l : Lexer) : Prop where
  takeLine : l.Reaches l.takeLine.2
  takeBlock (depth : Nat) : l.Reaches (l.takeBlock depth).2
  /-- Whether the block goes on is decided at a place that is reached. -/
  deeperLineFollows (depth : Nat) : ∃ l', l.Reaches l' ∧ l.deeperLineFollows depth =
    (l'.kind = .space && !l'.next.endsLine && depth < l'.token.depth : Bool)
  passDeeperLines (depth : Nat) : ∃ l', l.passDeeperLines depth = .ok l' ∧ l.Reaches l'
  readSelectors : l.Reaches l.readSelectors.2
  readAttributeList : l.Reaches l.readAttributeList.lexer
  readAttributeHash : l.Reaches l.readAttributeHash.lexer
  readExpression : l.Reaches l.readExpression.2
  readMarks : l.Reaches l.readMarks.2

theorem Lexer.loopsEnd (l : Lexer) : l.LoopsEnd where
  takeLine := reaches_takeLine l
  takeBlock := reaches_takeBlock l
  deeperLineFollows := exists_deeperLineFollows l
  passDeeperLines depth := by
    obtain ⟨l', h⟩ := exists_passDeeperLines l depth
    exact ⟨l', h, reaches_passDeeperLines h⟩
  readSelectors := reaches_readSelectors l
  readAttributeList := reaches_readAttributeList l
  readAttributeHash := reaches_readAttributeHash l
  readExpression := reaches_readExpression l
  readMarks := reaches_readMarks l

/-- Every run comes to the end of its source, or to a fault that is not tolerated.
Each step but such a last one leaves the lexer on a token that starts further on,
also if the line was faulty and passed over, and every loop inside a step ends. -/
theorem Context.run_terminates (ctx : Context) (source : Text) :
    (∃ events stack l, ctx.Steps {} (Lexer.ofText source).next events stack l ∧
      (l.kind = .eof ∨ ctx.tolerant = false ∧ (ctx.step stack l).fault.isSome)) ∧
    (∀ events stack l, ctx.Steps {} (Lexer.ofText source).next events stack l → l.kind ≠ .eof →
      l.token.span.start < (ctx.step stack l).lexer.token.span.start ∨
        ctx.tolerant = false ∧ (ctx.step stack l).fault.isSome) ∧
    ∀ l : Lexer, l.LoopsEnd := by
  have hstrict {stack : ElementStack} {l : Lexer} (h : (ctx.step stack l).fault.isSome) :
      ctx.tolerant = false := by
    by_contra ht
    rw [fault_step_tolerant (by simpa using ht)] at h
    cases h
  refine ⟨?_, ?_, Lexer.loopsEnd⟩
  · obtain ⟨events, stack, l, h, hend⟩ := exists_steps ctx {} (Lexer.ofText source).next
    exact ⟨events, stack, l, h, hend.imp_right fun hf => ⟨hstrict hf, hf⟩⟩
  · intro events stack l h hl
    cases hf : (ctx.step stack l).fault with
    | none =>
      have hbehind := h.reaches.behindStart (Lexer.behindStart_next _)
      exact .inl ((advances_step ctx stack hl hf).start_lt hbehind hl)
    | some d => exact .inr ⟨hstrict (by rw [hf]; rfl), rfl⟩

/-- The line of an unknown filter is passed over with its block. -/
theorem Context.run_terminates_past_fault :
    let l := (Lexer.ofText ":no\n  x\n%p\n").next
    let s := Context.step ⟨true, .builtin⟩ {} l
    l.kind ≠ .eof ∧ s.events.filterMap Event.diagnostic? ≠ [] ∧
      l.token.span.start < s.lexer.token.span.start := by
  have hl : (Lexer.ofText ":no\n  x\n%p\n").next.kind ≠ .eof := by decide
  refine ⟨hl, by decide +kernel, ?_⟩
  have h := (run_terminates ⟨true, .builtin⟩ ":no\n  x\n%p\n").2.1 _ _ _ (.refl _ _) hl
  exact h.resolve_right (by simp)

end Haml
