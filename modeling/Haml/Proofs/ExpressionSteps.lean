import Haml.Expression
import Haml.Proofs.CursorPlace
import Haml.Proofs.LineTokens

/-!
# Expressions step by step

Reading an expression takes one character after the other. Only a backslash in a quote
looks at what follows it; any other character goes with the expression or ends it
whatever stands behind.
-/

namespace Haml.Expression

/-- Outside of quotes the next character decides. -/
theorem scan_cons (closers : Text) (c : Char) (t : Text) :
    scan closers none (c :: t) =
      if isQuote c then (scan closers (some c) t).push [c]
      else
        match closer? c with
        | some d => (scan (d :: closers) none t).push [c]
        | none =>
          if isCloser c then
            match closers with
            | [] => if c = '\x7d' then stopped [] none else ⟨[], .unbalanced⟩
            | d :: outer => if c = d then (scan outer none t).push [c] else ⟨[], .unbalanced⟩
          else if isLineBreak c || (c == ',' && closers.isEmpty) then stopped closers none
          else (scan closers none t).push [c] := by
  cases closers <;> cases hd : closer? c <;> simp only [scan, hd]

/-- In a quote any character but a backslash decides. -/
theorem scan_quoted (closers : Text) (q : Char) {c : Char} (hc : c ≠ '\\') (t : Text) :
    scan closers (some q) (c :: t) =
      if isLineBreak c then stopped closers (some q)
      else (scan closers (if c = q then none else some q) t).push [c] := by
  rw [scan]
  · exact fun _ hs => absurd hs hc
  · exact fun _ _ hs => absurd hs hc

/-- In a quote a backslash hides the character behind it. -/
theorem scan_hidden (closers : Text) (q : Char) {c : Char} {t : Text} (h : Unsplit ['\\', c] t) :
    scan closers (some q) ('\\' :: c :: t) = (scan closers (some q) t).push ['\\', c] := by
  rw [scan]
  rintro u rfl rfl
  exact h ⟨rfl, rfl⟩

/-- A backslash that nothing follows hides nothing. -/
theorem scan_backslash (closers : Text) (q : Char) :
    scan closers (some q) ['\\'] =
      (stopped closers (if '\\' = q then none else some q)).push ['\\'] := by
  simp only [scan]
  rfl

/-- What a character does behind the brackets and the quote that are open, whatever
follows it. -/
inductive Step (closers : Text) (quote : Option Char) (c : Char) : Prop where
  | halts (ending : Ending) (h : ∀ t, scan closers quote (c :: t) = ⟨[], ending⟩)
  | reads (closers' : Text) (quote' : Option Char) (hc : isLineBreak c = false)
      (hq : quote ≠ some '\\' → quote' ≠ some '\\')
      (h : ∀ t, scan closers quote (c :: t) = (scan closers' quote' t).push [c])

theorem step_quoted (closers : Text) (q : Char) {c : Char} (hc : c ≠ '\\') :
    Step closers (some q) c := by
  cases hb : isLineBreak c with
  | true => exact .halts _ fun t => by rw [scan_quoted closers q hc, hb]; rfl
  | false =>
    refine .reads closers (if c = q then none else some q) hb (fun hq => ?_) fun t => ?_
    · split
      · simp
      · exact hq
    · rw [scan_quoted closers q hc, hb]
      rfl

theorem step_code (closers : Text) (c : Char) : Step closers none c := by
  cases hq : isQuote c with
  | true =>
    refine .reads closers (some c) (isLineBreak_eq_false (p := isQuote) rfl rfl hq) (fun _ => ?_)
      fun t => by rw [scan_cons, if_pos hq]
    rintro ⟨⟩
    cases hq
  | false =>
    cases hd : closer? c with
    | some d =>
      have hb := isLineBreak_eq_false (p := fun c => (closer? c).isSome) (c := c) rfl rfl
        (by rw [hd]; rfl)
      exact .reads (d :: closers) none hb id fun t => by simp [scan_cons, hq, hd]
    | none =>
      cases hcl : isCloser c with
      | true =>
        have hb := isLineBreak_eq_false (p := isCloser) rfl rfl hcl
        cases closers with
        | nil =>
          refine .halts (if c = '\x7d' then .complete else .unbalanced) fun t => ?_
          simp only [scan_cons, hq, hd, hcl, Bool.false_eq_true, if_false, if_true]
          split <;> rfl
        | cons d outer =>
          by_cases hc : c = d
          · subst hc
            exact .reads outer none hb id fun t => by simp [scan_cons, hq, hd, hcl]
          · exact .halts .unbalanced fun t => by simp [scan_cons, hq, hd, hcl, hc]
      | false =>
        by_cases hs : isLineBreak c || (c == ',' && closers.isEmpty)
        · exact .halts _ fun t => by simp only [scan_cons, hq, hd, hcl, hs]; rfl
        · have hb : isLineBreak c = false := by
            cases hb : isLineBreak c with
            | false => rfl
            | true => simp [hb] at hs
          exact .reads closers none hb id fun t => by simp only [scan_cons, hq, hd, hcl, hs]; rfl

/-- Every line end halts reading, unless a backslash hides it. -/
theorem scan_lineBreak (closers : Text) (quote : Option Char) {c : Char}
    (hc : isLineBreak c = true) (t : Text) :
    scan closers quote (c :: t) = stopped closers quote := by
  have hn : c = '\n' ∨ c = '\r' := by simpa [isLineBreak] using hc
  cases quote with
  | some q =>
    rw [scan_quoted closers q (by rintro rfl; cases hc), if_pos hc]
  | none => rcases hn with rfl | rfl <;> rfl

/-- Induction along an expression, by what each character does. -/
@[elab_as_elim]
theorem scan_induction {motive : Text → Option Char → Text → Prop}
    (nil : ∀ closers quote, motive closers quote [])
    (lineEnd : ∀ closers q t, motive closers (some q) t →
      motive closers (some q) ('\\' :: '\r' :: '\n' :: t))
    (hidden : ∀ closers q c t, Unsplit ['\\', c] t → motive closers (some q) t →
      motive closers (some q) ('\\' :: c :: t))
    (backslash : ∀ closers q, motive closers (some q) ['\\'])
    (halts : ∀ closers quote c t ending, (∀ u, scan closers quote (c :: u) = ⟨[], ending⟩) →
      motive closers quote (c :: t))
    (reads : ∀ closers quote c t closers' quote', isLineBreak c = false →
      (quote ≠ some '\\' → quote' ≠ some '\\') →
      (∀ u, scan closers quote (c :: u) = (scan closers' quote' u).push [c]) →
      motive closers' quote' t → motive closers quote (c :: t))
    (closers : Text) (quote : Option Char) (t : Text) : motive closers quote t := by
  induction hn : t.length using Nat.strong_induction_on generalizing closers quote t with
  | _ n ih =>
    subst hn
    have hstep (c : Char) (u : Text) (h : Step closers quote c) (ht : t = c :: u) :
        motive closers quote t := by
      subst ht
      cases h with
      | halts ending h => exact halts _ _ _ _ ending h
      | reads closers' quote' hc hq h =>
        exact reads _ _ _ _ closers' quote' hc hq h
          (ih _ (Nat.lt_succ_self _) closers' quote' u rfl)
    cases t with
    | nil => exact nil _ _
    | cons c t =>
      cases quote with
      | none => exact hstep c t (step_code closers c) rfl
      | some q =>
        by_cases hc : c = '\\'
        · subst hc
          cases t with
          | nil => exact backslash closers q
          | cons d t =>
            by_cases hs : Unsplit ['\\', d] t
            · exact hidden closers q d t hs (ih t.length (by simp only [List.length_cons]; omega)
                closers (some q) t rfl)
            · obtain ⟨hd, ht⟩ := not_not.1 hs
              obtain rfl : d = '\r' := by simpa using hd
              obtain ⟨u, rfl⟩ := List.head?_eq_some_iff.1 ht
              exact lineEnd closers q u (ih u.length (by simp only [List.length_cons]; omega)
                closers (some q) u rfl)
        · exact hstep c t (step_quoted closers q hc) rfl

/-- An expression stands at the start of the text it is read from. -/
theorem scan_cuts (closers : Text) (quote : Option Char) (t : Text) :
    CutOff (scan closers quote t).text t := by
  induction closers, quote, t using scan_induction with
  | nil closers quote => exact .nil _
  | lineEnd closers q t ih =>
    exact ih.append (m := ['\\', '\r', '\n']) (unsplit_of_getLast? (by decide) t)
  | hidden closers q c t hs ih =>
    rw [scan_hidden closers q hs]
    exact ih.append hs
  | backslash closers q =>
    exact (CutOff.nil []).append (m := ['\\']) (unsplit_of_getLast? (by decide) [])
  | halts closers quote c t ending h =>
    rw [h]
    exact .nil _
  | reads closers quote c t closers' quote' hc _ h ih =>
    rw [h]
    refine ih.append (m := [c]) (unsplit_of_getLast? ?_ t)
    rintro ⟨⟩
    cases hc

end Haml.Expression
