import Haml.Proofs.LockstepLines

/-!
# Rows in lockstep

Lexers in lockstep read rows that are alike. Where a row depends on what stands below it,
or behind its first token, this has to be known of the two lexers.
-/

namespace Haml.Lexer

section Rows

variable {l : Lexer}

theorem rows_of_refused {d : Diagnostic} (hl : l.kind ≠ .eof) (h : l.readRow.value = .error d) :
    l.rows = .error d := by
  rw [rows, dif_neg hl, h]

theorem rows_of_row {row : Row} (hl : l.kind ≠ .eof) (h : l.readRow.value = .ok row) :
    l.rows = l.readRow.lexer.rows.map (row :: ·) := by
  rw [rows, dif_neg hl, h]

theorem readRow_of_matter (h : l.passSpace.endsLine = false) :
    l.readRow.value = (l.passSpace.readMatter l.token.depth).value.map
        (.written l.token.depth l.passSpace.upcoming) ∧
      l.readRow.lexer = (l.passSpace.readMatter l.token.depth).lexer := by
  have hb : l.kind.breaksLine = false := by
    cases hb : l.kind.breaksLine with
    | false => rfl
    | true =>
      have hp : l.passSpace = l := if_neg fun hs => by
        rw [hs] at hb
        cases hb
      rw [hp] at h
      rw [breaksLine_eq_false h] at hb
      cases hb
  simp only [readRow, hb, kind_ne_eof_of_not_endsLine h, breaksLine_eq_false h,
    Bool.false_eq_true, if_false]
  exact ⟨trivial, trivial⟩

theorem readRow_of_line (h : l.passSpace.endsLine = false) (hf : l.passSpace.kind ≠ .filter) :
    l.readRow.value = (l.passSpace.readLine l.token.depth).value.map (fun x =>
        .written l.token.depth l.passSpace.upcoming
          (.line (l.passSpace.readLine l.token.depth).probes x)) ∧
      l.readRow.lexer = (l.passSpace.readLine l.token.depth).lexer := by
  obtain ⟨hvalue, hlexer⟩ := readRow_of_matter h
  rw [readMatter, if_neg hf] at hvalue hlexer
  refine ⟨?_, hlexer⟩
  rw [hvalue]
  cases (l.passSpace.readLine l.token.depth).value <;> rfl

theorem endsLine_of_startsTag (h : l.startsTag = true) : l.endsLine = false := by
  cases hk : l.kind <;> simp_all [startsTag, endsLine, Token.Kind.endsLine]

/-- A row whose tag is refused is refused. -/
theorem fails_readRow_of_tag (ht : l.passSpace.startsTag)
    (h : (l.passSpace.readTag l.token.depth).Fails) : l.readRow.Fails := by
  obtain ⟨d, hd⟩ := h
  have hf : l.passSpace.kind ≠ .filter := by
    intro hf
    simp [startsTag, hf] at ht
  have hrow := (readRow_of_line (endsLine_of_startsTag ht) hf).1
  rw [readLine_refused ht hd] at hrow
  exact ⟨d, hrow⟩

end Rows

namespace Lockstep

variable {L : Likeness} {Near Past : Lexer → Lexer → Prop} {Lost : Prop → Lexer → Lexer → Prop}
  (H : Lockstep L Near Past Lost) {l l' : Lexer}

include H

/-- What stands on a line is read alike. -/
theorem readMatter (h : Near l l') (hm : l.mode = .line) (hl : l.endsLine = false) (depth : Nat)
    (hlook : l.looksBelow → (∃ x, (l.readLine depth).value = .ok x) →
      Near l.outlook l'.outlook → l'.outlook.hasContents depth = l.outlook.hasContents depth)
    (hblock : l.kind = .silentComment ∨ l.kind = .filter →
      (l'.takeBlock depth).1 = (l.takeBlock depth).1 ∧
        Past (l.takeBlock depth).2 (l'.takeBlock depth).2) :
    LostInTag Lost depth l l' ∨
      (l.readMatter depth).Agree L Near Past NotLost (Matter.Like L) (l'.readMatter depth) := by
  simp only [Lexer.readMatter, H.kind_eq h (kind_ne_eof_of_not_endsLine hl)]
  split
  · rename_i hk
    obtain ⟨htexts, hlexer⟩ := hblock (.inr hk)
    rw [htexts, H.text_eq h hl]
    exact .inr (.ok rfl rfl (.filter _ _ (H.point h)) hlexer .nil)
  · refine (H.readLine h hm hl depth hlook fun hk => (hblock (.inl hk)).2).imp_right fun hline => ?_
    cases hline with
    | lost h => exact h.elim
    | ok hv hv' hx hlexer hp =>
      exact .ok (congrArg (Except.map _) hv) (congrArg (Except.map _) hv') (.line hp hx) hlexer .nil
    | fault hd hd' hD hlexer _ =>
      exact .fault (congrArg (Except.map _) hd) (congrArg (Except.map _) hd') hD hlexer .nil

/-- A row is read alike from the same token on, if neither lexer is at its end alone
behind the indentation, and if what is upcoming is alike. -/
theorem readRow (h : Near l l') (hm : l.mode = .line) (hkind : l'.kind = l.kind)
    (hindented : l'.passSpace.kind = l.passSpace.kind)
    (hupcoming : L.upcoming l.passSpace.upcoming l'.passSpace.upcoming)
    (hlook : l.passSpace.looksBelow → (∃ x, (l.passSpace.readLine l.token.depth).value = .ok x) →
      Near l.passSpace.outlook l'.passSpace.outlook →
        l'.passSpace.outlook.hasContents l.token.depth =
          l.passSpace.outlook.hasContents l.token.depth)
    (hblock : l.passSpace.kind = .silentComment ∨ l.passSpace.kind = .filter →
      (l'.passSpace.takeBlock l.token.depth).1 = (l.passSpace.takeBlock l.token.depth).1 ∧
        Past (l.passSpace.takeBlock l.token.depth).2
          (l'.passSpace.takeBlock l.token.depth).2) :
    LostInTag Lost l.token.depth l.passSpace l'.passSpace ∨
      l.readRow.Agree L Near Past NotLost (Row.Like L) l'.readRow := by
  have hspace := H.passSpace_within h hm
  have hmode := (reaches_passSpace l).mode hm
  -- Off a line end, the next token is past the line.
  have hpast {k k' : Lexer} (hnear : Near k k') (hm : k.mode = .line)
      (hb : k.kind.breaksLine = true) (hk : k'.kind = k.kind) : Past k.next k'.next := by
    have hends : k.endsLine = true := by
      cases hk : k.kind <;> simp_all [Lexer.endsLine, Token.Kind.breaksLine, Token.Kind.endsLine]
    have hend := H.past hnear hm hends
    simpa [Lexer.passLineEnd, hk, hb] using hend
  simp only [Lexer.readRow, hkind, hindented, H.depth h]
  split
  · rename_i hb
    exact .inr (.ok rfl rfl (.empty (H.newline h)) (hpast h hm hb hkind) .nil)
  · split
    · rename_i he
      have hend := H.stay hspace (by rw [Lexer.endsLine, he]; rfl)
      exact .inr (.ok rfl rfl (.blank _ .none) hend .nil)
    · split
      · rename_i hb
        exact .inr (.ok rfl rfl (.blank _ (.some (H.newline hspace)))
          (hpast hspace hmode hb hindented) .nil)
      · rename_i he hb
        have hl := endsLine_eq_false he hb
        refine (H.readMatter hspace hmode hl l.token.depth hlook hblock).imp_right fun hmatter => ?_
        exact hmatter.map (fun _ _ hm => .written _ hupcoming hm) fun _ => .nil

end Lockstep

end Haml.Lexer
