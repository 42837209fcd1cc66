import Haml.Proofs.Locality
import Haml.Proofs.Lockstep
import Haml.Proofs.Placement

/-!
# Lexers abreast

Two lexers stand abreast when they are on the same token and have the same text
before them, except that `more` follows what the first one has left. They stay so
from move to move. Where the first one comes to its end, the other is on the first
token of `more`.
-/

namespace Haml

/-- The first line of the text is neither indented nor blank. -/
def StartsVisibly (t : Text) : Prop :=
  ∀ x, Lexeme.read? .line t = some x → x.kind ≠ .space ∧ x.kind.endsLine = false

instance (t : Text) : Decidable (StartsVisibly t) :=
  decidable_of_iff
    ((Lexeme.read? .line t).all fun x => decide (x.kind ≠ .space ∧ x.kind.endsLine = false)) <| by
    simp only [StartsVisibly, Option.all_eq_true, decide_eq_true_eq]

/-- The text before a closing bar is followed by the bar. -/
theorem continued?_bar {t segment : Text} (h : continued? t = some segment) :
    ∃ r, t = segment ++ '|' :: r := by
  simp only [continued?] at h
  split at h
  · rename_i hbar
    cases h
    generalize hk : Text.dropEndWhile isIndent (t.takeWhile fun c => !isLineBreak c) = kept at *
    have hkept : kept <+: t := by
      rw [← hk]
      exact (Text.dropEndWhile_prefix _ _).trans (List.takeWhile_prefix _)
    obtain ⟨r, hr⟩ := hkept
    have hsplit : kept.dropLast ++ ['|'] = kept := List.dropLast_append_getLast? _ hbar.1
    exact ⟨r, by rw [← hr, ← hsplit]; simp⟩
  · cases h

namespace Lexer

variable {more : Text} {l l' : Lexer}

/-- The lexer is not at its end, and the text that it has left ends its last line;
if none is left, it stands on the end of that line. -/
def Closes (l : Lexer) (more : Text) : Prop :=
  l.kind ≠ .eof ∧ (Terminated l.rest more ∨ l.rest = [] ∧ l.kind = .lineEnd)

structure Abreast (more : Text) (l l' : Lexer) : Prop where
  mode : l'.mode = l.mode
  kind : l'.kind = l.kind
  matched : l'.token.matched = l.token.matched
  text : l'.token.text = l.token.text
  rest : l'.rest = l.rest ++ more
  closes : more = [] ∨ l.Closes more

/-- Two lexers of which the first has come to its end, and the other to `more`. -/
def Beside (more : Text) (l l' : Lexer) : Prop :=
  Abreast more l l' ∨ more ≠ [] ∧ l.kind = .eof ∧ Abreast [] (ofText more).next l'

theorem Beside.abreast (h : Beside more l l') (hk : l.kind ≠ .eof) : Abreast more l l' := by
  rcases h with h | ⟨-, he, -⟩
  · exact h
  · exact absurd he hk

namespace Abreast

theorem endsLine (h : Abreast more l l') : l'.endsLine = l.endsLine := by
  rw [Lexer.endsLine, h.kind, Lexer.endsLine]

theorem depth (h : Abreast more l l') : l'.token.depth = l.token.depth := by
  have hk : l'.token.kind = l.token.kind := h.kind
  rw [Token.depth, Token.depth, hk, h.text]

theorem newline (h : Abreast more l l') : l'.token.newline = l.token.newline := by
  have hk : l'.token.kind = l.token.kind := h.kind
  rw [Token.newline, Token.newline, hk, h.matched]

/-- Off a line end, the text that is left ends with one. -/
theorem terminated (h : Abreast more l l') (hk : l.kind ≠ .lineEnd) :
    more = [] ∨ Terminated l.rest more := by
  rcases h.closes with hm | ⟨-, ht | ⟨-, he⟩⟩
  · exact .inl hm
  · exact .inr ht
  · exact absurd he hk

theorem more_eq_nil (h : Abreast more l l') (hk : l.kind = .eof) : more = [] := by
  rcases h.closes with hm | ⟨hne, -⟩
  · exact hm
  · exact absurd hk hne

theorem inMode (h : Abreast more l l') (mode : Mode) :
    Abreast more (l.inMode mode) (l'.inMode mode) :=
  ⟨rfl, h.kind, h.matched, h.text, h.rest, h.closes⟩

end Abreast

theorem next_of_nil (h : l.rest = []) :
    l.next.kind = .eof ∧ l.next.token.matched = [] ∧ l.next.token.text = [] ∧
      l.next.rest = [] := by
  have hscan := scan_of_nil (c := l.cursor) h l.mode
  simp only [next, kind, rest, hscan]
  exact ⟨trivial, trivial, trivial, h⟩

/-- Lexers with the same text before them move to the same token. -/
theorem abreast_next (hm : l'.mode = l.mode) (hr : l'.rest = l.rest) :
    Abreast [] l.next l'.next := by
  cases hx : Lexeme.read? l.mode l.rest with
  | none =>
    have hnil := Lexeme.read?_eq_none.1 hx
    obtain ⟨hk, hmatched, htext, hrest⟩ := next_of_nil hnil
    obtain ⟨hk', hmatched', htext', hrest'⟩ := next_of_nil (hr.trans hnil)
    exact ⟨hm, hk'.trans hk.symm, hmatched'.trans hmatched.symm, htext'.trans htext.symm,
      by rw [hrest', hrest]; rfl, .inl rfl⟩
  | some x =>
    obtain ⟨r, hl, hrest, hk, hmatched, htext⟩ := next_of_read? hx
    have hx' : Lexeme.read? l'.mode l'.rest = some x := by rw [hm, hr, hx]
    obtain ⟨r', hl', hrest', hk', hmatched', htext'⟩ := next_of_read? hx'
    obtain rfl : r' = r := List.append_cancel_left (hl'.symm.trans (hr.trans hl))
    exact ⟨hm, hk'.trans hk.symm, hmatched'.trans hmatched.symm, htext'.trans htext.symm,
      by rw [hrest', hrest, List.append_nil], .inl rfl⟩

/-- A lexeme that is all that is left of a terminated text is a line end. -/
theorem kind_of_last {mode : Mode} {t : Text} {x : Lexeme} (ht : Terminated t more)
    (hx : Lexeme.read? mode t = some x) (hall : t = x.matched) : x.kind = .lineEnd := by
  obtain ⟨c, hc, hb⟩ := ht.ends
  cases hk : x.kind.breaksLine with
  | false =>
    rw [hall] at hc
    rw [Lexeme.solid_read? hx hk hc] at hb
    cases hb
  | true =>
    have hcases : x.kind = .lineEnd ∨ x.kind = .continuation := by
      cases h : x.kind <;> simp_all [Token.Kind.breaksLine]
    rcases hcases with h | h
    · exact h
    · exact absurd (hall ▸ Lexeme.matched_continuation hx h) ht.unbarred

namespace Abreast

/-- Moves on to a lexeme that is the same with `more` behind it. -/
theorem next_of_read? (h : Abreast more l l') (ht : Terminated l.rest more) {x : Lexeme}
    (hx : Lexeme.read? l.mode l.rest = some x)
    (hx' : Lexeme.read? l.mode (l.rest ++ more) = some x) : Abreast more l.next l'.next := by
  obtain ⟨r, hl, hrest, hk, hmatched, htext⟩ := Lexer.next_of_read? hx
  rw [← h.mode, ← h.rest] at hx'
  obtain ⟨r', hl', hrest', hk', hmatched', htext'⟩ := Lexer.next_of_read? hx'
  obtain rfl : r' = r ++ more := by
    have hcut : x.matched ++ r' = x.matched ++ (r ++ more) := by
      rw [← hl', h.rest, hl, List.append_assoc]
    exact List.append_cancel_left hcut
  refine ⟨h.mode, hk'.trans hk.symm, hmatched'.trans hmatched.symm, htext'.trans htext.symm,
    by rw [hrest', hrest], .inr ⟨hk ▸ Lexeme.kind_ne_eof hx, ?_⟩⟩
  by_cases hnil : r = []
  · right
    rw [hnil, List.append_nil] at hl
    exact ⟨hrest.trans hnil, hk.trans (kind_of_last ht hx hl)⟩
  · left
    rw [hrest]
    rw [hl] at ht
    exact ht.right hnil

theorem next (h : Abreast more l l') (hr : more = [] ∨ l.rest ≠ [])
    (ho : l.mode = .list → l.next.kind ≠ .other) : Abreast more l.next l'.next := by
  by_cases hm : more = []
  · subst hm
    exact abreast_next h.mode (h.rest.trans (List.append_nil _))
  have hne := hr.resolve_left hm
  have ht : Terminated l.rest more := by
    rcases (h.closes.resolve_left hm).2 with ht | ⟨hnil, -⟩
    · exact ht
    · exact absurd hnil hne
  cases hx : Lexeme.read? l.mode l.rest with
  | none => exact absurd (Lexeme.read?_eq_none.1 hx) hne
  | some x =>
    obtain ⟨-, -, -, hk, -⟩ := Lexer.next_of_read? hx
    exact h.next_of_read? ht hx (Lexeme.read?_append ht hx fun hlist => hk ▸ ho hlist)

/-- Moves off a token within a line. -/
theorem next_within (h : Abreast more l l') (hm : l.mode = .line) (hk : l.kind ≠ .lineEnd) :
    Abreast more l.next l'.next :=
  h.next ((h.terminated hk).imp id Terminated.ne_nil) fun hlist => by rw [hm] at hlist; cases hlist

theorem beside_next (h : Abreast more l l') (hm : l.mode = .line) : Beside more l.next l'.next := by
  by_cases hr : more = [] ∨ l.rest ≠ []
  · exact .inl (h.next hr fun hlist => by rw [hm] at hlist; cases hlist)
  · obtain ⟨hne, hnil⟩ : more ≠ [] ∧ l.rest = [] := by simpa using hr
    refine .inr ⟨hne, (next_of_nil hnil).1, abreast_next (h.mode.trans hm) ?_⟩
    rw [h.rest, hnil]
    rfl

/-- Where the first lexer does not get stuck, the other one moves along. -/
theorem next_or_stuck (h : Abreast more l l') : Abreast more l.next l'.next ∨ l.next.Stuck := by
  by_cases hr : more = [] ∨ l.rest ≠ []
  · by_cases ho : l.next.kind = .other
    · exact .inr (.inr ho)
    · exact .inl (h.next hr fun _ => ho)
  · obtain ⟨-, hnil⟩ : more ≠ [] ∧ l.rest = [] := by simpa using hr
    exact .inr (.inl (next_of_nil hnil).1)

theorem skip (h : Abreast more l l') {t r : Text} (hr : l.rest = t ++ r) (hs : Unsplit t r)
    (hne : more = [] ∨ r ≠ []) : Abreast more (l.skip t) (l'.skip t) := by
  have hrest : (l.skip t).rest = r := rest_skip hr hs
  have hrest' : (l'.skip t).rest = r ++ more := by
    apply rest_skip (by rw [h.rest, hr, List.append_assoc])
    rcases hne with rfl | hne
    · rwa [List.append_nil]
    · obtain ⟨c, u, rfl⟩ := List.exists_cons_of_ne_nil hne
      exact hs
  refine ⟨h.mode, h.kind, h.matched, h.text, by rw [hrest', hrest], ?_⟩
  by_cases hm : more = []
  · exact .inl hm
  obtain ⟨hk, hc⟩ := h.closes.resolve_left hm
  refine .inr ⟨hk, .inl ?_⟩
  rcases hc with ht | ⟨hnil, -⟩
  · rw [hr] at ht
    rw [hrest]
    exact ht.right (hne.resolve_left hm)
  · rw [hr] at hnil
    exact absurd (List.append_eq_nil_iff.1 hnil).2 (hne.resolve_left hm)

theorem continued? (h : Abreast more l l') (hk : l.kind ≠ .lineEnd) :
    Haml.continued? l'.rest = Haml.continued? l.rest := by
  rw [h.rest]
  rcases h.terminated hk with rfl | ht
  · rw [List.append_nil]
  · exact continued?_append ht

theorem passLineEnd (h : Abreast more l l') (hm : l.mode = .line) :
    Beside more l.passLineEnd l'.passLineEnd := by
  simp only [Lexer.passLineEnd, h.kind]
  split
  · exact h.beside_next hm
  · exact .inl h

/-- Past the text before a closing bar, and onto the bar. -/
theorem next_segment (h : Abreast more l l') (hm : l.mode = .line) (hk : l.kind ≠ .lineEnd)
    {segment : Text} (hs : Haml.continued? l.rest = some segment) :
    Abreast more (l.skip segment).next (l'.skip segment).next := by
  obtain ⟨r, hr⟩ := continued?_bar hs
  exact (h.skip hr (fun hc => by cases hc.2) (.inr (List.cons_ne_nil _ _))).next_within hm hk

theorem kind_ne_lineEnd (hl : l.endsLine = false) : l.kind ≠ .lineEnd := by
  intro hk
  simp [Lexer.endsLine, hk, Token.Kind.endsLine] at hl

/-- Past the rest of the line, and onto its end. -/
theorem next_lineEnd (h : Abreast more l l') (hm : l.mode = .line) (hl : l.endsLine = false) :
    (l'.rest.takeWhile fun c => !isLineBreak c) = (l.rest.takeWhile fun c => !isLineBreak c) ∧
      Abreast more (l.skip (l.rest.takeWhile fun c => !isLineBreak c)).next
        (l'.skip (l.rest.takeWhile fun c => !isLineBreak c)).next := by
  have hk := kind_ne_lineEnd hl
  constructor
  · rw [h.rest]
    rcases h.terminated hk with rfl | ht
    · rw [List.append_nil]
    · exact ht.takeWhile_append rfl rfl
  · refine Abreast.next_within ?_ hm hk
    obtain ⟨r, hr, hu⟩ := (oneLine_takeWhile l.rest).cutOff (List.takeWhile_prefix _)
    refine h.skip hr hu ((h.terminated hk).imp id fun ht => ?_)
    rw [hr] at ht
    exact (ht.right_of_oneLine (oneLine_takeWhile _)).ne_nil

end Abreast

/-- Lexers abreast take lines alike, whatever is asked of them but points. -/
theorem together_abreast {L : Likeness} (hp : ∀ p p', L.point p p') (more : Text) :
    Together L (Abreast more) where
  kind h := .inl h.kind
  token h _ _ := ⟨h.matched, h.text⟩
  newline h := h.newline ▸ L.text_refl _
  point _ := hp _ _
  inMode h mode := h.inMode mode
  within h hm hl := h.next_within hm (Abreast.kind_ne_lineEnd hl)
  continued h _ hn := h.continued? hn
  segment h hm _ hn hs := h.next_segment hm hn hs
  line h hm hl := h.next_lineEnd hm hl

namespace Abreast

theorem passSpace (h : Abreast more l l') (hm : l.mode = .line) :
    Abreast more l.passSpace l'.passSpace :=
  (together_abreast (L := .unplaced) (fun _ _ => trivial) more).passSpace_within h hm

/-- The logical line is taken alike. -/
theorem takeLine (h : Abreast more l l') (hm : l.mode = .line) :
    l'.takeLine.1 = l.takeLine.1 ∧ Abreast more l.takeLine.2 l'.takeLine.2 :=
  (together_abreast (L := .unplaced) (fun _ _ => trivial) more).takeLine h hm

end Abreast

end Lexer

end Haml
