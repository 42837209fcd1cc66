import Haml.Proofs.LockstepLines
import Haml.Proofs.WideLineEnds

/-!
# Lexers on wide sources

A lexer on a source without carriage returns and one on its wide form that stand at the
same place go in lockstep, with the same faults at the same points. Only the line ends of
what they read are wider: the one that a line ends with, and those that a backslash hides
in an expression.
-/

namespace Haml

/-- An expression that was scanned, without its place and the width of its line ends. -/
def Probe.narrow (p : Probe) : Probe := ⟨0, 0, p.expression.map Text.narrow⟩

def Upcoming.narrow (u : Upcoming) : Upcoming := ⟨u.kind, 0, u.rest.narrow⟩

/-- The likeness of what differs only in offsets and in the width of line ends. -/
def Likeness.narrow : Likeness where
  text t t' := t'.narrow = t.narrow
  point p p' := p' = p
  fault f f' := f' = f
  probe p p' := p'.narrow = p.narrow
  upcoming u u' := u'.narrow = u.narrow
  text_refl _ := rfl
  point_refl _ := rfl
  fault_refl _ := rfl
  probe_refl _ := rfl
  upcoming_refl _ := rfl
  text_isEmpty {t t'} h := by
    have hnil : t' = [] ↔ t = [] := by rw [← Text.narrow_eq_nil, h, Text.narrow_eq_nil]
    rw [Bool.eq_iff_iff, List.isEmpty_iff, List.isEmpty_iff, hnil]

theorem Likeness.eq_of_diagnostic {d d' : Diagnostic} (h : narrow.diagnostic d d') : d' = d := by
  obtain ⟨fault, point⟩ := d
  obtain ⟨fault', point'⟩ := d'
  obtain ⟨rfl, rfl⟩ : fault' = fault ∧ point' = point := h
  rfl

namespace Expression

def Scanned.widen (s : Scanned) : Scanned := { s with text := s.text.widen }

theorem Scanned.widen_push (m : Text) (s : Scanned) : (s.push m).widen = s.widen.push m.widen := by
  simp [widen, push]

/-- An expression ends at the same place. Only a line end behind a backslash, within a
quote, can be part of it. -/
theorem scan_widen (closers : Text) (quote : Option Char) {t : Text} (ht : '\r' ∉ t) :
    scan closers quote t.widen = (scan closers quote t).widen := by
  induction closers, quote, t using scan_induction with
  | nil closers quote => exact scan.eq_1 closers quote
  | lineEnd closers q t ih => exact absurd (.tail _ (.head _)) ht
  | hidden closers q c t hs ih =>
    have hcr : c ≠ '\r' := fun hcr => ht (hcr ▸ .tail _ (.head _))
    have hscan := ih fun hr => ht (.tail _ (.tail _ hr))
    rw [scan_hidden closers q hs, Scanned.widen_push, ← hscan, Text.widen_cons (by decide)]
    by_cases hc : c = '\n'
    · subst hc
      rw [Text.widen_lineFeed, scan]
      rfl
    · have hs' : Unsplit ['\\', c] t.widen := unsplit_of_getLast? (by simpa using hcr) _
      rw [Text.widen_cons hc, scan_hidden closers q hs', Text.widen_cons (by decide),
        Text.widen_cons hc]
      rfl
  | backslash closers q =>
    have hwide : Text.widen ['\\'] = ['\\'] := Text.widen_cons (by decide) []
    rw [hwide, scan_backslash, Scanned.widen_push, hwide]
    rfl
  | halts closers quote c t ending h =>
    by_cases hc : c = '\n'
    · subst hc
      rw [Text.widen_lineFeed, scan_lineBreak closers quote rfl, scan_lineBreak closers quote rfl]
      rfl
    · rw [Text.widen_cons hc, h, h]
      rfl
  | reads closers quote c t closers' quote' hb _ h ih =>
    have hc : c ≠ '\n' := by
      rintro rfl
      cases hb
    rw [Text.widen_cons hc, h, h, ih fun hr => ht (.tail _ hr), Scanned.widen_push,
      Text.widen_cons hc]
    rfl

end Expression

namespace Lexer

/-- Two lexers at the same place of a text and of its wide form. -/
structure Widened (l l' : Lexer) : Prop where
  mode : l'.mode = l.mode
  cursor : l.cursor.Widened l'.cursor
  token : l.token.Widened l'.token

theorem widened_ofText {t : Text} (h : '\r' ∉ t) : (ofText t).Widened (ofText t.widen) :=
  ⟨rfl, ⟨h, rfl, rfl, rfl, rfl⟩, ⟨rfl, rfl, fun hk => by cases hk⟩⟩

namespace Widened

variable {l l' : Lexer}

theorem kind (h : Widened l l') : l'.kind = l.kind := h.token.kind

theorem rest (h : Widened l l') : l'.rest = l.rest.widen := h.cursor.rest

theorem point (h : Widened l l') : l'.point = l.point := h.cursor.point

theorem fault (h : Widened l l') (f : Fault) : l'.fault f = l.fault f := by
  rw [Lexer.fault, h.point, Lexer.fault]

theorem inMode (h : Widened l l') (mode : Mode) : Widened (l.inMode mode) (l'.inMode mode) :=
  ⟨rfl, h.cursor, h.token⟩

theorem next (h : Widened l l') : Widened l.next l'.next := by
  cases hx : Lexeme.read? l.mode l.cursor.rest with
  | none =>
    have hnil : l.cursor.rest = [] := Lexeme.read?_eq_none.1 hx
    have hnil' : l'.cursor.rest = [] := by rw [h.cursor.rest, hnil]; rfl
    refine ⟨h.mode, ?_, ?_⟩
    · simpa only [Lexer.next, scan_of_nil hnil, scan_of_nil hnil'] using h.cursor
    · simp only [Lexer.next, scan_of_nil hnil, scan_of_nil hnil']
      exact ⟨rfl, rfl, fun _ => ⟨rfl, rfl⟩⟩
  | some x =>
    have hplain := h.cursor.plain
    have hx' : Lexeme.read? l'.mode l'.cursor.rest = some x.widen := by
      rw [h.mode, h.cursor.rest, Lexeme.read?_widen _ hplain, hx]
      rfl
    have hmatched : '\r' ∉ x.matched := by
      obtain ⟨r, hr, -⟩ := Lexeme.read?_cuts hx
      exact fun hm => hplain (hr ▸ List.mem_append_left r hm)
    refine ⟨h.mode, ?_, ?_⟩
    · simp only [Lexer.next, scan, hx, hx', Lexeme.matched_widen hplain hx]
      exact h.cursor.skip hmatched
    · simp only [Lexer.next, scan, hx, hx']
      refine ⟨x.kind_widen, Token.newline_widen hplain hx _ _, fun hk => ?_⟩
      have hsame : x.widen = x := if_neg (by simp [hk])
      rw [hsame]
      exact ⟨rfl, rfl⟩

theorem skip (h : Widened l l') {m : Text} (hm : '\r' ∉ m) :
    Widened (l.skip m) (l'.skip m.widen) :=
  ⟨h.mode, h.cursor.skip hm, h.token⟩

theorem skip_oneLine (h : Widened l l') {m : Text} (hm : OneLine m) :
    Widened (l.skip m) (l'.skip m) := by
  have hskip := h.skip fun hr => by simpa [isLineBreak] using hm _ hr
  rwa [hm.widen_eq] at hskip

theorem passLineEnd (h : Widened l l') : Widened l.passLineEnd l'.passLineEnd := by
  simp only [Lexer.passLineEnd, h.kind]
  split
  · exact h.next
  · exact h

theorem lookAhead (h : Widened l l') (n : Nat) : (l.lookAhead n).Widened (l'.lookAhead n) := by
  induction n generalizing l l' with
  | zero => exact h.token
  | succ n ih => exact ih h.next

/-- The move that is taken back leads to the same place. -/
theorem pushBack_next (h : Widened l l') {k : Lexer} (hk : l.next.pushBack = .ok k) :
    ∃ k', l'.next.pushBack = .ok k' ∧ Widened k k' := by
  have hne : l.next.kind ≠ .eof := by
    intro he
    simp [pushBack, he] at hk
  rw [Lexer.pushBack_next hne] at hk
  cases hk
  exact ⟨_, Lexer.pushBack_next (by rwa [h.next.kind]), h.mode, h.cursor, h.token⟩

theorem upcoming (h : Widened l l') : l'.upcoming.narrow = l.upcoming.narrow := by
  have hplain : '\r' ∉ l.rest := h.cursor.plain
  simp only [Lexer.upcoming, Upcoming.narrow, h.kind, h.rest, Text.narrow_widen,
    Text.narrow_eq_self hplain]

/-- The same expression is read, or the same fault found in it. -/
theorem scanExpression (h : Widened l l') :
    l.scanExpression.Agree .narrow Widened Widened NotLost Likeness.narrow.text
      l'.scanExpression := by
  have hscan : Expression.scan [] none l'.rest = (Expression.scan [] none l.rest).widen := by
    rw [h.rest]
    exact Expression.scan_widen _ _ h.cursor.plain
  have hplain : '\r' ∉ (Expression.scan [] none l.rest).text := by
    obtain ⟨r, hr, -⟩ := Expression.scan_cuts [] none l.rest
    exact fun hm => h.cursor.plain ((show l.cursor.rest = _ from hr) ▸ List.mem_append_left r hm)
  have htrim : '\r' ∉ (Expression.scan [] none l.rest).text.trim := fun hm =>
    hplain ((List.dropWhile_sublist _).mem ((Text.dropEndWhile_prefix _ _).subset hm))
  have hskip := h.skip hplain
  have hnarrow : (Expression.scan [] none l.rest).text.widen.trim.narrow =
      (Expression.scan [] none l.rest).text.trim.narrow := by
    rw [Text.trim_widen, Text.narrow_widen, Text.narrow_eq_self htrim]
  simp only [Lexer.scanExpression, readExpression, hscan, Expression.Scanned.widen]
  split
  · refine .ok rfl rfl hnarrow hskip (.cons ?_ .nil)
    exact congrArg (fun e => Probe.mk 0 0 (some e)) hnarrow
  · exact .fault rfl rfl ⟨rfl, hskip.point⟩ hskip (.cons rfl .nil)

end Widened

theorem lockstep_widened : Lockstep .narrow Widened Widened NotLost where
  kind h := .inl h.kind
  token h _ hb := h.token.same hb
  newline h := h.token.newline
  point h := h.point
  inMode h mode := h.inMode mode
  within h _ _ := h.next
  continued h _ _ := by rw [h.rest, continued?_widen]
  segment h _ _ _ hs := (h.skip_oneLine (continued?_oneLine hs)).next
  line {l l'} h _ _ := by
    rw [h.rest, Text.line_widen]
    exact ⟨rfl, (h.skip_oneLine (oneLine_takeWhile l.rest)).next⟩
  next h _ := .inl h.next
  finish h hk hk' := by
    rw [h.kind, hk] at hk'
    cases hk'
  expression h _ := h.scanExpression
  lost h := h.elim
  past h _ _ := h.passLineEnd
  stay h _ := h

theorem resumes_widened : Resumes Widened Widened fun _ _ => False :=
  resumes_of_eof (fun h _ => h) fun h hk => deeperLineFollows_of_eof (h.kind.trans hk)

namespace Widened

variable {l l' : Lexer}

theorem hasContents (h : Widened l l') (hm : l.mode = .line) (depth : Nat) :
    l'.hasContents depth = l.hasContents depth := by
  simp only [Lexer.hasContents, lockstep_widened.hasInlineContents h hm, h.kind,
    (h.lookAhead 1).depth, (h.lookAhead 2).depth]

/-- A line of a wide source says what it says without the carriage returns. -/
theorem readLine (h : Widened l l') (hm : l.mode = .line) (hl : l.endsLine = false) (depth : Nat) :
    (l.readLine depth).Agree .narrow Widened Widened NotLost (Line.Like .narrow)
      (l'.readLine depth) := by
  have hblock := (lockstep_widened.takeBlock resumes_widened h hm depth).resolve_left id
  exact (lockstep_widened.readLine h hm hl depth
    (fun _ _ hlook => hlook.hasContents (mode_outlook hm) depth)
    fun _ => hblock.2).resolve_left fun hlost => hlost.2

theorem passDeeperLines (h : Widened l l') (hm : l.mode = .line) {depth : Nat} {k : Lexer}
    (hk : l.passDeeperLines depth = .ok k) :
    ∃ k', l'.passDeeperLines depth = .ok k' ∧ Widened k k' := by
  revert l'
  induction l using Lexer.passDeeperLines_induction depth with
  | ended l he heq =>
    intro l' h
    rw [heq] at hk
    cases hk
    exact ⟨l', by rw [Lexer.passDeeperLines_eq l', h.kind, if_pos he], h⟩
  | stopped l he hd heq =>
    intro l' h
    have hspace := lockstep_widened.passSpace_within h hm
    rw [heq] at hk
    rw [Lexer.passDeeperLines_eq l', h.kind, if_neg he, lockstep_widened.depth h,
      lockstep_widened.endsLine hspace, if_pos hd, hspace.kind]
    split at hk
    · rename_i hs
      have hp : l.passSpace = l.next := if_pos hs.1
      have hp' : l'.passSpace = l'.next := if_pos (h.kind.trans hs.1)
      rw [hp] at hk
      split at hk
      · rename_i b hb
        cases hk
        obtain ⟨b', hb', hwide⟩ := h.pushBack_next hb
        exact ⟨b', by rw [if_pos hs, hp', hb'], hwide⟩
      · cases hk
    · rename_i hs
      cases hk
      exact ⟨l'.passSpace, if_neg hs, hspace⟩
  | deeper l he hd heq ih =>
    intro l' h
    have hspace := lockstep_widened.passSpace_within h hm
    have hmode := (reaches_passSpace l).mode hm
    rw [heq] at hk
    obtain ⟨k', hk', hwide⟩ := ih ((reaches_passLine _).mode hmode) hk
      (lockstep_widened.passLine hspace hmode)
    refine ⟨k', ?_, hwide⟩
    rw [Lexer.passDeeperLines_eq l', h.kind, if_neg he, lockstep_widened.depth h,
      lockstep_widened.endsLine hspace, if_neg hd, hk']

theorem recover (h : Widened l l') {depth : Nat} {k : Lexer} (hk : l.recover depth = .ok k) :
    ∃ k', l'.recover depth = .ok k' ∧ Widened k k' :=
  (lockstep_widened.passLine (h.inMode .line) rfl).passDeeperLines
    ((reaches_passLine (l.inMode .line)).mode rfl) hk

end Widened

end Lexer


end Haml
