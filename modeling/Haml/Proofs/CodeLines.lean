import Haml.Proofs.Rows

/-!
# Code lines

The code of a line that is not continued is the rest of the line behind its
hyphen. Whether such a line closes a block itself is decided on the text that
follows the hyphen, and shows at the start of its code.
-/

namespace Haml

/-- Only the last line of a text decides whether it is continued. -/
theorem continued?_of_append {s t : Text} (hs : OneLine s) (h : continued? (s ++ t) = none) :
    continued? t = none := by
  simp only [continued?] at h ⊢
  split at h
  · cases h
  · rename_i hbar
    rw [if_neg]
    rintro ⟨hlast, hlt⟩
    apply hbar
    have hline : (s ++ t).takeWhile (fun c => !isLineBreak c) =
        s ++ t.takeWhile fun c => !isLineBreak c :=
      List.takeWhile_append_of_pos fun c hc => by simp [hs c hc]
    have hne : Text.dropEndWhile isIndent (t.takeWhile fun c => !isLineBreak c) ≠ [] := by
      intro hnil
      rw [hnil] at hlast
      cases hlast
    rw [hline, Text.dropEndWhile_append, if_neg hne, List.getLast?_append_of_ne_nil _ hne]
    exact ⟨hlast, by simpa using hlt⟩

theorem Lexeme.read?_lineBreak {c : Char} (h : isLineBreak c = true) (mode : Mode) (t : Text) :
    ∃ m, read? mode (c :: t) = some ⟨.lineEnd, m, m⟩ ∧ m.all isLineBreak = true := by
  have hend : ∃ m, Pattern.lineEnd (c :: t) = some m ∧ m.all isLineBreak = true := by
    have hc : c = '\n' ∨ c = '\r' := by simpa [isLineBreak] using h
    rcases hc with rfl | rfl
    · exact ⟨['\n'], rfl, rfl⟩
    · cases t with
      | nil => exact ⟨['\r'], rfl, rfl⟩
      | cons d t =>
        by_cases hd : d = '\n'
        · subst hd
          exact ⟨['\r', '\n'], rfl, rfl⟩
        · exact ⟨['\r'], by simp [Pattern.lineEnd, hd], rfl⟩
  obtain ⟨m, hm, hall⟩ := hend
  exact ⟨m, read?_lineEnd hm mode, hall⟩

namespace Lexer

variable {l : Lexer}

/-- The code of a line that is not continued is the rest of the line. -/
theorem takeLine_code (hm : l.mode = .line) (hc : continued? l.rest = none)
    (hne : l.next.takeLine.1 ≠ []) :
    l.next.takeLine.1 = l.rest.takeWhile (fun c => !isLineBreak c) ∧
      l.next.takeLine.2.token.newline.all isLineBreak = true := by
  cases hend : l.next.endsLine with
  | true =>
    rw [takeLine_of_endsLine hend] at hne
    exact absurd rfl hne
  | false =>
    have hrest : l.rest ≠ [] := fun hnil =>
      kind_ne_eof_of_not_endsLine hend (kind_next_of_rest_nil hnil)
    obtain ⟨x, hx⟩ := Option.ne_none_iff_exists'.1 fun h => hrest (Lexeme.read?_eq_none.1 h)
    obtain ⟨r, hr, hnext, hkind, hmatched, -⟩ := next_of_read? hx
    have hline : OneLine x.matched := by
      rw [hm] at hx
      refine (Lexeme.inline_of_read? hx ?_).2
      rw [← hkind]
      exact hend
    have hcont : continued? r = none := continued?_of_append hline (by rw [← hr]; exact hc)
    simp only [takeLine, hend, hnext, hcont, hmatched, Bool.false_eq_true, if_false]
    constructor
    · rw [hr, List.takeWhile_append_of_pos fun c hc => by simp [hline c hc]]
    · have hcut : CutOff (r.takeWhile fun c => !isLineBreak c) r :=
        (oneLine_takeWhile r).cutOff (List.takeWhile_prefix _)
      obtain ⟨u, hu, hs⟩ := hcut
      have hrest : (l.next.skip (r.takeWhile fun c => !isLineBreak c)).rest = u :=
        rest_skip (by rw [hnext]; exact hu) hs
      have hdrop : u = r.dropWhile fun c => !isLineBreak c :=
        List.append_cancel_left (hu.symm.trans List.takeWhile_append_dropWhile.symm)
      cases u with
      | nil =>
        have hk : (l.next.skip (r.takeWhile fun c => !isLineBreak c)).next.token.kind = .eof :=
          kind_next_of_rest_nil hrest
        rw [Token.newline, hk]
        rfl
      | cons c u =>
        have hbreak : isLineBreak c = true := by
          have h := List.head?_dropWhile_not (fun c => !isLineBreak c) r
          rw [← hdrop] at h
          simpa using h
        obtain ⟨m, hm, hall⟩ := Lexeme.read?_lineBreak hbreak
          (l.next.skip (r.takeWhile fun c => !isLineBreak c)).mode u
        rw [← hrest] at hm
        obtain ⟨_, -, -, hk, hmatched, -⟩ := next_of_read? hm
        have hk : (l.next.skip (r.takeWhile fun c => !isLineBreak c)).next.token.kind = .lineEnd :=
          hk
        rw [Token.newline, hk, hmatched]
        exact hall

end Lexer

/-- Blanks and a closing brace stand at the start of a text as they do at the start
of its first line, if that line is not blank. -/
theorem isSome_closingBrace {c r : Text} (h : c.trimStart ≠ []) :
    (Pattern.closingBrace (c ++ r)).isSome = (c.trimStart.head? == some '\x7d') := by
  have hdrop : c = c.takeWhile isBlank ++ c.trimStart := List.takeWhile_append_dropWhile.symm
  cases hc : c.trimStart with
  | nil => exact absurd hc h
  | cons a u =>
    have ha : isBlank a = false := by
      have := List.head?_dropWhile_not isBlank c
      rw [show c.dropWhile isBlank = a :: u from hc] at this
      simpa using this
    rw [hc] at hdrop
    have htake : (c ++ r).takeWhile isBlank = c.takeWhile isBlank := by
      conv_lhs => rw [hdrop]
      rw [List.append_assoc, List.takeWhile_append_of_pos fun x hx => List.mem_takeWhile_imp hx]
      simp [ha]
    have hafter : (c ++ r).drop (c.takeWhile isBlank).length = a :: (u ++ r) := by
      conv_lhs => rw [hdrop]
      rw [List.append_assoc, List.takeWhile_append_of_pos fun x hx => List.mem_takeWhile_imp hx]
      simp [ha]
    simp only [Pattern.closingBrace, Pattern.andThen, Pattern.many, htake, hafter,
      Pattern.exactly]
    by_cases hb : a = '\x7d'
    · simp [hb]
    · simp [hb, Ne.symm hb]

/-- What the reader knows of a row: whether it closes a block itself shows at the
start of its code, if the line is not continued. -/
def Row.AsRead : Row → Prop
  | .written _ u (.line _ (.code c newline)) =>
    continued? u.rest = none → c.trimStart ≠ [] →
      newline.all isLineBreak = true ∧
        Script.closesBlock u = (c.trimStart.head? == some '\x7d')
  | .written _ u (.line _ _) => Script.closesBlock u = false
  | _ => True

namespace Lexer

variable {l : Lexer} {rows : List Row}

/-- Code is read behind a hyphen, and nowhere else. -/
theorem kind_of_readLine_code {depth : Nat} {c newline : Text}
    (h : (l.readLine depth).value = .ok (.code c newline)) : l.kind = .minus := by
  have hmap {α : Type} {r : Except Diagnostic α} {f : α → Line} (hf : ∀ a, f a ≠ .code c newline)
      (hr : r.map f = .ok (.code c newline)) : False := by
    cases r with
    | error => cases hr
    | ok a => exact hf a (Except.ok.inj hr)
  simp only [readLine_eq] at h
  split at h
  · cases h
  · assumption
  · cases h
  · cases h
  · cases h
  · split at h
    · cases h
    · split at h
      · split at h
        · cases h
        · exact (hmap (fun _ => by simp) h).elim
      · exact (hmap (fun _ => by simp) h).elim

theorem readLine_minus (h : l.kind = .minus) (depth : Nat) :
    (l.readLine depth).value =
      .ok (.code l.next.takeLine.1 l.next.takeLine.2.token.newline) := by
  simp only [readLine_eq, h]

theorem closesBlock_upcoming (h : l.kind = .minus) :
    Script.closesBlock l.upcoming = (Pattern.closingBrace l.rest).isSome := by
  simp [Script.closesBlock, upcoming, h]

theorem asRead_readRow {row : Row} (hm : l.mode = .line) (h : l.readRow.value = .ok row) :
    row.AsRead := by
  simp only [readRow] at h
  split_ifs at h
  · cases h
    trivial
  · cases h
    trivial
  · cases h
    trivial
  have hm := (reaches_passSpace l).mode hm
  generalize l.passSpace = m at h hm
  simp only [readMatter] at h
  split at h
  · cases h
    trivial
  by_cases hk : m.kind = .minus
  · rw [readLine_minus hk] at h
    cases h
    intro hcont hne
    have hcode : m.next.takeLine.1 ≠ [] := by
      intro hnil
      rw [hnil] at hne
      exact hne rfl
    obtain ⟨hline, hnewline⟩ := takeLine_code hm hcont hcode
    refine ⟨hnewline, ?_⟩
    have hrest : m.rest = m.next.takeLine.1 ++ m.rest.dropWhile fun c => !isLineBreak c := by
      rw [hline, List.takeWhile_append_dropWhile]
    rw [closesBlock_upcoming hk, hrest]
    exact isSome_closingBrace hne
  · have hopen : Script.closesBlock m.upcoming = false := by
      simp [Script.closesBlock, upcoming, hk]
    cases hv : (m.readLine l.token.depth).value with
    | error d =>
      rw [hv] at h
      cases h
    | ok x =>
      rw [hv] at h
      cases h
      cases x with
      | code c newline => exact absurd (kind_of_readLine_code hv) hk
      | _ => exact hopen

theorem asRead_of_mem_rows (hm : l.mode = .line) (h : l.rows = .ok rows) :
    ∀ row ∈ rows, row.AsRead := by
  fun_induction Lexer.rows l generalizing rows with
  | case1 =>
    cases h
    simp
  | case2 => cases h
  | case3 l hl row hr ih =>
    obtain ⟨more, hmore⟩ := ok_of_map_ok h
    rw [hmore] at h
    cases h
    intro row' hrow
    rcases List.mem_cons.1 hrow with rfl | hrow
    · exact asRead_readRow hm hr
    · exact ih ((advances_readRow hl).mode hm) hmore row' hrow

end Lexer

end Haml
