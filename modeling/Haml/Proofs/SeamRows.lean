import Haml.Proofs.FinalLineEnd
import Haml.Proofs.Seam

/-!
# Rows up to a seam

Where the same lines are followed by one text or by another, their rows are alike, if both
texts start with a line that is not blank and the first does not start less deep. Three
things of the lines may depend on what follows: whether a block goes on, whether a line has
contents below it, and whether a lone hyphen closes a block.
-/

namespace Haml

/-- Two texts that may follow the same lines: each starts with a line that is not blank or,
the second, with none, and the second starts no deeper than the first. -/
structure Seam (more more' : Text) : Prop where
  ne_nil : more ≠ []
  visible : (Lexer.ofText more).next.onBlankLine = false
  visible' : (Lexer.ofText more').next.onBlankLine = false
  depth_le : (Lexer.ofText more').next.token.depth ≤ (Lexer.ofText more).next.token.depth

theorem not_lineBreak_of_visible {t : Text} (h : (Lexer.ofText t).next.onBlankLine = false)
    {c : Char} (hc : t.head? = some c) : isLineBreak c = false := by
  cases hb : isLineBreak c with
  | false => rfl
  | true =>
    obtain ⟨u, rfl⟩ := List.head?_eq_some_iff.1 hc
    obtain ⟨m, hm, -⟩ := Lexeme.read?_lineBreak hb .line u
    have hx : Lexeme.read? (Lexer.ofText (c :: u)).mode (Lexer.ofText (c :: u)).rest =
        some ⟨.lineEnd, m, m⟩ := hm
    obtain ⟨_, -, -, hk, -⟩ := Lexer.next_of_read? hx
    rw [Lexer.onBlankLine, hk] at h
    cases h

theorem Seam.lockstep {more more' : Text} (h : Seam more more') :
    Lexer.Lockstep .inCode (Lexer.Level more more') (Lexer.UpToSeam more more')
      fun _ => Lexer.PastSeam more more' :=
  Lexer.lockstep_level h.ne_nil fun _ => not_lineBreak_of_visible h.visible

namespace Lexer

variable {more more' : Text} {l l' f : Lexer}

/-- On the way from `l` to `f` a token behind the seam is left. -/
def Crosses (more : Text) (l f : Lexer) : Prop :=
  ∃ k, l.Reaches k ∧ k.rest.length < more.length ∧ k.Advances f

theorem Crosses.of_reaches {k : Lexer} (h : Crosses more k f) (hl : l.Reaches k) :
    Crosses more l f := by
  obtain ⟨m, hm, hlt, hf⟩ := h
  exact ⟨m, hl.trans hm, hlt, hf⟩

theorem Crosses.lt_start {a : Text} (h : Crosses more l f) (hl : l.Counts (a ++ more)) :
    a.byteSize < f.token.span.start := by
  obtain ⟨k, hk, hlt, hf⟩ := h
  exact Nat.lt_of_lt_of_le ((hk.counts hl).position_lt hlt) hf.position_le_start

theorem Abreast.onBlankLine_eq (h : Abreast [] l l') : l'.onBlankLine = l.onBlankLine := by
  have hnext := abreast_next h.mode (h.rest.trans (List.append_nil _))
  simp only [Lexer.onBlankLine, h.kind, hnext.endsLine]

namespace AtSeam

variable (hseam : Seam more more') (h : AtSeam more more' l l')
include hseam h

theorem visible : l.onBlankLine = false ∧ l'.onBlankLine = false :=
  ⟨h.first.onBlankLine_eq.trans hseam.visible, h.second.onBlankLine_eq.trans hseam.visible'⟩

theorem depth_le : l'.token.depth ≤ l.token.depth := by
  rw [h.first.depth, h.second.depth]
  exact hseam.depth_le

theorem rest_length_lt : l.rest.length < more.length := by
  rw [h.first.rest, List.append_nil]
  exact rest_length_next_lt hseam.ne_nil

/-- A block that goes on behind the seam crosses it. -/
theorem crosses {depth : Nat} (hd : depth < l.token.depth) :
    Crosses more l (l.takeDeeperLines depth).2 := by
  rw [takeDeeperLines_of_deeper (h.visible hseam).1 hd]
  exact ⟨l, .refl l, h.rest_length_lt hseam,
    (advances_passLine (endsLine_eq_false_of_depth hd)).trans (reaches_takeDeeperLines _ depth)⟩

end AtSeam

/-- Whether a block goes on shows before the seam or at it; one that goes on behind it for
the first lexer alone is taken across it. -/
theorem resumes_level (hseam : Seam more more') :
    Resumes (Level more more') (UpToSeam more more') (Crosses more) where
  near {l l'} h := by
    rcases h with h | h
    · exact .inl ⟨h.kind_ne_eof hseam.ne_nil, h⟩
    · refine .inr fun depth => ?_
      obtain ⟨hv, hv'⟩ := h.visible hseam
      have hle := h.depth_le hseam
      rw [deeperLineFollows_of_visible hv, deeperLineFollows_of_visible hv']
      by_cases hd : depth < l.token.depth
      · exact .inr ⟨decide_eq_true hd, h.crosses hseam hd⟩
      · exact .inl ⟨decide_eq_false hd, decide_eq_false (by omega)⟩
  earlier hl h := h.of_reaches hl

/-! ### Contents below -/

theorem hasInlineContents_eq (l : Lexer) : l.hasInlineContents = !l.passSpace.endsLine := by
  rw [hasInlineContents, passSpace]
  split <;> rfl

/-- Without contents on its line, a tag or a comment has them if the next line is deeper. -/
theorem hasContents_of_line_end (h : l.hasInlineContents = false) (hk : l.passSpace.kind ≠ .eof)
    (depth : Nat) :
    l.hasContents depth = decide (depth < l.passSpace.passLineEnd.token.depth) := by
  have he : l.passSpace.endsLine = true := by simpa [hasInlineContents_eq] using h
  have hb : l.passSpace.kind.breaksLine = true := by
    cases hn : l.passSpace.kind <;>
      simp_all [endsLine, Token.Kind.endsLine, Token.Kind.breaksLine]
  rw [passLineEnd, if_pos hb, hasContents, h, Bool.false_or]
  by_cases hs : l.kind = .space
  · have hp : l.passSpace = l.next := if_pos hs
    rw [hp, hs]
    rfl
  · have hp : l.passSpace = l := if_neg hs
    rw [hp] at hk
    rw [hp]
    split
    · contradiction
    · contradiction
    · rfl

theorem lexer_readContents_of_line_end (h : l.hasInlineContents = false) (inner : Bool) :
    (l.readContents inner).lexer = l.passSpace.passLineEnd := by
  have he : l.passSpace.endsLine = true := by simpa [hasInlineContents_eq] using h
  have ha := announcesExpression_eq_false he
  have hb : l.passSpace.kind ≠ .bang := by
    intro hb
    rw [endsLine, hb] at he
    cases he
  simp only [readContents, readBody_eq, ha, hb, takeLine_of_endsLine he, endText, he]
  rfl

/-- A line that looks below is read up to the line that it looks at. -/
theorem lexer_readLine_of_looksBelow {depth : Nat} {x : Line} (hm : l.mode = .line)
    (h : l.looksBelow = true) (hv : (l.readLine depth).value = .ok x) :
    l.outlook.hasInlineContents = false ∧
      (l.readLine depth).lexer = l.outlook.passSpace.passLineEnd := by
  by_cases hs : l.kind = .slash
  · have he : l.next.takeLine.2.endsLine = true := endsLine_takeLine hm
    have hp : l.next.takeLine.2.passSpace = l.next.takeLine.2 := by
      refine if_neg fun hk => ?_
      rw [endsLine, hk] at he
      cases he
    rw [outlook, if_pos hs, hasInlineContents_eq, hp, he]
    exact ⟨rfl, by simp only [readLine_eq, hs]⟩
  · obtain ⟨⟨⟨ht, -⟩, hunmarked⟩, hinline⟩ : ((l.startsTag = true ∧
        isSelfClosingName (l.readName.1.getD defaultTagName) = true) ∧
          l.tagMarks.1.selfClosing = false) ∧ l.tagMarks.2.hasInlineContents = false := by
      simpa [looksBelow, hs] using h
    rw [outlook, if_neg hs]
    refine ⟨hinline, ?_⟩
    cases htag : (l.readTag depth).value with
    | error d =>
      rw [readLine_refused ht htag] at hv
      cases hv
    | ok head =>
      have hlexer := congrArg Reading.lexer (readLine_tag ht htag)
      rw [hlexer, lexer_readTag htag, lexer_readContents_of_line_end hinline]

end Lexer

/-! ### A lone hyphen -/

theorem Pattern.isSome_closingBrace_blank {t : Text} (ht : t.trimStart = []) (u : Text) :
    (closingBrace (t ++ u)).isSome = (closingBrace u).isSome := by
  have hblank : ∀ c ∈ t, isBlank c = true := List.dropWhile_eq_nil_iff.1 ht
  simp only [closingBrace, andThen, many, List.takeWhile_append_of_pos hblank,
    List.length_append, Option.isSome_map]
  rw [List.drop_append, List.drop_eq_nil_of_le (by omega), List.nil_append, Nat.add_sub_cancel_left]

theorem Lexeme.matched_of_minus {mode : Mode} {t : Text} {x : Lexeme} (h : read? mode t = some x)
    (hk : x.kind = .minus) : x.matched = ['-'] := by
  cases t with
  | nil => cases h
  | cons c t =>
    rcases read?_cases h with ⟨r, hr, hx⟩ | ⟨-, rfl⟩
    · obtain ⟨m, hm, rfl⟩ := Option.map_eq_some_iff.1 hx
      have hne : r.kind ≠ .minus := by
        clear hk hx hm
        revert r
        cases mode <;> simp [rules, commonRules, lineRules, listRules, hashRules]
      exact absurd hk hne
    · simp only [signKind] at hk
      split at hk <;> first | rfl | cases hk

/-- The last line of a text that is not blank, if it is a hyphen alone. -/
theorem trimStart_of_hyphen {before t : Text} (indent : Text) (hb : before.openLine = [])
    (hi : ∀ c ∈ indent, isIndent c = true) (ht : t.trimStart = []) :
    Text.trimStart (Text.openLine (Text.trimEnd (before ++ (indent ++ '-' :: t)))) = ['-'] := by
  have hblank : ∀ c ∈ t.reverse, isBlank c = true := fun c hc =>
    List.dropWhile_eq_nil_iff.1 ht c (List.mem_reverse.1 hc)
  have hindent : ∀ c ∈ indent, isBlank c = true := by
    intro c hc
    have hc : c = ' ' ∨ c = '\t' := by simpa [isIndent] using hi c hc
    rcases hc with rfl | rfl <;> rfl
  have hhyphen : isBlank '-' = false := by decide
  have htrim : Text.trimEnd (before ++ (indent ++ '-' :: t)) = before ++ (indent ++ ['-']) := by
    have hreverse : (before ++ (indent ++ '-' :: t)).reverse =
        t.reverse ++ '-' :: (before ++ indent).reverse := by simp
    rw [Text.trimEnd, Text.dropEndWhile, hreverse, List.dropWhile_append_of_pos hblank,
      List.dropWhile_cons_of_neg (by simp [hhyphen])]
    simp
  have hone : OneLine (indent ++ ['-']) := by
    intro c hc
    rcases List.mem_append.1 hc with hc | hc
    · exact isLineBreak_eq_false (p := isIndent) rfl rfl (hi c hc)
    · rw [List.mem_singleton.1 hc]
      rfl
  rw [htrim, Lexer.openLine_append hb hone, Text.trimStart, List.dropWhile_append_of_pos hindent,
    List.dropWhile_cons_of_neg (by simp [hhyphen])]

namespace Lexer

variable {more more' a : Text} {l l' m : Lexer}

/-- A hyphen with nothing but blanks behind it up to the seam is the last of the lines. -/
theorem trimStart_of_lone_hyphen (h : Abreast more m l.passSpace) (hl : l.OnToken (a ++ more))
    (hcolumn : l.token.span.column = 1) (hk : l.passSpace.kind = .minus)
    (hblank : m.rest.trimStart = []) : Text.trimStart (Text.openLine (Text.trimEnd a)) = ['-'] := by
  obtain ⟨before, hsource, -, hc⟩ := hl.start_eq
  have hopen : before.openLine = [] := List.eq_nil_of_length_eq_zero (by omega)
  have hmatched : l.passSpace.token.matched = ['-'] := by
    rcases hl.passSpace.cases with ⟨he, -⟩ | ⟨_, _, x, _, hx, hkind, hmatched, -⟩
    · rw [hk] at he
      cases he
    · rw [hmatched]
      exact Lexeme.matched_of_minus hx (hkind.symm.trans hk)
  by_cases hs : l.kind = .space
  · have hp : l.passSpace = l.next := if_pos hs
    have hindent : ∀ c ∈ l.token.matched, isIndent c = true := by
      rcases hl.cases with ⟨he, -⟩ | ⟨_, _, x, _, hx, hkind, hmatched, -⟩
      · rw [hs] at he
        cases he
      · intro c hc
        rw [hmatched] at hc
        exact Lexeme.isIndent_of_space hx (hkind.symm.trans hs) hc
    have hafter : l.rest = '-' :: m.rest ++ more := by
      rw [← matched_next l, ← hp, hmatched, h.rest]
      rfl
    rw [hafter, ← List.append_assoc l.token.matched, ← List.append_assoc] at hsource
    rw [List.append_cancel_right hsource]
    exact trimStart_of_hyphen _ hopen hindent hblank
  · have hp : l.passSpace = l := if_neg hs
    rw [hp] at hmatched h
    rw [hmatched, h.rest, ← List.append_assoc ['-'], ← List.append_assoc] at hsource
    rw [List.append_cancel_right hsource]
    exact trimStart_of_hyphen [] hopen nofun hblank

/-- Whether a line closes a block is seen alike, if a lone hyphen before the seam has a
closing brace behind it in both texts or in none. -/
theorem Level.closesBlock (hspace : Level more more' l.passSpace l'.passSpace)
    (hl : l.OnToken (a ++ more)) (hstart : l.endsLine = true ∨ l.token.span.column = 1)
    (hbrace : (Pattern.closingBrace more').isSome = (Pattern.closingBrace more).isSome ∨
      Text.trimStart (Text.openLine (Text.trimEnd a)) ≠ ['-']) :
    Script.closesBlock l'.passSpace.upcoming = Script.closesBlock l.passSpace.upcoming := by
  by_cases hk : l.passSpace.kind = .minus
  · rw [closesBlock_upcoming hk, closesBlock_upcoming (hspace.kind.trans hk)]
    obtain ⟨m, h, h'⟩ := hspace
    rw [h.rest, h'.rest]
    by_cases hblank : m.rest.trimStart = []
    · rw [Pattern.isSome_closingBrace_blank hblank, Pattern.isSome_closingBrace_blank hblank]
      refine hbrace.resolve_right fun hne => hne ?_
      have hends : ¬l.endsLine = true := by
        intro he
        have hs : l.kind ≠ .space := by
          intro hs
          rw [Lexer.endsLine, hs] at he
          cases he
        have hp : l.passSpace = l := if_neg hs
        rw [hp] at hk
        rw [Lexer.endsLine, hk] at he
        cases he
      exact trimStart_of_lone_hyphen h hl (hstart.resolve_left hends) hk hblank
    · rw [isSome_closingBrace hblank, isSome_closingBrace hblank]
  · have hfalse {k : Lexer} (hk : k.kind ≠ .minus) : Script.closesBlock k.upcoming = false := by
      simp [Script.closesBlock, upcoming, hk]
    rw [hfalse hk, hfalse (by rwa [hspace.kind])]

/-! ### Rows before a place -/

/-- The rows that start before the byte `n`, each with the lexer that it is read from, as
far as rows are read, and the lexer that is reached behind them. -/
def rowsBefore (n : Nat) (l : Lexer) : List (Lexer × Row) × Lexer :=
  if _ : l.kind = .eof ∨ n ≤ l.token.span.start then ([], l)
  else
    match l.readRow.value with
    | .error _ => ([], l)
    | .ok row => ((l, row) :: (l.readRow.lexer.rowsBefore n).1, (l.readRow.lexer.rowsBefore n).2)
termination_by l.remaining
decreasing_by all_goals exact (advances_readRow fun hk => ‹¬(_ ∨ _)› (.inl hk)).remaining_lt

/-- A row starts at the byte `n`, or one before it is refused and nothing behind `n` is read
of it. -/
def ComesTo (n : Nat) (l : Lexer) : Prop :=
  (l.rowsBefore n).2.token.span.start = n ∨
    (l.rowsBefore n).2.token.span.start < n ∧
      (l.rowsBefore n).2.readRow.lexer.cursor.position ≤ n

instance (n : Nat) (l : Lexer) : Decidable (l.ComesTo n) := inferInstanceAs (Decidable (_ ∨ _))

section RowsBefore

variable {n : Nat} {row : Row} {d : Diagnostic}

theorem rowsBefore_of_ge (h : n ≤ l.token.span.start) : l.rowsBefore n = ([], l) := by
  rw [rowsBefore, dif_pos (.inr h)]

theorem rowsBefore_of_refused (hk : l.kind ≠ .eof) (hlt : l.token.span.start < n)
    (hd : l.readRow.value = .error d) : l.rowsBefore n = ([], l) := by
  rw [rowsBefore, dif_neg (by rintro (h | h); exacts [hk h, by omega]), hd]

theorem rowsBefore_of_row (hk : l.kind ≠ .eof) (hlt : l.token.span.start < n)
    (hv : l.readRow.value = .ok row) :
    l.rowsBefore n =
      ((l, row) :: (l.readRow.lexer.rowsBefore n).1, (l.readRow.lexer.rowsBefore n).2) := by
  rw [rowsBefore, dif_neg (by rintro (h | h); exacts [hk h, by omega]), hv]

/-- The rows of a template are those before a place and those from there on. -/
theorem rows_eq_before (n : Nat) (l : Lexer) :
    l.rows = (l.rowsBefore n).2.rows.map ((l.rowsBefore n).1.map Prod.snd ++ ·) := by
  have hnone (x : Except Diagnostic (List Row)) : x = x.map ([] ++ ·) := by
    cases x <;> rfl
  fun_induction rowsBefore n l with
  | case1 l h => exact hnone _
  | case2 l h d hd => exact hnone _
  | case3 l h row hv ih =>
    rw [rows_of_row (fun hk => h (.inl hk)) hv, ih]
    cases (l.readRow.lexer.rowsBefore n).2.rows <;> rfl

theorem ComesTo.start_le (h : l.ComesTo n) : l.token.span.start ≤ n := by
  by_cases hge : n ≤ l.token.span.start
  · rw [ComesTo, rowsBefore_of_ge hge] at h
    simp only at h
    omega
  · omega

theorem ComesTo.of_row (h : l.ComesTo n) (hk : l.kind ≠ .eof) (hlt : l.token.span.start < n)
    (hv : l.readRow.value = .ok row) : l.readRow.lexer.ComesTo n := by
  rwa [ComesTo, rowsBefore_of_row hk hlt hv] at h

theorem ComesTo.of_refused (h : l.ComesTo n) (hk : l.kind ≠ .eof) (hlt : l.token.span.start < n)
    (hd : l.readRow.value = .error d) : l.readRow.lexer.cursor.position ≤ n := by
  rw [ComesTo, rowsBefore_of_refused hk hlt hd] at h
  simp only at h
  omega

end RowsBefore

/-! ### Rows up to the seam -/

/-- A block is read as far as its row. -/
theorem readRow_of_block (h : l.passSpace.kind = .silentComment ∨ l.passSpace.kind = .filter) :
    (∃ row, l.readRow.value = .ok row) ∧
      l.readRow.lexer = (l.passSpace.takeBlock l.token.depth).2 := by
  have he : l.passSpace.endsLine = false := by
    rcases h with h | h <;> rw [endsLine, h] <;> rfl
  rcases h with h | h
  · obtain ⟨hvalue, hlexer⟩ := readRow_of_line he (by simp [h])
    simp only [readLine_eq, h] at hvalue hlexer
    exact ⟨⟨_, hvalue⟩, hlexer⟩
  · obtain ⟨hvalue, hlexer⟩ := readRow_of_matter he
    rw [readMatter, if_pos h] at hvalue hlexer
    exact ⟨⟨_, hvalue⟩, hlexer⟩

theorem endsLine_of_looksBelow (h : l.looksBelow = true) :
    l.endsLine = false ∧ l.kind ≠ .filter := by
  rw [looksBelow, Bool.or_eq_true] at h
  rcases h with hs | ht
  · have hs : l.kind = .slash := of_decide_eq_true hs
    rw [endsLine, hs]
    exact ⟨rfl, by decide⟩
  · have ht : l.startsTag = true := by
      simp only [Bool.and_eq_true] at ht
      exact ht.1.1.1
    refine ⟨endsLine_of_startsTag ht, fun hf => ?_⟩
    rw [startsTag, hf] at ht
    cases ht

/-- If a row comes to a place, its tag is read no further. -/
theorem ComesTo.position_readTag {source : Text} {n : Nat} (h : l.ComesTo n)
    (hl : l.OnToken source) (hm : l.mode = .line) (hk : l.kind ≠ .eof)
    (hlt : l.token.span.start < n) (ht : l.passSpace.startsTag = true) :
    (l.passSpace.readTag l.token.depth).lexer.cursor.position ≤ n := by
  have hf : l.passSpace.kind ≠ .filter := by
    intro hf
    simp [startsTag, hf] at ht
  obtain ⟨hvalue, hlexer⟩ := readRow_of_line (endsLine_of_startsTag ht) hf
  cases hv : (l.passSpace.readTag l.token.depth).value with
  | error d =>
    rw [readLine_refused ht hv] at hvalue hlexer
    have hle := h.of_refused hk hlt hvalue
    rwa [hlexer] at hle
  | ok head =>
    have hmode := (advances_readTag ht l.token.depth).reaches.mode ((reaches_passSpace l).mode hm)
    obtain ⟨c, hc⟩ := readContents_ok hmode head.options.inner
    rw [readLine_tag ht hv, hc] at hvalue
    rw [readLine_tag ht hv] at hlexer
    have hle := (h.of_row hk hlt hvalue).start_le
    rw [hlexer] at hle
    exact Nat.le_trans ((hl.passSpace.readTag hv).2.1.position_le_readContents _) hle

section Rows

variable (hseam : Seam more more')
  (hbrace : (Pattern.closingBrace more').isSome = (Pattern.closingBrace more).isSome ∨
    Text.trimStart (Text.openLine (Text.trimEnd a)) ≠ ['-'])
include hseam

/-- Two lines that look below see the same, if the line behind the seam makes no
difference to them. -/
theorem Level.hasContents (h : Level more more' l l') (hm : l.mode = .line)
    (hinline : l.hasInlineContents = false) (depth : Nat)
    (hbelow : AtSeam more more' l.passSpace.passLineEnd l'.passSpace.passLineEnd →
      (ofText more).next.token.depth ≤ depth ∨ depth < (ofText more').next.token.depth) :
    l'.hasContents depth = l.hasContents depth := by
  have hlockstep := hseam.lockstep
  have hspace := hlockstep.passSpace_within h hm
  have hkind := hspace.kind_ne_eof hseam.ne_nil
  rw [hasContents_of_line_end hinline hkind, hasContents_of_line_end
    ((hlockstep.hasInlineContents h hm).trans hinline) (by rwa [hspace.kind])]
  rcases hspace.passLineEnd ((reaches_passSpace l).mode hm) with hnext | hnext
  · rw [hlockstep.depth hnext]
  · have hdepth := hbelow hnext
    have hle := hseam.depth_le
    rw [hnext.first.depth, hnext.second.depth, decide_eq_decide]
    omega

include hbrace

/-- A row before the seam is read alike. -/
theorem Level.readRow (h : Level more more' l l') (hm : l.mode = .line)
    (hl : l.OnToken (a ++ more)) (hl' : l'.OnToken (a ++ more'))
    (hstart : l.endsLine = true ∨ l.token.span.column = 1)
    (hc : l.ComesTo a.byteSize) (hc' : l'.ComesTo a.byteSize)
    (hbelow : ∀ row, l.readRow.value = .ok row → l.passSpace.looksBelow = true →
      l.readRow.lexer.token.span.start = a.byteSize →
        (ofText more).next.token.depth ≤ l.token.depth ∨
          l.token.depth < (ofText more').next.token.depth) :
    l.readRow.Agree .inCode (Level more more') (UpToSeam more more') NotLost (Row.Like .inCode)
      l'.readRow := by
  have hlockstep := hseam.lockstep
  have hk := h.kind_ne_eof hseam.ne_nil
  have hk' : l'.kind ≠ .eof := by rwa [h.kind]
  have hspace := hlockstep.passSpace_within h hm
  have hmode := (reaches_passSpace l).mode hm
  have hlt : l.token.span.start < a.byteSize := by
    obtain ⟨m, h, -⟩ := h
    exact h.start_lt hl hk
  have hlt' : l'.token.span.start < a.byteSize := by
    obtain ⟨m, -, h⟩ := h
    exact h.start_lt hl' hk'
  refine (hlockstep.readRow h hm h.kind hspace.kind (hspace.closesBlock hl hstart hbrace)
    ?_ ?_).resolve_left ?_
  · intro hlooks ⟨x, hx⟩ hnear
    obtain ⟨hinline, hlexer⟩ := lexer_readLine_of_looksBelow hmode hlooks hx
    refine hnear.hasContents hseam (mode_outlook hmode) hinline _ fun hnext => ?_
    obtain ⟨he, hf⟩ := endsLine_of_looksBelow hlooks
    have htoken := hl.passSpace.readLine hmode hx
    obtain ⟨hvalue, hread⟩ := readRow_of_line he hf
    rw [hx] at hvalue
    refine hbelow _ hvalue hlooks ?_
    rw [hread]
    rw [← hlexer] at hnext
    exact start_of_abreast_ofText hnext.first htoken
  · intro hblock
    obtain ⟨⟨row, hrow⟩, hlexer⟩ := readRow_of_block hblock
    refine (hseam.lockstep.takeBlock (resumes_level hseam) hspace hmode l.token.depth).resolve_left
      fun hcross => ?_
    have hle := (hc.of_row hk hlt hrow).start_le
    have hpast := hcross.lt_start hl.passSpace.counts
    rw [hlexer] at hle
    omega
  · rintro ⟨ht, hpast | hpast⟩
    · have hle := hc.position_readTag hl hm hk hlt ht
      have hcounts := ((reaches_passSpace l).trans
        (advances_readTag ht l.token.depth).reaches).counts hl.counts
      exact absurd (hcounts.position_lt hpast) (by omega)
    · have ht' : l'.passSpace.startsTag = true := (hlockstep.startsTag hspace).trans ht
      have hle := hc'.position_readTag hl' (h.mode.trans hm) hk' hlt' ht'
      rw [hlockstep.depth h] at hle
      have hcounts := ((reaches_passSpace l').trans
        (advances_readTag ht' l.token.depth).reaches).counts hl'.counts
      exact absurd (hcounts.position_lt hpast) (by omega)

/-- The rows before the seam are alike, or both texts are refused there. -/
theorem UpToSeam.rowsBefore (h : UpToSeam more more' l l') (hm : l.mode = .line)
    (hl : l.OnToken (a ++ more)) (hl' : l'.OnToken (a ++ more'))
    (hstart : l.endsLine = true ∨ l.token.span.column = 1)
    (hc : l.ComesTo a.byteSize) (hc' : l'.ComesTo a.byteSize)
    (hbelow : ∀ r ∈ (l.rowsBefore a.byteSize).1, r.1.passSpace.looksBelow = true →
      r.1.readRow.lexer.token.span.start = a.byteSize →
        (ofText more).next.token.depth ≤ r.1.token.depth ∨
          r.1.token.depth < (ofText more').next.token.depth) :
    (∃ d d', l.rows = .error d ∧ l'.rows = .error d') ∨
      List.Forall₂ (Row.Like .inCode) ((l.rowsBefore a.byteSize).1.map Prod.snd)
          ((l'.rowsBefore a.byteSize).1.map Prod.snd) ∧
        AtSeam more more' (l.rowsBefore a.byteSize).2 (l'.rowsBefore a.byteSize).2 := by
  induction hn : l.remaining using Nat.strong_induction_on generalizing l l' with
  | _ n ih =>
    rcases h with h | h
    · have hk := h.kind_ne_eof hseam.ne_nil
      have hk' : l'.kind ≠ .eof := by rwa [h.kind]
      have hlt : l.token.span.start < a.byteSize := by
        obtain ⟨m, h, -⟩ := h
        exact h.start_lt hl hk
      have hlt' : l'.token.span.start < a.byteSize := by
        obtain ⟨m, -, h⟩ := h
        exact h.start_lt hl' hk'
      have hrow : l.readRow.Agree .inCode (Level more more') (UpToSeam more more') NotLost
          (Row.Like .inCode) l'.readRow := by
        refine h.readRow hseam hbrace hm hl hl' hstart hc hc' fun row hv => ?_
        rw [rowsBefore_of_row hk hlt hv] at hbelow
        exact hbelow (l, row) List.mem_cons_self
      cases hrow with
      | lost h => exact h.elim
      | fault hd hd' => exact .inl ⟨_, _, rows_of_refused hk hd, rows_of_refused hk' hd'⟩
      | @ok row row' hv hv' hR hnext _ =>
        rw [rowsBefore_of_row hk hlt hv] at hbelow ⊢
        rw [rowsBefore_of_row hk' hlt' hv', rows_of_row hk hv, rows_of_row hk' hv']
        have hread := hl.atLine_readRow hm hv
        have hread' := hl'.atLine_readRow (h.mode.trans hm) hv'
        have hmode := (advances_readRow hk).mode hm
        have hends : l.readRow.lexer.endsLine = true ∨ l.readRow.lexer.token.span.column = 1 := by
          rcases hread with hline | hend
          · exact hline.starts.imp_left fun he => by rw [Lexer.endsLine, he]; rfl
          · exact .inl hend.2.2
        have hrest := ih _ (hn ▸ (advances_readRow hk).remaining_lt) hnext hmode
          (hread.elim AtLine.onToken fun h => h.2.1) (hread'.elim AtLine.onToken fun h => h.2.1)
          hends (hc.of_row hk hlt hv) (hc'.of_row hk' hlt' hv')
          (fun r hr => hbelow r (List.mem_cons_of_mem _ hr)) rfl
        rcases hrest with ⟨d, d', hd, hd'⟩ | ⟨hrows, hat⟩
        · exact .inl ⟨d, d', by rw [hd]; rfl, by rw [hd']; rfl⟩
        · exact .inr ⟨.cons hR hrows, hat⟩
    · have hat := start_of_abreast_ofText h.first hl
      have hat' := start_of_abreast_ofText h.second hl'
      rw [rowsBefore_of_ge (by omega), rowsBefore_of_ge (by omega)]
      exact .inr ⟨.nil, h⟩

end Rows

end Lexer

end Haml
