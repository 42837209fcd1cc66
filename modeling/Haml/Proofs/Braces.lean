import Haml.Expression
import Haml.Proofs.Writing

/-!
# Braces of a script

A brace counts only outside string literals. Code that closes all its literals
takes a number of open braces to another; literal text takes every number to
itself, however many braces are in it.
-/

namespace Haml

namespace Script

/-- The characters of a script outside its string literals, from outside all
literals or from inside one that `quote` ends. -/
def bare : Option Char → Text → Text
  | _, [] => []
  | none, c :: t => if Expression.isQuote c then bare (some c) t else c :: bare none t
  | some q, '\\' :: _ :: t => bare (some q) t
  | some q, c :: t => bare (if c = q then none else some q) t

/-- The quote that ends the literal in which a script stops. -/
def quoteAfter : Option Char → Text → Option Char
  | quote, [] => quote
  | none, c :: t => quoteAfter (if Expression.isQuote c then some c else none) t
  | some q, '\\' :: _ :: t => quoteAfter (some q) t
  | some q, c :: t => quoteAfter (if c = q then none else some q) t

/-- The number of braces open behind a text, with `n` open before it. There is none
if a brace is closed that was not opened. -/
def openBraces : Nat → Text → Option Nat
  | n, [] => some n
  | n, c :: t =>
    if c = '\x7b' then openBraces (n + 1) t
    else if c = '\x7d' then if n = 0 then none else openBraces (n - 1) t
    else openBraces n t

theorem bare_inside {q c : Char} (hc : c ≠ '\\') (t : Text) :
    bare (some q) (c :: t) = bare (if c = q then none else some q) t ∧
      quoteAfter (some q) (c :: t) = quoteAfter (if c = q then none else some q) t := by
  simp [bare, quoteAfter, hc]

/-- Behind code that ends all its literals, the literals of more code are its own. -/
theorem bare_append {q : Option Char} {s : Text} (hq : q ≠ some '\\')
    (h : quoteAfter q s = none) (t : Text) :
    bare q (s ++ t) = bare q s ++ bare none t ∧ quoteAfter q (s ++ t) = quoteAfter none t := by
  fun_induction quoteAfter q s with
  | case1 =>
    subst h
    exact ⟨rfl, rfl⟩
  | case2 c s ih =>
    by_cases hc : Expression.isQuote c
    · have hne : some c ≠ some '\\' := by
        rintro ⟨⟩
        cases hc
      simpa [bare, quoteAfter, hc] using ih (by simpa [hc] using hne) h
    · simpa [bare, quoteAfter, hc] using ih (by simp [hc]) h
  | case3 q c s ih => simpa [bare, quoteAfter] using ih hq h
  | case4 q c s hs ih =>
    have hc : c ≠ '\\' := by
      rintro rfl
      cases s with
      | nil =>
        have hne : '\\' ≠ q := fun he => hq (by rw [he])
        rw [if_neg hne] at h
        cases h
      | cons d u => exact hs d u rfl rfl
    have hq' : (if c = q then none else some q) ≠ some '\\' := by
      split
      · simp
      · exact hq
    obtain ⟨hbare, hquote⟩ := ih hq' h
    rw [List.cons_append, (bare_inside hc _).1, (bare_inside hc _).2, (bare_inside hc _).1]
    exact ⟨hbare, hquote⟩

theorem openBraces_append (n : Nat) (s t : Text) :
    openBraces n (s ++ t) = (openBraces n s).bind (openBraces · t) := by
  fun_induction openBraces n s with
  | case1 => rfl
  | case2 n s ih => simpa [openBraces] using ih
  | case3 s => simp [openBraces]
  | case4 n s hn _ ih => simpa [openBraces, hn] using ih
  | case5 n c s ho hc ih => simpa [openBraces, ho, hc] using ih

theorem openBraces_add {n k : Nat} {t : Text} (h : openBraces n t = some k) (m : Nat) :
    openBraces (n + m) t = some (k + m) := by
  fun_induction openBraces n t with
  | case1 =>
    cases h
    rfl
  | case2 n t ih => simpa [openBraces, Nat.add_right_comm] using ih h
  | case3 => cases h
  | case4 n t hn _ ih =>
    have hsub : n + m - 1 = n - 1 + m := by omega
    simpa [openBraces, hn, hsub] using ih h
  | case5 n c t ho hc ih => simpa [openBraces, ho, hc] using ih h

theorem count_of_openBraces {n k : Nat} {t : Text} (h : openBraces n t = some k) :
    t.count '\x7b' + n = t.count '\x7d' + k := by
  fun_induction openBraces n t with
  | case1 =>
    cases h
    rfl
  | case2 n t ih =>
    have := ih h
    simp
    omega
  | case3 => cases h
  | case4 n t hn _ ih =>
    have := ih h
    simp
    omega
  | case5 n c t ho hc ih => simpa [List.count_cons, ho, hc] using ih h

/-- No beginning of a text closes more braces than were open before it and in it. -/
theorem count_le_of_openBraces {n k : Nat} {t p : Text} (h : openBraces n t = some k)
    (hp : p <+: t) : p.count '\x7d' ≤ p.count '\x7b' + n := by
  obtain ⟨r, rfl⟩ := hp
  rw [openBraces_append] at h
  obtain ⟨m, hm, -⟩ := Option.bind_eq_some_iff.1 h
  have := count_of_openBraces hm
  omega

/-- With `n` braces open before it, the code leaves `k` open, and no literal. -/
structure Braces (n : Nat) (code : Text) (k : Nat) : Prop where
  closed : quoteAfter none code = none
  counted : openBraces n (bare none code) = some k

instance (n : Nat) (code : Text) (k : Nat) : Decidable (Braces n code k) :=
  decidable_of_iff (quoteAfter none code = none ∧ openBraces n (bare none code) = some k)
    ⟨fun h => ⟨h.1, h.2⟩, fun h => ⟨h.1, h.2⟩⟩

namespace Braces

variable {n m k : Nat} {s t : Text}

theorem append (hs : Braces n s m) (ht : Braces m t k) : Braces n (s ++ t) k := by
  obtain ⟨hbare, hquote⟩ := bare_append (by simp) hs.closed t
  refine ⟨hquote.trans ht.closed, ?_⟩
  rw [hbare, openBraces_append, hs.counted]
  exact ht.counted

theorem nil (n : Nat) : Braces n [] n := ⟨rfl, rfl⟩

theorem add (h : Braces n t k) (m : Nat) : Braces (n + m) t (k + m) :=
  ⟨h.closed, openBraces_add h.counted m⟩

/-- Code without any quote or brace. -/
theorem of_plain (h : ∀ c ∈ t, c ≠ '\x7b' ∧ c ≠ '\x7d' ∧ Expression.isQuote c = false)
    (n : Nat) : Braces n t n := by
  induction t with
  | nil => exact nil n
  | cons c t ih =>
    obtain ⟨ho, hc, hq⟩ := h c (.head t)
    obtain ⟨hclosed, hcounted⟩ := ih fun d hd => h d (.tail c hd)
    exact ⟨by simpa [quoteAfter, hq] using hclosed,
      by simpa [bare, hq, openBraces, ho, hc] using hcounted⟩

theorem indentation (depth n : Nat) : Braces n (Text.indentation depth) n := by
  apply of_plain
  intro c hc
  obtain rfl := List.eq_of_mem_replicate hc
  decide

theorem lineEnd (h : t.all isLineBreak = true) (n : Nat) : Braces n t n := by
  apply of_plain
  intro c hc
  have hb := List.all_eq_true.1 h c hc
  have heq : c = '\n' ∨ c = '\r' := by simpa [isLineBreak] using hb
  rcases heq with rfl | rfl <;> decide

end Braces

theorem hexDigit_ne {n : Nat} (h : n < 16) : Text.hexDigit n ≠ '"' ∧ Text.hexDigit n ≠ '\\' := by
  have hall : ∀ i : Fin 16, Text.hexDigit i ≠ '"' ∧ Text.hexDigit i ≠ '\\' := by decide
  exact hall ⟨n, h⟩

/-- A quoted character does not end the literal it stands in. -/
theorem bare_quoteChar (c : Char) (t : Text) :
    bare (some '"') (Text.quoteChar c ++ t) = bare (some '"') t ∧
      quoteAfter (some '"') (Text.quoteChar c ++ t) = quoteAfter (some '"') t := by
  have hinside {d : Char} (hq : d ≠ '"') (hb : d ≠ '\\') (u : Text) :
      bare (some '"') (d :: u) = bare (some '"') u ∧
        quoteAfter (some '"') (d :: u) = quoteAfter (some '"') u := by
    have h := bare_inside (q := '"') hb u
    rwa [if_neg hq] at h
  by_cases hq : c = '"'
  · subst hq
    exact ⟨rfl, rfl⟩
  by_cases hb : c = '\\'
  · subst hb
    exact ⟨rfl, rfl⟩
  simp only [Text.quoteChar, hq, hb, if_false]
  -- Five more characters and the two line separators are written in fixed letters.
  iterate 5
    split
    · exact ⟨rfl, rfl⟩
  split
  · obtain ⟨hq₁, hb₁⟩ := hexDigit_ne (n := c.toNat / 16) (by omega)
    obtain ⟨hq₂, hb₂⟩ := hexDigit_ne (n := c.toNat % 16) (by omega)
    have h₁ := hinside hq₁ hb₁ (Text.hexDigit (c.toNat % 16) :: t)
    have h₂ := hinside hq₂ hb₂ t
    exact ⟨h₁.1.trans h₂.1, h₁.2.trans h₂.2⟩
  iterate 2
    split
    · exact ⟨rfl, rfl⟩
  exact hinside hq hb t

/-- A quoted text is one literal. -/
theorem bare_quote (t u : Text) :
    bare none (t.quote ++ u) = bare none u ∧
      quoteAfter none (t.quote ++ u) = quoteAfter none u := by
  have hinside : bare (some '"') (t.flatMap Text.quoteChar ++ '"' :: u) = bare none u ∧
      quoteAfter (some '"') (t.flatMap Text.quoteChar ++ '"' :: u) = quoteAfter none u := by
    induction t with
    | nil => exact ⟨rfl, rfl⟩
    | cons c t ih =>
      rw [List.flatMap_cons, List.append_assoc, (bare_quoteChar c _).1, (bare_quoteChar c _).2]
      exact ih
  rw [Text.quote, List.cons_append, List.append_assoc]
  exact hinside

theorem braces_pushLiteral (t : Text) (n : Nat) : Braces n (pushLiteral t) n := by
  have hquote : Braces n t.quote n := by
    obtain ⟨hbare, hquote⟩ := bare_quote t []
    rw [List.append_nil] at hbare hquote
    exact ⟨hquote, by rw [hbare]; rfl⟩
  have hopening : Braces n ("    html.push(" : Text) n := by
    have h : Braces 0 ("    html.push(" : Text) 0 := by decide
    rw [← Nat.zero_add n]
    exact h.add n
  have hclosing : Braces n (");\n" : Text) n := by
    have h : Braces 0 (");\n" : Text) 0 := by decide
    rw [← Nat.zero_add n]
    exact h.add n
  exact (hopening.append hquote).append hclosing

theorem braces_closer (kind : BlockKind) (n : Nat) : Braces (n + 1) (closer kind) n := by
  have h : Braces 1 (closer kind) 0 := by cases kind <;> decide
  simpa [Nat.add_comm] using h.add n

end Script

def Piece.isLiteral : Piece → Bool
  | .literal _ => true
  | .code _ => false

/-- Whether an instruction writes nothing but literal text, or nothing at all. -/
def Instruction.isLiteral : Instruction → Bool
  | .depth _ | .markup _ | .trimMarkup | .scanned _ => true
  | .text t interpolate _ _ => !interpolate || (Piece.split t).all Piece.isLiteral
  | _ => false

def Instruction.generatesCloser : Instruction → Bool
  | .closeBlock _ u => !Script.closesBlock u
  | _ => false

theorem Instruction.generatesCloser_eq_false {i : Instruction} (h : i.isLiteral = true) :
    i.generatesCloser = false := by
  cases i with
  | closeBlock => cases h
  | _ => rfl

namespace Script.Writer

variable {w : Writer} {n k : Nat}

/-- The writer has written code that leaves `n` braces open. What is pending will be
written as literal text. -/
structure Leaves (w : Writer) (n : Nat) : Prop where
  render : w.buffer.render = pushLiteral
  output : Braces 0 w.buffer.output n

namespace Leaves

theorem append (h : w.Leaves n) (t : Text) : (w.onBuffer (·.append t)).Leaves n :=
  ⟨h.render, h.output⟩

theorem write (h : w.Leaves n) {code : Text} (hc : Braces n code k) :
    (w.onBuffer (·.write code)).Leaves k := by
  have hflush : Braces 0 w.buffer.flush.output n := by
    rw [Buffer.output_flush]
    split
    · exact h.output
    · rw [h.render]
      exact h.output.append (braces_pushLiteral _ n)
  refine ⟨(Buffer.render_write _ _).trans h.render, ?_⟩
  simp only [onBuffer, Buffer.output_write]
  split
  · rename_i hnil
    rw [List.isEmpty_iff.1 hnil] at hc
    simpa using h.output.append hc
  · exact hflush.append hc

theorem pieces (h : w.Leaves n) {ps : List Piece} (hps : ps.all Piece.isLiteral = true)
    (point : Point) (processing : TextProcessing) :
    (ps.foldl (fun w p => w.piece point processing p) w).Leaves n := by
  induction ps generalizing w with
  | nil => exact h
  | cons p ps ih =>
    obtain ⟨hp, hps⟩ : p.isLiteral = true ∧ ps.all Piece.isLiteral = true := by
      simpa only [List.all_cons, Bool.and_eq_true] using hps
    cases p with
    | literal t => exact ih (h.append _) hps
    | code c => cases hp

/-- Literal text leaves all braces as they are. -/
theorem apply (h : w.Leaves n) {i : Instruction} (hi : i.isLiteral = true) :
    (w.apply i).Leaves n := by
  cases i with
  | depth => exact ⟨h.render, h.output⟩
  | markup t => exact h.append t
  | trimMarkup => exact ⟨h.render, h.output⟩
  | scanned => exact h
  | text t interpolate point processing =>
    cases interpolate with
    | false => exact h.append _
    | true => exact h.pieces hi point processing
  | _ => cases hi

theorem run (h : w.Leaves n) {is : List Instruction} (his : ∀ i ∈ is, i.isLiteral = true) :
    (w.run is).Leaves n := by
  induction is generalizing w with
  | nil => exact h
  | cons i is ih => exact ih (h.apply (his i (.head is))) fun j hj => his j (.tail i hj)

theorem code (h : w.Leaves n) {line newline : Text} (hline : Braces n line k)
    (hnewline : newline.all isLineBreak = true) : (w.apply (.code line newline)).Leaves k :=
  h.write (((Braces.indentation _ n).append hline).append (.lineEnd hnewline k))

/-- A block is closed unless the next line does so itself. -/
theorem closeBlock {u : Upcoming} (h : w.Leaves (n + if closesBlock u then 0 else 1))
    (kind : BlockKind) : (w.apply (.closeBlock kind u)).Leaves n := by
  simp only [Writer.apply, Writer.closeBlock]
  split
  · rename_i hu
    simpa [hu] using h
  · rename_i hu
    have h : w.Leaves (n + 1) := by simpa [hu] using h
    exact h.write (((Braces.indentation _ _).append (braces_closer kind n)).append
      (.lineEnd rfl n))

theorem start (tolerant : Bool) : (({} : Writer).apply (.start tolerant)).Leaves 1 := by
  have hempty : ({} : Writer).Leaves 0 := ⟨rfl, .nil 0⟩
  refine hempty.write ?_
  cases tolerant <;> decide +kernel

theorem finish (h : w.Leaves (n + 1)) : (w.apply .finish).Leaves n := by
  have hepilogue : Braces 1 epilogue 0 := by decide +kernel
  refine h.write ?_
  simpa [Nat.add_comm] using hepilogue.add n

end Leaves

end Script.Writer

namespace Script

/-- The instructions take `a` open braces to `b`, whatever else is open, and make
`g` closing braces of their own accord. -/
structure Turns (is : List Instruction) (a b g : Nat) : Prop where
  leaves : ∀ (w : Writer) (n : Nat), w.Leaves (n + a) → (w.run is).Leaves (n + b)
  generated : is.countP Instruction.generatesCloser = g

namespace Turns

variable {is js : List Instruction} {a b c g h : Nat}

theorem append (hi : Turns is a b g) (hj : Turns js b c h) : Turns (is ++ js) a c (g + h) where
  leaves w n hw := by
    rw [Writer.run_append]
    exact hj.leaves _ n (hi.leaves w n hw)
  generated := by rw [List.countP_append, hi.generated, hj.generated]

theorem frame (hi : Turns is a b g) (m : Nat) : Turns is (m + a) (m + b) g where
  leaves w n hw := by
    rw [← Nat.add_assoc] at hw ⊢
    exact hi.leaves w (n + m) hw
  generated := hi.generated

theorem of_literal (his : ∀ i ∈ is, i.isLiteral = true) (a : Nat) : Turns is a a 0 where
  leaves _ _ hw := hw.run his
  generated := by
    rw [List.countP_eq_zero]
    intro i hi
    simp [Instruction.generatesCloser_eq_false (his i hi)]

theorem depth (d a : Nat) : Turns [.depth d] a a 0 := of_literal (by simp [Instruction.isLiteral]) a

theorem code {line newline : Text} (hline : Braces a line b)
    (hnewline : newline.all isLineBreak = true) : Turns [.code line newline] a b 0 where
  leaves w n hw := by
    have hline : Braces (n + a) line (n + b) := by
      rw [Nat.add_comm n, Nat.add_comm n]
      exact hline.add n
    exact hw.code hline hnewline
  generated := rfl

theorem closeBlock (kind : BlockKind) (u : Upcoming) :
    Turns [.closeBlock kind u] (if closesBlock u then 0 else 1) 0
      (if closesBlock u then 0 else 1) where
  leaves _ _ hw := hw.closeBlock kind
  generated := by
    by_cases hu : closesBlock u <;> simp [Instruction.generatesCloser, hu]

/-- A whole body leaves open what the instructions between its start and its end do. -/
theorem body (hi : Turns is 0 b g) (tolerant : Bool) :
    Braces 0 (body (.start tolerant :: is ++ [.finish])) b := by
  have hstart := Writer.Leaves.start tolerant
  have hrun := hi.leaves _ 1 hstart
  rw [Nat.add_comm] at hrun
  have hfinish := hrun.finish.output
  rw [Script.body, Writer.run_append]
  exact hfinish

end Turns

end Script

end Haml
