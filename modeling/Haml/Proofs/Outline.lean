import Haml.Proofs.LineReading
import Haml.Proofs.Writing

/-!
# Outlines

An outline is a forest of tags, comments and texts, with faulty lines in between.
It is printed as a template, one line a node and children one level deeper, with
any spaces and tabs that make up the level; and it has a rendering, defined by
recursion on the forest, in which faulty lines and all below them are missing.
-/

namespace Haml

/-- A word that starts with a character of `p` and goes on in characters of `q`. -/
structure Word (p q : Char → Bool) where
  head : Char
  tail : Text
  head_mem : p head = true
  tail_all : tail.all q = true

namespace Word

variable {p q : Char → Bool}

def text (w : Word p q) : Text := w.head :: w.tail

theorem tail_mem (w : Word p q) : ∀ c ∈ w.tail, q c = true := List.all_eq_true.1 w.tail_all

theorem not_mem_text (w : Word p q) {c : Char} (hp : p c = false) (hq : q c = false) :
    c ∉ w.text := by
  intro hc
  rcases List.mem_cons.1 hc with rfl | hc
  · rw [w.head_mem] at hp
    cases hp
  · rw [w.tail_mem c hc] at hq
    cases hq

theorem oneLine_text (w : Word p q) (hp : p '\n' = false ∧ p '\r' = false)
    (hq : q '\n' = false ∧ q '\r' = false) : OneLine w.text := by
  intro c hc
  rcases List.mem_cons.1 hc with rfl | hc
  · exact isLineBreak_eq_false hp.1 hp.2 w.head_mem
  · exact isLineBreak_eq_false hq.1 hq.2 (w.tail_mem c hc)

/-- A word is read to its end, wherever it cannot go on. -/
theorem headed_text (w : Word p q) {c : Char} (hc : q c = false) (t : Text) :
    Pattern.headed p q (w.text ++ c :: t) = some w.text := by
  simp only [text, List.cons_append, Pattern.headed, w.head_mem, if_true]
  rw [List.takeWhile_append_of_pos w.tail_mem]
  simp [hc]

end Word

abbrev ElementName := Word Char.isAlpha Char.isAlphanum

/-- Text of one line that holds no expression and is not continued. -/
structure PlainText where
  text : Text
  ne_nil : text ≠ []
  oneLine : OneLine text
  uninterpolated : Uninterpolated text
  unbarred : Unbarred text

structure Condition where
  text : Text
  oneLine : OneLine text

def markupLine (depth : Nat) (t : Text) : Text := Text.indentation depth ++ t ++ ['\n']

/-- What can have lines below it. -/
inductive Container where
  | tag (name : ElementName)
  | comment
  | conditional (c : Condition)

namespace Container

def line : Container → Text
  | tag name => '%' :: name.text
  | comment => ['/']
  | conditional c => '/' :: '[' :: c.text ++ [']']

def opening : Container → Text
  | tag name => "<" ++ name.text ++ ">"
  | comment => "<!--"
  | conditional c => "<!--[" ++ c.text ++ "]>"

def closing : Container → Text
  | tag name => "</" ++ name.text ++ ">"
  | comment => "-->"
  | conditional _ => "<![endif]-->"

def mayBeEmpty : Container → Bool
  | tag _ => true
  | _ => false

def selfClosed? : Container → Option Text
  | tag name => if isSelfClosingName name.text then some ("<" ++ name.text ++ "/>") else none
  | _ => none

/-- The line of markup that stands for it, or the markup `inside` it between its
first and its last line. -/
def around (c : Container) (depth : Nat) (childless : Bool) (inside : Text) : Text :=
  match childless, c.selfClosed? with
  | true, some alone => markupLine depth alone
  | _, _ => markupLine depth c.opening ++ inside ++ markupLine depth c.closing

theorem around_of_selfClosed {c : Container} {alone : Text} (h : c.selfClosed? = some alone)
    (depth : Nat) (inside : Text) : c.around depth true inside = markupLine depth alone := by
  simp only [around, h]

theorem around_of_open {c : Container} {childless : Bool}
    (h : childless = false ∨ c.selfClosed? = none) (depth : Nat) (inside : Text) :
    c.around depth childless inside =
      markupLine depth c.opening ++ inside ++ markupLine depth c.closing := by
  rcases h with rfl | h
  · rfl
  · simp only [around, h]

end Container

class FaultyForm (φ : Type) where
  text : φ → Text
  message : φ → Text
  lineBody : ∀ x, LineBody (text x)

/-- A forest, each node with the nodes below it and those that follow it. -/
inductive Outline (φ : Type) where
  | nil
  | text (t : PlainText) (next : Outline φ)
  | element (c : Container) (children next : Outline φ)
  | faulty (x : φ) (below next : Outline φ)

namespace Outline

variable {φ : Type}

def isNil : Outline φ → Bool
  | nil => true
  | _ => false

theorem isNil_iff {o : Outline φ} : o.isNil = true ↔ o = nil := by
  cases o <;> simp [isNil]

/-- Whether all that may not be empty has lines below it, faulty parts aside. -/
def isFilled : Outline φ → Bool
  | nil => true
  | text _ next => next.isFilled
  | element c children next =>
    (c.mayBeEmpty || !children.isNil) && children.isFilled && next.isFilled
  | faulty _ _ next => next.isFilled

/-- Whether nothing closes itself, faulty parts aside. -/
def isOpen : Outline φ → Bool
  | nil => true
  | text _ next => next.isOpen
  | element c children next => c.selfClosed?.isNone && children.isOpen && next.isOpen
  | faulty _ _ next => next.isOpen

def size : Outline φ → Nat
  | nil => 0
  | text _ next => 1 + next.size
  | element _ children next => 1 + (children.size + next.size)
  | faulty _ below next => 1 + (below.size + next.size)

def render (depth : Nat) : Outline φ → Text
  | nil => []
  | text t next => markupLine depth t.text ++ next.render depth
  | element c children next =>
    c.around depth children.isNil (children.render (depth + 1)) ++ next.render depth
  | faulty _ _ next => next.render depth

/-- The outline without its faulty lines and all below them. -/
def prune : Outline φ → Outline Empty
  | nil => nil
  | text t next => text t next.prune
  | element c children next => element c children.prune next.prune
  | faulty _ _ next => next.prune

/-- The outermost faulty lines, with their numbers if the outline starts on line
`n`: what is said about each, and where. -/
def faults [FaultyForm φ] (n : Nat) : Outline φ → List (Text × Nat)
  | nil => []
  | text _ next => next.faults (n + 1)
  | element _ children next => children.faults (n + 1) ++ next.faults (n + 1 + children.size)
  | faulty x below next => (FaultyForm.message x, n) :: next.faults (n + 1 + below.size)

/-- The outline printed as lines of a template at a depth, each indented in any
way that gives its depth. -/
inductive Prints [FaultyForm φ] : Outline φ → Nat → Text → Prop where
  | nil (d : Nat) : Prints nil d []
  | text {d : Nat} {t : PlainText} {next : Outline φ} {w s : Text}
      (hw : Lexer.Indents d w) (hs : Prints next d s) :
      Prints (text t next) d (w ++ ('\\' :: t.text ++ '\n' :: s))
  | element {d : Nat} {c : Container} {children next : Outline φ} {w s s' : Text}
      (hw : Lexer.Indents d w) (hs : Prints children (d + 1) s) (hs' : Prints next d s') :
      Prints (element c children next) d (w ++ (c.line ++ '\n' :: (s ++ s')))
  | faulty {d : Nat} {x : φ} {below next : Outline φ} {w s s' : Text}
      (hw : Lexer.Indents d w) (hs : Prints below (d + 1) s) (hs' : Prints next d s') :
      Prints (faulty x below next) d (w ++ (FaultyForm.text x ++ '\n' :: (s ++ s')))

theorem render_prune {o : Outline φ} (h : o.isOpen = true) (depth : Nat) :
    o.prune.render depth = o.render depth := by
  induction o generalizing depth with
  | nil => rfl
  | text t next ih => rw [prune, render, render, ih h]
  | element c children next ihc ihn =>
    simp only [isOpen, Bool.and_eq_true, Option.isNone_iff_eq_none] at h
    obtain ⟨⟨hc, hchildren⟩, hnext⟩ := h
    simp only [prune, render, Container.around_of_open (.inr hc), ihc hchildren, ihn hnext]
  | faulty x below next _ ih => rw [prune, render, ih h]

end Outline

theorem PlainText.lineBody (t : PlainText) : LineBody ('\\' :: t.text) where
  oneLine := OneLine.append (s := ['\\']) (by decide) t.oneLine
  unbarred := Unbarred.append (s := ['\\']) (by decide) t.unbarred
  visible := ⟨_, _, rfl, rfl⟩

theorem Condition.lineBody (c : Condition) : LineBody ('[' :: c.text ++ [']']) where
  oneLine := (OneLine.append (s := ['[']) (by decide) c.oneLine).append (by decide)
  unbarred := by
    rw [Unbarred, Text.dropEndWhile_append, if_neg (by decide), List.getLast?_append]
    show some ']' ≠ some '|'
    decide
  visible := ⟨_, _, rfl, rfl⟩

theorem Container.lineBody (c : Container) : LineBody c.line := by
  cases c with
  | tag name =>
    exact ⟨OneLine.append (s := ['%']) (by decide) (name.oneLine_text ⟨rfl, rfl⟩ ⟨rfl, rfl⟩),
      Unbarred.append (s := ['%']) (by decide) (unbarred_of_not_mem (name.not_mem_text rfl rfl)),
      _, _, rfl, rfl⟩
  | comment => exact ⟨by decide, by decide, _, _, rfl, rfl⟩
  | conditional c =>
    exact ⟨OneLine.append (s := ['/']) (by decide) c.lineBody.oneLine,
      Unbarred.append (s := ['/']) (by decide) c.lineBody.unbarred, _, _, rfl, rfl⟩

theorem printed_append (w b s rest : Text) :
    w ++ (b ++ '\n' :: s) ++ rest = w ++ (b ++ '\n' :: (s ++ rest)) := by
  simp

def LineAhead (d : Nat) (t : Text) : Prop :=
  ∃ w b more, Lexer.Indents d w ∧ LineBody b ∧ t = w ++ (b ++ '\n' :: more)

/-- The text is empty or starts with a line that is not deeper than `d`. -/
def NotDeeper (d : Nat) (t : Text) : Prop := t = [] ∨ ∃ k ≤ d, LineAhead k t

theorem NotDeeper.mono {d k : Nat} {t : Text} (h : NotDeeper d t) (hk : d ≤ k) :
    NotDeeper k t := by
  rcases h with h | ⟨j, hj, h⟩
  · exact .inl h
  · exact .inr ⟨j, by omega, h⟩

theorem LineAhead.append {d : Nat} {t : Text} (h : LineAhead d t) (rest : Text) :
    LineAhead d (t ++ rest) := by
  obtain ⟨w, b, more, hw, hb, rfl⟩ := h
  exact ⟨w, b, more ++ rest, hw, hb, by simp⟩

variable {l : Lexer} {n d : Nat} {t : Text}

theorem Lexer.Reads.depth_eq (h : l.Reads .line n t) (ht : LineAhead d t) : l.token.depth = d := by
  obtain ⟨w, b, more, hw, hb, rfl⟩ := ht
  exact (h.indented hw hb).1

theorem Lexer.Reads.depth_le (h : l.Reads .line n t) (ht : NotDeeper d t) :
    l.token.depth ≤ d := by
  rcases ht with rfl | ⟨k, hk, ht⟩
  · have hs : l.token.kind ≠ .space := by
      intro hs
      have := h.kind_eof
      rw [Lexer.kind, hs] at this
      cases this
    rw [Token.depth, if_neg hs]
    omega
  · rwa [h.depth_eq ht]

/-- Lines that are not deeper are not passed over. -/
theorem Lexer.Reads.passDeeperLines_eq (h : l.Reads .line n t) (ht : NotDeeper d t) :
    ∃ l', l.passDeeperLines d = .ok l' ∧ l'.Reads .line n t := by
  rcases ht with rfl | ⟨k, hk, w, b, more, hw, hb, rfl⟩
  · refine ⟨l, ?_, h⟩
    rw [Lexer.passDeeperLines_eq, if_pos h.kind_eof]
  · exact h.passDeeperLines_stop hw hb hk

/-- The text is `m` lines that are passed over as deeper than `d`. -/
def PassedOver (d : Nat) (s : Text) (m : Nat) : Prop :=
  ∀ (l : Lexer) (n : Nat) (rest : Text), l.Reads .line n (s ++ rest) →
    ∃ l' : Lexer, l.passDeeperLines d = l'.passDeeperLines d ∧ l'.Reads .line (n + m) rest

namespace PassedOver

variable {s s' w b : Text} {m m' k : Nat}

theorem nil (d : Nat) : PassedOver d [] 0 := fun l _ _ hl => ⟨l, rfl, hl⟩

theorem append (h : PassedOver d s m) (h' : PassedOver d s' m') :
    PassedOver d (s ++ s') (m + m') := by
  intro l n rest hl
  rw [List.append_assoc] at hl
  obtain ⟨l₁, h₁, hl₁⟩ := h l n _ hl
  obtain ⟨l₂, h₂, hl₂⟩ := h' l₁ _ _ hl₁
  rw [Nat.add_assoc] at hl₂
  exact ⟨l₂, h₁.trans h₂, hl₂⟩

theorem line (hw : Lexer.Indents k w) (hb : LineBody b) (hk : d < k) (h : PassedOver d s m) :
    PassedOver d (w ++ (b ++ '\n' :: s)) (1 + m) := by
  intro l n rest hl
  rw [printed_append] at hl
  obtain ⟨l₁, h₁, hl₁⟩ := hl.passDeeperLines_pass hw hb hk
  obtain ⟨l₂, h₂, hl₂⟩ := h l₁ _ _ hl₁
  rw [Nat.add_assoc] at hl₂
  exact ⟨l₂, h₁.trans h₂, hl₂⟩

end PassedOver

namespace Outline

variable {φ : Type} [FaultyForm φ] {o : Outline φ} {s rest : Text} {k : Nat}

/-- What is printed is nothing at all, or starts with a line at its depth. -/
theorem Prints.lineAhead (h : o.Prints d s) :
    (o.isNil = true ∧ s = []) ∨ (o.isNil = false ∧ LineAhead d s) := by
  cases h with
  | nil => exact .inl ⟨rfl, rfl⟩
  | text hw hs => exact .inr ⟨rfl, _, _, _, hw, PlainText.lineBody _, rfl⟩
  | element hw hs hs' => exact .inr ⟨rfl, _, _, _, hw, Container.lineBody _, rfl⟩
  | faulty hw hs hs' => exact .inr ⟨rfl, _, _, _, hw, FaultyForm.lineBody _, rfl⟩

theorem Prints.notDeeper (h : o.Prints d s) (hrest : NotDeeper d rest) :
    NotDeeper d (s ++ rest) := by
  rcases h.lineAhead with ⟨-, rfl⟩ | ⟨-, h⟩
  · exact hrest
  · exact .inr ⟨d, Nat.le_refl d, h.append rest⟩

/-- The first line below a node tells whether there are nodes below it. -/
theorem Prints.depth_lt (h : o.Prints (d + 1) s) (hrest : NotDeeper d rest)
    (hl : l.Reads .line n (s ++ rest)) : decide (d < l.token.depth) = !o.isNil := by
  rcases h.lineAhead with ⟨ho, rfl⟩ | ⟨ho, h⟩
  · have := hl.depth_le hrest
    simp [ho]
    omega
  · have := hl.depth_eq (h.append rest)
    simp [ho]
    omega

/-- All lines of an outline below a depth are passed over. -/
theorem Prints.passedOver (h : o.Prints k s) (hk : d < k) : PassedOver d s o.size := by
  induction h with
  | nil => exact .nil d
  | text hw hs ih => exact .line hw (PlainText.lineBody _) hk (ih hk)
  | element hw hs hs' ih ih' =>
    exact .line hw (Container.lineBody _) hk ((ih (Nat.lt_succ_of_lt hk)).append (ih' hk))
  | faulty hw hs hs' ih ih' =>
    exact .line hw (FaultyForm.lineBody _) hk ((ih (Nat.lt_succ_of_lt hk)).append (ih' hk))

end Outline

end Haml
