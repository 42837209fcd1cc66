import Haml.Expression
import Mathlib.Data.List.Induction

/-!
# Balanced texts

A text is balanced if its brackets close each other by kind and every quote is closed;
what stands in a quote is opaque, and a backslash there hides the character behind it.
Any beginning of such a text leaves brackets open, and perhaps a quote. Where the reading
of a text has got to is followed character by character, and comes out the same.
-/

namespace Haml

namespace Expression

def quotes : List Char := ['\'', '"', '\x60']

def brackets : List (Char × Char) := [('(', ')'), ('[', ']'), ('\x7b', '\x7d')]

theorem isQuote_iff {c : Char} : isQuote c = true ↔ c ∈ quotes := by
  simp [isQuote, quotes, or_assoc]

theorem closer?_eq_some_iff {o d : Char} : closer? o = some d ↔ (o, d) ∈ brackets := by
  simp only [closer?, brackets, List.mem_cons, Prod.mk.injEq, List.not_mem_nil, or_false]
  split <;> simp_all [eq_comm]

theorem isCloser_iff {c : Char} : isCloser c = true ↔ ∃ o, (o, c) ∈ brackets := by
  simp [isCloser, brackets, or_assoc, exists_or]

/-- A character that is neither a quote nor a bracket. -/
structure Plain (c : Char) : Prop where
  quote : c ∉ quotes
  opening : ∀ d, (c, d) ∉ brackets
  closing : ∀ o, (o, c) ∉ brackets

inductive QuoteBody (q : Char) : Text → Prop where
  | nil : QuoteBody q []
  | char {c : Char} {t : Text} (hq : c ≠ q) (hb : c ≠ '\\') (ht : QuoteBody q t) :
    QuoteBody q (c :: t)
  | hidden (c : Char) {t : Text} (ht : QuoteBody q t) : QuoteBody q ('\\' :: c :: t)

inductive Balanced : Text → Prop where
  | nil : Balanced []
  | plain {c : Char} {t : Text} (hc : Plain c) (ht : Balanced t) : Balanced (c :: t)
  | quoted {q : Char} {b t : Text} (hq : q ∈ quotes) (hb : QuoteBody q b) (ht : Balanced t) :
    Balanced (q :: (b ++ q :: t))
  | group {o d : Char} {b t : Text} (ho : (o, d) ∈ brackets) (hb : Balanced b)
    (ht : Balanced t) : Balanced (o :: (b ++ d :: t))

/-- The text leaves brackets open that `closers` will close, the innermost first. -/
inductive Opens : Text → Text → Prop where
  | balanced {s : Text} (hs : Balanced s) : Opens s []
  | bracket {s closers b : Text} {o d : Char} (hs : Opens s closers) (ho : (o, d) ∈ brackets)
    (hb : Balanced b) : Opens (s ++ o :: b) (d :: closers)

/-- Where the reading of a text has got to, within brackets that are still to be closed. -/
inductive Spot where
  | code (closers : Text)
  | quoted (closers : Text) (q : Char)
  /-- In a quote, right behind a backslash that hides the next character. -/
  | escaping (closers : Text) (q : Char)
  deriving DecidableEq, Repr

def LeadsTo (s : Text) : Spot → Prop
  | .code closers => Opens s closers
  | .quoted closers q =>
    ∃ p b, s = p ++ q :: b ∧ Opens p closers ∧ q ∈ quotes ∧ QuoteBody q b
  | .escaping closers q =>
    ∃ p b, s = p ++ q :: (b ++ ['\\']) ∧ Opens p closers ∧ q ∈ quotes ∧ QuoteBody q b

theorem QuoteBody.append {q : Char} {s t : Text} (hs : QuoteBody q s) (ht : QuoteBody q t) :
    QuoteBody q (s ++ t) := by
  induction hs with
  | nil => exact ht
  | char hq hb _ ih => exact .char hq hb ih
  | hidden c _ ih => exact .hidden c ih

theorem Balanced.append {s t : Text} (hs : Balanced s) (ht : Balanced t) : Balanced (s ++ t) := by
  induction hs with
  | nil => exact ht
  | plain hc _ ih => exact .plain hc ih
  | quoted hq hb _ ih =>
    rw [List.cons_append, List.append_assoc]
    exact .quoted hq hb ih
  | group ho hb _ _ ih =>
    rw [List.cons_append, List.append_assoc]
    exact .group ho hb ih

/-- A balanced text opens nothing and closes nothing. -/
theorem Opens.append {s t closers : Text} (hs : Opens s closers) (ht : Balanced t) :
    Opens (s ++ t) closers := by
  cases hs with
  | balanced hs => exact .balanced (hs.append ht)
  | bracket hs ho hb =>
    rw [List.append_assoc]
    exact .bracket hs ho (hb.append ht)

theorem Opens.balanced_of_nil {s : Text} (h : Opens s []) : Balanced s := by
  cases h with
  | balanced hs => exact hs

/-- The innermost bracket can be closed. -/
theorem Opens.close {s closers : Text} {d : Char} (h : Opens s (d :: closers)) :
    Opens (s ++ [d]) closers := by
  cases h with
  | bracket hs ho hb =>
    rw [List.append_assoc]
    exact hs.append (.group ho hb .nil)

namespace Spot

/-- The spot behind one more character; a closing bracket that closes nothing leads
nowhere. -/
def next : Spot → Char → Option Spot
  | code closers, c =>
    if c ∈ quotes then some (quoted closers c)
    else
      match closer? c with
      | some d => some (code (d :: closers))
      | none =>
        if isCloser c then
          match closers with
          | [] => none
          | d :: outer => if c = d then some (code outer) else none
        else some (code closers)
  | quoted closers q, c =>
    some (if c = '\\' then escaping closers q else if c = q then code closers else quoted closers q)
  | escaping closers q, _ => some (quoted closers q)

def read (x : Spot) : Text → Option Spot
  | [] => some x
  | c :: t => (x.next c).bind (·.read t)

theorem read_append (x : Spot) (s t : Text) : x.read (s ++ t) = (x.read s).bind (·.read t) := by
  induction s generalizing x with
  | nil => rfl
  | cons c s ih => simp [read, ih, Option.bind_assoc]

end Spot

/-- One character leads from spot to spot. -/
theorem LeadsTo.next {s : Text} {x y : Spot} {c : Char} (h : LeadsTo s x)
    (hy : x.next c = some y) : LeadsTo (s ++ [c]) y := by
  cases x with
  | code closers =>
    simp only [Spot.next] at hy
    split at hy
    · rename_i hq
      cases hy
      exact ⟨s, [], rfl, h, hq, .nil⟩
    · rename_i hq
      split at hy
      · rename_i d hd
        cases hy
        exact Opens.bracket h (closer?_eq_some_iff.1 hd) .nil
      · rename_i hd
        split at hy
        · split at hy
          · cases hy
          · rename_i d outer
            split at hy <;> cases hy
            rename_i hc
            exact hc ▸ Opens.close h
        · rename_i hcl
          cases hy
          have hopening (d : Char) : (c, d) ∉ brackets := by
            intro hm
            rw [closer?_eq_some_iff.2 hm] at hd
            cases hd
          have hclosing (o : Char) : (o, c) ∉ brackets := fun ho => hcl (isCloser_iff.2 ⟨o, ho⟩)
          exact Opens.append h (.plain ⟨hq, hopening, hclosing⟩ .nil)
  | quoted closers q =>
    obtain ⟨p, b, rfl, hp, hq, hb⟩ := h
    simp only [Spot.next, Option.some.injEq] at hy
    subst hy
    split
    · rename_i hc
      subst hc
      exact ⟨p, b, by simp, hp, hq, hb⟩
    · rename_i hbackslash
      split
      · rename_i hc
        subst hc
        have hclosed := Opens.append hp (.quoted hq hb .nil)
        rwa [LeadsTo, List.append_assoc, List.cons_append]
      · rename_i hc
        exact ⟨p, b ++ [c], by simp, hp, hq, hb.append (.char hc hbackslash .nil)⟩
  | escaping closers q =>
    obtain ⟨p, b, rfl, hp, hq, hb⟩ := h
    cases hy
    exact ⟨p, b ++ ['\\', c], by simp, hp, hq, hb.append (.hidden c .nil)⟩

theorem ne_backslash {q : Char} (h : q ∈ quotes) : q ≠ '\\' := by
  rintro rfl
  revert h
  decide

namespace Spot

theorem next_quote {q : Char} (h : q ∈ quotes) (closers : Text) :
    (code closers).next q = some (quoted closers q) := if_pos h

theorem next_opening {o d : Char} (h : (o, d) ∈ brackets) (closers : Text) :
    (code closers).next o = some (code (d :: closers)) := by
  have ho : o ∉ quotes := by
    revert h
    simp only [brackets, List.mem_cons, Prod.mk.injEq, List.not_mem_nil, or_false]
    rintro (⟨rfl, -⟩ | ⟨rfl, -⟩ | ⟨rfl, -⟩) <;> decide
  simp only [next, ho, closer?_eq_some_iff.2 h, if_false]

theorem next_closing {o d : Char} (h : (o, d) ∈ brackets) (closers : Text) :
    (code (d :: closers)).next d = some (code closers) := by
  simp only [brackets, List.mem_cons, Prod.mk.injEq, List.not_mem_nil, or_false] at h
  rcases h with ⟨-, rfl⟩ | ⟨-, rfl⟩ | ⟨-, rfl⟩ <;> rfl

theorem next_plain {c : Char} (h : Plain c) (closers : Text) :
    (code closers).next c = some (code closers) := by
  have ho : closer? c = none := by
    rw [Option.eq_none_iff_forall_ne_some]
    intro d hd
    exact h.opening d (closer?_eq_some_iff.1 hd)
  have hc : ¬isCloser c = true := by
    intro hc
    obtain ⟨o, hm⟩ := isCloser_iff.1 hc
    exact h.closing o hm
  simp only [next, h.quote, ho, hc, if_false, Bool.false_eq_true]

theorem read_quoteBody {q : Char} {b : Text} (h : QuoteBody q b) (closers : Text) :
    (quoted closers q).read b = some (quoted closers q) := by
  induction h with
  | nil => rfl
  | char hq hb _ ih => simp [read, next, hq, hb, ih]
  | hidden c _ ih => simp [read, next, ih]

theorem read_balanced {b : Text} (h : Balanced b) (closers : Text) :
    (code closers).read b = some (code closers) := by
  induction h generalizing closers with
  | nil => rfl
  | plain hc _ ih => rw [read, next_plain hc, Option.bind_some, ih]
  | @quoted q b t hq hb _ ih =>
    have hclose : (quoted closers q).next q = some (code closers) := by
      simp [next, ne_backslash hq]
    rw [read, next_quote hq, Option.bind_some, read_append, read_quoteBody hb, Option.bind_some,
      read, hclose, Option.bind_some, ih]
  | group ho _ _ ihb iht =>
    rw [read, next_opening ho, Option.bind_some, read_append, ihb, Option.bind_some, read,
      next_closing ho, Option.bind_some, iht]

theorem read_opens {s closers : Text} (h : Opens s closers) :
    (code []).read s = some (code closers) := by
  induction h with
  | balanced hs => exact read_balanced hs []
  | bracket _ ho hb ih =>
    rw [read_append, ih, Option.bind_some, read, next_opening ho, Option.bind_some,
      read_balanced hb]

end Spot

/-- Following a text character by character gives the spot to which it leads. -/
theorem read_eq_some_iff {s : Text} {x : Spot} : (Spot.code []).read s = some x ↔ LeadsTo s x := by
  constructor
  · intro h
    induction s using List.reverseRecOn generalizing x with
    | nil =>
      cases h
      exact Opens.balanced .nil
    | append_singleton s c ih =>
      rw [Spot.read_append, Option.bind_eq_some_iff] at h
      obtain ⟨y, hy, hx⟩ := h
      rw [Spot.read, Option.bind_eq_some_iff] at hx
      obtain ⟨z, hz, hzx⟩ := hx
      cases hzx
      exact (ih hy).next hz
  · intro h
    cases x with
    | code closers => exact Spot.read_opens h
    | quoted closers q =>
      obtain ⟨p, b, rfl, hp, hq, hb⟩ := h
      rw [Spot.read_append, Spot.read_opens hp, Option.bind_some, Spot.read, Spot.next_quote hq,
        Option.bind_some, Spot.read_quoteBody hb]
    | escaping closers q =>
      obtain ⟨p, b, rfl, hp, hq, hb⟩ := h
      rw [Spot.read_append, Spot.read_opens hp, Option.bind_some, Spot.read, Spot.next_quote hq,
        Option.bind_some, Spot.read_append, Spot.read_quoteBody hb]
      rfl

/-- A text leads to one spot at most. -/
theorem LeadsTo.unique {s : Text} {x y : Spot} (hx : LeadsTo s x) (hy : LeadsTo s y) : x = y :=
  Option.some.inj ((read_eq_some_iff.2 hx).symm.trans (read_eq_some_iff.2 hy))

theorem balanced_iff {s : Text} : Balanced s ↔ (Spot.code []).read s = some (.code []) :=
  ⟨fun h => Spot.read_balanced h [], fun h => Opens.balanced_of_nil (read_eq_some_iff.1 h)⟩

instance (s : Text) : Decidable (Balanced s) := decidable_of_iff' _ balanced_iff

end Expression

end Haml
