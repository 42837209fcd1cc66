import Haml.Proofs.CharacterReferences
import Haml.Proofs.Outline
import Haml.Proofs.TokenSpans
import Mathlib.Data.List.Basic
import Mathlib.Data.List.TakeWhile

/-!
# Preserved line feeds

Line feeds are written as references inside the leftmost inline elements of a text that do not
overlap, and everywhere else the text stays as it is. The elements found in the new text are those
found in the old one, so that nothing is left to be done a second time, and reading the references
again gives from both texts the same.
-/

namespace Haml.Pattern

variable {p q : Pattern} {lead a b m t : Text}

theorem exactly_append (lead t : Text) : exactly lead (lead ++ t) = some lead := by
  simp [exactly]

theorem andThen_append (hp : p (a ++ t) = some a) (hq : q t = some b) :
    andThen p q (a ++ t) = some (a ++ b) := by
  simp [andThen, hp, hq]

theorem exists_of_andThen (hp : Leading p) (h : andThen p q t = some m) :
    ∃ a b rest, p t = some a ∧ q rest = some b ∧ m = a ++ b ∧ t = a ++ rest := by
  obtain ⟨a, b, hm, ha, hb⟩ := andThen_eq_some h
  obtain ⟨rest, rfl⟩ := hp t a ha
  rw [List.drop_left] at hb
  exact ⟨a, b, rest, ha, hb, hm, rfl⟩

theorem exists_of_exactly (h : exactly lead t = some m) : m = lead ∧ ∃ rest, t = lead ++ rest := by
  simp only [exactly] at h
  split at h
  · rename_i hlead
    cases h
    obtain ⟨rest, rfl⟩ := List.isPrefixOf_iff_prefix.1 hlead
    exact ⟨rfl, rest, rfl⟩
  · cases h

theorem exists_of_exactly_andThen (h : andThen (exactly lead) q t = some m) :
    ∃ b rest, q rest = some b ∧ m = lead ++ b ∧ t = lead ++ rest := by
  have hleading : Leading (exactly lead) := by
    intro t a ha
    obtain ⟨rfl, rest, ht⟩ := exists_of_exactly ha
    exact ⟨rest, ht⟩
  obtain ⟨_, b, rest, ha, hb, hm, ht⟩ := exists_of_andThen hleading h
  obtain ⟨rfl, -⟩ := exists_of_exactly ha
  exact ⟨b, rest, hb, hm, ht⟩

end Haml.Pattern

namespace Haml.Html

variable {c : Char} {s t u v : Text}

/-! ### Line feeds as references -/

@[simp] theorem encodeLineFeeds_append (s t : Text) :
    encodeLineFeeds (s ++ t) = encodeLineFeeds s ++ encodeLineFeeds t :=
  List.flatMap_append

theorem encodeLineFeeds_eq_self (h : '\n' ∉ t) : encodeLineFeeds t = t := by
  induction t with
  | nil => rfl
  | cons c t ih =>
    rw [List.mem_cons, not_or] at h
    rw [encodeLineFeeds, List.flatMap_cons, if_neg (Ne.symm h.1), ← encodeLineFeeds, ih h.2]
    rfl

theorem mem_of_mem_encodeLineFeeds (h : c ∈ encodeLineFeeds t) :
    c ∈ lineFeed ∨ c ≠ '\n' ∧ c ∈ t := by
  obtain ⟨d, hd, hmem⟩ := List.mem_flatMap.1 h
  split at hmem
  · exact .inl hmem
  · rename_i hne
    obtain rfl := List.mem_singleton.1 hmem
    exact .inr ⟨hne, hd⟩

theorem lineFeed_not_mem_encodeLineFeeds (t : Text) : '\n' ∉ encodeLineFeeds t := by
  intro h
  rcases mem_of_mem_encodeLineFeeds h with hmem | ⟨hne, -⟩
  · exact absurd hmem (by decide)
  · exact hne rfl

/-! ### The pattern of inline elements -/

abbrev InlineName := Word Char.isAlpha Char.isAlpha

/-- An element whose tags have no attributes and whose contents no tags. The names of its two tags
may differ. -/
structure InlineElement where
  name : InlineName
  contents : Text
  closing : InlineName
  plain : '<' ∉ contents

namespace InlineElement

/-- What stands between the signs with which the two tags start. -/
def front (e : InlineElement) : Text := e.name.text ++ '>' :: e.contents

def back (e : InlineElement) : Text := e.closing.text ++ ['>']

def tail (e : InlineElement) : Text := e.front ++ '<' :: '/' :: e.back

def text (e : InlineElement) : Text := '<' :: e.tail

def encoded (e : InlineElement) : InlineElement where
  name := e.name
  contents := encodeLineFeeds e.contents
  closing := e.closing
  plain := by
    intro h
    rcases mem_of_mem_encodeLineFeeds h with hmem | ⟨-, hmem⟩
    · exact absurd hmem (by decide)
    · exact e.plain hmem

end InlineElement

variable {e e' : InlineElement}

namespace InlineElement

theorem lineFeed_not_mem_name (n : InlineName) : '\n' ∉ n.text :=
  n.not_mem_text (by decide) (by decide)

theorem open_not_mem_name (n : InlineName) : '<' ∉ n.text :=
  n.not_mem_text (by decide) (by decide)

theorem open_not_mem_front (e : InlineElement) : '<' ∉ e.front := by
  simp [front, open_not_mem_name, e.plain]

theorem open_not_mem_back (e : InlineElement) : '<' ∉ e.back := by
  simp [back, open_not_mem_name]

theorem name_head_ne (n : InlineName) : n.head ≠ '/' := by
  intro h
  have halpha := n.head_mem
  rw [h] at halpha
  exact absurd halpha (by decide)

theorem encodeLineFeeds_text (e : InlineElement) : encodeLineFeeds e.text = e.encoded.text := by
  have hname := encodeLineFeeds_eq_self (lineFeed_not_mem_name e.name)
  have hclosing := encodeLineFeeds_eq_self (lineFeed_not_mem_name e.closing)
  have hsigns : encodeLineFeeds ['<'] = ['<'] ∧ encodeLineFeeds ['>'] = ['>'] ∧
      encodeLineFeeds ['<', '/'] = ['<', '/'] := by decide
  have hcut (e : InlineElement) : e.text = ['<'] ++ (e.name.text ++ (['>'] ++ (e.contents ++
      (['<', '/'] ++ (e.closing.text ++ ['>']))))) := by
    simp [text, tail, front, back]
  rw [hcut, hcut]
  simp only [encodeLineFeeds_append, hname, hclosing, hsigns, encoded]

theorem lineFeed_not_mem_encoded (e : InlineElement) : '\n' ∉ e.encoded.text := by
  rw [← encodeLineFeeds_text]
  exact lineFeed_not_mem_encodeLineFeeds _

end InlineElement

theorem exists_of_name {q : Pattern} {m : Text}
    (h : Pattern.andThen (Pattern.many1 Char.isAlpha) q t = some m) :
    ∃ (n : InlineName) (b rest : Text), q rest = some b ∧ m = n.text ++ b ∧ t = n.text ++ rest := by
  have hleading : Pattern.Leading (Pattern.many1 Char.isAlpha) :=
    (Pattern.cuts_headed (by decide) (by decide)).leading
  obtain ⟨a, b, rest, ha, hb, hm, ht⟩ := Pattern.exists_of_andThen hleading h
  cases t with
  | nil => cases ha
  | cons c t =>
    simp only [Pattern.many1, Pattern.headed] at ha
    split at ha
    · rename_i hc
      cases ha
      exact ⟨⟨c, t.takeWhile Char.isAlpha, hc, List.all_takeWhile⟩, b, rest, hb, hm, ht⟩
    · cases ha

theorem exists_of_contents {q : Pattern} {m : Text}
    (h : Pattern.andThen (Pattern.many (· != '<')) q t = some m) :
    ∃ s b rest, '<' ∉ s ∧ q rest = some b ∧ m = s ++ b ∧ t = s ++ rest := by
  obtain ⟨s, b, rest, hs, hb, hm, ht⟩ := Pattern.exists_of_andThen (Pattern.leading_many _) h
  refine ⟨s, b, rest, fun hmem => ?_, hb, hm, ht⟩
  rw [← Option.some.inj hs] at hmem
  simpa using List.mem_takeWhile_imp hmem

theorem many_append_open (h : '<' ∉ s) (t : Text) :
    Pattern.many (· != '<') (s ++ '<' :: t) = some s := by
  rw [Pattern.many, List.takeWhile_append_of_pos]
  · simp
  · intro c hc
    simp only [bne_iff_ne, ne_eq]
    rintro rfl
    exact h hc

theorem inlineElement_text (e : InlineElement) (t : Text) :
    inlineElement (e.text ++ t) = some e.text := by
  have hname (n : InlineName) (t : Text) :
      Pattern.many1 Char.isAlpha (n.text ++ '>' :: t) = some n.text :=
    n.headed_text (by decide) t
  have hend := Pattern.andThen_append (hname e.closing t) (Pattern.exactly_append ['>'] t)
  have hclosing := Pattern.andThen_append (Pattern.exactly_append ['<', '/'] _) hend
  have hcontents := Pattern.andThen_append (many_append_open e.plain _) hclosing
  have hopen := Pattern.andThen_append (hname e.name _)
    (Pattern.andThen_append (Pattern.exactly_append ['>'] _) hcontents)
  have h := Pattern.andThen_append (Pattern.exactly_append ['<'] _) hopen
  simpa [inlineElement, InlineElement.text, InlineElement.tail, InlineElement.front,
    InlineElement.back] using h

theorem exists_of_inlineElement {m : Text} (h : inlineElement t = some m) :
    ∃ (e : InlineElement) (rest : Text), m = e.text ∧ t = e.text ++ rest := by
  obtain ⟨_, _, hopen, rfl, rfl⟩ := Pattern.exists_of_exactly_andThen h
  obtain ⟨name, _, _, hname, rfl, rfl⟩ := exists_of_name hopen
  obtain ⟨_, _, hcontents, rfl, rfl⟩ := Pattern.exists_of_exactly_andThen hname
  obtain ⟨contents, _, _, hplain, hsign, rfl, rfl⟩ := exists_of_contents hcontents
  obtain ⟨_, _, hclosing, rfl, rfl⟩ := Pattern.exists_of_exactly_andThen hsign
  obtain ⟨closing, _, _, hend, rfl, rfl⟩ := exists_of_name hclosing
  obtain ⟨rfl, rest, rfl⟩ := Pattern.exists_of_exactly hend
  refine ⟨⟨name, contents, closing, hplain⟩, rest, ?_, ?_⟩
  · simp [InlineElement.text, InlineElement.tail, InlineElement.front, InlineElement.back]
  · simp [InlineElement.text, InlineElement.tail, InlineElement.front, InlineElement.back]

/-- Two elements with which one text starts are the same. -/
theorem text_eq_of_append (h : e.text ++ s = e'.text ++ t) : e.text = e'.text ∧ s = t := by
  have htext := inlineElement_text e s
  rw [h, inlineElement_text] at htext
  have heq := Option.some.inj htext
  rw [heq] at h
  exact ⟨heq.symm, List.append_cancel_left h⟩

/-- Behind the opening sign of an element there is but one other, that of its closing tag. -/
theorem exists_of_tail (h : e.tail = s ++ '<' :: t) : ∃ u, t = '/' :: u := by
  have hback : '<' ∉ '/' :: e.back := by simp [e.open_not_mem_back]
  obtain ⟨-, -, ht⟩ := (List.append_cons_inj_of_notMem e.open_not_mem_front hback).1 h
  exact ⟨_, ht.symm⟩

/-- An element starts with another one or behind it. -/
theorem behind_of_append (h : e.text ++ t = s ++ (e'.text ++ u)) :
    e.text = e'.text ∨ ∃ v, t = v ++ (e'.text ++ u) := by
  rcases List.append_eq_append_iff.1 h with ⟨v, -, ht⟩ | ⟨v, he, hv⟩
  · exact .inr ⟨v, ht⟩
  · cases s with
    | nil => exact .inl (text_eq_of_append h).1
    | cons c s =>
      cases v with
      | nil => exact .inr ⟨[], hv.symm⟩
      | cons d v =>
        -- the element would start with the closing tag of the other one
        obtain ⟨rfl, hname⟩ := List.cons.inj hv
        obtain ⟨w, rfl⟩ := exists_of_tail (List.cons.inj he).2
        exact absurd (List.cons.inj hname).1 (InlineElement.name_head_ne e'.name)

/-! ### What is preserved, one element or character at a time -/

/-- An induction that goes over a text as its elements are looked for. -/
@[elab_as_elim] theorem element_induction {P : Text → Prop} (nil : P [])
    (element : ∀ (e : InlineElement) (t : Text), P t → P (e.text ++ t))
    (char : ∀ (c : Char) (t : Text), (∀ e : InlineElement, ¬e.text <+: c :: t) → P t → P (c :: t))
    (t : Text) : P t := by
  fun_induction preserve t with
  | case1 => exact nil
  | case2 c t m hm ih =>
    obtain ⟨e, rest, rfl, ht⟩ := exists_of_inlineElement hm
    rw [ht, List.drop_left] at ih
    rw [ht]
    exact element e rest ih
  | case3 c t hnone ih =>
    refine char c t (fun e he => ?_) ih
    obtain ⟨rest, ht⟩ := he
    rw [← ht, inlineElement_text] at hnone
    cases hnone

theorem preserve_nil : preserve [] = [] := by rw [preserve]

theorem preserve_text (e : InlineElement) (t : Text) :
    preserve (e.text ++ t) = e.encoded.text ++ preserve t := by
  have hm := inlineElement_text e t
  rw [← InlineElement.encodeLineFeeds_text]
  rw [InlineElement.text, List.cons_append] at hm ⊢
  rw [preserve]
  split
  · rename_i m h
    rw [hm] at h
    obtain rfl := Option.some.inj h
    rw [List.length_cons, List.drop_succ_cons, List.drop_left]
  · rename_i h
    rw [hm] at h
    cases h

theorem preserve_cons (h : ∀ e : InlineElement, ¬e.text <+: c :: t) :
    preserve (c :: t) = c :: preserve t := by
  rw [preserve]
  split
  · rename_i m hm
    obtain ⟨e, rest, -, ht⟩ := exists_of_inlineElement hm
    exact absurd ⟨rest, ht.symm⟩ (h e)
  · rfl

/-- Up to an opening sign nothing changes. -/
theorem exists_of_preserve (h : '<' ∉ s) (ht : preserve t = s ++ u) :
    ∃ v, t = s ++ v ∧ preserve v = u := by
  induction s generalizing t with
  | nil => exact ⟨t, rfl, ht⟩
  | cons c s ih =>
    rw [List.mem_cons, not_or] at h
    cases t using element_induction with
    | nil =>
      rw [preserve_nil] at ht
      cases ht
    | element e t =>
      rw [preserve_text] at ht
      exact absurd (List.cons.inj ht).1 h.1
    | char d t hnone =>
      rw [preserve_cons hnone] at ht
      obtain ⟨rfl, hmore⟩ := List.cons.inj ht
      obtain ⟨v, rfl, hv⟩ := ih h.2 hmore
      exact ⟨v, rfl, hv⟩

theorem exists_of_preserve_closing (h : preserve t = '<' :: '/' :: u) :
    ∃ v, t = '<' :: '/' :: v ∧ preserve v = u := by
  cases t using element_induction with
  | nil =>
    rw [preserve_nil] at h
    cases h
  | element e t =>
    rw [preserve_text] at h
    exact absurd (List.cons.inj (List.cons.inj h).2).1 (InlineElement.name_head_ne e.name)
  | char d t hnone =>
    rw [preserve_cons hnone] at h
    obtain ⟨rfl, hslash⟩ := List.cons.inj h
    obtain ⟨v, rfl, hv⟩ := exists_of_preserve (s := ['/']) (by decide) hslash
    exact ⟨v, rfl, hv⟩

/-- An element that starts with the character before preserved text was there before. -/
theorem text_isPrefix_of_preserve (h : c :: preserve t = e.text ++ u) : e.text <+: c :: t := by
  obtain ⟨rfl, ht⟩ := List.cons.inj h
  have hcut : e.tail ++ u = e.front ++ '<' :: '/' :: (e.back ++ u) := by
    simp [InlineElement.tail]
  obtain ⟨v, rfl, hv⟩ := exists_of_preserve e.open_not_mem_front (ht.trans hcut)
  obtain ⟨w, rfl, hw⟩ := exists_of_preserve_closing hv
  obtain ⟨rest, rfl, -⟩ := exists_of_preserve e.open_not_mem_back hw
  exact ⟨rest, by simp [InlineElement.text, InlineElement.tail]⟩

/-! ### The elements of preserved text -/

structure Occurrence (t : Text) where
  before : Text
  element : InlineElement
  behind : Text
  cut : t = before ++ (element.text ++ behind)

/-- No element of preserved text has a line feed left in it. -/
theorem lineFeed_not_mem_of_preserve (h : preserve t = s ++ (e.text ++ u)) : '\n' ∉ e.text := by
  induction t using element_induction generalizing s with
  | nil =>
    rw [preserve_nil] at h
    simp [InlineElement.text] at h
  | element e₀ t ih =>
    rw [preserve_text] at h
    rcases behind_of_append h with heq | ⟨v, hv⟩
    · rw [← heq]
      exact InlineElement.lineFeed_not_mem_encoded e₀
    · exact ih hv
  | char c t hnone ih =>
    rw [preserve_cons hnone] at h
    cases s with
    | nil => exact absurd (text_isPrefix_of_preserve h) (hnone e)
    | cons d s => exact ih (List.cons.inj h).2

theorem preserve_eq_self (h : ∀ o : Occurrence t, '\n' ∉ o.element.text) : preserve t = t := by
  induction t using element_induction with
  | nil => exact preserve_nil
  | element e t ih =>
    have he : '\n' ∉ e.text := h ⟨[], e, t, rfl⟩
    have ht := ih fun o => h ⟨e.text ++ o.before, o.element, o.behind, by
      rw [List.append_assoc, ← o.cut]⟩
    rw [preserve_text, ← InlineElement.encodeLineFeeds_text, encodeLineFeeds_eq_self he, ht]
  | char c t hnone ih =>
    have ht := ih fun o => h ⟨c :: o.before, o.element, o.behind, by
      rw [List.cons_append, ← o.cut]⟩
    rw [preserve_cons hnone, ht]

/-! ### The leftmost elements -/

/-- A text is cut at its leftmost elements that do not overlap: each is the first one behind the
one before it. Every element goes with the text between it and the one before it, and `last` is
the rest, in which there is none. -/
inductive Leftmost : Text → List (Text × Text) → Text → Prop where
  | last {t : Text} (h : Occurrence t → False) : Leftmost t [] t
  | element {t last : Text} {ps : List (Text × Text)} (o : Occurrence t)
      (h : ∀ o' : Occurrence t, o.before.length ≤ o'.before.length)
      (hbehind : Leftmost o.behind ps last) :
      Leftmost t ((o.before, o.element.text) :: ps) last

/-- The parts of a text one after another, with its elements changed by `f`. -/
def joined (f : Text → Text) (ps : List (Text × Text)) (last : Text) : Text :=
  ps.flatMap (fun p => p.1 ++ f p.2) ++ last

theorem joined_cons (f : Text → Text) (p : Text × Text) (ps : List (Text × Text)) (last : Text) :
    joined f (p :: ps) last = p.1 ++ (f p.2 ++ joined f ps last) := by
  simp [joined]

namespace Occurrence

/-- At one place of a text there is only one element. -/
theorem eq_of_length {o o' : Occurrence t} (h : o.before.length = o'.before.length) :
    o.before = o'.before ∧ o.element.text = o'.element.text ∧ o.behind = o'.behind := by
  obtain ⟨hbefore, hrest⟩ := List.append_inj (o.cut.symm.trans o'.cut) h
  exact ⟨hbefore, text_eq_of_append hrest⟩

def shift (c : Char) (o : Occurrence t) : Occurrence (c :: t) where
  before := c :: o.before
  element := o.element
  behind := o.behind
  cut := congrArg (List.cons c) o.cut

theorem exists_shift (h : ∀ e : InlineElement, ¬e.text <+: c :: t) (o : Occurrence (c :: t)) :
    ∃ o' : Occurrence t, o = o'.shift c := by
  obtain ⟨before, element, behind, cut⟩ := o
  cases before with
  | nil => exact absurd ⟨behind, cut.symm⟩ (h element)
  | cons d before =>
    obtain ⟨rfl, ht⟩ := List.cons.inj cut
    exact ⟨⟨before, element, behind, ht⟩, rfl⟩

end Occurrence

namespace Leftmost

variable {ps ps' : List (Text × Text)} {last last' : Text}

/-- There is only one way to cut a text at its leftmost elements. -/
theorem unique (h : Leftmost t ps last) (h' : Leftmost t ps' last') : ps' = ps ∧ last' = last := by
  induction h generalizing ps' last' with
  | last hnone =>
    cases h' with
    | last => exact ⟨rfl, rfl⟩
    | element o' => exact (hnone o').elim
  | element o hleft _ ih =>
    cases h' with
    | last hnone => exact (hnone o).elim
    | element o' hleft' hbehind' =>
      obtain ⟨hbefore, htext, hbehind⟩ :=
        Occurrence.eq_of_length (Nat.le_antisymm (hleft o') (hleft' o))
      rw [← hbehind] at hbehind'
      obtain ⟨rfl, rfl⟩ := ih hbehind'
      exact ⟨by rw [hbefore, htext], rfl⟩

theorem eq_joined (h : Leftmost t ps last) : t = joined id ps last := by
  induction h with
  | last => rfl
  | element o _ _ ih =>
    rw [joined_cons, ← ih]
    exact o.cut

end Leftmost

/-- Only the leftmost elements are changed. -/
theorem exists_leftmost (t : Text) :
    ∃ ps last, Leftmost t ps last ∧ preserve t = joined encodeLineFeeds ps last := by
  induction t using element_induction with
  | nil =>
    refine ⟨[], [], .last fun o => ?_, preserve_nil⟩
    have hcut := o.cut
    simp [InlineElement.text] at hcut
  | element e t ih =>
    obtain ⟨ps, last, hps, ht⟩ := ih
    refine ⟨_, last, .element ⟨[], e, t, rfl⟩ (fun _ => Nat.zero_le _) hps, ?_⟩
    rw [preserve_text, ← InlineElement.encodeLineFeeds_text, ht, joined_cons]
    rfl
  | char c t hnone ih =>
    obtain ⟨ps, last, hps, ht⟩ := ih
    rw [preserve_cons hnone, ht]
    cases hps with
    | last h =>
      refine ⟨[], c :: t, .last fun o => ?_, rfl⟩
      obtain ⟨o', -⟩ := o.exists_shift hnone
      exact h o'
    | element o h hbehind =>
      refine ⟨_, last, .element (o.shift c) (fun o' => ?_) hbehind, ?_⟩
      · obtain ⟨o'', rfl⟩ := o'.exists_shift hnone
        exact Nat.succ_le_succ (h o'')
      · simp only [joined_cons, Occurrence.shift, List.cons_append]

/-! ### Reading the references again -/

def lineFeedReference : Reference := ⟨"#x000A;", '\n', by decide⟩

/-- The second text is the first one with some of its line feeds as references. -/
inductive Rewritten : Text → Text → Prop where
  | nil : Rewritten [] []
  | keep {s t : Text} (c : Char) (h : Rewritten s t) : Rewritten (c :: s) (c :: t)
  | refer {s t : Text} (h : Rewritten s t) : Rewritten ('\n' :: s) (lineFeed ++ t)

namespace Rewritten

theorem append (h : Rewritten s t) (u : Text) : Rewritten (u ++ s) (encodeLineFeeds u ++ t) := by
  induction u with
  | nil => exact h
  | cons c u ih =>
    rw [encodeLineFeeds, List.flatMap_cons, ← encodeLineFeeds]
    by_cases hc : c = '\n'
    · subst hc
      rw [if_pos rfl, List.append_assoc]
      exact .refer ih
    · rw [if_neg hc]
      exact .keep c ih

/-- Text without line feeds stays. -/
theorem exists_of_left (h : Rewritten (u ++ s) t) (hu : '\n' ∉ u) :
    ∃ v, t = u ++ v ∧ Rewritten s v := by
  induction u generalizing t with
  | nil => exact ⟨t, rfl, h⟩
  | cons c u ih =>
    rw [List.mem_cons, not_or] at hu
    cases h with
    | keep _ h =>
      obtain ⟨v, rfl, hv⟩ := ih h hu.2
      exact ⟨v, rfl, hv⟩
    | refer => exact absurd rfl hu.1

/-- Text without an ampersand has stayed. -/
theorem exists_of_right (h : Rewritten s t) (ht : t = u ++ v) (hu : '&' ∉ u) :
    ∃ w, s = u ++ w ∧ Rewritten w v := by
  induction u generalizing s t with
  | nil => exact ⟨s, rfl, by simpa [ht] using h⟩
  | cons c u ih =>
    rw [List.mem_cons, not_or] at hu
    cases h with
    | nil => cases ht
    | keep d h =>
      obtain ⟨rfl, hmore⟩ := List.cons.inj ht
      obtain ⟨w, rfl, hw⟩ := ih h hmore hu.2
      exact ⟨w, rfl, hw⟩
    | refer h => exact absurd (List.cons.inj ht).1 hu.1

/-- The name of the reference has neither, so the texts start with it together. -/
theorem starts_iff (h : Rewritten s t) :
    lineFeedReference.name <+: s ↔ lineFeedReference.name <+: t := by
  constructor
  · rintro ⟨s', rfl⟩
    obtain ⟨v, rfl, -⟩ := h.exists_of_left (by decide)
    exact List.prefix_append _ _
  · rintro ⟨v, hv⟩
    obtain ⟨w, rfl, -⟩ := h.exists_of_right hv.symm lineFeedReference.single
    exact List.prefix_append _ _

theorem decode_eq (h : Rewritten s t) :
    decode [lineFeedReference] s = decode [lineFeedReference] t := by
  have hdecode (u : Text) : decode [lineFeedReference] (lineFeedReference.text ++ u) =
      '\n' :: decode [lineFeedReference] u :=
    decode_text (by decide) List.mem_cons_self u
  induction h with
  | nil => rfl
  | refer h ih =>
    rw [decode_cons_of_ne (by decide), ih]
    exact (hdecode _).symm
  | @keep s t c h ih =>
    by_cases hc : c = '&'
    · subst hc
      by_cases hs : lineFeedReference.name <+: s
      · -- both texts go on with the name; what is read behind it is the same
        obtain ⟨s', rfl⟩ := hs
        obtain ⟨t', rfl, -⟩ := h.exists_of_left (by decide)
        rw [decode_append lineFeedReference.single, decode_append lineFeedReference.single] at ih
        have hread := List.append_cancel_left ih
        calc decode [lineFeedReference] ('&' :: (lineFeedReference.name ++ s'))
            = '\n' :: decode [lineFeedReference] s' := hdecode s'
          _ = '\n' :: decode [lineFeedReference] t' := by rw [hread]
          _ = decode [lineFeedReference] ('&' :: (lineFeedReference.name ++ t')) :=
            (hdecode t').symm
      · have hnone {u : Text} (hu : ¬lineFeedReference.name <+: u) :
            ∀ r ∈ [lineFeedReference], ¬r.text <+: '&' :: u := by
          intro r hr hstarts
          obtain rfl := List.mem_singleton.1 hr
          exact hu (List.cons_prefix_cons.1 hstarts).2
        rw [decode_cons (hnone hs), decode_cons (hnone fun ht => hs (h.starts_iff.2 ht)), ih]
    · rw [decode_cons_of_ne hc, decode_cons_of_ne hc, ih]

end Rewritten

theorem rewritten_preserve (t : Text) : Rewritten t (preserve t) := by
  induction t using element_induction with
  | nil =>
    rw [preserve_nil]
    exact .nil
  | element e t ih =>
    rw [preserve_text, ← InlineElement.encodeLineFeeds_text]
    exact ih.append e.text
  | char c t hnone ih =>
    rw [preserve_cons hnone]
    exact .keep c ih

/-- Preserving changes nothing but line feeds in elements, and these once and for all. A second time
it changes nothing, and with the references read as line feeds the text is what it was before. The
leftmost elements that do not overlap, which can be cut out in one way only, have their line feeds
as references, and what stands between them is kept as it is. In the new text no element at all,
wherever it is looked for, has a line feed in it. -/
theorem preserve_only_in_leftmost_elements (t : Text) :
    preserve (preserve t) = preserve t ∧
      decode [lineFeedReference] (preserve t) = decode [lineFeedReference] t ∧
      (∃ ps last, Leftmost t ps last ∧
        (∀ ps' last', Leftmost t ps' last' → ps' = ps ∧ last' = last) ∧
        t = joined id ps last ∧ preserve t = joined encodeLineFeeds ps last) ∧
      ∀ o : Occurrence (preserve t), '\n' ∉ o.element.text := by
  have hfree : ∀ o : Occurrence (preserve t), '\n' ∉ o.element.text :=
    fun o => lineFeed_not_mem_of_preserve o.cut
  obtain ⟨ps, last, hps, ht⟩ := exists_leftmost t
  refine ⟨preserve_eq_self hfree, (rewritten_preserve t).decode_eq.symm, ?_, hfree⟩
  exact ⟨ps, last, hps, fun ps' last' => hps.unique, hps.eq_joined, ht⟩

-- a tag that is not closed belongs to no element, though one starts right behind it
example : preserve "<b>\n<i>x\ny</i>\n" = "<b>\n<i>x&#x000A;y</i>\n" := by decide +kernel

end Haml.Html
