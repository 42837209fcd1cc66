import Haml.Proofs.OpenElements
import Haml.Proofs.Rows
import Mathlib.Data.List.Forall2

/-!
# Likenesses

Two templates may be compared that are not the same: where something stands may not count,
nor how wide a line end is, nor what follows. A likeness says which differences do not
count. It is carried from what is read to what is done: rows that are alike are compiled to
instructions that are alike, and leave elements open that are alike.
-/

namespace Haml

/-- Which differences do not count: of line ends and of the values in a hash, of points,
of faults, of expressions that were scanned, and of what is upcoming. -/
structure Likeness where
  text : Text → Text → Prop
  point : Point → Point → Prop
  fault : Fault → Fault → Prop
  probe : Probe → Probe → Prop
  upcoming : Upcoming → Upcoming → Prop
  text_refl : ∀ t, text t t
  point_refl : ∀ p, point p p
  fault_refl : ∀ f, fault f f
  probe_refl : ∀ p, probe p p
  upcoming_refl : ∀ u, upcoming u u
  /-- Texts that are alike are both empty, or neither is. -/
  text_isEmpty : ∀ {t t'}, text t t' → t'.isEmpty = t.isEmpty

namespace Likeness

variable (L : Likeness)

def diagnostic (d d' : Diagnostic) : Prop := L.fault d.fault d'.fault ∧ L.point d.point d'.point

def entry (e e' : Text × Text) : Prop := e'.1 = e.1 ∧ L.text e.2 e'.2

end Likeness

/-! ### What is alike -/

inductive Attributes.Like (L : Likeness) : Attributes → Attributes → Prop where
  | mk (ids classes : List Text) (pairs : List (Text × Text)) (reference : Option Text)
      {hash hash' : List (Text × Text)} (h : List.Forall₂ L.entry hash hash') :
      Like L ⟨ids, classes, pairs, hash, reference⟩ ⟨ids, classes, pairs, hash', reference⟩

inductive TagHead.Like (L : Likeness) : TagHead → TagHead → Prop where
  | mk (name : Text) (options : TagOptions) {a a' : Attributes} {p p' : Point}
      (ha : a.Like L a') (hp : L.point p p') : Like L ⟨name, a, options, p⟩ ⟨name, a', options, p'⟩

inductive Contents.Like (L : Likeness) : Contents → Contents → Prop where
  | expression (mode : EmbedMode) (c : Text) {p p' : Point} {n n' : Text} (hp : L.point p p')
      (hn : L.text n n') : Like L (.expression mode c p n) (.expression mode c p' n')
  | text (t : Text) (interpolate : Bool) (extra : Nat) {n n' : Text} (hn : L.text n n') :
      Like L (.text t interpolate extra n) (.text t interpolate extra n')

inductive Line.Like (L : Likeness) : Line → Line → Prop where
  | doctype (t : Text) {n n' : Text} (hn : L.text n n') : Like L (.doctype t n) (.doctype t n')
  | expression (mode : EmbedMode) (c : Text) {p p' : Point} {n n' : Text} (hp : L.point p p')
      (hn : L.text n n') : Like L (.expression mode c p n) (.expression mode c p' n')
  | code (c : Text) {n n' : Text} (hn : L.text n n') : Like L (.code c n) (.code c n')
  | hidden : Like L .hidden .hidden
  | comment (t : Text) (hasContents : Bool) {n n' : Text} (hn : L.text n n') :
      Like L (.comment t n hasContents) (.comment t n' hasContents)
  | escaped (t : Text) {p p' : Point} {n n' : Text} (hp : L.point p p') (hn : L.text n n') :
      Like L (.escaped t p n) (.escaped t p' n')
  | tag {h h' : TagHead} {c c' : Contents} (hh : h.Like L h') (hc : c.Like L c') :
      Like L (.tag h c) (.tag h' c')
  | plain {c c' : Contents} {p p' : Point} (hc : c.Like L c') (hp : L.point p p') :
      Like L (.plain c p) (.plain c' p')

inductive Matter.Like (L : Likeness) : Matter → Matter → Prop where
  | filter (name : Text) (block : List Text) {p p' : Point} (hp : L.point p p') :
      Like L (.filter name block p) (.filter name block p')
  | line {ps ps' : List Probe} {x x' : Line} (hps : List.Forall₂ L.probe ps ps')
      (hx : x.Like L x') : Like L (.line ps x) (.line ps' x')

inductive Row.Like (L : Likeness) : Row → Row → Prop where
  | empty {n n' : Text} (hn : L.text n n') : Like L (.empty n) (.empty n')
  | blank (depth : Nat) {n n' : Option Text} (hn : Option.Rel L.text n n') :
      Like L (.blank depth n) (.blank depth n')
  | written (depth : Nat) {u u' : Upcoming} {m m' : Matter} (hu : L.upcoming u u')
      (hm : m.Like L m') : Like L (.written depth u m) (.written depth u' m')

inductive Element.Like (L : Likeness) : Element → Element → Prop where
  | same (e : Element) : Like L e e
  | comment {n n' : Text} (hn : L.text n n') : Like L (.comment n) (.comment n')
  | conditional {n n' : Text} (hn : L.text n n') : Like L (.conditional n) (.conditional n')

/-- A line end that is part of markup stands at its end, and is not split. -/
inductive Instruction.Like (L : Likeness) : Instruction → Instruction → Prop where
  | same (i : Instruction) : Like L i i
  | markup {s n n' : Text} (hs : s.getLast? ≠ some '\r') (hn : L.text n n') :
      Like L (.markup (s ++ n)) (.markup (s ++ n'))
  | code (c : Text) {n n' : Text} (hn : L.text n n') : Like L (.code c n) (.code c n')
  | expression (indentation c : Text) (mode : EmbedMode) {p p' : Point} (hp : L.point p p') :
      Like L (.expression indentation c mode p) (.expression indentation c mode p')
  | text (t : Text) (interpolate : Bool) (processing : TextProcessing) {p p' : Point}
      (hp : L.point p p') :
      Like L (.text t interpolate p processing) (.text t interpolate p' processing)
  | attributes {a a' : Attributes} {p p' : Point} (ha : a.Like L a') (hp : L.point p p') :
      Like L (.attributes a p) (.attributes a' p')
  | closeBlock (kind : BlockKind) {u u' : Upcoming} (hu : L.upcoming u u') :
      Like L (.closeBlock kind u) (.closeBlock kind u')
  | scanned {p p' : Probe} (hp : L.probe p p') : Like L (.scanned p) (.scanned p')

inductive Event.Like (L : Likeness) : Event → Event → Prop where
  | same (e : Event) : Like L e e
  | emit {i i' : Instruction} (hi : i.Like L i') : Like L (.emit i) (.emit i')
  | opened (depth : Nat) {e e' : Element} (he : e.Like L e') :
      Like L (.opened depth e) (.opened depth e')
  | closed (depth : Nat) {e e' : Element} (he : e.Like L e') :
      Like L (.closed depth e) (.closed depth e')

def ElementStack.Like (L : Likeness) (s s' : ElementStack) : Prop :=
  ∀ i, Option.Rel (Element.Like L) (s.get? i) (s'.get? i)

/-- Two compilations, with what they leave open. -/
structure OutcomesLike (L : Likeness) (o o' : List Event × ElementStack) : Prop where
  events : List.Forall₂ (Event.Like L) o.1 o'.1
  stack : o.2.Like L o'.2

/-- A filter whose instructions depend on its point in nothing but the points that they
carry, and which refuses the same blocks at every point. -/
def Filter.Steady (L : Likeness) (f : Filter) : Prop :=
  ∀ block depth p p', L.point p p' →
    (f block depth p').fault.isSome = (f block depth p).fault.isSome ∧
      List.Forall₂ (Instruction.Like L) (f block depth p).instructions
        (f block depth p').instructions

def FilterRegistry.Steady (L : Likeness) (filters : FilterRegistry) : Prop :=
  ∀ name f, filters.find? name = some f → f.Steady L

variable {L : Likeness}

/-! ### Everything is like itself -/

theorem Likeness.entries_refl (L : Likeness) (es : List (Text × Text)) :
    List.Forall₂ L.entry es es :=
  List.forall₂_same.2 fun e _ => ⟨rfl, L.text_refl e.2⟩

theorem Contents.Like.refl (c : Contents) : c.Like L c := by
  cases c with
  | expression mode c p n => exact .expression mode c (L.point_refl p) (L.text_refl n)
  | text t interpolate extra n => exact .text t interpolate extra (L.text_refl n)

theorem TagHead.Like.refl (h : TagHead) : h.Like L h :=
  .mk h.name h.options (.mk _ _ _ _ (L.entries_refl h.attributes.hash)) (L.point_refl h.point)

theorem Line.Like.refl (x : Line) : x.Like L x := by
  cases x with
  | doctype t n => exact .doctype t (L.text_refl n)
  | expression mode c p n => exact .expression mode c (L.point_refl p) (L.text_refl n)
  | code c n => exact .code c (L.text_refl n)
  | hidden => exact .hidden
  | comment t n hasContents => exact .comment t hasContents (L.text_refl n)
  | escaped t p n => exact .escaped t (L.point_refl p) (L.text_refl n)
  | tag h c => exact .tag (.refl h) (.refl c)
  | plain c p => exact .plain (.refl c) (L.point_refl p)

theorem Matter.Like.refl (m : Matter) : m.Like L m := by
  cases m with
  | filter name block p => exact .filter name block (L.point_refl p)
  | line ps x => exact .line (List.forall₂_same.2 fun p _ => L.probe_refl p) (.refl x)

theorem Row.Like.refl (row : Row) : row.Like L row := by
  cases row with
  | empty n => exact .empty (L.text_refl n)
  | blank depth n =>
    cases n with
    | none => exact .blank depth .none
    | some n => exact .blank depth (.some (L.text_refl n))
  | written depth u m => exact .written depth (L.upcoming_refl u) (.refl m)

theorem Row.forall₂_like_refl (rows : List Row) : List.Forall₂ (Row.Like L) rows rows :=
  List.forall₂_same.2 fun row _ => .refl row

theorem Instruction.forall₂_like_refl (is : List Instruction) :
    List.Forall₂ (Instruction.Like L) is is :=
  List.forall₂_same.2 fun i _ => .same i

theorem Event.forall₂_like_refl (es : List Event) : List.Forall₂ (Event.Like L) es es :=
  List.forall₂_same.2 fun e _ => .same e

theorem Event.forall₂_like_emit {is is' : List Instruction}
    (h : List.Forall₂ (Instruction.Like L) is is') :
    List.Forall₂ (Event.Like L) (is.map .emit) (is'.map .emit) :=
  List.rel_map (fun _ _ hi => .emit hi) h

theorem ElementStack.Same.like {s s' : ElementStack} (h : s.Same s') : s.Like L s' := by
  intro i
  rw [h i]
  cases s'.get? i with
  | none => exact .none
  | some e => exact .some (.same e)

theorem ElementStack.Like.refl (s : ElementStack) : s.Like L s := Same.like fun _ => rfl

/-! ### Lines -/

theorem Instruction.Like.lineEnd {n n' : Text} (hn : L.text n n') :
    Instruction.Like L (.markup n) (.markup n') :=
  .markup (s := []) nofun hn

theorem Text.getLast?_indentation (depth : Nat) : (indentation depth).getLast? ≠ some '\r' := by
  intro h
  have hm := List.mem_of_getLast? h
  simp [indentation] at hm

/-- Every document type declaration is closed. -/
theorem Html.getLast?_doctype (parameters : Text) :
    (doctype parameters).getLast? = some '>' := by
  have hxml (encoding : Text) : (xmlDeclaration encoding).getLast? = some '>' :=
    (List.getLast?_append_of_ne_nil _ (by decide)).trans (by decide)
  have hpublic (name address : Text) : (publicDoctype name address).getLast? = some '>' :=
    (List.getLast?_append_of_ne_nil _ (by decide)).trans (by decide)
  have hstandard : standardDoctype.getLast? = some '>' := by decide
  simp only [doctype]
  split
  · exact hstandard
  · split
    · exact hxml _
    · repeat' split
      all_goals first | exact hpublic _ _ | exact hstandard

section Lines

variable (depth : Nat) (framed : Bool)

theorem like_textInstructions (t : Text) (interpolate : Bool) {p p' : Point} {n n' : Text}
    (hp : L.point p p') (hn : L.text n n') :
    List.Forall₂ (Instruction.Like L) (textInstructions t framed depth interpolate p n)
      (textInstructions t framed depth interpolate p' n') := by
  simp only [textInstructions]
  split
  · exact .nil
  · exact .cons (.text _ _ _ hp) (.cons (.lineEnd hn) .nil)

theorem like_expressionInstructions (mode : EmbedMode) (c : Text) {p p' : Point} {n n' : Text}
    (hp : L.point p p') (hn : L.text n n') :
    List.Forall₂ (Instruction.Like L) (expressionInstructions depth framed mode c p n)
      (expressionInstructions depth framed mode c p' n') := by
  simp only [expressionInstructions]
  split
  · exact .cons (.same _) (.cons (.expression _ _ _ hp) (.cons (.lineEnd hn) .nil))
  · exact .cons (.expression _ _ _ hp) .nil

theorem Contents.Like.insideTag {c c' : Contents} (h : c.Like L c') {p p' : Point}
    (hp : L.point p p') :
    List.Forall₂ (Instruction.Like L) (c.insideTag depth framed p)
      (c'.insideTag depth framed p') := by
  cases h with
  | expression mode c hq hn => exact like_expressionInstructions _ _ _ _ hq hn
  | text t interpolate extra hn => exact like_textInstructions _ _ _ _ hp hn

theorem Contents.Like.withoutTag {c c' : Contents} (h : c.Like L c') {p p' : Point}
    (hp : L.point p p') :
    List.Forall₂ (Instruction.Like L) (c.withoutTag depth framed p)
      (c'.withoutTag depth framed p') := by
  cases h with
  | expression mode c hq hn => exact like_expressionInstructions (depth + 1) true mode c hq hn
  | text t interpolate extra hn => exact like_textInstructions _ _ _ _ hp hn

/-- Whether attributes are known beforehand does not depend on the values in the hash. -/
theorem Attributes.Like.isDynamic {a a' : Attributes} (h : a.Like L a') :
    a'.isDynamic = a.isDynamic := by
  obtain ⟨ids, classes, pairs, reference, hhash⟩ := h
  cases hhash <;> rfl

/-- Attributes are the same where no two texts are alike. -/
theorem Attributes.Like.eq {a a' : Attributes} (h : a.Like L a')
    (htext : ∀ {t t'}, L.text t t' → t = t') : a = a' := by
  obtain ⟨ids, classes, pairs, reference, hhash⟩ := h
  have hentry (e e' : Text × Text) (he : L.entry e e') : e = e' :=
    Prod.ext he.1.symm (htext he.2)
  have hsame := List.forall₂_eq_eq_eq ▸ hhash.imp hentry
  rw [hsame]

theorem TagHead.Like.attributeInstruction {h h' : TagHead} (hh : h.Like L h') :
    h.attributeInstruction.Like L h'.attributeInstruction := by
  obtain ⟨name, options, ha, hp⟩ := hh
  simp only [TagHead.attributeInstruction, ha.isDynamic]
  split
  · exact .attributes ha hp
  · obtain ⟨ids, classes, pairs, reference, -⟩ := ha
    exact .same _

theorem TagHead.Like.opening {h h' : TagHead} (hh : h.Like L h') :
    List.Forall₂ (Instruction.Like L) (h.opening depth framed) (h'.opening depth framed) := by
  have hattributes := hh.attributeInstruction
  obtain ⟨name, options, -, -⟩ := hh
  exact List.rel_append (List.rel_append (Instruction.forall₂_like_refl _)
    (.cons (.same _) (.cons hattributes .nil))) (Instruction.forall₂_like_refl _)

namespace Line.Like

variable {x x' : Line} (h : x.Like L x')

include h

/-- Lines that are alike give instructions that are alike. -/
theorem instructions :
    List.Forall₂ (Instruction.Like L) (x.instructions depth framed)
      (x'.instructions depth framed) := by
  cases h with
  | doctype t hn =>
    have hlast : (Html.doctype t).getLast? ≠ some '\r' := by
      rw [Html.getLast?_doctype]
      decide
    exact .cons (.same _) (.cons (.markup hlast hn) .nil)
  | expression mode c hp hn => exact like_expressionInstructions depth true mode c hp hn
  | code c hn => exact .cons (.same _) (.cons (.code c hn) .nil)
  | hidden => exact .nil
  | comment t hasContents hn => exact Instruction.forall₂_like_refl _
  | escaped t hp hn =>
    exact .cons (.same _) (.cons (.text _ _ _ hp) (.cons (.lineEnd hn) .nil))
  | tag hh hc =>
    have hopening := hh.opening depth framed
    obtain ⟨name, options, -, hp⟩ := hh
    exact List.rel_append hopening (hc.insideTag depth options.inner hp)
  | plain hc hp => exact hc.withoutTag depth framed hp

/-- They leave elements open that are alike. -/
theorem element? : Option.Rel (Element.Like L) x.element? x'.element? := by
  cases h with
  | code c hn =>
    simp only [Line.element?]
    cases Script.openedBlock? c with
    | none => exact .none
    | some kind => exact .some (.same _)
  | comment t hasContents hn =>
    simp only [Line.element?]
    split
    · exact .some (.conditional hn)
    · exact .some (.comment hn)
  | tag hh hc =>
    obtain ⟨name, options, -, -⟩ := hh
    simp only [Line.element?, TagHead.element?]
    split
    · exact .none
    · exact .some (.same _)
  | _ => exact .none

theorem events :
    List.Forall₂ (Event.Like L) (x.events depth framed) (x'.events depth framed) := by
  have hopened {e e' : Option Element} (he : Option.Rel (Element.Like L) e e') :
      List.Forall₂ (Event.Like L) (e.map (.opened depth)).toList
        (e'.map (.opened depth)).toList := by
    cases he with
    | none => exact .nil
    | some he => exact .cons (.opened depth he) .nil
  have helement := hopened h.element?
  have hinstructions := Event.forall₂_like_emit (h.instructions depth framed)
  cases h with
  | comment t hasContents hn =>
    have hrefl := Event.forall₂_like_refl (L := L)
    exact List.rel_append (List.rel_append (List.rel_append (hrefl _) helement) (hrefl _))
      (hrefl _)
  | tag hh hc =>
    have hopening := Event.forall₂_like_emit (hh.opening depth framed)
    obtain ⟨name, options, -, hp⟩ := hh
    have hcontents := Event.forall₂_like_emit (hc.insideTag depth options.inner hp)
    exact List.rel_append (List.rel_append hopening helement) hcontents
  | _ => exact List.rel_append hinstructions helement

end Line.Like

end Lines

/-! ### Open elements -/

/-- An element is closed alike, whichever line end it was opened with. -/
theorem Element.Like.closing {e e' : Element} (he : e.Like L e') {u u' : Upcoming}
    (hu : L.upcoming u u') (depth : Nat) (framed : Bool) :
    List.Forall₂ (Instruction.Like L) (e.closing depth framed u) (e'.closing depth framed u') := by
  have hmark {t : Text} (ht : t.getLast? = some '>') :
      (Text.indentation depth ++ t).getLast? ≠ some '\r' := by
    rw [List.getLast?_append, ht]
    simp
  cases he with
  | same e =>
    cases e with
    | block kind => exact .cons (.closeBlock kind hu) .nil
    | _ => exact Instruction.forall₂_like_refl _
  | comment hn => exact .cons (.markup (hmark (by decide)) hn) .nil
  | conditional hn => exact .cons (.markup (hmark (by decide)) hn) .nil

namespace ElementStack.Like

variable {s s' : ElementStack} (h : s.Like L s')

include h

theorem framesLines (depth : Nat) : s'.framesLines depth = s.framesLines depth := by
  cases depth with
  | zero => rfl
  | succ depth =>
    have hdepth := h depth
    simp only [ElementStack.framesLines]
    generalize s.get? depth = e at *
    generalize s'.get? depth = e' at *
    cases hdepth with
    | none => rfl
    | some he => cases he <;> rfl

theorem set (depth : Nat) {e e' : Element} (he : e.Like L e') :
    (s.set depth e).Like L (s'.set depth e') := by
  intro i
  rw [get?_set, get?_set]
  split
  · exact .some he
  · exact h i

/-- What a line opens, if anything, is put on both stacks. -/
theorem setAny (depth : Nat) {e e' : Option Element} (he : Option.Rel (Element.Like L) e e') :
    ((e.map (s.set depth)).getD s).Like L ((e'.map (s'.set depth)).getD s') := by
  cases he with
  | none => exact h
  | some he => exact h.set depth he

theorem close (depth : Nat) (u u' : Upcoming) :
    (s.close depth u).2.Like L (s'.close depth u').2 := by
  intro i
  rw [get?_close, get?_close]
  split
  · exact h i
  · exact .none

/-- Closing down to a depth closes elements that are alike, in the same order. -/
theorem events_close (depth : Nat) {u u' : Upcoming} (hu : L.upcoming u u') :
    List.Forall₂ (Event.Like L) (s.close depth u).1 (s'.close depth u').1 := by
  rw [close_events, close_events,
    openFrom_eq (s := s) (n := max s.slots.length s'.slots.length) (by omega),
    openFrom_eq (s := s') (n := max s.slots.length s'.slots.length) (by omega)]
  induction (List.range' depth (max s.slots.length s'.slots.length)).reverse with
  | nil => exact .nil
  | cons k ks ih =>
    have hk := h k
    have hframed := h.framesLines k
    simp only [List.filterMap_cons]
    generalize s.get? k = e at *
    generalize s'.get? k = e' at *
    cases hk with
    | none => exact ih
    | @some e e' he =>
      have hclosing := Event.forall₂_like_emit (he.closing hu k (s.framesLines k))
      have hevents : List.Forall₂ (Event.Like L) (s.closingEvents u (k, e))
          (s'.closingEvents u' (k, e')) := by
        rw [closingEvents, closingEvents, hframed]
        exact .cons (.closed k he) (.cons (.same _) hclosing)
      exact List.rel_append hevents ih

end ElementStack.Like

/-! ### Rows -/

section Options

variable {α β : Type} {R : α → α → Prop} {S : β → β → Prop} {x x' : Option α}

theorem exists_of_rel (h : Option.Rel R x x') {a : α} (hx : x = some a) :
    ∃ a', x' = some a' ∧ R a a' := by
  cases h with
  | none => cases hx
  | some h =>
    cases hx
    exact ⟨_, rfl, h⟩

theorem rel_map (h : Option.Rel R x x') {f f' : α → β} (hf : ∀ a a', R a a' → S (f a) (f' a')) :
    Option.Rel S (x.map f) (x'.map f') := by
  cases h with
  | none => exact .none
  | some h => exact .some (hf _ _ h)

theorem rel_bind (h : Option.Rel R x x') {f f' : α → Option β}
    (hf : ∀ a a', R a a' → Option.Rel S (f a) (f' a')) : Option.Rel S (x.bind f) (x'.bind f') := by
  cases h with
  | none => exact .none
  | some h => exact hf _ _ h

theorem rel_imp {T : α → α → Prop} (h : Option.Rel R x x') (hT : ∀ a a', R a a' → T a a') :
    Option.Rel T x x' := by
  cases h with
  | none => exact .none
  | some h => exact .some (hT _ _ h)

end Options

section Filters

variable {filters : FilterRegistry}

theorem FilterRegistry.forall_insert {P : Filter → Prop} {name : Text} {f : Filter}
    {es : List (Text × Filter)} (hf : P f) (hes : ∀ e ∈ es, P e.2) :
    ∀ e ∈ insert name f es, P e.2 := by
  induction es with
  | nil => simpa [insert] using hf
  | cons e es ih =>
    have hhead : P e.2 := hes e (.head es)
    have htail : ∀ e ∈ es, P e.2 := fun e' he => hes e' (.tail e he)
    intro e' he
    simp only [insert] at he
    split at he
    · rcases List.mem_cons.1 he with rfl | he
      · exact hf
      · exact htail e' he
    · split at he
      · rcases List.mem_cons.1 he with rfl | he
        · exact hf
        · exact hes e' he
      · rcases List.mem_cons.1 he with rfl | he
        · exact hhead
        · exact ih htail e' he

theorem FilterRegistry.mem_of_find? {r : FilterRegistry} {name : Text} {f : Filter}
    (h : r.find? name = some f) : ∃ e ∈ r.entries, e.2 = f := by
  obtain ⟨es⟩ := r
  simp only [find?] at h ⊢
  induction es with
  | nil => cases h
  | cons e es ih =>
    rw [List.lookup_cons] at h
    split at h
    · exact ⟨e, .head es, Option.some.inj h⟩
    · obtain ⟨e', he, hf⟩ := ih h
      exact ⟨e', .tail e he, hf⟩

/-- What holds of the four ways in which the built-in filters write a block. -/
theorem FilterRegistry.forall_builtin {P : Filter → Prop}
    (hlines : ∀ processing, P (Filter.lines processing)) (hwrapped : ∀ w, P (Filter.wrapped w))
    (hdata : P Filter.characterData) (hpreserve : P Filter.preserve) :
    ∀ e ∈ builtin.entries, P e.2 :=
  forall_insert (hlines _) (forall_insert hpreserve (forall_insert hdata
    (forall_insert (hwrapped _) (forall_insert (hwrapped _) (forall_insert (hlines _) nofun)))))

/-- The built-in filters put their point into the text that they give, and nowhere else. -/
theorem FilterRegistry.steady_builtin (L : Likeness) : builtin.Steady L := by
  have htexts (block : List Text) (f : Text → Text) (processing : TextProcessing) {p p' : Point}
      (hp : L.point p p') :
      List.Forall₂ (Instruction.Like L) (block.map fun line => .text (f line) true p processing)
        (block.map fun line => .text (f line) true p' processing) :=
    List.rel_map (fun line _ heq => heq ▸ .text (f line) true processing hp)
      (List.forall₂_same.2 fun line _ => rfl)
  have hlines (processing : TextProcessing) : (Filter.lines processing).Steady L :=
    fun block _ _ _ hp => ⟨rfl, htexts block _ processing hp⟩
  have hwrapped (w : Filter.Wrapping) : (Filter.wrapped w).Steady L := fun block _ _ _ hp =>
    ⟨rfl, .cons (.same _) (List.rel_append (htexts block _ _ hp) (.cons (.same _) .nil))⟩
  have hdata : Filter.characterData.Steady L := fun block _ _ _ hp =>
    ⟨rfl, .cons (.same _) (List.rel_append (htexts block _ _ hp) (.cons (.same _) .nil))⟩
  have hpreserve : Filter.preserve.Steady L := fun block _ _ _ hp =>
    ⟨rfl, .cons (.text _ _ _ hp) (.cons (.text _ _ _ hp) .nil)⟩
  intro name f h
  obtain ⟨e, he, rfl⟩ := mem_of_find? h
  exact forall_builtin hlines hwrapped hdata hpreserve e he

end Filters

section Compile

variable {filters : FilterRegistry} (hf : filters.Steady L) {s s' : ElementStack}
  (hs : s.Like L s')

include hf hs

theorem Matter.Like.compile {m m' : Matter} (hm : m.Like L m') (depth : Nat) :
    Option.Rel (OutcomesLike L) (m.compile filters s depth) (m'.compile filters s' depth) := by
  cases hm with
  | @filter name block p p' hp =>
    cases hfind : filters.find? name with
    | none =>
      simp only [Matter.compile, hfind, Option.bind_none]
      exact .none
    | some f =>
      obtain ⟨hfault, hinstructions⟩ := hf name f hfind block depth p p' hp
      simp only [Matter.compile, hfind, Option.bind_some, hfault]
      split
      · exact .none
      · exact .some ⟨.cons (.same _) (Event.forall₂_like_emit hinstructions), hs⟩
  | line hps hx =>
    refine .some ⟨List.rel_append (List.rel_map (fun _ _ hp => .emit (.scanned hp)) hps) ?_,
      hs.setAny depth hx.element?⟩
    rw [hs.framesLines]
    exact hx.events depth _

theorem Row.Like.compile {row row' : Row} (hr : row.Like L row') :
    Option.Rel (OutcomesLike L) (row.compile filters s) (row'.compile filters s') := by
  cases hr with
  | empty hn => exact .some ⟨.cons (.emit (.lineEnd hn)) .nil, hs⟩
  | blank depth hn =>
    refine .some ⟨.cons (.same _) ?_, hs⟩
    cases hn with
    | none => exact .nil
    | some hn => exact .cons (.emit (.markup (Text.getLast?_indentation depth) hn)) .nil
  | @written depth u u' m m' hu hm =>
    have hclose := hs.events_close depth hu
    exact rel_map (hm.compile hf (hs.close depth u u') depth) fun _ _ hown =>
      ⟨.cons (.same _) (List.rel_append hclose (.cons (.same _) hown.events)), hown.stack⟩

/-- Rows that are alike one by one are compiled alike. -/
theorem like_compileRows {rows rows' : List Row} (hr : List.Forall₂ (Row.Like L) rows rows') :
    Option.Rel (OutcomesLike L) (compileRows filters s rows) (compileRows filters s' rows') := by
  induction hr generalizing s s' with
  | nil => exact .some ⟨.nil, hs⟩
  | @cons row row' rows rows' hrow _ ih =>
    refine rel_bind (hrow.compile hf hs) fun first first' hown => ?_
    exact rel_map (ih hown.stack) fun more more' hrest =>
      ⟨List.rel_append hown.events hrest.events, hrest.stack⟩

end Compile

end Haml
