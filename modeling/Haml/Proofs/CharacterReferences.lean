import Haml.Proofs.Writing
import Mathlib.Data.List.Basic

/-!
# Character references

A reference is an ampersand and a name that stand together for a character. A text is read by
looking for references from left to right. What is read in this way from an escaped text is the
text that was escaped, whatever it looked like, and the escaped texts are just those in which
nothing is left that markup could start with. Texts may be escaped as a whole or in pieces.
-/

namespace Haml.Html

/-- A character and the name it goes by behind an ampersand. -/
structure Reference where
  name : Text
  char : Char
  single : '&' ∉ name
  deriving DecidableEq

def Reference.text (r : Reference) : Text := '&' :: r.name

/-- The first of some references with which a text starts. -/
def reference? (refs : List Reference) (t : Text) : Option Reference :=
  refs.find? (·.text.isPrefixOf t)

/-- The text with the references in it read from left to right. -/
def decode (refs : List Reference) : Text → Text
  | [] => []
  | c :: t =>
    match reference? refs (c :: t) with
    | some r => r.char :: decode refs (t.drop r.name.length)
    | none => c :: decode refs t
termination_by t => t.length
decreasing_by
  · simp only [List.length_drop, List.length_cons]
    omega
  · simp

/-- No reference is the beginning of another. -/
def Apart (refs : List Reference) : Prop :=
  ∀ r ∈ refs, ∀ r' ∈ refs, r.text <+: r'.text → r = r'

instance (refs : List Reference) : Decidable (Apart refs) :=
  inferInstanceAs (Decidable (∀ r ∈ refs, ∀ r' ∈ refs, r.text <+: r'.text → r = r'))

variable {refs : List Reference} {r : Reference} {c : Char} {s t : Text}

theorem reference?_eq_some (h : reference? refs t = some r) :
    r ∈ refs ∧ ∃ rest, t = r.text ++ rest := by
  have hstarts := List.find?_some (p := fun r : Reference => r.text.isPrefixOf t) h
  obtain ⟨rest, hrest⟩ := List.isPrefixOf_iff_prefix.1 hstarts
  exact ⟨List.mem_of_find?_eq_some h, rest, hrest.symm⟩

theorem reference?_eq_none_iff : reference? refs t = none ↔ ∀ r ∈ refs, ¬r.text <+: t := by
  simp [reference?, List.isPrefixOf_iff_prefix]

theorem reference?_text (h : Apart refs) (hr : r ∈ refs) (t : Text) :
    reference? refs (r.text ++ t) = some r := by
  have hpre : r.text <+: r.text ++ t := List.prefix_append _ _
  cases hfound : reference? refs (r.text ++ t) with
  | none => exact absurd hpre (reference?_eq_none_iff.1 hfound r hr)
  | some r' =>
    obtain ⟨hr', rest, hrest⟩ := reference?_eq_some hfound
    have hpre' : r'.text <+: r.text ++ t := ⟨rest, hrest.symm⟩
    -- of two beginnings of one text the shorter one is a beginning of the other
    rcases List.prefix_or_prefix_of_prefix hpre hpre' with hle | hle
    · rw [h r hr r' hr' hle]
    · rw [h r' hr' r hr hle]

theorem decode_cons (h : ∀ r ∈ refs, ¬r.text <+: c :: t) :
    decode refs (c :: t) = c :: decode refs t := by
  rw [decode, reference?_eq_none_iff.2 h]

theorem decode_cons_of_ne (h : c ≠ '&') (t : Text) :
    decode refs (c :: t) = c :: decode refs t :=
  decode_cons fun _ _ hstarts => h (List.cons_prefix_cons.1 hstarts).1.symm

theorem decode_append (h : '&' ∉ s) (t : Text) : decode refs (s ++ t) = s ++ decode refs t := by
  induction s with
  | nil => rfl
  | cons c s ih =>
    rw [List.mem_cons, not_or] at h
    rw [List.cons_append, decode_cons_of_ne (Ne.symm h.1), ih h.2, List.cons_append]

theorem decode_text (h : Apart refs) (hr : r ∈ refs) (t : Text) :
    decode refs (r.text ++ t) = r.char :: decode refs t := by
  have hfound := reference?_text h hr t
  rw [Reference.text, List.cons_append] at hfound ⊢
  rw [decode, hfound]
  simp only [List.drop_left]

/-! ### Escaped text -/

def entities : List Reference :=
  [⟨"amp;", '&', by decide⟩, ⟨"lt;", '<', by decide⟩, ⟨"gt;", '>', by decide⟩,
    ⟨"quot;", '"', by decide⟩, ⟨"#39;", '\'', by decide⟩]

/-- Every ampersand of the text is the start of an entity. -/
def Referring (t : Text) : Prop := ∀ a b, t = a ++ '&' :: b → ∃ r ∈ entities, r.text <+: '&' :: b

/-- A text in which nothing has a meaning in markup but its entities. -/
structure Safe (t : Text) : Prop where
  no_markup : ∀ c ∈ t, c ≠ '<' ∧ c ≠ '>' ∧ c ≠ '"' ∧ c ≠ '\''
  referring : Referring t

theorem apart_entities : Apart entities := by decide

theorem escapeChar_of_mem (h : r ∈ entities) : escapeChar r.char = r.text := by
  simp only [entities, List.mem_cons, List.not_mem_nil, or_false] at h
  rcases h with rfl | rfl | rfl | rfl | rfl <;> rfl

theorem escapeChar_of_not_mem (h : ∀ r ∈ entities, r.char ≠ c) : escapeChar c = [c] := by
  simp only [entities, List.forall_mem_cons] at h
  obtain ⟨hamp, hlt, hgt, hquot, hapos, -⟩ := h
  unfold escapeChar
  split
  case h_6 => rfl
  all_goals contradiction

/-- A character is written as its entity if it has one, and as it is otherwise. -/
theorem escapeChar_cases (c : Char) :
    (∃ r ∈ entities, r.char = c ∧ escapeChar c = r.text) ∨
      (∀ r ∈ entities, r.char ≠ c) ∧ escapeChar c = [c] := by
  by_cases h : ∃ r ∈ entities, r.char = c
  · obtain ⟨r, hr, rfl⟩ := h
    exact .inl ⟨r, hr, rfl, escapeChar_of_mem hr⟩
  · have hne : ∀ r ∈ entities, r.char ≠ c := fun r hr hc => h ⟨r, hr, hc⟩
    exact .inr ⟨hne, escapeChar_of_not_mem hne⟩

theorem escape_cons (c : Char) (t : Text) : escape (c :: t) = escapeChar c ++ escape t :=
  List.flatMap_cons

theorem flatten_map_escape (ts : List Text) : (ts.map escape).flatten = escape ts.flatten := by
  simp only [escape, List.flatMap_def, List.map_flatten, List.flatten_flatten, List.map_map]
  rfl

theorem decode_escape (t : Text) : decode entities (escape t) = t := by
  induction t with
  | nil => simp [escape, decode]
  | cons c t ih =>
    rw [escape_cons]
    rcases escapeChar_cases c with ⟨r, hr, rfl, hc⟩ | ⟨hne, hc⟩
    · rw [hc, decode_text apart_entities hr, ih]
    · have hamp : c ≠ '&' := fun h => hne _ List.mem_cons_self h.symm
      rw [hc, List.singleton_append, decode_cons_of_ne hamp, ih]

theorem Referring.append (hs : '&' ∉ s) (ht : Referring t) : Referring (s ++ t) := by
  induction s with
  | nil => exact ht
  | cons c s ih =>
    rw [List.mem_cons, not_or] at hs
    intro a b h
    cases a with
    | nil => exact absurd (List.cons.inj h).1.symm hs.1
    | cons d a => exact ih hs.2 a b (List.cons.inj h).2

theorem Referring.text_append (hr : r ∈ entities) (ht : Referring t) :
    Referring (r.text ++ t) := by
  intro a b h
  cases a with
  | nil => exact ⟨r, hr, t, h⟩
  | cons d a => exact Referring.append r.single ht a b (List.cons.inj h).2

theorem Referring.of_append (h : Referring (s ++ t)) : Referring t := by
  intro a b hab
  exact h (s ++ a) b (by rw [hab, List.append_assoc])

theorem referring_escape (t : Text) : Referring (escape t) := by
  induction t with
  | nil => intro a b h; simp [escape] at h
  | cons c t ih =>
    rw [escape_cons]
    rcases escapeChar_cases c with ⟨r, hr, -, hc⟩ | ⟨hne, hc⟩
    · rw [hc]
      exact ih.text_append hr
    · have hamp : '&' ≠ c := hne _ List.mem_cons_self
      rw [hc]
      exact ih.append (by simpa using hamp)

/-- Neither the characters without an entity nor the entities hold one of the four. -/
theorem safe_escape (t : Text) : Safe (escape t) := by
  refine ⟨fun c hc => ?_, referring_escape t⟩
  obtain ⟨d, -, hd⟩ := List.mem_flatMap.1 hc
  rcases escapeChar_cases d with ⟨r, hr, -, hr'⟩ | ⟨hne, hd'⟩
  · have hnames : ∀ r ∈ entities, '<' ∉ r.text ∧ '>' ∉ r.text ∧ '"' ∉ r.text ∧ '\'' ∉ r.text := by
      decide
    obtain ⟨hlt, hgt, hquot, hapos⟩ := hnames r hr
    rw [hr'] at hd
    refine ⟨?_, ?_, ?_, ?_⟩ <;> rintro rfl <;> contradiction
  · rw [hd', List.mem_singleton] at hd
    subst hd
    simp only [entities, List.forall_mem_cons] at hne
    obtain ⟨-, hlt, hgt, hquot, hapos, -⟩ := hne
    exact ⟨hlt.symm, hgt.symm, hquot.symm, hapos.symm⟩

theorem Safe.of_append (h : Safe (s ++ t)) : Safe t :=
  ⟨fun c hc => h.no_markup c (List.mem_append_right s hc), h.referring.of_append⟩

/-- A safe text is what its reading is escaped to. -/
theorem escape_decode (h : Safe t) : escape (decode entities t) = t := by
  fun_induction decode entities t with
  | case1 => rfl
  | case2 c t r hfound ih =>
    obtain ⟨hr, rest, hrest⟩ := reference?_eq_some hfound
    have ht : t = r.name ++ rest := (List.cons.inj hrest).2
    rw [hrest] at h ⊢
    rw [ht, List.drop_left] at ih ⊢
    rw [escape_cons, escapeChar_of_mem hr, ih h.of_append]
  | case3 c t hnone ih =>
    have hamp : '&' ≠ c := by
      rintro rfl
      obtain ⟨r, hr, hpre⟩ := h.referring [] t rfl
      exact reference?_eq_none_iff.1 hnone r hr hpre
    obtain ⟨hlt, hgt, hquot, hapos⟩ := h.no_markup c List.mem_cons_self
    have hne : ∀ r ∈ entities, r.char ≠ c := by
      simp only [entities, List.forall_mem_cons]
      exact ⟨hamp, hlt.symm, hgt.symm, hquot.symm, hapos.symm, by simp⟩
    have ht : Safe t := Safe.of_append (s := [c]) h
    rw [escape_cons, escapeChar_of_not_mem hne, ih ht, List.singleton_append]

end Haml.Html

namespace Haml.Script.Writer

/-- Literals that follow each other are added to the pending text as one that is escaped. -/
theorem pieces_literals (w : Writer) (point : Point) (ts : List Text) :
    (ts.map Piece.literal).foldl (fun w x => w.piece point .escape x) w =
      w.onBuffer (·.append (Html.escape ts.flatten)) := by
  rw [← Html.flatten_map_escape]
  induction ts generalizing w with
  | nil => rfl
  | cons t ts ih =>
    rw [List.map_cons, List.foldl_cons, ih]
    simp [piece, onBuffer, TextProcessing.apply]

end Haml.Script.Writer

namespace Haml.Html

/-- Escaping loses nothing and leaves nothing of markup. Reading the entities of an escaped text
gives the text back, and a text is an escaped one just if it holds none of the four characters and
every ampersand in it starts an entity. Texts one after another may be escaped one by one, and so
it is with the literals of interpolated text: those that stand together, with no expression
between them, are written out as one escaped text. -/
theorem escape_reads_back_safe_and_piecewise (t : Text) :
    decode entities (escape t) = t ∧ Safe (escape t) ∧
      (∀ e, (∃ u, escape u = e) ↔ Safe e) ∧
      (∀ ts : List Text, (ts.map escape).flatten = escape ts.flatten) ∧
      ∀ (w : Script.Writer) (point : Point) (front rest : List Piece) (ts : List Text),
        Piece.split t = front ++ ts.map .literal ++ rest →
          w.apply (.text t true point .escape) =
            rest.foldl (fun w x => w.piece point .escape x)
              ((front.foldl (fun w x => w.piece point .escape x) w).onBuffer
                (·.append (escape ts.flatten))) := by
  refine ⟨decode_escape t, safe_escape t, fun e => ⟨?_, ?_⟩, flatten_map_escape, ?_⟩
  · rintro ⟨u, rfl⟩
    exact safe_escape u
  · intro he
    exact ⟨decode entities e, escape_decode he⟩
  · intro w point front rest ts hsplit
    rw [Script.Writer.apply, hsplit, List.foldl_append, List.foldl_append,
      Script.Writer.pieces_literals]

/-- An escaped region and what looks like an entity stand together before an expression. -/
theorem escape_reads_back_safe_and_piecewise_behind_region :
    Piece.split "\\#\x7ba\x7d&lt;#\x7bb\x7d'" =
        [] ++ ["#\x7ba\x7d".toList, "&lt;".toList].map .literal ++
          [.code "b", .literal "'"] ∧
      (({} : Script.Writer).apply (.text "\\#\x7ba\x7d&lt;#\x7bb\x7d'" true ⟨1, 0, []⟩ .escape)) =
        [Piece.code "b", .literal "'"].foldl (fun w x => w.piece ⟨1, 0, []⟩ .escape x)
          (({} : Script.Writer).onBuffer (·.append "#\x7ba\x7d&amp;lt;")) := by
  have hsplit : Piece.split "\\#\x7ba\x7d&lt;#\x7bb\x7d'" =
      [] ++ ["#\x7ba\x7d".toList, "&lt;".toList].map .literal ++ [.code "b", .literal "'"] := by
    decide +kernel
  exact ⟨hsplit, (escape_reads_back_safe_and_piecewise _).2.2.2.2 {} ⟨1, 0, []⟩ _ _ _ hsplit⟩

end Haml.Html
