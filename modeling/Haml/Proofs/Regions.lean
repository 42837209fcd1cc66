import Haml.Proofs.CursorPlace
import Haml.Proofs.Writing
import Mathlib.Data.List.Basic
import Mathlib.Data.List.TakeWhile

/-!
# Regions of interpolated text

The expressions of a text stand in its leftmost regions that do not overlap. A text is split at
these: a region is an expression, unless a single backslash stands before it. Nothing of the text
is lost on the way but these backslashes, and all offsets at which it is cut are places between
two of its characters.
-/

namespace Haml

namespace Text

/-- Of two beginnings of a text the one with fewer bytes is a beginning of the other. -/
theorem exists_gap {p q b r : Text} (h : p ++ q = b ++ r) (hle : p.byteSize ≤ b.byteSize) :
    ∃ g, b = p ++ g ∧ q = g ++ r := by
  rcases List.append_eq_append_iff.1 h with ⟨g, hb, hq⟩ | ⟨g, hp, hr⟩
  · exact ⟨g, hb, hq⟩
  · have hg : g = [] := by
      apply byteSize_eq_zero.1
      rw [hp, byteSize_append] at hle
      omega
    subst hg
    exact ⟨[], by simpa using hp.symm, by simpa using hr.symm⟩

theorem slice_of_eq {t p m q : Text} (h : t = p ++ (m ++ q)) :
    t.slice p.byteSize (p.byteSize + m.byteSize) = m := by
  subst h
  exact slice_append p m q

/-- The offsets of a pair are places of the text between two characters, in their order. -/
def Fits (t : Text) (c : Nat × Nat) : Prop :=
  ∃ p m q, t = p ++ (m ++ q) ∧ c = (p.byteSize, p.byteSize + m.byteSize)

end Text

namespace Piece

def source : Piece → Text
  | .literal t => t
  | .code c => '#' :: '\x7b' :: (c ++ ['\x7d'])

def code? : Piece → Option Text
  | .literal _ => none
  | .code c => some c

@[simp] theorem flatMap_source_ofLiteral (t : Text) : (ofLiteral t).flatMap source = t := by
  cases t <;> simp [ofLiteral, source]

@[simp] theorem filterMap_code?_ofLiteral (t : Text) : (ofLiteral t).filterMap code? = [] := by
  cases t <;> simp [ofLiteral, code?]

theorem ne_nil_of_mem_ofLiteral {s t : Text} (h : literal s ∈ ofLiteral t) : s ≠ [] := by
  cases t with
  | nil => simp [ofLiteral] at h
  | cons c t =>
    simp only [ofLiteral, List.isEmpty_cons, Bool.false_eq_true, if_false, List.mem_singleton,
      literal.injEq] at h
    simp [h]

end Piece

/-- A region of a text: an expression between its signs, without a closing brace in it. -/
structure Region (t : Text) where
  before : Text
  code : Text
  behind : Text
  cut : t = before ++ ((Piece.code code).source ++ behind)
  free : '\x7d' ∉ code

namespace Region

variable {t p q : Text} {i : Nat} {r : Region t} {rs : List (Region t)}

def text (r : Region t) : Text := (Piece.code r.code).source

def start (r : Region t) : Nat := r.before.byteSize

def stop (r : Region t) : Nat := r.start + r.text.byteSize

/-- Whether the character before the region is a backslash, and the one before that is not. -/
def escaped (r : Region t) : Bool :=
  r.before.getLast? == some '\\' && r.before.dropLast.getLast? != some '\\'

def sign (r : Region t) : Text := if r.escaped then ['\\'] else []

/-- The regions are the leftmost ones from the offset `i` on, each behind the one before it. -/
inductive Leftmost : Nat → List (Region t) → Prop where
  | nil {i : Nat} (h : ∀ r : Region t, r.start < i) : Leftmost i []
  | cons {i : Nat} {r : Region t} {rs : List (Region t)} (hi : i ≤ r.start)
      (hleft : ∀ r' : Region t, i ≤ r'.start → r.start ≤ r'.start) (h : Leftmost r.stop rs) :
      Leftmost i (r :: rs)

theorem cut_text (r : Region t) : t = r.before ++ (r.text ++ r.behind) := r.cut

theorem text_pos (r : Region t) : 0 < r.text.byteSize := by
  have hc := Char.utf8Size_pos '#'
  simp only [text, Piece.source, Text.byteSize_cons]
  omega

theorem getLast?_append_text (s : Text) (r : Region t) :
    (s ++ r.text).getLast? = some '\x7d' := by
  have h : s ++ r.text = s ++ '#' :: '\x7b' :: r.code ++ ['\x7d'] := by simp [text, Piece.source]
  rw [h, List.getLast?_concat]

/-- Behind its beginning `p`, the text goes on with what lies between `p` and the region. -/
theorem exists_gap (ht : t = p ++ q) (hp : p.byteSize ≤ r.start) :
    ∃ g, r.before = p ++ g ∧ q = g ++ (r.text ++ r.behind) :=
  Text.exists_gap (ht.symm.trans r.cut_text) hp

/-- A region is found at one place only once. -/
theorem eq_of_start {r r' : Region t} (h : r.start = r'.start) : r = r' := by
  have hsplit (c b : Text) (hc : '\x7d' ∉ c) :
      (c ++ '\x7d' :: b).takeWhile (· != '\x7d') = c := by
    rw [List.takeWhile_append_of_pos]
    · simp
    · intro a ha
      simp only [bne_iff_ne, ne_eq]
      rintro rfl
      exact hc ha
  obtain ⟨g, hbefore, hrest⟩ := exists_gap r'.cut_text (Nat.le_of_eq h.symm : r'.start ≤ r.start)
  have hg : g = [] := by
    apply Text.byteSize_eq_zero.1
    rw [start, start, hbefore, Text.byteSize_append] at h
    omega
  subst hg
  obtain ⟨before, code, behind, cut, free⟩ := r
  obtain ⟨before', code', behind', cut', free'⟩ := r'
  simp only [text, Piece.source, List.append_nil, List.nil_append, List.cons_append,
    List.append_assoc, List.cons.injEq, true_and] at hbefore hrest
  have hcode : code' = code := by
    rw [← hsplit code' behind' free', hrest, hsplit code behind free]
  subst hbefore hcode
  have hbehind : behind' = behind := by simpa using hrest
  subst hbehind
  rfl

/-- There is only one way to pick the leftmost regions. -/
theorem Leftmost.unique {rs' : List (Region t)} (h : Leftmost i rs) (h' : Leftmost i rs') :
    rs' = rs := by
  induction h generalizing rs' with
  | nil hnone =>
    cases h' with
    | nil => rfl
    | @cons _ r' _ hi _ _ => exact absurd (hnone r') (by omega)
  | @cons i r rs hi hleft _ ih =>
    cases h' with
    | nil hnone => exact absurd (hnone r) (by omega)
    | @cons _ r' rs' hi' hleft' h' =>
      have hstart : r'.start = r.start := Nat.le_antisymm (hleft' r hi) (hleft r' hi')
      obtain rfl := eq_of_start hstart
      rw [ih h']

theorem Leftmost.le_start (h : Leftmost i rs) : ∀ r ∈ rs, i ≤ r.start := by
  induction h with
  | nil => simp
  | @cons i r rs hi _ _ ih =>
    intro r' hr'
    rcases List.mem_cons.1 hr' with rfl | hr'
    · exact hi
    · have hstop := ih r' hr'
      have hpos := r.text_pos
      simp only [stop] at hstop
      omega

/-! ### Cutting by offsets -/

/-- What is cut out of the text between the offset `i` and the region; the backslash of an
escaped region is left out. -/
def gap (i : Nat) (r : Region t) : Nat × Nat := (i, if r.escaped then r.start - 1 else r.start)

def pieces (i : Nat) : List (Region t) → List Piece
  | [] => Piece.ofLiteral (t.slice i t.byteSize)
  | r :: rs =>
    Piece.ofLiteral (t.slice (r.gap i).1 (r.gap i).2) ++
      (if r.escaped then .literal (t.slice r.start r.stop) else .code r.code) :: pieces r.stop rs

/-- The pairs of offsets between which the text is cut out or looked at on the way. -/
def cuts (i : Nat) : List (Region t) → List (Nat × Nat)
  | [] => [(i, t.byteSize)]
  | r :: rs => (0, r.start) :: r.gap i :: (r.start, r.stop) :: cuts r.stop rs

theorem slice_text (r : Region t) : t.slice r.start r.stop = r.text := Text.slice_of_eq r.cut_text

theorem escaped_iff :
    r.escaped = true ↔ ∃ b, r.before = b ++ ['\\'] ∧ b.getLast? ≠ some '\\' := by
  simp only [escaped, Bool.and_eq_true, beq_iff_eq, bne_iff_ne]
  constructor
  · rintro ⟨hlast, hbefore⟩
    exact ⟨_, (List.dropLast_append_getLast? _ hlast).symm, hbefore⟩
  · rintro ⟨b, hb, hlast⟩
    rw [hb]
    simpa using hlast

/-- The text between a place and a region behind it, without the backslash of the region. The
place must not be behind a backslash itself. -/
theorem exists_slice_gap (ht : t = p ++ q) (hlast : p.getLast? ≠ some '\\')
    (hp : p.byteSize ≤ r.start) :
    ∃ g, r.before = p ++ (g ++ r.sign) ∧
      t = p ++ (g ++ (r.sign ++ (r.text ++ r.behind))) ∧
      r.gap p.byteSize = (p.byteSize, p.byteSize + g.byteSize) := by
  suffices h : ∃ g, r.before = p ++ (g ++ r.sign) ∧
      r.gap p.byteSize = (p.byteSize, p.byteSize + g.byteSize) by
    obtain ⟨g, hbefore, hgap⟩ := h
    refine ⟨g, hbefore, ?_, hgap⟩
    rw [← List.append_assoc g, ← List.append_assoc p, ← hbefore]
    exact r.cut_text
  rw [sign]
  obtain ⟨g, hbefore, -⟩ := exists_gap ht hp
  cases he : r.escaped with
  | false => exact ⟨g, by simpa using hbefore, by simp [gap, he, start, hbefore]⟩
  | true =>
    obtain ⟨b, hb, -⟩ := escaped_iff.1 he
    rw [hbefore] at hb
    rcases List.eq_nil_or_concat g with rfl | ⟨g, c, rfl⟩
    · rw [List.append_nil] at hb
      simp [hb] at hlast
    · rw [List.concat_eq_append, ← List.append_assoc] at hb
      obtain ⟨-, hc⟩ := List.append_inj' hb rfl
      obtain rfl : c = '\\' := by simpa using hc
      refine ⟨g, by simpa using hbefore, ?_⟩
      have hsize : Text.byteSize ['\\'] = 1 := rfl
      rw [gap, he, if_pos rfl, start, hbefore, List.concat_eq_append]
      simp only [Text.byteSize_append, hsize]
      rw [← Nat.add_assoc, Nat.add_sub_cancel]

/-- What stands before a region since the last one says whether it is escaped. -/
theorem isEscaped_eq {last before : Text} (hbefore : r.before = last ++ before.reverse)
    (hlast : last.getLast? ≠ some '\\') : Piece.isEscaped before = r.escaped := by
  rw [escaped, hbefore]
  cases before with
  | nil => simp [Piece.isEscaped, hlast]
  | cons c b =>
    by_cases hc : c = '\\'
    · subst hc
      cases b with
      | nil => simpa [Piece.isEscaped] using hlast
      | cons d b => by_cases hd : d = '\\' <;> simp [Piece.isEscaped, hd]
    · simp [Piece.isEscaped, hc]

/-! ### Splitting finds the leftmost regions -/

/-- A region that starts where `p` ends is what the text goes on with there. -/
theorem eq_of_before (ht : t = p ++ q) (hr : r.before = p) : q = r.text ++ r.behind :=
  List.append_cancel_left (ht.symm.trans (hr ▸ r.cut_text))

/-- If no region starts where `p` ends, those behind `p` start at the next character or later. -/
theorem start_of_ne {c : Char} (ht : t = p ++ c :: q) (hr : p.byteSize ≤ r.start)
    (hne : r.before ≠ p) : (p ++ [c]).byteSize ≤ r.start := by
  obtain ⟨g, hbefore, hq⟩ := exists_gap ht hr
  cases g with
  | nil => exact absurd (by simpa using hbefore) hne
  | cons d g =>
    obtain ⟨rfl, -⟩ := List.cons.inj hq
    rw [start, hbefore]
    simp only [Text.byteSize_append, Text.byteSize_cons, Text.byteSize_nil]
    omega

/-- What is cut out before a region is what was looked through since the last one. -/
theorem slice_gap {last before : Text} (hbefore : r.before = last ++ before.reverse)
    (hlast : last.getLast? ≠ some '\\') :
    t.slice (r.gap last.byteSize).1 (r.gap last.byteSize).2 =
      (before.drop (if r.escaped then 1 else 0)).reverse := by
  have ht : t = last ++ (before.reverse ++ (r.text ++ r.behind)) := by
    rw [← List.append_assoc, ← hbefore]
    exact r.cut_text
  have hle : last.byteSize ≤ r.start := by
    rw [start, hbefore, Text.byteSize_append]
    omega
  obtain ⟨g, hg, hcut, hgap⟩ := exists_slice_gap ht hlast hle
  have hbefore' : before.reverse = g ++ r.sign := List.append_cancel_left (hbefore.symm.trans hg)
  rw [hgap, Text.slice_of_eq hcut, ← List.reverse_reverse before, hbefore', sign]
  cases r.escaped <;> simp

/-- Behind `last` the text has been looked through up to `rest` without finding a region. The
characters since `last` are in `before`, nearest first. -/
structure Looked (t last before rest : Text) : Prop where
  eq : t = last ++ (before.reverse ++ rest)
  getLast : last.getLast? ≠ some '\\'
  none : ∀ r : Region t, last.byteSize ≤ r.start → (last ++ before.reverse).byteSize ≤ r.start

namespace Looked

variable {last before rest : Text}

/-- What is still split off is what the leftmost regions from `last` on cut out. -/
def Finds (t last : Text) (ps : List Piece) : Prop :=
  ∃ rs : List (Region t), Leftmost last.byteSize rs ∧ ps = pieces last.byteSize rs

theorem start (ht : t = last ++ rest) (hlast : last.getLast? ≠ some '\\') :
    Looked t last [] rest :=
  ⟨ht, hlast, fun r hr => by simpa using hr⟩

/-- A character is passed at which no region starts. -/
theorem pass {c : Char} (h : Looked t last before (c :: rest))
    (hc : ∀ r : Region t, c :: rest ≠ r.text ++ r.behind) : Looked t last (c :: before) rest := by
  have ht := h.eq
  rw [← List.append_assoc] at ht
  refine ⟨by simpa using ht, h.getLast, fun r hr => ?_⟩
  rw [List.reverse_cons, ← List.append_assoc]
  exact start_of_ne ht (h.none r hr) fun hr => hc r (eq_of_before ht hr)

/-- At the end of the text nothing more is found: a region has a character at least. -/
theorem finds_nil (h : Looked t last before []) :
    Finds t last (Piece.ofLiteral before.reverse) := by
  have ht := h.eq
  refine ⟨[], .nil fun r => ?_, ?_⟩
  · by_contra hr
    have hle := h.none r (by omega)
    have hsize := congrArg Text.byteSize r.cut_text
    have hpos := r.text_pos
    rw [List.append_nil] at ht
    rw [← ht, hsize, Text.byteSize_append, Text.byteSize_append, Region.start] at hle
    omega
  · have hsize : t.byteSize = last.byteSize + Text.byteSize before.reverse := by
      rw [ht, List.append_nil, Text.byteSize_append]
    rw [pieces, hsize, Text.slice_of_eq ht]

/-- The first region behind `last` starts at `rest`, and the other ones are found behind it. -/
theorem finds_cons {c u : Text} {ps : List Piece}
    (h : Looked t last before ((Piece.code c).source ++ u)) (hc : '\x7d' ∉ c)
    (hps : ∀ last' : Text, Looked t last' [] u → Finds t last' ps) :
    Finds t last
      (Piece.ofLiteral (before.drop (if Piece.isEscaped before then 1 else 0)).reverse ++
        (if Piece.isEscaped before then .literal (Piece.code c).source else .code c) :: ps) := by
  have ht := h.eq
  rw [← List.append_assoc] at ht
  let r : Region t := ⟨last ++ before.reverse, c, u, ht, hc⟩
  have hlast : (r.before ++ r.text).getLast? ≠ some '\\' := by
    rw [getLast?_append_text]
    decide
  obtain ⟨rs, hrs, rfl⟩ := hps (r.before ++ r.text)
    (.start (by rw [List.append_assoc]; exact ht) hlast)
  have hstop : (r.before ++ r.text).byteSize = r.stop := Text.byteSize_append _ _
  rw [hstop] at hrs ⊢
  refine ⟨r :: rs, .cons ?_ h.none hrs, ?_⟩
  · rw [Region.start, Text.byteSize_append]
    omega
  · rw [isEscaped_eq (r := r) rfl h.getLast, pieces, slice_gap rfl h.getLast, slice_text]
    rfl

/-- A closing brace ends the code that stands before it. -/
theorem exists_code {u : Text} (h : u.contains '\x7d' = true) :
    u = u.takeWhile (· != '\x7d') ++ '\x7d' :: (u.dropWhile (· != '\x7d')).drop 1 ∧
      '\x7d' ∉ u.takeWhile (· != '\x7d') := by
  have hmem : '\x7d' ∈ u := by simpa using h
  refine ⟨?_, fun hc => by simpa using List.mem_takeWhile_imp hc⟩
  cases hd : u.dropWhile (· != '\x7d') with
  | nil => simpa using List.dropWhile_eq_nil_iff.1 hd _ hmem
  | cons a v =>
    have ha : a = '\x7d' := by
      have hhead := List.head?_dropWhile_not (· != '\x7d') u
      rw [hd] at hhead
      simpa using hhead
    subst ha
    rw [List.drop_one, List.tail_cons, ← hd, List.takeWhile_append_dropWhile]

theorem finds (h : Looked t last before rest) : Finds t last (Piece.splitAfter before rest) := by
  fun_induction Piece.splitAfter before rest generalizing last with
  | case1 before => exact h.finds_nil
  | case2 before u hu code rest he =>
    rename_i ih
    obtain ⟨hcode, hfree⟩ := exists_code hu
    have hfound : Looked t last before ((Piece.code code).source ++ rest) := by
      rw [hcode] at h
      simpa [Piece.source, code, rest] using h
    simpa [he, Piece.source] using hfound.finds_cons hfree fun _ => ih
  | case3 before u hu code rest he =>
    rename_i ih
    obtain ⟨hcode, hfree⟩ := exists_code hu
    have hfound : Looked t last before ((Piece.code code).source ++ rest) := by
      rw [hcode] at h
      simpa [Piece.source, code, rest] using h
    simpa [he, Piece.source] using hfound.finds_cons hfree fun _ => ih
  | case4 before u hu ih =>
    refine ih (h.pass fun r hr => ?_)
    simp only [text, Piece.source, List.cons_append, List.cons.injEq, true_and] at hr
    simp [hr] at hu
  | case5 before c u hc ih =>
    refine ih (h.pass fun r hr => ?_)
    simp only [text, Piece.source, List.cons_append, List.cons.injEq] at hr
    exact hc _ hr.1 hr.2

end Looked

/-- The pieces of a text are what its leftmost regions cut out. -/
theorem exists_leftmost (t : Text) :
    ∃ rs : List (Region t), Leftmost 0 rs ∧ Piece.split t = pieces 0 rs := by
  have h : Looked t [] [] t := .start rfl (by decide)
  exact h.finds

/-! ### What the pieces are -/

theorem filterMap_code?_pieces (i : Nat) (rs : List (Region t)) :
    (pieces i rs).filterMap Piece.code? = (rs.filter fun r => !r.escaped).map code := by
  induction rs generalizing i with
  | nil => simp [pieces]
  | cons r rs ih =>
    cases he : r.escaped <;> simp [pieces, he, List.filterMap_cons, Piece.code?, ih]

theorem ne_nil_of_mem_pieces {s : Text} (h : Piece.literal s ∈ pieces i rs) : s ≠ [] := by
  induction rs generalizing i with
  | nil => exact Piece.ne_nil_of_mem_ofLiteral h
  | cons r rs ih =>
    rw [pieces, List.mem_append, List.mem_cons] at h
    rcases h with h | h | h
    · exact Piece.ne_nil_of_mem_ofLiteral h
    · cases he : r.escaped with
      | false => simp [he] at h
      | true =>
        have hs : s = r.text := by simpa [he, slice_text] using h
        rw [hs, text, Piece.source]
        exact List.cons_ne_nil _ _
    · exact ih h

/-- All cuts are made between two characters of the text. -/
theorem Leftmost.fits (h : Leftmost i rs) (ht : t = p ++ q) (hi : i = p.byteSize)
    (hlast : p.getLast? ≠ some '\\') : ∀ c ∈ cuts i rs, t.Fits c := by
  induction h generalizing p q with
  | nil =>
    rintro c (_ | ⟨_, ⟨⟩⟩)
    exact ⟨p, q, [], by simpa using ht, by rw [hi, ht, Text.byteSize_append]⟩
  | @cons i r rs hle _ _ ih =>
    subst hi
    intro c hc
    simp only [cuts, List.mem_cons] at hc
    rcases hc with rfl | rfl | rfl | hc
    · exact ⟨[], r.before, r.text ++ r.behind, r.cut_text, by simp [start]⟩
    · obtain ⟨g, -, hcut, hgap⟩ := exists_slice_gap ht hlast hle
      exact ⟨p, g, _, hcut, hgap⟩
    · exact ⟨r.before, r.text, r.behind, r.cut_text, rfl⟩
    · refine ih (p := r.before ++ r.text) (q := r.behind) ?_ ?_ ?_ c hc
      · rw [List.append_assoc]
        exact r.cut_text
      · rw [Text.byteSize_append]
        rfl
      · rw [getLast?_append_text]
        decide

/-! ### Putting the pieces together again -/

/-- Whether the character of this number is the backslash that escapes the region. -/
def drops (r : Region t) (n : Nat) : Bool := r.escaped && n + 1 == r.before.length

/-- The characters of `s`, numbered from `n` on, but for the backslashes that escape a region. -/
def unescaped (rs : List (Region t)) (s : Text) (n : Nat) : Text :=
  ((s.zipIdx n).filter fun x => !rs.any (·.drops x.2)).map Prod.fst

/-- The characters before the sign of a region do not escape it. -/
theorem drops_of_lt {n : Nat} (h : n + r.sign.length < r.before.length) : r.drops n = false := by
  rw [sign] at h
  cases he : r.escaped with
  | false => simp [drops, he]
  | true =>
    have hne : n + 1 ≠ r.before.length := by
      rw [he, if_pos rfl, List.length_singleton] at h
      omega
    simp [drops, hne]

theorem drops_of_le {n : Nat} (h : r.before.length ≤ n) : r.drops n = false := by
  have hne : n + 1 ≠ r.before.length := by omega
  simp [drops, hne]

/-- Up to the end of a region no backslash belongs to a later one. -/
theorem Leftmost.drops_of_lt {n : Nat} (h : Leftmost r.stop rs)
    (hn : n < (r.before ++ r.text).length) : ∀ r' ∈ rs, r'.drops n = false := by
  intro r' hr'
  have hstop : (r.before ++ r.text).byteSize ≤ r'.start := by
    rw [Text.byteSize_append]
    exact h.le_start r' hr'
  obtain ⟨g, hbefore, -⟩ := exists_gap (p := r.before ++ r.text) (q := r.behind)
    (by rw [List.append_assoc]; exact r.cut_text) hstop
  cases g with
  | nil =>
    rw [List.append_nil] at hbefore
    have hlast : r'.before.getLast? = some '\x7d' := hbefore ▸ getLast?_append_text _ _
    simp [drops, escaped, hlast]
  | cons c g =>
    apply Region.drops_of_lt
    have hsign : r'.sign.length ≤ 1 := by
      rw [sign]
      split <;> simp
    rw [hbefore, List.length_append, List.length_cons]
    omega

theorem unescaped_append (rs : List (Region t)) (s u : Text) (n : Nat) :
    unescaped rs (s ++ u) n = unescaped rs s n ++ unescaped rs u (n + s.length) := by
  simp [unescaped, List.zipIdx_append]

theorem unescaped_of_kept {s : Text} {n : Nat}
    (h : ∀ k, n ≤ k → k < n + s.length → ∀ r ∈ rs, r.drops k = false) : unescaped rs s n = s := by
  have hall : ∀ x ∈ s.zipIdx n, (!rs.any (·.drops x.2)) = true := by
    intro x hx
    have hle := List.le_snd_of_mem_zipIdx hx
    have hlt := List.snd_lt_add_of_mem_zipIdx hx
    simpa using h x.2 hle hlt
  rw [unescaped, List.filter_eq_self.2 hall, List.zipIdx_map_fst]

/-- From the end of a region on, its own backslash does not count. -/
theorem unescaped_cons_of_le {s : Text} {n : Nat} (h : r.before.length ≤ n) :
    unescaped (r :: rs) s n = unescaped rs s n := by
  have hall : ∀ x ∈ s.zipIdx n,
      (!(r :: rs).any (·.drops x.2)) = !rs.any (·.drops x.2) := by
    intro x hx
    have hle := List.le_snd_of_mem_zipIdx hx
    simp [drops_of_le (Nat.le_trans h hle)]
  rw [unescaped, List.filter_congr hall]
  rfl

theorem unescaped_sign {n : Nat} (h : n + r.sign.length = r.before.length) :
    unescaped (r :: rs) r.sign n = [] := by
  rw [sign] at h ⊢
  cases he : r.escaped with
  | false => rfl
  | true =>
    rw [he] at h
    have hdrops : r.drops n = true := by simpa [drops, he] using h
    simp [unescaped, hdrops]

/-- Together the pieces are the text from the offset `i` on, without its escaping backslashes. -/
theorem Leftmost.flatMap_source (h : Leftmost i rs) (ht : t = p ++ q) (hi : i = p.byteSize)
    (hlast : p.getLast? ≠ some '\\') :
    (pieces i rs).flatMap Piece.source = unescaped rs q p.length := by
  induction h generalizing p q with
  | nil =>
    have hsize : t.byteSize = p.byteSize + q.byteSize := by rw [ht, Text.byteSize_append]
    have hslice := Text.slice_of_eq (m := q) (q := []) (by simpa using ht)
    rw [pieces, hi, hsize, hslice, Piece.flatMap_source_ofLiteral]
    exact (unescaped_of_kept (by simp)).symm
  | @cons i r rs hle _ hrs ih =>
    subst hi
    obtain ⟨g, hbefore, hcut, hgap⟩ := exists_slice_gap ht hlast hle
    have hq : q = g ++ (r.sign ++ (r.text ++ r.behind)) :=
      List.append_cancel_left (ht.symm.trans hcut)
    have hlength : r.before.length = p.length + g.length + r.sign.length := by
      simp [hbefore, Nat.add_assoc]
    have hbehind := ih (p := r.before ++ r.text) (q := r.behind)
      (by rw [List.append_assoc]; exact r.cut_text) (Text.byteSize_append _ _).symm
      (by rw [getLast?_append_text]; decide)
    have hpiece : (if r.escaped then Piece.literal (t.slice r.start r.stop)
        else .code r.code).source = r.text := by
      cases r.escaped <;> simp [slice_text, Piece.source, text]
    have hg : unescaped (r :: rs) g p.length = g := by
      refine unescaped_of_kept fun k _ hk r' hr' => ?_
      rcases List.mem_cons.1 hr' with rfl | hr'
      · exact Region.drops_of_lt (by omega)
      · refine hrs.drops_of_lt ?_ r' hr'
        rw [List.length_append]
        omega
    have htext : unescaped (r :: rs) r.text r.before.length = r.text := by
      rw [unescaped_cons_of_le (Nat.le_refl _)]
      refine unescaped_of_kept fun k _ hk => hrs.drops_of_lt ?_
      rwa [List.length_append]
    rw [pieces, List.flatMap_append, List.flatMap_cons, Piece.flatMap_source_ofLiteral, hgap,
      Text.slice_of_eq hcut, hpiece, hbehind, hq, unescaped_append, unescaped_append,
      unescaped_append, hg, unescaped_sign hlength.symm, ← hlength, htext, List.length_append,
      unescaped_cons_of_le (Nat.le_add_right _ _)]
    rfl

end Region

/-- The pieces of a text are cut out at its leftmost regions that do not overlap, of which there
is one list. The expressions are those of the regions that are not escaped, no literal is empty,
and together the pieces are the text without the backslash before each escaped region. All
offsets on the way are places between two characters of the text. -/
theorem Piece.split_at_leftmost_regions (t : Text) :
    ∃ rs : List (Region t), Region.Leftmost 0 rs ∧
      (∀ rs' : List (Region t), Region.Leftmost 0 rs' → rs' = rs) ∧
      (split t).filterMap code? = (rs.filter fun r => !r.escaped).map Region.code ∧
      (∀ s, literal s ∈ split t → s ≠ []) ∧
      (split t).flatMap source = Region.unescaped rs t 0 ∧
      split t = Region.pieces 0 rs ∧ ∀ c ∈ Region.cuts 0 rs, t.Fits c := by
  obtain ⟨rs, hrs, hsplit⟩ := Region.exists_leftmost t
  refine ⟨rs, hrs, fun rs' => hrs.unique, ?_, ?_, ?_, hsplit, ?_⟩
  · rw [hsplit, Region.filterMap_code?_pieces]
  · intro s hs
    rw [hsplit] at hs
    exact Region.ne_nil_of_mem_pieces hs
  · rw [hsplit]
    exact hrs.flatMap_source (p := []) rfl rfl (by decide)
  · exact hrs.fits (p := []) rfl rfl (by decide)

end Haml
