import Haml.Json.Token
import Haml.Text.Blank
import Haml.Text.Quoted
import Mathlib.Tactic.SplitIfs

/-!
# Quoted text is read back

A text in quotes is read back as the text, by a reader of JSON and by a reader of script
literals that takes the Unicode separators for line ends. The quotes around it are the only
ones that are not escaped, and no character in it could end the line that it stands on.
-/

namespace Haml

/-- The characters that are written as a backslash and a letter, with that letter. -/
def Text.letters : List (Char × Char) :=
  [('"', '"'), ('\\', '\\'), ('\n', 'n'), ('\r', 'r'), ('\t', 't'), ('\x08', 'b'), ('\x0c', 'f')]

namespace Json

/-- How JSON writes one character inside double quotes. -/
def written (c : Char) : Text :=
  match Text.letters.lookup c with
  | some d => ['\\', d]
  | none =>
    if c.toNat < 32 then
      ['\\', 'u', '0', '0', Text.hexDigit (c.toNat / 16), Text.hexDigit (c.toNat % 16)]
    else [c]

def quote (t : Text) : Text := '"' :: (t.flatMap written ++ ['"'])

end Json

namespace Text

def replaceChar (c : Char) (w t : Text) : Text := t.flatMap fun x => if x = c then w else [x]

/-- The text with its line and paragraph separators replaced by escapes, one after the
other. -/
def replaceSeparators (t : Text) : Text :=
  replaceChar '\u2029' "\\u2029" (replaceChar '\u2028' "\\u2028" t)

/-- The UTF-16 code units of a code point. -/
def codeUnits (n : Nat) : List Nat :=
  if n < 0x10000 then [n]
  else [0xD800 + (n - 0x10000) / 0x400, 0xDC00 + (n - 0x10000) % 0x400]

/-- The text that a sequence of code units encodes; there is none if half of a surrogate
pair stands alone. -/
def ofCodeUnits? : List Nat → Option Text
  | [] => some []
  | u :: us =>
    if u < 0xD800 ∨ 0xDFFF < u then (ofCodeUnits? us).map (Char.ofNat u :: ·)
    else
      match us with
      | [] => none
      | v :: us =>
        if u < 0xDC00 ∧ 0xDC00 ≤ v ∧ v ≤ 0xDFFF then
          (ofCodeUnits? us).map (Char.ofNat (0x10000 + (u - 0xD800) * 0x400 + (v - 0xDC00)) :: ·)
        else none

/-- Whether what follows a text is escaped: it stands behind a backslash that is not escaped
itself. -/
def escapesNext (t : Text) : Bool := t.foldl (fun escaped c => !escaped && c == '\\') false

end Text

namespace Script

/-- The characters that end a line of a script. -/
def isLineEnd (c : Char) : Bool := isLineBreak c || c.toNat == 0x2028 || c.toNat == 0x2029

def controls : List (Char × Nat) :=
  [('b', 8), ('t', 9), ('n', 10), ('v', 11), ('f', 12), ('r', 13)]

/-- What stands behind a backslash: the code units it means, and the text behind it. A line
end means nothing, and octal escapes are refused. -/
def readEscape? : Text → Option (List Nat × Text)
  | [] => none
  | '\r' :: '\n' :: t => some ([], t)
  | 'x' :: a :: b :: t =>
    if Json.isHexDigit a && Json.isHexDigit b then some ([Json.hexUnit '0' '0' a b], t) else none
  | 'u' :: '\x7b' :: t =>
    let digits := t.takeWhile Json.isHexDigit
    let n := digits.foldl (fun n d => n * 16 + Json.hexValue d) 0
    match t.dropWhile Json.isHexDigit with
    | '\x7d' :: t => if digits ≠ [] ∧ n ≤ 0x10FFFF then some (Text.codeUnits n, t) else none
    | _ => none
  | 'u' :: a :: b :: c :: d :: t =>
    if [a, b, c, d].all Json.isHexDigit then some ([Json.hexUnit a b c d], t) else none
  | '0' :: t => if t.head?.any Char.isDigit then none else some ([0], t)
  | c :: t =>
    if isLineEnd c then some ([], t)
    else if c.isDigit || c == 'x' || c == 'u' then none
    else some ((controls.lookup c).elim (Text.codeUnits c.toNat) ([·]), t)

theorem length_readEscape?_le {t : Text} {e : List Nat × Text} (h : readEscape? t = some e) :
    e.2.length ≤ t.length := by
  unfold readEscape? at h
  split at h
  · cases h
  · cases h
    simp only [List.length_cons]
    omega
  · split at h <;> cases h
    simp only [List.length_cons]
    omega
  · rename_i u
    simp only at h
    split at h
    · rename_i v hv
      split at h <;> cases h
      have hle := (List.dropWhile_sublist Json.isHexDigit (l := u)).length_le
      rw [hv] at hle
      simp only [List.length_cons] at hle ⊢
      omega
    · cases h
  · split at h <;> cases h
    simp only [List.length_cons]
    omega
  · split at h <;> cases h
    exact Nat.le_succ _
  · split at h
    · cases h
      exact Nat.le_succ _
    · split at h <;> cases h
      exact Nat.le_succ _

/-- The code units of a literal behind its opening double quote, and the text behind its
closing one. -/
def readUnits? (t : Text) : Option (List Nat × Text) :=
  match t with
  | [] => none
  | c :: t =>
    if c = '"' then some ([], t)
    else if c = '\\' then
      match _ : readEscape? t with
      | none => none
      | some e => (readUnits? e.2).map fun r => (e.1 ++ r.1, r.2)
    else if isLineEnd c then none
    else (readUnits? t).map fun r => (Text.codeUnits c.toNat ++ r.1, r.2)
termination_by t.length
decreasing_by
  · exact Nat.lt_succ_of_le (length_readEscape?_le ‹_›)
  · exact Nat.lt_succ_self _

/-- The text that a double-quoted literal stands for, and the text behind the literal. -/
def readLiteral? : Text → Option (Text × Text)
  | '"' :: t => (readUnits? t).bind fun r => (Text.ofCodeUnits? r.1).map (·, r.2)
  | _ => none

end Script

namespace Text

inductive Spelling (c : Char) : Text → Prop where
  | letter {d : Char} (h : (c, d) ∈ letters) : Spelling c ['\\', d]
  | unit {w x y z : Char} (hex : [w, x, y, z].all Json.isHexDigit = true)
      (value : Json.hexUnit w x y z = c.toNat) (small : c.toNat < 0xD800) :
      Spelling c ['\\', 'u', w, x, y, z]
  | plain (quote : c ≠ '"') (backslash : c ≠ '\\') (control : 32 ≤ c.toNat)
      (line : c.toNat ≠ 0x2028) (paragraph : c.toNat ≠ 0x2029) : Spelling c [c]

theorem hexDigit_digit : ∀ n < 16, Json.isHexDigit (hexDigit n) = true ∧
    Json.hexValue (hexDigit n) = n := by
  decide

theorem eq_of_toNat_eq {c d : Char} (h : c.toNat = d.toNat) : c = d := by
  rw [← Char.ofNat_toNat c, h, Char.ofNat_toNat]

theorem spelling_quoteChar (c : Char) : Spelling c (quoteChar c) := by
  have hletter {d e : Char} (hc : c = d) (he : (d, e) ∈ letters) : Spelling c ['\\', e] :=
    .letter (hc ▸ he)
  unfold quoteChar
  split_ifs with h1 h2 h3 h4 h5 h6 h7 h8 h9 h10
  · exact hletter h1 (by decide)
  · exact hletter h2 (by decide)
  · exact hletter h3 (by decide)
  · exact hletter h4 (by decide)
  · exact hletter h5 (by decide)
  · exact hletter (eq_of_toNat_eq (d := '\x08') h6) (by decide)
  · exact hletter (eq_of_toNat_eq (d := '\x0c') h7) (by decide)
  · obtain ⟨hx, hv⟩ := hexDigit_digit (c.toNat / 16) (by omega)
    obtain ⟨hx', hv'⟩ := hexDigit_digit (c.toNat % 16) (by omega)
    obtain ⟨hx0, hv0⟩ : Json.isHexDigit '0' = true ∧ Json.hexValue '0' = 0 := by decide
    refine .unit (by simp [hx0, hx, hx']) ?_ (by omega)
    rw [Json.hexUnit, hv0, hv, hv']
    omega
  · exact .unit (by decide) (by rw [h9]; decide) (by omega)
  · exact .unit (by decide) (by rw [h10]; decide) (by omega)
  · exact .plain h1 h2 (by omega) h9 h10

end Text

namespace Json

open Text (Spelling letters quoteChar)

variable {c : Char} {w : Text}

/-- In a string, the spelling of a character leads on in the string. -/
theorem tokens?_spelling (h : Spelling c w) (s t : Text) :
    State.tokens? (.string s) (w ++ t) = State.tokens? (.string (w.reverse ++ s)) t := by
  cases h with
  | @letter d h =>
    have hall : letters.all (fun p => p.2 ∈ ['"', '\\', '/', 'b', 'f', 'n', 'r', 't']) = true := rfl
    have hd : d ∈ ['"', '\\', '/', 'b', 'f', 'n', 'r', 't'] := by
      simpa using List.all_eq_true.1 hall _ h
    have hu : d ≠ 'u' := by
      rintro rfl
      simp at hd
    simp only [List.cons_append, List.nil_append, State.tokens?, State.step?, hd, hu]
    simp
  | unit hex =>
    simp only [List.all_cons, List.all_nil, Bool.and_true, Bool.and_eq_true] at hex
    simp [State.tokens?, State.step?, hex]
  | plain hq hb hc => simp [State.tokens?, State.step?, hq, hb, Nat.not_lt.2 hc]

/-- The spelling of a character stands for it. -/
theorem unescape?_spelling (h : Spelling c w) (t : Text) :
    unescape? (w ++ t) = (unescape? t).map (c :: ·) := by
  cases h with
  | @letter d h =>
    simp only [letters, List.mem_cons, Prod.mk.injEq, List.not_mem_nil, or_false] at h
    rcases h with ⟨rfl, rfl⟩ | ⟨rfl, rfl⟩ | ⟨rfl, rfl⟩ | ⟨rfl, rfl⟩ | ⟨rfl, rfl⟩ | ⟨rfl, rfl⟩ |
      ⟨rfl, rfl⟩ <;> rfl
  | unit _ value small =>
    rw [List.cons_append, unescape?.eq_def]
    simp [value, small]
  | plain _ hb =>
    rw [List.singleton_append, unescape?]
    · rintro _ _ _ _ _ h
      exact absurd h hb
    · rintro _ _ h
      exact absurd h hb

/-- A quoted text is one string, which stands for the text. -/
theorem tokens?_quote (t rest : Text) :
    tokens? (t.quote ++ rest) = (tokens? rest).map (.string (t.flatMap quoteChar) :: ·) := by
  have hbody (t s : Text) : State.tokens? (.string s) (t.flatMap quoteChar ++ ('"' :: rest)) =
      (tokens? rest).map (.string (s.reverse ++ t.flatMap quoteChar) :: ·) := by
    induction t generalizing s with
    | nil => simp [State.tokens?, State.step?, tokens?]
    | cons c t ih =>
      rw [List.flatMap_cons, List.append_assoc, tokens?_spelling (Text.spelling_quoteChar c), ih]
      simp
  have hopen : tokens? (t.quote ++ rest) =
      State.tokens? (.string []) (t.flatMap quoteChar ++ ('"' :: rest)) := by
    simp [tokens?, Text.quote, State.tokens?, State.step?, begin?]
  rw [hopen, hbody]
  rfl

theorem unescape?_quoteChar (t : Text) : unescape? (t.flatMap quoteChar) = some t := by
  induction t with
  | nil => rfl
  | cons c t ih =>
    rw [List.flatMap_cons, unescape?_spelling (Text.spelling_quoteChar c), ih]
    rfl

end Json

theorem Text.ofCodeUnits?_codeUnits (c : Char) (us : List Nat) :
    ofCodeUnits? (codeUnits c.toNat ++ us) = (ofCodeUnits? us).map (c :: ·) := by
  have hvalid : c.toNat < 0xD800 ∨ 0xDFFF < c.toNat ∧ c.toNat < 0x110000 := c.valid
  unfold codeUnits
  split
  · rw [List.singleton_append, ofCodeUnits?.eq_def]
    have hunit : c.toNat < 0xD800 ∨ 0xDFFF < c.toNat := hvalid.imp_right And.left
    simp [hunit]
  · rename_i hlarge
    have hpair : 0x10000 + (0xD800 + (c.toNat - 0x10000) / 0x400 - 0xD800) * 0x400 +
        (0xDC00 + (c.toNat - 0x10000) % 0x400 - 0xDC00) = c.toNat := by omega
    rw [List.cons_append, List.singleton_append, ofCodeUnits?.eq_def]
    simp only
    rw [if_neg (by omega), if_pos (by omega), hpair, Char.ofNat_toNat]

theorem Text.ofCodeUnits?_flatMap (t : Text) :
    ofCodeUnits? (t.flatMap fun c => codeUnits c.toNat) = some t := by
  induction t with
  | nil => rfl
  | cons c t ih =>
    rw [List.flatMap_cons, ofCodeUnits?_codeUnits, ih]
    rfl

namespace Script

open Text (Spelling letters quoteChar codeUnits)

variable {c : Char} {w : Text}

theorem isLineEnd_eq_false (hc : 32 ≤ c.toNat) (hl : c.toNat ≠ 0x2028) (hp : c.toNat ≠ 0x2029) :
    isLineEnd c = false := by
  have hn : c ≠ '\n' := by
    rintro rfl
    exact absurd hc (by decide)
  have hr : c ≠ '\r' := by
    rintro rfl
    exact absurd hc (by decide)
  simp [isLineEnd, isLineBreak, hn, hr, hl, hp]

theorem readEscape?_letter {d : Char} (h : (c, d) ∈ letters) (t : Text) :
    readEscape? (d :: t) = some (codeUnits c.toNat, t) := by
  simp only [letters, List.mem_cons, Prod.mk.injEq, List.not_mem_nil, or_false] at h
  rcases h with ⟨rfl, rfl⟩ | ⟨rfl, rfl⟩ | ⟨rfl, rfl⟩ | ⟨rfl, rfl⟩ | ⟨rfl, rfl⟩ | ⟨rfl, rfl⟩ |
    ⟨rfl, rfl⟩ <;> rfl

theorem readEscape?_unit {x y z : Char} {d : Char} (h : [d, x, y, z].all Json.isHexDigit = true)
    (t : Text) :
    readEscape? ('u' :: d :: x :: y :: z :: t) = some ([Json.hexUnit d x y z], t) := by
  have hbrace : d ≠ '\x7b' := by
    rintro rfl
    simp [Json.isHexDigit] at h
  rw [readEscape?]
  · rw [if_pos h]
  · exact hbrace

/-- In a literal, the spelling of a character stands for its code units. -/
theorem readUnits?_spelling (h : Spelling c w) (t : Text) :
    readUnits? (w ++ t) = (readUnits? t).map fun r => (codeUnits c.toNat ++ r.1, r.2) := by
  have hescape {u : Text} (hu : readEscape? u = some (codeUnits c.toNat, t)) :
      readUnits? ('\\' :: u) = (readUnits? t).map fun r => (codeUnits c.toNat ++ r.1, r.2) := by
    rw [readUnits?, if_neg (by decide), if_pos rfl]
    split
    · rename_i hnone
      cases hnone.symm.trans hu
    · rename_i hsome
      cases hsome.symm.trans hu
      rfl
  cases h with
  | letter h => exact hescape (readEscape?_letter h t)
  | unit hex value small =>
    refine hescape ?_
    have hunits : codeUnits c.toNat = [c.toNat] := if_pos (by omega)
    rw [hunits, ← value]
    exact readEscape?_unit hex t
  | plain hq hb hc hl hp =>
    rw [List.singleton_append, readUnits?]
    simp [hq, hb, isLineEnd_eq_false hc hl hp]

/-- A quoted text is a literal, which stands for the text. -/
theorem readLiteral?_quote (t rest : Text) : readLiteral? (t.quote ++ rest) = some (t, rest) := by
  have hbody : readUnits? (t.flatMap quoteChar ++ ('"' :: rest)) =
      some (t.flatMap fun c => codeUnits c.toNat, rest) := by
    induction t with
    | nil => simp [readUnits?]
    | cons c t ih =>
      rw [List.flatMap_cons, List.append_assoc, readUnits?_spelling (Text.spelling_quoteChar c), ih]
      rfl
  have hquote : t.quote ++ rest = '"' :: (t.flatMap quoteChar ++ ('"' :: rest)) := by
    simp [Text.quote]
  rw [hquote, readLiteral?, hbody, Option.bind_some, Text.ofCodeUnits?_flatMap]
  rfl

end Script

namespace Text

/-! ### Escaped quotes -/

theorem escapesNext_append {s : Text} (h : s.escapesNext = false) (t : Text) :
    (s ++ t).escapesNext = t.escapesNext := by
  rw [escapesNext, List.foldl_append, ← escapesNext, h, ← escapesNext]

theorem escapesNext_concat {s : Text} {c : Char} (h : c ≠ '\\') :
    (s ++ [c]).escapesNext = false := by
  simp [escapesNext, h]

/-- The spelling of a character does not reach into the next one. -/
theorem Spelling.escapesNext {c : Char} {w : Text} (h : Spelling c w) :
    w.escapesNext = false := by
  cases h with
  | letter => simp [Text.escapesNext]
  | @unit w x y z hex =>
    have hz : z ≠ '\\' := by
      rintro rfl
      simp [Json.isHexDigit] at hex
    exact escapesNext_concat (s := ['\\', 'u', w, x, y]) hz
  | plain _ hb => exact escapesNext_concat (s := []) hb

/-- A quote in the spelling of a character stands behind one backslash. -/
theorem Spelling.eq_of_quote {c : Char} {w u v : Text} (h : Spelling c w)
    (hw : w = u ++ '"' :: v) : u = ['\\'] ∧ v = [] := by
  have hmem : '"' ∈ w := by simp [hw]
  cases h with
  | letter =>
    match u with
    | [] => simp at hw
    | [_] =>
      obtain ⟨rfl, -, rfl⟩ : _ ∧ _ ∧ v = [] := by simpa using hw
      exact ⟨rfl, rfl⟩
    | _ :: _ :: _ => simp at hw
  | unit hex =>
    have hquote := List.all_eq_true.1 hex '"' (by simpa using hmem)
    simp [Json.isHexDigit] at hquote
  | plain hq => simp [hq.symm] at hmem

/-- Of the quotes behind the first one, all are escaped but the last. -/
theorem escapesNext_of_body {t u v : Text}
    (h : t.flatMap quoteChar ++ ['"'] = u ++ '"' :: v) : u.escapesNext = false ↔ v = [] := by
  induction t generalizing u with
  | nil =>
    match u with
    | [] => simp_all [escapesNext]
    | _ :: _ => simp at h
  | cons c t ih =>
    have hc := spelling_quoteChar c
    rw [List.flatMap_cons, List.append_assoc, List.append_eq_append_iff] at h
    rcases h with ⟨u, rfl, hu⟩ | ⟨a, hw, ha⟩
    · rw [escapesNext_append hc.escapesNext]
      exact ih hu
    · match a with
      | [] =>
        rw [List.append_nil] at hw
        rw [← hw, hc.escapesNext]
        exact ih (u := []) ha.symm
      | q :: a =>
        obtain ⟨rfl, rfl⟩ := List.cons.inj ha
        obtain ⟨rfl, rfl⟩ := hc.eq_of_quote hw
        simp [escapesNext]

theorem escapesNext_of_quote {t u v : Text} (h : t.quote = u ++ '"' :: v) :
    u.escapesNext = false ↔ u = [] ∨ v = [] := by
  match u with
  | [] => simp [escapesNext]
  | q :: u =>
    obtain ⟨rfl, hu⟩ := List.cons.inj h
    rw [← List.singleton_append, escapesNext_append rfl, escapesNext_of_body hu]
    simp

/-! ### Characters that are not written as they are -/

theorem toNat_of_isHexDigit {c : Char} (h : Json.isHexDigit c = true) :
    48 ≤ c.toNat ∧ c.toNat ≤ 102 := by
  simp only [Json.isHexDigit, Char.isDigit, Bool.or_eq_true, Bool.and_eq_true, decide_eq_true_eq,
    Char.le_def, UInt32.le_iff_toNat_le] at h
  have hc : c.val.toNat = c.toNat := rfl
  simp at h
  omega

/-- The spelling of a character can stand on a line of a script. -/
theorem Spelling.visible {c x : Char} {w : Text} (h : Spelling c w) (hx : x ∈ w) :
    32 ≤ x.toNat ∧ x.toNat ≠ 0x2028 ∧ x.toNat ≠ 0x2029 := by
  have hascii (h : 32 ≤ x.toNat ∧ x.toNat < 128) :
      32 ≤ x.toNat ∧ x.toNat ≠ 0x2028 ∧ x.toNat ≠ 0x2029 := by omega
  cases h with
  | letter h =>
    have hall : letters.all (fun p => 32 ≤ p.2.toNat && p.2.toNat < 128) = true := rfl
    rcases List.mem_cons.1 hx with rfl | hx
    · exact hascii (by decide)
    · obtain rfl := List.mem_singleton.1 hx
      exact hascii (by simpa using List.all_eq_true.1 hall _ h)
  | @unit w x y z hex =>
    rcases List.mem_cons.1 hx with rfl | hx
    · exact hascii (by decide)
    rcases List.mem_cons.1 hx with rfl | hx
    · exact hascii (by decide)
    have hdigit := toNat_of_isHexDigit (List.all_eq_true.1 hex _ hx)
    exact hascii (by omega)
  | plain _ _ hc hl hp =>
    obtain rfl := List.mem_singleton.1 hx
    exact ⟨hc, hl, hp⟩

theorem visible_of_mem_quote {t : Text} {c : Char} (h : c ∈ t.quote) :
    32 ≤ c.toNat ∧ c.toNat ≠ 0x2028 ∧ c.toNat ≠ 0x2029 := by
  rw [quote, List.mem_cons, List.mem_append, List.mem_singleton, List.mem_flatMap] at h
  rcases h with rfl | ⟨d, -, hd⟩ | rfl
  · decide
  · exact (spelling_quoteChar d).visible hd
  · decide

/-! ### JSON quoting and the two replacements -/

theorem replaceChar_append (c : Char) (w s t : Text) :
    replaceChar c w (s ++ t) = replaceChar c w s ++ replaceChar c w t :=
  List.flatMap_append

theorem replaceChar_of_not_mem {c : Char} {t : Text} (h : c ∉ t) (w : Text) :
    replaceChar c w t = t := by
  induction t with
  | nil => rfl
  | cons x t ih =>
    rw [List.mem_cons, not_or] at h
    rw [← List.singleton_append, replaceChar_append, ih h.2]
    simp [replaceChar, Ne.symm h.1]

theorem replaceSeparators_append (s t : Text) :
    replaceSeparators (s ++ t) = replaceSeparators s ++ replaceSeparators t := by
  rw [replaceSeparators, replaceChar_append, replaceChar_append]
  rfl

/-- But for the separators, a character is written as JSON writes it. -/
theorem quoteChar_eq_written {c : Char} (hl : c.toNat ≠ 0x2028) (hp : c.toNat ≠ 0x2029) :
    quoteChar c = Json.written c := by
  have hletter {d e : Char} (hc : c = d) (hd : letters.lookup d = some e) :
      ['\\', e] = Json.written c := by
    rw [Json.written, hc, hd]
  unfold quoteChar
  rw [if_neg hl, if_neg hp]
  split_ifs with h1 h2 h3 h4 h5 h6 h7 h8
  · exact hletter h1 rfl
  · exact hletter h2 rfl
  · exact hletter h3 rfl
  · exact hletter h4 rfl
  · exact hletter h5 rfl
  · exact hletter (eq_of_toNat_eq (d := '\x08') h6) rfl
  · exact hletter (eq_of_toNat_eq (d := '\x0c') h7) rfl
  all_goals
    have hb : c ≠ '\x08' := fun h => h6 (h ▸ rfl)
    have hf : c ≠ '\x0c' := fun h => h7 (h ▸ rfl)
    have hnone : letters.lookup c = none := by simp [letters, List.lookup_eq_none_iff, *]
    simp [Json.written, hnone, h8]

theorem quoteChar_eq_replaceSeparators (c : Char) :
    quoteChar c = replaceSeparators (Json.written c) := by
  by_cases hl : c.toNat = 0x2028
  · rw [eq_of_toNat_eq (d := '\u2028') hl]
    rfl
  by_cases hp : c.toNat = 0x2029
  · rw [eq_of_toNat_eq (d := '\u2029') hp]
    rfl
  have hvisible {x : Char} (hx : x ∈ quoteChar c) := (spelling_quoteChar c).visible hx
  rw [← quoteChar_eq_written hl hp, replaceSeparators,
    replaceChar_of_not_mem (fun h => (hvisible h).2.1 rfl),
    replaceChar_of_not_mem (fun h => (hvisible h).2.2 rfl)]

/-- A text is quoted as JSON quotes it, and the separators are replaced behind that. -/
theorem quote_eq_replaceSeparators (t : Text) : t.quote = replaceSeparators (Json.quote t) := by
  have hbody : t.flatMap quoteChar = replaceSeparators (t.flatMap Json.written) := by
    induction t with
    | nil => rfl
    | cons c t ih =>
      rw [List.flatMap_cons, List.flatMap_cons, replaceSeparators_append, ← ih,
        quoteChar_eq_replaceSeparators]
  calc t.quote
    _ = ['"'] ++ (t.flatMap quoteChar ++ ['"']) := rfl
    _ = replaceSeparators (['"'] ++ (t.flatMap Json.written ++ ['"'])) := by
      rw [replaceSeparators_append, replaceSeparators_append, ← hbody]
      rfl

/-- Quoting is faithful and safe. It is JSON quoting with the separators replaced behind it. A
JSON reader and a script reader both take the quotes and what is between them for one string,
and get the text back from it; so no two texts are quoted alike. Only the first and the last
character are quotes that are not escaped, and no character could end the line or is a control
character. -/
theorem quote_faithful_and_safe (t : Text) :
    t.quote = replaceSeparators (Json.quote t) ∧
    (∃ w, Json.unescape? w = some t ∧
      ∀ rest, Json.tokens? (t.quote ++ rest) = (Json.tokens? rest).map (.string w :: ·)) ∧
    (∀ rest, Script.readLiteral? (t.quote ++ rest) = some (t, rest)) ∧
    (∀ s : Text, s.quote = t.quote → s = t) ∧
    (∀ u v, t.quote = u ++ '"' :: v → (u.escapesNext = false ↔ u = [] ∨ v = [])) ∧
    ∀ c ∈ t.quote, 32 ≤ c.toNat ∧ c.toNat ≠ 0x2028 ∧ c.toNat ≠ 0x2029 := by
  refine ⟨quote_eq_replaceSeparators t, ⟨_, Json.unescape?_quoteChar t, Json.tokens?_quote t⟩,
    Script.readLiteral?_quote t, ?_, fun u v => escapesNext_of_quote,
    fun c => visible_of_mem_quote⟩
  intro s hs
  have hread := Script.readLiteral?_quote s []
  rw [hs, Script.readLiteral?_quote t []] at hread
  cases hread
  rfl

end Text

end Haml
