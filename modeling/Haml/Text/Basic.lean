/-!
# Text

Template source, markup and generated script are all handled as lists of
characters, so that every function on them is a structural recursion. Offsets
into a text count the bytes of its UTF-8 form; columns count characters.
-/

namespace Haml

/-- A text, as the list of its characters. -/
abbrev Text := List Char

/-- A string literal may stand where a text is expected. -/
scoped instance : Coe String Text := ⟨String.toList⟩

namespace Text

def byteSize : Text → Nat
  | [] => 0
  | c :: t => c.utf8Size + byteSize t

@[simp] theorem byteSize_nil : byteSize [] = 0 := rfl

@[simp] theorem byteSize_cons (c : Char) (t : Text) :
    byteSize (c :: t) = c.utf8Size + byteSize t := rfl

@[simp] theorem byteSize_append (s t : Text) :
    byteSize (s ++ t) = byteSize s + byteSize t := by
  induction s with
  | nil => simp
  | cons c s ih => simp [ih, Nat.add_assoc]

def dropBytes : Nat → Text → Text
  | _, [] => []
  | n, c :: t => if n = 0 then c :: t else dropBytes (n - c.utf8Size) t

def takeBytes : Nat → Text → Text
  | _, [] => []
  | n, c :: t => if n = 0 then [] else c :: takeBytes (n - c.utf8Size) t

/-- The part of a text between two byte offsets; offsets past the end stand for the end. -/
def slice (start stop : Nat) (t : Text) : Text :=
  let first := min start t.byteSize
  takeBytes (min stop t.byteSize - first) (dropBytes first t)

def ofNat (n : Nat) : Text := Nat.toDigits 10 n

/-- The indentation of a line at a given depth: two spaces a level. -/
def indentation (depth : Nat) : Text := List.replicate (2 * depth) ' '

def join (sep : Text) (ts : List Text) : Text := (ts.intersperse sep).flatten

theorem mem_join {c : Char} {sep : Text} {ts : List Text} (h : c ∈ join sep ts) :
    c ∈ sep ∨ ∃ t ∈ ts, c ∈ t := by
  obtain ⟨t, ht, hc⟩ := List.mem_flatten.1 h
  induction ts with
  | nil => cases ht
  | cons u us ih =>
    cases us with
    | nil => exact .inr ⟨t, ht, hc⟩
    | cons v vs =>
      rw [List.intersperse_cons_cons, List.mem_cons, List.mem_cons] at ht
      rcases ht with rfl | rfl | ht
      · exact .inr ⟨t, List.mem_cons_self, hc⟩
      · exact .inl hc
      · refine (ih (List.mem_flatten.2 ⟨t, ht, hc⟩) ht).imp_right fun hmore => ?_
        obtain ⟨w, hw, hcw⟩ := hmore
        exact ⟨w, List.mem_cons_of_mem u hw, hcw⟩

def after? (lead t : Text) : Option Text :=
  if lead.isPrefixOf t then some (t.drop lead.length) else none

theorem after?_append (lead t : Text) : after? lead (lead ++ t) = some t := by
  simp [after?]

/-- Whether `a` comes before `b` in the order of code points, which is also the
order of the bytes of their UTF-8 forms. -/
def precedes : Text → Text → Bool
  | _, [] => false
  | [], _ :: _ => true
  | a :: s, b :: t => a < b || (a == b && precedes s t)

end Text

end Haml
