import Haml.Proofs.AttributeObjects
import Haml.Proofs.QuotedText
import Haml.Script.Writer

/-!
# The call for dynamic attributes

Attributes that are known only when the template is rendered are handed to a helper. The call
stands on a line of its own, and a reader of its arguments gets everything back that went into
it, whatever characters the texts have: no sign in a value is taken for a sign of the call.
-/

namespace Haml.Script

inductive Argument where
  | name (n : Text)
  | number (n : Nat)
  | text (t : Text)
  | list (ts : List Text)
  | object (members : List (Text × Text))
  deriving DecidableEq, Repr

section Reading

variable {α : Type} (read : Text → Option (α × Text)) (close : Char)

/-- One item and those behind it, up to a closing sign, and the text behind that. Between items
stand commas, with or without spaces. -/
def readMore? (t : Text) : Option (List α × Text) :=
  match read t with
  | none => none
  | some r =>
    if r.2.head? = some close then some ([r.1], r.2.tail)
    else if r.2.head? = some ',' then
      let next := r.2.tail.dropWhile (· == ' ')
      if next.length < t.length then
        (readMore? next).map fun more => (r.1 :: more.1, more.2)
      else none
    else none
termination_by t.length

def readItems? (t : Text) : Option (List α × Text) :=
  if t.head? = some close then some ([], t.tail) else readMore? read close t

end Reading

/-- A member of an object: two literals with a colon between them. -/
def readMember? (t : Text) : Option ((Text × Text) × Text) :=
  (readLiteral? t).bind fun key =>
    if key.2.head? = some ':' then
      (readLiteral? key.2.tail).map fun value => ((key.1, value.1), value.2)
    else none

def isWordSign (c : Char) : Bool := c.isAlphanum || c == '_' || c == '$'

/-- A word as an argument: a number in decimal, without zeros in front, or a name. -/
def Argument.ofWord? (w : Text) : Option Argument :=
  match w with
  | [] => none
  | c :: u =>
    if c.isDigit then
      if u.all Char.isDigit && (c != '0' || u.isEmpty) then some (.number (Nat.ofDigitChars 10 w 0))
      else none
    else some (.name w)

def readArgument? (t : Text) : Option (Argument × Text) :=
  match t with
  | '"' :: _ => (readLiteral? t).map fun r => (.text r.1, r.2)
  | '[' :: u => (readItems? readLiteral? ']' u).map fun r => (.list r.1, r.2)
  | '\x7b' :: u => (readItems? readMember? '\x7d' u).map fun r => (.object r.1, r.2)
  | _ => (Argument.ofWord? (t.takeWhile isWordSign)).map (·, t.dropWhile isWordSign)

/-- The start of a line that calls a helper and collects what it gives. -/
def callStart (helper : Text) : Text := "    html.push(" ++ helper ++ "("

def callEnd : Text := ");"

/-- The arguments of a line that calls a helper and collects what it gives, and does nothing
else. -/
def readCall? (helper line : Text) : Option (List Argument) :=
  ((Text.after? (callStart helper) line).bind (readItems? readArgument? ')')).bind fun r =>
    if r.2 = callEnd then some r.1 else none

/-! ### Items that were written -/

/-- An item is read back in front of a comma or the closing sign, and cannot be taken for the
closing sign or for space. -/
structure Recovers {α : Type} (read : Text → Option (α × Text)) (close : Char) (write : α → Text)
    (x : α) : Prop where
  head : ∃ c u, write x = c :: u ∧ c ≠ close ∧ c ≠ ' '
  back : ∀ c u, c = ',' ∨ c = close → read (write x ++ c :: u) = some (x, c :: u)

section Items

variable {α : Type} {read : Text → Option (α × Text)} {close : Char} {write : α → Text}

theorem Recovers.readMore?_last {x : α} (h : Recovers read close write x) (rest : Text) :
    readMore? read close (write x ++ close :: rest) = some ([x], rest) := by
  rw [readMore?, h.back close rest (.inr rfl)]
  simp

theorem Recovers.readMore?_comma {x : α} (h : Recovers read close write x) (hclose : close ≠ ',')
    {next : Text} (hnext : next.head? ≠ some ' ') (spaces : Nat) :
    readMore? read close (write x ++ ',' :: (List.replicate spaces ' ' ++ next)) =
      (readMore? read close next).map fun more => (x :: more.1, more.2) := by
  have hdrop : (List.replicate spaces ' ' ++ next).dropWhile (· == ' ') = next := by
    rw [List.dropWhile_append_of_pos (by simp)]
    match next with
    | [] => rfl
    | c :: u => exact List.dropWhile_cons_of_neg (by simpa using hnext)
  have hshorter :
      next.length < (write x ++ ',' :: (List.replicate spaces ' ' ++ next)).length := by
    simp only [List.length_append, List.length_cons]
    omega
  rw [readMore?, h.back ',' _ (.inl rfl)]
  simp only [List.head?_cons, List.tail_cons, hdrop, if_pos hshorter, Option.some.injEq,
    if_neg hclose.symm, if_true]

theorem join_cons_eq_append (sep : Text) (x : α) (xs : List α) :
    ∃ u, Text.join sep ((x :: xs).map write) = write x ++ u := by
  cases xs <;> simp [Text.join]

/-- What starts with an item starts neither with the closing sign nor with a space. -/
theorem Recovers.head?_join_ne {x : α} (h : Recovers read close write x) {d : Char}
    (hd : d = close ∨ d = ' ') (sep : Text) (xs : List α) (t : Text) :
    (Text.join sep ((x :: xs).map write) ++ t).head? ≠ some d := by
  obtain ⟨u, hu⟩ : ∃ u, Text.join sep ((x :: xs).map write) = write x ++ u :=
    join_cons_eq_append sep x xs
  obtain ⟨c, v, hw, hc, hs⟩ := h.head
  rw [hu, hw, List.cons_append, List.cons_append, List.head?_cons, ne_eq, Option.some.injEq]
  rcases hd with rfl | rfl
  · exact hc
  · exact hs

theorem readMore?_join {x : α} {xs : List α} (h : ∀ y ∈ x :: xs, Recovers read close write y)
    (hclose : close ≠ ',') (spaces : Nat) (rest : Text) :
    readMore? read close
        (Text.join (',' :: List.replicate spaces ' ') ((x :: xs).map write) ++ close :: rest) =
      some (x :: xs, rest) := by
  induction xs generalizing x with
  | nil => simpa [Text.join] using (h x (List.mem_cons_self ..)).readMore?_last rest
  | cons y ys ih =>
    have hys : ∀ z ∈ y :: ys, Recovers read close write z := fun z hz =>
      h z (List.mem_cons_of_mem x hz)
    have hstart := (hys y (List.mem_cons_self ..)).head?_join_ne (.inr rfl)
      (',' :: List.replicate spaces ' ') ys (close :: rest)
    have hcut : Text.join (',' :: List.replicate spaces ' ') ((x :: y :: ys).map write) ++
        close :: rest = write x ++ ',' :: (List.replicate spaces ' ' ++
          (Text.join (',' :: List.replicate spaces ' ') ((y :: ys).map write) ++
            close :: rest)) := by
      simp [Text.join]
    rw [hcut, (h x (List.mem_cons_self ..)).readMore?_comma hclose hstart, ih hys]
    rfl

/-- Items that were written with commas between them are read back. -/
theorem readItems?_join {xs : List α} (h : ∀ x ∈ xs, Recovers read close write x)
    (hclose : close ≠ ',') (spaces : Nat) (rest : Text) :
    readItems? read close
        (Text.join (',' :: List.replicate spaces ' ') (xs.map write) ++ close :: rest) =
      some (xs, rest) := by
  match xs with
  | [] => simp [readItems?, Text.join]
  | x :: xs =>
    have hstart := (h x (List.mem_cons_self ..)).head?_join_ne (.inl rfl)
      (',' :: List.replicate spaces ' ') xs (close :: rest)
    rw [readItems?, if_neg hstart, readMore?_join h hclose]

end Items

/-! ### Arguments that were written -/

def writeMember (p : Text × Text) : Text := p.1.quote ++ ":" ++ p.2.quote

def Argument.write : Argument → Text
  | .name n => n
  | .number n => Text.ofNat n
  | .text t => t.quote
  | .list ts => "[" ++ Text.join "," (ts.map Text.quote) ++ "]"
  | .object members => "\x7b" ++ Text.join "," (members.map writeMember) ++ "\x7d"

theorem recovers_literal {close : Char} (h : close ≠ '"') (t : Text) :
    Recovers readLiteral? close Text.quote t where
  head := ⟨'"', t.flatMap Text.quoteChar ++ ['"'], rfl, h.symm, by decide⟩
  back c u _ := readLiteral?_quote t (c :: u)

theorem recovers_member (p : Text × Text) : Recovers readMember? '\x7d' writeMember p where
  head := ⟨'"', _, rfl, by decide, by decide⟩
  back c u _ := by
    have hcut : writeMember p ++ c :: u = p.1.quote ++ (':' :: (p.2.quote ++ c :: u)) := by
      simp [writeMember]
    rw [hcut, readMember?, readLiteral?_quote]
    simp [readLiteral?_quote]

theorem readArgument?_word {w : Text} {a : Argument} (hw : Argument.ofWord? w = some a)
    (hall : ∀ c ∈ w, isWordSign c = true) {c : Char} (hc : isWordSign c = false) (u : Text) :
    readArgument? (w ++ c :: u) = some (a, c :: u) := by
  have htake : (w ++ c :: u).takeWhile isWordSign = w := by
    rw [List.takeWhile_append_of_pos hall, List.takeWhile_cons_of_neg (by simp [hc]),
      List.append_nil]
  have hdrop : (w ++ c :: u).dropWhile isWordSign = c :: u := by
    rw [List.dropWhile_append_of_pos hall, List.dropWhile_cons_of_neg (by simp [hc])]
  match w with
  | [] => cases hw
  | d :: v =>
    have hd := hall d (List.mem_cons_self ..)
    unfold readArgument?
    split
    · rename_i he
      obtain rfl : d = '"' := (List.cons.inj he).1
      exact absurd hd (by decide)
    · rename_i he
      obtain rfl : d = '[' := (List.cons.inj he).1
      exact absurd hd (by decide)
    · rename_i he
      obtain rfl : d = '\x7b' := (List.cons.inj he).1
      exact absurd hd (by decide)
    · rw [htake, hdrop, hw]
      rfl

/-- A word that is written as such is read back. -/
theorem recovers_word {a : Argument} (hw : Argument.ofWord? a.write = some a)
    (hall : ∀ c ∈ a.write, isWordSign c = true) :
    Recovers readArgument? ')' Argument.write a where
  head := by
    match h : a.write with
    | [] => rw [h] at hw; cases hw
    | c :: u =>
      have hc := hall c (by rw [h]; exact List.mem_cons_self ..)
      refine ⟨c, u, rfl, ?_, ?_⟩ <;>
      · rintro rfl
        exact absurd hc (by decide)
  back c u hc := by
    refine readArgument?_word hw hall ?_ u
    rcases hc with rfl | rfl <;> decide

/-- A decimal number other than zero does not start with a zero. -/
theorem head?_ofNat_ne {n : Nat} (h : 0 < n) : (Text.ofNat n).head? ≠ some '0' := by
  induction n using Nat.strongRecOn with
  | ind n ih =>
    rw [Text.ofNat, Nat.toDigits_eq_if (by decide)]
    split
    · rename_i hn
      have hdigit : ∀ d < 10, 0 < d → [d.digitChar].head? ≠ some '0' := by decide
      exact hdigit n hn h
    · have hhead := ih (n / 10) (by omega) (by omega)
      match hd : Text.ofNat (n / 10) with
      | [] => exact absurd hd Nat.toDigits_ne_nil
      | c :: u =>
        rw [hd] at hhead
        rw [← Text.ofNat, hd]
        exact hhead

theorem isDigit_of_mem_ofNat {n : Nat} {c : Char} (h : c ∈ Text.ofNat n) : c.isDigit = true :=
  Nat.isDigit_of_mem_toDigits (by decide) (by decide) h

theorem isWordSign_of_mem_ofNat {n : Nat} {c : Char} (h : c ∈ Text.ofNat n) :
    isWordSign c = true := by
  simp [isWordSign, Char.isAlphanum, isDigit_of_mem_ofNat h]

theorem ofWord?_ofNat (n : Nat) : Argument.ofWord? (Text.ofNat n) = some (.number n) := by
  have hvalue : Nat.ofDigitChars 10 (Text.ofNat n) 0 = n :=
    Nat.ofDigitChars_toDigits (by decide) (by decide)
  match h : Text.ofNat n with
  | [] => exact absurd h Nat.toDigits_ne_nil
  | c :: u =>
    have hdigit {d : Char} (hd : d ∈ c :: u) : d.isDigit = true :=
      isDigit_of_mem_ofNat (n := n) (h ▸ hd)
    have hzero : (c != '0' || u.isEmpty) = true := by
      rcases Nat.eq_zero_or_pos n with rfl | hn
      · obtain ⟨-, rfl⟩ := List.cons.inj (h.symm.trans (show Text.ofNat 0 = ['0'] from rfl))
        exact Bool.or_true _
      · have hc : c ≠ '0' := by
          simpa [h] using head?_ofNat_ne hn
        simp [hc]
    have hall : u.all Char.isDigit = true :=
      List.all_eq_true.2 fun d hd => hdigit (List.mem_cons_of_mem c hd)
    rw [Argument.ofWord?, if_pos (hdigit (List.mem_cons_self ..)), hall, hzero, ← h, hvalue]
    rfl

/-- Whether the names among arguments are names: word signs of which the first is no digit. -/
def Argument.isProper : Argument → Bool
  | .name n => n.all isWordSign && n.head?.any (!·.isDigit)
  | _ => true

/-- Every argument is read back, whatever is in its texts. -/
theorem recovers_argument {a : Argument} (h : a.isProper = true) :
    Recovers readArgument? ')' Argument.write a := by
  cases a with
  | name n =>
    simp only [Argument.isProper, Bool.and_eq_true, List.all_eq_true] at h
    refine recovers_word ?_ h.1
    match n with
    | [] => cases h.2
    | c :: u =>
      have hc : ¬ c.isDigit = true := by simpa using h.2
      exact if_neg hc
  | number n => exact recovers_word (ofWord?_ofNat n) fun c hc => isWordSign_of_mem_ofNat hc
  | text t =>
    have hback (c : Char) (u : Text) :
        readArgument? (t.quote ++ c :: u) = some (.text t, c :: u) := by
      have hread : readArgument? (t.quote ++ c :: u) =
          (readLiteral? (t.quote ++ c :: u)).map fun r => (.text r.1, r.2) := rfl
      rw [hread, readLiteral?_quote]
      rfl
    exact ⟨⟨'"', _, rfl, by decide, by decide⟩, fun c u _ => hback c u⟩
  | list ts =>
    refine ⟨⟨'[', _, rfl, by decide, by decide⟩, fun c u _ => ?_⟩
    have hts : ∀ t ∈ ts, Recovers readLiteral? ']' Text.quote t :=
      fun t _ => recovers_literal (by decide) t
    have hitems := readItems?_join hts (by decide) 0 (c :: u)
    have hcut : (Argument.list ts).write ++ c :: u =
        '[' :: (Text.join [','] (ts.map Text.quote) ++ ']' :: c :: u) := by
      simp [Argument.write]
    rw [hcut]
    exact congrArg (Option.map _) hitems
  | object members =>
    refine ⟨⟨'\x7b', _, rfl, by decide, by decide⟩, fun c u _ => ?_⟩
    have hmembers : ∀ p ∈ members, Recovers readMember? '\x7d' writeMember p :=
      fun p _ => recovers_member p
    have hitems := readItems?_join hmembers (by decide) 0 (c :: u)
    have hcut : (Argument.object members).write ++ c :: u =
        '\x7b' :: (Text.join [','] (members.map writeMember) ++ '\x7d' :: c :: u) := by
      simp [Argument.write]
    rw [hcut]
    exact congrArg (Option.map _) hitems

/-! ### The line of the call -/

def attributeHelper : Text := "haml.HamlRuntime.generateElementAttributes"

def attributeArguments (a : Attributes) (p : Point) : List Argument :=
  [.name "context", .text (Text.join "-" a.ids), .list a.classes, .name "objRefFn",
    .object (sortedPairs a.pairs), .name "hashFunction", .number p.line, .number p.column,
    .text p.text, .name "handleError"]

def attributeCall (a : Attributes) (p : Point) : Text :=
  callStart attributeHelper ++
    (Text.join ", " ((attributeArguments a p).map Argument.write) ++ ')' :: callEnd)

/-- Arguments that are put together piece by piece are arguments with commas between them. What
stands between the pieces is given by variables: unifying long literals takes very long. -/
theorem join_arguments {start comma context opening closing reference hash handler ending
    lead list middle late last : Text} (hlead : lead = start ++ (context ++ comma))
    (hlist : list = comma ++ opening)
    (hmiddle : middle = closing ++ (comma ++ (reference ++ comma)))
    (hlate : late = comma ++ (hash ++ comma)) (hlast : last = comma ++ (handler ++ ending))
    (ids classes object line column text : Text) :
    lead ++ ids ++ list ++ classes ++ middle ++ object ++ late ++
        (line ++ comma ++ column ++ comma ++ text) ++ last =
      start ++ (Text.join comma [context, ids, opening ++ classes ++ closing, reference, object,
        hash, line, column, text, handler] ++ ending) := by
  subst hlead hlist hmiddle hlate hlast
  simp [Text.join]

theorem pushAttributes_eq (a : Attributes) (p : Point) :
    pushAttributes a p = attributeCall a p ++ ['\n'] := by
  have hlead : "    html.push(haml.HamlRuntime.generateElementAttributes(context, ".toList =
      callStart attributeHelper ++ ("context".toList ++ ", ".toList) := by decide +kernel
  have hlist : ", [".toList = ", ".toList ++ "[".toList := by decide +kernel
  have hmiddle : "], objRefFn, ".toList =
      "]".toList ++ (", ".toList ++ ("objRefFn".toList ++ ", ".toList)) := by decide +kernel
  have hlate : ", hashFunction, ".toList =
      ", ".toList ++ ("hashFunction".toList ++ ", ".toList) := by decide +kernel
  have hlast : ", handleError));\n".toList =
      ", ".toList ++ ("handleError".toList ++ (')' :: callEnd ++ ['\n'])) := by decide +kernel
  have hjoin := join_arguments hlead hlist hmiddle hlate hlast (Text.join "-" a.ids).quote
    (Text.join "," (a.classes.map Text.quote)) (attributeObject a.pairs) (Text.ofNat p.line)
    (Text.ofNat p.column) p.text.quote
  exact hjoin.trans ((congrArg _ (List.append_assoc _ _ _).symm).trans
    (List.append_assoc _ _ _).symm)

theorem isProper_of_mem_attributeArguments {a : Attributes} {p : Point} {x : Argument}
    (h : x ∈ attributeArguments a p) : x.isProper = true :=
  List.all_eq_true.1 (show (attributeArguments a p).all Argument.isProper = true from rfl) x h

theorem readCall?_attributeCall (a : Attributes) (p : Point) :
    readCall? attributeHelper (attributeCall a p) = some (attributeArguments a p) := by
  have hitems := readItems?_join
    (fun x hx => recovers_argument (isProper_of_mem_attributeArguments (a := a) (p := p) hx))
    (show ')' ≠ ',' by decide) 1 callEnd
  have hafter (lead t : Text) : Text.after? lead (lead ++ t) = some t := by
    simp [Text.after?]
  rw [readCall?, attributeCall, hafter, Option.bind_some]
  refine (congrArg (Option.bind · _) hitems).trans ?_
  rw [Option.bind_some, if_pos rfl]

/-! ### No line end in the call -/

def FitsLine (t : Text) : Prop := t.all (!isLineEnd ·) = true

theorem FitsLine.append {s t : Text} (hs : FitsLine s) (ht : FitsLine t) : FitsLine (s ++ t) := by
  rw [FitsLine, List.all_append, hs, ht]
  rfl

theorem FitsLine.join {sep : Text} {ts : List Text} (hsep : FitsLine sep)
    (h : ∀ t ∈ ts, FitsLine t) : FitsLine (Text.join sep ts) := by
  refine List.all_eq_true.2 fun c hc => ?_
  rcases Text.mem_join hc with hs | ⟨t, ht, hct⟩
  · exact List.all_eq_true.1 hsep c hs
  · exact List.all_eq_true.1 (h t ht) c hct

theorem fitsLine_quote (t : Text) : FitsLine t.quote := by
  refine List.all_eq_true.2 fun c hc => ?_
  obtain ⟨hvisible, hline, hparagraph⟩ := Text.visible_of_mem_quote hc
  rw [isLineEnd_eq_false hvisible hline hparagraph]
  rfl

theorem isLineEnd_of_isWordSign {c : Char} (h : isWordSign c = true) : isLineEnd c = false := by
  by_contra hc
  simp only [Bool.not_eq_false, isLineEnd, isLineBreak, Bool.or_eq_true, beq_iff_eq] at hc
  rcases hc with ((rfl | rfl) | hc) | hc
  · exact absurd h (by decide)
  · exact absurd h (by decide)
  · rw [Text.eq_of_toNat_eq (d := '\u2028') hc] at h
    exact absurd h (by decide)
  · rw [Text.eq_of_toNat_eq (d := '\u2029') hc] at h
    exact absurd h (by decide)

theorem fitsLine_word {w : Text} (h : ∀ c ∈ w, isWordSign c = true) : FitsLine w :=
  List.all_eq_true.2 fun c hc => by rw [isLineEnd_of_isWordSign (h c hc)]; rfl

theorem fitsLine_argument {a : Argument} (h : a.isProper = true) : FitsLine a.write := by
  have hcomma : FitsLine [','] := rfl
  cases a with
  | name n =>
    simp only [Argument.isProper, Bool.and_eq_true, List.all_eq_true] at h
    exact fitsLine_word h.1
  | number n => exact fitsLine_word fun c hc => isWordSign_of_mem_ofNat hc
  | text t => exact fitsLine_quote t
  | list ts =>
    have hts : ∀ u ∈ ts.map Text.quote, FitsLine u := by
      simpa using fun t _ => fitsLine_quote t
    exact (FitsLine.append (s := ['[']) rfl (hcomma.join hts)).append (t := [']']) rfl
  | object members =>
    have hmembers : ∀ u ∈ members.map writeMember, FitsLine u := by
      intro u hu
      obtain ⟨p, -, rfl⟩ := List.mem_map.1 hu
      exact ((fitsLine_quote p.1).append (t := [':']) rfl).append (fitsLine_quote p.2)
    exact (FitsLine.append (s := ['\x7b']) rfl (hcomma.join hmembers)).append (t := ['\x7d']) rfl

theorem fitsLine_attributeCall (a : Attributes) (p : Point) : FitsLine (attributeCall a p) := by
  have hstart : FitsLine (callStart attributeHelper) := by
    unfold FitsLine
    decide +kernel
  have harguments : FitsLine (Text.join ", " ((attributeArguments a p).map Argument.write)) := by
    have hsep : FitsLine ", " := rfl
    refine hsep.join fun t ht => ?_
    obtain ⟨x, hx, rfl⟩ := List.mem_map.1 ht
    exact fitsLine_argument (isProper_of_mem_attributeArguments hx)
  exact hstart.append (harguments.append (t := ')' :: callEnd) rfl)

/-! ### The code for dynamic attributes -/

/-- What stands in front of the call ends a line. -/
theorem getLast?_setReferenceFunction (front : Text) (r : Option Text) :
    (front ++ setReferenceFunction r).getLast? = some '\n' := by
  have hbehind {s t : Text} (h : t.getLast? = some '\n') : (s ++ t).getLast? = some '\n' := by
    rw [List.getLast?_append, h, Option.some_or]
  cases r with
  | none => exact hbehind (by decide +kernel)
  | some r => exact hbehind (hbehind (by decide +kernel))

/-- The call for dynamic attributes carries its inputs. What is pending is written in front of
it. It is the last line of the code, complete and without a line end in it, and its arguments
are read back as they went in: the ids joined with hyphens, the classes in order, the pairs of
the attribute list as an object with its names in the order of their bytes, each with its last
value, and the point. -/
theorem attribute_call_carries_inputs (w : Writer) (a : Attributes) (p : Point) :
    ∃ (front line : Text) (object : List (Text × Text)),
      dynamicAttributes a p = front ++ line ++ ['\n'] ∧
      (w.apply (.attributes a p)).buffer.pending = [] ∧
      (w.apply (.attributes a p)).buffer.output =
        w.buffer.output ++ (if w.buffer.pending = [] then [] else w.buffer.render w.buffer.pending) ++
          (front ++ line ++ ['\n']) ∧
      front.getLast? = some '\n' ∧ (∀ c ∈ line, isLineEnd c = false) ∧
      readCall? "haml.HamlRuntime.generateElementAttributes" line =
        some [.name "context", .text (Text.join "-" a.ids), .list a.classes, .name "objRefFn",
          .object object, .name "hashFunction", .number p.line, .number p.column, .text p.text,
          .name "handleError"] ∧
      object.Pairwise (fun x y => x.1.utf8 < y.1.utf8) ∧
      ∀ n, object.lookup n = a.pairs.reverse.lookup n := by
  have hcode : dynamicAttributes a p =
      setHashFunction a.hash ++ setReferenceFunction a.reference ++ attributeCall a p ++ ['\n'] := by
    rw [dynamicAttributes, pushAttributes_eq, ← List.append_assoc]
  have hne : (dynamicAttributes a p).isEmpty = false := by
    rw [hcode]
    simp
  refine ⟨setHashFunction a.hash ++ setReferenceFunction a.reference, attributeCall a p,
    sortedPairs a.pairs, hcode, ?_, ?_, getLast?_setReferenceFunction _ _, ?_,
    readCall?_attributeCall a p, ascending_sortedPairs a.pairs,
    fun n => lookup_sortedPairs n a.pairs⟩
  · exact (Buffer.pending_write w.buffer _).trans (if_neg (by simp [hne]))
  · have houtput : (w.apply (.attributes a p)).buffer.output =
        w.buffer.flush.output ++ dynamicAttributes a p :=
      (Buffer.output_write w.buffer _).trans (if_neg (by simp [hne]))
    rw [houtput, hcode, Buffer.output_flush]
    by_cases h : w.buffer.pending = [] <;> simp [h]
  · intro c hc
    simpa using List.all_eq_true.1 (fitsLine_attributeCall a p) c hc

end Haml.Script
