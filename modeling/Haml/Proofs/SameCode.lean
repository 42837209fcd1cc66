import Haml.Proofs.Composition
import Haml.Proofs.Writing

/-!
# The same code but for points

The points that instructions carry end up as arguments in the code. Two templates have
the same code but for points if their code is the same once any one point stands for all
of them. Row by row it is enough that what is written is the same, and that a line which
closes a block itself is met by another one that does. Where no instruction shows its
point, the code is the same altogether.
-/

namespace Haml

/-- The instruction with `p` in place of the point that it carries. -/
def Instruction.atPoint (p : Point) : Instruction → Instruction
  | .expression indentation c mode _ => .expression indentation c mode p
  | .text t interpolate _ processing => .text t interpolate p processing
  | .attributes a _ => .attributes a p
  | i => i

/-- Whether the instruction writes its point into the code: it writes the value of an
expression out, of one within text, or attributes that are not known before. -/
def Instruction.showsPoint : Instruction → Bool
  | .expression .. => true
  | .text t interpolate _ _ =>
    interpolate && (Piece.split t).any fun p =>
      match p with
      | .code _ => true
      | .literal _ => false
  | .attributes .. => true
  | _ => false

namespace Script

/-- Instructions that do the same to every writer, once `p` stands for all points, and of
which either list shows a point or none. -/
structure Alike (is js : List Instruction) : Prop where
  run : ∀ (p : Point) (w : Writer), w.run (is.map (·.atPoint p)) = w.run (js.map (·.atPoint p))
  points : is.any Instruction.showsPoint = js.any Instruction.showsPoint

namespace Alike

variable {is js is' js' : List Instruction}

theorem refl (is : List Instruction) : Alike is is := ⟨fun _ _ => rfl, rfl⟩

theorem append (h : Alike is js) (h' : Alike is' js') : Alike (is ++ is') (js ++ js') where
  run p w := by simp only [List.map_append, Writer.run_append, h.run p w, h'.run p]
  points := by rw [List.any_append, List.any_append, h.points, h'.points]

/-- Instructions that are alike one by one; expressions that were scanned leave no trace in
the code. -/
theorem of_like (h : List.Forall₂ (Instruction.Like .inCode) is js) : Alike is js := by
  induction h with
  | nil => exact refl []
  | @cons i j is js hi _ ih =>
    have hown : Alike [i] [j] := by
      cases hi with
      | same => exact refl _
      | markup _ hn => exact hn ▸ refl _
      | code _ hn => exact hn ▸ refl _
      | attributes ha _ =>
        cases ha.eq fun h => h
        exact ⟨fun _ _ => rfl, rfl⟩
      | @closeBlock kind u v hu =>
        refine ⟨fun p w => ?_, rfl⟩
        change w.closeBlock kind u = w.closeBlock kind v
        rw [Writer.closeBlock, Writer.closeBlock, hu]
      | _ => exact ⟨fun _ _ => rfl, rfl⟩
    exact hown.append ih

end Alike

/-- The point of a text without expressions does not matter. -/
theorem pieces_atPoint (p q : Point) (processing : TextProcessing) {ps : List Piece}
    (h : ∀ c, Piece.code c ∉ ps) (w : Writer) :
    ps.foldl (fun w x => w.piece p processing x) w =
      ps.foldl (fun w x => w.piece q processing x) w := by
  induction ps generalizing w with
  | nil => rw [List.foldl_nil, List.foldl_nil]
  | cons x ps ih =>
    have hx : w.piece p processing x = w.piece q processing x := by
      cases x with
      | literal t => rfl
      | code c => exact absurd List.mem_cons_self (h c)
    rw [List.foldl_cons, List.foldl_cons, hx]
    exact ih (fun c hc => h c (List.mem_cons_of_mem _ hc)) _

theorem apply_atPoint {i : Instruction} (h : i.showsPoint = false) (p : Point) (w : Writer) :
    w.apply (i.atPoint p) = w.apply i := by
  cases i with
  | text t interpolate q processing =>
    cases interpolate with
    | false => rfl
    | true =>
      refine pieces_atPoint p q processing (fun c hc => ?_) w
      simp only [Instruction.showsPoint, Bool.true_and, List.any_eq_false] at h
      exact h _ hc rfl
  | expression => cases h
  | attributes => cases h
  | _ => rfl

/-- Points that are not shown do not matter. -/
theorem run_atPoint {is : List Instruction} (h : is.any Instruction.showsPoint = false) (p : Point)
    (w : Writer) : w.run (is.map (·.atPoint p)) = w.run is := by
  induction is generalizing w with
  | nil => rfl
  | cons i is ih =>
    rw [List.any_cons, Bool.or_eq_false_iff] at h
    rw [List.map_cons, Writer.run, List.foldl_cons, apply_atPoint h.1, Writer.run, List.foldl_cons]
    exact ih h.2 _

end Script

/-! ### Rows -/

def Event.Alike (es fs : List Event) : Prop :=
  Script.Alike (es.filterMap Event.instruction?) (fs.filterMap Event.instruction?)

theorem Event.Alike.append {es fs es' fs' : List Event} (h : Event.Alike es fs)
    (h' : Event.Alike es' fs') : Event.Alike (es ++ es') (fs ++ fs') := by
  rw [Event.Alike, List.filterMap_append, List.filterMap_append]
  exact Script.Alike.append h h'

theorem Event.Alike.of_like {es fs : List Event} (h : List.Forall₂ (Event.Like .inCode) es fs) :
    Event.Alike es fs := by
  induction h with
  | nil => exact .refl []
  | @cons e f es fs he _ ih =>
    cases he with
    | same =>
      have hown : Event.Alike [e] [e] := .refl _
      exact hown.append ih
    | emit hi => exact Script.Alike.append (.of_like (.cons hi .nil)) ih
    | _ => exact ih

/-- Two compilations with the same effect on the code but for points, which leave the same
elements open. -/
structure AlikeOutcome (o o' : List Event × ElementStack) : Prop where
  events : Event.Alike o.1 o'.1
  stack : o.2.Like .inCode o'.2

theorem OutcomesLike.alike {o o' : List Event × ElementStack} (h : OutcomesLike .inCode o o') :
    AlikeOutcome o o' :=
  ⟨.of_like h.events, h.stack⟩

/-- What closes elements shows no point. -/
theorem ElementStack.showsPoint_close (s : ElementStack) (d : Nat) (u : Upcoming) :
    ((s.close d u).1.filterMap Event.instruction?).any Instruction.showsPoint = false := by
  have hclosing (e : Element) (k : Nat) (framed : Bool) :
      (e.closing k framed u).any Instruction.showsPoint = false := by
    cases e with
    | tag name options =>
      simp only [Element.closing, List.any_append]
      split <;> split <;> rfl
    | _ => rfl
  rw [close_events]
  induction s.openFrom d with
  | nil => rfl
  | cons p ps ih =>
    rw [List.flatMap_cons, List.filterMap_append, List.any_append, ih, closingEvents,
      List.filterMap_cons_none rfl, Event.filterMap_instruction?_emit, List.any_cons, hclosing]
    rfl

/-- The elements open at a depth or deeper come first, and then those that are left when
they are closed. -/
theorem ElementStack.openFrom_append (s : ElementStack) {b d : Nat} (h : b ≤ d) (u : Upcoming) :
    s.openFrom b = s.openFrom d ++ (s.close d u).2.openFrom b := by
  induction d, h using Nat.le_induction generalizing s with
  | base =>
    rw [openFrom_eq_nil (s := (s.close b u).2) fun i hi => by rw [get?_close, if_neg (by omega)],
      List.append_nil]
  | succ d _ ih =>
    have hdeeper : (s.close (d + 1) u).2.openFrom (d + 1) = [] :=
      openFrom_eq_nil fun i hi => by rw [get?_close, if_neg (by omega)]
    have hsame : ((s.close (d + 1) u).2.close d u).2.Same (s.close d u).2 := by
      intro i
      rw [get?_close, get?_close, get?_close]
      by_cases hi : i < d
      · rw [if_pos hi, if_pos hi, if_pos (by omega)]
      · rw [if_neg hi, if_neg hi]
    calc s.openFrom b
        = s.openFrom d ++ (s.close d u).2.openFrom b := ih s
      _ = s.openFrom (d + 1) ++ (((s.get? d).map (d, ·)).toList ++
            (s.close d u).2.openFrom b) := by rw [openFrom_eq_append s d, List.append_assoc]
      _ = s.openFrom (d + 1) ++ (s.close (d + 1) u).2.openFrom b := by
        rw [ih (s.close (d + 1) u).2, openFrom_eq_append (s.close (d + 1) u).2 d, hdeeper,
          get?_close, if_pos (Nat.lt_succ_self d), hsame.openFrom, List.nil_append]

/-! ### Templates -/

/-- Two compilations that have written the same when all is closed at the end. -/
structure EndAlike (o o' : List Event × ElementStack) : Prop where
  buffer : ∀ u v : Upcoming, u.kind = .eof → v.kind = .eof → ∀ (p : Point) (w : Script.Writer),
    (w.run (((o.1 ++ (o.2.close 0 u).1).filterMap Event.instruction?).map (·.atPoint p))).buffer =
      (w.run (((o'.1 ++ (o'.2.close 0 v).1).filterMap Event.instruction?).map
        (·.atPoint p))).buffer
  points : (o.1.filterMap Event.instruction?).any Instruction.showsPoint =
    (o'.1.filterMap Event.instruction?).any Instruction.showsPoint

theorem closesBlock_of_eof {u : Upcoming} (h : u.kind = .eof) : Script.closesBlock u = false := by
  rw [Script.closesBlock, h]
  rfl

/-- At the end of the source all is closed alike. -/
theorem ElementStack.alike_close_of_eof {s t : ElementStack} (h : s.Like .inCode t) (d : Nat)
    {u v : Upcoming} (hu : u.kind = .eof) (hv : v.kind = .eof) :
    Event.Alike (s.close d u).1 (t.close d v).1 :=
  .of_like (h.events_close d ((closesBlock_of_eof hv).trans (closesBlock_of_eof hu).symm))

theorem AlikeOutcome.endAlike {o o' : List Event × ElementStack} (h : AlikeOutcome o o') :
    EndAlike o o' := by
  refine ⟨fun u v hu hv p w => ?_, h.events.points⟩
  have hclose := ElementStack.alike_close_of_eof h.stack 0 hu hv
  rw [(h.events.append hclose).run p w]

theorem EndAlike.trans {o o' o'' : List Event × ElementStack} (h : EndAlike o o')
    (h' : EndAlike o' o'') : EndAlike o o'' := by
  refine ⟨fun u v hu hv p w => ?_, h.points.trans h'.points⟩
  rw [h.buffer u u hu hu p w, h'.buffer u v hu hv p w]

namespace Template

/-- The code of a template in strict mode, with `p` in place of every point. -/
def codeAt (t : Template) (filters : FilterRegistry) (p : Point) : Text :=
  Script.body ((t.run ⟨false⟩ filters).instructions.map (·.atPoint p))

/-- Both templates are refused in strict mode, or both are compiled, and to the same code
but for points: it is what their instructions write, and with one point in place of all
others these write the same. -/
def SameButForPoints (filters : FilterRegistry) (t t' : Template) : Prop :=
  (∃ d d', t.compileWith ⟨false⟩ filters = .error d ∧ t'.compileWith ⟨false⟩ filters = .error d') ∨
    ∃ c c', t.compileWith ⟨false⟩ filters = .ok c ∧ t'.compileWith ⟨false⟩ filters = .ok c' ∧
      c.code = Script.body (t.run ⟨false⟩ filters).instructions ∧
      c'.code = Script.body (t'.run ⟨false⟩ filters).instructions ∧
      ∀ p, t.codeAt filters p = t'.codeAt filters p

def outcome? (t : Template) (filters : FilterRegistry) : Option (List Event × ElementStack) :=
  (Lexer.ofText t.source).next.rows.toOption.bind (compileRows filters {})

variable {t t' : Template} {filters : FilterRegistry}

theorem code_of_compileWith {c : Compilation} (h : t.compileWith ⟨false⟩ filters = .ok c) :
    c.code = Script.body (t.run ⟨false⟩ filters).instructions := by
  rw [compileWith, compilation] at h
  split at h
  · cases h
  · cases h
    rfl

theorem compileWith_of_outcome?_none (h : t.outcome? filters = none) :
    ∃ d, t.compileWith ⟨false⟩ filters = .error d := by
  cases hc : t.compileWith ⟨false⟩ filters with
  | error d => exact ⟨d, rfl⟩
  | ok c =>
    obtain ⟨rows, o, hrows, ho⟩ := rows_of_compile hc
    rw [outcome?, hrows] at h
    cases ho.symm.trans h

theorem run_of_outcome?_some {o : List Event × ElementStack} (h : t.outcome? filters = some o) :
    ∃ c u, t.compileWith ⟨false⟩ filters = .ok c ∧ u.kind = Token.Kind.eof ∧
      (t.run ⟨false⟩ filters).instructions =
        .start false :: (o.1 ++ (o.2.close 0 u).1).filterMap Event.instruction? ++ [.finish] := by
  rw [outcome?] at h
  cases hrows : (Lexer.ofText t.source).next.rows with
  | error d =>
    rw [hrows] at h
    cases h
  | ok rows =>
    rw [hrows] at h
    obtain ⟨u, hu, hrun⟩ := compileWith_of_rows (t := t) hrows h
    obtain ⟨hinstructions, hok⟩ := hrun ⟨false⟩
    exact ⟨_, u, hok, hu, hinstructions⟩

theorem sameButForPoints_of_some {o o' : List Event × ElementStack}
    (h : t.outcome? filters = some o) (h' : t'.outcome? filters = some o') (ho : EndAlike o o') :
    SameButForPoints filters t t' := by
  obtain ⟨c, u, hc, hu, hinstructions⟩ := run_of_outcome?_some h
  obtain ⟨c', u', hc', hu', hinstructions'⟩ := run_of_outcome?_some h'
  refine .inr ⟨c, c', hc, hc', code_of_compileWith hc, code_of_compileWith hc', fun p => ?_⟩
  have hbuffer := ho.buffer u u' hu hu' p (({} : Script.Writer).run [.start false])
  -- What ends the code depends on what is written, not on the depth.
  have hfinish (w w' : Script.Writer) (hw : w.buffer = w'.buffer) :
      (w.run [.finish]).buffer.output = (w'.run [.finish]).buffer.output := by
    change (w.buffer.write Script.epilogue).output = (w'.buffer.write Script.epilogue).output
    rw [hw]
  have hsplit (is : List Instruction) :
      (Instruction.start false :: is ++ [Instruction.finish]).map (·.atPoint p) =
        [.start false] ++ (is.map (·.atPoint p) ++ [.finish]) := by
    rw [List.map_append, List.map_cons]
    rfl
  rw [codeAt, codeAt, hinstructions, hinstructions', hsplit, hsplit, Script.body, Script.body,
    Script.Writer.run_append, Script.Writer.run_append, Script.Writer.run_append,
    Script.Writer.run_append]
  exact hfinish _ _ hbuffer

theorem sameButForPoints_of_outcomes
    (h : Option.Rel EndAlike (t.outcome? filters) (t'.outcome? filters)) :
    SameButForPoints filters t t' := by
  cases ht : t.outcome? filters with
  | none =>
    cases ht' : t'.outcome? filters with
    | none =>
      obtain ⟨d, hd⟩ := compileWith_of_outcome?_none ht
      obtain ⟨d', hd'⟩ := compileWith_of_outcome?_none ht'
      exact .inl ⟨d, d', hd, hd'⟩
    | some o' =>
      rw [ht, ht'] at h
      cases h
  | some o =>
    cases ht' : t'.outcome? filters with
    | none =>
      rw [ht, ht'] at h
      cases h
    | some o' =>
      rw [ht, ht'] at h
      cases h with
      | some ho => exact sameButForPoints_of_some ht ht' ho

def showsPoints (t : Template) (filters : FilterRegistry) : Bool :=
  (t.run ⟨false⟩ filters).instructions.any Instruction.showsPoint

theorem codeAt_of_unseen (h : t.showsPoints filters = false) {c : Compilation}
    (hc : t.compileWith ⟨false⟩ filters = .ok c) (p : Point) : t.codeAt filters p = c.code := by
  rw [code_of_compileWith hc, codeAt, Script.body, Script.run_atPoint h]
  rfl

theorem showsPoints_of_outcome? {o : List Event × ElementStack} (h : t.outcome? filters = some o) :
    t.showsPoints filters = (o.1.filterMap Event.instruction?).any Instruction.showsPoint := by
  obtain ⟨c, u, -, -, hinstructions⟩ := run_of_outcome?_some h
  rw [showsPoints, hinstructions, List.filterMap_append, List.any_append, List.any_cons,
    List.any_append, ElementStack.showsPoint_close]
  simp [Instruction.showsPoint]

/-- Of two templates that are the same but for points, the code is the same if the first
shows none. -/
theorem code_of_outcomes
    (h : Option.Rel EndAlike (t.outcome? filters) (t'.outcome? filters))
    (hs : t.showsPoints filters = false) {c c' : Compilation}
    (hc : t.compileWith ⟨false⟩ filters = .ok c) (hc' : t'.compileWith ⟨false⟩ filters = .ok c') :
    c'.code = c.code := by
  have hsame := sameButForPoints_of_outcomes h
  have hs' : t'.showsPoints filters = false := by
    cases ht : t.outcome? filters with
    | none =>
      obtain ⟨d, hd⟩ := compileWith_of_outcome?_none ht
      rw [hd] at hc
      cases hc
    | some o =>
      cases ht' : t'.outcome? filters with
      | none =>
        rw [ht, ht'] at h
        cases h
      | some o' =>
        rw [ht, ht'] at h
        cases h with
        | some ho =>
          rw [showsPoints_of_outcome? ht', ← ho.points, ← showsPoints_of_outcome? ht, hs]
  rcases hsame with ⟨d, d', hd, -⟩ | ⟨_, _, -, -, -, -, hcode⟩
  · rw [hd] at hc
    cases hc
  · rw [← codeAt_of_unseen hs hc .anywhere, ← codeAt_of_unseen hs' hc' .anywhere, hcode]

end Template

end Haml
