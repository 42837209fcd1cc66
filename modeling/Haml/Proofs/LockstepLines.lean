import Haml.Proofs.FaultPlaces
import Haml.Proofs.LockstepBlocks

/-!
# Lines in lockstep

Near lexers read whole lines alike, if each takes the rest of its logical line alike.
Only comments and tags that may close themselves depend on the line below them; whether
they have contents is asked at one place, their outlook, and what is asked of the two
lexers is that they see the same from there.
-/

namespace Haml

namespace Lexer

def tagMarks (l : Lexer) : TagOptions × Lexer := l.behindList.readAttributeHash.lexer.readMarks

/-- The place from which a comment or a tag looks for contents. -/
def outlook (l : Lexer) : Lexer := if l.kind = .slash then l.next.takeLine.2 else l.tagMarks.2

/-- Whether how a line is read depends on the line below: it is a comment, or a tag that
may close itself, is not marked to do so, and has no contents on its own line. -/
def looksBelow (l : Lexer) : Bool :=
  l.kind = .slash ||
    (l.startsTag && isSelfClosingName (l.readName.1.getD defaultTagName) &&
      !l.tagMarks.1.selfClosing && !l.tagMarks.2.hasInlineContents)

theorem reaches_tagMarks (l : Lexer) : l.Reaches l.tagMarks.2 :=
  (l.reaches_behindList.trans (reaches_readAttributeHash _)).trans (reaches_readMarks _)

theorem mode_outlook {l : Lexer} (hm : l.mode = .line) : l.outlook.mode = .line := by
  rw [outlook]
  split
  · exact (reaches_takeLine l.next).mode hm
  · exact l.reaches_tagMarks.mode hm

/-- What is left of a tag when its list and its hash are read. -/
theorem readTag_of_ok {l : Lexer} {pairs entries : List (Text × Text)} (depth : Nat)
    (hl : l.readName.2.readSelectors.2.readReference.2.readAttributeList.value = .ok pairs)
    (hh : l.behindList.readAttributeHash.value = .ok entries) :
    l.readTag depth =
      if l.tagMarks.1.selfClosing && l.tagMarks.2.hasInlineContents then
        { value := .error ⟨.selfClosingContents, l.behindList.point⟩
          lexer := l.tagMarks.2
          probes := l.behindList.readAttributeHash.probes }
      else
        let name := l.readName.1.getD defaultTagName
        let selectors := l.readName.2.readSelectors
        { value := .ok
            { name := name
              attributes :=
                ⟨selectors.1.1, selectors.1.2, pairs, entries, selectors.2.readReference.1⟩
              options := { l.tagMarks.1 with
                selfClosing := l.tagMarks.1.selfClosing ||
                  (isSelfClosingName name && !l.tagMarks.2.hasContents depth) }
              point := l.behindList.point }
          lexer := l.tagMarks.2
          probes := l.behindList.readAttributeHash.probes } := by
  rw [behindList] at hh
  simp only [readTag, hl, hh]
  rfl

/-- A tag is read if its list and its hash are. -/
theorem ok_of_readTag {l : Lexer} {depth : Nat} {head : TagHead}
    (hv : (l.readTag depth).value = .ok head) :
    ∃ pairs entries,
      l.readName.2.readSelectors.2.readReference.2.readAttributeList.value = .ok pairs ∧
        l.behindList.readAttributeHash.value = .ok entries := by
  cases hl : l.readName.2.readSelectors.2.readReference.2.readAttributeList.value with
  | error d =>
    simp only [readTag, hl] at hv
    cases hv
  | ok pairs =>
    cases hh : l.behindList.readAttributeHash.value with
    | error d =>
      rw [behindList] at hh
      simp only [readTag, hl, hh] at hv
      cases hv
    | ok entries => exact ⟨pairs, entries, rfl, rfl⟩

theorem lexer_readTag {l : Lexer} {depth : Nat} {head : TagHead}
    (hv : (l.readTag depth).value = .ok head) : (l.readTag depth).lexer = l.tagMarks.2 := by
  obtain ⟨pairs, entries, hl, hh⟩ := ok_of_readTag hv
  rw [readTag_of_ok depth hl hh]
  split <;> rfl

/-- A tag is left at or behind the end of its attribute list, and refused if that is. -/
theorem passes_readTag_of_list (l : Lexer) (depth : Nat) :
    (l.readTag depth).Passes l.behindList
      l.readName.2.readSelectors.2.readReference.2.readAttributeList.Fails := by
  have hhash := reaches_readAttributeHash l.behindList
  have hmarks := hhash.trans (reaches_readMarks l.behindList.readAttributeHash.lexer)
  constructor
  · simp only [readTag]
    split
    · exact .refl _
    · split
      · exact hhash
      · split <;> exact hmarks
  · rintro ⟨d, hd⟩
    simp only [readTag, hd]
    exact ⟨d, rfl⟩

/-- A tag whose list is read is left at or behind the end of its attribute hash, and refused
if that is. -/
theorem passes_readTag_of_hash {l : Lexer} {pairs : List (Text × Text)}
    (hl : l.readName.2.readSelectors.2.readReference.2.readAttributeList.value = .ok pairs)
    (depth : Nat) :
    (l.readTag depth).Passes l.behindList.readAttributeHash.lexer
      l.behindList.readAttributeHash.Fails := by
  have hmarks := reaches_readMarks l.behindList.readAttributeHash.lexer
  constructor
  · simp only [readTag, hl]
    split
    · exact .refl _
    · split <;> exact hmarks
  · rintro ⟨d, hd⟩
    rw [behindList] at hd
    simp only [readTag, hl, hd]
    exact ⟨d, rfl⟩

theorem readContents_ok {l : Lexer} (hm : l.mode = .line) (inner : Bool) :
    ∃ c, (l.readContents inner).value = .ok c := by
  obtain ⟨l', hl'⟩ := exists_endContents ((reaches_passSpace l).mode hm) inner
  simp only [readContents, readBody, hl']
  exact ⟨_, rfl⟩

def NotLost (_ : Prop) (_ _ : Lexer) : Prop := False

def LostInTag (Lost : Prop → Lexer → Lexer → Prop) (depth : Nat) (l l' : Lexer) : Prop :=
  l.startsTag ∧ Lost (l.readTag depth).Fails (l.readTag depth).lexer (l'.readTag depth).lexer

namespace Lockstep

variable {L : Likeness} {Near Past : Lexer → Lexer → Prop} {Lost : Prop → Lexer → Lexer → Prop}
  (H : Lockstep L Near Past Lost) {l l' : Lexer}

include H

/-! ### Contents -/

theorem endText (h : Near l l') (hm : l.mode = .line) (t : Text) (i : Bool) (n : Nat) :
    (l.endText t i n).Agree L Near Past NotLost (Contents.Like L) (l'.endText t i n) := by
  simp only [Lexer.endText, H.endsLine h]
  split
  · rename_i he
    exact .ok rfl rfl (.text t i n (H.newline h)) (H.past h hm he) .nil
  · exact .fault rfl rfl (H.refused h _) h .nil

theorem readBody (h : Near l l') (hm : l.mode = .line) (inner : Bool) :
    (l.readBody inner).Agree L Near Past NotLost (Contents.Like L) (l'.readBody inner) := by
  simp only [Lexer.readBody_eq, H.announcesExpression h,
    H.kind_iff h (k := .bang) (by decide) (by decide)]
  split
  · rename_i ha
    have he : l.endsLine = false := by
      cases hk : l.kind <;>
        simp_all [Token.Kind.announcesExpression, Lexer.endsLine, Token.Kind.endsLine]
    obtain ⟨htext, hline⟩ := H.takeLine (H.within h hm he) hm
    have hend := endsLine_takeLine (l := l.next) hm
    rw [H.kind_eq h (kind_ne_eof_of_not_endsLine he), htext]
    refine .ok rfl rfl (.expression _ _ (H.point h) (H.newline hline)) ?_ .nil
    cases inner with
    | false => exact H.stay hline hend
    | true => exact H.past hline ((reaches_takeLine l.next).mode hm) hend
  · split
    · rename_i hb
      have hnext := H.within h hm (by rw [endsLine, hb]; rfl)
      obtain ⟨htext, hline⟩ := H.takeLine (H.passSpace_within hnext hm)
        ((reaches_passSpace l.next).mode hm)
      rw [htext, H.depth hnext]
      exact H.endText hline ((reaches_takeLine _).mode ((reaches_passSpace l.next).mode hm)) _ _ _
    · obtain ⟨htext, hline⟩ := H.takeLine h hm
      rw [htext]
      exact H.endText hline ((reaches_takeLine l).mode hm) _ _ _

theorem readContents (h : Near l l') (hm : l.mode = .line) (inner : Bool) :
    (l.readContents inner).Agree L Near Past NotLost (Contents.Like L) (l'.readContents inner) :=
  H.readBody (H.passSpace_within h hm) ((reaches_passSpace l).mode hm) inner

/-! ### Tags -/

/-- Whether a tag closes itself for want of contents is only asked if it may. -/
theorem selfClosing (h : Near l.tagMarks.2 l'.tagMarks.2) (hm : l.mode = .line)
    (hmarks : l'.tagMarks.1 = l.tagMarks.1) (ht : l.startsTag) (hs : l.kind ≠ .slash) (depth : Nat)
    (hlook : l.looksBelow → Near l.outlook l'.outlook →
      l'.outlook.hasContents depth = l.outlook.hasContents depth) (hs' : l'.kind ≠ .slash) :
    (l'.tagMarks.1.selfClosing || (isSelfClosingName (l.readName.1.getD defaultTagName) &&
        !l'.tagMarks.2.hasContents depth)) =
      (l.tagMarks.1.selfClosing || (isSelfClosingName (l.readName.1.getD defaultTagName) &&
        !l.tagMarks.2.hasContents depth)) := by
  have hinline := H.hasInlineContents h (l.reaches_tagMarks.mode hm)
  rw [hmarks]
  by_cases hl : l.looksBelow
  · simp only [outlook, hs, hs', if_false] at hlook
    rw [hlook hl h]
  · cases hc : l.tagMarks.1.selfClosing with
    | true => simp only [Bool.true_or]
    | false =>
      cases hn : isSelfClosingName (l.readName.1.getD defaultTagName) with
      | false => simp only [Bool.false_and]
      | true =>
        have hi : l.tagMarks.2.hasInlineContents = true := by
          simpa [looksBelow, hs, ht, hc, hn] using hl
        simp only [Lexer.hasContents, hinline, hi, Bool.true_or]

/-- A tag is read alike, if the two lexers see the same from its outlook. -/
theorem readTag (h : Near l l') (hm : l.mode = .line) (ht : l.startsTag) (depth : Nat)
    (hlook : l.looksBelow → (∃ head, (l.readTag depth).value = .ok head) →
      Near l.outlook l'.outlook → l'.outlook.hasContents depth = l.outlook.hasContents depth) :
    (l.readTag depth).Agree L Near Near Lost (TagHead.Like L) (l'.readTag depth) := by
  have hs : l.kind ≠ .slash := by
    intro hs
    simp [Lexer.startsTag, hs] at ht
  have hs' := mt (H.kind_iff h (k := .slash) (by decide) (by decide)).1 hs
  obtain ⟨hname, hnamed⟩ := H.readName h hm
  have hm₁ := l.reaches_readName.mode hm
  obtain ⟨hselected, hselectors⟩ := H.readSelectors hnamed hm₁
  have hm₂ := (reaches_readSelectors _).mode hm₁
  obtain ⟨href, hreference⟩ := H.readReference hselectors hm₂
  cases H.readAttributeList hreference with
  | lost ha =>
    exact H.astray ha (passes_readTag_of_list l depth) (passes_readTag_of_list l' depth).reaches
  | fault hd hd' hD hlist hp =>
    simp only [Lexer.readTag, hd, hd']
    exact .fault rfl rfl hD hlist .nil
  | @ok pairs pairs' hv hv' heq hlist _ =>
    subst heq
    cases H.readAttributeHash hlist with
    | lost ha =>
      exact H.astray ha (passes_readTag_of_hash hv depth) (passes_readTag_of_hash hv' depth).reaches
    | fault hd hd' hD ha hp =>
      simp only [Lexer.readTag, hv, hv', hd, hd']
      exact .fault rfl rfl hD ha hp
    | @ok entries entries' he he' heq ha hp =>
      rw [readTag_of_ok depth hv he, readTag_of_ok depth hv' he']
      have hm₃ := (l.reaches_behindList.trans (reaches_readAttributeHash _)).mode hm
      obtain ⟨hmarks, hmarked⟩ := H.readMarks ha hm₃
      change l'.tagMarks.1 = l.tagMarks.1 at hmarks
      change Near l.tagMarks.2 l'.tagMarks.2 at hmarked
      have hinline := H.hasInlineContents hmarked (l.reaches_tagMarks.mode hm)
      have hok (hl : l.looksBelow) : ∃ head, (l.readTag depth).value = .ok head := by
        have hunmarked : l.tagMarks.1.selfClosing = false := by
          cases hc : l.tagMarks.1.selfClosing <;> simp_all [looksBelow]
        rw [readTag_of_ok depth hv he, if_neg (by simp [hunmarked])]
        exact ⟨_, rfl⟩
      have hclosing := H.selfClosing hmarked hm hmarks ht hs depth
        (fun hl => hlook hl (hok hl)) hs'
      rw [hmarks] at hclosing
      rw [hmarks, hinline]
      split
      · exact .fault rfl rfl ⟨L.fault_refl _, H.point hlist⟩ hmarked hp
      · simp only [hname, hselected, href, hclosing]
        exact .ok rfl rfl (.mk _ _ (.mk _ _ _ _ heq) (H.point hlist)) hmarked hp

/-! ### Lines -/

/-- The rest of the line is taken alike, and its end passed. -/
theorem takenLine (h : Near l l') (hm : l.mode = .line) :
    l'.takeLine.1 = l.takeLine.1 ∧
      L.text l.takeLine.2.token.newline l'.takeLine.2.token.newline ∧
        Past l.takeLine.2.passLineEnd l'.takeLine.2.passLineEnd := by
  obtain ⟨htext, hline⟩ := H.takeLine h hm
  exact ⟨htext, H.newline hline, H.passLine h hm⟩

/-- A line with a tag is read alike, if the tag itself does not lead the lexers astray. -/
theorem readLine_of_tag (h : Near l l') (hm : l.mode = .line) (ht : l.startsTag) (depth : Nat)
    (hlook : l.looksBelow → (∃ x, (l.readLine depth).value = .ok x) →
      Near l.outlook l'.outlook → l'.outlook.hasContents depth = l.outlook.hasContents depth) :
    LostInTag Lost depth l l' ∨
      (l.readLine depth).Agree L Near Past NotLost (Line.Like L) (l'.readLine depth) := by
  have ht' : l'.startsTag := (H.startsTag h).trans ht
  have hmode := (advances_readTag ht depth).reaches.mode hm
  have hok (hread : ∃ head, (l.readTag depth).value = .ok head) :
      ∃ x, (l.readLine depth).value = .ok x := by
    obtain ⟨head, hv⟩ := hread
    obtain ⟨c, hc⟩ := readContents_ok hmode head.options.inner
    rw [readLine_tag ht hv]
    exact ⟨_, congrArg (Except.map _) hc⟩
  cases H.readTag h hm ht depth fun hl hread => hlook hl (hok hread) with
  | lost ha => exact .inl ⟨ht, ha⟩
  | fault hd hd' hD ha hp =>
    rw [readLine_refused ht hd, readLine_refused ht' hd']
    exact .inr (.fault rfl rfl hD ha hp)
  | @ok head head' hv hv' hhead ha hp =>
    have hinner : head'.options.inner = head.options.inner := by cases hhead; rfl
    rw [readLine_tag ht hv, readLine_tag ht' hv', hinner]
    exact .inr ((H.readContents ha hmode _).map (fun _ _ hc => .tag hhead hc) fun _ => hp)

/-- A whole line is read alike, if its tag does not lead the lexers astray, if its block is
taken alike where it is a comment that leaves no trace, and if the two lexers see the same
from its outlook. -/
theorem readLine (h : Near l l') (hm : l.mode = .line) (hl : l.endsLine = false) (depth : Nat)
    (hlook : l.looksBelow → (∃ x, (l.readLine depth).value = .ok x) →
      Near l.outlook l'.outlook → l'.outlook.hasContents depth = l.outlook.hasContents depth)
    (hblock : l.kind = .silentComment → Past (l.takeBlock depth).2 (l'.takeBlock depth).2) :
    LostInTag Lost depth l l' ∨
      (l.readLine depth).Agree L Near Past NotLost (Line.Like L) (l'.readLine depth) := by
  by_cases ht : l.startsTag
  · exact H.readLine_of_tag h hm ht depth hlook
  right
  have ht' : ¬l'.startsTag := by rwa [H.startsTag h]
  have hk := H.kind_eq h (kind_ne_eof_of_not_endsLine hl)
  have hnext := H.within h hm hl
  obtain ⟨htext, hnewline, hline⟩ := H.takenLine hnext hm
  obtain ⟨hspaced, hnewline', hline'⟩ := H.takenLine (H.passSpace_within hnext hm)
    ((reaches_passSpace l.next).mode hm)
  by_cases ha : l.kind.announcesExpression
  · have ha' : l'.kind.announcesExpression := by rwa [hk]
    rw [readLine_announced ha, readLine_announced ha', hk, htext]
    exact .ok rfl rfl (.expression _ _ (H.point h) hnewline) hline .nil
  simp only [Lexer.readLine_eq, hk, ht, ht', ha]
  split
  · rw [hspaced]
    exact .ok rfl rfl (.doctype _ hnewline') hline' .nil
  · rw [htext]
    exact .ok rfl rfl (.code _ hnewline) hline .nil
  · rename_i hc
    exact .ok rfl rfl .hidden (hblock hc) .nil
  · rename_i hc
    have hc' := hk.trans hc
    have hsees := hlook (by simp [looksBelow, hc]) ⟨_, by simp only [Lexer.readLine_eq, hc]; rfl⟩
    simp only [outlook, hc, hc', if_true] at hsees
    rw [htext, hsees (H.takeLine hnext hm).2]
    exact .ok rfl rfl (.comment _ _ hnewline) hline .nil
  · rw [hspaced]
    exact .ok rfl rfl (.escaped _ (H.point h) hnewline') hline' .nil
  · exact (H.readContents h hm true).map (fun _ _ hc => .plain hc (H.point h)) fun _ => .nil

end Lockstep

end Lexer

end Haml
