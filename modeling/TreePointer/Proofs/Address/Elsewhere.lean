import TreePointer.Proofs.Address.Phrase

/-!
# Addresses in other documents

An address is often read in a document it was not made for. It is a phrase all the same, whatever
the document had that it was made for, so that it stands for a place of the other document or for
none, and nothing else can go wrong.

* `within_following`, `within_preceding`, `within_nextUnmarked`: moves that stay in the document.
* `stringRange_phrase`, `between_phrase`, `create_phrase`: what is made is a phrase.
* `resolve_elsewhere`: what it is resolved to in any document.
* `not_resolve_elsewhere_letters`: the place behind the last character has to be numbered too.
-/

namespace TreePointer

/-- The number of places that counts tell apart in the text of a node, which are the places that an
address can number: one before each counted character, and the one after the last. -/
def Forest.placeCount (f : Forest) (n : Node) : Nat := (f.countedIndices n).length + 1

/-- What the computation gives, if anything, has a property. -/
abbrev Yields {α : Type} (Q : α → Prop) (x : Except Fault α) : Prop := Gives (fun _ => True) Q x

theorem Yields.of_forall {α : Type} {Q : α → Prop} {x : Except Fault α} (h : ∀ a, x = .ok a → Q a) :
    Yields Q x := by
  cases x with
  | ok a => exact .ok (h a rfl)
  | error e => exact .error trivial

/-- What is found on a walk has what each step keeps up. -/
theorem Forest.of_firstOnWalk {step : Node → Option Node} {accept : Node → Bool} {P : Node → Prop}
    (hstep : ∀ m n, P m → accept m = false → step m = some n → P n) {k : Nat}
    {start : Option Node} {n : Node} (hstart : ∀ m ∈ start, P m)
    (h : firstOnWalk step accept k start = some n) : P n := by
  induction k generalizing start with
  | zero => cases h
  | succ k ih =>
    cases start with
    | none => cases h
    | some m =>
      rw [firstOnWalk] at h
      split at h
      · cases h
        exact hstart n rfl
      · next hpassed =>
        exact ih (fun m' hm' => hstep m m' (hstart m rfl) (Bool.eq_false_iff.mpr hpassed) hm') h

namespace Document.Rooted

variable {f : Forest} {d : Document} (hd : d.Rooted f)

include hd

/-! ## Moves stay in the document -/

theorem within_firstLeaf {n : Node} (hn : f.Within d.root n) : f.Within d.root (f.firstLeaf n) := by
  unfold Forest.firstLeaf
  generalize f.size = k
  induction k generalizing n with
  | zero => exact hn
  | succ k ih =>
    rw [Forest.firstLeafWithin]
    split
    · next c hc => exact ih (hd.wellFormed.within_child hn (List.mem_of_head? hc))
    · exact hn

theorem within_following {n m : Node} (hn : f.Within d.root n) (h : f.following? n = some m) :
    f.Within d.root m := by
  have wf := hd.wellFormed
  obtain ⟨before, after, e, hnext⟩ := wf.following?_eq hd.has_root hd.parent_root hn
  rw [hnext] at h
  rw [← wf.mem_preorder_iff hd.has_root, e]
  exact List.mem_append_right _ (List.mem_append_right _ (List.mem_of_head? h))

theorem within_previousSibling {n m : Node} (hn : f.Within d.root n)
    (h : f.previousSibling? n = some m) : f.Within d.root m := by
  have wf := hd.wellFormed
  by_cases hroot : n = d.root
  · rw [hroot, (Forest.sibling_of_top hd.parent_root).2] at h
    cases h
  · obtain ⟨p, hp, hpr⟩ := wf.exists_parent hn hroot
    obtain ⟨left, right, hs⟩ := List.append_of_mem (wf.mem_of_parent hp)
    rw [wf.previousSibling?_eq hs] at h
    refine wf.within_child hpr ?_
    rw [hs]
    exact List.mem_append_left _ (List.mem_of_getLast? h)

theorem within_preceding {n m : Node} (hn : f.Within d.root n) (h : f.preceding? n = some m) :
    f.Within d.root m := by
  rw [Forest.preceding?, Option.orElse_eq_orElse, Option.orElse_eq_or, Option.or_eq_some_iff] at h
  rcases h with h | ⟨-, h⟩
  · exact hd.within_previousSibling hn h
  · rw [Forest.findUp?_eq] at h
    obtain ⟨a, ha, h⟩ := List.exists_of_findSome?_eq_some h
    exact hd.within_previousSibling (hd.within_of_mem_ancestors hn ha) h

theorem within_nextUnmarked {n m : Node} (hn : f.Within d.root n)
    (h : f.nextUnmarked? n = some m) : f.Within d.root m := by
  refine Forest.of_firstOnWalk (P := f.Within d.root) (fun m n hm _ hstep => ?_) (fun m hm => ?_) h
  · obtain ⟨c, hc, rfl⟩ := Option.map_eq_some_iff.mp hstep
    exact hd.within_firstLeaf (hd.within_following hm hc)
  · obtain rfl := Option.mem_some_iff.mp hm
    exact hn

/-- The nearest visible texts of a node. -/
theorem within_visible {t m : Node} (ht : f.Within d.root t)
    (h : f.nextVisible? t = some m ∨ f.previousVisible? t = some m) :
    f.Within d.root m := by
  have wf := hd.wellFormed
  obtain ⟨before, after, e⟩ := List.append_of_mem ((wf.mem_preorder_iff hd.has_root).mpr ht)
  rw [← wf.mem_preorder_iff hd.has_root, e]
  rcases h with h | h
  · rw [wf.nextVisible?_eq hd.has_root hd.parent_root e] at h
    exact List.mem_append_right _ (List.mem_cons_of_mem _ (List.mem_of_find?_eq_some h))
  · rw [wf.previousVisible?_eq hd.has_root hd.parent_root e] at h
    exact List.mem_append_left _ (List.mem_reverse.mp (List.mem_of_find?_eq_some h))

end Document.Rooted

namespace Address

open Expression

variable {f : Forest} {d : Document} {o : Options} {b : Boundary}

/-- The boundary is in a node of the document. -/
abbrev InDocument (f : Forest) (d : Document) (b : Boundary) : Prop := f.Within d.root b.container

/-- The node is an element of the document. -/
def IsElementOf (f : Forest) (d : Document) (n : Node) : Prop :=
  f.Within d.root n ∧ f.isElement n = true

/-- The text is a phrase that can be read. -/
def IsPhrase (text : String) : Prop := ∃ p : Phrase, p.Legible ∧ text.toList = p.chars

/-- The text is a phrase that can be read and starts from ids that the document has. -/
def IsPhraseOf (f : Forest) (d : Document) (text : String) : Prop :=
  ∃ p : Phrase, p.Legible ∧ p.Starts f d ∧ text.toList = p.chars

theorem IsPhraseOf.isPhrase {text : String} (h : IsPhraseOf f d text) : IsPhrase text :=
  have ⟨p, hp, _, htext⟩ := h
  ⟨p, hp, htext⟩

section Moves

variable (hd : d.Rooted f)

include hd

theorem placeOf_within {n : Node} (hn : f.Within d.root n) :
    Yields (fun place => f.Within d.root place.1) (Boundary.placeOf f n) := by
  unfold Boundary.placeOf
  split
  · exact .error trivial
  · next p hp =>
    split
    · exact .error trivial
    · refine .ok (hd.wellFormed.within_parent hn ?_ hp)
      rintro rfl
      rw [hd.parent_root] at hp
      cases hp

theorem entryPoint_within {n : Node} (hn : f.Within d.root n) :
    Yields (InDocument f d) (entryPoint f n) := by
  unfold entryPoint
  split
  · exact .ok hn
  · exact (placeOf_within hd hn).bind fun place hplace => .ok hplace

theorem exitPoint_within {n : Node} (hn : f.Within d.root n) :
    Yields (InDocument f d) (exitPoint f n) := by
  unfold exitPoint
  split
  · exact .ok hn
  · exact (placeOf_within hd hn).bind fun place hplace => .ok hplace

theorem leaveMarked_within (hb : InDocument f d b) {beside : Option Node}
    (hbeside : ∀ n ∈ beside, f.Within d.root n) :
    Yields (InDocument f d) (leaveMarked f b beside) := by
  unfold leaveMarked
  split
  · exact .ok hb
  · dsimp only
    split
    · next n hn =>
      obtain ⟨m, hm, hnext⟩ := Option.bind_eq_some_iff.mp hn
      refine entryPoint_within hd (hd.within_nextUnmarked ?_ hnext)
      split at hm
      · cases hm
        exact hb
      · exact hbeside m (Option.filter_eq_some_iff.mp hm).1
    · exact .ok hb

theorem leaveMarkedStart_within (hb : InDocument f d b) :
    Yields (InDocument f d) (leaveMarkedStart f b) :=
  leaveMarked_within hd hb fun _ hn => hd.wellFormed.within_child hb (List.mem_of_getElem? hn)

theorem leaveMarkedEnd_within (hb : InDocument f d b) :
    Yields (InDocument f d) (leaveMarkedEnd f b) := by
  refine leaveMarked_within hd hb fun n hn => ?_
  split at hn
  · cases hn
  · exact hd.wellFormed.within_child hb (List.mem_of_getElem? hn)

theorem descendStart_within (hb : InDocument f d b) :
    Yields (InDocument f d) (descendStart f b) := by
  unfold descendStart
  split
  · exact .ok hb
  · split
    · next n hn =>
      have hmem := List.mem_of_mem_drop (List.mem_of_find?_eq_some hn)
      refine .ok ?_
      split
      · exact hd.wellFormed.within_child hb hmem
      · exact hb
    · split
      · next n hn => exact entryPoint_within hd (hd.within_following hb hn)
      · exact .ok hb

theorem descendEnd_within (hb : InDocument f d b) :
    Yields (InDocument f d) (descendEnd f b) := by
  unfold descendEnd
  split
  · exact .ok hb
  · split
    · next n hn =>
      have hmem := List.mem_of_mem_take (List.mem_reverse.mp (List.mem_of_find?_eq_some hn))
      refine .ok ?_
      split
      · exact hd.wellFormed.within_child hb hmem
      · exact hb
    · split
      · next n hn => exact exitPoint_within hd (hd.within_preceding hb hn)
      · exact .ok hb

theorem settleStart_within (hb : InDocument f d b) : InDocument f d (settleStart f b) := by
  unfold settleStart
  split
  · split
    · next t h => exact hd.within_visible hb (.inl h)
    · exact hb
  · exact hb

theorem settleEnd_within (hb : InDocument f d b) : InDocument f d (settleEnd f b) := by
  unfold settleEnd
  split
  · split
    · next t h => exact hd.within_visible hb (.inr h)
    · exact hb
  · exact hb

/-! ## Elements beside a place -/

theorem documentElement_spec : Yields (IsElementOf f d) (d.documentElement f) := by
  unfold Document.documentElement
  split
  · next e he =>
    have hmem := List.mem_of_find?_eq_some he
    exact .ok ⟨hd.wellFormed.within_child (.refl f d.root) hmem, List.find?_some he⟩
  · exact .error trivial

theorem elementAbove_spec {t : Node} (ht : f.Within d.root t) :
    Yields (IsElementOf f d) (elementAbove f d t) := by
  unfold elementAbove
  split
  · exact .error trivial
  · next p hp =>
    split
    · next helement => exact .ok ⟨(hd.reaches_effectiveParent ht hp).1, helement⟩
    · split
      · exact documentElement_spec hd
      · exact .error trivial

theorem elementAfter_spec (hb : InDocument f d b) :
    Yields (IsElementOf f d) (elementAfter f b) := by
  unfold elementAfter
  split
  · next e he =>
    have hmem := List.mem_of_mem_drop (List.mem_of_find?_eq_some he)
    exact .ok ⟨hd.wellFormed.within_child hb hmem, List.find?_some he⟩
  · exact .error trivial

theorem elementBefore_spec (hb : InDocument f d b) :
    Yields (IsElementOf f d) (elementBefore f b) := by
  unfold elementBefore
  split
  · next e he =>
    have hmem := List.mem_of_mem_take (List.mem_reverse.mp (List.mem_of_find?_eq_some he))
    exact .ok ⟨hd.wellFormed.within_child hb hmem, List.find?_some he⟩
  · exact .error trivial

end Moves

/-! ## What is made is a phrase -/

theorem IsPhraseOf.point {text : String} (h : IsPhraseOf f d text) (toStart : Bool) :
    IsPhraseOf f d (pointName toStart ++ "(" ++ text ++ ")") := by
  obtain ⟨p, hp, hstart, htext⟩ := h
  exact ⟨.point toStart p, hp, hstart, by rw [toList_point, htext, Phrase.chars_point]⟩

theorem IsPhraseOf.between {first last : String} (h : IsPhraseOf f d first)
    (h' : IsPhraseOf f d last) : IsPhraseOf f d (first ++ "/range-to(" ++ last ++ ")") := by
  obtain ⟨p, hp, hstart, hfirst⟩ := h
  obtain ⟨q, hq, hstart', hlast⟩ := h'
  exact ⟨.between p q, ⟨hp, hq⟩, ⟨hstart, hstart'⟩, by
    rw [toList_rangeTo, hfirst, hlast, Phrase.chars_between]⟩

section Phrases

variable (hd : d.Rooted f) (hlex : d.Lexable f)

include hd hlex

theorem elementPath_phrase {n : Node} (hn : IsElementOf f d n) :
    Yields (IsPhraseOf f d) (elementPath f d o n) :=
  .of_forall fun _ h =>
    have ⟨r, hchars, hr, hstart, _⟩ := elementPath_start hd hlex hn.1 hn.2 h
    ⟨.element r, hr, hstart, hchars⟩

omit hd hlex in
theorem toList_firstStep (tag : String) :
    ("/" ++ tag ++ "[1]").toList = pathChars [⟨tag, 1⟩] := by
  have hnumber : "[1]".toList = '[' :: (Nat.toDigits 10 1 ++ [']']) := rfl
  have hslash : "/".toList = ['/'] := rfl
  simp only [pathChars, List.flatMap_cons, List.flatMap_nil, PathStep.toList_text,
    String.toList_append, hnumber, hslash, List.nil_append, List.append_nil, List.cons_append]

omit hd hlex in
theorem legible_firstStep {tag : String} (h : Lexer.IsTag tag) :
    ∀ s ∈ [PathStep.mk tag 1], s.Legible := by
  have hone : 1 < Binary64.exactBound := by decide
  intro s hs
  rw [List.mem_singleton.mp hs]
  exact ⟨h, Nat.one_pos, hone⟩

theorem wholeDocument_phraseOf : Yields (IsPhraseOf f d) (wholeDocument f d) := by
  refine (documentElement_spec hd).bind fun e he => ?_
  obtain ⟨tag, htag, hlegible⟩ := hlex.tag e he.1 he.2
  simp only [tagOf, htag, bind, Except.bind]
  exact .ok ⟨.element ⟨.root, [⟨tag, 1⟩]⟩,
    ⟨trivial, legible_firstStep hlegible, fun _ => List.cons_ne_nil _ _⟩, ⟨d.root, rfl⟩,
    toList_firstStep tag⟩

theorem wholeDocument_phrase : Yields IsPhrase (wholeDocument f d) :=
  (wholeDocument_phraseOf hd hlex).imp fun _ h => h.isPhrase

theorem stringRange_phrase {n : Node} (hn : IsElementOf f d n) {start length : Nat}
    (hstart : start < Binary64.exactBound) (hlength : length < Binary64.exactBound) :
    Yields (IsPhraseOf f d) (stringRange f d o n start length) := by
  refine Gives.bind (Yields.of_forall fun path h => h) fun path hpath => ?_
  obtain ⟨r, hchars, hr, hroute, -⟩ := elementPath_start hd hlex hn.1 hn.2 hpath
  exact .ok ⟨.stretch r start length, ⟨hr, hstart, hlength⟩, hroute, by
    rw [toList_stringRange, hchars, Phrase.chars_stretch]⟩

variable (hplaces : ∀ n, f.Within d.root n → f.placeCount n < Binary64.exactBound)

include hplaces

omit hd hlex in
/-- A number before a boundary can be held, and so can the next one. -/
theorem countBefore_spec {n t : Node} {i : Nat} (hn : IsElementOf f d n) :
    Yields (fun k => k + 1 < Binary64.exactBound) (f.countBefore n t i) :=
  .of_forall fun _ h =>
    Nat.lt_of_le_of_lt (Nat.succ_le_succ (Forest.countBefore_le h)) (hplaces n hn.1)

theorem startPoint_phrase (hb : InDocument f d b) :
    Yields (IsPhraseOf f d) (startPoint f d o b) := by
  refine (elementAbove_spec hd hb).bind fun above habove => ?_
  refine (countBefore_spec hplaces habove).bind fun before hbefore => ?_
  refine (stringRange_phrase hd hlex habove hbefore (by decide)).bind fun text htext => ?_
  exact .ok (htext.point true)

theorem endPoint_phrase (hb : InDocument f d b) : Yields (IsPhraseOf f d) (endPoint f d o b) := by
  refine (elementAbove_spec hd hb).bind fun above habove => ?_
  refine (countBefore_spec hplaces habove).bind fun before hbefore => ?_
  dsimp only
  split
  · exact (stringRange_phrase hd hlex habove (by decide) (by decide)).bind fun text htext =>
      .ok (htext.point false)
  · exact (stringRange_phrase hd hlex habove (Nat.lt_of_succ_lt hbefore) (by decide)).bind
      fun text htext => .ok (htext.point false)

theorem textStretch_phrase {a : Boundary} (ha : InDocument f d a) :
    Yields (IsPhraseOf f d) (textStretch f d o a b) := by
  refine (elementAbove_spec hd ha).bind fun above habove => ?_
  refine (countBefore_spec hplaces habove).bind fun before hbefore => ?_
  refine (countBefore_spec hplaces habove).bind fun through hthrough => ?_
  exact stringRange_phrase hd hlex habove hbefore (by omega)

theorem betweenTexts_phrase {a : Boundary} (ha : InDocument f d a) (hb : InDocument f d b) :
    Yields (IsPhraseOf f d) (betweenTexts f d o a b) := by
  have ha' := settleStart_within hd ha
  have hb' := settleEnd_within hd hb
  unfold betweenTexts
  refine Gives.bind (Q := fun _ => True) (Yields.of_forall fun _ _ => trivial) fun order _ => ?_
  split
  · exact textStretch_phrase hd hlex hplaces ha'
  · refine (elementAbove_spec hd ha').bind fun _ _ => ?_
    refine (elementAbove_spec hd hb').bind fun _ _ => ?_
    split
    · exact textStretch_phrase hd hlex hplaces ha'
    · refine (startPoint_phrase hd hlex hplaces ha').bind fun first hfirst => ?_
      refine (endPoint_phrase hd hlex hplaces hb').bind fun last hlast => ?_
      exact .ok (hfirst.between hlast)

/-- **The expression for a stretch** between two boundaries of the document is a phrase. -/
theorem between_phrase {a : Boundary} (ha : InDocument f d a) (hb : InDocument f d b) :
    Yields (IsPhraseOf f d) (between f d o a b) := by
  refine (leaveMarkedEnd_within hd hb).bind fun b hb => ?_
  refine (leaveMarkedStart_within hd ha).bind fun a ha => ?_
  refine (descendStart_within hd ha).bind fun a ha => ?_
  refine (descendEnd_within hd hb).bind fun b hb => ?_
  have hpath := fun n (hn : IsElementOf f d n) => elementPath_phrase (o := o) hd hlex hn
  split
  · exact betweenTexts_phrase hd hlex hplaces ha hb
  · refine (startPoint_phrase hd hlex hplaces (settleStart_within hd ha)).bind
      fun first hfirst => ?_
    refine (elementBefore_spec hd hb).bind fun e he => ?_
    exact (hpath e he).bind fun last hlast => .ok (hfirst.between hlast)
  · refine (elementAfter_spec hd ha).bind fun e he => ?_
    refine (hpath e he).bind fun first hfirst => ?_
    exact (endPoint_phrase hd hlex hplaces (settleEnd_within hd hb)).bind fun last hlast =>
      .ok (hfirst.between hlast)
  · refine (elementAfter_spec hd ha).bind fun e he => ?_
    refine (elementBefore_spec hd hb).bind fun e' he' => ?_
    refine (hpath e he).bind fun first hfirst => ?_
    split
    · exact .ok hfirst
    · exact (hpath e' he').bind fun last hlast => .ok (hfirst.between hlast)

/-- **Every address** is a phrase that starts in the document, with the scheme around it or
without. -/
theorem create_phraseOf {s : Selection} :
    Yields (fun address => ∃ body, IsPhraseOf f d body ∧ address = wrapped o body)
      (create f d o s) := by
  refine Gives.bind (Q := fun _ => True) (Yields.of_forall fun _ _ => trivial) fun ⟨a, b⟩ _ => ?_
  dsimp only
  split
  · next hin =>
    split
    · exact (wholeDocument_phraseOf hd hlex).bind fun body hbody => .ok ⟨body, hbody, rfl⟩
    · exact (between_phrase hd hlex hplaces (contains_iff.mp hin.1) (contains_iff.mp hin.2)).bind
        fun body hbody => .ok ⟨body, hbody, rfl⟩
  · exact .error trivial

theorem create_phrase {s : Selection} :
    Yields (fun address => ∃ body, IsPhrase body ∧ address = wrapped o body) (create f d o s) :=
  (create_phraseOf hd hlex hplaces).imp fun _ ⟨body, hbody, h⟩ => ⟨body, hbody.isPhrase, h⟩

end Phrases

/-! ## Any other document -/

/-- **A created address is well formed everywhere.** Read in whatever document and by whatever
options, it gives a range of that document, or it matches nothing there. -/
theorem resolve_elsewhere (hd : d.Rooted f) (hlex : d.Lexable f)
    (hplaces : ∀ n, f.Within d.root n → f.placeCount n < Binary64.exactBound) {s : Selection}
    {address : String} (h : create f d o s = .ok address) {g : Forest} {e : Document}
    (he : e.Rooted g) (o' : Options) :
    (∃ r, resolve g e o' address = .ok r ∧ r.Sound g e) ∨
      resolve g e o' address = .error (.unresolved (.noMatch address)) := by
  have hphrase := create_phrase (o := o) (s := s) hd hlex hplaces
  rw [h] at hphrase
  cases hphrase with
  | ok hphrase =>
    obtain ⟨body, ⟨p, hp, hbody⟩, rfl⟩ := hphrase
    exact Phrase.resolve he hp hbody o o'

/-- An address that starts at an id, in a document that has no ids. -/
theorem resolve_elsewhere_noted :
    ∃ address,
      create noted ⟨⟨0⟩, .xml⟩ .standard (.anchorFocus ⟨⟨8⟩, 1⟩ ⟨⟨6⟩, 1⟩) = .ok address ∧
        ∃ cause, resolve starred ⟨⟨0⟩, .html⟩ .standard address = .error (.unresolved cause) := by
  have hcreate : create noted ⟨⟨0⟩, .xml⟩ .standard (.anchorFocus ⟨⟨8⟩, 1⟩ ⟨⟨6⟩, 1⟩)
      = .ok ("xpointer(start-point(string-range(id(\"x\"), \"\", 4, 0))" ++
        "/range-to(end-point(string-range(/r[1]/q[1], \"\", 1, 1))))") := by decide
  refine ⟨_, hcreate, ?_⟩
  rcases resolve_elsewhere noted_rooted (noted_rooted.lexable_of_check (by decide))
    (noted_rooted.forall_within (by decide)) hcreate
    (show Document.Rooted starred ⟨⟨0⟩, .html⟩ by decide) .standard with ⟨r, hr, -⟩ | h
  · have hnone : (resolve starred ⟨⟨0⟩, .html⟩ .standard
        ("xpointer(start-point(string-range(id(\"x\"), \"\", 4, 0))" ++
          "/range-to(end-point(string-range(/r[1]/q[1], \"\", 1, 1))))")).toOption = none := by
      decide +kernel
    rw [hr] at hnone
    cases hnone
  · exact ⟨_, h⟩

/-! ## A text of letters

An address may number the place behind the last counted character, and that number has to be read
too. It cannot be when there are `2⁵³ - 1` characters, although each of these has a number that
can. -/

/-- The document `<r>aa…a</r>` with a text of `n` letters. -/
def letters (n : Nat) : Forest := ⟨#[
  { Record.bare .document with children := [⟨1⟩] },
  { Record.bare .element with name := some (.plain "r"), parent := some ⟨0⟩, children := [⟨2⟩] },
  { Record.bare .text with
    value := some (String.ofList (List.replicate n 'a')), parent := some ⟨1⟩ }]⟩

section Letters

variable (n : Nat)

theorem letters_rooted : Document.Rooted (letters n) ⟨⟨0⟩, .xml⟩ :=
  ⟨Forest.isWellFormed_iff.mp rfl, Nat.succ_pos 2, rfl, rfl⟩

theorem letters_lexable : Document.Lexable (letters n) ⟨⟨0⟩, .xml⟩ :=
  (letters_rooted n).lexable_of_check (by with_unfolding_all rfl)

theorem characters_letters : (letters n).characters ⟨2⟩ = List.replicate n 'a' :=
  String.toList_ofList

theorem length_letters : (letters n).length ⟨2⟩ = n := by
  show ((letters n).characters ⟨2⟩).length = n
  rw [characters_letters, List.length_replicate]

theorem visibleChars_letters :
    (letters n).visibleChars ⟨0⟩ = List.replicate n 'a' ∧
      (letters n).visibleChars ⟨1⟩ = List.replicate n 'a' := by
  have hshown : ((letters n).preorder ⟨0⟩).filter (letters n).isShown = [⟨2⟩] ∧
      ((letters n).preorder ⟨1⟩).filter (letters n).isShown = [⟨2⟩] := ⟨rfl, rfl⟩
  rw [Forest.visibleChars, Forest.visibleChars, Forest.places_eq, Forest.places_eq,
    Forest.map_char_placesIn, Forest.map_char_placesIn, hshown.1, hshown.2,
    List.flatMap_singleton, characters_letters]
  exact ⟨rfl, rfl⟩

/-- No node of the document shows more than its letters. -/
theorem length_visibleChars_letters {m : Node} (hm : (letters n).Within ⟨0⟩ m) :
    ((letters n).visibleChars m).length ≤ n := by
  have hd := letters_rooted n
  obtain ⟨before, after, h⟩ := hd.wellFormed.preorder_infix hd.has_root hm
  have hall := congrArg List.length (Forest.visibleChars_of_infix h)
  rw [(visibleChars_letters n).1, List.length_replicate, List.length_append,
    List.length_append] at hall
  omega

theorem letters_inText : Document.InText (letters n) ⟨⟨0⟩, .xml⟩ ⟨⟨2⟩, n⟩ ⟨1⟩ where
  within := Or.inr (show (⟨0⟩ : Node) ∈ [⟨1⟩, ⟨0⟩] by decide)
  isText := rfl
  parent := rfl
  isElement := rfl
  unmarked := rfl
  inBounds := Nat.le_of_eq (length_letters n).symm

/-- All letters count. -/
theorem countIn_letters : countIn (letters n) ⟨1⟩ ⟨⟨2⟩, n⟩ = n := by
  have hd := letters_rooted n
  have horder : (letters n).preorder ⟨1⟩ = [⟨1⟩] ++ ⟨2⟩ :: [] := rfl
  have hoffset : (letters n).textOffset ⟨1⟩ ⟨⟨2⟩, n⟩ = 0 + n :=
    hd.wellFormed.textOffset_of_preorder (hd.wellFormed.has_parent ⟨2⟩ ⟨1⟩ rfl) horder rfl
      (Nat.le_of_eq (length_letters n).symm)
  have hletters : ∀ c ∈ List.replicate n 'a', isBlank c = false := fun c hc => by
    rw [(List.mem_replicate.mp hc).2]
    rfl
  rw [countIn, hoffset, (visibleChars_letters n).2, Counter.countTo, Nat.zero_add,
    List.take_of_length_le (Nat.le_of_eq List.length_replicate),
    Counter.count_run_of_not_blank hletters, List.length_replicate]
  exact Nat.zero_add n

/-- The address of all that lies behind the letters. -/
theorem create_letters (hn : n + 1 = 9007199254740992) :
    create (letters n) ⟨⟨0⟩, .xml⟩ .standard (.range ⟨⟨⟨2⟩, n⟩, ⟨⟨0⟩, 1⟩⟩)
      = .ok ("xpointer(start-point(string-range(/r[1], \"\", 9007199254740992, 0))" ++
        "/range-to(/r[1]))") := by
  have hd := letters_rooted n
  have hin := letters_inText n
  have hstart : descendStart (letters n) ⟨⟨2⟩, n⟩ = .ok ⟨⟨2⟩, n⟩ := rfl
  have hleave : leaveMarkedEnd (letters n) ⟨⟨0⟩, 1⟩ = .ok ⟨⟨0⟩, 1⟩ := rfl
  have hstop : descendEnd (letters n) ⟨⟨0⟩, 1⟩ = .ok ⟨⟨0⟩, 1⟩ := rfl
  have hnext : (letters n).nextVisible? ⟨2⟩ = none := rfl
  have hsettle : settleStart (letters n) ⟨⟨2⟩, n⟩ = ⟨⟨2⟩, n⟩ := by
    rw [settleStart, if_pos (length_letters n).symm, hnext]
  have hcontainer : (letters n).isText ⟨0⟩ = false := rfl
  have hlast : elementBefore (letters n) ⟨⟨0⟩, 1⟩ = .ok ⟨1⟩ := rfl
  have hpath : elementPath (letters n) ⟨⟨0⟩, .xml⟩ .standard ⟨1⟩ = .ok "/r[1]" := by
    with_unfolding_all rfl
  rw [create_of_ne hin.within (.refl _ _) (by simp) rfl]
  simp only [between, leaveMarkedStart, leaveMarked_of_text hin, hleave, hstart, hstop, hin.isText,
    hcontainer, hsettle, startPoint_eq hd hin, startNumber, stringRange, countIn_letters, hn, hpath,
    hlast, bind, Except.bind, Except.map]
  decide

end Letters

/-- Behind as many characters as can be numbered, an address starts at a number that is read in no
document. -/
theorem not_resolve_elsewhere_letters :
    ¬ ∀ (f g : Forest) (d e : Document) (o o' : Options) (s : Selection) (address : String),
      d.Rooted f → d.Lexable f →
      (∀ n, f.Within d.root n → (f.visibleChars n).length < Binary64.exactBound) →
      create f d o s = .ok address → e.Rooted g →
      (∃ r, resolve g e o' address = .ok r) ∨
        ∃ cause, resolve g e o' address = .error (.unresolved cause) := by
  intro h
  -- the length stays a variable, so that the text is never written out
  obtain ⟨n, hn⟩ : ∃ n, n + 1 = 9007199254740992 := ⟨9007199254740991, rfl⟩
  have hresolve : resolve starred ⟨⟨0⟩, .xml⟩ .standard
      ("xpointer(start-point(string-range(/r[1], \"\", 9007199254740992, 0))" ++
        "/range-to(/r[1]))")
      = .error (.malformed (.notInteger .startOffset (.ofNat 9007199254740992))
        ", 0))/range-to(/r[1]))".toList) := by decide +kernel
  have hfew : n < Binary64.exactBound := Nat.lt_of_succ_le (Nat.le_of_eq hn)
  rcases h _ starred _ ⟨⟨0⟩, .xml⟩ _ .standard _ _ (letters_rooted n) (letters_lexable n)
    (fun m hm => Nat.lt_of_le_of_lt (length_visibleChars_letters n hm) hfew)
    (create_letters n hn) starred_rooted with ⟨r, hr⟩ | ⟨cause, hc⟩
  · rw [hresolve] at hr
    cases hr
  · rw [hresolve] at hc
    cases hc

end Address

end TreePointer
