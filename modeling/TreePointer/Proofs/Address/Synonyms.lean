import TreePointer.Proofs.Address.Elsewhere
import TreePointer.Proofs.Address.Failing

/-!
# Options change the address and not the place

The options tell whether a scheme is written and at which ids a path may start. Made by other
options, the address of a selection is another text, but whatever an address is made of stands for
the same place by all of them: an element for itself, a stretch for the stretch of its numbers. Only
a number that is too large to be read makes an address useless, and then by all options.

* `Synonymous`: two texts stand for the same place of the document.
* `elementPath_synonymous`, `stringRange_synonymous`, `between_synonymous`: what is made by two sets
  of options is synonymous.
* `create_options`: a selection has an address by all options or by none, and its addresses are
  resolved alike.
-/

namespace TreePointer

/-- What goes on alike from one computation agrees. -/
theorem Yields.bind_agrees {α β γ : Type} {Q : α → Prop} {S : β → γ → Prop} {x : Except Fault α}
    (hx : Yields Q x) {h : α → Except Fault β} {k : α → Except Fault γ}
    (hhk : ∀ a, Q a → Agrees S (h a) (k a)) : Agrees S (x >>= h) (x >>= k) := by
  cases hx with
  | ok ha => exact hhk _ ha
  | error _ => exact .error _

namespace Document.Rooted

variable {f : Forest} {d : Document} (hd : d.Rooted f)

include hd

/-- Numbers that do not go beyond the last place of a text stand for a stretch of it. -/
theorem exists_stringRange {n : Node} (hn : f.Within d.root n) {start length : Nat}
    (hstart : 1 ≤ start) (hplaces : start + length ≤ f.placeCount n) :
    ∃ r, f.stringRange n start length = .ok (some r) ∧ r.Sound f d := by
  obtain ⟨found, hfound, hsound⟩ := hd.stringRange_sound hn start length
  obtain ⟨found', hfound', hat⟩ := hd.wellFormed.stringRange_at hd.has_root hn start length
  rw [hfound, Except.ok.injEq] at hfound'
  subst hfound'
  have hstretch : (stretch? (f.visibleChars n) (max start 1) length).isSome = true := by
    have hcounted : Counter.start.indices (f.visibleChars n) = f.countedIndices n := rfl
    rw [Forest.placeCount] at hplaces
    rw [Nat.max_eq_left hstart, stretch?, hcounted]
    split
    · split
      · rfl
      · have hfirst : start - 1 < (f.countedIndices n).length := by omega
        rw [List.getElem?_eq_getElem hfirst]
        rfl
    · have hfirst : start - 1 < (f.countedIndices n).length := by omega
      have hlast : start + length - 2 < (f.countedIndices n).length := by omega
      rw [List.getElem?_eq_getElem hfirst, List.getElem?_eq_getElem hlast]
      rfl
  generalize stretch? _ _ _ = stretch at hat hstretch
  cases hat with
  | none => cases hstretch
  | some _ => exact ⟨_, hfound, hsound _ rfl⟩

end Document.Rooted

namespace Address

open Expression

variable {f : Forest} {d : Document} {o o' : Options} {a b : Boundary}

/-! ## Texts that stand for the same -/

/-- The text is an expression that finds a place, or one that cannot be evaluated. -/
def StandsFor (f : Forest) (d : Document) (text : String) : Option Location → Prop
  | some entry => Finds f d text.toList [entry]
  | none => Fails f d text.toList

/-- Both texts stand for one place of the document. If they cannot be evaluated, then there are more
places in some text than can be numbered. -/
def Synonymous (f : Forest) (d : Document) (text text' : String) : Prop :=
  ∃ place : Option Location, StandsFor f d text place ∧ StandsFor f d text' place ∧
    (∀ entry ∈ place, ∃ r, entry.toRange f = .ok r ∧ r.Sound f d) ∧
    (place = none → ∃ n, f.Within d.root n ∧ Binary64.exactBound ≤ f.placeCount n)

theorem Synonymous.of_finds {text text' : String} {entry : Location} {r : Range}
    (h : Finds f d text.toList [entry]) (h' : Finds f d text'.toList [entry])
    (hr : entry.toRange f = .ok r) (hs : r.Sound f d) : Synonymous f d text text' :=
  ⟨some entry, h, h', fun _ hentry => Option.mem_some_iff.mp hentry ▸ ⟨r, hr, hs⟩, nofun⟩

theorem Synonymous.of_range {text text' : String} {r : Range}
    (h : Finds f d text.toList [.range r]) (h' : Finds f d text'.toList [.range r])
    (hs : r.Sound f d) : Synonymous f d text text' :=
  .of_finds h h' rfl hs

/-- The ends of synonymous texts. -/
theorem Synonymous.point {text text' : String} (h : Synonymous f d text text') (toStart : Bool) :
    Synonymous f d (pointName toStart ++ "(" ++ text ++ ")")
      (pointName toStart ++ "(" ++ text' ++ ")") := by
  obtain ⟨place, h, h', hsound, hlarge⟩ := h
  cases place with
  | none =>
    refine ⟨none, ?_, ?_, nofun, hlarge⟩
    · rw [StandsFor, toList_point]
      exact Fails.point h toStart
    · rw [StandsFor, toList_point]
      exact Fails.point h' toStart
  | some entry =>
    obtain ⟨r, hr, hs⟩ := hsound entry rfl
    refine .of_range ?_ ?_ (hs.collapse toStart)
    · rw [toList_point]
      exact Finds.pointOf h hr toStart
    · rw [toList_point]
      exact Finds.pointOf h' hr toStart

/-- The ranges between synonymous texts. -/
theorem Synonymous.between (hd : d.Rooted f) {first first' last last' : String}
    (hfirst : Synonymous f d first first') (hlast : Synonymous f d last last') :
    Synonymous f d (first ++ "/range-to(" ++ last ++ ")")
      (first' ++ "/range-to(" ++ last' ++ ")") := by
  obtain ⟨place, h, h', hsound, hlarge⟩ := hfirst
  obtain ⟨target, ht, ht', htsound, htlarge⟩ := hlast
  cases place with
  | none =>
    refine ⟨none, ?_, ?_, nofun, hlarge⟩
    · rw [StandsFor, toList_rangeTo]
      exact Fails.append h _
    · rw [StandsFor, toList_rangeTo]
      exact Fails.append h' _
  | some entry =>
    obtain ⟨r, hr, hrs⟩ := hsound entry rfl
    cases target with
    | none =>
      refine ⟨none, ?_, ?_, nofun, htlarge⟩
      · rw [StandsFor, toList_rangeTo]
        exact Fails.rangeTo ht h hr
      · rw [StandsFor, toList_rangeTo]
        exact Fails.rangeTo ht' h' hr
    | some entry' =>
      obtain ⟨s, hs, hss⟩ := htsound entry' rfl
      obtain ⟨made, hmake, hmade⟩ := hd.make_sound hrs.start_within hrs.start_inBounds
        hss.stop_within hss.stop_inBounds
      obtain ⟨t, hreads⟩ := Finds.reads ht
      obtain ⟨t', hreads'⟩ := Finds.reads ht'
      refine .of_range ?_ ?_ hmade
      · rw [toList_rangeTo]
        exact Finds.between h hr (hreads _) hs hmake
      · rw [toList_rangeTo]
        exact Finds.between h' hr (hreads' _) hs hmake

/-- Synonymous texts are resolved alike, with the scheme or without. -/
theorem Synonymous.resolve {body body' : String} (h : Synonymous f d body body')
    (o₁ o₂ o₃ o₄ : Options) :
    (Address.resolve f d o₃ (wrapped o₁ body)).toOption
      = (Address.resolve f d o₄ (wrapped o₂ body')).toOption := by
  obtain ⟨place, h, h', hsound, -⟩ := h
  cases place with
  | none =>
    obtain ⟨e, he⟩ := Fails.resolve h o₁ o₃
    obtain ⟨e', he'⟩ := Fails.resolve h' o₂ o₄
    rw [he, he']
    rfl
  | some entry =>
    obtain ⟨r, hr, -⟩ := hsound entry rfl
    rw [Finds.resolve h hr, Finds.resolve h' hr]

/-! ## What two sets of options make -/

section Made

variable (hd : d.Rooted f) (hsole : d.IsSole f) (hlex : d.Lexable f) (hstar : d.NoWildcard f)

include hd

/-- The address of an ignored element fails, as it is not among the children it would be counted
with. -/
theorem elementPath_of_ignored_eq {n : Node} (hn : IsElementOf f d n) (hi : f.isIgnored n = true)
    (o : Options) :
    elementPath f d o n = tagOf f d n >>= fun tag => .error (.internal (.notAmongSiblings tag)) := by
  obtain ⟨p, hp⟩ := hd.exists_effectiveParent? hn.1 (hd.ne_root_of_isElement hn.2)
  rw [Forest.effectiveParent?_eq, List.head?_eq_some_iff] at hp
  obtain ⟨above, habove⟩ := hp
  have hkind := Forest.kind_ne_document_of_isElement hn.2
  have hreference : idReference? f d n = none := by
    rw [idReference?, if_pos (Or.inr hi)]
    rfl
  have hposition : ∀ tag, f.positionOf? p n (d.hasTag f tag) = none := fun tag => by
    refine Forest.positionOf?_of_not_mem fun hmem => ?_
    rw [Forest.not_isIgnored_of_mem_spliced hmem] at hi
    cases hi
  rw [elementPath, if_neg hkind, hreference, ite_self, habove]
  simp only [pathThrough, pathStep, hposition]
  cases tagOf f d n <;> rfl

include hlex

/-- An ignored element has no address, by no options. -/
theorem elementPath_of_ignored {n : Node} (hn : IsElementOf f d n) (hi : f.isIgnored n = true) :
    ∃ tag, ∀ o, elementPath f d o n = .error (.internal (.notAmongSiblings tag)) := by
  obtain ⟨tag, htag, -⟩ := hlex.tag n hn.1 hn.2
  refine ⟨tag, fun o => ?_⟩
  simp only [elementPath_of_ignored_eq hd hn hi, tagOf, htag, bind, Except.bind]

include hsole hstar

/-- **The addresses of an element** find it by all options, unless it has none. -/
theorem elementPath_synonymous {n : Node} (hn : IsElementOf f d n) :
    Agrees (fun text text' => Finds f d text.toList [.node n] ∧ Finds f d text'.toList [.node n])
      (elementPath f d o n) (elementPath f d o' n) := by
  by_cases hi : f.isIgnored n = true
  · obtain ⟨tag, hnone⟩ := elementPath_of_ignored hd hlex hn hi
    rw [hnone, hnone]
    exact .error _
  · rw [Bool.not_eq_true] at hi
    obtain ⟨path, hpath, hfinds⟩ := elementPath_finds (o := o) hd hsole hlex hstar hn.1 hn.2 hi
    obtain ⟨path', hpath', hfinds'⟩ := elementPath_finds (o := o') hd hsole hlex hstar hn.1 hn.2 hi
    rw [hpath, hpath']
    exact .ok ⟨hfinds, hfinds'⟩

theorem element_synonymous {n : Node} (hn : IsElementOf f d n) :
    Agrees (Synonymous f d) (elementPath f d o n) (elementPath f d o' n) := by
  obtain ⟨r, hr, hs⟩ := hd.around_below hn.1 (hd.ne_root_of_isElement hn.2)
  exact (elementPath_synonymous hd hsole hlex hstar hn).mono fun _ _ ⟨h, h'⟩ =>
    .of_finds h h' hr hs

/-- A stretch of the text of an element, with numbers that do not go beyond its last place. -/
theorem stringRange_synonymous {n : Node} (hn : IsElementOf f d n) {start length : Nat}
    (hstart : 1 ≤ start) (hplaces : start + length ≤ f.placeCount n) :
    Agrees (Synonymous f d) (stringRange f d o n start length)
      (stringRange f d o' n start length) := by
  refine (elementPath_synonymous hd hsole hlex hstar hn).bind fun path path' hpaths => .ok ?_
  obtain ⟨h, h'⟩ := hpaths
  by_cases hread : start < Binary64.exactBound ∧ length < Binary64.exactBound
  · obtain ⟨r, hr, hs⟩ := hd.exists_stringRange hn.1 hstart hplaces
    have hranges : stringRanges f start length [.node n] = .ok [.range r] := by
      simp [stringRanges, hr, bind, Except.bind]
    refine .of_range ?_ ?_ hs
    · rw [toList_stringRange]
      exact h.stretch hread.1 hread.2 hranges
    · rw [toList_stringRange]
      exact h'.stretch hread.1 hread.2 hranges
  · have hlarge : Binary64.exactBound ≤ start ∨ Binary64.exactBound ≤ length := by omega
    refine ⟨none, ?_, ?_, fun _ h => absurd h (by simp), fun _ => ⟨n, hn.1, by omega⟩⟩
    · rw [StandsFor, toList_stringRange]
      exact h.stretch_fails hlarge
    · rw [StandsFor, toList_stringRange]
      exact h'.stretch_fails hlarge

omit hd hsole hlex hstar in
/-- The number before a boundary is no larger than that of the last place. -/
theorem countBefore_lt (n t : Node) (i : Nat) :
    Yields (fun k => k < f.placeCount n) (f.countBefore n t i) :=
  .of_forall fun _ h => Nat.lt_succ_of_le (Forest.countBefore_le h)

theorem startPoint_synonymous (hb : InDocument f d b) :
    Agrees (Synonymous f d) (startPoint f d o b) (startPoint f d o' b) := by
  refine (elementAbove_spec hd hb).bind_agrees fun above habove => ?_
  refine (countBefore_lt above b.container b.offset).bind_agrees fun before hbefore => ?_
  exact (stringRange_synonymous hd hsole hlex hstar habove (Nat.le_add_left 1 before)
    hbefore).bind fun text text' h => .ok (h.point true)

theorem endPoint_synonymous (hb : InDocument f d b) :
    Agrees (Synonymous f d) (endPoint f d o b) (endPoint f d o' b) := by
  refine (elementAbove_spec hd hb).bind_agrees fun above habove => ?_
  refine (countBefore_lt above b.container b.offset).bind_agrees fun before hbefore => ?_
  dsimp only
  split
  · exact (stringRange_synonymous hd hsole hlex hstar habove (Nat.le_refl 1)
      (Nat.le_add_left 1 _)).bind fun text text' h => .ok (h.point false)
  · next hne =>
    exact (stringRange_synonymous hd hsole hlex hstar habove (Nat.pos_of_ne_zero hne)
      hbefore).bind fun text text' h => .ok (h.point false)

theorem textStretch_synonymous (ha : InDocument f d a) :
    Agrees (Synonymous f d) (textStretch f d o a b) (textStretch f d o' a b) := by
  refine (elementAbove_spec hd ha).bind_agrees fun above habove => ?_
  refine (countBefore_lt above a.container a.offset).bind_agrees fun before hbefore => ?_
  refine (countBefore_lt above b.container b.offset).bind_agrees fun through hthrough => ?_
  exact stringRange_synonymous hd hsole hlex hstar habove (Nat.le_add_left 1 before) (by omega)

theorem betweenTexts_synonymous (ha : InDocument f d a) (hb : InDocument f d b) :
    Agrees (Synonymous f d) (betweenTexts f d o a b) (betweenTexts f d o' a b) := by
  have ha' := settleStart_within hd ha
  have hb' := settleEnd_within hd hb
  unfold betweenTexts
  refine Yields.bind_agrees (Q := fun _ => True) (.of_forall fun _ _ => trivial) fun order _ => ?_
  split
  · exact textStretch_synonymous hd hsole hlex hstar ha'
  · refine (elementAbove_spec hd ha').bind_agrees fun _ _ => ?_
    refine (elementAbove_spec hd hb').bind_agrees fun _ _ => ?_
    split
    · exact textStretch_synonymous hd hsole hlex hstar ha'
    · refine (startPoint_synonymous hd hsole hlex hstar ha').bind fun first first' hfirst => ?_
      exact (endPoint_synonymous hd hsole hlex hstar hb').bind fun last last' hlast =>
        .ok (hfirst.between hd hlast)

/-- **The expressions for a stretch** are synonymous. -/
theorem between_synonymous (ha : InDocument f d a) (hb : InDocument f d b) :
    Agrees (Synonymous f d) (between f d o a b) (between f d o' a b) := by
  refine (leaveMarkedEnd_within hd hb).bind_agrees fun b hb => ?_
  refine (leaveMarkedStart_within hd ha).bind_agrees fun a ha => ?_
  refine (descendStart_within hd ha).bind_agrees fun a ha => ?_
  refine (descendEnd_within hd hb).bind_agrees fun b hb => ?_
  have hpath : ∀ n, IsElementOf f d n →
      Agrees (Synonymous f d) (elementPath f d o n) (elementPath f d o' n) :=
    fun n hn => element_synonymous hd hsole hlex hstar hn
  split
  · exact betweenTexts_synonymous hd hsole hlex hstar ha hb
  · refine (startPoint_synonymous hd hsole hlex hstar (settleStart_within hd ha)).bind
      fun first first' hfirst => ?_
    refine (elementBefore_spec hd hb).bind_agrees fun e he => ?_
    exact (hpath e he).bind fun last last' hlast => .ok (hfirst.between hd hlast)
  · refine (elementAfter_spec hd ha).bind_agrees fun e he => ?_
    refine (hpath e he).bind fun first first' hfirst => ?_
    exact (endPoint_synonymous hd hsole hlex hstar (settleEnd_within hd hb)).bind
      fun last last' hlast => .ok (hfirst.between hd hlast)
  · refine (elementAfter_spec hd ha).bind_agrees fun e he => ?_
    refine (elementBefore_spec hd hb).bind_agrees fun e' he' => ?_
    refine (hpath e he).bind fun first first' hfirst => ?_
    split
    · exact .ok hfirst
    · exact (hpath e' he').bind fun last last' hlast => .ok (hfirst.between hd hlast)

/-- **Options never change what an address designates.** A selection has an address by all options,
or by none and for the same reason; and whatever its addresses are resolved by, they give the same
range or none at all. -/
theorem create_options (s : Selection) (o₁ o₂ : Options) :
    Agrees (fun address address' => ∀ o o',
        (resolve f d o address).toOption = (resolve f d o' address').toOption)
      (create f d o₁ s) (create f d o₂ s) := by
  refine Yields.bind_agrees (Q := fun _ => True) (.of_forall fun _ _ => trivial)
    fun ⟨a, b⟩ _ => ?_
  dsimp only
  split
  · next hin =>
    split
    · refine (wholeDocument_phrase hd hlex).bind_agrees fun body ⟨p, hp, hbody⟩ => .ok ?_
      obtain ⟨found, -, hresolve⟩ := Phrase.Locates.resolve (hbody ▸ Phrase.locates hd hp)
      intro o o'
      have h := hresolve o₁ o
      have h' := hresolve o₂ o'
      unfold wrapped at h h'
      rw [h, h']
      cases found <;> rfl
    · exact (between_synonymous hd hsole hlex hstar (contains_iff.mp hin.1)
        (contains_iff.mp hin.2)).bind fun body body' h => .ok fun o o' => h.resolve o₁ o₂ o o'
  · exact .error _

end Made

/-- The paragraph is named by its id or by its path; the note in it is hidden either way. -/
theorem create_options_noted :
    Agrees (fun address address' => ∀ o o',
        (resolve noted ⟨⟨0⟩, .xml⟩ o address).toOption
          = (resolve noted ⟨⟨0⟩, .xml⟩ o' address').toOption)
      (create noted ⟨⟨0⟩, .xml⟩ .standard (.anchorFocus ⟨⟨8⟩, 1⟩ ⟨⟨6⟩, 1⟩))
      (create noted ⟨⟨0⟩, .xml⟩ ⟨false, false, false, false⟩ (.anchorFocus ⟨⟨8⟩, 1⟩ ⟨⟨6⟩, 1⟩)) :=
  create_options noted_rooted (noted_rooted.isSole_of_check (by decide))
    (noted_rooted.lexable_of_check (by decide))
    (noted_rooted.noWildcard_of_check (by decide)) _ _ _

/-! ## An element that is named like the wildcard, with an id -/

/-- The document `<r><a>x</a><* id="i">y</*></r>`. -/
def starredId : Forest := ⟨#[
  { Record.bare .document with children := [⟨1⟩] },
  { Record.bare .element with
    name := some (.plain "r"), parent := some ⟨0⟩, children := [⟨2⟩, ⟨4⟩] },
  { Record.bare .element with
    name := some (.plain "a"), parent := some ⟨1⟩, children := [⟨3⟩] },
  { Record.bare .text with value := some "x", parent := some ⟨2⟩ },
  { Record.bare .element with
    name := some (.plain "*"), attributes := [⟨.plain "id", "i"⟩], parent := some ⟨1⟩,
    children := [⟨5⟩] },
  { Record.bare .text with value := some "y", parent := some ⟨4⟩ }]⟩

theorem starredId_rooted : Document.Rooted starredId ⟨⟨0⟩, .xml⟩ := by decide

/-- By its id the element is found again, by its path another one is. -/
theorem not_create_options_starred :
    ¬ ∀ (f : Forest) (d : Document) (a b : Boundary) (o₁ o₂ : Options),
      d.Rooted f → d.IsSole f → d.Lexable f →
      (∀ n, f.Within d.root n → f.placeCount n < Binary64.exactBound) →
      f.Within d.root a.container → a.InBounds f → f.Within d.root b.container → b.InBounds f →
      Agrees (fun address address' => ∀ o o',
          (resolve f d o address).toOption = (resolve f d o' address').toOption)
        (create f d o₁ (.anchorFocus a b)) (create f d o₂ (.anchorFocus a b)) := by
  intro h
  have hagrees := h starredId ⟨⟨0⟩, .xml⟩ ⟨⟨5⟩, 0⟩ ⟨⟨5⟩, 1⟩ .standard ⟨true, false, false, true⟩
    starredId_rooted (starredId_rooted.isSole_of_check (by decide))
    (starredId_rooted.lexable_of_check (by decide))
    (starredId_rooted.forall_within (by decide)) (by decide) (by decide)
    (by decide) (by decide)
  have hid : create starredId ⟨⟨0⟩, .xml⟩ .standard (.anchorFocus ⟨⟨5⟩, 0⟩ ⟨⟨5⟩, 1⟩)
      = .ok "xpointer(string-range(id(\"i\"), \"\", 1, 1))" := by decide
  have hpath : create starredId ⟨⟨0⟩, .xml⟩ ⟨true, false, false, true⟩
      (.anchorFocus ⟨⟨5⟩, 0⟩ ⟨⟨5⟩, 1⟩)
      = .ok "xpointer(string-range(/r[1]/*[1], \"\", 1, 1))" := by decide
  rw [hid, hpath] at hagrees
  cases hagrees with
  | ok hresolve =>
    have hboth := hresolve .standard .standard
    revert hboth
    decide +kernel

end Address

end TreePointer
