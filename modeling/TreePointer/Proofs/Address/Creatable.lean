import TreePointer.Proofs.Address.Synonyms
import TreePointer.Proofs.Address.TextPreserved

/-!
# Which selections have an address

Before an address is made, the ends of a selection are moved off decoration and onto texts or
elements. That always works out, but it does not always arrive at something that can be named: there
may be nothing but comments left, or an element that is ignored because a comment stands before it.
Such a selection has no address, and the fault that is given calls it inconsistent, which it is not.

* `adjustStart`, `adjustStop`: where the ends of a selection are moved to.
* `AnchoredStart`, `AnchoredStop`: the end is moved to where it can be named.
* `exists_between`, `between_internal`: an address between two ends, or an internal fault.
* `create_iff_anchored`: just the selections of a point and those with anchored ends have an
  address, and it can be resolved.
* `not_create_commented`: a selection around a comment is valid and has no address.
-/

namespace TreePointer

/-! ## Walks -/

/-- What is found on a walk meets its condition. -/
theorem Forest.accept_of_firstOnWalk {step : Node → Option Node} {accept : Node → Bool} {k : Nat}
    {start : Option Node} {n : Node} (h : firstOnWalk step accept k start = some n) :
    accept n = true := by
  induction k generalizing start with
  | zero => cases h
  | succ k ih =>
    cases start with
    | none => cases h
    | some m =>
      rw [firstOnWalk] at h
      split at h
      · next hm =>
        cases h
        exact hm
      · exact ih h

namespace Forest.WellFormed

variable {f : Forest} {n m : Node} (wf : f.WellFormed)

include wf

theorem exists_parent_of_childAt {p : Node} {i : Nat} (h : f.childAt? p i = some n) :
    ∃ q, f.parent n = some q :=
  ⟨p, wf.parent_of_mem (List.mem_of_getElem? h)⟩

/-- The next sibling of a node has a parent. -/
theorem exists_parent_of_nextSibling (h : f.nextSibling? n = some m) :
    ∃ p, f.parent m = some p := by
  unfold nextSibling? at h
  obtain ⟨i, -, h⟩ := Option.bind_eq_some_iff.mp h
  obtain ⟨p, -, h⟩ := Option.bind_eq_some_iff.mp h
  exact wf.exists_parent_of_childAt h

theorem exists_parent_of_previousSibling (h : f.previousSibling? n = some m) :
    ∃ p, f.parent m = some p := by
  unfold previousSibling? at h
  obtain ⟨i, -, h⟩ := Option.bind_eq_some_iff.mp h
  cases i with
  | zero => cases h
  | succ i =>
    obtain ⟨p, -, h⟩ := Option.bind_eq_some_iff.mp h
    exact wf.exists_parent_of_childAt h

theorem exists_parent_of_following (h : f.following? n = some m) : ∃ p, f.parent m = some p := by
  rw [following?, Option.orElse_eq_orElse, Option.orElse_eq_or, Option.or_eq_some_iff] at h
  rcases h with h | ⟨-, h⟩
  · exact wf.exists_parent_of_nextSibling h
  · rw [findUp?_eq] at h
    obtain ⟨a, -, h⟩ := List.exists_of_findSome?_eq_some h
    exact wf.exists_parent_of_nextSibling h

theorem exists_parent_of_preceding (h : f.preceding? n = some m) : ∃ p, f.parent m = some p := by
  rw [preceding?, Option.orElse_eq_orElse, Option.orElse_eq_or, Option.or_eq_some_iff] at h
  rcases h with h | ⟨-, h⟩
  · exact wf.exists_parent_of_previousSibling h
  · rw [findUp?_eq] at h
    obtain ⟨a, -, h⟩ := List.exists_of_findSome?_eq_some h
    exact wf.exists_parent_of_previousSibling h

/-- The first leaf of a node with a parent has one. -/
theorem exists_parent_of_firstLeaf (h : ∃ p, f.parent n = some p) :
    ∃ p, f.parent (f.firstLeaf n) = some p := by
  unfold firstLeaf
  generalize f.size = k
  induction k generalizing n with
  | zero => exact h
  | succ k ih =>
    rw [firstLeafWithin]
    split
    · next c hc => exact ih ⟨n, wf.parent_of_mem (List.mem_of_head? hc)⟩
    · exact h

/-- A walk past decoration that starts below a parent ends below one. -/
theorem exists_parent_of_nextUnmarked (hn : ∃ p, f.parent n = some p)
    (h : f.nextUnmarked? n = some m) : ∃ p, f.parent m = some p := by
  refine of_firstOnWalk (P := fun m => ∃ p, f.parent m = some p) (fun m k hm _ hstep => ?_)
    (fun m hm => ?_) h
  · obtain ⟨c, hc, rfl⟩ := Option.map_eq_some_iff.mp hstep
    exact wf.exists_parent_of_firstLeaf (wf.exists_parent_of_following hc)
  · rwa [← Option.mem_some_iff.mp hm]

end Forest.WellFormed

namespace Address

open Expression

variable {f : Forest} {d : Document} {o : Options} {a b : Boundary} {n : Node}

/-! ## Adjusted ends -/

/-- A start, moved off decoration and onto content. -/
def adjustStart (f : Forest) (b : Boundary) : Except Fault Boundary := do
  descendStart f (← leaveMarkedStart f b)

/-- An end, moved off decoration and onto content. -/
def adjustStop (f : Forest) (b : Boundary) : Except Fault Boundary := do
  descendEnd f (← leaveMarkedEnd f b)

section Adjusted

variable (wf : f.WellFormed)

include wf

theorem exists_placeOf (h : ∃ p, f.parent n = some p) :
    ∃ place, Boundary.placeOf f n = .ok place := by
  obtain ⟨p, hp⟩ := h
  rw [Boundary.placeOf, hp]
  simp only [wf.childIndex?_eq_slot (wf.mem_of_parent hp)]
  exact ⟨_, rfl⟩

theorem exists_entryPoint (h : ∃ p, f.parent n = some p) : ∃ b, entryPoint f n = .ok b := by
  obtain ⟨place, hplace⟩ := exists_placeOf wf h
  unfold entryPoint Boundary.before
  rw [hplace]
  split
  · exact ⟨_, rfl⟩
  · exact ⟨_, rfl⟩

theorem exists_exitPoint (h : ∃ p, f.parent n = some p) : ∃ b, exitPoint f n = .ok b := by
  obtain ⟨place, hplace⟩ := exists_placeOf wf h
  unfold exitPoint Boundary.after
  rw [hplace]
  split
  · exact ⟨_, rfl⟩
  · exact ⟨_, rfl⟩

theorem exists_descendStart (b : Boundary) : ∃ b', descendStart f b = .ok b' := by
  unfold descendStart
  split
  · exact ⟨_, rfl⟩
  · split
    · exact ⟨_, rfl⟩
    · split
      · next n hn => exact exists_entryPoint wf (wf.exists_parent_of_following hn)
      · exact ⟨_, rfl⟩

theorem exists_descendEnd (b : Boundary) : ∃ b', descendEnd f b = .ok b' := by
  unfold descendEnd
  split
  · exact ⟨_, rfl⟩
  · split
    · exact ⟨_, rfl⟩
    · split
      · next n hn => exact exists_exitPoint wf (wf.exists_parent_of_preceding hn)
      · exact ⟨_, rfl⟩

theorem exists_leaveMarked (hb : f.isElement b.container = true → ∃ p, f.parent b.container = some p)
    {beside : Option Node} (hbeside : ∀ n ∈ beside, ∃ p, f.parent n = some p) :
    ∃ b', leaveMarked f b beside = .ok b' := by
  unfold leaveMarked
  split
  · exact ⟨_, rfl⟩
  · next helement =>
    dsimp only
    split
    · next n hn =>
      obtain ⟨m, hm, hnext⟩ := Option.bind_eq_some_iff.mp hn
      refine exists_entryPoint wf (wf.exists_parent_of_nextUnmarked ?_ hnext)
      split at hm
      · cases hm
        exact hb (Decidable.not_not.mp helement)
      · exact hbeside m (Option.filter_eq_some_iff.mp hm).1
    · exact ⟨_, rfl⟩

end Adjusted

section Ends

variable (hd : d.Rooted f)

include hd

theorem exists_parent_of_isElement (hn : f.Within d.root n) (h : f.isElement n = true) :
    ∃ p, f.parent n = some p :=
  (hd.wellFormed.exists_parent hn (hd.ne_root_of_isElement h)).imp fun _ hp => hp.1

/-- **A start can be adjusted**, and stays in the document. -/
theorem exists_adjustStart (hb : InDocument f d b) :
    ∃ b', adjustStart f b = .ok b' ∧ InDocument f d b' := by
  have wf := hd.wellFormed
  obtain ⟨left, hleft⟩ : ∃ b', leaveMarkedStart f b = .ok b' :=
    exists_leaveMarked wf (exists_parent_of_isElement hd hb) fun n hn =>
      wf.exists_parent_of_childAt hn
  obtain ⟨b', hb'⟩ := exists_descendStart wf left
  have hwithin : Yields (InDocument f d) (adjustStart f b) :=
    (leaveMarkedStart_within hd hb).bind fun c hc => descendStart_within hd hc
  have hadjust : adjustStart f b = .ok b' := by
    simp only [adjustStart, hleft, hb', bind, Except.bind]
  exact ⟨b', hadjust, hwithin.of_eq_ok hadjust⟩

/-- **An end can be adjusted**, and stays in the document. -/
theorem exists_adjustStop (hb : InDocument f d b) :
    ∃ b', adjustStop f b = .ok b' ∧ InDocument f d b' := by
  have wf := hd.wellFormed
  obtain ⟨left, hleft⟩ : ∃ b', leaveMarkedEnd f b = .ok b' := by
    refine exists_leaveMarked wf (exists_parent_of_isElement hd hb) fun n hn => ?_
    split at hn
    · cases hn
    · exact wf.exists_parent_of_childAt hn
  obtain ⟨b', hb'⟩ := exists_descendEnd wf left
  have hwithin : Yields (InDocument f d) (adjustStop f b) :=
    (leaveMarkedEnd_within hd hb).bind fun c hc => descendEnd_within hd hc
  have hadjust : adjustStop f b = .ok b' := by
    simp only [adjustStop, hleft, hb', bind, Except.bind]
  exact ⟨b', hadjust, hwithin.of_eq_ok hadjust⟩

/-! ## Texts -/

variable (hroot : ∀ e ∈ f.children d.root, f.isIgnored e = false)

include hroot

/-- What is below an element of the document has an element for its effective parent, if the
elements at the top are not ignored. -/
theorem effectiveParent?_ne_root {q p : Node} (hn : f.Within d.root n) (hq : f.parent n = some q)
    (hne : q ≠ d.root) (hp : f.effectiveParent? n = some p) : p ≠ d.root := by
  have wf := hd.wellFormed
  induction n using wf.up_ends.induction generalizing q with
  | _ n ih =>
    have hnr : n ≠ d.root := by
      rintro rfl
      rw [hd.parent_root] at hq
      cases hq
    have hqr := wf.within_parent hn hnr hq
    rw [wf.effectiveParent?_of_parent hq] at hp
    split at hp
    · next hi =>
      obtain ⟨q', hq', -⟩ := wf.exists_parent hqr hne
      refine ih q hq hqr hq' ?_ hp
      rintro rfl
      rw [hroot q (wf.mem_of_parent hq')] at hi
      cases hi
    · cases hp
      exact hne

variable (hsole : d.IsSole f) (hlex : d.Lexable f) (htext : d.TextInElements f)

include hsole htext

/-- The place of a text is counted in an element above it, which has an address. -/
theorem elementAbove_of_text {t : Node} (ht : f.Within d.root t) (h : f.isText t = true) :
    ∃ p, elementAbove f d t = .ok p ∧ IsElementOf f d p ∧ f.isIgnored p = false ∧
      p ∈ f.ancestors t := by
  obtain ⟨q, hq, -⟩ := hd.exists_parent_of_isText ht h
  have hqroot : q ≠ d.root := hd.ne_root_of_isElement (htext t q ht h hq)
  have hroot' : t ≠ d.root := by
    rintro rfl
    rw [hd.parent_root] at hq
    cases hq
  obtain ⟨p, hp⟩ := hd.exists_effectiveParent? ht hroot'
  obtain ⟨hpr, hi, helement⟩ := hd.effectiveParent?_spec hsole ht hp
  have hpe := helement.resolve_left (effectiveParent?_ne_root hd hroot ht hq hqroot hp)
  refine ⟨p, ?_, ⟨hpr, hpe⟩, hi, (f.effectiveParent?_spec hp).1⟩
  simp only [elementAbove, hp, hpe, if_true]

include hlex

/-- The place of a text has a number in that element, and all stretches there have an expression. -/
theorem exists_counted (hb : InDocument f d b) (h : f.isText b.container = true) :
    ∃ p k, elementAbove f d b.container = .ok p ∧
      f.countBefore p b.container b.offset = .ok k ∧
      ∀ start length, ∃ text, stringRange f d o p start length = .ok text := by
  obtain ⟨p, habove, hp, hi, hmem⟩ := elementAbove_of_text hd hroot hsole htext hb h
  have hpf := hd.wellFormed.has_of_within hd.has_root hp.1
  obtain ⟨k, hk⟩ := Forest.exists_countBefore hd.wellFormed hpf hmem b.offset
  obtain ⟨path, hpath⟩ := exists_stringRange (o := o) hd hsole hlex.named hp.1 hp.2 hi
  exact ⟨p, k, habove, hk, fun start length => ⟨_, hpath start length⟩⟩

theorem exists_startPoint (hb : InDocument f d b) (h : f.isText b.container = true) :
    ∃ text, startPoint f d o b = .ok text := by
  obtain ⟨p, k, habove, hk, hstretch⟩ := exists_counted (o := o) hd hroot hsole hlex htext hb h
  obtain ⟨point, hpoint⟩ := hstretch (k + 1) 0
  simp only [startPoint, habove, hk, hpoint, bind, Except.bind]
  exact ⟨_, rfl⟩

theorem exists_endPoint (hb : InDocument f d b) (h : f.isText b.container = true) :
    ∃ text, endPoint f d o b = .ok text := by
  obtain ⟨p, k, habove, hk, hstretch⟩ := exists_counted (o := o) hd hroot hsole hlex htext hb h
  obtain ⟨first, hfirst⟩ := hstretch 1 0
  obtain ⟨point, hpoint⟩ := hstretch k 1
  simp only [endPoint, habove, hk, hfirst, hpoint, bind, Except.bind]
  split
  · exact ⟨_, rfl⟩
  · exact ⟨_, rfl⟩

/-- A stretch between two texts that are counted in one element. -/
theorem exists_textStretch {p : Node} (ha : InDocument f d a) (h : f.isText a.container = true)
    (habove : elementAbove f d a.container = .ok p) (hb : p ∈ f.ancestors b.container) :
    ∃ text, textStretch f d o a b = .ok text := by
  obtain ⟨p', k, habove', hk, hstretch⟩ := exists_counted (o := o) hd hroot hsole hlex htext ha h
  rw [habove, Except.ok.injEq] at habove'
  subst habove'
  have hpf := hd.wellFormed.has_of_mem hb
  obtain ⟨m, hm⟩ := Forest.exists_countBefore hd.wellFormed hpf hb b.offset
  obtain ⟨text, htext⟩ := hstretch (k + 1) (m - k)
  simp only [textStretch, habove, hk, hm, htext, bind, Except.bind]
  exact ⟨text, rfl⟩

omit hd hroot hsole htext hlex in
theorem isText_settleStart (h : f.isText b.container = true) :
    f.isText (settleStart f b).container = true := by
  unfold settleStart
  split
  · split
    · next t ht =>
      exact Forest.isText_of_isShown (Forest.isShown_of_isVisible (Forest.accept_of_firstOnWalk ht))
    · exact h
  · exact h

omit hd hroot hsole htext hlex in
theorem isText_settleEnd (h : f.isText b.container = true) :
    f.isText (settleEnd f b).container = true := by
  unfold settleEnd
  split
  · split
    · next t ht =>
      exact Forest.isText_of_isShown (Forest.isShown_of_isVisible (Forest.accept_of_firstOnWalk ht))
    · exact h
  · exact h

/-- **Between two texts** of the document there always is an expression. -/
theorem exists_betweenTexts_of_text (ha : InDocument f d a) (hta : f.isText a.container = true)
    (hb : InDocument f d b) (htb : f.isText b.container = true) :
    ∃ text, betweenTexts f d o a b = .ok text := by
  have ha' := settleStart_within hd ha
  have hb' := settleEnd_within hd hb
  have hta' := isText_settleStart hta
  have htb' := isText_settleEnd htb
  obtain ⟨p, hp, -, -, hmem⟩ := elementAbove_of_text hd hroot hsole htext ha' hta'
  obtain ⟨q, hq, -, -, hmem'⟩ := elementAbove_of_text hd hroot hsole htext hb' htb'
  obtain ⟨order, horder⟩ := hd.wellFormed.exists_compare ha' hb'
  have hstretch : ∀ c : Boundary, p ∈ f.ancestors c.container →
      ∃ text, textStretch f d o (settleStart f a) c = .ok text := fun c hc =>
    exists_textStretch hd hroot hsole hlex htext ha' hta' hp hc
  simp only [betweenTexts, horder, bind, Except.bind]
  split
  · exact hstretch _ hmem
  · simp only [hp, hq]
    split
    · next hsame =>
      refine hstretch _ ?_
      rcases hsame with hsame | rfl
      · rwa [← hsame]
      · exact hmem'
    · obtain ⟨first, hfirst⟩ := exists_startPoint (o := o) hd hroot hsole hlex htext ha' hta'
      obtain ⟨last, hlast⟩ := exists_endPoint (o := o) hd hroot hsole hlex htext hb' htb'
      simp only [hfirst, hlast]
      exact ⟨_, rfl⟩

end Ends

/-! ## Anchored ends -/

/-- The start can be named: it is in a text, or the next element after it can be. -/
def NameableStart (f : Forest) (b : Boundary) : Prop :=
  f.isText b.container = true ∨ ∃ e, elementAfter f b = .ok e ∧ f.isIgnored e = false

/-- The end can be named: it is in a text, or the last element before it can be. -/
def NameableStop (f : Forest) (b : Boundary) : Prop :=
  f.isText b.container = true ∨ ∃ e, elementBefore f b = .ok e ∧ f.isIgnored e = false

/-- The start is moved to where it can be named. -/
def AnchoredStart (f : Forest) (b : Boundary) : Prop :=
  ∃ b', adjustStart f b = .ok b' ∧ NameableStart f b'

/-- The end is moved to where it can be named. -/
def AnchoredStop (f : Forest) (b : Boundary) : Prop :=
  ∃ b', adjustStop f b = .ok b' ∧ NameableStop f b'

/-- The fault says that the tree or the selection contradicts itself. -/
abbrev IsInternal (e : Fault) : Prop := e.kind = .internal

section Between

variable (hd : d.Rooted f) (hsole : d.IsSole f) (hlex : d.Lexable f)

include hd

theorem elementAfter_internal (hb : InDocument f d b) :
    Gives IsInternal (IsElementOf f d) (elementAfter f b) := by
  have hspec := elementAfter_spec hd hb
  unfold elementAfter at hspec ⊢
  split at hspec
  · cases hspec with
    | ok h => exact .ok h
  · exact .error rfl

theorem elementBefore_internal (hb : InDocument f d b) :
    Gives IsInternal (IsElementOf f d) (elementBefore f b) := by
  have hspec := elementBefore_spec hd hb
  unfold elementBefore at hspec ⊢
  split at hspec
  · cases hspec with
    | ok h => exact .ok h
  · exact .error rfl

include hsole hlex

/-- An element has an address if it is not ignored. -/
theorem elementPath_internal (hn : IsElementOf f d n) :
    Gives IsInternal (fun _ => f.isIgnored n = false) (elementPath f d o n) := by
  by_cases hi : f.isIgnored n = true
  · obtain ⟨tag, hnone⟩ := elementPath_of_ignored hd hlex hn hi
    rw [hnone]
    exact .error rfl
  · rw [Bool.not_eq_true] at hi
    obtain ⟨path, hpath⟩ := exists_elementPath (o := o) hd hsole hlex.named hn.1 hn.2 hi
    rw [hpath]
    exact .ok hi

/-- A start that can be named, outside of texts, has the element after it for its address. -/
theorem NameableStart.exists_path (h : NameableStart f b) (hb : InDocument f d b)
    (htb : f.isText b.container = false) :
    ∃ e path, elementAfter f b = .ok e ∧ elementPath f d o e = .ok path := by
  obtain ⟨e, he, hi⟩ := h.resolve_left (by rw [htb]; decide)
  have hspec := (elementAfter_spec hd hb).of_eq_ok he
  obtain ⟨path, hpath⟩ := exists_elementPath (o := o) hd hsole hlex.named hspec.1 hspec.2 hi
  exact ⟨e, path, he, hpath⟩

/-- An end that can be named, outside of texts, has the element before it for its address. -/
theorem NameableStop.exists_path (h : NameableStop f b) (hb : InDocument f d b)
    (htb : f.isText b.container = false) :
    ∃ e path, elementBefore f b = .ok e ∧ elementPath f d o e = .ok path := by
  obtain ⟨e, he, hi⟩ := h.resolve_left (by rw [htb]; decide)
  have hspec := (elementBefore_spec hd hb).of_eq_ok he
  obtain ⟨path, hpath⟩ := exists_elementPath (o := o) hd hsole hlex.named hspec.1 hspec.2 hi
  exact ⟨e, path, he, hpath⟩

variable (hroot : ∀ e ∈ f.children d.root, f.isIgnored e = false) (htext : d.TextInElements f)
  {a' b' : Boundary} (hstart : adjustStart f a = .ok a') (hstop : adjustStop f b = .ok b')
  (ha : InDocument f d a') (hb : InDocument f d b')

include hroot htext hstart hstop ha hb

/-- **Between ends that can be named** there is an expression. -/
theorem exists_between (hname : NameableStart f a') (hname' : NameableStop f b') :
    ∃ text, between f d o a b = .ok text := by
  obtain ⟨c, hleft, hdescend⟩ := exists_of_bind hstart
  obtain ⟨c', hleft', hdescend'⟩ := exists_of_bind hstop
  simp only [between, hleft, hleft', hdescend, hdescend', bind, Except.bind]
  split
  · next hta htb => exact exists_betweenTexts_of_text hd hroot hsole hlex htext ha hta hb htb
  · next hta htb =>
    obtain ⟨first, hfirst⟩ := exists_startPoint (o := o) hd hroot hsole hlex htext
      (settleStart_within hd ha) (isText_settleStart hta)
    obtain ⟨e, last, he, hlast⟩ := hname'.exists_path (o := o) hd hsole hlex hb htb
    simp only [hfirst, he, hlast]
    exact ⟨_, rfl⟩
  · next hta htb =>
    obtain ⟨e, first, he, hfirst⟩ := hname.exists_path (o := o) hd hsole hlex ha hta
    obtain ⟨last, hlast⟩ := exists_endPoint (o := o) hd hroot hsole hlex htext
      (settleEnd_within hd hb) (isText_settleEnd htb)
    simp only [he, hfirst, hlast]
    exact ⟨_, rfl⟩
  · next hta htb =>
    obtain ⟨e, first, he, hfirst⟩ := hname.exists_path (o := o) hd hsole hlex ha hta
    obtain ⟨e', last, he', hlast⟩ := hname'.exists_path (o := o) hd hsole hlex hb htb
    simp only [he, he', hfirst, hlast]
    split
    · exact ⟨_, rfl⟩
    · exact ⟨_, rfl⟩

/-- **Without ends that can be named** there is an internal fault, and no other fault at all. -/
theorem between_internal :
    Gives IsInternal (fun _ => NameableStart f a' ∧ NameableStop f b') (between f d o a b) := by
  obtain ⟨c, hleft, hdescend⟩ := exists_of_bind hstart
  obtain ⟨c', hleft', hdescend'⟩ := exists_of_bind hstop
  have hpath : ∀ e, IsElementOf f d e →
      Gives IsInternal (fun _ => f.isIgnored e = false) (elementPath f d o e) := fun e he =>
    elementPath_internal hd hsole hlex he
  have hafter := (elementAfter_internal hd ha).self
  have hbefore := (elementBefore_internal hd hb).self
  simp only [between, hleft, hleft', hdescend, hdescend', bind, Except.bind]
  split
  · next hta htb =>
    obtain ⟨text, htexts⟩ :=
      exists_betweenTexts_of_text (o := o) hd hroot hsole hlex htext ha hta hb htb
    rw [htexts]
    exact .ok ⟨.inl hta, .inl htb⟩
  · next hta htb =>
    obtain ⟨first, hfirst⟩ := exists_startPoint (o := o) hd hroot hsole hlex htext
      (settleStart_within hd ha) (isText_settleStart hta)
    rw [hfirst]
    refine hbefore.bind fun e hfound => ?_
    obtain ⟨he, hspec⟩ := hfound
    exact (hpath e hspec).bind fun last hi => .ok ⟨.inl hta, .inr ⟨e, he, hi⟩⟩
  · next hta htb =>
    obtain ⟨last, hlast⟩ := exists_endPoint (o := o) hd hroot hsole hlex htext
      (settleEnd_within hd hb) (isText_settleEnd htb)
    refine hafter.bind fun e hfound => ?_
    obtain ⟨he, hspec⟩ := hfound
    refine (hpath e hspec).bind fun first hi => ?_
    rw [hlast]
    exact .ok ⟨.inr ⟨e, he, hi⟩, .inl htb⟩
  · refine hafter.bind fun e hfound => ?_
    obtain ⟨he, hspec⟩ := hfound
    refine hbefore.bind fun e' hfound' => ?_
    obtain ⟨he', hspec'⟩ := hfound'
    refine (hpath e hspec).bind fun first hi => ?_
    split
    · next heq => exact .ok ⟨.inr ⟨e, he, hi⟩, .inr ⟨e', he', heq ▸ hi⟩⟩
    · exact (hpath e' hspec').bind fun last hi' =>
        .ok ⟨.inr ⟨e, he, hi⟩, .inr ⟨e', he', hi'⟩⟩

end Between

/-! ## Selections -/

/-- What is synonymous to itself can be resolved, unless some numbers cannot be read. -/
theorem Synonymous.exists_resolve {body : String} (h : Synonymous f d body body)
    (hplaces : ∀ n, f.Within d.root n → f.placeCount n < Binary64.exactBound) (o o' : Options) :
    ∃ r, Address.resolve f d o' (wrapped o body) = .ok r ∧ r.Sound f d := by
  obtain ⟨place, h, -, hsound, hlarge⟩ := h
  cases place with
  | none =>
    obtain ⟨n, hn, hle⟩ := hlarge rfl
    exact absurd (hplaces n hn) (Nat.not_lt_of_le hle)
  | some entry =>
    obtain ⟨r, hr, hs⟩ := hsound entry rfl
    exact ⟨r, Finds.resolve h hr, hs⟩

section Selections

variable (hd : d.Rooted f) (hsole : d.IsSole f) (hlex : d.Lexable f) (hstar : d.NoWildcard f)
  (hplaces : ∀ n, f.Within d.root n → f.placeCount n < Binary64.exactBound)
  (htext : d.TextInElements f) (hroot : ∀ e ∈ f.children d.root, f.isIgnored e = false)

include hd hlex hroot

/-- The address of the whole document is that of its first element. -/
theorem wholeDocument_finds {e : Node} (he : f.firstElement? d.root = some e) :
    ∃ body, wholeDocument f d = .ok body ∧ Finds f d body.toList [.node e] := by
  have wf := hd.wellFormed
  obtain ⟨helement, left, right, hchildren, hleft⟩ := List.find?_eq_some_iff_append.mp he
  have hmem : e ∈ f.children d.root := List.mem_of_find?_eq_some he
  obtain ⟨tag, htag, hlegible⟩ :=
    hlex.tag e (wf.within_child (.refl f d.root) hmem) helement
  have hspliced : f.spliced d.root = left ++ e :: right := by
    rw [wf.spliced_eq hd.has_root, ← hchildren]
    refine (Forest.flatMap_congr_mem fun c hc => ?_).trans (List.flatMap_singleton' _)
    rw [hroot c hc]
    rfl
  have haccepts : accepts f d tag e = true := by
    rw [accepts, helement, htag, Document.normalizeTag_of_tagOf? htag, beq_self_eq_true,
      Bool.or_true, Bool.and_self]
  -- no element stands before the first one
  have hnone : left.countP (accepts f d tag) = 0 := by
    rw [List.countP_eq_zero]
    intro m hm haccept
    rw [accepts, Bool.and_eq_true] at haccept
    have hno := hleft m hm
    rw [haccept.1] at hno
    cases hno
  have hchild : (PathStep.mk tag 1).child? f d d.root = some e := by
    have hfound := Forest.nthChild_countP hspliced haccepts
    rw [hnone, Nat.zero_add] at hfound
    rw [PathStep.child?, hfound]
  have hfinds : Finds f d (pathChars [⟨tag, 1⟩])
      (nodeEntries (descend? f d [⟨tag, 1⟩] (some d.root))) :=
    finds_path (legible_firstStep hlegible) (List.cons_ne_nil _ _)
  have hdescend : descend? f d [⟨tag, 1⟩] (some d.root) = some e := hchild
  rw [hdescend, ← toList_firstStep] at hfinds
  refine ⟨_, ?_, hfinds⟩
  simp only [wholeDocument, Document.documentElement, he, tagOf, htag, bind, Except.bind]

include hsole hstar hplaces htext

/-- **Just the selections of a point and those with anchored ends have an address.** It can be
resolved in the document; for any other selection of the document there is an internal fault. -/
theorem create_iff_anchored (helement : (f.firstElement? d.root).isSome = true) {s : Selection}
    (hs : s.ends f = .ok (a, b)) (ha : f.Within d.root a.container)
    (hb : f.Within d.root b.container) :
    Gives IsInternal
        (fun address => ∀ o', ∃ r, resolve f d o' address = .ok r ∧ r.Sound f d)
        (create f d o s) ∧
      ((∃ address, create f d o s = .ok address) ↔
        a = b ∨ (AnchoredStart f a ∧ AnchoredStop f b)) := by
  by_cases hab : a = b
  · subst hab
    obtain ⟨e, he⟩ := Option.isSome_iff_exists.mp helement
    obtain ⟨body, hbody, hfinds⟩ := wholeDocument_finds hd hlex hroot he
    have hmem := List.mem_of_find?_eq_some he
    obtain ⟨r, hr, hrs⟩ := hd.around_below (hd.wellFormed.within_child (.refl f d.root) hmem)
      (hd.wellFormed.ne_of_mem_children hmem)
    rw [create_of_point ha hs, hbody]
    exact ⟨.ok fun o' => ⟨r, hfinds.resolve hr, hrs⟩, fun _ => .inl rfl, fun _ => ⟨_, rfl⟩⟩
  · obtain ⟨a', hstart, ha'⟩ := exists_adjustStart hd ha
    obtain ⟨b', hstop, hb'⟩ := exists_adjustStop hd hb
    have hsynonymous : Agrees (Synonymous f d) (between f d o a b) (between f d o a b) :=
      between_synonymous hd hsole hlex hstar ha hb
    have hfails : Gives IsInternal (fun _ => NameableStart f a' ∧ NameableStop f b')
        (between f d o a b) := between_internal hd hsole hlex hroot htext hstart hstop ha' hb'
    rw [create_of_ne ha hb hab hs]
    refine ⟨?_, fun ⟨address, haddress⟩ => .inr ?_, fun hanchored => ?_⟩
    · cases hbody : between f d o a b with
      | error e =>
        rw [hbody] at hfails
        cases hfails with
        | error he => exact .error he
      | ok body =>
        rw [hbody] at hsynonymous
        cases hsynonymous with
        | ok h => exact .ok fun o' => Synonymous.exists_resolve h hplaces o o'
    · cases hbody : between f d o a b with
      | error e =>
        rw [hbody] at haddress
        cases haddress
      | ok body =>
        rw [hbody] at hfails
        cases hfails with
        | ok h => exact ⟨⟨a', hstart, h.1⟩, ⟨b', hstop, h.2⟩⟩
    · obtain ⟨⟨c, hc, hname⟩, ⟨c', hc', hname'⟩⟩ := hanchored.resolve_left hab
      rw [hstart, Except.ok.injEq] at hc
      rw [hstop, Except.ok.injEq] at hc'
      obtain ⟨text, hmade⟩ := exists_between (o := o) hd hsole hlex hroot htext hstart hstop ha' hb'
        (hc ▸ hname) (hc' ▸ hname')
      rw [hmade]
      exact ⟨_, rfl⟩

end Selections

/-- From the next text, after the paragraph, to the end of the document element. -/
theorem create_iff_anchored_noted :
    Gives IsInternal
        (fun address => ∀ o', ∃ r, resolve noted ⟨⟨0⟩, .xml⟩ o' address = .ok r ∧
          r.Sound noted ⟨⟨0⟩, .xml⟩)
        (create noted ⟨⟨0⟩, .xml⟩ .standard (.range ⟨⟨⟨2⟩, 3⟩, ⟨⟨1⟩, 2⟩⟩)) ∧
      ((∃ address, create noted ⟨⟨0⟩, .xml⟩ .standard (.range ⟨⟨⟨2⟩, 3⟩, ⟨⟨1⟩, 2⟩⟩)
          = .ok address) ↔
        (⟨⟨2⟩, 3⟩ : Boundary) = ⟨⟨1⟩, 2⟩ ∨
          (AnchoredStart noted ⟨⟨2⟩, 3⟩ ∧ AnchoredStop noted ⟨⟨1⟩, 2⟩)) :=
  create_iff_anchored noted_rooted (noted_rooted.isSole_of_check (by decide))
    (noted_rooted.lexable_of_check (by decide))
    (noted_rooted.noWildcard_of_check (by decide))
    (noted_rooted.forall_within (by decide))
    (noted_rooted.textInElements_of_check (by decide)) (by decide) (by decide) rfl
    (by decide) (by decide)

/-! ## A comment alone -/

/-- The document `<r><!--c--></r>`. -/
def commented : Forest := ⟨#[
  { Record.bare .document with children := [⟨1⟩] },
  { Record.bare .element with
    name := some (.plain "r"), parent := some ⟨0⟩, children := [⟨2⟩] },
  { Record.bare .comment with value := some "c", parent := some ⟨1⟩ }]⟩

theorem commented_rooted : Document.Rooted commented ⟨⟨0⟩, .xml⟩ := by decide

/-- The range around the comment is a valid one of a document without marks, and has no address. -/
theorem not_create_commented :
    ¬ ∀ (f : Forest) (d : Document) (o : Options) (a b : Boundary) (r : Range), d.Rooted f →
      d.IsSole f → d.Lexable f → d.NoWildcard f → d.IsUnmarked f → d.TextInElements f →
      (f.firstElement? d.root).isSome = true → f.Within d.root a.container →
      f.Within d.root b.container → Range.make f a b = .ok r →
      ∃ address, create f d o (.range r) = .ok address ∧
        ∃ found, resolve f d o address = .ok found := by
  intro h
  obtain ⟨address, hcreate, -⟩ := h commented ⟨⟨0⟩, .xml⟩ .standard ⟨⟨1⟩, 0⟩ ⟨⟨1⟩, 1⟩
    ⟨⟨⟨1⟩, 0⟩, ⟨⟨1⟩, 1⟩⟩ commented_rooted
    (commented_rooted.isSole_of_check (by decide))
    (commented_rooted.lexable_of_check (by decide))
    (commented_rooted.noWildcard_of_check (by decide))
    (commented_rooted.forall_within (by decide))
    (commented_rooted.textInElements_of_check (by decide)) (by decide) (by decide)
    (by decide) (by decide)
  have hfault : create commented ⟨⟨0⟩, .xml⟩ .standard (.range ⟨⟨⟨1⟩, 0⟩, ⟨⟨1⟩, 1⟩⟩)
      = .error (.internal .noElementAfterStart) := by decide
  rw [hcreate] at hfault
  cases hfault

end Address

end TreePointer
