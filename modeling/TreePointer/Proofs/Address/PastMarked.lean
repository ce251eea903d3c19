import TreePointer.Proofs.Address.Creatable
import TreePointer.Proofs.Address.Edges
import TreePointer.Proofs.Address.Moving

/-!
# Past the decoration

An end of a selection that lies in an ignored element, or right beside one, moves to the next node
that is no decoration. It does so from behind the element, past all that this shows; and on from
there it passes nothing but blanks. So the address is about what lies between places behind the
decoration, not about what lies inside.

* `decorationAt?`: the ignored element that an end leaves.
* `pastMarked`, `pastStart`, `pastStop`: the place behind it.
* `nextUnmarked_spec`: the walk passes nothing but blanks.
* `leaveMarked_spec`: where an end is that has left its decoration.
* `le_pastStart`, `le_pastStop`: an end does not move back.
* `create_past_marked`: what an address shows.
-/

namespace TreePointer

namespace Forest

/-- The ignored element that a boundary leaves: the one it lies in, or else the one beside it. -/
def decorationAt? (f : Forest) (b : Boundary) (beside : Option Node) : Option Node :=
  if ¬ f.isElement b.container then none
  else if f.isIgnored b.container then some b.container else beside.filter f.isIgnored

/-- The place behind the decoration at a boundary. Where no other node comes behind that, it is the
boundary. -/
def pastMarked (f : Forest) (b : Boundary) (beside : Option Node) : Boundary :=
  match (f.decorationAt? b beside).filter fun w => (f.nextUnmarked? w).isSome with
  | some w => ⟨w, f.length w⟩
  | none => b

/-- The place behind the decoration that a start lies in or before. -/
def pastStart (f : Forest) (b : Boundary) : Boundary :=
  f.pastMarked b (f.childAt? b.container b.offset)

/-- The place behind the decoration that an end lies in or after. -/
def pastStop (f : Forest) (b : Boundary) : Boundary :=
  f.pastMarked b (if b.offset = 0 then none else f.childAt? b.container (b.offset - 1))

variable {f : Forest} {b : Boundary} {beside : Option Node} {w : Node}

theorem isIgnored_of_decorationAt? (h : f.decorationAt? b beside = some w) :
    f.isIgnored w = true ∧ (w = b.container ∨ w ∈ beside) := by
  unfold decorationAt? at h
  split at h
  · cases h
  · split at h
    · next hi =>
      cases h
      exact ⟨hi, .inl rfl⟩
    · obtain ⟨hmem, hi⟩ := Option.filter_eq_some_iff.mp h
      exact ⟨hi, .inr hmem⟩

theorem pastMarked_of_some (h : f.decorationAt? b beside = some w)
    (hnext : (f.nextUnmarked? w).isSome = true) : f.pastMarked b beside = ⟨w, f.length w⟩ := by
  rw [pastMarked, h, Option.filter_some, if_pos hnext]

theorem pastMarked_of_none (h : ∀ w, f.decorationAt? b beside = some w →
    f.nextUnmarked? w = none) : f.pastMarked b beside = b := by
  rw [pastMarked]
  cases hw : f.decorationAt? b beside with
  | none => rfl
  | some w => rw [Option.filter_some, h w hw, if_neg (by decide)]

namespace WellFormed

variable (wf : f.WellFormed)

include wf

/-- What is ignored and has no children shows nothing. -/
theorem places_of_ignored_leaf (h : f.isIgnored w = true) (hleaf : f.children w = []) :
    f.places w = [] := by
  have helement := isElement_of_isIgnored h
  rw [places_eq, wf.preorder_of_leaf (has_of_isElement helement) hleaf, placesIn_singleton,
    not_isShown_of_isElement helement, if_neg Bool.false_ne_true]

/-- The last place in a node that is no text is behind all it shows. -/
theorem textOffset_length {r : Node} (hr : f.Has r) (hw : f.Within r w)
    (hs : f.isShown w = false) :
    f.textOffset r ⟨w, f.length w⟩ = f.textOffset r ⟨w, 0⟩ + (f.places w).length := by
  have hall : (f.children w).drop (f.length w) = [] := by
    refine List.drop_eq_nil_of_le ?_
    rw [length]
    split
    · exact Nat.le_refl _
    · next hc =>
      rw [wf.children_of_not_container (Bool.eq_false_iff.mpr hc)]
      exact Nat.zero_le _
  have hend := wf.textOffset_end hr hw hs (f.length w)
  rw [hall, List.flatMap_nil, List.length_nil, Nat.add_zero] at hend
  exact hend.symm

end WellFormed

end Forest

namespace Address

open Forest

variable {f : Forest} {d : Document} {o : Options} {a b : Boundary} {beside : Option Node}
  {n m w : Node} {k l : Nat}

/-! ## The walk -/

/-- An end that leaves its decoration moves to the next node that is none. -/
theorem leaveMarked_of_some (h : (f.decorationAt? b beside).bind f.nextUnmarked? = some n) :
    leaveMarked f b beside = entryPoint f n := by
  unfold leaveMarked
  rw [decorationAt?] at h
  split
  · next hnot =>
    rw [if_pos hnot] at h
    cases h
  · next hnot =>
    rw [if_neg hnot] at h
    simp only [h]

theorem leaveMarked_of_none (h : (f.decorationAt? b beside).bind f.nextUnmarked? = none) :
    leaveMarked f b beside = .ok b := by
  unfold leaveMarked
  rw [decorationAt?] at h
  split
  · rfl
  · next hnot =>
    rw [if_neg hnot] at h
    simp only [h]

section Leaving

variable (hd : d.Rooted f)

include hd

/-- Past a node that shows only blanks there are only blanks. -/
theorem upToBlanks_across (hn : f.Within d.root n)
    (h : ∀ c ∈ f.visibleChars n, isBlank c = true) :
    UpToBlanks (f.visibleChars d.root) (f.textOffset d.root ⟨n, 0⟩)
      (f.textOffset d.root ⟨n, 0⟩ + (f.places n).length) := by
  have wf := hd.wellFormed
  obtain ⟨before, after, e⟩ := wf.preorder_infix hd.has_root hn
  have hlen : (f.visibleChars n).length = (f.places n).length := List.length_map _
  have hlen' : ((f.placesIn before).map Place.char).length = f.textOffset d.root ⟨n, 0⟩ := by
    rw [List.length_map, wf.textOffset_of_infix hd.has_root e (wf.has_of_within hd.has_root hn)]
  rw [← hlen, ← hlen', visibleChars_of_infix e]
  exact (UpToBlanks.of_blanks h 0 _).of_part (Nat.zero_le _) (Nat.le_refl _)

/-- A leaf that is passed on the way shows only blanks. -/
theorem isBlank_of_passed (hn : f.Within d.root n) (hleaf : f.children n = [])
    (h : (!(f.isIgnored n || f.isBlankText n)) = false) :
    ∀ c ∈ f.visibleChars n, isBlank c = true := by
  have wf := hd.wellFormed
  rw [Bool.not_eq_false', Bool.or_eq_true] at h
  intro c hc
  rw [visibleChars] at hc
  rcases h with hignored | hblank
  · rw [wf.places_of_ignored_leaf hignored hleaf] at hc
    cases hc
  · rw [isBlankText, Bool.and_eq_true, List.all_eq_true] at hblank
    rw [places_eq, wf.preorder_of_leaf (wf.has_of_within hd.has_root hn) hleaf,
      placesIn_singleton] at hc
    split at hc
    · rw [map_char_placesOf] at hc
      exact hblank.2 c hc
    · cases hc

/-- The node that follows another one, and the first leaf below it, start where that ends. -/
theorem textOffset_step (hm : f.Within d.root m) (h : (f.following? m).map f.firstLeaf = some n) :
    f.Within d.root n ∧ f.children n = [] ∧
      f.textOffset d.root ⟨n, 0⟩ = f.textOffset d.root ⟨m, 0⟩ + (f.places m).length := by
  have wf := hd.wellFormed
  obtain ⟨c, hc, rfl⟩ := Option.map_eq_some_iff.mp h
  obtain ⟨hcw, hoffset⟩ := wf.textOffset_following hd.has_root hd.parent_root hm hc
  obtain ⟨hleaf, hoffset'⟩ := wf.textOffset_firstLeaf hd.has_root hcw
  exact ⟨hleaf, wf.children_firstLeaf (wf.has_of_within hd.has_root hcw), hoffset'.trans hoffset⟩

/-- **On the way to no decoration** only blanks are passed, once the first one is behind. -/
theorem nextUnmarked_spec (hw : f.Within d.root w) (hi : f.isIgnored w = true)
    (h : f.nextUnmarked? w = some n) : f.Within d.root n ∧
      UpToBlanks (f.visibleChars d.root) (f.textOffset d.root ⟨n, 0⟩)
        (f.textOffset d.root ⟨w, f.length w⟩) := by
  have wf := hd.wellFormed
  have hs := not_isShown_of_isElement (isElement_of_isIgnored hi)
  have hbehind := wf.textOffset_length hd.has_root hw hs
  -- the walk is at the decoration, or it is at a leaf and has passed blanks since
  have hreached : f.Within d.root n ∧ (n = w ∨ f.children n = [] ∧
      UpToBlanks (f.visibleChars d.root) (f.textOffset d.root ⟨n, 0⟩)
        (f.textOffset d.root ⟨w, f.length w⟩)) := by
    refine of_firstOnWalk (P := fun m => f.Within d.root m ∧ (m = w ∨ f.children m = [] ∧
      UpToBlanks (f.visibleChars d.root) (f.textOffset d.root ⟨m, 0⟩)
        (f.textOffset d.root ⟨w, f.length w⟩))) (fun m n ⟨hm, hpast⟩ hpassed hstep => ?_)
      (fun m hm => ?_) h
    · obtain ⟨hn, hleaf, hoffset⟩ := textOffset_step hd hm hstep
      refine ⟨hn, .inr ⟨hleaf, ?_⟩⟩
      rw [hoffset]
      obtain rfl | ⟨hmleaf, hblanks⟩ := hpast
      · rw [hbehind]
        exact .refl _ _
      · exact (upToBlanks_across hd hm (isBlank_of_passed hd hm hmleaf hpassed)).symm.trans hblanks
    · obtain rfl := Option.mem_some_iff.mp hm
      exact ⟨hw, .inl rfl⟩
  refine ⟨hreached.1, ?_⟩
  obtain rfl | ⟨-, hblanks⟩ := hreached.2
  · -- the decoration itself is not where the walk ends
    have haccept := accept_of_firstOnWalk h
    rw [hi, Bool.true_or] at haccept
    cases haccept
  · exact hblanks

/-! ## Ends that have left their decoration -/

/-- **An end that leaves its decoration** is behind it, but for blanks. -/
theorem leaveMarked_spec (hb : b.At f d.root k) (hbeside : ∀ w ∈ beside, f.Within d.root w) :
    Yields (fun b' => ∃ k', b'.At f d.root k' ∧ UpToBlanks (f.visibleChars d.root) k'
      (f.textOffset d.root (f.pastMarked b beside))) (leaveMarked f b beside) := by
  cases hnext : (f.decorationAt? b beside).bind f.nextUnmarked? with
  | none =>
    have hstays : f.pastMarked b beside = b :=
      pastMarked_of_none fun w hw => by rwa [hw, Option.bind_some] at hnext
    rw [leaveMarked_of_none hnext, hstays, hb.offset_eq]
    exact .ok ⟨k, hb, .refl _ _⟩
  | some n =>
    obtain ⟨w, hw, hn⟩ := Option.bind_eq_some_iff.mp hnext
    obtain ⟨hi, hat⟩ := isIgnored_of_decorationAt? hw
    have hwithin : f.Within d.root w := hat.elim (fun e => e ▸ hb.within) (hbeside w)
    obtain ⟨hnw, hblanks⟩ := nextUnmarked_spec hd hwithin hi hn
    rw [leaveMarked_of_some hnext, pastMarked_of_some hw (by rw [hn]; rfl)]
    exact (entryPoint_spec hd hnw).imp fun b' ⟨hat', _⟩ => ⟨_, hat', hblanks⟩

theorem leaveMarkedStart_spec (ha : a.At f d.root k) :
    Yields (fun a' => ∃ k', a'.At f d.root k' ∧ UpToBlanks (f.visibleChars d.root) k'
      (f.textOffset d.root (f.pastStart a))) (leaveMarkedStart f a) :=
  leaveMarked_spec hd ha fun _ hn => hd.wellFormed.within_child ha.within (List.mem_of_getElem? hn)

theorem leaveMarkedEnd_spec (hb : b.At f d.root k) :
    Yields (fun b' => ∃ k', b'.At f d.root k' ∧ UpToBlanks (f.visibleChars d.root) k'
      (f.textOffset d.root (f.pastStop b))) (leaveMarkedEnd f b) := by
  refine leaveMarked_spec hd hb fun n hn => ?_
  split at hn
  · cases hn
  · exact hd.wellFormed.within_child hb.within (List.mem_of_getElem? hn)

/-- The place behind the decoration is not before the boundary. -/
theorem le_pastMarked (hb : b.At f d.root k) (hbeside : ∀ w ∈ beside, f.Within d.root w ∧
    k ≤ f.textOffset d.root ⟨w, 0⟩ + (f.places w).length) :
    k ≤ f.textOffset d.root (f.pastMarked b beside) := by
  have wf := hd.wellFormed
  rw [pastMarked]
  cases hw : (f.decorationAt? b beside).filter fun w => (f.nextUnmarked? w).isSome with
  | none => exact Nat.le_of_eq hb.offset_eq.symm
  | some w =>
    obtain ⟨hi, hat⟩ := isIgnored_of_decorationAt? (Option.filter_eq_some_iff.mp hw).1
    have hs := not_isShown_of_isElement (isElement_of_isIgnored hi)
    rcases hat with rfl | hat
    · have hend := wf.textOffset_end hd.has_root hb.within hs b.offset
      rw [← wf.textOffset_length hd.has_root hb.within hs, hb.offset_eq] at hend
      exact Nat.le.intro hend.symm
    · rw [wf.textOffset_length hd.has_root (hbeside w hat).1 hs]
      exact (hbeside w hat).2

theorem le_pastStart (ha : a.At f d.root k) : k ≤ f.textOffset d.root (f.pastStart a) := by
  have wf := hd.wellFormed
  refine le_pastMarked hd ha fun w hw => ?_
  obtain ⟨hmem, hslot⟩ := wf.slot_of_childAt hw
  have hbefore := wf.textOffset_before_child hd.has_root ha.within hmem
  rw [hslot, ha.offset_eq] at hbefore
  exact ⟨wf.within_child ha.within hmem, hbefore ▸ Nat.le_add_right _ _⟩

theorem le_pastStop (hb : b.At f d.root k) : k ≤ f.textOffset d.root (f.pastStop b) := by
  have wf := hd.wellFormed
  refine le_pastMarked hd hb fun w hw => ?_
  split at hw
  · cases hw
  · next hpos =>
    obtain ⟨hmem, hslot⟩ := wf.slot_of_childAt hw
    have hafter := wf.textOffset_after_child hd.has_root hb.within hmem
    rw [hslot, Nat.sub_add_cancel (Nat.pos_of_ne_zero hpos), hb.offset_eq] at hafter
    exact ⟨wf.within_child hb.within hmem, Nat.le_of_eq hafter⟩

/-! ## The address -/

variable (hcontent : d.HasOnlyContent f)

include hcontent

omit hd in
/-- A document of texts and elements has no other document in it. -/
theorem isSole_of_content : d.IsSole f := by
  intro n hn hk
  by_contra hne
  have hc := hcontent n hn hne
  rw [isContent, isText, isElement, hk] at hc
  cases hc

theorem isContent_following (hm : f.Within d.root m) (h : f.following? m = some n) :
    f.isContent n = true := by
  have wf := hd.wellFormed
  obtain ⟨p, hp⟩ := wf.exists_parent_of_following h
  exact hcontent n (hd.within_following hm h) (hd.ne_root_of_mem_children (wf.mem_of_parent hp))

theorem isContent_preceding (hm : f.Within d.root m) (h : f.preceding? m = some n) :
    f.isContent n = true := by
  have wf := hd.wellFormed
  obtain ⟨p, hp⟩ := wf.exists_parent_of_preceding h
  exact hcontent n (hd.within_preceding hm h) (hd.ne_root_of_mem_children (wf.mem_of_parent hp))

/-- The start of what is named is behind the decoration of the start, but for blanks. -/
theorem namedStart_past (ha : a.At f d.root k) :
    Yields (fun a' => ∃ k', a'.At f d.root k' ∧ UpToBlanks (f.visibleChars d.root) k'
      (f.textOffset d.root (f.pastStart a))) (namedStart f a) := by
  have hpast := leaveMarkedStart_spec hd ha
  cases hleave : leaveMarkedStart f a with
  | error e =>
    rw [namedStart, hleave]
    exact .error trivial
  | ok a₁ =>
    obtain ⟨k₁, hat, hblanks⟩ := hpast.of_eq_ok hleave
    refine (namedStart_spec hd hleave hat).imp fun a' hspec => ?_
    obtain ⟨k', hat', -, hexact⟩ := hspec
    refine ⟨k', hat', ?_⟩
    rwa [hexact (isSole_of_content hcontent) fun n => isContent_following hd hcontent hat.within]

/-- The end of what is named is behind the decoration of the end, but for blanks. -/
theorem namedStop_past (hshown : d.TextsShown f) (hb : b.At f d.root k) :
    Yields (fun b' => ∃ k', b'.At f d.root k' ∧ UpToBlanks (f.visibleChars d.root) k'
      (f.textOffset d.root (f.pastStop b))) (namedStop f b) := by
  have hpast := leaveMarkedEnd_spec hd hb
  cases hleave : leaveMarkedEnd f b with
  | error e =>
    rw [namedStop, hleave]
    exact .error trivial
  | ok b₁ =>
    obtain ⟨k₁, hat, hblanks⟩ := hpast.of_eq_ok hleave
    refine (namedStop_spec hd hshown hleave hat).imp fun b' hspec => ?_
    obtain ⟨k', hat', -, hexact⟩ := hspec
    refine ⟨k', hat', ?_⟩
    rwa [hexact (isSole_of_content hcontent) fun n => isContent_preceding hd hcontent hat.within]

/-- **An address shows what lies past the decoration.** In a document of texts and elements, each
end of what an address is about is behind the decoration of the selected end, but for blanks. -/
theorem create_past_marked (hshown : d.TextsShown f) (htext : d.TextInElements f)
    (hfind : Findable f d o)
    (hchars : ∀ n, IsElementOf f d n → f.isIgnored n = false →
      (f.visibleChars n).length + 1 < Binary64.exactBound)
    (ha : a.At f d.root k) (hb : b.At f d.root l) (hab : a.compare f b = .ok .lt)
    {s : Selection} (hs : s.ends f = .ok (a, b)) {address : String}
    (h : create f d o s = .ok address) :
    ∃ body, address = wrapped o body ∧ Shows (fun _ => True) f d body
      (f.textOffset d.root (f.pastStart a)) (f.textOffset d.root (f.pastStop b)) := by
  obtain ⟨body, rfl, a', b', i, j, ha', hb', hat, hbt, hshows⟩ :=
    create_shows hd hshown htext hfind hchars ha.within hb.within hab hs
      ((leaveMarkedStart_spec hd ha).imp fun _ ⟨i, hi, _⟩ => ⟨i, hi⟩)
      ((leaveMarkedEnd_spec hd hb).imp fun _ ⟨j, hj, _⟩ => ⟨j, hj⟩) h
  obtain ⟨i', hat', hstart⟩ := (namedStart_past hd hcontent ha).of_toOption (a := a')
    (by rw [ha']; rfl)
  obtain ⟨j', hbt', hstop⟩ := (namedStop_past hd hcontent hshown hb).of_toOption (a := b')
    (by rw [hb']; rfl)
  rw [← hat'.offset_eq, hat.offset_eq] at hstart
  rw [← hbt'.offset_eq, hbt.offset_eq] at hstop
  exact ⟨body, rfl, hshows.trans (.of_upToBlanks hstart hstop)⟩

end Leaving

end Address

end TreePointer
