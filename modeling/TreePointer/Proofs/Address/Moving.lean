import TreePointer.Proofs.Address.Covering
import TreePointer.Proofs.Text.Neighbours

/-!
# Where the ends of a selection move

Before it is written down, an end of a selection moves: off decoration, into a text beside it, or to
the node that follows or precedes it, and where it is in no text then, to an element. The address
stands for what lies between the ends that have moved. Into a text and to a neighbour an end moves
past nothing that shows; on the way to an element it may move past texts, but only from beside a
node that is neither.

* `namedStart`, `namedStop`: the boundaries that the address is about.
* `firstContent_after`, `noContent_after`: what comes next among the children, and its mirror image.
* `descendStart_spec`, `descendEnd_spec`: the move to a text or a neighbour.
* `namedStart_spec`, `namedStop_spec`: all of the move.
* `create_shows`: an address shows what lies between the moved ends.
-/

namespace TreePointer

/-- Whether a node is a text or an element. -/
def Forest.isContent (f : Forest) (n : Node) : Bool := f.isText n || f.isElement n

theorem Forest.isElement_of_isContent {f : Forest} {n : Node} (h : f.isContent n = true)
    (ht : ¬ f.isText n = true) : f.isElement n = true := by
  rwa [isContent, Bool.eq_false_iff.mpr ht, Bool.false_or] at h

/-- What is neither a text nor an element shows nothing. -/
theorem Document.Rooted.places_of_not_content {f : Forest} {d : Document} (hd : d.Rooted f)
    (hsole : d.IsSole f) {n : Node} (hn : f.Within d.root n) (hne : n ≠ d.root)
    (h : f.isContent n = false) : f.places n = [] := by
  have wf := hd.wellFormed
  rw [Forest.isContent, Bool.or_eq_false_iff] at h
  have hleaf : f.children n = [] := by
    refine wf.children_of_not_container (Bool.eq_false_iff.mpr fun hc => ?_)
    rw [hsole.isElement hn hc hne] at h
    cases h.2
  rw [Forest.places_eq, wf.preorder_of_leaf (wf.has_of_within hd.has_root hn) hleaf,
    Forest.placesIn_singleton, Forest.isShown, h.1, Bool.false_and, if_neg Bool.false_ne_true]

/-- Below its root the document has texts and elements alone. -/
def Document.HasOnlyContent (f : Forest) (d : Document) : Prop :=
  ∀ n, f.Within d.root n → n ≠ d.root → f.isContent n = true

/-- The texts of the document are shown. -/
def Document.TextsShown (f : Forest) (d : Document) : Prop :=
  ∀ t, f.Within d.root t → f.isText t = true → f.isShown t = true

/-- What has a child in the document is in the document. -/
theorem Document.Rooted.within_of_mem_children {f : Forest} {d : Document} (hd : d.Rooted f)
    {n p : Node} (hn : f.Within d.root n) (h : n ∈ f.children p) : f.Within d.root p :=
  hd.within_of_mem_ancestors hn
    (hd.wellFormed.mem_ancestors_iff.mpr ⟨p, hd.wellFormed.parent_of_mem h, .refl f p⟩)

/-- A child is not the root. -/
theorem Document.Rooted.ne_root_of_mem_children {f : Forest} {d : Document} (hd : d.Rooted f)
    {n p : Node} (h : n ∈ f.children p) : n ≠ d.root := by
  rintro rfl
  have hp := hd.wellFormed.parent_of_mem h
  rw [hd.parent_root] at hp
  cases hp

namespace Address

open Forest

variable {f : Forest} {d : Document} {o : Options} {a b : Boundary} {n : Node} {k : Nat}

/-- The start of what the address of a selection is about. -/
def namedStart (f : Forest) (a : Boundary) : Except Fault Boundary := do
  let a ← leaveMarkedStart f a
  let a ← descendStart f a
  if f.isText a.container then .ok a else Boundary.before f (← elementAfter f a)

/-- The end of what the address of a selection is about. -/
def namedStop (f : Forest) (b : Boundary) : Except Fault Boundary := do
  let b ← leaveMarkedEnd f b
  let b ← descendEnd f b
  if f.isText b.container then .ok b else Boundary.after f (← elementBefore f b)

/-! ## Looking for an element -/

theorem eq_of_reverse {ns passed rest : List Node} {c : Node}
    (h : ns.reverse = passed ++ c :: rest) : ns = rest.reverse ++ c :: passed.reverse := by
  rw [List.reverse_eq_append_iff.mp h, List.reverse_cons, List.append_assoc,
    List.singleton_append]

theorem elementAfter_cases {e : Node} (h : elementAfter f a = .ok e) :
    ((f.children a.container).drop a.offset).find? f.isElement = some e := by
  rw [elementAfter] at h
  split at h
  · next e' he =>
    cases h
    exact he
  · cases h

theorem elementBefore_cases {e : Node} (h : elementBefore f b = .ok e) :
    ((f.children b.container).take b.offset).reverse.find? f.isElement = some e := by
  rw [elementBefore] at h
  split at h
  · next e' he =>
    cases h
    exact he
  · cases h

/-- What is neither a text nor an element is passed over by who looks for an element. -/
theorem find?_eq_of_passed {passed rest : List Node} {c e : Node}
    (hpassed : ∀ n ∈ passed, f.isContent n = false) (hc : f.isElement c = true)
    (h : (passed ++ c :: rest).find? f.isElement = some e) : e = c := by
  have hnone : passed.find? f.isElement = none := by
    refine List.find?_eq_none.mpr fun n hn helement => ?_
    have hcontent := hpassed n hn
    rw [isContent, helement, Bool.or_true] at hcontent
    cases hcontent
  rw [List.find?_append, hnone, Option.none_or, List.find?_cons_of_pos hc, Option.some.injEq] at h
  exact h.symm

theorem firstContent?_some {ns : List Node} {c : Node} (h : firstContent? f ns = some c) :
    ∃ passed rest, ns = passed ++ c :: rest ∧ (∀ n ∈ passed, f.isContent n = false) ∧
      f.isContent c = true := by
  obtain ⟨hc, passed, rest, hs, hpassed⟩ := List.find?_eq_some_iff_append.mp h
  exact ⟨passed, rest, hs, fun n hn => Bool.not_eq_true' _ ▸ hpassed n hn, hc⟩

theorem firstContent?_none {ns : List Node} (h : firstContent? f ns = none) :
    ∀ n ∈ ns, f.isContent n = false :=
  fun n hn => Bool.eq_false_iff.mpr (List.find?_eq_none.mp h n hn)

section Moves

variable (hd : d.Rooted f)

include hd

/-- An element is a child. -/
theorem exists_mem_children {e : Node} (he : IsElementOf f d e) : ∃ p, e ∈ f.children p := by
  obtain ⟨p, hp, -⟩ := hd.wellFormed.exists_parent he.1 (hd.ne_root_of_isElement he.2)
  exact ⟨p, hd.wellFormed.mem_of_parent hp⟩

/-! ## Beside a node -/

/-- The point before a child of the document is in its parent, where the child starts. -/
theorem before_child {p : Node} (hn : f.Within d.root n) (hc : n ∈ f.children p) :
    Boundary.before f n = .ok ⟨p, f.slot n⟩ ∧
      (⟨p, f.slot n⟩ : Boundary).At f d.root (f.textOffset d.root ⟨n, 0⟩) := by
  have hp := hd.within_of_mem_children hn hc
  refine ⟨?_, hp, Nat.le_of_lt (hd.wellFormed.rangeAround_child hc).2,
    hd.wellFormed.textOffset_before_child hd.has_root hp hc⟩
  simp only [Boundary.before, hd.wellFormed.placeOf_child hc, bind, Except.bind, pure, Except.pure]

/-- The point after a child is where the child ends. -/
theorem after_child {p : Node} (hn : f.Within d.root n) (hc : n ∈ f.children p) :
    Boundary.after f n = .ok ⟨p, f.slot n + 1⟩ ∧
      (⟨p, f.slot n + 1⟩ : Boundary).At f d.root
        (f.textOffset d.root ⟨n, 0⟩ + (f.places n).length) := by
  have hp := hd.within_of_mem_children hn hc
  refine ⟨?_, hp, (hd.wellFormed.rangeAround_child hc).2,
    hd.wellFormed.textOffset_after_child hd.has_root hp hc⟩
  simp only [Boundary.after, hd.wellFormed.placeOf_child hc, bind, Except.bind, pure, Except.pure]

/-- There is no point beside a node that is no child. -/
theorem mem_children_of_placeOf {place : Node × Nat} (h : Boundary.placeOf f n = .ok place) :
    ∃ p, n ∈ f.children p := by
  rw [Boundary.placeOf] at h
  cases hp : f.parent n with
  | none =>
    rw [hp] at h
    cases h
  | some p => exact ⟨p, hd.wellFormed.mem_of_parent hp⟩

theorem mem_children_of_before {b : Boundary} (h : Boundary.before f n = .ok b) :
    ∃ p, n ∈ f.children p := by
  obtain ⟨_, hplace, -⟩ := exists_of_bind h
  exact mem_children_of_placeOf hd hplace

theorem mem_children_of_after {b : Boundary} (h : Boundary.after f n = .ok b) :
    ∃ p, n ∈ f.children p := by
  obtain ⟨_, hplace, -⟩ := exists_of_bind h
  exact mem_children_of_placeOf hd hplace

/-! ## To a neighbour -/

/-- An end that moves to a node is at its start. -/
theorem entryPoint_spec (hn : f.Within d.root n) :
    Yields (fun b => b.At f d.root (f.textOffset d.root ⟨n, 0⟩) ∧
      (f.isText b.container = false → f.isContent n = true → ∀ e, elementAfter f b = .ok e → e = n))
      (entryPoint f n) := by
  have wf := hd.wellFormed
  rw [entryPoint]
  by_cases ht : f.isText n = true
  · rw [if_pos ht]
    exact .ok ⟨⟨hn, Nat.zero_le _, rfl⟩, fun h => by rw [ht] at h; cases h⟩
  · rw [if_neg ht]
    refine .of_forall fun b h => ?_
    obtain ⟨p, hmem⟩ := mem_children_of_before hd h
    obtain ⟨hbefore, hat⟩ := before_child hd hn hmem
    obtain rfl := Except.ok.inj (h.symm.trans hbefore)
    refine ⟨hat, fun _ hc e he => ?_⟩
    obtain ⟨left, right, hs⟩ := List.append_of_mem hmem
    have hfind := elementAfter_cases he
    rw [wf.slot_eq hs, hs, List.drop_left] at hfind
    exact find?_eq_of_passed (List.forall_mem_nil _) (isElement_of_isContent hc ht) hfind

/-- The end of a text is where what it shows ends. -/
theorem textEnd_at (hn : f.Within d.root n) (hs : f.isShown n = true) :
    (⟨n, f.length n⟩ : Boundary).At f d.root
      (f.textOffset d.root ⟨n, 0⟩ + (f.places n).length) := by
  have wf := hd.wellFormed
  have hlen := length_of_isShown hs
  refine ⟨hn, Nat.le_refl _, ?_⟩
  rw [wf.textOffset_in_text hd.has_root hn hs (Nat.le_of_eq hlen), hlen,
    wf.length_places_of_isShown (wf.has_of_within hd.has_root hn) hs]

/-- An end that moves back to a node is at its end. -/
theorem exitPoint_spec (hshown : d.TextsShown f) (hn : f.Within d.root n) :
    Yields (fun b => b.At f d.root (f.textOffset d.root ⟨n, 0⟩ + (f.places n).length) ∧
      (f.isText b.container = false → f.isContent n = true →
        ∀ e, elementBefore f b = .ok e → e = n)) (exitPoint f n) := by
  have wf := hd.wellFormed
  rw [exitPoint]
  by_cases ht : f.isText n = true
  · rw [if_pos ht]
    exact .ok ⟨textEnd_at hd hn (hshown n hn ht), fun h => by rw [ht] at h; cases h⟩
  · rw [if_neg ht]
    refine .of_forall fun b h => ?_
    obtain ⟨p, hmem⟩ := mem_children_of_after hd h
    obtain ⟨hafter, hat⟩ := after_child hd hn hmem
    obtain rfl := Except.ok.inj (h.symm.trans hafter)
    refine ⟨hat, fun _ hc e he => ?_⟩
    obtain ⟨left, right, hs⟩ := List.append_of_mem hmem
    have hfind := elementBefore_cases he
    have htake : (f.children p).take (f.slot n + 1) = left ++ [n] := by
      rw [wf.slot_eq hs, hs, List.take_length_add_append, List.take_succ_cons, List.take_zero]
    rw [htake, List.reverse_append] at hfind
    exact find?_eq_of_passed (List.forall_mem_nil _) (isElement_of_isContent hc ht) hfind

/-! ## To a text or a neighbour -/

/-- What is passed over shows nothing. -/
theorem flatMap_places_of_not_content (hsole : d.IsSole f) {passed : List Node}
    (hmem : ∀ n ∈ passed, n ∈ f.children a.container) (hw : f.Within d.root a.container)
    (h : ∀ n ∈ passed, f.isContent n = false) : passed.flatMap f.places = [] :=
  List.flatMap_eq_nil_iff.mpr fun n hn => hd.places_of_not_content hsole
    (hd.wellFormed.within_child hw (hmem n hn)) (hd.ne_root_of_mem_children (hmem n hn)) (h n hn)

/-- The first text or element after a place is right behind it, but for what shows nothing. -/
theorem firstContent_after {c : Node} (ha : a.At f d.root k)
    (h : firstContent? f ((f.children a.container).drop a.offset) = some c) :
    f.Within d.root c ∧ k ≤ f.textOffset d.root ⟨c, 0⟩ ∧
      (d.IsSole f → f.textOffset d.root ⟨c, 0⟩ = k) ∧
      (f.isText c = false → ∀ e, elementAfter f a = .ok e → e = c) := by
  have wf := hd.wellFormed
  obtain ⟨passed, rest, hdrop, hpassed, hc⟩ := firstContent?_some h
  have hmem : ∀ n ∈ passed ++ c :: rest, n ∈ f.children a.container := fun n hn =>
    List.mem_of_mem_drop (hdrop ▸ hn)
  have hoffset := wf.textOffset_drop hd.has_root ha.within hdrop
  rw [ha.offset_eq] at hoffset
  refine ⟨wf.within_child ha.within (hmem c (List.mem_append_right _ List.mem_cons_self)), by omega,
    fun hsole => ?_, fun hct e he => ?_⟩
  · rw [hoffset, flatMap_places_of_not_content hd hsole
      (fun n hn => hmem n (List.mem_append_left _ hn)) ha.within hpassed, List.length_nil,
      Nat.add_zero]
  · have hfind := elementAfter_cases he
    rw [hdrop] at hfind
    exact find?_eq_of_passed hpassed (isElement_of_isContent hc (by simp [hct])) hfind

/-- Where no text or element comes after a place, nothing is shown there. -/
theorem noContent_after (ha : a.At f d.root k) (ht : f.isText a.container = false)
    (h : firstContent? f ((f.children a.container).drop a.offset) = none) :
    k ≤ f.textOffset d.root ⟨a.container, 0⟩ + (f.places a.container).length ∧
      (d.IsSole f →
        f.textOffset d.root ⟨a.container, 0⟩ + (f.places a.container).length = k) ∧
      ∀ e, elementAfter f a ≠ .ok e := by
  have hnot := firstContent?_none h
  have hend := hd.wellFormed.textOffset_end hd.has_root ha.within (not_isShown_of_not_isText ht)
    a.offset
  rw [ha.offset_eq] at hend
  refine ⟨by omega, fun hsole => ?_, fun e he => ?_⟩
  · rw [hend, flatMap_places_of_not_content hd hsole (fun n hn => List.mem_of_mem_drop hn) ha.within
      hnot, List.length_nil, Nat.add_zero]
  · have hfind := elementAfter_cases he
    have hcontent := hnot e (List.mem_of_find?_eq_some hfind)
    rw [isContent, List.find?_some hfind, Bool.or_true] at hcontent
    cases hcontent

/-- The last text or element before a place is right before it, but for what shows nothing. -/
theorem firstContent_before {c : Node} (hb : b.At f d.root k)
    (h : firstContent? f ((f.children b.container).take b.offset).reverse = some c) :
    f.Within d.root c ∧ f.textOffset d.root ⟨c, 0⟩ + (f.places c).length ≤ k ∧
      (d.IsSole f → f.textOffset d.root ⟨c, 0⟩ + (f.places c).length = k) ∧
      (f.isText c = false → ∀ e, elementBefore f b = .ok e → e = c) := by
  have wf := hd.wellFormed
  obtain ⟨passed, rest, hback, hpassed, hc⟩ := firstContent?_some h
  have htake := eq_of_reverse hback
  have hmem : ∀ n ∈ rest.reverse ++ c :: passed.reverse, n ∈ f.children b.container := fun n hn =>
    List.mem_of_mem_take (htake ▸ hn)
  have hoffset := wf.textOffset_take hd.has_root hb.within htake
  rw [hb.offset_eq] at hoffset
  refine ⟨wf.within_child hb.within (hmem c (List.mem_append_right _ List.mem_cons_self)), by omega,
    fun hsole => ?_, fun hct e he => ?_⟩
  · rw [hoffset, flatMap_places_of_not_content hd hsole
      (fun n hn => hmem n (List.mem_append_right _ (List.mem_cons_of_mem _ hn))) hb.within
      (fun n hn => hpassed n (List.mem_reverse.mp hn)), List.length_nil, Nat.add_zero]
  · have hfind := elementBefore_cases he
    rw [hback] at hfind
    exact find?_eq_of_passed hpassed (isElement_of_isContent hc (by simp [hct])) hfind

/-- Where no text or element comes before a place, nothing is shown there. -/
theorem noContent_before (hb : b.At f d.root k) (ht : f.isText b.container = false)
    (h : firstContent? f ((f.children b.container).take b.offset).reverse = none) :
    f.textOffset d.root ⟨b.container, 0⟩ ≤ k ∧
      (d.IsSole f → f.textOffset d.root ⟨b.container, 0⟩ = k) ∧
      ∀ e, elementBefore f b ≠ .ok e := by
  have hnot : ∀ n ∈ (f.children b.container).take b.offset, f.isContent n = false := fun n hn =>
    firstContent?_none h n (List.mem_reverse.mpr hn)
  have hstart := hd.wellFormed.textOffset_below hd.has_root hb.within
    (not_isShown_of_not_isText ht) b.offset
  rw [hb.offset_eq] at hstart
  refine ⟨by omega, fun hsole => ?_, fun e he => ?_⟩
  · rw [hstart, flatMap_places_of_not_content hd hsole (fun n hn => List.mem_of_mem_take hn)
      hb.within hnot, List.length_nil, Nat.add_zero]
  · have hfind := elementBefore_cases he
    have hcontent := hnot e (List.mem_reverse.mp (List.mem_of_find?_eq_some hfind))
    rw [isContent, List.find?_some hfind, Bool.or_true] at hcontent
    cases hcontent

/-- **A start that descends** does not move back, and passes nothing that shows. Unless the node
that follows is neither a text nor an element, an element after it is right after it. -/
theorem descendStart_spec (ha : a.At f d.root k) :
    Yields (fun a' => ∃ k', a'.At f d.root k' ∧ k ≤ k' ∧ (d.IsSole f → k' = k ∧
      (f.isText a'.container = false →
        (∀ n, f.following? a.container = some n → f.isContent n = true) →
        ∀ e, elementAfter f a' = .ok e → f.textOffset d.root ⟨e, 0⟩ = k))) (descendStart f a) := by
  have wf := hd.wellFormed
  rw [descendStart]
  by_cases ht : f.isText a.container = true
  · rw [if_pos ht]
    exact .ok ⟨k, ha, Nat.le_refl k, fun _ => ⟨rfl, fun h => by rw [ht] at h; cases h⟩⟩
  rw [if_neg ht]
  cases hfirst : firstContent? f ((f.children a.container).drop a.offset) with
  | some c =>
    obtain ⟨hcw, hle, hexact, hnext⟩ := firstContent_after hd ha hfirst
    dsimp only
    by_cases hct : f.isText c = true
    · rw [if_pos hct]
      exact .ok ⟨_, ⟨hcw, Nat.zero_le _, rfl⟩, hle,
        fun hsole => ⟨hexact hsole, fun h => by rw [hct] at h; cases h⟩⟩
    · rw [if_neg hct]
      refine .ok ⟨k, ha, Nat.le_refl k, fun hsole => ⟨rfl, fun _ _ e he => ?_⟩⟩
      rw [hnext (Bool.eq_false_iff.mpr hct) e he, hexact hsole]
  | none =>
    obtain ⟨hle, hexact, hnone⟩ := noContent_after hd ha (Bool.eq_false_iff.mpr ht) hfirst
    cases hfollow : f.following? a.container with
    | none =>
      exact .ok ⟨k, ha, Nat.le_refl k, fun _ => ⟨rfl, fun _ _ e he => absurd he (hnone e)⟩⟩
    | some n =>
      obtain ⟨hnw, hoffset⟩ := wf.textOffset_following hd.has_root hd.parent_root ha.within hfollow
      rw [← hoffset] at hle hexact
      refine (entryPoint_spec hd hnw).imp fun a' hentry => ?_
      obtain ⟨hat, hnext⟩ := hentry
      refine ⟨_, hat, hle, fun hsole => ⟨hexact hsole, fun hat' hn e he => ?_⟩⟩
      rw [hnext hat' (hn n rfl) e he, hexact hsole]

/-- **An end that descends** does not move on, and passes nothing that shows. Unless the node that
precedes is neither a text nor an element, an element before it is right before it. -/
theorem descendEnd_spec (hshown : d.TextsShown f) (hb : b.At f d.root k) :
    Yields (fun b' => ∃ k', b'.At f d.root k' ∧ k' ≤ k ∧ (d.IsSole f → k' = k ∧
      (f.isText b'.container = false →
        (∀ n, f.preceding? b.container = some n → f.isContent n = true) →
        ∀ e, elementBefore f b' = .ok e →
          f.textOffset d.root ⟨e, 0⟩ + (f.places e).length = k))) (descendEnd f b) := by
  have wf := hd.wellFormed
  rw [descendEnd]
  by_cases ht : f.isText b.container = true
  · rw [if_pos ht]
    exact .ok ⟨k, hb, Nat.le_refl k, fun _ => ⟨rfl, fun h => by rw [ht] at h; cases h⟩⟩
  rw [if_neg ht]
  cases hfirst : firstContent? f ((f.children b.container).take b.offset).reverse with
  | some c =>
    obtain ⟨hcw, hle, hexact, hnext⟩ := firstContent_before hd hb hfirst
    dsimp only
    by_cases hct : f.isText c = true
    · rw [if_pos hct]
      exact .ok ⟨_, textEnd_at hd hcw (hshown c hcw hct), hle,
        fun hsole => ⟨hexact hsole, fun h => by rw [hct] at h; cases h⟩⟩
    · rw [if_neg hct]
      refine .ok ⟨k, hb, Nat.le_refl k, fun hsole => ⟨rfl, fun _ _ e he => ?_⟩⟩
      rw [hnext (Bool.eq_false_iff.mpr hct) e he, hexact hsole]
  | none =>
    obtain ⟨hle, hexact, hnone⟩ := noContent_before hd hb (Bool.eq_false_iff.mpr ht) hfirst
    cases hback : f.preceding? b.container with
    | none =>
      exact .ok ⟨k, hb, Nat.le_refl k, fun _ => ⟨rfl, fun _ _ e he => absurd he (hnone e)⟩⟩
    | some n =>
      obtain ⟨hnw, hoffset⟩ := wf.textOffset_preceding hd.has_root hb.within hd.parent_root hback
      rw [← hoffset] at hle hexact
      refine (exitPoint_spec hd hshown hnw).imp fun b' hexit => ?_
      obtain ⟨hat, hnext⟩ := hexit
      refine ⟨_, hat, hle, fun hsole => ⟨hexact hsole, fun hbt hn e he => ?_⟩⟩
      rw [hnext hbt (hn n rfl) e he, hexact hsole]

/-! ## To an element -/

/-- The first element after a place does not start before it. -/
theorem elementAfter_at (ha : a.At f d.root k) :
    Yields (fun e => IsElementOf f d e ∧ k ≤ f.textOffset d.root ⟨e, 0⟩) (elementAfter f a) := by
  refine (elementAfter_spec hd ha.within).self.imp fun e ⟨he, hof⟩ => ⟨hof, ?_⟩
  obtain ⟨-, passed, rest, hdrop, -⟩ := List.find?_eq_some_iff_append.mp (elementAfter_cases he)
  have hoffset := hd.wellFormed.textOffset_drop hd.has_root ha.within hdrop
  rw [ha.offset_eq] at hoffset
  omega

/-- The last element before a place does not end behind it. -/
theorem elementBefore_at (hb : b.At f d.root k) :
    Yields (fun e => IsElementOf f d e ∧
      f.textOffset d.root ⟨e, 0⟩ + (f.places e).length ≤ k) (elementBefore f b) := by
  refine (elementBefore_spec hd hb.within).self.imp fun e ⟨he, hof⟩ => ⟨hof, ?_⟩
  obtain ⟨-, passed, rest, hback, -⟩ := List.find?_eq_some_iff_append.mp (elementBefore_cases he)
  have hoffset := hd.wellFormed.textOffset_take hd.has_root hb.within (eq_of_reverse hback)
  rw [hb.offset_eq] at hoffset
  omega

/-! ## All of the move -/

/-- **The start of what is named** is where the start is that was selected, or behind it. -/
theorem namedStart_spec {a₁ : Boundary} (hleave : leaveMarkedStart f a = .ok a₁)
    (ha : a₁.At f d.root k) :
    Yields (fun a' => ∃ k', a'.At f d.root k' ∧ k ≤ k' ∧ (d.IsSole f →
      (∀ n, f.following? a₁.container = some n → f.isContent n = true) → k' = k))
      (namedStart f a) := by
  simp only [namedStart, hleave, bind, Except.bind]
  refine (descendStart_spec hd ha).bind fun a₂ ⟨k₂, hat, hle, hexact⟩ => ?_
  cases ht : f.isText a₂.container with
  | true => exact .ok ⟨k₂, hat, hle, fun hsole _ => (hexact hsole).1⟩
  | false =>
    refine (elementAfter_at hd hat).self.bind fun e ⟨he, hof, hle'⟩ => ?_
    obtain ⟨p, hmem⟩ := exists_mem_children hd hof
    obtain ⟨hbefore, hat'⟩ := before_child hd hof.1 hmem
    rw [hbefore]
    exact .ok ⟨_, hat', Nat.le_trans hle hle', fun hsole hn => (hexact hsole).2 ht hn e he⟩

/-- **The end of what is named** is where the end is that was selected, or before it. -/
theorem namedStop_spec (hshown : d.TextsShown f) {b₁ : Boundary}
    (hleave : leaveMarkedEnd f b = .ok b₁) (hb : b₁.At f d.root k) :
    Yields (fun b' => ∃ k', b'.At f d.root k' ∧ k' ≤ k ∧ (d.IsSole f →
      (∀ n, f.preceding? b₁.container = some n → f.isContent n = true) → k' = k))
      (namedStop f b) := by
  simp only [namedStop, hleave, bind, Except.bind]
  refine (descendEnd_spec hd hshown hb).bind fun b₂ ⟨k₂, hat, hle, hexact⟩ => ?_
  cases ht : f.isText b₂.container with
  | true => exact .ok ⟨k₂, hat, hle, fun hsole _ => (hexact hsole).1⟩
  | false =>
    refine (elementBefore_at hd hat).self.bind fun e ⟨he, hof, hle'⟩ => ?_
    obtain ⟨p, hmem⟩ := exists_mem_children hd hof
    obtain ⟨hafter, hat'⟩ := after_child hd hof.1 hmem
    rw [hafter]
    exact .ok ⟨_, hat', Nat.le_trans hle' hle, fun hsole hn => (hexact hsole).2 ht hn e he⟩

end Moves

/-! ## What the expression shows -/

/-- The body of an address is about the stretch between the moved ends of a selection, and shows
what lies there. -/
def ShowsNamed (f : Forest) (d : Document) (a b : Boundary) (body : String) : Prop :=
  ∃ a' b' k m, namedStart f a = .ok a' ∧ namedStop f b = .ok b' ∧ a'.At f d.root k ∧
    b'.At f d.root m ∧ Shows (fun _ => True) f d body k m

section Between

variable (hd : d.Rooted f) (hshown : d.TextsShown f) (htext : d.TextInElements f)
  (hfind : Findable f d o)
  (hchars : ∀ n, IsElementOf f d n → f.isIgnored n = false →
    (f.visibleChars n).length + 1 < Binary64.exactBound)

include hd

omit hd in
/-- An end that has moved into a text stays there. -/
theorem namedStart_text {a₁ a₂ : Boundary} (hleave : leaveMarkedStart f a = .ok a₁)
    (hdescend : descendStart f a₁ = .ok a₂) (ht : f.isText a₂.container = true) :
    namedStart f a = .ok a₂ := by
  simp only [namedStart, hleave, hdescend, ht, bind, Except.bind, if_true]

omit hd in
theorem namedStop_text {b₁ b₂ : Boundary} (hleave : leaveMarkedEnd f b = .ok b₁)
    (hdescend : descendEnd f b₁ = .ok b₂) (ht : f.isText b₂.container = true) :
    namedStop f b = .ok b₂ := by
  simp only [namedStop, hleave, hdescend, ht, bind, Except.bind, if_true]

/-- An end that has moved to no text moves on to an element. -/
theorem namedStart_element {a₁ a₂ : Boundary} {e : Node} (hleave : leaveMarkedStart f a = .ok a₁)
    (hdescend : descendStart f a₁ = .ok a₂) (ht : f.isText a₂.container = false)
    (hafter : elementAfter f a₂ = .ok e) (he : IsElementOf f d e) :
    ∃ a', namedStart f a = .ok a' ∧ a'.At f d.root (f.textOffset d.root ⟨e, 0⟩) := by
  obtain ⟨p, hmem⟩ := exists_mem_children hd he
  obtain ⟨hbefore, hat⟩ := before_child hd he.1 hmem
  refine ⟨_, ?_, hat⟩
  simp only [namedStart, hleave, hdescend, ht, hafter, hbefore, bind, Except.bind,
    Bool.false_eq_true, if_false]

theorem namedStop_element {b₁ b₂ : Boundary} {e : Node} (hleave : leaveMarkedEnd f b = .ok b₁)
    (hdescend : descendEnd f b₁ = .ok b₂) (ht : f.isText b₂.container = false)
    (hbefore : elementBefore f b₂ = .ok e) (he : IsElementOf f d e) :
    ∃ b', namedStop f b = .ok b' ∧
      b'.At f d.root (f.textOffset d.root ⟨e, 0⟩ + (f.places e).length) := by
  obtain ⟨p, hmem⟩ := exists_mem_children hd he
  obtain ⟨hafter, hat⟩ := after_child hd he.1 hmem
  refine ⟨_, ?_, hat⟩
  simp only [namedStop, hleave, hdescend, ht, hbefore, hafter, bind, Except.bind,
    Bool.false_eq_true, if_false]

include hshown htext hfind hchars

/-- A start in a text covers its place, after it is settled too. -/
theorem settledStart_covers (ha : a.At f d.root k) (ht : f.isText a.container = true) :
    Yields (fun text => Covers (fun _ => True) f d text k k)
      (startPoint f d o (settleStart f a)) := by
  have has : a.InShown f d.root := ⟨ha.within, hshown _ ha.within ht, ha.inBounds⟩
  obtain ⟨hsettled, hoffset⟩ := settleStart_spec hd.wellFormed hd.has_root hd.parent_root has
  obtain ⟨p, hp⟩ := hd.inText_of_inShown htext hsettled
  rw [← ha.offset_eq, ← hoffset]
  exact (startPoint_covers hd hfind hchars hp).imp fun _ h => h.mono fun _ _ => trivial

theorem settledEnd_covers (hb : b.At f d.root k) (ht : f.isText b.container = true) :
    Yields (fun text => Covers (fun _ => True) f d text k k) (endPoint f d o (settleEnd f b)) := by
  have hbs : b.InShown f d.root := ⟨hb.within, hshown _ hb.within ht, hb.inBounds⟩
  obtain ⟨hsettled, hoffset⟩ := settleEnd_spec hd.wellFormed hd.has_root hd.parent_root hbs
  obtain ⟨q, hq⟩ := hd.inText_of_inShown htext hsettled
  rw [← hb.offset_eq, ← hoffset]
  exact (endPoint_covers hd hfind hchars hq).imp fun _ h => h.mono fun _ _ => trivial

/-- **The expression for a stretch** shows what lies between the ends that have moved. -/
theorem between_shows (hstart : Yields (fun a₁ => ∃ k, a₁.At f d.root k) (leaveMarkedStart f a))
    (hstop : Yields (fun b₁ => ∃ m, b₁.At f d.root m) (leaveMarkedEnd f b)) :
    Yields (ShowsNamed f d a b) (between f d o a b) := by
  refine hstop.self.bind fun b₁ ⟨hb₁, m, hbat⟩ => ?_
  refine hstart.self.bind fun a₁ ⟨ha₁, k, haat⟩ => ?_
  refine (descendStart_spec hd haat).self.bind fun a₂ ⟨ha₂, k', hat, _, _⟩ => ?_
  refine (descendEnd_spec hd hshown hbat).self.bind fun b₂ ⟨hb₂, m', hbt, _, _⟩ => ?_
  split
  · next hta htb =>
    have has : a₂.InShown f d.root := ⟨hat.within, hshown _ hat.within hta, hat.inBounds⟩
    have hbs : b₂.InShown f d.root := ⟨hbt.within, hshown _ hbt.within htb, hbt.inBounds⟩
    refine (betweenTexts_shows hd hfind hchars htext has hbs).imp fun body hbody => ?_
    rw [hat.offset_eq, hbt.offset_eq] at hbody
    exact ⟨a₂, b₂, k', m', namedStart_text ha₁ ha₂ hta, namedStop_text hb₁ hb₂ htb, hat, hbt,
      hbody.mono fun _ _ => trivial⟩
  · next hta htb =>
    refine (settledStart_covers hd hshown htext hfind hchars hat hta).bind fun first hfirst => ?_
    refine (elementBefore_spec hd hbt.within).self.bind fun e ⟨hbefore, he⟩ => ?_
    obtain ⟨b', hb', hbat'⟩ := namedStop_element hd hb₁ hb₂ htb hbefore he
    exact (elementPath_covers hd hfind he).bind fun last hlast => .ok ⟨a₂, b', _, _,
      namedStart_text ha₁ ha₂ hta, hb', hat, hbat', hfirst.rangeTo hd hlast⟩
  · next hta htb =>
    refine (elementAfter_spec hd hat.within).self.bind fun e ⟨hafter, he⟩ => ?_
    obtain ⟨a', ha', haat'⟩ := namedStart_element hd ha₁ ha₂ hta hafter he
    refine (elementPath_covers hd hfind he).bind fun first hfirst => ?_
    exact (settledEnd_covers hd hshown htext hfind hchars hbt htb).bind fun last hlast =>
      .ok ⟨a', b₂, _, _, ha', namedStop_text hb₁ hb₂ htb, haat', hbt, hfirst.rangeTo hd hlast⟩
  · next hta htb =>
    refine (elementAfter_spec hd hat.within).self.bind fun e ⟨hafter, he⟩ => ?_
    refine (elementBefore_spec hd hbt.within).self.bind fun e' ⟨hbefore, he'⟩ => ?_
    obtain ⟨a', ha', haat'⟩ := namedStart_element hd ha₁ ha₂ hta hafter he
    obtain ⟨b', hb', hbat'⟩ := namedStop_element hd hb₁ hb₂ htb hbefore he'
    refine (elementPath_covers hd hfind he).bind fun first hfirst => ?_
    split
    · next e =>
      subst e
      exact .ok ⟨a', b', _, _, ha', hb', haat', hbat', hfirst.shows⟩
    · exact (elementPath_covers hd hfind he').bind fun last hlast =>
        .ok ⟨a', b', _, _, ha', hb', haat', hbat', hfirst.rangeTo hd hlast⟩

/-- **An address that was made** shows what lies between the ends that have moved. -/
theorem create_shows (ha : f.Within d.root a.container) (hb : f.Within d.root b.container)
    (hab : a.compare f b = .ok .lt) {s : Selection} (hs : s.ends f = .ok (a, b))
    (hstart : Yields (fun a₁ => ∃ k, a₁.At f d.root k) (leaveMarkedStart f a))
    (hstop : Yields (fun b₁ => ∃ m, b₁.At f d.root m) (leaveMarkedEnd f b)) {address : String}
    (h : create f d o s = .ok address) :
    ∃ body, address = wrapped o body ∧ ShowsNamed f d a b body := by
  have hshows := between_shows (o := o) hd hshown htext hfind hchars hstart hstop
  rw [create_between ha hb hab hs] at h
  generalize between f d o a b = expression at h hshows
  cases hshows with
  | error _ => cases h
  | ok hbody => exact ⟨_, (Except.ok.inj h).symm, hbody⟩

end Between

end Address

end TreePointer
