import TreePointer.Proofs.Tree.Coordinates
import TreePointer.Visible.Place

/-!
# Boundaries as offsets in the visible text

A boundary cuts the visible text of a subtree in two. Its offset there is the number of visible
characters before it. Offsets do not see decoration, empty texts or where one text node ends and the
next begins, so they compare boundaries of different trees that read the same.

* `WellFormed.placesBefore_within`: what lies before a boundary inside a node lies before the node
  or in it.
* `WellFormed.textOffset_mono`: a later boundary has no smaller offset.
* `WellFormed.placesBefore_eq_take`: the characters before a boundary are the first ones.
* `WellFormed.textOffset_place`: the boundaries around the `k`-th character have offsets `k`, `k + 1`.
-/

namespace TreePointer

namespace Forest

variable {f : Forest}

/-- The visible characters of a subtree, without their places. -/
def visibleChars (f : Forest) (n : Node) : List Char :=
  (f.places n).map Place.char

/-- The visible characters of some nodes themselves. -/
def placesIn (f : Forest) (ns : List Node) : List Place :=
  (ns.filter f.isShown).flatMap f.placesOf

/-- The visible characters of a subtree that lie before a boundary. -/
def placesBefore (f : Forest) (r : Node) (b : Boundary) : List Place :=
  (f.places r).filter fun p => p.before.isBefore f b

/-- The number of visible characters of a subtree that lie before a boundary. -/
def textOffset (f : Forest) (r : Node) (b : Boundary) : Nat :=
  (f.placesBefore r b).length

theorem textOffset_le (r : Node) (b : Boundary) : f.textOffset r b ≤ (f.places r).length :=
  List.length_filter_le ..

/-! ## Characters of nodes -/

theorem places_eq (n : Node) : f.places n = f.placesIn (f.preorder n) := rfl

theorem placesIn_append (ns ms : List Node) :
    f.placesIn (ns ++ ms) = f.placesIn ns ++ f.placesIn ms := by
  rw [placesIn, List.filter_append, List.flatMap_append]
  rfl

theorem placesIn_singleton (n : Node) :
    f.placesIn [n] = if f.isShown n then f.placesOf n else [] := by
  unfold placesIn
  by_cases h : f.isShown n
  · simp [h]
  · simp [h]

/-- The text of a subtree, around a subtree in it. -/
theorem visibleChars_of_infix {r n : Node} {before after : List Node}
    (h : f.preorder r = before ++ (f.preorder n ++ after)) :
    f.visibleChars r = (f.placesIn before).map Place.char
      ++ (f.visibleChars n ++ (f.placesIn after).map Place.char) := by
  rw [visibleChars, places_eq, h, placesIn_append, placesIn_append, List.map_append,
    List.map_append, ← places_eq, ← visibleChars]

theorem placesIn_flatMap (ns : List Node) :
    f.placesIn (ns.flatMap f.preorder) = ns.flatMap f.places := by
  induction ns with
  | nil => rfl
  | cons n ns ih => rw [List.flatMap_cons, placesIn_append, ih, List.flatMap_cons, places_eq]

theorem length_placesOf (t : Node) : (f.placesOf t).length = (f.characters t).length := by
  simp [placesOf]

theorem map_char_placesOf (t : Node) : (f.placesOf t).map Place.char = f.characters t := by
  rw [placesOf, List.map_map]
  exact List.zipIdx_map_fst 0 _

theorem map_char_placesIn (ns : List Node) :
    (f.placesIn ns).map Place.char = (ns.filter f.isShown).flatMap f.characters := by
  rw [placesIn, List.map_flatMap]
  exact flatMap_congr_mem fun t _ => map_char_placesOf t

theorem mem_placesOf {p : Place} {t : Node} :
    p ∈ f.placesOf t ↔ p.node = t ∧ (f.characters t)[p.index]? = some p.char := by
  obtain ⟨c, n, i⟩ := p
  simp only [placesOf, List.mem_map, Prod.exists, Place.mk.injEq, List.mk_mem_zipIdx_iff_getElem?]
  constructor
  · rintro ⟨c', i', h, rfl, rfl, rfl⟩
    exact ⟨rfl, h⟩
  · rintro ⟨rfl, h⟩
    exact ⟨c, i, h, rfl, rfl, rfl⟩

theorem mem_placesIn {p : Place} {ns : List Node} (h : p ∈ f.placesIn ns) :
    p.node ∈ ns ∧ f.isShown p.node = true ∧ p ∈ f.placesOf p.node := by
  obtain ⟨t, ht, hp⟩ := List.mem_flatMap.mp h
  obtain ⟨hmem, hs⟩ := List.mem_filter.mp ht
  obtain rfl := (mem_placesOf.mp hp).1
  exact ⟨hmem, hs, hp⟩

/-- The characters with an index below a bound are the first ones. -/
theorem filter_index_lt (t : Node) (cs : List Char) (i k : Nat) :
    ((cs.zipIdx k).map fun (c, j) => Place.mk c t j).filter (fun p => decide (p.index < i))
      = ((cs.zipIdx k).map fun (c, j) => Place.mk c t j).take (i - k) := by
  induction cs generalizing k with
  | nil => simp
  | cons c cs ih =>
    rw [List.zipIdx_cons, List.map_cons, List.filter_cons, ih (k + 1)]
    by_cases h : k < i
    · have e : i - k = (i - (k + 1)) + 1 := by omega
      rw [if_pos (decide_eq_true h), e, List.take_succ_cons]
    · have e : i - k = 0 := by omega
      have e' : i - (k + 1) = 0 := by omega
      rw [if_neg (by simpa using h), e, e', List.take_zero, List.take_zero]

/-- A condition that passes from later to earlier elements keeps the first elements of a list. -/
theorem filter_prefix_of_pairwise {α : Type} {R : α → α → Prop} {P : α → Bool} {xs : List α}
    (hs : xs.Pairwise R) (down : ∀ a ∈ xs, ∀ b ∈ xs, R a b → P b = true → P a = true) :
    xs.filter P <+: xs := by
  induction xs with
  | nil => exact List.prefix_rfl
  | cons x xs ih =>
    rw [List.pairwise_cons] at hs
    by_cases hx : P x = true
    · rw [List.filter_cons_of_pos hx, List.prefix_cons_inj]
      exact ih hs.2 fun a ha b hb => down a (List.mem_cons_of_mem _ ha) b (List.mem_cons_of_mem _ hb)
    · have hnone : (x :: xs).filter P = [] := by
        refine List.filter_eq_nil_iff.mpr fun y hy hP => ?_
        rcases List.mem_cons.mp hy with rfl | hy
        · exact hx hP
        · exact hx (down x List.mem_cons_self y (List.mem_cons_of_mem _ hy) (hs.1 y hy) hP)
      rw [hnone]
      exact List.nil_prefix

/-- A shown node is a text. -/
theorem isText_of_isShown {t : Node} (h : f.isShown t = true) : f.isText t = true := by
  unfold isShown at h
  exact (Bool.and_eq_true_iff.mp h).1

theorem not_isShown_of_not_isText {n : Node} (h : f.isText n = false) : f.isShown n = false := by
  rw [isShown, h, Bool.false_and]

theorem not_isShown_of_isElement {n : Node} (h : f.isElement n = true) : f.isShown n = false :=
  not_isShown_of_not_isText (not_isText_of_isElement h)

theorem not_container_of_isText {t : Node} (h : f.isText t = true) :
    (f.kind t).isContainer = false := by
  rw [kind_of_isText h]
  rfl

theorem not_container_of_isShown {t : Node} (h : f.isShown t = true) :
    (f.kind t).isContainer = false :=
  not_container_of_isText (isText_of_isShown h)

theorem length_of_isText {t : Node} (h : f.isText t = true) :
    f.length t = (f.characters t).length := by
  rw [length, not_container_of_isText h]
  rfl

theorem length_of_isShown {t : Node} (h : f.isShown t = true) :
    f.length t = (f.characters t).length :=
  length_of_isText (isText_of_isShown h)

theorem isBefore_of_same {p : Place} {t : Node} (h : p ∈ f.placesOf t) (i : Nat) :
    p.before.isBefore f ⟨t, i⟩ = decide (p.index < i) := by
  obtain rfl := (mem_placesOf.mp h).1
  have e : p.before.compare f ⟨p.node, i⟩ = .ok (compare p.index i) := Boundary.compare_same rfl
  rw [Bool.eq_iff_iff, Boundary.isBefore_iff, e, decide_eq_true_iff, Except.ok.injEq,
    Nat.compare_eq_lt]

theorem filter_placesOf (t : Node) (i : Nat) :
    (f.placesOf t).filter (fun p => p.before.isBefore f ⟨t, i⟩) = (f.placesOf t).take i := by
  rw [List.filter_congr fun p hp => isBefore_of_same hp i]
  exact filter_index_lt t (f.characters t) i 0

theorem pairwise_placesOf (t : Node) :
    (f.placesOf t).Pairwise fun p q => p.before.isBefore f q.before = true := by
  rw [List.pairwise_iff_getElem]
  intro i j hi hj hij
  have hindex : ∀ {k : Nat} (hk : k < (f.placesOf t).length), (f.placesOf t)[k].index = k := by
    intro k hk
    simp [placesOf]
  have hbefore := isBefore_of_same (List.getElem_mem hi) (f.placesOf t)[j].index
  rw [hindex hi, hindex hj, decide_eq_true hij] at hbefore
  have e : (f.placesOf t)[j].before = ⟨t, j⟩ := by
    rw [Place.before, hindex hj, (mem_placesOf.mp (List.getElem_mem hj)).1]
  rw [e, hbefore]

theorem inBounds_of_mem_places {r : Node} {p : Place} (h : p ∈ f.places r) :
    p.before.InBounds f ∧ p.after.InBounds f := by
  obtain ⟨-, hs, hp⟩ := mem_placesIn h
  have hi := (List.getElem?_eq_some_iff.mp (mem_placesOf.mp hp).2).1
  rw [← length_of_isShown hs] at hi
  exact ⟨Nat.le_of_lt hi, hi⟩

namespace WellFormed

variable (wf : f.WellFormed)

include wf

theorem not_above_of_isText {t n : Node} (h : f.isText t = true) : t ∉ f.ancestors n := by
  intro ha
  obtain ⟨c, hc, -⟩ := wf.exists_child_within ha
  rw [wf.children_of_not_container (not_container_of_isText h)] at hc
  cases hc

theorem not_above_of_isShown {t n : Node} (h : f.isShown t = true) : t ∉ f.ancestors n :=
  wf.not_above_of_isText (isText_of_isShown h)

/-! ## Before and after a boundary -/

/-- A character of an earlier text is before the boundary. -/
theorem isBefore_of_earlier {p : Place} {b : Boundary} (hs : f.isShown p.node = true)
    (h : f.compareOrder p.node b.container = .ok .lt) : p.before.isBefore f b = true := by
  exact Boundary.isBefore_iff.mpr (wf.compare_of_earlier h (wf.not_above_of_isShown hs))

/-- A character of a later text that is not inside the container is not before the boundary. -/
theorem not_isBefore_of_later {p : Place} {b : Boundary}
    (h : f.compareOrder b.container p.node = .ok .lt) (ha : b.container ∉ f.ancestors p.node) :
    p.before.isBefore f b = false := by
  rw [Boundary.isBefore, wf.compare_of_later (a := p.before) h ha]

/-- What lies before a boundary inside a node lies before the node or in it. -/
theorem placesBefore_within {r n : Node} {b : Boundary} {before after : List Node} (hr : f.Has r)
    (h : f.preorder r = before ++ (f.preorder n ++ after)) (hn : f.Has n)
    (hb : f.Within n b.container) :
    f.placesBefore r b = f.placesIn before ++ f.placesBefore n b := by
  have hmem : b.container ∈ f.preorder n := (wf.mem_preorder_iff hn).mpr hb
  have hp := wf.pairwise_preorder hr
  have hnd := wf.nodup_preorder hr
  rw [h, List.pairwise_append, List.pairwise_append] at hp
  rw [h, List.nodup_append, List.nodup_append] at hnd
  have hfront : ∀ p ∈ f.placesIn before, p.before.isBefore f b = true := by
    intro p hp'
    obtain ⟨hm, hs, -⟩ := mem_placesIn hp'
    exact wf.isBefore_of_earlier hs (hp.2.2 _ hm _ (List.mem_append_left _ hmem))
  have hback : ∀ p ∈ f.placesIn after, p.before.isBefore f b = false := by
    intro p hp'
    obtain ⟨hm, -, -⟩ := mem_placesIn hp'
    refine wf.not_isBefore_of_later (hp.2.1.2.2 _ hmem _ hm) fun ha => ?_
    -- a text below the container would be listed with the node, not after it
    have hin : p.node ∈ f.preorder n :=
      (wf.mem_preorder_iff hn).mpr (wf.within_trans hb (Or.inr ha))
    exact hnd.2.1.2.2 _ hin _ hm rfl
  rw [placesBefore, places_eq, h, placesIn_append, placesIn_append, List.filter_append,
    List.filter_append, List.filter_eq_self.mpr hfront, ← places_eq, ← placesBefore,
    List.filter_eq_nil_iff.mpr fun p hm => by rw [hback p hm]; exact Bool.false_ne_true,
    List.append_nil]

/-- The visible characters of a text are its own if it is shown, and there are none if it is not. -/
theorem places_text {t : Node} (ht : f.isText t = true) :
    f.places t = if f.isShown t then f.placesOf t else [] := by
  have hkids := wf.children_of_not_container (not_container_of_isText ht)
  rw [places_eq, wf.preorder_of_leaf (has_of_isText ht) hkids, placesIn_singleton]

/-- The visible characters of a text before an offset in it are the first ones. -/
theorem placesBefore_text {t : Node} (ht : f.isText t = true) (i : Nat) :
    f.placesBefore t ⟨t, i⟩ = (f.places t).take i := by
  rw [placesBefore, wf.places_text ht]
  split
  · exact filter_placesOf t i
  · rw [List.take_nil, List.filter_nil]

/-- A character inside a child is before a boundary if the whole child is. -/
theorem isBefore_of_child {p : Place} {b : Boundary} {c : Node}
    (hc : c ∈ f.children b.container) (h : f.Within c p.node) :
    p.before.isBefore f b = decide (f.slot c < b.offset) := by
  have ha : b.container ∈ f.ancestors p.node := wf.mem_ancestors_of_within_child hc h
  have hforward := wf.compareForward_of_child (b := p.before) hc h
  rw [Boundary.isBefore, Boundary.compare_backward (wf.compareOrder_of_above ha) hforward]
  by_cases hs : f.slot c < b.offset
  · simp [hs]
  · simp [hs]

/-- A boundary in a container lies after the children before its offset. -/
theorem placesBefore_children {n : Node} {left right : List Node} (hn : f.Has n)
    (h : f.children n = left ++ right) :
    f.placesBefore n ⟨n, left.length⟩ = left.flatMap f.places := by
  have hown : ((f.placesIn [n]).filter fun p => p.before.isBefore f ⟨n, left.length⟩) = [] := by
    rw [placesIn_singleton]
    by_cases hs : f.isShown n = true
    · have hkids := wf.children_of_not_container (not_container_of_isShown hs)
      rw [h, List.append_eq_nil_iff] at hkids
      rw [if_pos hs, filter_placesOf, hkids.1, List.length_nil, List.take_zero]
    · rw [if_neg hs, List.filter_nil]
  have hleft : ∀ p ∈ left.flatMap f.places, p.before.isBefore f ⟨n, left.length⟩ = true := by
    intro p hp
    obtain ⟨c, hc, hpc⟩ := List.mem_flatMap.mp hp
    obtain ⟨l, l', rfl⟩ := List.append_of_mem hc
    have hmem : c ∈ f.children n := h ▸ List.mem_append_left _ hc
    rw [wf.isBefore_of_child hmem
      ((wf.mem_preorder_iff (wf.has_child hmem)).mp (mem_placesIn hpc).1),
      wf.slot_eq (h.trans (by rw [List.append_assoc, List.cons_append])), decide_eq_true_iff]
    show l.length < (l ++ c :: l').length
    rw [List.length_append, List.length_cons]
    omega
  have hright : ∀ p ∈ right.flatMap f.places,
      ¬ p.before.isBefore f ⟨n, left.length⟩ = true := by
    intro p hp
    obtain ⟨c, hc, hpc⟩ := List.mem_flatMap.mp hp
    obtain ⟨l, l', rfl⟩ := List.append_of_mem hc
    have hmem : c ∈ f.children n := h ▸ List.mem_append_right _ hc
    rw [wf.isBefore_of_child hmem
      ((wf.mem_preorder_iff (wf.has_child hmem)).mp (mem_placesIn hpc).1),
      wf.slot_eq (h.trans (List.append_assoc ..).symm), decide_eq_true_iff]
    show ¬ (left ++ l).length < left.length
    rw [List.length_append]
    omega
  have hsplit : f.places n = f.placesIn [n] ++ (left.flatMap f.places ++ right.flatMap f.places) := by
    rw [places_eq, wf.preorder_eq hn, h, ← List.singleton_append, placesIn_append, placesIn_flatMap,
      List.flatMap_append]
  rw [placesBefore, hsplit, List.filter_append, List.filter_append, hown, List.nil_append,
    List.filter_eq_self.mpr hleft, List.filter_eq_nil_iff.mpr hright, List.append_nil]

/-! ## Offsets -/

theorem textOffset_start {n : Node} (hn : f.Has n) : f.textOffset n ⟨n, 0⟩ = 0 := by
  have h : f.placesBefore n ⟨n, 0⟩ = [] := wf.placesBefore_children hn (List.nil_append _).symm
  rw [textOffset, h, List.length_nil]

theorem textOffset_children {n : Node} {left right : List Node} (hn : f.Has n)
    (h : f.children n = left ++ right) :
    f.textOffset n ⟨n, left.length⟩ = (left.flatMap f.places).length := by
  rw [textOffset, wf.placesBefore_children hn h]

/-- A subtree starts behind all that is before it. -/
theorem textOffset_of_infix {r n : Node} {before after : List Node} (hr : f.Has r)
    (h : f.preorder r = before ++ (f.preorder n ++ after)) (hn : f.Has n) :
    f.textOffset r ⟨n, 0⟩ = (f.placesIn before).length := by
  rw [textOffset, wf.placesBefore_within hr h hn (.refl f n), List.length_append, ← textOffset,
    wf.textOffset_start hn, Nat.add_zero]

/-- Offsets in a subtree count on from where the subtree starts. -/
theorem textOffset_within {r n : Node} {b : Boundary} (hr : f.Has r) (hn : f.Within r n)
    (hb : f.Within n b.container) :
    f.textOffset r b = f.textOffset r ⟨n, 0⟩ + f.textOffset n b := by
  have hn' := wf.has_of_within hr hn
  obtain ⟨before, after, h⟩ := wf.preorder_infix hr hn
  rw [textOffset, wf.placesBefore_within hr h hn' hb, List.length_append, ← textOffset,
    wf.textOffset_of_infix hr h hn']

theorem textOffset_text {t : Node} {i : Nat} (hs : f.isShown t = true)
    (hi : i ≤ (f.characters t).length) : f.textOffset t ⟨t, i⟩ = i := by
  have ht := isText_of_isShown hs
  rw [textOffset, wf.placesBefore_text ht, wf.places_text ht, if_pos hs, List.length_take,
    length_placesOf]
  omega

/-- A boundary in a shown text is as far from its start as its offset says. -/
theorem textOffset_in_text {r t : Node} {i : Nat} (hr : f.Has r) (ht : f.Within r t)
    (hs : f.isShown t = true) (hi : i ≤ (f.characters t).length) :
    f.textOffset r ⟨t, i⟩ = f.textOffset r ⟨t, 0⟩ + i := by
  rw [wf.textOffset_within hr ht (.refl f t), wf.textOffset_text hs hi]

/-- A node with children holds no characters itself. -/
theorem placesIn_parent {p c : Node} (hc : c ∈ f.children p) : f.placesIn [p] = [] := by
  have hs : ¬ f.isShown p = true := by
    intro hs
    rw [wf.children_of_not_container (not_container_of_isShown hs)] at hc
    cases hc
  rw [placesIn_singleton, if_neg hs]

/-- The boundary before a node is where the node starts. -/
theorem textOffset_before_child {r p c : Node} (hr : f.Has r) (hp : f.Within r p)
    (hc : c ∈ f.children p) : f.textOffset r ⟨p, f.slot c⟩ = f.textOffset r ⟨c, 0⟩ := by
  obtain ⟨left, right, h⟩ := List.append_of_mem hc
  have hpc : f.Within p c := wf.within_child (.refl f p) hc
  have hp' := wf.has_of_within hr hp
  have hstart : f.textOffset p ⟨c, 0⟩ = (left.flatMap f.places).length := by
    rw [textOffset,
      wf.placesBefore_within hp' (wf.preorder_of_children h) (wf.has_child hc) (.refl f c),
      List.length_eq_zero_iff.mp (wf.textOffset_start (wf.has_child hc)), List.append_nil,
      ← List.singleton_append, placesIn_append, wf.placesIn_parent hc, List.nil_append,
      placesIn_flatMap]
  rw [wf.textOffset_within hr hp (b := ⟨p, _⟩) (.refl f p),
    wf.textOffset_within hr hp (b := ⟨c, 0⟩) hpc, wf.slot_eq h, wf.textOffset_children hp' h,
    hstart]

/-- The boundary after a node is where its text ends. -/
theorem textOffset_after_child {r p c : Node} (hr : f.Has r) (hp : f.Within r p)
    (hc : c ∈ f.children p) :
    f.textOffset r ⟨p, f.slot c + 1⟩ = f.textOffset r ⟨c, 0⟩ + (f.places c).length := by
  obtain ⟨left, right, h⟩ := List.append_of_mem hc
  have hp' := wf.has_of_within hr hp
  have h' : f.children p = (left ++ [c]) ++ right := by
    rw [h, List.append_assoc, List.singleton_append]
  have hlen : f.slot c + 1 = (left ++ [c]).length := by
    rw [wf.slot_eq h, List.length_append, List.length_singleton]
  rw [← wf.textOffset_before_child hr hp hc, wf.textOffset_within hr hp (b := ⟨p, _⟩) (.refl f p),
    wf.textOffset_within hr hp (b := ⟨p, f.slot c⟩) (.refl f p), hlen, wf.slot_eq h,
    wf.textOffset_children hp' h', wf.textOffset_children hp' h, List.flatMap_append,
    List.length_append, List.flatMap_singleton, Nat.add_assoc]

/-! ## The order of the characters -/

/-- The characters of texts in document order are in order. -/
theorem pairwise_flatMap_placesOf {ts : List Node}
    (hts : ts.Pairwise fun t u => f.compareOrder t u = .ok .lt)
    (htext : ∀ t ∈ ts, f.isText t = true) :
    (ts.flatMap f.placesOf).Pairwise fun p q => p.before.isBefore f q.before = true := by
  rw [List.pairwise_flatMap]
  refine ⟨fun t _ => pairwise_placesOf t, hts.imp_of_mem fun {t u} ht _ htu p hpt q hqu => ?_⟩
  obtain rfl := (mem_placesOf.mp hpt).1
  obtain rfl := (mem_placesOf.mp hqu).1
  exact Boundary.isBefore_iff.mpr (wf.compare_of_earlier (a := p.before) (b := q.before) htu
    (wf.not_above_of_isText (htext _ ht)))

/-- The visible characters of a subtree are listed in order. -/
theorem pairwise_places {r : Node} (hr : f.Has r) :
    (f.places r).Pairwise fun p q => p.before.isBefore f q.before = true :=
  wf.pairwise_flatMap_placesOf ((wf.pairwise_preorder hr).filter f.isShown) fun _ ht =>
    isText_of_isShown (List.mem_filter.mp ht).2

/-- Of characters in order, those before a boundary are the first ones. -/
theorem filter_before_eq_take {r : Node} {b : Boundary} {ps : List Place}
    (hps : ps.Pairwise fun p q => p.before.isBefore f q.before = true)
    (hw : ∀ p ∈ ps, f.Within r p.node) (hb : f.Within r b.container) :
    ps.filter (fun p => p.before.isBefore f b)
      = ps.take (ps.filter fun p => p.before.isBefore f b).length := by
  refine List.prefix_iff_eq_take.mp (filter_prefix_of_pairwise hps fun p hp q hq hpq hqb => ?_)
  rw [Boundary.isBefore_iff] at hpq hqb ⊢
  exact wf.compare_trans (b := q.before) (hw p hp) (hw q hq) hb hpq hqb (by decide)

theorem within_of_mem_places {r : Node} {p : Place} (hr : f.Has r) (h : p ∈ f.places r) :
    f.Within r p.node :=
  (wf.mem_preorder_iff hr).mp (mem_placesIn h).1

/-- Before a later boundary are no fewer of some characters. -/
theorem length_filter_before_le {r : Node} {a b : Boundary} {ps : List Place}
    (hw : ∀ p ∈ ps, f.Within r p.node) (ha : f.Within r a.container) (hb : f.Within r b.container)
    {o : Ordering} (h : a.compare f b = .ok o) (ho : o ≠ .gt) :
    (ps.filter fun p => p.before.isBefore f a).length
      ≤ (ps.filter fun p => p.before.isBefore f b).length := by
  rw [← List.countP_eq_length_filter, ← List.countP_eq_length_filter]
  refine List.countP_mono_left fun p hp hpa => ?_
  rw [Boundary.isBefore_iff] at hpa ⊢
  exact wf.compare_trans (a := p.before) (hw p hp) ha hb hpa h ho

/-- **What lies before a boundary** are the first characters of the text. -/
theorem placesBefore_eq_take {r : Node} {b : Boundary} (hr : f.Has r)
    (hb : f.Within r b.container) :
    f.placesBefore r b = (f.places r).take (f.textOffset r b) :=
  wf.filter_before_eq_take (wf.pairwise_places hr) (fun _ hp => wf.within_of_mem_places hr hp) hb

theorem chars_before {r : Node} {b : Boundary} (hr : f.Has r) (hb : f.Within r b.container) :
    (f.placesBefore r b).map Place.char = (f.visibleChars r).take (f.textOffset r b) := by
  rw [wf.placesBefore_eq_take hr hb, List.map_take, visibleChars]

/-- **A later boundary has no smaller offset.** -/
theorem textOffset_mono {r : Node} {a b : Boundary} (hr : f.Has r) (ha : f.Within r a.container)
    (hb : f.Within r b.container) {o : Ordering} (h : a.compare f b = .ok o) (ho : o ≠ .gt) :
    f.textOffset r a ≤ f.textOffset r b :=
  wf.length_filter_before_le (fun _ hp => wf.within_of_mem_places hr hp) ha hb h ho

/-- Offsets that differ tell the order. -/
theorem compare_of_textOffset_lt {r : Node} {a b : Boundary} (hr : f.Has r)
    (ha : f.Within r a.container) (hb : f.Within r b.container)
    (h : f.textOffset r a < f.textOffset r b) : a.compare f b = .ok .lt := by
  obtain ⟨o, ho⟩ := wf.exists_compare ha hb
  have hswap := wf.compare_swap ha hb ho
  cases o
  · exact ho
  · have hle := wf.textOffset_mono hr hb ha hswap (by decide)
    omega
  · have hle := wf.textOffset_mono hr hb ha hswap (by decide)
    omega

/-- The boundaries around the `k`-th character, counted from zero. -/
theorem textOffset_place {r : Node} {p : Place} {k : Nat} (hr : f.Has r)
    (h : (f.places r)[k]? = some p) :
    f.textOffset r p.before = k ∧ f.textOffset r p.after = k + 1 := by
  obtain ⟨hk, hget⟩ := List.getElem?_eq_some_iff.mp h
  have hmem : p ∈ f.places r := hget ▸ List.getElem_mem hk
  have hw := wf.within_of_mem_places hr hmem
  obtain ⟨-, hs, hp⟩ := mem_placesIn hmem
  have hi : p.index < (f.characters p.node).length :=
    (List.getElem?_eq_some_iff.mp (mem_placesOf.mp hp).2).1
  have hsplit : f.places r = (f.places r).take k ++ p :: (f.places r).drop (k + 1) := by
    rw [← hget, List.getElem_cons_drop, List.take_append_drop]
  have hpair := wf.pairwise_places hr
  rw [hsplit, List.pairwise_append, List.pairwise_cons] at hpair
  have hbefore : f.textOffset r p.before = k := by
    have hright : ∀ q ∈ p :: (f.places r).drop (k + 1), ¬ q.before.isBefore f p.before = true := by
      intro q hq
      rcases List.mem_cons.mp hq with rfl | hq
      · simp [Boundary.isBefore, Boundary.compare_self]
      · have hpq := Boundary.isBefore_iff.mp (hpair.2.1.1 q hq)
        have hqw := wf.within_of_mem_places hr (List.mem_of_mem_drop hq)
        have hqp := wf.compare_swap (a := p.before) (b := q.before) hw hqw hpq
        simp [Boundary.isBefore, hqp]
    rw [textOffset, placesBefore, hsplit, List.filter_append,
      List.filter_eq_self.mpr fun q hq => hpair.2.2 q hq p List.mem_cons_self,
      List.filter_eq_nil_iff.mpr hright, List.append_nil, List.length_take]
    omega
  refine ⟨hbefore, ?_⟩
  have e := wf.textOffset_in_text hr hw hs (Nat.le_of_lt hi)
  have e' := wf.textOffset_in_text hr hw hs hi
  rw [Place.before] at hbefore
  rw [Place.after, e', ← hbefore, e, Nat.add_assoc]

/-- The offset of a boundary in a text: all that is before the text, and then the boundary's own. -/
theorem textOffset_of_preorder {r t : Node} {before after : List Node} {i : Nat} (hr : f.Has r)
    (h : f.preorder r = before ++ t :: after) (hs : f.isShown t = true)
    (hi : i ≤ (f.characters t).length) :
    f.textOffset r ⟨t, i⟩ = (f.placesIn before).length + i := by
  have hmem : t ∈ f.preorder r := h ▸ List.mem_append_right _ List.mem_cons_self
  have ht := wf.has_of_within hr ((wf.mem_preorder_iff hr).mp hmem)
  have hkids := wf.children_of_not_container (not_container_of_isShown hs)
  have h' : f.preorder r = before ++ (f.preorder t ++ after) := by
    rw [wf.preorder_of_leaf ht hkids, List.singleton_append, h]
  rw [textOffset, wf.placesBefore_within hr h' ht (.refl f t), List.length_append, ← textOffset,
    wf.textOffset_text hs hi]

/-- A character with a text node and an index is the one at the offset of its place. -/
theorem getElem?_places {r t : Node} {i : Nat} {c : Char} (hr : f.Has r) (ht : f.Within r t)
    (hs : f.isShown t = true) (hc : (f.characters t)[i]? = some c) :
    (f.places r)[f.textOffset r ⟨t, i⟩]? = some ⟨c, t, i⟩ := by
  have hi : i < (f.characters t).length := (List.getElem?_eq_some_iff.mp hc).1
  obtain ⟨before, after, h⟩ := List.append_of_mem ((wf.mem_preorder_iff hr).mpr ht)
  have hplaces : f.places r = f.placesIn before ++ (f.placesOf t ++ f.placesIn after) := by
    rw [places_eq, h, ← List.singleton_append, placesIn_append, placesIn_append,
      placesIn_singleton, if_pos hs]
  rw [hplaces, wf.textOffset_of_preorder hr h hs (Nat.le_of_lt hi),
    List.getElem?_append_right (Nat.le_add_right _ _), Nat.add_sub_cancel_left,
    List.getElem?_append_left (by rw [length_placesOf]; exact hi), placesOf, List.getElem?_map,
    List.getElem?_zipIdx, hc]
  simp

/-- Where a text has a character, the text around it has it too. -/
theorem exists_getElem?_places {r t : Node} {i : Nat} (hr : f.Has r) (ht : f.Within r t)
    (hs : f.isShown t = true) (hi : i < (f.characters t).length) :
    ∃ c, (f.places r)[f.textOffset r ⟨t, i⟩]? = some ⟨c, t, i⟩ :=
  ⟨_, wf.getElem?_places hr ht hs (List.getElem?_eq_getElem hi)⟩

/-- A character before a boundary has a smaller offset. -/
theorem lt_textOffset {r : Node} {p : Place} {b : Boundary} {k : Nat} (hr : f.Has r)
    (hb : f.Within r b.container) (hk : (f.places r)[k]? = some p)
    (h : p.before.compare f b = .ok .lt) : k < f.textOffset r b := by
  have hp : p ∈ f.placesBefore r b :=
    List.mem_filter.mpr ⟨List.mem_of_getElem? hk, Boundary.isBefore_iff.mpr h⟩
  rw [wf.placesBefore_eq_take hr hb] at hp
  obtain ⟨j, hj⟩ := List.mem_iff_getElem?.mp hp
  rw [List.getElem?_take, Option.ite_none_right_eq_some] at hj
  rw [← (wf.textOffset_place hr hk).1, (wf.textOffset_place hr hj.2).1]
  exact hj.1

/-! ## The end of the text -/

/-- The end of the text of a node lies in the node. -/
theorem endOfText_spec {n : Node} (hn : f.Has n) :
    f.Within n (f.endOfText n).container ∧ (f.endOfText n).InBounds f := by
  unfold endOfText
  split
  · next t ht =>
    have hmem := List.mem_of_getLast? ht
    exact ⟨(wf.mem_preorder_iff hn).mp (List.mem_filter.mp hmem).1, Nat.le_refl _⟩
  · exact ⟨.refl f n, Nat.zero_le _⟩

theorem textOffset_endOfText {n : Node} (hn : f.Has n) :
    f.textOffset n (f.endOfText n) = (f.places n).length := by
  unfold endOfText
  split
  · next t ht =>
    obtain ⟨init, e⟩ := List.getLast?_eq_some_iff.mp ht
    have hord := (wf.pairwise_preorder hn).filter f.isShown
    rw [← shownTexts, e, List.pairwise_append] at hord
    have hshown : f.isShown t = true := (List.mem_filter.mp (List.mem_of_getLast? ht)).2
    rw [textOffset, placesBefore, List.filter_eq_self.mpr]
    intro p hp
    obtain ⟨u, hu, hpu⟩ := List.mem_flatMap.mp hp
    obtain rfl := (mem_placesOf.mp hpu).1
    have hs := (List.mem_filter.mp hu).2
    rw [e, List.mem_append, List.mem_singleton] at hu
    rcases hu with hu | rfl
    · exact wf.isBefore_of_earlier (b := ⟨t, _⟩) hs (hord.2.2 _ hu _ List.mem_cons_self)
    · rw [isBefore_of_same hpu, length_of_isShown hs, decide_eq_true_iff]
      exact (List.getElem?_eq_some_iff.mp (mem_placesOf.mp hpu).2).1
  · next hnone =>
    have hnil : f.shownTexts n = [] := List.getLast?_eq_none_iff.mp hnone
    rw [wf.textOffset_start hn, places, hnil, List.flatMap_nil, List.length_nil]

end WellFormed

end Forest

end TreePointer
