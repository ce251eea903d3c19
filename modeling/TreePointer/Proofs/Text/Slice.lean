import TreePointer.Proofs.Text.Counting

/-!
# The text of a range is a slice

Where no text is hidden, the text of a range is the part of the visible text between the offsets of
its ends. Blanks at the ends of that part are often not selected on purpose, and do not count as its
content: two slices whose ends differ by blanks alone are the same after trimming.

* `text_eq_slice_of_within`: the text of a range.
* `trim_slice`: slices up to blanks.
* `trim_slice_eq_iff`: whether a slice inside another one has all its content.
-/

namespace TreePointer

/-- The elements of a list from one index up to another. -/
def slice {α : Type} (xs : List α) (k m : Nat) : List α := (xs.take m).drop k

/-- A text without the blanks at its ends. -/
def trim (cs : List Char) : List Char :=
  ((cs.dropWhile isBlank).reverse.dropWhile isBlank).reverse

/-- Between two places of a text there are only blanks: the others are before both or neither. -/
def UpToBlanks (cs : List Char) (k m : Nat) : Prop :=
  ∀ i c, cs[i]? = some c → isBlank c = false → (i < k ↔ i < m)

namespace UpToBlanks

variable {cs : List Char} {k m n : Nat}

theorem refl (cs : List Char) (k : Nat) : UpToBlanks cs k k := fun _ _ _ _ => Iff.rfl

theorem symm (h : UpToBlanks cs k m) : UpToBlanks cs m k := fun i c hi hc => (h i c hi hc).symm

theorem trans (h : UpToBlanks cs k m) (h' : UpToBlanks cs m n) : UpToBlanks cs k n :=
  fun i c hi hc => (h i c hi hc).trans (h' i c hi hc)

theorem isBlank_of_mem (h : UpToBlanks cs k m) {i : Nat} {c : Char} (hi : cs[i]? = some c)
    (hk : k ≤ i) (hm : i < m) : isBlank c = true := by
  cases hc : isBlank c with
  | true => rfl
  | false => exact absurd ((h i c hi hc).mpr hm) (Nat.not_lt.mpr hk)

/-- A text of blanks has nothing else between any two places. -/
theorem of_blanks (h : ∀ c ∈ cs, isBlank c = true) (k m : Nat) : UpToBlanks cs k m := by
  intro i c hi hc
  rw [h c (List.mem_of_getElem? hi)] at hc
  cases hc

/-- Between two places with the same count nothing is counted. -/
theorem of_countTo (h : Counter.countTo cs k = Counter.countTo cs m) : UpToBlanks cs k m := by
  intro i c hi hc
  have hmem : i ∈ Counter.start.indices cs := Counter.mem_indices_iff.mpr ⟨c, hi, Or.inl hc⟩
  have hget := Counter.getElem?_countTo_of_mem hmem
  rw [Counter.lt_iff_lt_countTo hget, Counter.lt_iff_lt_countTo hget, h]

/-- Places of a part of a text, as places of the text. -/
theorem of_part {before after : List Char} (h : UpToBlanks cs k m) (hk : k ≤ cs.length)
    (hm : m ≤ cs.length) :
    UpToBlanks (before ++ (cs ++ after)) (before.length + k) (before.length + m) := by
  intro i c hi hc
  rcases Nat.lt_or_ge i before.length with hlt | hge
  · omega
  · rw [List.getElem?_append_right hge] at hi
    rcases Nat.lt_or_ge (i - before.length) cs.length with hin | hout
    · rw [List.getElem?_append_left hin] at hi
      have hiff := h _ c hi hc
      omega
    · omega

end UpToBlanks

/-- From one place of a text up to another there is what is from the third place up to the fourth,
but for blanks. -/
def SameContent (cs : List Char) (k m k' m' : Nat) : Prop :=
  ∀ i c, cs[i]? = some c → isBlank c = false → (k ≤ i ∧ i < m ↔ k' ≤ i ∧ i < m')

namespace SameContent

variable {cs : List Char} {k k' k'' m m' m'' : Nat}

theorem trans (h : SameContent cs k m k' m') (h' : SameContent cs k' m' k'' m'') :
    SameContent cs k m k'' m'' := fun i c hi hc => (h i c hi hc).trans (h' i c hi hc)

theorem of_upToBlanks (hk : UpToBlanks cs k k') (hm : UpToBlanks cs m m') :
    SameContent cs k m k' m' := by
  intro i c hi hc
  have hstart := hk i c hi hc
  have hstop := hm i c hi hc
  omega

/-- Where the end is not behind the start there is nothing. -/
theorem of_le (h : m ≤ k) (h' : m' ≤ k') : SameContent cs k m k' m' := by
  intro i c _ _
  omega

end SameContent

/-! ## Trimming -/

theorem trim_append_left {xs ys : List Char} (h : ∀ c ∈ xs, isBlank c = true) :
    trim (xs ++ ys) = trim ys := by
  rw [trim, List.dropWhile_append_of_pos h, trim]

theorem trim_append_right {xs ys : List Char} (h : ∀ c ∈ ys, isBlank c = true) :
    trim (xs ++ ys) = trim xs := by
  have hback : ∀ c ∈ ys.reverse, isBlank c = true := fun c hc => h c (List.mem_reverse.mp hc)
  rw [trim, trim, List.dropWhile_append]
  by_cases hxs : (xs.dropWhile isBlank).isEmpty = true
  · have hnil := List.isEmpty_iff.mp hxs
    have hys : ys.dropWhile isBlank = [] := by
      rw [← List.append_nil ys, List.dropWhile_append_of_pos h, List.dropWhile_nil]
    rw [if_pos hxs, hnil, hys]
  · rw [if_neg hxs, List.reverse_append, List.dropWhile_append_of_pos hback]

section Slices

variable {cs : List Char} {k k' m m' : Nat}

theorem mem_slice {c : Char} (h : c ∈ slice cs k m) : ∃ i, k ≤ i ∧ i < m ∧ cs[i]? = some c := by
  obtain ⟨j, hj⟩ := List.mem_iff_getElem?.mp h
  rw [slice, List.getElem?_drop, List.getElem?_take, Option.ite_none_right_eq_some] at hj
  exact ⟨k + j, Nat.le_add_right k j, hj⟩

theorem trim_slice_start (hkk : k ≤ k') (h : UpToBlanks cs k k') :
    trim (slice cs k m) = trim (slice cs k' m) := by
  have hsplit : slice cs k m = slice cs k (min k' m) ++ slice cs k' m := by
    have e : k' = k + (k' - k) := by omega
    rw [slice, slice, slice, ← List.take_take, e, ← List.drop_drop, ← List.take_drop,
      List.take_append_drop]
  rw [hsplit]
  refine trim_append_left fun c hc => ?_
  obtain ⟨i, hi, hm, hget⟩ := mem_slice hc
  exact h.isBlank_of_mem hget hi (by omega)

theorem trim_slice_stop (hmm : m ≤ m') (h : UpToBlanks cs m m') :
    trim (slice cs k m') = trim (slice cs k m) := by
  have hsplit : slice cs k m' = slice cs k m ++ (slice cs m m').drop (k - (cs.take m).length) := by
    have e : cs.take m' = cs.take m ++ slice cs m m' := by
      have htake : cs.take m = (cs.take m').take m := by rw [List.take_take, Nat.min_eq_left hmm]
      rw [htake, slice, List.take_append_drop]
    rw [slice, e, List.drop_append]
    rfl
  rw [hsplit]
  refine trim_append_right fun c hc => ?_
  obtain ⟨i, hi, hm, hget⟩ := mem_slice (List.mem_of_mem_drop hc)
  exact h.isBlank_of_mem hget hi hm

theorem slice_eq_nil (h : m ≤ k) : slice cs k m = [] := by
  rw [slice, List.drop_eq_nil_iff, List.length_take]
  omega

/-- **Slices whose ends differ by blanks alone** have the same content. -/
theorem trim_slice (hk : UpToBlanks cs k k') (hm : UpToBlanks cs m m') :
    trim (slice cs k m) = trim (slice cs k' m') := by
  have hstart : trim (slice cs k m) = trim (slice cs k' m) := by
    rcases Nat.le_total k k' with hle | hle
    · exact trim_slice_start hle hk
    · exact (trim_slice_start hle hk.symm).symm
  rw [hstart]
  rcases Nat.le_total m m' with hle | hle
  · exact (trim_slice_stop hle hm).symm
  · exact trim_slice_stop hle hm.symm

theorem trim_eq_nil (h : ∀ c ∈ cs, isBlank c = true) : trim cs = [] := by
  rw [← List.append_nil cs, trim_append_left h]
  rfl

/-- Slices with the same content are the same after trimming. -/
theorem SameContent.trim_slice (h : SameContent cs k m k' m') :
    trim (slice cs k m) = trim (slice cs k' m') := by
  by_cases hsome : ∃ i c, cs[i]? = some c ∧ isBlank c = false ∧ k ≤ i ∧ i < m
  · -- what has content has one start and one end, but for blanks
    obtain ⟨i, c, hi, hc, hk, hm⟩ := hsome
    have hin := (h i c hi hc).mp ⟨hk, hm⟩
    refine TreePointer.trim_slice (fun j b hj hb => ?_) fun j b hj hb => ?_
    · have hiff := h j b hj hb
      omega
    · have hiff := h j b hj hb
      omega
  · have hblank : ∀ {k m}, (∀ i c, cs[i]? = some c → isBlank c = false → ¬ (k ≤ i ∧ i < m)) →
        trim (slice cs k m) = [] := by
      intro k m hnone
      refine trim_eq_nil fun c hc => ?_
      obtain ⟨i, hk, hm, hi⟩ := mem_slice hc
      cases hb : isBlank c with
      | true => rfl
      | false => exact absurd ⟨hk, hm⟩ (hnone i c hi hb)
    rw [hblank fun i c hi hc hin => hsome ⟨i, c, hi, hc, hin⟩,
      hblank fun i c hi hc hin => hsome ⟨i, c, hi, hc, (h i c hi hc).mpr hin⟩]

/-- Trimming takes blanks away, and nothing else. -/
theorem filter_trim (cs : List Char) :
    (trim cs).filter (fun c => !isBlank c) = cs.filter fun c => !isBlank c := by
  have hdrop : ∀ xs : List Char,
      (xs.dropWhile isBlank).filter (fun c => !isBlank c) = xs.filter fun c => !isBlank c := by
    intro xs
    have hnone : (xs.takeWhile isBlank).filter (fun c => !isBlank c) = [] :=
      List.filter_eq_nil_iff.mpr fun c hc => by
        have hblank : isBlank c = true := List.all_eq_true.mp List.all_takeWhile c hc
        simp [hblank]
    have hsplit := congrArg (List.filter fun c => !isBlank c)
      (List.takeWhile_append_dropWhile (p := isBlank) (l := xs))
    rwa [List.filter_append, hnone, List.nil_append] at hsplit
  rw [trim, List.filter_reverse, hdrop, List.filter_reverse, hdrop, List.reverse_reverse]

theorem slice_append {α : Type} {xs : List α} (hkm : k ≤ k') (hm : k' ≤ m) :
    slice xs k m = slice xs k k' ++ slice xs k' m := by
  have e : k' = k + (k' - k) := by omega
  have htake : xs.take k' = (xs.take m).take k' := by rw [List.take_take, Nat.min_eq_left hm]
  rw [slice, slice, slice, htake, e, ← List.drop_drop, ← List.take_drop, List.take_append_drop]

theorem slice_sublist (hk : k ≤ k') (hm : m' ≤ m) : (slice cs k' m').Sublist (slice cs k m) :=
  ((List.take_sublist_take_left hm).drop k').trans (List.drop_sublist_drop_left _ hk)

/-- A slice inside another one that has lost a character that is no blank has less content. -/
theorem length_content_lt {i : Nat} {c : Char} (hi : cs[i]? = some c) (hc : isBlank c = false)
    (hk : k ≤ i) (hm : i < m) (hkk : k ≤ k') (hmm : m' ≤ m) (hout : i < k' ∨ m' ≤ i) :
    ((slice cs k' m').filter fun c => !isBlank c).length
      < ((slice cs k m).filter fun c => !isBlank c).length := by
  have hself : slice cs i (i + 1) = [c] := by
    rw [slice, List.take_add_one, hi, Option.toList_some, List.drop_append, List.length_take]
    have hlt := (List.getElem?_eq_some_iff.mp hi).1
    rw [List.drop_eq_nil_iff.mpr (by rw [List.length_take]; omega), Nat.min_eq_left (by omega),
      Nat.sub_self]
    rfl
  rw [slice_append hk (Nat.le_of_lt hm), slice_append (Nat.le_add_right i 1) hm, hself,
    List.filter_append, List.filter_append, List.length_append, List.length_append,
    List.filter_cons_of_pos (by rw [hc]; rfl), List.filter_nil, List.length_singleton]
  rcases hout with hlt | hge
  · have hsub : (slice cs k' m').Sublist (slice cs (i + 1) m) := slice_sublist hlt hmm
    have hle := (hsub.filter fun c => !isBlank c).length_le
    omega
  · have hsub : (slice cs k' m').Sublist (slice cs k i) := slice_sublist hkk hge
    have hle := (hsub.filter fun c => !isBlank c).length_le
    omega

/-- **A slice inside another one** is the same after trimming just if it has the same content. -/
theorem trim_slice_eq_iff (hkk : k ≤ k') (hmm : m' ≤ m) :
    trim (slice cs k' m') = trim (slice cs k m) ↔
      ∀ i c, cs[i]? = some c → isBlank c = false → k ≤ i → i < m → k' ≤ i ∧ i < m' := by
  constructor
  · intro h i c hi hc hk hm
    refine Decidable.byContradiction fun hout => ?_
    have hlt := length_content_lt hi hc hk hm hkk hmm (by omega)
    rw [← filter_trim (slice cs k' m'), h, filter_trim] at hlt
    exact Nat.lt_irrefl _ hlt
  · intro h
    refine SameContent.trim_slice fun i c hi hc => ⟨fun hin => ?_, fun hin => ?_⟩
    · omega
    · exact h i c hi hc hin.1 hin.2

end Slices

/-! ## The text of a range -/

/-- The elements after the first ones, if those are the ones that meet a condition. -/
theorem filter_not_take {α : Type} {P : α → Bool} {xs : List α} {k : Nat}
    (h : xs.filter P = xs.take k) (m : Nat) :
    (xs.take m).filter (fun x => !P x) = slice xs k m := by
  have hfirst : ∀ x ∈ xs.take k, P x = true := by
    intro x hx
    rw [← h] at hx
    exact (List.mem_filter.mp hx).2
  have hrest : ∀ x ∈ xs.drop k, P x = false := by
    have hsplit : (xs.take k ++ xs.drop k).filter P = xs.take k := by
      rw [List.take_append_drop, h]
    rw [List.filter_append, List.filter_eq_self.mpr hfirst] at hsplit
    have hnil := List.filter_eq_nil_iff.mp (List.append_right_eq_self.mp hsplit)
    exact fun x hx => by simpa using hnil x hx
  have hnone : ((xs.take m).take k).filter (fun x => !P x) = [] := by
    refine List.filter_eq_nil_iff.mpr fun x hx => ?_
    rw [List.take_take, Nat.min_comm, ← List.take_take] at hx
    simp [hfirst x (List.mem_of_mem_take hx)]
  have hall : ((xs.take m).drop k).filter (fun x => !P x) = (xs.take m).drop k := by
    refine List.filter_eq_self.mpr fun x hx => ?_
    rw [List.drop_take] at hx
    simp [hrest x (List.mem_of_mem_take hx)]
  have htake : (xs.take m).take k ++ (xs.take m).drop k = xs.take m := List.take_append_drop ..
  rw [← htake, List.filter_append, hnone, hall, List.nil_append, slice]

theorem mapM_of_ok {α β ε : Type} {g : α → Except ε β} {h : α → β} {xs : List α}
    (e : ∀ x ∈ xs, g x = .ok (h x)) : xs.mapM g = .ok (xs.map h) := by
  induction xs with
  | nil => rfl
  | cons x xs ih =>
    rw [List.mapM_cons, e x List.mem_cons_self,
      ih fun y hy => e y (List.mem_cons_of_mem _ hy)]
    rfl

/-- A boundary in a shown text of a subtree. -/
structure Boundary.InShown (f : Forest) (r : Node) (b : Boundary) : Prop where
  within : f.Within r b.container
  isShown : f.isShown b.container = true
  inBounds : b.InBounds f

namespace Forest

variable {f : Forest} {r t : Node} {a b : Boundary}

/-- The characters of all texts of a subtree, shown or not, in document order. -/
def textPlaces (f : Forest) (r : Node) : List Place :=
  ((f.preorder r).filter f.isText).flatMap f.placesOf

theorem filter_placesOf_lt (h : ∀ i, Boundary.compare f ⟨t, i⟩ b = .ok .lt) :
    (f.placesOf t).filter (fun p => p.before.isBefore f b) = f.placesOf t := by
  refine List.filter_eq_self.mpr fun p hp => ?_
  obtain rfl := (mem_placesOf.mp hp).1
  exact Boundary.isBefore_iff.mpr (h p.index)

theorem filter_placesOf_gt (h : ∀ i, Boundary.compare f ⟨t, i⟩ b = .ok .gt) :
    (f.placesOf t).filter (fun p => p.before.isBefore f b) = [] := by
  refine List.filter_eq_nil_iff.mpr fun p hp hbefore => ?_
  obtain rfl := (mem_placesOf.mp hp).1
  have hlt := Boundary.isBefore_iff.mp hbefore
  rw [show p.before = ⟨p.node, p.index⟩ from rfl, h p.index] at hlt
  cases hlt

namespace WellFormed

variable (wf : f.WellFormed)

include wf

theorem top_eq (hr : f.Has r) (htop : f.parent r = none) {n : Node} (hn : f.Within r n) :
    f.top n = r := by
  rcases hn with rfl | hn
  · rw [top, ancestors_of_top htop]
    rfl
  · obtain ⟨near, e⟩ := wf.ancestors_append hn
    rw [top, e, ancestors_of_top htop, List.getLast?_concat, Option.getD_some]

/-- A text that does not hold a boundary lies before it or behind it, with all its characters. -/
theorem text_beside (hr : f.Has r) (hb : f.Within r b.container) (ht : f.Within r t)
    (htext : f.isText t = true) :
    t = b.container ∨
      (t ≠ b.container ∧ ∀ i, Boundary.compare f ⟨t, i⟩ b = .ok .lt) ∨
      (t ≠ b.container ∧ ∀ i, Boundary.compare f ⟨t, i⟩ b = .ok .gt) := by
  rcases wf.compareOrder_total hr ht hb with h | h | h
  · exact Or.inl h
  · exact Or.inr (Or.inl ⟨Boundary.ne_of_compareOrder h (by decide),
      fun i => wf.compare_of_earlier h (wf.not_above_of_isText htext)⟩)
  · have hne : t ≠ b.container := (Boundary.ne_of_compareOrder h (by decide)).symm
    by_cases habove : b.container ∈ f.ancestors t
    · -- the child of the container that leads to the text is before the boundary or not
      obtain ⟨c, hc, hw⟩ := wf.exists_child_within habove
      have hcompare : ∀ i, Boundary.compare f ⟨t, i⟩ b
          = .ok (if f.slot c < b.offset then .gt else .lt : Ordering).swap := fun i =>
        Boundary.compare_backward h (wf.compareForward_of_child (b := ⟨t, i⟩) hc hw)
      by_cases hslot : f.slot c < b.offset
      · exact Or.inr (Or.inl ⟨hne, fun i => by rw [hcompare, if_pos hslot]; rfl⟩)
      · exact Or.inr (Or.inr ⟨hne, fun i => by rw [hcompare, if_neg hslot]; rfl⟩)
    · exact Or.inr (Or.inr ⟨hne, fun i => wf.compare_of_later h habove⟩)

/-- The offset where a range begins in a text is the number of characters before the range. -/
theorem firstIn_eq (hr : f.Has r) (ha : f.Within r a.container) (ht : f.Within r t)
    (htext : f.isText t = true) :
    ∃ k, (f.placesOf t).filter (fun p => p.before.isBefore f a) = (f.placesOf t).take k ∧
      ((Range.mk a b).firstIn f t = .ok (some k) ∨
        (Range.mk a b).firstIn f t = .ok none ∧ k = (f.placesOf t).length) := by
  rcases wf.text_beside hr ha ht htext with rfl | ⟨hne, h⟩ | ⟨hne, h⟩
  · exact ⟨a.offset, filter_placesOf _ _, Or.inl (by rw [Range.firstIn, if_pos rfl])⟩
  · refine ⟨(f.placesOf t).length, ?_, Or.inr ⟨?_, rfl⟩⟩
    · rw [filter_placesOf_lt h, List.take_length]
    · rw [Range.firstIn, if_neg hne]
      simp only [h 0, bind, Except.bind, pure, Except.pure]
  · refine ⟨0, ?_, Or.inl ?_⟩
    · rw [filter_placesOf_gt h, List.take_zero]
    · rw [Range.firstIn, if_neg hne]
      simp only [h 0, bind, Except.bind, pure, Except.pure]

/-- The offset where a range ends in a text is the number of characters before its end. -/
theorem lastIn_eq (hr : f.Has r) (hb : f.Within r b.container) (ht : f.Within r t)
    (htext : f.isText t = true) :
    ∃ k, (f.placesOf t).filter (fun p => p.before.isBefore f b) = (f.placesOf t).take k ∧
      ((Range.mk a b).lastIn f t = .ok (some k) ∨
        (Range.mk a b).lastIn f t = .ok none ∧ k = 0) := by
  rcases wf.text_beside hr hb ht htext with rfl | ⟨hne, h⟩ | ⟨hne, h⟩
  · exact ⟨b.offset, filter_placesOf _ _, Or.inl (by rw [Range.lastIn, if_pos rfl])⟩
  · refine ⟨f.length t, ?_, Or.inl ?_⟩
    · rw [filter_placesOf_lt h, length_of_isText htext, ← length_placesOf, List.take_length]
    · rw [Range.lastIn, if_neg hne]
      simp only [h, bind, Except.bind, pure, Except.pure]
  · refine ⟨0, ?_, Or.inr ⟨?_, rfl⟩⟩
    · rw [filter_placesOf_gt h, List.take_zero]
    · rw [Range.lastIn, if_neg hne]
      simp only [h, bind, Except.bind, pure, Except.pure]

/-- The piece of a text in a range are its characters before the end that are not before the
start. -/
theorem piece_eq (hr : f.Has r) (ha : f.Within r a.container) (hb : f.Within r b.container)
    (ht : f.Within r t) (htext : f.isText t = true) :
    (Range.mk a b).piece f t = .ok ((((f.placesOf t).filter fun p => p.before.isBefore f b).filter
      fun p => !p.before.isBefore f a).map Place.char) := by
  obtain ⟨k, hk, hfirst⟩ := wf.firstIn_eq (b := b) hr ha ht htext
  obtain ⟨m, hm, hlast⟩ := wf.lastIn_eq (a := a) hr hb ht htext
  rw [hm, filter_not_take hk m, slice, List.map_drop, List.map_take, map_char_placesOf]
  have hlen := f.length_placesOf t
  rcases hfirst with hfirst | ⟨hfirst, rfl⟩
  · rcases hlast with hlast | ⟨hlast, rfl⟩
    · simp only [Range.piece, hfirst, hlast, bind, Except.bind, pure, Except.pure]
    · simp only [Range.piece, hfirst, hlast, bind, Except.bind, pure, Except.pure, List.take_zero,
        List.drop_nil]
  · have hnil : ((f.characters t).take m).drop (f.placesOf t).length = [] := by
      rw [hlen, List.drop_eq_nil_iff, List.length_take]
      omega
    simp only [Range.piece, hfirst, hnil, bind, Except.bind, pure, Except.pure]

/-- The text of a range are the characters before its end that are not before its start. -/
theorem text_eq_filter (hr : f.Has r) (htop : f.parent r = none) (ha : f.Within r a.container)
    (hb : f.Within r b.container) :
    (Range.mk a b).text f = .ok ((((f.textPlaces r).filter fun p => p.before.isBefore f b).filter
      fun p => !p.before.isBefore f a).map Place.char) := by
  have hpieces : ((f.preorder r).filter f.isText).mapM ((Range.mk a b).piece f) = .ok _ :=
    mapM_of_ok fun t ht => by
      obtain ⟨hmem, htext⟩ := List.mem_filter.mp ht
      exact wf.piece_eq hr ha hb ((wf.mem_preorder_iff hr).mp hmem) htext
  simp only [Range.text, wf.top_eq hr htop ha, hpieces, bind, Except.bind, pure, Except.pure]
  rw [← List.flatMap_def, ← List.map_flatMap, ← List.filter_flatMap, ← List.filter_flatMap,
    textPlaces]

/-- **The text of a range** is the part of the visible text between the offsets of its ends, where
every text is shown. -/
theorem text_eq_slice_of_within (hr : f.Has r) (htop : f.parent r = none)
    (hall : ∀ t, f.Within r t → f.isText t = true → f.isShown t = true)
    (ha : f.Within r a.container) (hb : f.Within r b.container) :
    (Range.mk a b).text f
      = .ok (slice (f.visibleChars r) (f.textOffset r a) (f.textOffset r b)) := by
  have htexts : (f.preorder r).filter f.isText = f.shownTexts r := by
    refine List.filter_congr fun t ht => ?_
    rw [Bool.eq_iff_iff]
    exact ⟨hall t ((wf.mem_preorder_iff hr).mp ht), isText_of_isShown⟩
  rw [wf.text_eq_filter hr htop ha hb, textPlaces, htexts, ← places, ← placesBefore,
    wf.placesBefore_eq_take hr hb, filter_not_take (wf.placesBefore_eq_take hr ha), slice,
    List.map_drop, List.map_take, visibleChars, slice]

/-- The text of a range between two texts. -/
theorem text_eq_slice (hr : f.Has r) (htop : f.parent r = none)
    (hall : ∀ t, f.Within r t → f.isText t = true → f.isShown t = true)
    (ha : a.InShown f r) (hb : b.InShown f r) :
    (Range.mk a b).text f
      = .ok (slice (f.visibleChars r) (f.textOffset r a) (f.textOffset r b)) :=
  wf.text_eq_slice_of_within hr htop hall ha.within hb.within

end WellFormed

end Forest

end TreePointer
