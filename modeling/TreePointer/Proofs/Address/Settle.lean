import TreePointer.Address.Composition
import TreePointer.Proofs.Text.Slice
import TreePointer.Proofs.Tree.Walk

/-!
# Boundaries that move to the next visible text

Before it is counted, a start at the end of a text moves to the next visible text and an end at the
start of a text to the previous one. What they pass over shows nothing, so neither changes its
offset.

* `settleStart_eq`, `settleEnd_eq`: a settled boundary is beside the next character, where there is
  one, or else stays.
* `settleStart_spec`, `settleEnd_spec`: it is one of a shown text, at the same offset.
-/

namespace TreePointer

namespace Forest

variable {f : Forest}

/-- Nodes none of which is visible show no characters. -/
theorem placesIn_of_not_visible {ns : List Node} (h : ∀ n ∈ ns, ¬ f.isVisible n = true) :
    f.placesIn ns = [] := by
  refine List.flatMap_eq_nil_iff.mpr fun t ht => ?_
  obtain ⟨hmem, hs⟩ := List.mem_filter.mp ht
  have hlen : (f.placesOf t).length = 0 := by
    rw [length_placesOf, ← length_of_isShown hs]
    refine Nat.eq_zero_of_not_pos fun hpos => h t hmem ?_
    rw [isVisible, hs, decide_eq_true hpos]
    rfl
  exact List.length_eq_zero_iff.mp hlen

theorem isShown_of_isVisible {n : Node} (h : f.isVisible n = true) : f.isShown n = true := by
  rw [isVisible] at h
  exact (Bool.and_eq_true_iff.mp h).1

theorem length_pos_of_isVisible {n : Node} (h : f.isVisible n = true) :
    0 < (f.characters n).length := by
  rw [← length_of_isShown (isShown_of_isVisible h)]
  rw [isVisible] at h
  exact of_decide_eq_true (Bool.and_eq_true_iff.mp h).2

end Forest

namespace Address

variable {f : Forest} {r : Node} {a b : Boundary} (wf : f.WellFormed) (hr : f.Has r)

include wf hr

/-- The boundaries around a character lie in a shown text. -/
theorem inShown_of_place {k : Nat} {x : Place} (hx : (f.places r)[k]? = some x) :
    x.before.InShown f r ∧ x.after.InShown f r := by
  have hmem := List.mem_of_getElem? hx
  have hw := wf.within_of_mem_places hr hmem
  obtain ⟨-, hs, -⟩ := Forest.mem_placesIn hmem
  obtain ⟨hbefore, hafter⟩ := Forest.inBounds_of_mem_places hmem
  exact ⟨⟨hw, hs, hbefore⟩, ⟨hw, hs, hafter⟩⟩

/-- Between two shown texts with nothing visible in between there is one offset. -/
theorem textOffset_across {t u : Node} {before passed rest : List Node}
    (h : f.preorder r = before ++ t :: (passed ++ u :: rest)) (ht : f.isShown t = true)
    (hu : f.isShown u = true) (hpassed : ∀ n ∈ passed, ¬ f.isVisible n = true) :
    f.textOffset r ⟨u, 0⟩ = f.textOffset r ⟨t, (f.characters t).length⟩ := by
  have h' : f.preorder r = (before ++ t :: passed) ++ u :: rest := by
    rw [h, List.append_assoc, List.cons_append]
  have hself : f.placesIn [t] = f.placesOf t := by rw [Forest.placesIn_singleton, if_pos ht]
  rw [wf.textOffset_of_preorder hr h' hu (Nat.zero_le _),
    wf.textOffset_of_preorder hr h ht (Nat.le_refl _), Forest.placesIn_append,
    ← List.singleton_append, Forest.placesIn_append, Forest.placesIn_of_not_visible hpassed, hself,
    List.append_nil, List.length_append, Forest.length_placesOf, Nat.add_zero]

/-- Behind the last visible text there is no character. -/
theorem getElem?_places_last {t : Node} {before after : List Node}
    (h : f.preorder r = before ++ t :: after) (ht : f.isShown t = true)
    (hafter : ∀ n ∈ after, ¬ f.isVisible n = true) :
    (f.places r)[f.textOffset r ⟨t, (f.characters t).length⟩]? = none := by
  have hplaces : f.places r = f.placesIn before ++ f.placesOf t := by
    rw [Forest.places_eq, h, ← List.singleton_append, Forest.placesIn_append,
      Forest.placesIn_append, Forest.placesIn_of_not_visible hafter, Forest.placesIn_singleton,
      if_pos ht, List.append_nil]
  have hoffset := wf.textOffset_of_preorder hr h ht (Nat.le_refl _)
  refine List.getElem?_eq_none_iff.mpr (Nat.le_of_eq ?_)
  rw [hoffset, hplaces, List.length_append, Forest.length_placesOf]

/-- In front of the first visible text there is no character. -/
theorem textOffset_first {t : Node} {before after : List Node}
    (h : f.preorder r = before ++ t :: after) (ht : f.isShown t = true)
    (hbefore : ∀ n ∈ before, ¬ f.isVisible n = true) : f.textOffset r ⟨t, 0⟩ = 0 := by
  rw [wf.textOffset_of_preorder hr h ht (Nat.zero_le _), Forest.placesIn_of_not_visible hbefore]
  rfl

/-- The character before a place in a shown text. -/
theorem exists_place_before {t : Node} {i : Nat} (ht : f.Within r t) (hs : f.isShown t = true)
    (hpos : 0 < i) (hi : i ≤ (f.characters t).length) :
    f.textOffset r ⟨t, i⟩ ≠ 0 ∧
      (f.places r)[f.textOffset r ⟨t, i⟩ - 1]?.map Place.after = some ⟨t, i⟩ := by
  obtain ⟨c, hc⟩ := wf.exists_getElem?_places (i := i - 1) hr ht hs (by omega)
  have hafter : (Place.mk c t (i - 1)).after = ⟨t, i⟩ := by
    rw [Place.after, Nat.sub_add_cancel hpos]
  have hoffset := (wf.textOffset_place hr hc).2
  rw [hafter] at hoffset
  refine ⟨by omega, ?_⟩
  rw [hoffset, Nat.add_sub_cancel, hc, Option.map_some, hafter]

variable (htop : f.parent r = none)

section Settle

include htop

/-- **A start that moves** stands before the next visible character, if there is one. -/
theorem settleStart_eq (hb : b.InShown f r) :
    settleStart f b = ((f.places r)[f.textOffset r b]?.map Place.before).getD b := by
  obtain ⟨t, i⟩ := b
  have hw : f.Within r t := hb.within
  have hs : f.isShown t = true := hb.isShown
  have hlen := Forest.length_of_isShown hs
  have hi : i ≤ (f.characters t).length := hlen ▸ hb.inBounds
  unfold settleStart
  by_cases hend : i = f.length t
  · obtain ⟨before, after, h⟩ := List.append_of_mem ((wf.mem_preorder_iff hr).mpr hw)
    rw [if_pos hend, wf.nextVisible?_eq hr htop h]
    rw [hlen] at hend
    subst hend
    cases hnext : after.find? f.isVisible with
    | none =>
      rw [getElem?_places_last wf hr h hs (List.find?_eq_none.mp hnext)]
      rfl
    | some u =>
      obtain ⟨hu, passed, rest, rfl, hpassed⟩ := List.find?_eq_some_iff_append.mp hnext
      have hus := Forest.isShown_of_isVisible hu
      have hmem : u ∈ f.preorder r := h ▸ List.mem_append_right _
        (List.mem_cons_of_mem _ (List.mem_append_right _ List.mem_cons_self))
      obtain ⟨c, hc⟩ := wf.exists_getElem?_places hr ((wf.mem_preorder_iff hr).mp hmem) hus
        (Forest.length_pos_of_isVisible hu)
      rw [← textOffset_across wf hr h hs hus fun n hn => by simpa using hpassed n hn, hc]
      rfl
  · rw [if_neg hend]
    obtain ⟨c, hc⟩ := wf.exists_getElem?_places (i := i) hr hw hs (by omega)
    rw [hc]
    rfl

/-- **An end that moves** stands behind the previous visible character, if there is one. -/
theorem settleEnd_eq (hb : b.InShown f r) :
    settleEnd f b = if f.textOffset r b = 0 then b
      else ((f.places r)[f.textOffset r b - 1]?.map Place.after).getD b := by
  obtain ⟨t, i⟩ := b
  have hw : f.Within r t := hb.within
  have hs : f.isShown t = true := hb.isShown
  have hi : i ≤ (f.characters t).length := Forest.length_of_isShown hs ▸ hb.inBounds
  unfold settleEnd
  by_cases hstart : i = 0
  · subst hstart
    obtain ⟨before, after, h⟩ := List.append_of_mem ((wf.mem_preorder_iff hr).mpr hw)
    rw [if_pos rfl, wf.previousVisible?_eq hr htop h]
    cases hprevious : before.reverse.find? f.isVisible with
    | none =>
      have hbefore : ∀ n ∈ before, ¬ f.isVisible n = true := fun n hn =>
        List.find?_eq_none.mp hprevious n (List.mem_reverse.mpr hn)
      rw [if_pos (textOffset_first wf hr h hs hbefore)]
    | some u =>
      obtain ⟨hu, passed, rest, e, hpassed⟩ := List.find?_eq_some_iff_append.mp hprevious
      have hus := Forest.isShown_of_isVisible hu
      have hbefore : before = rest.reverse ++ u :: passed.reverse := by
        rw [← List.reverse_reverse before, e, List.reverse_append, List.reverse_cons,
          List.append_assoc, List.singleton_append]
      have h' : f.preorder r = rest.reverse ++ u :: (passed.reverse ++ t :: after) := by
        rw [h, hbefore, List.append_assoc, List.cons_append]
      have hmem : u ∈ f.preorder r := h' ▸ List.mem_append_right _ List.mem_cons_self
      have hsame := textOffset_across wf hr h' hus hs fun n hn => by
        simpa using hpassed n (List.mem_reverse.mp hn)
      obtain ⟨hnot, hlast⟩ := exists_place_before wf hr ((wf.mem_preorder_iff hr).mp hmem) hus
        (Forest.length_pos_of_isVisible hu) (Nat.le_refl _)
      rw [hsame, if_neg hnot, hlast, Option.getD_some, ← Forest.length_of_isShown hus]
  · obtain ⟨hnot, hlast⟩ := exists_place_before wf hr hw hs (Nat.pos_of_ne_zero hstart) hi
    rw [if_neg hstart, if_neg hnot, hlast, Option.getD_some]

/-- A settled start is one of a shown text, at the same offset. -/
theorem settleStart_spec (hb : b.InShown f r) :
    (settleStart f b).InShown f r ∧ f.textOffset r (settleStart f b) = f.textOffset r b := by
  rw [settleStart_eq wf hr htop hb]
  cases hx : (f.places r)[f.textOffset r b]? with
  | none => exact ⟨hb, rfl⟩
  | some x => exact ⟨(inShown_of_place wf hr hx).1, (wf.textOffset_place hr hx).1⟩

/-- A settled end is one of a shown text, at the same offset. -/
theorem settleEnd_spec (hb : b.InShown f r) :
    (settleEnd f b).InShown f r ∧ f.textOffset r (settleEnd f b) = f.textOffset r b := by
  rw [settleEnd_eq wf hr htop hb]
  by_cases hzero : f.textOffset r b = 0
  · rw [if_pos hzero]
    exact ⟨hb, rfl⟩
  · rw [if_neg hzero]
    cases hx : (f.places r)[f.textOffset r b - 1]? with
    | none => exact ⟨hb, rfl⟩
    | some x =>
      refine ⟨(inShown_of_place wf hr hx).2, ?_⟩
      rw [Option.map_some, Option.getD_some, (wf.textOffset_place hr hx).2]
      omega

end Settle

end Address

end TreePointer
