import TreePointer.Proofs.Text.Stretch

/-!
# Counts and the stretches they stand for

A count is made of a boundary by one loop and read by another, over the same characters. The first
stops at the offset, behind the text, at a later text or at the end, and compares nodes where the
text of the boundary is hidden or empty. The second looks for a number. Both are about the list of
the counted characters: the count is how many of them lie before the boundary, and as these are the
first ones, the number after the count is that of the next one.

* `Forest.countedBefore`, `Forest.nextCounted?`: the counted characters on both sides of a boundary.
* `WellFormed.before_iff_lt_count`: which these are by their numbers.
* `WellFormed.countBefore_numbers`: a count, and what is read by it.
-/

namespace TreePointer

/-- If the elements that meet a condition are the first `n` ones of a list, the element behind them
is the first that does not meet it. -/
theorem filter_eq_take_of_iff {α : Type} {P : α → Bool} {xs : List α} {n : Nat}
    (h : ∀ m x, xs[m]? = some x → (P x = true ↔ m < n)) :
    xs.filter P = xs.take n ∧ xs.find? (fun x => !P x) = xs[n]? := by
  have hfirst : ∀ x ∈ xs.take n, P x = true := by
    intro x hx
    obtain ⟨m, hm⟩ := List.mem_iff_getElem?.mp hx
    rw [List.getElem?_take, Option.ite_none_right_eq_some] at hm
    exact (h m x hm.2).mpr hm.1
  have hrest : ∀ x ∈ xs.drop n, ¬ P x = true := by
    intro x hx hP
    obtain ⟨m, hm⟩ := List.mem_iff_getElem?.mp hx
    rw [List.getElem?_drop] at hm
    exact absurd ((h _ x hm).mp hP) (by omega)
  constructor
  · rw [← List.take_append_drop n xs, List.filter_append, List.filter_eq_self.mpr hfirst,
      List.filter_eq_nil_iff.mpr hrest, List.append_nil, List.take_append_drop]
  · rw [← List.head?_drop]
    conv => lhs; rw [← List.take_append_drop n xs]
    rw [List.find?_append, List.find?_eq_none.mpr fun x hx => by simp [hfirst x hx],
      Option.none_or]
    cases hd : xs.drop n with
    | nil => rfl
    | cons x rest =>
      have hx : P x = false := Bool.eq_false_iff.mpr (hrest x (hd ▸ List.mem_cons_self))
      rw [List.find?_cons_of_pos (by rw [hx]; rfl), List.head?_cons]

namespace Forest

variable {f : Forest} {e t : Node} {b : Boundary} {k : Nat}

/-- The counted characters of a node that lie before a boundary. -/
def countedBefore (f : Forest) (e : Node) (b : Boundary) : List Place :=
  (f.countedPlaces e).filter fun p => p.before.isBefore f b

/-- The first counted character of a node that does not lie before a boundary. -/
def nextCounted? (f : Forest) (e : Node) (b : Boundary) : Option Place :=
  (f.countedPlaces e).find? fun p => !p.before.isBefore f b

theorem le_length_of_countBefore {n : Nat} (hn : f.countBefore e t k = .ok n) :
    n ≤ (f.countedPlaces e).length := by
  rw [length_countedPlaces]
  exact countBefore_le hn

namespace WellFormed

variable (wf : f.WellFormed)

include wf

/-- A visible character lies before a boundary if its index is below the offset of that. -/
theorem isBefore_iff_lt_textOffset {p : Place} {i : Nat} (he : f.Has e)
    (hb : f.Within e b.container) (hp : (f.places e)[i]? = some p) :
    p.before.isBefore f b = true ↔ i < f.textOffset e b := by
  rw [Boundary.isBefore_iff]
  refine ⟨wf.lt_textOffset he hb hp, fun h => ?_⟩
  rw [← (wf.textOffset_place he hp).1] at h
  exact wf.compare_of_textOffset_lt he (wf.within_of_mem_places he (List.mem_of_getElem? hp)) hb h

/-- **The `m`-th counted character**, numbered from zero, lies before a boundary in a text just if
more than `m` are counted before the boundary. -/
theorem before_iff_lt_count {p : Place} {m n : Nat} (he : e ∈ f.ancestors t)
    (ht : f.isText t = true) (hn : f.countBefore e t k = .ok n)
    (hp : (f.countedPlaces e)[m]? = some p) :
    p.before.isBefore f ⟨t, k⟩ = true ↔ m < n := by
  have hhas : f.Has e := wf.has_of_mem he
  rw [countBefore_eq wf hhas he ht, Except.ok.injEq] at hn
  obtain ⟨i, hi, hpi⟩ := Option.bind_eq_some_iff.mp ((getElem?_countedPlaces m).symm.trans hp)
  rw [wf.isBefore_iff_lt_textOffset hhas (.inr he) hpi, ← hn]
  exact Counter.lt_iff_lt_countTo hi

/-- The count before a boundary in a text cuts the counted characters in two. -/
theorem counted_split {n : Nat} (he : e ∈ f.ancestors t) (ht : f.isText t = true)
    (hn : f.countBefore e t k = .ok n) :
    f.countedBefore e ⟨t, k⟩ = (f.countedPlaces e).take n ∧
      f.nextCounted? e ⟨t, k⟩ = (f.countedPlaces e)[n]? :=
  filter_eq_take_of_iff fun _ _ hp => wf.before_iff_lt_count he ht hn hp

theorem countBefore_eq_length (he : e ∈ f.ancestors t) (ht : f.isText t = true) :
    f.countBefore e t k = .ok (f.countedBefore e ⟨t, k⟩).length := by
  obtain ⟨n, hn⟩ := exists_countBefore wf (wf.has_of_mem he) he k
  have hle := le_length_of_countBefore hn
  rw [(wf.counted_split he ht hn).1, List.length_take, Nat.min_eq_left hle, hn]

/-- **The number after the count** stands for the point where the next counted character starts, or
for the end of the text. -/
theorem stringRange_next {n : Nat} (he : e ∈ f.ancestors t) (ht : f.isText t = true)
    (hn : f.countBefore e t k = .ok n) :
    f.stringRange e (n + 1 : Nat) 0 = .ok (some (.point
      (((f.nextCounted? e ⟨t, k⟩).map Place.before).getD (f.endOfText e)))) := by
  have hle := le_length_of_countBefore hn
  rw [wf.stringRange_eq_stretch (s := n + 1) (l := 0) (wf.has_of_mem he) (by omega) (by omega)
    (by omega), (wf.counted_split he ht hn).2, stretch, dif_neg (by omega)]
  rcases Nat.lt_or_eq_of_le hle with hlt | rfl
  · rw [dif_pos ⟨rfl, hlt⟩, List.getElem?_eq_getElem hlt]
    rfl
  · rw [dif_neg (by omega), if_pos ⟨rfl, rfl⟩, List.getElem?_eq_none (Nat.le_refl _)]
    rfl

/-- **The number that is the count** stands for the last counted character before the boundary. -/
theorem stringRange_last {n : Nat} (he : e ∈ f.ancestors t) (ht : f.isText t = true)
    (hn : f.countBefore e t k = .ok n) (hpos : 1 ≤ n) :
    ∃ p, (f.countedBefore e ⟨t, k⟩).getLast? = some p ∧
      f.stringRange e n 1 = .ok (some ⟨p.before, p.after⟩) := by
  have hle := le_length_of_countBefore hn
  have hlt : n - 1 < (f.countedPlaces e).length := by omega
  refine ⟨(f.countedPlaces e)[n - 1], ?_, ?_⟩
  · rw [(wf.counted_split he ht hn).1, List.getLast?_take, if_neg (by omega),
      List.getElem?_eq_getElem hlt, Option.some_or]
  · rw [wf.stringRange_eq_stretch (s := n) (l := 1) (wf.has_of_mem he) (by omega) (by omega) hpos,
      stretch, dif_pos (by omega)]
    rfl

/-- **Counts are read as they are made.** For a boundary in a text below a node, whether the text is
shown, hidden or empty, the count is the number of the node's counted characters that lie before the
boundary. The number after it stands for the point before the next counted character, or for the
end of the node's text if there is no other. The number itself, unless it is zero, stands for the
last counted character before the boundary. -/
theorem countBefore_numbers (he : e ∈ f.ancestors t) (ht : f.isText t = true) (k : Nat) :
    ∃ n : Nat, f.countBefore e t k = .ok n ∧ n = (f.countedBefore e ⟨t, k⟩).length ∧
      f.stringRange e (n + 1 : Nat) 0 = .ok (some (.point
        (((f.nextCounted? e ⟨t, k⟩).map Place.before).getD (f.endOfText e)))) ∧
      (1 ≤ n → ∃ p, (f.countedBefore e ⟨t, k⟩).getLast? = some p ∧
        f.stringRange e n 1 = .ok (some ⟨p.before, p.after⟩)) :=
  have hn := wf.countBefore_eq_length (k := k) he ht
  ⟨_, hn, rfl, wf.stringRange_next he ht hn, wf.stringRange_last he ht hn⟩

end WellFormed

/-- The count before the hidden `x` is that of the `a` and the blank behind it. The next counted
character is the `b`, past a blank that does not count. -/
theorem countBefore_numbers_spaced :
    spaced.WellFormed ∧ spaced.isShown ⟨3⟩ = false ∧ spaced.countBefore ⟨0⟩ ⟨3⟩ 1 = .ok 2 ∧
      spaced.stringRange ⟨0⟩ 3 0 = .ok (some (.point ⟨⟨4⟩, 2⟩)) ∧
      spaced.stringRange ⟨0⟩ 2 1 = .ok (some ⟨⟨⟨1⟩, 2⟩, ⟨⟨1⟩, 3⟩⟩) := by
  have wf : spaced.WellFormed := by decide
  have hbefore : spaced.countedBefore ⟨0⟩ ⟨⟨3⟩, 1⟩ = [⟨'a', ⟨1⟩, 1⟩, ⟨' ', ⟨1⟩, 2⟩] := by decide
  have hnext : spaced.nextCounted? ⟨0⟩ ⟨⟨3⟩, 1⟩ = some ⟨'b', ⟨4⟩, 2⟩ := by decide
  obtain ⟨n, hcount, hlength, hpoint, hlast⟩ :=
    wf.countBefore_numbers (e := ⟨0⟩) (t := ⟨3⟩) (by decide) (by decide) 1
  rw [hbefore] at hlength
  obtain rfl : n = 2 := hlength
  rw [hnext] at hpoint
  obtain ⟨p, hp, hrange⟩ := hlast (by decide)
  rw [hbefore] at hp
  obtain rfl : ⟨' ', ⟨1⟩, 2⟩ = p := Option.some.inj hp
  exact ⟨wf, by decide, hcount, hpoint, hrange⟩

end Forest

end TreePointer
