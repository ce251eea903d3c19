import TreePointer.Address.Location
import TreePointer.Proofs.Text.Counting

/-!
# Where ranges stand, in offsets

The ranges an evaluation comes to have their ends at offsets in the visible text that the text and
the extents of nodes tell: the range around a node has those of the node, a stretch of counted
characters those of its first and last character, and a range that would be turned round ends where
it starts.

* `Boundary.At`, `Range.At`: places with given offsets.
* `around_at`, `make_at`, `stringRange_at`: the three ways to come to a range.
-/

namespace TreePointer

/-- A boundary below `r` with `k` visible characters before it. -/
structure Boundary.At (f : Forest) (r : Node) (b : Boundary) (k : Nat) : Prop where
  within : f.Within r b.container
  inBounds : b.InBounds f
  offset_eq : f.textOffset r b = k

/-- A range below `r` with `k` visible characters before its start and `m` before its stop. -/
structure Range.At (f : Forest) (r : Node) (s : Range) (k m : Nat) : Prop where
  start : s.start.At f r k
  stop : s.stop.At f r m

theorem Range.At.collapse {f : Forest} {r : Node} {s : Range} {k m : Nat} (h : s.At f r k m)
    (toStart : Bool) : (s.collapse toStart).At f r (if toStart then k else m)
      (if toStart then k else m) := by
  cases toStart
  · exact ⟨h.stop, h.stop⟩
  · exact ⟨h.start, h.start⟩

/-- The first character of a stretch and the end of the last one, as places among some characters of
which only the counted ones have a number. An empty stretch may lie at their end. -/
def stretch? (cs : List Char) (start length : Nat) : Option (Nat × Nat) :=
  let counted := Counter.start.indices cs
  if length = 0 then
    if counted.length + 1 = start then some (cs.length, cs.length)
    else (counted[start - 1]?).map fun i => (i, i)
  else
    match counted[start - 1]?, counted[start + length - 2]? with
    | some i, some j => some (i, j + 1)
    | _, _ => none

namespace Forest.WellFormed

variable {f : Forest} {r n : Node} {a b : Boundary} {k m : Nat} (wf : f.WellFormed) (hr : f.Has r)

include wf hr

omit hr in
/-- The range around a child is bounded by its place in its parent. -/
theorem rangeAround_child {p c : Node} (hc : c ∈ f.children p) :
    Location.rangeAround f c = .ok ⟨⟨p, f.slot c⟩, ⟨p, f.slot c + 1⟩⟩ ∧ f.slot c < f.length p := by
  constructor
  · simp only [Location.rangeAround, wf.parent_of_mem hc, Option.isSome_some, if_true,
      wf.around_child hc]
  · rw [Forest.length, if_pos (wf.container_of_mem p c hc)]
    exact (List.getElem?_eq_some_iff.mp (wf.getElem?_slot hc)).1

omit hr in
/-- A node at the top has no place of its own; the range of its first element stands for it. -/
theorem rangeAround_of_top (htop : f.parent r = none) :
    Location.rangeAround f r = match f.firstElement? r with
      | some e => Location.rangeAround f e
      | none => .error (.unresolved .noDocumentElement) := by
  rw [Location.rangeAround, htop, Option.isSome_none, if_neg (by decide)]
  cases he : f.firstElement? r with
  | none => rfl
  | some e =>
    dsimp only
    rw [Location.rangeAround, wf.parent_of_mem (List.mem_of_find?_eq_some he), Option.isSome_some,
      if_pos rfl]

/-- The range around a node below `r` covers what the node covers. -/
theorem around_at (hn : f.Within r n) (hne : n ≠ r) :
    ∃ s, Location.rangeAround f n = .ok s ∧
      s.At f r (f.textOffset r ⟨n, 0⟩) (f.textOffset r ⟨n, 0⟩ + (f.visibleChars n).length) := by
  obtain ⟨p, hp, hpr⟩ := wf.exists_parent hn hne
  have hmem := wf.mem_of_parent hp
  obtain ⟨haround, hlt⟩ := wf.rangeAround_child hmem
  refine ⟨_, haround, ⟨hpr, Nat.le_of_lt hlt, wf.textOffset_before_child hr hpr hmem⟩,
    ⟨hpr, hlt, ?_⟩⟩
  rw [wf.textOffset_after_child hr hpr hmem, visibleChars, List.length_map]

/-- **The range between two boundaries** starts at the first and stops at the later offset. -/
theorem make_at (ha : a.At f r k) (hb : b.At f r m) :
    ∃ s, Range.make f a b = .ok s ∧ s.At f r k (max k m) := by
  obtain ⟨o, ho⟩ := wf.exists_compare ha.within hb.within
  by_cases hgt : o = .gt
  · subst hgt
    have hle := wf.textOffset_mono hr hb.within ha.within (wf.compare_swap ha.within hb.within ho)
      (by decide)
    rw [ha.offset_eq, hb.offset_eq] at hle
    rw [Nat.max_eq_left hle]
    exact ⟨.point a, Range.make_of_gt ha.inBounds hb.inBounds ho, ha, ha⟩
  · have hle := wf.textOffset_mono hr ha.within hb.within ho hgt
    rw [ha.offset_eq, hb.offset_eq] at hle
    rw [Nat.max_eq_right hle]
    exact ⟨⟨a, b⟩, Range.make_of_le ha.inBounds hb.inBounds ho hgt, ha, hb⟩

/-- The boundaries around a character of a node. -/
theorem place_at (hn : f.Within r n) {p : Place} (hp : (f.places n)[k]? = some p) :
    p.before.At f r (f.textOffset r ⟨n, 0⟩ + k) ∧
      p.after.At f r (f.textOffset r ⟨n, 0⟩ + (k + 1)) := by
  have hnhas := wf.has_of_within hr hn
  have hmem := List.mem_of_getElem? hp
  have hw := wf.within_of_mem_places hnhas hmem
  obtain ⟨hbefore, hafter⟩ := wf.textOffset_place hnhas hp
  obtain ⟨hbounds, hbounds'⟩ := inBounds_of_mem_places hmem
  refine ⟨⟨wf.within_trans hn hw, hbounds, ?_⟩, ⟨wf.within_trans hn hw, hbounds', ?_⟩⟩
  · rw [wf.textOffset_within hr hn (b := p.before) hw, hbefore]
  · rw [wf.textOffset_within hr hn (b := p.after) hw, hafter]

theorem endOfText_at (hn : f.Within r n) :
    (f.endOfText n).At f r (f.textOffset r ⟨n, 0⟩ + (f.visibleChars n).length) := by
  have hnhas := wf.has_of_within hr hn
  obtain ⟨hw, hbounds⟩ := wf.endOfText_spec hnhas
  refine ⟨wf.within_trans hn hw, hbounds, ?_⟩
  rw [wf.textOffset_within hr hn hw, wf.textOffset_endOfText hnhas, visibleChars, List.length_map]

/-- **A stretch of counted characters** is found where the text has it, or not at all. -/
theorem stringRange_at (hn : f.Within r n) (start length : Nat) :
    ∃ found, f.stringRange n start length = .ok found ∧
      Option.Rel (fun s (km : Nat × Nat) => s.At f r (f.textOffset r ⟨n, 0⟩ + km.1)
        (f.textOffset r ⟨n, 0⟩ + km.2)) found (stretch? (f.visibleChars n) (max start 1) length) := by
  have hnhas := wf.has_of_within hr hn
  have hcounted : Counter.start.indices (f.visibleChars n) = f.countedIndices n := rfl
  rw [stringRange_max]
  generalize hs : max start 1 = s
  have hone : 1 ≤ s := by omega
  unfold stretch?
  simp only [hcounted]
  by_cases hl : length = 0
  · subst hl
    rw [if_pos rfl]
    by_cases hend : (f.countedIndices n).length + 1 = s
    · have hat := wf.endOfText_at hr hn
      rw [if_pos hend]
      exact ⟨_, stringRange_end hone hend, .some ⟨hat, hat⟩⟩
    · rw [if_neg hend]
      cases hi : (f.countedIndices n)[s - 1]? with
      | none =>
        have hlen := List.getElem?_eq_none_iff.mp hi
        exact ⟨none, stringRange_none hone (by omega) fun _ => hend, .none⟩
      | some i =>
        obtain ⟨p, hp⟩ := exists_place_of_counted hi
        have hat := (wf.place_at hr hn hp).1
        exact ⟨_, stringRange_point hone hi hp, .some ⟨hat, hat⟩⟩
  · rw [if_neg hl]
    cases hj : (f.countedIndices n)[s + length - 2]? with
    | none =>
      have hlen := List.getElem?_eq_none_iff.mp hj
      refine ⟨none, stringRange_none hone (by omega) fun e => absurd e hl, ?_⟩
      cases (f.countedIndices n)[s - 1]? <;> exact .none
    | some j =>
      have hlt := (List.getElem?_eq_some_iff.mp hj).1
      have hi : (f.countedIndices n)[s - 1]? = some _ := List.getElem?_eq_getElem (by omega)
      obtain ⟨p, hp⟩ := exists_place_of_counted hi
      obtain ⟨q, hq⟩ := exists_place_of_counted hj
      rw [hi]
      exact ⟨_, stringRange_found wf hnhas hone (by omega) hi hj hp hq,
        .some ⟨(wf.place_at hr hn hp).1, (wf.place_at hr hn hq).2⟩⟩

end Forest.WellFormed

end TreePointer
