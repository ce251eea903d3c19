import TreePointer.Proofs.Tree.Check
import TreePointer.Proofs.Tree.Coordinates

/-!
# Ranges keep their order

However a range is made, its boundaries are in their containers and the start is not behind the
stop. A call that moves one boundary keeps this: it takes the other boundary along just if that
would come to be on the wrong side. It may also fail, for a boundary that is not in its container or
in another tree, and then nothing has been moved. So every range that calls can lead to is in order.

* `Range.Ordered`, `Range.InOrder`: the order, and the invariant.
* `Range.run_moveStop`, `Range.run_moveStart`: moving in place does what moving does.
* `Range.Obtained`: the ranges that can be got, by making one and calling on it.
* `WellFormed.setStop_eq`, `WellFormed.setStart_eq`: what moving one boundary does to the other.
* `WellFormed.inOrder_call`: a call keeps a range in order.
* `WellFormed.inOrder_of_obtained`, `WellFormed.obtained_calls`: all ranges are in order, and what
  each call does to them.
-/

namespace TreePointer

namespace Range

variable {f : Forest} {r : Range} {a b : Boundary}

/-- The start of a range is not after its stop. -/
def Ordered (f : Forest) (r : Range) : Prop :=
  ∃ o, r.start.compare f r.stop = .ok o ∧ o ≠ .gt

/-- A range whose boundaries are in their containers, the start not after the stop. -/
structure InOrder (f : Forest) (r : Range) : Prop where
  start_inBounds : r.start.InBounds f
  stop_inBounds : r.stop.InBounds f
  ordered : r.Ordered f

/-- The ranges that can be got: by making one between two boundaries, around a node, of its contents
or at a point, and by calling on a range, whether the call succeeds or fails. -/
inductive Obtained (f : Forest) : Range → Prop
  | make {a b : Boundary} {r : Range} (h : Range.make f a b = .ok r) : Obtained f r
  | around {n : Node} {r : Range} (h : Range.around f n = .ok r) : Obtained f r
  | contents (n : Node) : Obtained f (Range.contents f n)
  | point {b : Boundary} (h : b.InBounds f) : Obtained f (point b)
  | call {r : Range} (h : Obtained f r) (c : Call) : Obtained f (r.call f c).2

/-! ## Moving in place -/

section Run

variable {α : Type} (r : Range)

theorem run_lift_bind (x : Except Fault α) (k : α → Change) :
    (liftM x >>= k : Change).run.run r = match x with
      | .ok a => (k a).run.run r
      | .error e => (.error e, r) := by
  cases x <;> rfl

theorem run_get_bind (k : Range → Change) : (get >>= k : Change).run.run r = (k r).run.run r := rfl

end Run

/-- What there is to see of a change after it: a new range, or a fault and the range as it was. -/
def changed (r : Range) : Except Fault Range → Except Fault Unit × Range
  | .ok s => (.ok (), s)
  | .error e => (.error e, r)

/-- Moving the stop in place leaves the range with the moved stop, or a fault and the range as it
was. -/
theorem run_moveStop (f : Forest) (r : Range) (b : Boundary) :
    (moveStop f b).run.run r = r.changed (r.setStop f b) := by
  rw [moveStop, setStop, run_lift_bind]
  cases b.check f with
  | error e => rfl
  | ok _ =>
    simp only [run_get_bind, run_lift_bind]
    cases b.compare f r.start with
    | error e => rfl
    | ok o => cases o <;> rfl

theorem run_moveStart (f : Forest) (r : Range) (b : Boundary) :
    (moveStart f b).run.run r = r.changed (r.setStart f b) := by
  rw [moveStart, setStart, run_lift_bind]
  cases b.check f with
  | error e => rfl
  | ok _ =>
    simp only [run_get_bind, run_lift_bind]
    cases b.compare f r.stop with
    | error e => rfl
    | ok o => cases o <;> rfl

theorem call_collapse (f : Forest) (r : Range) (toStart : Bool) :
    r.call f (.collapse toStart) = (.ok (), r.collapse toStart) := by
  cases toStart <;> rfl

/-! ## Ranges in order -/

theorem ordered_point (f : Forest) (b : Boundary) : (point b).Ordered f :=
  ⟨.eq, Boundary.compare_self f b, by decide⟩

/-- Two places of one container, the first not behind the second. -/
theorem ordered_of_le (f : Forest) (n : Node) {i j : Nat} (h : i ≤ j) :
    (Range.mk ⟨n, i⟩ ⟨n, j⟩).Ordered f :=
  ⟨_, Boundary.compare_same rfl, Nat.compare_ne_gt.mpr h⟩

theorem InOrder.point (h : b.InBounds f) : (point b).InOrder f :=
  ⟨h, h, ordered_point f b⟩

theorem InOrder.contents (f : Forest) (n : Node) : (contents f n).InOrder f :=
  ⟨Nat.zero_le _, Nat.le_refl _, ordered_of_le f n (Nat.zero_le _)⟩

/-- A range that can be made is in order, or it would have been a point. -/
theorem InOrder.make (h : Range.make f a b = .ok r) : r.InOrder f := by
  obtain ⟨_, ha, h⟩ := exists_of_bind h
  obtain ⟨_, hb, h⟩ := exists_of_bind h
  obtain ⟨o, hcompare, h⟩ := exists_of_bind h
  rw [Boundary.check_ok_iff] at ha hb
  cases o with
  | gt =>
    cases h
    exact .point ha
  | _ =>
    cases h
    exact ⟨ha, hb, _, hcompare, by decide⟩

end Range

namespace Forest.WellFormed

variable {f : Forest} (wf : f.WellFormed) {r : Range} {b : Boundary}

include wf

theorem inOrder_around {n : Node} (h : Range.around f n = .ok r) : r.InOrder f := by
  cases hp : f.parent n with
  | none =>
    rw [Range.around, Boundary.before, Boundary.placeOf, hp] at h
    cases h
  | some p =>
    have hn := wf.mem_of_parent hp
    rw [wf.around_child hn] at h
    cases h
    have hlt : f.slot n < f.length p := by
      rw [length, if_pos (wf.container_of_mem _ _ hn)]
      exact (List.getElem?_eq_some_iff.mp (wf.getElem?_slot hn)).1
    exact ⟨Nat.le_of_lt hlt, hlt, Range.ordered_of_le f p (Nat.le_succ _)⟩

/-! ## What a call does -/

/-- **Moving the stop** takes the start along just if that is behind it. -/
theorem setStop_eq (r : Range) (b : Boundary) :
    r.setStop f b =
      if b.InBounds f then
        if f.top b.container = f.top r.start.container then
          .ok ⟨if b.isBefore f r.start then b else r.start, b⟩
        else .error (.argument .differentTrees)
      else .error (.argument (.offsetTooLarge b.offset (f.length b.container))) := by
  unfold Range.setStop Boundary.check
  by_cases hb : b.InBounds f
  · rw [if_pos hb, if_pos hb]
    rcases wf.compare_cases b r.start with ⟨htop, hcompare⟩ | ⟨htop, o, hcompare, -⟩
    · rw [if_neg htop, hcompare]
      rfl
    · rw [if_pos htop, hcompare, Boundary.isBefore, hcompare]
      cases o <;> rfl
  · rw [if_neg hb, if_neg hb]
    rfl

/-- **Moving the start** takes the stop along just if that is before it. -/
theorem setStart_eq (r : Range) (b : Boundary) :
    r.setStart f b =
      if b.InBounds f then
        if f.top b.container = f.top r.stop.container then
          .ok ⟨b, if r.stop.isBefore f b then b else r.stop⟩
        else .error (.argument .differentTrees)
      else .error (.argument (.offsetTooLarge b.offset (f.length b.container))) := by
  unfold Range.setStart Boundary.check
  by_cases hb : b.InBounds f
  · rw [if_pos hb, if_pos hb]
    rcases wf.compare_cases b r.stop with ⟨htop, hcompare⟩ | ⟨htop, o, hcompare, hback⟩
    · rw [if_neg htop, hcompare]
      rfl
    · rw [if_pos htop, hcompare, Boundary.isBefore, hback]
      cases o <;> rfl
  · rw [if_neg hb, if_neg hb]
    rfl

theorem call_setStop (r : Range) (b : Boundary) :
    r.call f (.setStop b) =
      if b.InBounds f then
        if f.top b.container = f.top r.start.container then
          (.ok (), ⟨if b.isBefore f r.start then b else r.start, b⟩)
        else (.error (.argument .differentTrees), r)
      else (.error (.argument (.offsetTooLarge b.offset (f.length b.container))), r) := by
  rw [Range.call, Range.Call.change, Range.run_moveStop, wf.setStop_eq, apply_ite r.changed,
    apply_ite r.changed]
  rfl

theorem call_setStart (r : Range) (b : Boundary) :
    r.call f (.setStart b) =
      if b.InBounds f then
        if f.top b.container = f.top r.stop.container then
          (.ok (), ⟨b, if r.stop.isBefore f b then b else r.stop⟩)
        else (.error (.argument .differentTrees), r)
      else (.error (.argument (.offsetTooLarge b.offset (f.length b.container))), r) := by
  rw [Range.call, Range.Call.change, Range.run_moveStart, wf.setStart_eq, apply_ite r.changed,
    apply_ite r.changed]
  rfl

/-! ## All ranges -/

/-- Boundaries of one tree of which the second is not before the first. -/
theorem inOrder_of_not_before {a b : Boundary} (ha : a.InBounds f) (hb : b.InBounds f)
    (htop : f.top a.container = f.top b.container) (h : b.isBefore f a = false) :
    (Range.mk a b).InOrder f := by
  rcases wf.compare_cases a b with ⟨hne, -⟩ | ⟨-, o, hcompare, hback⟩
  · exact absurd htop hne
  · refine ⟨ha, hb, o, hcompare, ?_⟩
    rintro rfl
    rw [Boundary.isBefore_iff.mpr hback] at h
    cases h

/-- **A call keeps a range in order**, whether it succeeds or fails. -/
theorem inOrder_call (h : r.InOrder f) (c : Range.Call) : (r.call f c).2.InOrder f := by
  cases c with
  | setStart b =>
    rw [wf.call_setStart]
    split
    · next hb =>
      split
      · next htop =>
        -- a stop that is moved along makes the range a point
        cases hwrong : r.stop.isBefore f b with
        | true => exact .point hb
        | false => exact wf.inOrder_of_not_before hb h.stop_inBounds htop hwrong
      · exact h
    · exact h
  | setStop b =>
    rw [wf.call_setStop]
    split
    · next hb =>
      split
      · next htop =>
        cases hwrong : b.isBefore f r.start with
        | true => exact .point hb
        | false => exact wf.inOrder_of_not_before h.start_inBounds hb htop.symm hwrong
      · exact h
    · exact h
  | collapse toStart =>
    rw [Range.call_collapse]
    cases toStart with
    | true => exact .point h.start_inBounds
    | false => exact .point h.stop_inBounds

/-- **Every range is in order** that can be got. -/
theorem inOrder_of_obtained (h : r.Obtained f) : r.InOrder f := by
  induction h with
  | make h => exact .make h
  | around h => exact wf.inOrder_around h
  | contents n => exact .contents f n
  | point h => exact .point h
  | call _ c ih => exact wf.inOrder_call ih c

/-- **Ranges stay in order under calls.** In every range that can be got, both boundaries are in
their containers and the start is not behind the stop. Moving one boundary to a place that is not in
its container, or in another tree, fails and leaves the range. Moving it anywhere else puts it right
there and leaves the other one, unless that is on the wrong side and is moved along. -/
theorem obtained_calls (h : r.Obtained f) :
    (r.start.InBounds f ∧ r.stop.InBounds f ∧ r.Ordered f) ∧
    (∀ b, r.call f (.setStop b) =
      if b.InBounds f then
        if f.top b.container = f.top r.start.container then
          (.ok (), ⟨if b.isBefore f r.start then b else r.start, b⟩)
        else (.error (.argument .differentTrees), r)
      else (.error (.argument (.offsetTooLarge b.offset (f.length b.container))), r)) ∧
    (∀ b, r.call f (.setStart b) =
      if b.InBounds f then
        if f.top b.container = f.top r.stop.container then
          (.ok (), ⟨b, if r.stop.isBefore f b then b else r.stop⟩)
        else (.error (.argument .differentTrees), r)
      else (.error (.argument (.offsetTooLarge b.offset (f.length b.container))), r)) ∧
    (∀ toStart, r.call f (.collapse toStart)
      = (.ok (), .point (if toStart then r.start else r.stop))) := by
  have hr := wf.inOrder_of_obtained h
  exact ⟨⟨hr.start_inBounds, hr.stop_inBounds, hr.ordered⟩, wf.call_setStop r, wf.call_setStart r,
    Range.call_collapse f r⟩

end Forest.WellFormed

/-- The trees `<a>xy</a>` and `<b/>`. -/
def Forest.twoTrees : Forest := ⟨#[
  { Record.bare .element with name := some (.plain "a"), children := [⟨1⟩] },
  { Record.bare .text with value := some "xy", parent := some ⟨0⟩ },
  { Record.bare .element with name := some (.plain "b") }]⟩

/-- The contents of `a`, from behind the `x` on: a stop before the `x` takes the start along, the
other tree is refused, and so is a place behind the `y`. -/
theorem Forest.obtained_calls_twoTrees :
    twoTrees.WellFormed ∧ (Range.mk ⟨⟨1⟩, 1⟩ ⟨⟨0⟩, 1⟩).Obtained twoTrees ∧
      (Range.mk ⟨⟨1⟩, 1⟩ ⟨⟨0⟩, 1⟩).Ordered twoTrees ∧
      (Range.mk ⟨⟨1⟩, 1⟩ ⟨⟨0⟩, 1⟩).call twoTrees (.setStop ⟨⟨1⟩, 0⟩)
        = (.ok (), ⟨⟨⟨1⟩, 0⟩, ⟨⟨1⟩, 0⟩⟩) ∧
      (Range.mk ⟨⟨1⟩, 1⟩ ⟨⟨0⟩, 1⟩).call twoTrees (.setStop ⟨⟨2⟩, 0⟩)
        = (.error (.argument .differentTrees), ⟨⟨⟨1⟩, 1⟩, ⟨⟨0⟩, 1⟩⟩) ∧
      (Range.mk ⟨⟨1⟩, 1⟩ ⟨⟨0⟩, 1⟩).call twoTrees (.setStart ⟨⟨1⟩, 3⟩)
        = (.error (.argument (.offsetTooLarge 3 2)), ⟨⟨⟨1⟩, 1⟩, ⟨⟨0⟩, 1⟩⟩) := by
  have wf : twoTrees.WellFormed := isWellFormed_iff.mp (by decide)
  have hgot : (Range.mk ⟨⟨1⟩, 1⟩ ⟨⟨0⟩, 1⟩).Obtained twoTrees :=
    (Range.Obtained.contents ⟨0⟩).call (.setStart ⟨⟨1⟩, 1⟩)
  obtain ⟨⟨-, -, hordered⟩, hstop, hstart, -⟩ := wf.obtained_calls hgot
  exact ⟨wf, hgot, hordered, hstop ⟨⟨1⟩, 0⟩, hstop ⟨⟨2⟩, 0⟩, hstart ⟨⟨1⟩, 3⟩⟩

end TreePointer
