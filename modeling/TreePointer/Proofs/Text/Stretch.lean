import Mathlib.Algebra.Group.Int.Defs
import Mathlib.Algebra.Group.Nat.Defs
import TreePointer.Proofs.Text.Counting
import TreePointer.Proofs.Tree.Check

/-!
# What a start and a length stand for

Which characters of a text are counted can be said without a counter: those that are no blanks, and
the blanks that follow a character that is none. A start and a length stand for a stretch of these
characters, and the range of the stretch is the answer in every case. The search for it keeps its
count below the number that it looks for, so no count is ever larger than what start and length say.

* `Forest.countedPlaces`: the counted characters of a node.
* `stretch`: the range of so many characters from a number on.
* `StretchSearch.Searching`: what is known as long as the search goes on.
* `WellFormed.stringRange_counted`: the range of any start and any length.
-/

namespace TreePointer

/-- The counted ones of some characters in a row, the character before them given if there is one:
those that are no blanks, and those whose predecessor exists and is none. -/
def countedAfter : Option Place → List Place → List Place
  | _, [] => []
  | previous, p :: ps =>
    if isBlank p.char = false ∨ ∃ q ∈ previous, isBlank q.char = false
      then p :: countedAfter (some p) ps
      else countedAfter (some p) ps

/-- The range of `l` characters of a list from the `s`-th on, numbered from one; of none, the point
before the `s`-th one, or the end when `s` is the number after the last one. -/
def stretch (cs : List Place) (stop : Boundary) (s l : Nat) (hs : 1 ≤ s) : Option Range :=
  if h : 1 ≤ l ∧ s + l - 1 ≤ cs.length then some ⟨cs[s - 1].before, cs[s + l - 2].after⟩
  else if h : l = 0 ∧ s ≤ cs.length then some (.point cs[s - 1].before)
  else if l = 0 ∧ s = cs.length + 1 then some (.point stop)
  else none

/-- A counter that knows whether the character before was a blank counts the same characters. -/
theorem getElem?_countedAfter {previous : Option Place} {k : Counter}
    (h : k.inBlank = previous.all fun q => isBlank q.char) (ps : List Place) (m : Nat) :
    (countedAfter previous ps)[m]?
      = ((k.indices (ps.map Place.char))[m]?).bind fun i => ps[i]? := by
  induction ps generalizing previous k m with
  | nil => rfl
  | cons p ps ih =>
    have hcounts : k.counts p.char = true ↔
        (isBlank p.char = false ∨ ∃ q ∈ previous, isBlank q.char = false) := by
      rw [Counter.counts, h]
      cases previous <;> cases isBlank p.char <;> simp
    have hnext : (k.push p.char).inBlank = (some p).all fun q => isBlank q.char := rfl
    have hrest : ∀ m : Nat, (countedAfter (some p) ps)[m]?
        = ((((k.push p.char).indices (ps.map Place.char)).map (· + 1))[m]?).bind
          fun (i : Nat) => (p :: ps)[i]? := by
      intro m
      rw [ih hnext, List.getElem?_map, Option.bind_map]
      simp only [Function.comp_def, List.getElem?_cons_succ]
    rw [countedAfter, List.map_cons, Counter.indices]
    by_cases hc : k.counts p.char = true
    · rw [if_pos (hcounts.mp hc), if_pos hc, List.singleton_append]
      cases m with
      | zero => rfl
      | succ m => rw [List.getElem?_cons_succ, List.getElem?_cons_succ, hrest]
    · rw [if_neg fun e => hc (hcounts.mpr e), if_neg hc, List.nil_append, hrest]

namespace StretchSearch

/-- The search for a stretch goes on: it has not counted up to the last character, and it knows the
first one just if it has counted that far. -/
structure Searching (first last : Nat) (s : StretchSearch) : Prop where
  count_lt : s.counter.count < last
  first_known : s.first.isSome ↔ first ≤ s.counter.count

variable {first last : Nat} {s s' : StretchSearch}

theorem searching_start (h : 1 ≤ first) (hfl : first ≤ last) : Searching first last start :=
  ⟨Nat.lt_of_lt_of_le h hfl, iff_of_false nofun (Nat.not_le.mpr h)⟩

/-- A character after which the search goes on has not the last number. -/
theorem Searching.step (h : Searching first last s) (hfl : first ≤ last) {p : Place}
    (hstep : step first last s p = .ok s') : Searching first last s' := by
  obtain ⟨k, o⟩ := s
  have hlt : k.count < last := h.count_lt
  by_cases hc : k.counts p.char = true
  · have hcount : (k.push p.char).count = k.count + 1 := by rw [Counter.push_count, if_pos hc]
    cases o with
    | none =>
      have hbefore : k.count < first := Nat.not_le.mp (mt h.first_known.mpr nofun)
      by_cases hf : first = k.count + 1
      · rw [step_first hc hf] at hstep
        split at hstep
        · cases hstep
        · cases hstep
          exact ⟨by dsimp only; omega, iff_of_true rfl (by dsimp only; omega)⟩
      · rw [step_before_first hc hf, Except.ok.injEq] at hstep
        rw [← hstep]
        exact ⟨by dsimp only; omega, iff_of_false nofun (by dsimp only; omega)⟩
    | some q =>
      have hknown : first ≤ k.count := h.first_known.mp rfl
      rw [step_after_first hc hknown] at hstep
      split at hstep
      · cases hstep
      · cases hstep
        exact ⟨by dsimp only; omega, iff_of_true rfl (by dsimp only; omega)⟩
  · have hcount : (k.push p.char).count = k.count := by
      rw [Counter.push_count, if_neg hc, Nat.add_zero]
    rw [step_uncounted hc, Except.ok.injEq] at hstep
    rw [← hstep]
    exact ⟨hcount ▸ hlt, hcount ▸ h.first_known⟩

/-- **As long as the search goes on** it has not counted up to the last character. -/
theorem Searching.run (h : Searching first last s) (hfl : first ≤ last) {ps : List Place}
    (hrun : ps.foldlM (StretchSearch.step first last) s = .ok s') : Searching first last s' := by
  induction ps generalizing s with
  | nil =>
    cases hrun
    exact h
  | cons p ps ih =>
    rw [List.foldlM_cons] at hrun
    cases hstep : StretchSearch.step first last s p with
    | error answer =>
      rw [hstep] at hrun
      cases hrun
    | ok s'' =>
      rw [hstep] at hrun
      exact ih (h.step hfl hstep) hrun

end StretchSearch

namespace Forest

variable {f : Forest} {n : Node}

/-- The counted characters among the visible ones of a node. -/
def countedPlaces (f : Forest) (n : Node) : List Place :=
  countedAfter none (f.places n)

theorem getElem?_countedPlaces (m : Nat) :
    (f.countedPlaces n)[m]? = ((f.countedIndices n)[m]?).bind fun i => (f.places n)[i]? :=
  getElem?_countedAfter rfl (f.places n) m

/-- The `m`-th counted character is among the visible ones. -/
theorem exists_place_of_lt {m : Nat} (h : m < (f.countedIndices n).length) :
    ∃ i p, (f.countedIndices n)[m]? = some i ∧ (f.places n)[i]? = some p ∧
      (f.countedPlaces n)[m]? = some p := by
  have hi := List.getElem?_eq_getElem h
  obtain ⟨p, hp⟩ := exists_place_of_counted hi
  exact ⟨_, p, hi, hp, by rw [getElem?_countedPlaces, hi, Option.bind_some, hp]⟩

theorem length_countedPlaces : (f.countedPlaces n).length = (f.countedIndices n).length := by
  refine Nat.le_antisymm (Nat.not_lt.mp fun hlt => ?_) (Nat.not_lt.mp fun hlt => ?_)
  · have hsome := List.getElem?_eq_getElem hlt
    rw [getElem?_countedPlaces, List.getElem?_eq_none (Nat.le_refl _)] at hsome
    cases hsome
  · obtain ⟨i, p, -, -, hp⟩ := exists_place_of_lt hlt
    rw [List.getElem?_eq_none (Nat.le_refl _)] at hp
    cases hp

/-- Only the part of a start above zero and that of a length from zero on play a part. -/
theorem stringRange_toNat (start length : Int) :
    f.stringRange n start length
      = f.stringRange n ((max start 1).toNat : Nat) ((max length 0).toNat : Nat) := by
  have hs : (max (((max start 1).toNat : Nat) : Int) 1).toNat = (max start 1).toNat := by omega
  have hl : (((max length 0).toNat : Nat) : Int).toNat = length.toNat := by omega
  rw [stringRange, stringRange, hs, hl]

/-- The range of a start and a length is that of a stretch of counted characters. -/
theorem WellFormed.stringRange_eq_stretch (wf : f.WellFormed) (hn : f.Has n) {start length : Int}
    {s l : Nat} (hs : s = (max start 1).toNat) (hl : l = (max length 0).toNat) (hone : 1 ≤ s) :
    f.stringRange n start length
      = .ok (stretch (f.countedPlaces n) (f.endOfText n) s l hone) := by
  rw [stringRange_toNat, ← hs, ← hl, stretch]
  have hlen := length_countedPlaces (f := f) (n := n)
  by_cases hstretch : 1 ≤ l ∧ s + l - 1 ≤ (f.countedPlaces n).length
  · obtain ⟨i, p, hi, hp, hcp⟩ := exists_place_of_lt (f := f) (n := n) (m := s - 1) (by omega)
    obtain ⟨j, q, hj, hq, hcq⟩ := exists_place_of_lt (f := f) (n := n) (m := s + l - 2) (by omega)
    rw [dif_pos hstretch, (List.getElem_eq_iff _).mpr hcp, (List.getElem_eq_iff _).mpr hcq]
    exact stringRange_found wf hn hone hstretch.1 hi hj hp hq
  rw [dif_neg hstretch]
  by_cases hpoint : l = 0 ∧ s ≤ (f.countedPlaces n).length
  · obtain ⟨rfl, hle⟩ := hpoint
    obtain ⟨i, p, hi, hp, hcp⟩ := exists_place_of_lt (f := f) (n := n) (m := s - 1) (by omega)
    rw [dif_pos ⟨rfl, hle⟩, (List.getElem_eq_iff _).mpr hcp]
    exact stringRange_point hone hi hp
  rw [dif_neg hpoint]
  by_cases hend : l = 0 ∧ s = (f.countedPlaces n).length + 1
  · obtain ⟨rfl, rfl⟩ := hend
    rw [if_pos ⟨rfl, rfl⟩]
    exact stringRange_end hone (by rw [hlen])
  rw [if_neg hend]
  exact stringRange_none hone (by omega) (by omega)

/-- The search for the last character of a stretch stays below its number. -/
theorem count_lt_of_search {s l : Nat} (hone : 1 ≤ s) {ps : List Place} {reached : StretchSearch}
    (hrun : ps.foldlM (StretchSearch.step s (s + (l - 1))) .start = .ok reached) :
    reached.counter.count < s + (l - 1) :=
  ((StretchSearch.searching_start hone (Nat.le_add_right s (l - 1))).run
    (Nat.le_add_right s (l - 1)) hrun).count_lt

/-- **The range of a start and a length**, whatever they are. With the counted characters of the
node numbered from one, the `s`-th of which is the first and `l` the number of which the stretch
has, it is the range from before the first character to behind the last one; an empty stretch is the
point before the `s`-th character, or the end of the text when `s` is the number after the last one;
and when the text is too short there is none. The search does not fail, and for numbers of 64 bits with
sign no count and no sum in it needs more than 64 bits. -/
theorem WellFormed.stringRange_counted (wf : f.WellFormed) (hn : f.Has n) {start length : Int}
    {s l : Nat} (hs : s = (max start 1).toNat) (hl : l = (max length 0).toNat) :
    f.stringRange n start length = .ok (
      if h : 1 ≤ l ∧ s + l - 1 ≤ (f.countedPlaces n).length then
        some ⟨(f.countedPlaces n)[s - 1].before, (f.countedPlaces n)[s + l - 2].after⟩
      else if h : l = 0 ∧ s ≤ (f.countedPlaces n).length then
        some (.point (f.countedPlaces n)[s - 1].before)
      else if l = 0 ∧ s = (f.countedPlaces n).length + 1 then some (.point (f.endOfText n))
      else none) ∧
    (start < 2 ^ 63 → length < 2 ^ 63 → s + l < 2 ^ 64 ∧
      ∀ (ps : List Place) (reached : StretchSearch),
        ps.foldlM (StretchSearch.step s (s + (l - 1))) .start = .ok reached →
        reached.counter.count + 1 < 2 ^ 64) := by
  have hone : 1 ≤ s := by omega
  refine ⟨wf.stringRange_eq_stretch hn hs hl hone,
    fun hstart hlength => ⟨by omega, fun ps reached hrun => ?_⟩⟩
  have hlt := count_lt_of_search hone hrun
  omega

/-- The tree `<r> a <m>x</m>  b</r>`, where `m` is hidden. -/
def spaced : Forest := ⟨#[
  { Record.bare .element with name := some (.plain "r"), children := [⟨1⟩, ⟨2⟩, ⟨4⟩] },
  { Record.bare .text with value := some " a ", parent := some ⟨0⟩ },
  { Record.bare .element with
    name := some (.plain "m"), parent := some ⟨0⟩, children := [⟨3⟩]
    attributes := [⟨⟨none, Mark.hide.attributeName, some Mark.uri⟩, Mark.set⟩] },
  { Record.bare .text with value := some "x", parent := some ⟨2⟩ },
  { Record.bare .text with value := some "  b", parent := some ⟨0⟩ }]⟩

/-- The second and third counted character are the blank behind the `a` and the `b`; of the blanks
only the first counts, over the hidden text. The number four is that of the end. -/
theorem stringRange_counted_spaced :
    spaced.WellFormed ∧
      spaced.countedPlaces ⟨0⟩ = [⟨'a', ⟨1⟩, 1⟩, ⟨' ', ⟨1⟩, 2⟩, ⟨'b', ⟨4⟩, 2⟩] ∧
      spaced.stringRange ⟨0⟩ 2 2 = .ok (some ⟨⟨⟨1⟩, 2⟩, ⟨⟨4⟩, 3⟩⟩) ∧
      spaced.stringRange ⟨0⟩ 4 (-1) = .ok (some (.point ⟨⟨4⟩, 3⟩)) ∧
      spaced.stringRange ⟨0⟩ (2 ^ 63 - 1) (2 ^ 63 - 1) = .ok none := by
  have wf : spaced.WellFormed := by decide
  have hn : spaced.Has ⟨0⟩ := by decide
  exact ⟨wf, by decide, (wf.stringRange_counted hn rfl rfl).1.trans rfl,
    (wf.stringRange_counted hn rfl rfl).1.trans rfl,
    (wf.stringRange_counted hn rfl rfl).1.trans rfl⟩

end Forest

end TreePointer
