import Mathlib.Data.List.Forall2
import TreePointer.Proofs.Address.Agreement
import TreePointer.Proofs.Text.Stretch

/-!
# Characters that come to be elsewhere

The characters of a node may come to be elsewhere: in other nodes of an edited document, or in those
of another document. If they stay in order and no visible one is lost, then the same ones are
counted, and the range of some of them has its ends where theirs have come to be.

* `Place.Moves`: a character and what it has become.
* `stretch_moved`, `stringRange_moved`: a stretch is moved with its characters.
-/

namespace TreePointer

/-- A character is the same, and its boundaries are where they may come to be. -/
structure Place.Moves (M : Boundary → Boundary → Prop) (x y : Place) : Prop where
  char_eq : y.char = x.char
  before : M x.before y.before
  after : M x.after y.after

variable {M : Boundary → Boundary → Prop}

/-- The same characters count where they come to be. -/
theorem countedAfter_moved {previous previous' : Option Place} {ps ps' : List Place}
    (hprevious : Option.Rel (Place.Moves M) previous previous')
    (h : List.Forall₂ (Place.Moves M) ps ps') :
    List.Forall₂ (Place.Moves M) (countedAfter previous ps) (countedAfter previous' ps') := by
  induction h generalizing previous previous' with
  | nil => exact .nil
  | @cons x y ps ps' hxy _ ih =>
    have hiff : (∃ q ∈ previous', isBlank q.char = false) ↔
        ∃ q ∈ previous, isBlank q.char = false := by
      cases hprevious with
      | none => exact Iff.rfl
      | some hq => simp [hq.char_eq]
    rw [countedAfter, countedAfter, hxy.char_eq]
    simp only [hiff]
    split
    · exact .cons hxy (ih (.some hxy))
    · exact ih (.some hxy)

/-- The range of a stretch has its ends where those characters have come to be. -/
theorem stretch_moved {cs cs' : List Place} {stop stop' : Boundary}
    (h : List.Forall₂ (Place.Moves M) cs cs') (hend : M stop stop') (s l : Nat) (hs : 1 ≤ s) :
    Option.Rel (fun r r' : Range => M r.start r'.start ∧ M r.stop r'.stop)
      (stretch cs stop s l hs) (stretch cs' stop' s l hs) := by
  have hlen := h.length_eq
  have hget : ∀ i (hi : i < cs.length) (hi' : i < cs'.length), Place.Moves M cs[i] cs'[i] :=
    fun i hi hi' => h.get hi hi'
  rw [stretch, stretch]
  by_cases hstretch : 1 ≤ l ∧ s + l - 1 ≤ cs.length
  · rw [dif_pos hstretch, dif_pos (hlen ▸ hstretch)]
    exact .some ⟨(hget _ _ _).before, (hget _ _ _).after⟩
  have hstretch' : ¬ (1 ≤ l ∧ s + l - 1 ≤ cs'.length) := hlen ▸ hstretch
  rw [dif_neg hstretch, dif_neg hstretch']
  by_cases hpoint : l = 0 ∧ s ≤ cs.length
  · rw [dif_pos hpoint, dif_pos (hlen ▸ hpoint)]
    exact .some ⟨(hget _ _ _).before, (hget _ _ _).before⟩
  have hpoint' : ¬ (l = 0 ∧ s ≤ cs'.length) := hlen ▸ hpoint
  rw [dif_neg hpoint, dif_neg hpoint', hlen]
  split
  · exact .some ⟨hend, hend⟩
  · exact .none

namespace Forest

variable {f g : Forest} {n n' : Node}

/-- **A stretch of characters** is found where its characters have come to be. -/
theorem stringRange_moved (wf : f.WellFormed) (wf' : g.WellFormed) (hn : f.Has n)
    (hn' : g.Has n') (hplaces : List.Forall₂ (Place.Moves M) (f.places n) (g.places n'))
    (hend : M (f.endOfText n) (g.endOfText n')) (start length : Int) :
    Agrees (Option.Rel fun r r' : Range => M r.start r'.start ∧ M r.stop r'.stop)
      (f.stringRange n start length) (g.stringRange n' start length) := by
  have hone : 1 ≤ (max start 1).toNat := by omega
  rw [wf.stringRange_eq_stretch hn rfl rfl hone, wf'.stringRange_eq_stretch hn' rfl rfl hone]
  exact .ok (stretch_moved (countedAfter_moved .none hplaces) hend _ _ hone)

end Forest

end TreePointer
