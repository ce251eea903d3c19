import Mathlib.Data.List.Forall2

/-!
# What is found in lists that correspond

Entries of two lists correspond one by one. What is picked from the lists by a test that
corresponding entries pass alike corresponds as well, and so does what a search ends with.

* `option_rel_cases`: values that correspond, or none on either side.
* `forall₂_find?`, `forall₂_idxOf?`, `forall₂_eraseDups`: what is picked, and where it stands.
* `StopsAlike.foldlM`: runs that a step may stop.
-/

namespace TreePointer

variable {α β γ δ : Type} {M : α → β → Prop} {S : γ → δ → Prop} {xs xs' : List α}
  {ys ys' : List β} {x : α} {y : β}

/-! ## Values that may be missing -/

theorem option_rel_cases {a : Option α} {b : Option β} (h : Option.Rel M a b) :
    (a = none ∧ b = none) ∨ ∃ x y, a = some x ∧ b = some y ∧ M x y := by
  cases h with
  | none => exact .inl ⟨rfl, rfl⟩
  | some hxy => exact .inr ⟨_, _, rfl, rfl, hxy⟩

theorem option_rel_bind {a : Option α} {b : Option β} {p : α → Option γ} {q : β → Option δ}
    (hab : Option.Rel M a b) (hpq : ∀ x y, M x y → Option.Rel S (p x) (q y)) :
    Option.Rel S (a.bind p) (b.bind q) := by
  cases hab with
  | none => exact .none
  | some hxy => exact hpq _ _ hxy

theorem option_rel_orElse {a a' : Option α} {b b' : Option β} (h : Option.Rel M a b)
    (h' : Option.Rel M a' b') : Option.Rel M (a <|> a') (b <|> b') := by
  cases h with
  | none => exact h'
  | some hxy => exact .some hxy

theorem option_rel_some_iff {a : Option α} {b : Option β} (hM : Relator.BiUnique M)
    (h : Option.Rel M a b) (hxy : M x y) : b = some y ↔ a = some x := by
  cases h with
  | none => exact iff_of_false (by simp) (by simp)
  | some h =>
    rw [Option.some.injEq, Option.some.injEq]
    exact (Relator.rel_eq hM h hxy).symm

/-! ## Lists -/

theorem forall₂_getElem? (h : List.Forall₂ M xs ys) (i : Nat) : Option.Rel M xs[i]? ys[i]? := by
  induction h generalizing i with
  | nil => exact .none
  | cons hxy _ ih =>
    cases i with
    | zero => exact .some hxy
    | succ i => exact ih i

theorem forall₂_head? (h : List.Forall₂ M xs ys) : Option.Rel M xs.head? ys.head? := by
  rw [List.head?_eq_getElem?, List.head?_eq_getElem?]
  exact forall₂_getElem? h 0

theorem forall₂_getLast? (h : List.Forall₂ M xs ys) : Option.Rel M xs.getLast? ys.getLast? := by
  rw [List.getLast?_eq_getElem?, List.getLast?_eq_getElem?, h.length_eq]
  exact forall₂_getElem? h _

theorem forall₂_filter {p : α → Bool} {q : β → Bool} (h : List.Forall₂ M xs ys)
    (hpq : ∀ x y, M x y → q y = p x) : List.Forall₂ M (xs.filter p) (ys.filter q) := by
  refine List.rel_filter (fun x y hxy => ?_) h
  exact Iff.of_eq (congrArg (· = true) (hpq x y hxy).symm)

theorem forall₂_find? {p : α → Bool} {q : β → Bool} (h : List.Forall₂ M xs ys)
    (hpq : ∀ x y, M x y → q y = p x) : Option.Rel M (xs.find? p) (ys.find? q) := by
  rw [← List.head?_filter, ← List.head?_filter]
  exact forall₂_head? (forall₂_filter h hpq)

theorem forall₂_findSome? {p : α → Option γ} {q : β → Option δ} (h : List.Forall₂ M xs ys)
    (hpq : ∀ x y, M x y → Option.Rel S (p x) (q y)) :
    Option.Rel S (xs.findSome? p) (ys.findSome? q) := by
  rw [← List.head?_filterMap, ← List.head?_filterMap]
  exact forall₂_head? (List.rel_filterMap hpq h)

theorem forall₂_idxOf? [DecidableEq α] [DecidableEq β] (hM : Relator.BiUnique M)
    (h : List.Forall₂ M xs ys) (hxy : M x y) : ys.idxOf? y = xs.idxOf? x := by
  induction h with
  | nil => rfl
  | @cons a b _ _ hab _ ih =>
    have heq : (b == y) = (a == x) := by
      rw [Bool.eq_iff_iff, beq_iff_eq, beq_iff_eq]
      exact (Relator.rel_eq hM hab hxy).symm
    rw [List.idxOf?_cons, List.idxOf?_cons, heq, ih]

/-- Lists that correspond have parts that correspond on both sides of what corresponds. -/
theorem forall₂_append_cons {zs : List β} (h : List.Forall₂ M (xs ++ x :: xs') zs) :
    ∃ ys y ys', zs = ys ++ y :: ys' ∧ List.Forall₂ M xs ys ∧ M x y ∧ List.Forall₂ M xs' ys' := by
  induction xs generalizing zs with
  | nil =>
    cases h with
    | @cons _ y _ ys' hxy h => exact ⟨[], y, ys', rfl, .nil, hxy, h⟩
  | cons a xs ih =>
    cases h with
    | @cons _ b _ zs hab h =>
      obtain ⟨ys, y, ys', rfl, hys, hxy, hys'⟩ := ih h
      exact ⟨b :: ys, y, ys', rfl, .cons hab hys, hxy, hys'⟩

/-- What corresponds one to one is the same again where its counterpart is. -/
theorem forall₂_eraseDups [DecidableEq α] [DecidableEq β] (hM : Relator.BiUnique M)
    (h : List.Forall₂ M xs ys) : List.Forall₂ M xs.eraseDups ys.eraseDups := by
  generalize hn : xs.length = n
  induction n using Nat.strongRecOn generalizing xs ys with
  | _ n ih =>
    cases h with
    | nil => exact .nil
    | @cons x y xs ys hxy h =>
      have hrest : List.Forall₂ M (xs.filter (!· == x)) (ys.filter (!· == y)) := by
        refine List.rel_filter (fun a b hab => ?_) h
        simp only [Bool.not_eq_true', beq_eq_false_iff_ne, ne_eq]
        exact not_congr (Relator.rel_eq hM hab hxy)
      rw [List.eraseDups_cons, List.eraseDups_cons]
      refine .cons hxy (ih _ ?_ hrest rfl)
      rw [← hn, List.length_cons]
      exact Nat.lt_succ_of_le (List.length_filter_le ..)

theorem forall₂_zipIdx (h : List.Forall₂ M xs ys) (k : Nat) :
    List.Forall₂ (fun a b => M a.1 b.1 ∧ a.2 = b.2) (xs.zipIdx k) (ys.zipIdx k) := by
  induction h generalizing k with
  | nil => exact .nil
  | cons hxy _ ih =>
    rw [List.zipIdx_cons, List.zipIdx_cons]
    exact .cons ⟨hxy, rfl⟩ (ih (k + 1))

/-! ## Runs that may stop -/

/-- Both runs stop, with answers that correspond, or both go on from states that do. -/
inductive StopsAlike (M : α → β → Prop) (S : γ → δ → Prop) : Except α γ → Except β δ → Prop
  | stop {x : α} {y : β} (h : M x y) : StopsAlike M S (.error x) (.error y)
  | go {s : γ} {t : δ} (h : S s t) : StopsAlike M S (.ok s) (.ok t)

/-- Runs over lists that correspond stop alike if their steps do. -/
theorem StopsAlike.foldlM {ρ σ : Type} {P : ρ → σ → Prop} {xs : List ρ} {ys : List σ}
    {p : γ → ρ → Except α γ} {q : δ → σ → Except β δ} (h : List.Forall₂ P xs ys)
    (hpq : ∀ s t x y, S s t → P x y → StopsAlike M S (p s x) (q t y)) {s : γ} {t : δ}
    (hst : S s t) : StopsAlike M S (xs.foldlM p s) (ys.foldlM q t) := by
  induction h generalizing s t with
  | nil => exact .go hst
  | @cons x y _ _ hxy _ ih =>
    rw [List.foldlM_cons, List.foldlM_cons]
    have hstep := hpq s t x y hst hxy
    generalize p s x = a, q t y = b at hstep
    cases hstep with
    | stop h => exact .stop h
    | go h => exact ih h

end TreePointer
