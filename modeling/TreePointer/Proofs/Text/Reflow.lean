import Mathlib.Data.List.Forall2
import TreePointer.Proofs.Text.Slice

/-!
# Re-flowed text

An editor that re-flows a text breaks its lines elsewhere and indents them anew: blanks become other
blanks, and more of them, but none comes to be where there was none. The characters that are no
blanks stay as they are and in order, and a place in the text is known in both versions by how many
of them are before it. Counting, too, sees the same: a run of blanks counts once, however long it
is.

* `Reflows`: a text with every blank replaced by one or more blanks.
* `Reflows.indices`: the counted characters of both texts are aligned.
* `Reflows.squeeze_trim_slice`: slices between aligned places hold the same, but for blanks.
-/

namespace TreePointer

/-- A text with every blank replaced by one or more blanks. -/
inductive Reflows : List Char → List Char → Prop
  | nil : Reflows [] []
  | keep {c : Char} {cs ds : List Char} (hc : isBlank c = false) (h : Reflows cs ds) :
      Reflows (c :: cs) (c :: ds)
  | blank {c : Char} {bs cs ds : List Char} (hc : isBlank c = true) (hne : bs ≠ [])
      (hbs : ∀ b ∈ bs, isBlank b = true) (h : Reflows cs ds) : Reflows (c :: cs) (bs ++ ds)

/-- A text with a space for every run of blanks, where one of them may have begun before. -/
def squeezeFrom : Bool → List Char → List Char
  | _, [] => []
  | inBlank, c :: cs =>
    if isBlank c then (if inBlank then [] else [' ']) ++ squeezeFrom true cs
    else c :: squeezeFrom false cs

/-- A text with every run of blanks collapsed to one space. -/
def squeeze (cs : List Char) : List Char :=
  squeezeFrom false cs

/-- The number of characters among the first `k` of a text that are no blanks. -/
def solidTo (cs : List Char) (k : Nat) : Nat :=
  (cs.take k).countP (!isBlank ·)

/-- Places of two texts with as many characters before them that are no blanks. -/
structure Aligned (cs ds : List Char) (k k' : Nat) : Prop where
  le : k ≤ cs.length
  le' : k' ≤ ds.length
  solid_eq : solidTo cs k = solidTo ds k'

/-! ## Characters that are no blanks -/

section Solid

variable {xs ys cs : List Char} {k m : Nat}

theorem solidTo_mono (h : k ≤ m) : solidTo cs k ≤ solidTo cs m :=
  (List.take_sublist_take_left h).countP_le

theorem solidTo_max (k m : Nat) : solidTo cs (max k m) = max (solidTo cs k) (solidTo cs m) := by
  rcases Nat.le_total k m with h | h
  · rw [Nat.max_eq_right h, Nat.max_eq_right (solidTo_mono h)]
  · rw [Nat.max_eq_left h, Nat.max_eq_left (solidTo_mono h)]

theorem solidTo_length (cs : List Char) : solidTo cs cs.length = cs.countP (!isBlank ·) := by
  rw [solidTo, List.take_length]

theorem solidTo_append_left (h : k ≤ xs.length) : solidTo (xs ++ ys) k = solidTo xs k := by
  rw [solidTo, List.take_append_of_le_length h, solidTo]

theorem solidTo_append (xs ys : List Char) (k : Nat) :
    solidTo (xs ++ ys) (xs.length + k) = xs.countP (!isBlank ·) + solidTo ys k := by
  rw [solidTo, List.take_length_add_append, List.countP_append, solidTo]

/-- Between places with as many of the others before them there are only blanks. -/
theorem UpToBlanks.of_solidTo (h : solidTo cs k = solidTo cs m) : UpToBlanks cs k m := by
  intro i c hi hc
  have hstep : solidTo cs i < solidTo cs (i + 1) := by
    rw [solidTo, solidTo, List.take_add_one, hi, List.countP_append]
    simp [hc]
  have hside : ∀ {k m : Nat}, solidTo cs k = solidTo cs m → i < k → i < m := by
    intro k m h hk
    by_contra hm
    have hbefore : solidTo cs (i + 1) ≤ solidTo cs k := solidTo_mono hk
    have hafter : solidTo cs m ≤ solidTo cs i := solidTo_mono (Nat.le_of_not_lt hm)
    omega
  exact ⟨hside h, hside h.symm⟩

end Solid

namespace Aligned

variable {xs ys cs ds : List Char} {k k' m m' : Nat}

theorem max (h : Aligned cs ds k k') (h' : Aligned cs ds m m') :
    Aligned cs ds (max k m) (max k' m') := by
  refine ⟨Nat.max_le.mpr ⟨h.le, h'.le⟩, Nat.max_le.mpr ⟨h.le', h'.le'⟩, ?_⟩
  rw [solidTo_max, solidTo_max, h.solid_eq, h'.solid_eq]

/-- Aligned places behind parts that have as many of the others. -/
theorem append_left (hcount : xs.countP (!isBlank ·) = ys.countP (!isBlank ·))
    (h : Aligned cs ds k k') : Aligned (xs ++ cs) (ys ++ ds) (xs.length + k) (ys.length + k') := by
  have hle := h.le
  have hle' := h.le'
  refine ⟨?_, ?_, ?_⟩
  · rw [List.length_append]
    omega
  · rw [List.length_append]
    omega
  · rw [solidTo_append, solidTo_append, hcount, h.solid_eq]

/-- Aligned places stay so whatever follows. -/
theorem append_right (h : Aligned cs ds k k') (xs ys : List Char) :
    Aligned (cs ++ xs) (ds ++ ys) k k' := by
  refine ⟨?_, ?_, ?_⟩
  · exact Nat.le_trans h.le (List.length_append ▸ Nat.le_add_right ..)
  · exact Nat.le_trans h.le' (List.length_append ▸ Nat.le_add_right ..)
  · rw [solidTo_append_left h.le, solidTo_append_left h.le', h.solid_eq]

end Aligned

/-! ## Blanks in a row -/

section Blanks

variable {bs : List Char} (hbs : ∀ b ∈ bs, isBlank b = true)

include hbs

theorem countP_blanks : bs.countP (!isBlank ·) = 0 :=
  List.countP_eq_zero.mpr fun b hb => by simp [hbs b hb]

/-- In a run that has begun, no more blanks are written. -/
theorem squeezeFrom_blanks (cs : List Char) :
    squeezeFrom true (bs ++ cs) = squeezeFrom true cs := by
  induction bs with
  | nil => rfl
  | cons b bs ih =>
    rw [List.cons_append, squeezeFrom, if_pos (hbs b List.mem_cons_self), if_pos rfl,
      List.nil_append, ih fun b hb => hbs b (List.mem_cons_of_mem _ hb)]

theorem solidTo_blanks (cs : List Char) {k : Nat} (hk : k ≤ bs.length) :
    solidTo (bs ++ cs) k = 0 := by
  rw [solidTo_append_left hk, solidTo]
  exact countP_blanks fun b hb => hbs b (List.mem_of_mem_take hb)

/-- In a run that has begun, no more blanks are counted, and after it the run goes on. -/
theorem indices_run {k : Counter} (hk : k.inBlank = true) :
    k.indices bs = [] ∧ (k.run bs).inBlank = true := by
  induction bs generalizing k with
  | nil => exact ⟨rfl, hk⟩
  | cons b bs ih =>
    have hb := hbs b List.mem_cons_self
    have hcounts : k.counts b = false := by rw [Counter.counts, hb, hk]; rfl
    obtain ⟨hnil, hrun⟩ := ih (fun b hb => hbs b (List.mem_cons_of_mem _ hb)) (k := k.push b) hb
    rw [Counter.indices, hcounts, hnil]
    exact ⟨rfl, hrun⟩

/-- Of some blanks in a row the first one is counted, unless the run had begun before. -/
theorem indices_blanks (hne : bs ≠ []) (k : Counter) :
    k.indices bs = (if k.inBlank then [] else [0]) ∧ (k.run bs).inBlank = true := by
  obtain ⟨b, bs, rfl⟩ := List.exists_cons_of_ne_nil hne
  have hb := hbs b List.mem_cons_self
  obtain ⟨hnil, hrun⟩ := indices_run (fun b hb => hbs b (List.mem_cons_of_mem _ hb))
    (k := k.push b) hb
  refine ⟨?_, hrun⟩
  rw [Counter.indices, hnil, Counter.counts, hb]
  cases k.inBlank <;> rfl

end Blanks

namespace Reflows

variable {xs ys zs cs ds : List Char} {k k' m m' : Nat}

/-! ## Parts of a re-flowed text -/

theorem append (h : Reflows xs ys) (h' : Reflows cs ds) : Reflows (xs ++ cs) (ys ++ ds) := by
  induction h with
  | nil => exact h'
  | keep hc _ ih => exact .keep hc ih
  | blank hc hne hbs _ ih =>
    rw [List.append_assoc]
    exact .blank hc hne hbs ih

theorem flatMap {α : Type} {ts : List α} {u v : α → List Char}
    (h : ∀ t ∈ ts, Reflows (u t) (v t)) : Reflows (ts.flatMap u) (ts.flatMap v) := by
  induction ts with
  | nil => exact .nil
  | cons t ts ih =>
    rw [List.flatMap_cons, List.flatMap_cons]
    exact (h t List.mem_cons_self).append (ih fun t ht => h t (List.mem_cons_of_mem _ ht))

/-- What two parts were re-flowed to. -/
theorem of_append (h : Reflows (xs ++ ys) zs) :
    ∃ us vs, zs = us ++ vs ∧ Reflows xs us ∧ Reflows ys vs := by
  induction xs generalizing zs with
  | nil => exact ⟨[], zs, rfl, .nil, h⟩
  | cons x xs ih =>
    rw [List.cons_append] at h
    cases h with
    | keep hc h =>
      obtain ⟨us, vs, rfl, hus, hvs⟩ := ih h
      exact ⟨x :: us, vs, rfl, .keep hc hus, hvs⟩
    | blank hc hne hbs h =>
      obtain ⟨us, vs, rfl, hus, hvs⟩ := ih h
      exact ⟨_, vs, (List.append_assoc ..).symm, .blank hc hne hbs hus, hvs⟩

theorem reverse (h : Reflows xs ys) : Reflows xs.reverse ys.reverse := by
  induction h with
  | nil => exact .nil
  | keep hc _ ih =>
    rw [List.reverse_cons, List.reverse_cons]
    exact ih.append (.keep hc .nil)
  | @blank c bs cs ds hc hne hbs _ ih =>
    have hlast : Reflows [c] (bs.reverse ++ []) :=
      .blank hc (by simpa using hne) (fun b hb => hbs b (List.mem_reverse.mp hb)) .nil
    rw [List.append_nil] at hlast
    rw [List.reverse_cons, List.reverse_append]
    exact ih.append hlast

theorem dropWhile (h : Reflows xs ys) : Reflows (xs.dropWhile isBlank) (ys.dropWhile isBlank) := by
  induction h with
  | nil => exact .nil
  | keep hc h _ =>
    rw [List.dropWhile_cons_of_neg (by simp [hc]), List.dropWhile_cons_of_neg (by simp [hc])]
    exact .keep hc h
  | blank hc _ hbs _ ih =>
    rw [List.dropWhile_cons_of_pos hc, List.dropWhile_append_of_pos hbs]
    exact ih

theorem trimmed (h : Reflows xs ys) : Reflows (trim xs) (trim ys) :=
  h.dropWhile.reverse.dropWhile.reverse

/-! ## What stays the same -/

theorem countP_eq (h : Reflows xs ys) :
    xs.countP (!isBlank ·) = ys.countP (!isBlank ·) := by
  induction h with
  | nil => rfl
  | keep hc _ ih => rw [List.countP_cons, List.countP_cons, ih]
  | blank hc _ hbs _ ih =>
    rw [List.countP_cons, List.countP_append, countP_blanks hbs, Nat.zero_add, ih]
    simp [hc]

theorem squeezeFrom_eq (h : Reflows xs ys) (inBlank : Bool) :
    squeezeFrom inBlank xs = squeezeFrom inBlank ys := by
  induction h generalizing inBlank with
  | nil => rfl
  | keep hc _ ih => simp only [squeezeFrom, hc, Bool.false_eq_true, if_false, ih]
  | @blank c bs cs ds hc hne hbs _ ih =>
    obtain ⟨b, bs, rfl⟩ := List.exists_cons_of_ne_nil hne
    have hb := hbs b List.mem_cons_self
    rw [List.cons_append, squeezeFrom, squeezeFrom, if_pos hc, if_pos hb,
      squeezeFrom_blanks fun b hb => hbs b (List.mem_cons_of_mem _ hb), ih]

/-- A text that was re-flowed reads the same with its runs of blanks collapsed. -/
theorem squeeze_trim (h : Reflows xs ys) :
    squeeze (trim xs) = squeeze (trim ys) :=
  h.trimmed.squeezeFrom_eq false

/-! ## Aligned places -/

theorem aligned_length (h : Reflows cs ds) : Aligned cs ds cs.length ds.length := by
  refine ⟨Nat.le_refl _, Nat.le_refl _, ?_⟩
  rw [solidTo_length, solidTo_length, h.countP_eq]

/-- The characters at two indices are aligned at both ends. -/
def AlignedAt (cs ds : List Char) (i j : Nat) : Prop :=
  Aligned cs ds i j ∧ Aligned cs ds (i + 1) (j + 1)

/-- Counted characters are aligned if they are so in two parts. -/
theorem indices_append (xs ys : List Char) {k k' : Counter}
    (hcount : xs.countP (!isBlank ·) = ys.countP (!isBlank ·))
    (hfirst : List.Forall₂ (AlignedAt (xs ++ cs) (ys ++ ds)) (k.indices xs) (k'.indices ys))
    (hrest : List.Forall₂ (AlignedAt cs ds) ((k.run xs).indices cs) ((k'.run ys).indices ds)) :
    List.Forall₂ (AlignedAt (xs ++ cs) (ys ++ ds)) (k.indices (xs ++ cs))
      (k'.indices (ys ++ ds)) := by
  rw [Counter.indices_append, Counter.indices_append]
  refine List.rel_append hfirst (List.rel_map (fun i j hij => ?_) hrest)
  have hstart := hij.1.append_left hcount
  have hend := hij.2.append_left hcount
  rw [Nat.add_comm xs.length, Nat.add_comm ys.length] at hstart hend
  rw [Nat.add_right_comm, Nat.add_right_comm j] at hend
  exact ⟨hstart, hend⟩

/-- **The counted characters** are aligned, one by one. -/
theorem indices (h : Reflows cs ds) {k k' : Counter} (hk : k'.inBlank = k.inBlank) :
    List.Forall₂ (AlignedAt cs ds) (k.indices cs) (k'.indices ds) := by
  induction h generalizing k k' with
  | nil => exact .nil
  | @keep c cs ds hc _ ih =>
    have hfirst : ∀ k : Counter, k.indices [c] = [0] := fun k => by
      rw [Counter.indices, Counter.counts, hc]
      rfl
    refine indices_append [c] [c] rfl ?_ (ih rfl)
    rw [hfirst, hfirst]
    have hlen : ∀ es : List Char, 1 ≤ (c :: es).length := fun es => Nat.le_add_left 1 es.length
    exact .cons ⟨⟨Nat.zero_le _, Nat.zero_le _, rfl⟩, ⟨hlen cs, hlen ds, rfl⟩⟩ .nil
  | @blank c bs cs ds hc hne hbs _ ih =>
    have hsingle : ∀ b ∈ [c], isBlank b = true := fun b hb => List.mem_singleton.mp hb ▸ hc
    obtain ⟨hfirst, hrun⟩ := indices_blanks hsingle (List.cons_ne_nil c []) k
    obtain ⟨hfirst', hrun'⟩ := indices_blanks hbs hne k'
    have hcount := (countP_blanks hsingle).trans (countP_blanks hbs).symm
    refine indices_append [c] bs hcount ?_ (ih (hrun'.trans hrun.symm))
    rw [hfirst, hfirst', hk]
    split
    · exact .nil
    · have hlen : 1 ≤ bs.length := List.length_pos_of_ne_nil hne
      refine .cons ⟨⟨Nat.zero_le _, Nat.zero_le _, rfl⟩,
        ⟨Nat.le_add_left 1 cs.length, ?_, ?_⟩⟩ .nil
      · rw [List.length_append]
        omega
      · exact (solidTo_blanks hsingle cs (Nat.le_refl 1)).trans (solidTo_blanks hbs ds hlen).symm

/-- **Slices between aligned places** hold the same, but for blanks: without those at their ends and
with every run of the others collapsed they are equal. -/
theorem squeeze_trim_slice (h : Reflows cs ds) (hk : Aligned cs ds k k') (hm : Aligned cs ds m m') :
    squeeze (trim (slice cs k m)) = squeeze (trim (slice ds k' m')) := by
  rcases Nat.lt_or_ge m k with hgt | hle
  · -- the slice is empty, and its counterpart holds blanks alone
    have hblank : trim (slice ds k' m') = trim [] := by
      rcases Nat.le_total m' k' with hle' | hle'
      · rw [slice_eq_nil hle']
      · have hge : solidTo cs m ≤ solidTo cs k := solidTo_mono (Nat.le_of_lt hgt)
        rw [hk.solid_eq, hm.solid_eq] at hge
        have heq : solidTo ds k' = solidTo ds m' := Nat.le_antisymm (solidTo_mono hle') hge
        rw [trim_slice (.of_solidTo heq) (.refl ds m'), slice_eq_nil (Nat.le_refl m')]
    rw [hblank, slice_eq_nil (Nat.le_of_lt hgt)]
  · -- the part that the slice was re-flowed to lies between aligned places as well
    have hsplit : cs = ((cs.take m).take k ++ slice cs k m) ++ cs.drop m := by
      rw [slice, List.take_append_drop, List.take_append_drop]
    rw [hsplit] at h
    obtain ⟨front, back, rfl, hfront, -⟩ := h.of_append
    obtain ⟨left, mid, rfl, hleft, hmid⟩ := hfront.of_append
    have hstart : solidTo (left ++ mid ++ back) left.length = solidTo cs k := by
      have hcount := hleft.countP_eq
      rw [List.take_take, Nat.min_eq_left hle] at hcount
      rw [List.append_assoc, solidTo_append_left (Nat.le_refl _), solidTo_length, ← hcount, solidTo]
    have hstop : solidTo (left ++ mid ++ back) (left ++ mid).length = solidTo cs m := by
      have hcount := hfront.countP_eq
      rw [slice, List.take_append_drop] at hcount
      rw [solidTo_append_left (Nat.le_refl _), solidTo_length, ← hcount, solidTo]
    have hslice : slice (left ++ mid ++ back) left.length (left ++ mid).length = mid := by
      rw [slice, List.take_left, List.drop_left]
    rw [hmid.squeeze_trim, trim_slice (.of_solidTo (hk.solid_eq.symm.trans hstart.symm))
      (.of_solidTo (hm.solid_eq.symm.trans hstop.symm)), hslice]

end Reflows

end TreePointer
