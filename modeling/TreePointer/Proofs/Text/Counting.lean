import TreePointer.Proofs.Text.Offset
import TreePointer.Visible.Count

/-!
# Counted characters

Of a text, the counter counts some characters: those that are no blanks, and the first blank of a
run that does not start the text. `Counter.indices` lists where they are. Making an address turns a
boundary into the number of counted characters before it, resolving one turns numbers into the
boundaries around counted characters, and both are said here in terms of that list.

* `Counter.mem_indices_iff_flags`, `Counter.mem_indices_iff`: which characters are counted, by the
  counter and by what stands around them.
* `countBefore_eq`: the number for a boundary is the count of the text before it.
* `countBefore_le`: no number is larger than the count of the whole text.
* `stringRange_found`, `stringRange_point`, `stringRange_end`, `stringRange_none`: what a start and
  a length stand for.
-/

namespace TreePointer

namespace Counter

/-! ## Where the counted characters are -/

/-- The indices of the counted characters of a text, from left to right. -/
def indices : Counter → List Char → List Nat
  | _, [] => []
  | k, c :: cs => (if k.counts c then [0] else []) ++ (indices (k.push c) cs).map (· + 1)

theorem run_append (k : Counter) (xs ys : List Char) : k.run (xs ++ ys) = (k.run xs).run ys :=
  List.foldl_append ..

theorem run_cons (k : Counter) (c : Char) (cs : List Char) :
    k.run (c :: cs) = (k.push c).run cs := rfl

/-- The number of counted characters among the first `k` of a text. -/
def countTo (cs : List Char) (k : Nat) : Nat :=
  (start.run (cs.take k)).count

/-- The count grows by the number of counted characters. -/
theorem count_run (k : Counter) (cs : List Char) :
    (k.run cs).count = k.count + (k.indices cs).length := by
  induction cs generalizing k with
  | nil => rfl
  | cons c cs ih =>
    rw [run_cons, ih, push_count, indices, List.length_append, List.length_map]
    by_cases h : k.counts c = true
    · simp [h, Nat.add_assoc]
    · simp [h]

/-- Of characters that are no blanks all are counted. -/
theorem count_run_of_not_blank {k : Counter} {cs : List Char}
    (h : ∀ c ∈ cs, isBlank c = false) : (k.run cs).count = k.count + cs.length := by
  induction cs generalizing k with
  | nil => rfl
  | cons c cs ih =>
    have hc : k.counts c = true := by rw [counts, h c List.mem_cons_self]; rfl
    have hrest := ih (k := k.push c) fun c' hc' => h c' (List.mem_cons_of_mem c hc')
    rw [run_cons, hrest, push_count, if_pos hc, List.length_cons]
    omega

theorem indices_append (k : Counter) (xs ys : List Char) :
    k.indices (xs ++ ys) = k.indices xs ++ ((k.run xs).indices ys).map (· + xs.length) := by
  induction xs generalizing k with
  | nil => simp [indices, run]
  | cons c cs ih =>
    rw [List.cons_append, indices, ih, indices, run_cons, List.map_append, List.append_assoc,
      List.map_map, List.length_cons]
    simp only [Function.comp_def, Nat.add_assoc]

/-- If the first character is counted, it is the first of the counted ones. -/
theorem getElem?_indices_cons {k : Counter} {c : Char} {cs : List Char} {n i : Nat}
    (h : k.counts c = true) :
    (k.indices (c :: cs))[n]? = some i ↔ n = 0 ∧ i = 0 ∨
      ∃ m j, n = m + 1 ∧ i = j + 1 ∧ ((k.push c).indices cs)[m]? = some j := by
  rw [indices, if_pos h, List.singleton_append]
  cases n with
  | zero => simp [eq_comm]
  | succ n =>
    rw [List.getElem?_cons_succ, List.getElem?_map, Option.map_eq_some_iff]
    simp [eq_comm, and_comm]

theorem getElem?_indices_cons_uncounted {k : Counter} {c : Char} {cs : List Char} {n i : Nat}
    (h : ¬ k.counts c = true) :
    (k.indices (c :: cs))[n]? = some i ↔
      ∃ j, i = j + 1 ∧ ((k.push c).indices cs)[n]? = some j := by
  rw [indices, if_neg h, List.nil_append, List.getElem?_map, Option.map_eq_some_iff]
  simp [eq_comm, and_comm]

theorem lt_of_mem_indices {k : Counter} {cs : List Char} {i : Nat} (h : i ∈ k.indices cs) :
    i < cs.length := by
  induction cs generalizing k i with
  | nil => cases h
  | cons c cs ih =>
    rw [indices, List.mem_append, List.mem_map] at h
    rw [List.length_cons]
    rcases h with h | ⟨j, hj, rfl⟩
    · split at h
      · rw [List.mem_singleton] at h
        omega
      · cases h
    · exact Nat.succ_lt_succ (ih hj)

theorem length_indices_le (k : Counter) (cs : List Char) : (k.indices cs).length ≤ cs.length := by
  induction cs generalizing k with
  | nil => exact Nat.le_refl 0
  | cons c cs ih =>
    have hle := ih (k.push c)
    rw [indices, List.length_append, List.length_map, List.length_cons]
    split <;> simp only [List.length_singleton, List.length_nil] <;> omega

theorem pairwise_indices (k : Counter) (cs : List Char) : (k.indices cs).Pairwise (· < ·) := by
  induction cs generalizing k with
  | nil => exact List.Pairwise.nil
  | cons c cs ih =>
    have htail : ((k.push c).indices cs |>.map (· + 1)).Pairwise (· < ·) :=
      List.pairwise_map.mpr ((ih _).imp Nat.succ_lt_succ)
    rw [indices]
    by_cases h : k.counts c = true
    · rw [if_pos h, List.singleton_append, List.pairwise_cons]
      refine ⟨fun i hi => ?_, htail⟩
      obtain ⟨j, -, rfl⟩ := List.mem_map.mp hi
      exact Nat.succ_pos j
    · rw [if_neg h, List.nil_append]
      exact htail

theorem getElem?_indices_lt {k : Counter} {cs : List Char} {a b i j : Nat} (hab : a < b)
    (hi : (k.indices cs)[a]? = some i) (hj : (k.indices cs)[b]? = some j) : i < j := by
  obtain ⟨ha, rfl⟩ := List.getElem?_eq_some_iff.mp hi
  obtain ⟨hb, rfl⟩ := List.getElem?_eq_some_iff.mp hj
  exact List.pairwise_iff_getElem.mp (pairwise_indices k cs) a b ha hb hab

/-- The counted characters of the first `k` and those of the rest. -/
theorem indices_split (cs : List Char) (k : Nat) :
    ∃ later, start.indices cs = start.indices (cs.take k) ++ later ∧
      (start.indices (cs.take k)).length = countTo cs k ∧
      (∀ i ∈ start.indices (cs.take k), i < k) ∧ (∀ i ∈ later, k ≤ i) := by
  refine ⟨((start.run (cs.take k)).indices (cs.drop k)).map (· + (cs.take k).length),
    ?_, ?_, ?_, ?_⟩
  · rw [← indices_append, List.take_append_drop]
  · rw [countTo, count_run]
    exact (Nat.zero_add _).symm
  · intro i hi
    have hlt := lt_of_mem_indices hi
    rw [List.length_take] at hlt
    omega
  · intro i hi
    obtain ⟨j, hj, rfl⟩ := List.mem_map.mp hi
    have hlt := lt_of_mem_indices hj
    rw [List.length_drop] at hlt
    rw [List.length_take]
    omega

/-- The next counted character from a place on. -/
theorem le_of_getElem?_countTo {cs : List Char} {k i : Nat}
    (h : (start.indices cs)[countTo cs k]? = some i) : k ≤ i := by
  obtain ⟨later, e, hlen, -, hlater⟩ := indices_split cs k
  rw [e, ← hlen, List.getElem?_append_right (Nat.le_refl _)] at h
  exact hlater i (List.mem_of_getElem? h)

/-- The last counted character before a place. -/
theorem lt_of_getElem?_countTo {cs : List Char} {k n i : Nat} (hn : n < countTo cs k)
    (h : (start.indices cs)[n]? = some i) : i < k := by
  obtain ⟨later, e, hlen, hearly, -⟩ := indices_split cs k
  rw [e, List.getElem?_append_left (by omega)] at h
  exact hearly i (List.mem_of_getElem? h)

theorem countTo_le (cs : List Char) (k : Nat) : countTo cs k ≤ (start.indices cs).length := by
  obtain ⟨later, e, hlen, -, -⟩ := indices_split cs k
  rw [e, List.length_append]
  omega

/-- A counted character has as many counted ones before it as its number says. -/
theorem getElem?_countTo_of_mem {cs : List Char} {i : Nat} (h : i ∈ start.indices cs) :
    (start.indices cs)[countTo cs i]? = some i := by
  obtain ⟨n, hn, rfl⟩ := List.mem_iff_getElem.mp h
  have hget : (start.indices cs)[n]? = some (start.indices cs)[n] := List.getElem?_eq_getElem hn
  have hcount : countTo cs (start.indices cs)[n] = n := by
    rcases Nat.lt_trichotomy (countTo cs (start.indices cs)[n]) n with hlt | he | hgt
    · -- a counted character between the place and itself
      have hlt' : countTo cs (start.indices cs)[n] < (start.indices cs).length := by omega
      have h' := List.getElem?_eq_getElem hlt'
      have hle := le_of_getElem?_countTo h'
      have := getElem?_indices_lt hlt h' hget
      omega
    · exact he
    · exact absurd (lt_of_getElem?_countTo hgt hget) (Nat.lt_irrefl _)
  rw [hcount, hget]

/-- The `n`-th counted character is before a place if more than `n` are counted up to there. -/
theorem lt_iff_lt_countTo {cs : List Char} {k n i : Nat} (h : (start.indices cs)[n]? = some i) :
    i < k ↔ n < countTo cs k := by
  constructor
  · intro hi
    rcases Nat.lt_trichotomy n (countTo cs k) with hlt | rfl | hgt
    · exact hlt
    · exact absurd (le_of_getElem?_countTo h) (Nat.not_le.mpr hi)
    · have hlen := Nat.lt_trans hgt (List.getElem?_eq_some_iff.mp h).1
      have hget := List.getElem?_eq_getElem hlen
      have hle := le_of_getElem?_countTo hget
      have hlt := getElem?_indices_lt hgt hget h
      omega
  · exact fun hn => lt_of_getElem?_countTo hn h

theorem countTo_of_getElem? {cs : List Char} {n i : Nat} (h : (start.indices cs)[n]? = some i) :
    countTo cs i = n := by
  have hself := getElem?_countTo_of_mem (List.mem_of_getElem? h)
  rcases Nat.lt_trichotomy (countTo cs i) n with hlt | he | hgt
  · exact absurd (getElem?_indices_lt hlt hself h) (Nat.lt_irrefl i)
  · exact he
  · exact absurd (getElem?_indices_lt hgt h hself) (Nat.lt_irrefl i)

theorem countTo_mono (cs : List Char) {k m : Nat} (h : k ≤ m) : countTo cs k ≤ countTo cs m := by
  rcases Nat.lt_or_ge (countTo cs m) (countTo cs k) with hlt | hle
  · have hget := List.getElem?_eq_getElem (Nat.lt_of_lt_of_le hlt (countTo_le cs k))
    have hk := (lt_iff_lt_countTo hget).mpr hlt
    exact absurd ((lt_iff_lt_countTo hget).mp (Nat.lt_of_lt_of_le hk h)) (Nat.lt_irrefl _)
  · exact hle

theorem countTo_length (cs : List Char) : countTo cs cs.length = (start.indices cs).length := by
  rw [countTo, List.take_length, count_run]
  exact Nat.zero_add _

/-! ## Which characters are counted -/

/-- The flag of a character says whether it is counted after those in front of it. -/
theorem getElem?_flags (k : Counter) (cs : List Char) (i : Nat) :
    (k.flags cs)[i]? = cs[i]?.map (k.run (cs.take i)).counts := by
  induction cs generalizing k i with
  | nil => rfl
  | cons c cs ih =>
    cases i with
    | zero => rfl
    | succ i =>
      rw [flags, List.getElem?_cons_succ, List.getElem?_cons_succ, List.take_succ_cons, run_cons]
      exact ih (k.push c) i

/-- The counted characters are those with a flag. -/
theorem mem_indices_iff_flags {k : Counter} {cs : List Char} {i : Nat} :
    i ∈ k.indices cs ↔ (k.flags cs)[i]? = some true := by
  induction cs generalizing k i with
  | nil => simp [indices, flags]
  | cons c cs ih =>
    rw [indices, flags, List.mem_append, List.mem_map]
    cases i with
    | zero => cases hc : k.counts c <;> simp
    | succ i =>
      rw [List.getElem?_cons_succ, ← ih]
      cases hc : k.counts c <;> simp

theorem mem_indices_iff_counts {k : Counter} {cs : List Char} {i : Nat} :
    i ∈ k.indices cs ↔ ∃ c, cs[i]? = some c ∧ (k.run (cs.take i)).counts c = true := by
  rw [mem_indices_iff_flags, getElem?_flags, Option.map_eq_some_iff]

/-- Up to the character behind a counted one the count is one more. -/
theorem countTo_succ_of_mem {cs : List Char} {i : Nat} (h : i ∈ start.indices cs) :
    countTo cs (i + 1) = countTo cs i + 1 := by
  obtain ⟨c, hc, hcounts⟩ := mem_indices_iff_counts.mp h
  have htake : cs.take (i + 1) = cs.take i ++ [c] := by
    rw [List.take_add_one, hc, Option.toList_some]
  rw [countTo, htake, run_append]
  show ((start.run (cs.take i)).push c).count = _
  rw [push_count, if_pos hcounts, countTo]

/-- Whether the `i`-th character of a text is counted: it is no blank, or a blank behind a
character that is none. -/
def IsCounted (cs : List Char) (i : Nat) : Prop :=
  ∃ c, cs[i]? = some c ∧
    (isBlank c = false ∨ ∃ b, 0 < i ∧ cs[i - 1]? = some b ∧ isBlank b = false)

/-- **The counted characters** are those that are no blanks, and the first blanks of runs that do
not start the text. -/
theorem mem_indices_iff {cs : List Char} {i : Nat} : i ∈ start.indices cs ↔ IsCounted cs i := by
  rw [mem_indices_iff_counts]
  refine exists_congr fun c => and_congr_right fun hc => ?_
  cases i with
  | zero =>
    have hcounts : (start.run (cs.take 0)).counts c = !isBlank c := by
      exact congrArg _ (Bool.and_true _)
    rw [hcounts]
    simp
  | succ i =>
    have hi : i < cs.length := by
      have := (List.getElem?_eq_some_iff.mp hc).1
      omega
    have hb : cs[i]? = some cs[i] := List.getElem?_eq_getElem hi
    have hcounts : (start.run (cs.take (i + 1))).counts c = !(isBlank c && isBlank cs[i]) := by
      rw [List.take_add_one, hb, Option.toList_some, run_append]
      rfl
    rw [hcounts, Nat.add_sub_cancel, hb]
    simp

end Counter

/-! ## The search for a stretch -/

namespace StretchSearch

variable {first last : Nat} {k : Counter} {x p q : Place} {ps : List Place}

theorem step_uncounted {o : Option Place} (h : ¬ k.counts x.char = true) :
    step first last ⟨k, o⟩ x = .ok ⟨k.push x.char, o⟩ := by
  simp [step, h]

theorem step_before_first (h : k.counts x.char = true) (hf : first ≠ k.count + 1) :
    step first last ⟨k, none⟩ x = .ok ⟨k.push x.char, none⟩ := by
  simp [step, h, Counter.push, Ne.symm hf]

theorem step_first (h : k.counts x.char = true) (hf : first = k.count + 1) :
    step first last ⟨k, none⟩ x
      = if k.count + 1 = last then .error (x, x) else .ok ⟨k.push x.char, some x⟩ := by
  simp [step, h, Counter.push, hf]

theorem step_after_first (h : k.counts x.char = true) (hf : first ≤ k.count) :
    step first last ⟨k, some p⟩ x
      = if k.count + 1 = last then .error (p, x) else .ok ⟨k.push x.char, some p⟩ := by
  have hne : k.count + 1 ≠ first := by omega
  simp [step, h, Counter.push, hne]

/-- The search goes on after a character that has not the last number. -/
theorem step_goes_on {s : StretchSearch} (h : (s.counter.push x.char).count ≠ last) :
    ∃ s', step first last s x = .ok s' ∧ s'.counter = s.counter.push x.char := by
  unfold step
  by_cases hc : s.counter.counts x.char = true
  · simp only [hc, if_true]
    cases (if (s.counter.push x.char).count = first then some x else s.first) with
    | none => exact ⟨_, rfl, rfl⟩
    | some q => exact ⟨_, if_neg h, rfl⟩
  · simp only [hc]
    exact ⟨_, rfl, rfl⟩

/-- Once the first character is known the search ends at the last one. -/
theorem search_last {b j : Nat} (hf : first ≤ k.count) (hl : last = k.count + b + 1)
    (hj : (k.indices (ps.map Place.char))[b]? = some j) (hq : ps[j]? = some q) :
    ps.foldlM (step first last) ⟨k, some p⟩ = .error (p, q) := by
  induction ps generalizing k b j with
  | nil => simp at hq
  | cons x ps ih =>
    rw [List.foldlM_cons]
    rw [List.map_cons] at hj
    by_cases h : k.counts x.char = true
    · have hcount : (k.push x.char).count = k.count + 1 := by rw [Counter.push_count, if_pos h]
      rw [step_after_first h hf]
      rw [Counter.getElem?_indices_cons h] at hj
      obtain ⟨rfl, rfl⟩ | ⟨b, j, rfl, rfl, hj⟩ := hj
      · rw [List.getElem?_cons_zero, Option.some.injEq] at hq
        rw [if_pos (by omega), hq]
        rfl
      · rw [List.getElem?_cons_succ] at hq
        rw [if_neg (by omega)]
        exact ih (by omega) (by omega) hj hq
    · have hcount : (k.push x.char).count = k.count := by
        rw [Counter.push_count, if_neg h, Nat.add_zero]
      rw [Counter.getElem?_indices_cons_uncounted h] at hj
      obtain ⟨j, rfl, hj⟩ := hj
      rw [List.getElem?_cons_succ] at hq
      rw [step_uncounted h]
      exact ih (by omega) (by omega) hj hq

/-- The search gives the counted characters with the two numbers. -/
theorem search_found {a b i j : Nat} (hf : first = k.count + a + 1) (hl : last = k.count + b + 1)
    (hab : a ≤ b) (hi : (k.indices (ps.map Place.char))[a]? = some i)
    (hj : (k.indices (ps.map Place.char))[b]? = some j) (hp : ps[i]? = some p)
    (hq : ps[j]? = some q) : ps.foldlM (step first last) ⟨k, none⟩ = .error (p, q) := by
  induction ps generalizing k a b i j with
  | nil => simp at hq
  | cons x ps ih =>
    rw [List.foldlM_cons]
    rw [List.map_cons] at hi hj
    by_cases h : k.counts x.char = true
    · have hcount : (k.push x.char).count = k.count + 1 := by rw [Counter.push_count, if_pos h]
      rw [Counter.getElem?_indices_cons h] at hi hj
      obtain ⟨rfl, rfl⟩ | ⟨a, i, rfl, rfl, hi⟩ := hi
      · rw [List.getElem?_cons_zero, Option.some.injEq] at hp
        subst hp
        rw [step_first h (by omega)]
        obtain ⟨rfl, rfl⟩ | ⟨b, j, rfl, rfl, hj⟩ := hj
        · rw [List.getElem?_cons_zero, Option.some.injEq] at hq
          rw [if_pos (by omega), hq]
          rfl
        · rw [List.getElem?_cons_succ] at hq
          rw [if_neg (by omega)]
          exact search_last (by omega) (by omega) hj hq
      · obtain ⟨rfl, -⟩ | ⟨b, j, rfl, rfl, hj⟩ := hj
        · omega
        · rw [List.getElem?_cons_succ] at hp hq
          rw [step_before_first h (by omega)]
          exact ih (by omega) (by omega) (by omega) hi hj hp hq
    · have hcount : (k.push x.char).count = k.count := by
        rw [Counter.push_count, if_neg h, Nat.add_zero]
      rw [Counter.getElem?_indices_cons_uncounted h] at hi hj
      obtain ⟨i, rfl, hi⟩ := hi
      obtain ⟨j, rfl, hj⟩ := hj
      rw [List.getElem?_cons_succ] at hp hq
      rw [step_uncounted h]
      exact ih (by omega) (by omega) hab hi hj hp hq

/-- Without a character of the last number the search reads the whole text. -/
theorem search_none {s : StretchSearch}
    (h : (s.counter.run (ps.map Place.char)).count < last) :
    ∃ s', ps.foldlM (step first last) s = .ok s' ∧
      s'.counter = s.counter.run (ps.map Place.char) := by
  induction ps generalizing s with
  | nil => exact ⟨s, rfl, rfl⟩
  | cons x ps ih =>
    rw [List.map_cons, Counter.run_cons] at h
    have hle := Counter.count_run (s.counter.push x.char) (ps.map Place.char)
    have hne : (s.counter.push x.char).count ≠ last := by omega
    obtain ⟨s', hs', hc⟩ := step_goes_on hne
    rw [← hc] at h
    obtain ⟨s'', hs'', hc'⟩ := ih h
    refine ⟨s'', ?_, ?_⟩
    · rw [List.foldlM_cons, hs']
      exact hs''
    · rw [hc', List.map_cons, Counter.run_cons, hc]

end StretchSearch

/-! ## Stretches of a text -/

namespace Forest

variable {f : Forest} {n : Node}

/-- Where the counted characters of a node are in its visible text. -/
def countedIndices (f : Forest) (n : Node) : List Nat :=
  Counter.start.indices (f.visibleChars n)

theorem exists_place_of_counted {k i : Nat} (h : (f.countedIndices n)[k]? = some i) :
    ∃ p, (f.places n)[i]? = some p := by
  have hlt := Counter.lt_of_mem_indices (List.mem_of_getElem? h)
  rw [visibleChars, List.length_map] at hlt
  exact ⟨_, List.getElem?_eq_getElem hlt⟩

/-- Only the part of a start above zero plays a part. -/
theorem stringRange_max (s l : Nat) : f.stringRange n s l = f.stringRange n (max s 1 : Nat) l := by
  have h : (max (s : Int) 1).toNat = (max ((max s 1 : Nat) : Int) 1).toNat := by omega
  rw [stringRange, stringRange, h]

/-- Without a character of the last number all of the text is read. -/
theorem search_all {s last : Nat} (h : (f.countedIndices n).length < last) :
    ∃ k, (f.places n).foldlM (StretchSearch.step s last) .start = .ok k ∧
      k.counter.count = (f.countedIndices n).length := by
  have hcount := Counter.count_run .start (f.visibleChars n)
  have hstart : Counter.start.count = 0 := rfl
  rw [← countedIndices, hstart, Nat.zero_add] at hcount
  have hlt : (StretchSearch.start.counter.run ((f.places n).map Place.char)).count < last := by
    rw [StretchSearch.start, ← visibleChars, hcount]
    exact h
  obtain ⟨k, hk, hc⟩ := StretchSearch.search_none (s := .start) hlt
  exact ⟨k, hk, by rw [hc, StretchSearch.start, ← visibleChars, hcount]⟩

section

variable {s l : Nat} (hs : 1 ≤ s)

include hs

theorem stringRange_eq : f.stringRange n s l =
    match (f.places n).foldlM (StretchSearch.step s (s + (l - 1))) .start with
    | .error (first, last) =>
      if l = 0 then .ok (some (.point first.before))
      else do return some (← Range.make f first.before last.after)
    | .ok k => if l = 0 ∧ k.counter.count + 1 = s then .ok (some (.point (f.endOfText n)))
      else .ok none := by
  have h : (max (s : Int) 1).toNat = s := by omega
  rewrite [stringRange, visitPlaces_eq, h, Int.toNat_natCast]
  rfl

/-- A length of zero stands for the point before the character. -/
theorem stringRange_point {i : Nat} {p : Place} (hi : (f.countedIndices n)[s - 1]? = some i)
    (hp : (f.places n)[i]? = some p) :
    f.stringRange n s (0 : Nat) = .ok (some (.point p.before)) := by
  have h := StretchSearch.search_found (k := .start)
    (a := s - 1) (b := s - 1) (by show s = 0 + (s - 1) + 1; omega)
    (by show s + (0 - 1) = 0 + (s - 1) + 1; omega) (Nat.le_refl _) hi hi hp hp
  rw [stringRange_eq hs]
  simp only [StretchSearch.start, h, if_true]

/-- The number after the last one stands for the end of the text. -/
theorem stringRange_end (h : (f.countedIndices n).length + 1 = s) :
    f.stringRange n s (0 : Nat) = .ok (some (.point (f.endOfText n))) := by
  have hlt : (f.countedIndices n).length < s + (0 - 1) := by omega
  obtain ⟨k, hk, hc⟩ := search_all (s := s) hlt
  rw [stringRange_eq hs]
  simp only [hk]
  rw [if_pos ⟨trivial, by omega⟩]

/-- Nothing stands for a number past that. -/
theorem stringRange_none (h : (f.countedIndices n).length < s + (l - 1))
    (h' : l = 0 → (f.countedIndices n).length + 1 ≠ s) : f.stringRange n s l = .ok none := by
  obtain ⟨k, hk, hc⟩ := search_all (f := f) (n := n) (s := s) h
  rw [stringRange_eq hs]
  simp only [hk]
  rw [if_neg fun ⟨hl, he⟩ => h' hl (by omega)]

end

/-- A start and a length stand for the range from one counted character to another. -/
theorem stringRange_found (wf : f.WellFormed) (hn : f.Has n) {s l i j : Nat} {p q : Place}
    (hs : 1 ≤ s) (hl : 1 ≤ l) (hi : (f.countedIndices n)[s - 1]? = some i)
    (hj : (f.countedIndices n)[s + l - 2]? = some j) (hp : (f.places n)[i]? = some p)
    (hq : (f.places n)[j]? = some q) :
    f.stringRange n s l = .ok (some ⟨p.before, q.after⟩) := by
  have h := StretchSearch.search_found (k := .start)
    (a := s - 1) (b := s + l - 2) (by show s = 0 + (s - 1) + 1; omega)
    (by show s + (l - 1) = 0 + (s + l - 2) + 1; omega) (by omega) hi hj hp hq
  rw [stringRange_eq hs]
  simp only [StretchSearch.start, h]
  rw [if_neg (by omega)]
  have hij : i ≤ j := by
    rcases Nat.lt_or_ge (s - 1) (s + l - 2) with hlt | hge
    · exact Nat.le_of_lt (Counter.getElem?_indices_lt hlt hi hj)
    · have e : s + l - 2 = s - 1 := by omega
      rw [e, hi, Option.some.injEq] at hj
      omega
  have hcompare : p.before.compare f q.after = .ok .lt := by
    refine wf.compare_of_textOffset_lt hn (wf.within_of_mem_places hn (List.mem_of_getElem? hp))
      (wf.within_of_mem_places hn (List.mem_of_getElem? hq)) ?_
    rw [(wf.textOffset_place hn hp).1, (wf.textOffset_place hn hq).2]
    omega
  have hmake := Range.make_of_le (inBounds_of_mem_places (List.mem_of_getElem? hp)).1
    (inBounds_of_mem_places (List.mem_of_getElem? hq)).2 hcompare (by decide)
  rw [hmake]
  rfl

/-! ## The count before a boundary -/

section Count

variable {t : Node} {i : Nat}

/-- A character of an earlier text is counted. -/
theorem countStep_earlier {s : BoundaryCount} {p : Place} (hc : s.current ≠ some t)
    (h : f.compareOrder t p.node = .ok .gt) :
    f.countStep t i s p = .ok ⟨some p.node, s.counter.push p.char⟩ := by
  have hne : p.node ≠ t := (Boundary.ne_of_compareOrder h (by decide)).symm
  rw [countStep, if_neg hne, if_neg hc]
  by_cases hcur : s.current = some p.node
  · rw [if_pos hcur, hcur]
  · rw [if_neg hcur, h]

theorem countStep_earlier_all {ps : List Place} {s : BoundaryCount} (hc : s.current ≠ some t)
    (h : ∀ p ∈ ps, f.compareOrder t p.node = .ok .gt) :
    ∃ cur, ps.foldlM (f.countStep t i) s = .ok ⟨cur, s.counter.run (ps.map Place.char)⟩ ∧
      (cur = s.current ∨ ∃ p ∈ ps, cur = some p.node) := by
  induction ps generalizing s with
  | nil => exact ⟨s.current, rfl, Or.inl rfl⟩
  | cons p ps ih =>
    have hp := h p List.mem_cons_self
    have hne := (Boundary.ne_of_compareOrder hp (by decide)).symm
    obtain ⟨cur, hfold, hcur⟩ := ih (s := ⟨some p.node, s.counter.push p.char⟩)
      (fun e => hne (Option.some.inj e)) fun q hq => h q (List.mem_cons_of_mem _ hq)
    refine ⟨cur, ?_, Or.inr ?_⟩
    · rw [List.foldlM_cons, countStep_earlier hc hp]
      exact hfold
    · rcases hcur with rfl | ⟨q, hq, rfl⟩
      · exact ⟨p, List.mem_cons_self, rfl⟩
      · exact ⟨q, List.mem_cons_of_mem _ hq, rfl⟩

/-- In the target the count ends at the offset. -/
theorem countStep_target {cs : List Char} {k : Nat} {s : BoundaryCount} (hk : k ≤ i)
    (h : i < k + cs.length) :
    ((cs.zipIdx k).map fun (c, j) => Place.mk c t j).foldlM (f.countStep t i) s
      = .error (.ok (s.counter.run (cs.take (i - k))).count) := by
  induction cs generalizing k s with
  | nil => exact absurd h (by simpa using hk)
  | cons c cs ih =>
    rw [List.zipIdx_cons, List.map_cons, List.foldlM_cons, countStep, if_pos rfl]
    by_cases he : k = i
    · subst he
      rw [if_pos rfl, Nat.sub_self, List.take_zero]
      rfl
    · have hsub : i - k = (i - (k + 1)) + 1 := by omega
      rw [List.length_cons] at h
      rw [if_neg he, hsub, List.take_succ_cons, Counter.run_cons]
      exact ih (by omega) (by omega)

theorem countStep_target_all {cs : List Char} {k : Nat} {s : BoundaryCount}
    (h : k + cs.length ≤ i) :
    ((cs.zipIdx k).map fun (c, j) => Place.mk c t j).foldlM (f.countStep t i) s
      = .ok ⟨if cs = [] then s.current else some t, s.counter.run cs⟩ := by
  induction cs generalizing k s with
  | nil => rfl
  | cons c cs ih =>
    rw [List.length_cons] at h
    rw [List.zipIdx_cons, List.map_cons, List.foldlM_cons, countStep, if_pos rfl,
      if_neg (by show ¬ k = i; omega)]
    show List.foldlM _ _ _ = _
    rw [ih (by omega), if_neg (List.cons_ne_nil c cs), Counter.run_cons]
    by_cases hcs : cs = []
    · rw [if_pos hcs]
    · rw [if_neg hcs]

/-- Past the target the count ends. -/
theorem countStep_later {p : Place} {ps : List Place} {s : BoundaryCount}
    (h : f.compareOrder t p.node = .ok .lt) (hc : s.current = some t ∨ s.current ≠ some p.node) :
    (p :: ps).foldlM (f.countStep t i) s = .error (.ok s.counter.count) := by
  have hne : p.node ≠ t := (Boundary.ne_of_compareOrder h (by decide)).symm
  have hstep : f.countStep t i s p = .error (.ok s.counter.count) := by
    rw [countStep, if_neg hne]
    by_cases ht : s.current = some t
    · rw [if_pos ht]
    · rw [if_neg ht, if_neg (hc.resolve_left ht), h]
  rw [List.foldlM_cons, hstep]
  rfl

/-- From the target onwards what is before the offset is counted, whether or not the count ends
there. Of a target that is not shown there are no characters. -/
theorem countStep_onwards (cs : List Char) {ps : List Place} {s : BoundaryCount}
    (hlater : ∀ p ∈ ps, f.compareOrder t p.node = .ok .lt)
    (hc : ∀ p ∈ ps, s.current ≠ some p.node) :
    ((cs.zipIdx.map fun (c, j) => Place.mk c t j) ++ ps).foldlM (f.countStep t i) s
        = .error (.ok (s.counter.run (cs.take i)).count) ∨
      ∃ s', ((cs.zipIdx.map fun (c, j) => Place.mk c t j) ++ ps).foldlM (f.countStep t i) s
          = .ok s' ∧ s'.counter = s.counter.run (cs.take i) := by
  rw [List.foldlM_append]
  rcases Nat.lt_or_ge i cs.length with hi | hi
  · rw [countStep_target (Nat.zero_le i) (by omega)]
    exact Or.inl rfl
  have hall : 0 + cs.length ≤ i := by omega
  rw [List.take_of_length_le hi, countStep_target_all hall]
  cases ps with
  | nil => exact Or.inr ⟨_, rfl, rfl⟩
  | cons p ps =>
    refine Or.inl (countStep_later (hlater p List.mem_cons_self) ?_)
    dsimp only
    by_cases hcs : cs = []
    · rw [if_pos hcs]
      exact Or.inr (hc p List.mem_cons_self)
    · rw [if_neg hcs]
      exact Or.inl rfl

end Count

/-- A text, shown or not, has the characters of the earlier texts before it and those of the later
ones behind it. -/
theorem WellFormed.places_around (wf : f.WellFormed) {e t : Node} (he : f.Has e)
    (hw : f.Within e t) (ht : f.isText t = true) (i : Nat) :
    ∃ earlier later, f.places e = earlier ++ (f.places t ++ later) ∧
      (∀ p ∈ earlier, f.compareOrder t p.node = .ok .gt) ∧
      (∀ p ∈ later, f.compareOrder t p.node = .ok .lt) ∧
      (f.placesBefore e ⟨t, i⟩).map Place.char
        = earlier.map Place.char ++ (f.visibleChars t).take i := by
  have hthas := has_of_isText ht
  have hkids := wf.children_of_not_container (not_container_of_isText ht)
  obtain ⟨before, after, hsplit⟩ := wf.preorder_infix he hw
  have hpair := wf.pairwise_preorder he
  rw [hsplit, wf.preorder_of_leaf hthas hkids, List.singleton_append, List.pairwise_append,
    List.pairwise_cons] at hpair
  refine ⟨f.placesIn before, f.placesIn after, ?_, fun p hp => ?_, fun p hp => ?_, ?_⟩
  · rw [places_eq e, hsplit, placesIn_append, placesIn_append, ← places_eq]
  · rw [compareOrder_swap, hpair.2.2 _ (mem_placesIn hp).1 t List.mem_cons_self]
    rfl
  · exact hpair.2.1.1 _ (mem_placesIn hp).1
  · rw [wf.placesBefore_within he hsplit hthas (.refl f t), wf.placesBefore_text ht,
      List.map_append, List.map_take, visibleChars]

/-- The visible characters of a text stand in it at their own indices. -/
theorem WellFormed.places_eq_zipIdx (wf : f.WellFormed) {t : Node} (ht : f.isText t = true) :
    f.places t = (f.visibleChars t).zipIdx.map fun (c, j) => Place.mk c t j := by
  rw [visibleChars, wf.places_text ht]
  split
  · rw [map_char_placesOf, placesOf]
  · rfl

/-- **The number for a boundary** in a text below an element is the count of the element's text
before it, even if the text itself is not shown. -/
theorem countBefore_eq (wf : f.WellFormed) {e t : Node} (he : f.Has e) (ht : e ∈ f.ancestors t)
    (htext : f.isText t = true) (i : Nat) :
    f.countBefore e t i = .ok (Counter.countTo (f.visibleChars e) (f.textOffset e ⟨t, i⟩)) := by
  obtain ⟨earlier, later, hplaces, hearlier, hlater, hchars⟩ :=
    wf.places_around he (Or.inr ht) htext i
  obtain ⟨current, hfold, hcurrent⟩ := countStep_earlier_all (t := t) (i := i)
    (s := ⟨none, .start⟩) (fun e => by cases e) hearlier
  -- no text after the target has been read before it
  have hunread : ∀ p ∈ later, current ≠ some p.node := by
    rintro p hp rfl
    rcases hcurrent with h | ⟨q, hq, h⟩
    · cases h
    · have hgt := hearlier q hq
      rw [← Option.some.inj h, hlater p hp] at hgt
      cases hgt
  have hread : (f.places e).foldlM (f.countStep t i) ⟨none, .start⟩
      = (f.places t ++ later).foldlM (f.countStep t i)
        ⟨current, Counter.start.run (earlier.map Place.char)⟩ := by
    rw [hplaces, List.foldlM_append, hfold]
    rfl
  rw [countBefore, visitPlaces_eq, hread, Counter.countTo,
    ← wf.chars_before he (b := ⟨t, i⟩) (Or.inr ht), hchars, Counter.run_append,
    wf.places_eq_zipIdx htext]
  obtain hstop | ⟨s, hgo, hs⟩ := countStep_onwards (i := i) (f.visibleChars t) hlater
    (s := ⟨current, Counter.start.run (earlier.map Place.char)⟩) hunread
  · rw [hstop]
  · have habove : f.isAncestor e t = true := decide_eq_true ht
    rw [hgo]
    dsimp only
    rw [if_pos (Or.inr habove), hs]

/-- One more character ends the count where it stands, in a fault, or goes on with the character. -/
theorem countStep_cases (f : Forest) (t : Node) (i : Nat) (s : BoundaryCount) (p : Place) :
    f.countStep t i s p = .error (.ok s.counter.count) ∨
      (∃ e, f.countStep t i s p = .error (.error e)) ∨
      ∃ cur, f.countStep t i s p = .ok ⟨cur, s.counter.push p.char⟩ := by
  unfold countStep
  split
  · split
    · exact .inl rfl
    · exact .inr (.inr ⟨_, rfl⟩)
  · split
    · exact .inl rfl
    · split
      · exact .inr (.inr ⟨_, rfl⟩)
      · split
        · exact .inr (.inl ⟨_, rfl⟩)
        · exact .inl rfl
        · exact .inr (.inr ⟨_, rfl⟩)

/-- A count that ends has not passed the count of all the characters, nor has one that goes on. -/
theorem countStep_le (t : Node) (i : Nat) (ps : List Place) (s : BoundaryCount) :
    (∀ n, ps.foldlM (f.countStep t i) s = .error (.ok n) →
        n ≤ (s.counter.run (ps.map Place.char)).count) ∧
      ∀ s', ps.foldlM (f.countStep t i) s = .ok s' →
        s'.counter.count ≤ (s.counter.run (ps.map Place.char)).count := by
  induction ps generalizing s with
  | nil =>
    refine ⟨nofun, fun s' h => ?_⟩
    cases h
    exact Nat.le_refl _
  | cons p ps ih =>
    have hle : s.counter.count ≤ (s.counter.run ((p :: ps).map Place.char)).count := by
      rw [Counter.count_run]
      exact Nat.le_add_right _ _
    rw [List.foldlM_cons]
    rcases countStep_cases f t i s p with h | ⟨e, h⟩ | ⟨cur, h⟩
    · rw [h]
      refine ⟨fun n hn => ?_, nofun⟩
      cases hn
      exact hle
    · rw [h]
      exact ⟨nofun, nofun⟩
    · rw [h]
      exact ih ⟨cur, s.counter.push p.char⟩

/-- **The number for a boundary**, whatever its container is, is no larger than the number of all
the counted characters of the element. -/
theorem countBefore_le {e t : Node} {i n : Nat} (h : f.countBefore e t i = .ok n) :
    n ≤ (f.countedIndices e).length := by
  have hall : (Counter.start.run ((f.places e).map Place.char)).count
      = (f.countedIndices e).length := by
    rw [Counter.count_run]
    exact Nat.zero_add _
  obtain ⟨hended, hgone⟩ := countStep_le (f := f) t i (f.places e) ⟨none, .start⟩
  rw [hall] at hended hgone
  rw [countBefore, visitPlaces_eq] at h
  cases hread : (f.places e).foldlM (f.countStep t i) ⟨none, .start⟩ with
  | error answer =>
    rw [hread] at h
    exact hended n (hread.trans (congrArg Except.error h))
  | ok s =>
    rw [hread] at h
    dsimp only at h
    split at h
    · cases h
      exact hgone s hread
    · cases h

/-- A count stops in a fault only where two nodes have no order. -/
theorem compareOrder_of_countStep {t : Node} {i : Nat} {s : BoundaryCount} {p : Place} {e : Fault}
    (h : f.countStep t i s p = .error (.error e)) : f.compareOrder t p.node = .error e := by
  unfold countStep at h
  split at h
  · split at h
    · cases h
    · cases h
  · split at h
    · cases h
    · split at h
      · cases h
      · split at h
        · next fault hfault =>
          cases h
          exact hfault
        · cases h
        · cases h

/-- Counting ends without a fault where all texts are in one tree with the target. -/
theorem foldlM_countStep_no_fault (wf : f.WellFormed) {e t : Node} (he : f.Has e)
    (ht : f.Within e t) {i : Nat} {ps : List Place} (hps : ∀ p ∈ ps, f.Within e p.node)
    (s : BoundaryCount) :
    (∃ k, ps.foldlM (f.countStep t i) s = .error (.ok k)) ∨
      ∃ s', ps.foldlM (f.countStep t i) s = .ok s' := by
  induction ps generalizing s with
  | nil => exact .inr ⟨s, rfl⟩
  | cons p ps ih =>
    rw [List.foldlM_cons]
    rcases countStep_cases f t i s p with h | ⟨fault, h⟩ | ⟨cur, h⟩
    · rw [h]
      exact .inl ⟨_, rfl⟩
    · have horder := compareOrder_of_countStep h
      rcases wf.compareOrder_total he ht (hps p List.mem_cons_self) with rfl | hlt | hgt
      · rw [compareOrder_self] at horder
        cases horder
      · rw [hlt] at horder
        cases horder
      · rw [compareOrder_swap, hgt] at horder
        cases horder
    · rw [h]
      exact ih (fun q hq => hps q (List.mem_cons_of_mem p hq)) _

/-- **A boundary below an element** has a number, whether its text is shown or not. -/
theorem exists_countBefore (wf : f.WellFormed) {e t : Node} (he : f.Has e)
    (ht : e ∈ f.ancestors t) (i : Nat) : ∃ k, f.countBefore e t i = .ok k := by
  rw [countBefore, visitPlaces_eq]
  rcases foldlM_countStep_no_fault wf he (.inr ht)
    (fun p hp => wf.within_of_mem_places he hp) (i := i) ⟨none, .start⟩ with ⟨k, hk⟩ | ⟨s, hs⟩
  · rw [hk]
    exact ⟨k, rfl⟩
  · rw [hs]
    dsimp only
    have habove : f.isAncestor e t = true := decide_eq_true ht
    rw [if_pos (Or.inr habove)]
    exact ⟨_, rfl⟩

end Forest

end TreePointer
