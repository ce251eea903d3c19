import TreePointer.Proofs.Address.Settle
import TreePointer.Proofs.Address.TextSelection

/-!
# The expression between two texts, in numbers

The expression for a stretch between two texts is made of the elements above its settled ends and of
the numbers of characters counted in these elements before them. Whether the ends have passed each
other can be told from the offsets of the boundaries: with a visible character between these they
stay apart, with none they meet, unless there is no visible text to move to at all.

* `betweenNumbers`: the expression that elements and numbers determine.
* `settled_apart_iff`: whether the settled ends stay apart.
* `betweenTexts_apart`, `betweenTexts_meet`: the expression in each of the cases.
* `exists_betweenTexts`: there is one.
-/

namespace TreePointer

/-- A boundary in the text of an unmarked element is one of a shown text. -/
theorem Document.InText.inShown_root {f : Forest} {d : Document} {b : Boundary} {p : Node}
    (h : d.InText f b p) : b.InShown f d.root :=
  ⟨h.within, h.isShown, h.inBounds⟩

namespace Address

open Forest

variable {f : Forest} {d : Document} {o : Options} {r : Node} {a b : Boundary} {p q : Node}

/-- The expression for a stretch with so many counted characters of an element before each end. -/
def betweenNumbers (f : Forest) (d : Document) (o : Options) (p : Node) (n : Nat) (q : Node)
    (m : Nat) : Except Fault String :=
  if p = q then stringRange f d o p (n + 1) (m - n)
  else do
    let first ← startNumber f d o p n
    let last ← stopNumber f d o q m
    .ok (first ++ "/range-to(" ++ last ++ ")")

/-! ## The order of the settled ends -/

section Order

variable (wf : f.WellFormed) (hr : f.Has r)

include wf hr

/-- Different boundaries in texts come one after the other. -/
theorem compare_of_ne (ha : a.InShown f r) (hb : b.InShown f r) (hne : a ≠ b) :
    a.compare f b = .ok .lt ∨ b.compare f a = .ok .lt := by
  rcases wf.text_beside hr hb.within ha.within (isText_of_isShown ha.isShown) with
    h | ⟨-, h⟩ | ⟨-, h⟩
  · have hij : a.offset ≠ b.offset := by
      intro e
      obtain ⟨t, i⟩ := a
      obtain ⟨u, j⟩ := b
      exact hne (by rw [show t = u from h, show i = j from e])
    rcases Nat.lt_or_gt_of_ne hij with hlt | hgt
    · exact Or.inl (by rw [Boundary.compare_same h, Nat.compare_eq_lt.mpr hlt])
    · exact Or.inr (by rw [Boundary.compare_same h.symm, Nat.compare_eq_lt.mpr hgt])
  · exact Or.inl (h a.offset)
  · exact Or.inr (wf.compare_swap ha.within hb.within (h a.offset))

/-- A boundary before the end of a character is not behind the start of the character. -/
theorem textOffset_le_of_after {x : Place} {k : Nat} (ha : a.InShown f r)
    (hx : (f.places r)[k]? = some x) (h : a.compare f x.after = .ok .lt) :
    f.textOffset r a ≤ k := by
  obtain ⟨hbefore, hafter⟩ := inShown_of_place wf hr hx
  refine Nat.le_of_not_lt fun hlt => ?_
  rw [← (wf.textOffset_place hr hx).1] at hlt
  have hxa := wf.compare_of_textOffset_lt hr hbefore.within ha.within hlt
  rcases wf.text_beside hr ha.within hbefore.within (isText_of_isShown hbefore.isShown) with
    e | ⟨-, hall⟩ | ⟨-, hall⟩
  · have e' : a.container = x.after.container := e.symm
    rw [Boundary.compare_same e, Except.ok.injEq, Nat.compare_eq_lt] at hxa
    rw [Boundary.compare_same e', Except.ok.injEq, Nat.compare_eq_lt] at h
    have hsucc : x.after.offset = x.before.offset + 1 := rfl
    omega
  · have hback := wf.compare_swap hafter.within ha.within (hall x.after.offset)
    rw [h, Except.ok.injEq] at hback
    cases hback
  · have hgt := hall x.before.offset
    rw [show (⟨x.before.container, x.before.offset⟩ : Boundary) = x.before from rfl, hxa,
      Except.ok.injEq] at hgt
    cases hgt

variable (htop : f.parent r = none)

include htop

/-- **The settled ends stay apart** where there is a visible character between the boundaries, and
where there is none to move to. -/
theorem settled_apart_iff (ha : a.InShown f r) (hb : b.InShown f r)
    (hab : a.compare f b = .ok .lt) :
    (settleStart f a).compare f (settleEnd f b) = .ok .lt ↔
      f.textOffset r a < f.textOffset r b ∨ f.places r = [] := by
  obtain ⟨ha', hoffset⟩ := settleStart_spec wf hr htop ha
  obtain ⟨hb', hoffset'⟩ := settleEnd_spec wf hr htop hb
  constructor
  · intro hlt
    have hle := wf.textOffset_mono hr ha.within hb.within hab (by decide)
    rcases Nat.lt_or_eq_of_le hle with hoffsets | hsame
    · exact Or.inl hoffsets
    · -- both are beside one character, which would have to lie between them
      refine Or.inr (Decidable.byContradiction fun hplaces => ?_)
      have hpos := List.length_pos_iff.mpr hplaces
      have hmax := textOffset_le r a (f := f)
      cases hx : (f.places r)[f.textOffset r a]? with
      | some x =>
        rw [settleStart_eq wf hr htop ha, hx] at hlt
        have hbehind := wf.lt_textOffset hr hb'.within hx hlt
        omega
      | none =>
        have hend := List.getElem?_eq_none_iff.mp hx
        have hnot : f.textOffset r b ≠ 0 := by omega
        obtain ⟨y, hy⟩ : ∃ y, (f.places r)[f.textOffset r b - 1]? = some y :=
          ⟨_, List.getElem?_eq_getElem (by omega)⟩
        rw [settleEnd_eq wf hr htop hb, if_neg hnot, hy] at hlt
        have hbefore := textOffset_le_of_after wf hr ha' hy hlt
        omega
  · rintro (hlt | hplaces)
    · rw [← hoffset, ← hoffset'] at hlt
      exact wf.compare_of_textOffset_lt hr ha'.within hb'.within hlt
    · have hzero : f.textOffset r b = 0 := by
        have hmax := textOffset_le r b (f := f)
        rw [hplaces] at hmax
        exact Nat.le_zero.mp hmax
      rw [settleStart_eq wf hr htop ha, settleEnd_eq wf hr htop hb, if_pos hzero, hplaces]
      exact hab

end Order

/-! ## The expression -/

section Numbers

variable (hd : d.Rooted f)

include hd

variable (ha : d.InText f (settleStart f a) p) (hb : d.InText f (settleEnd f b) q)

include ha hb

/-- Settled ends that have met or passed each other stand for the point of the start. -/
theorem betweenTexts_meet (h : (settleStart f a).compare f (settleEnd f b) ≠ .ok .lt) :
    betweenTexts f d o a b = betweenNumbers f d o p (countIn f p (settleStart f a)) p
      (countIn f p (settleStart f a)) := by
  have wf := hd.wellFormed
  rw [betweenNumbers, if_pos rfl, ← textStretch_eq hd ha ha]
  by_cases hsame : settleStart f a = settleEnd f b
  · simp only [betweenTexts, ← hsame, Boundary.compare_self, ha.elementAbove wf, bind, Except.bind]
    rw [if_pos (Or.inl trivial)]
  · have hback := (compare_of_ne wf hd.has_root ha.inShown_root hb.inShown_root hsame).resolve_left h
    have hgt : (settleStart f a).compare f (settleEnd f b) = .ok .gt :=
      wf.compare_swap hb.within ha.within hback
    simp only [betweenTexts, hgt, bind, Except.bind]

/-- Settled ends that stay apart stand for the stretch between them. -/
theorem betweenTexts_apart
    (h : (settleStart f a).compare f (settleEnd f b) = .ok .lt) :
    betweenTexts f d o a b = betweenNumbers f d o p (countIn f p (settleStart f a)) q
      (countIn f q (settleEnd f b)) := by
  have wf := hd.wellFormed
  simp only [betweenTexts, h, ha.elementAbove wf, hb.elementAbove wf, bind, Except.bind]
  unfold betweenNumbers
  by_cases hpq : p = q
  · subst hpq
    rw [if_pos (Or.inr rfl), if_pos rfl, textStretch_eq hd ha hb]
  · have hne : (settleStart f a).container ≠ (settleEnd f b).container := by
      intro e
      have hparent := ha.parent
      rw [e, hb.parent, Option.some.injEq] at hparent
      exact hpq hparent.symm
    rw [if_neg (not_or.mpr ⟨hne, hpq⟩), if_neg hpq, startPoint_eq hd ha, endPoint_eq hd hb]
    rfl

end Numbers

/-! ## There is one -/

section Named

variable (hd : d.Rooted f) (hsole : d.IsSole f) (hnamed : d.Named f)

include hd hsole hnamed

theorem exists_stringRange (hp : f.Within d.root p) (helement : f.isElement p = true)
    (hi : f.isIgnored p = false) :
    ∃ path, ∀ start length : Nat, stringRange f d o p start length
      = .ok ("string-range(" ++ path ++ ", \"\", " ++ toString start ++ ", " ++ toString length
        ++ ")") := by
  obtain ⟨path, hpath⟩ := exists_elementPath (o := o) hd hsole hnamed hp helement hi
  refine ⟨path, fun start length => ?_⟩
  simp only [stringRange, hpath, bind, Except.bind]

/-- Numbers in texts always have an expression. -/
theorem exists_betweenNumbers (ha : d.InText f a p) (hb : d.InText f b q) (n m : Nat) :
    ∃ text, betweenNumbers f d o p n q m = .ok text := by
  obtain ⟨path, hp⟩ := exists_stringRange (o := o) hd hsole hnamed (ha.within_parent hd)
    ha.isElement ha.not_isIgnored
  obtain ⟨path', hq⟩ := exists_stringRange (o := o) hd hsole hnamed (hb.within_parent hd)
    hb.isElement hb.not_isIgnored
  unfold betweenNumbers startNumber stopNumber
  by_cases hpq : p = q
  · rw [if_pos hpq]
    exact ⟨_, hp _ _⟩
  · rw [if_neg hpq]
    simp only [hp, hq, bind, Except.bind]
    by_cases hzero : m = 0
    · rw [if_pos hzero]
      exact ⟨_, rfl⟩
    · rw [if_neg hzero]
      exact ⟨_, rfl⟩

/-- **A stretch between two texts** has an expression. -/
theorem exists_betweenTexts (ha : d.InText f (settleStart f a) p)
    (hb : d.InText f (settleEnd f b) q) : ∃ text, betweenTexts f d o a b = .ok text := by
  by_cases hlt : (settleStart f a).compare f (settleEnd f b) = .ok .lt
  · rw [betweenTexts_apart hd ha hb hlt]
    exact exists_betweenNumbers hd hsole hnamed ha hb _ _
  · rw [betweenTexts_meet hd ha hb hlt]
    exact exists_betweenNumbers hd hsole hnamed ha ha _ _

end Named

end Address

end TreePointer
