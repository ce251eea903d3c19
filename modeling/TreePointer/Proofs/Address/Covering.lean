import TreePointer.Proofs.Address.Between
import TreePointer.Proofs.Address.Elsewhere

/-!
# What an expression covers

A number stands for one place of a text, however many places have that number: those between two
counted characters. What an expression stands for has the numbers it was made with, so its ends are
where those of the selection were, but for characters that are not counted, which are blanks.

* `point_spec`, `stretch_spec`, `last_spec`: what numbers stand for has these numbers.
* `upToBlanks_of_countIn`: boundaries of one number differ by blanks.
* `Covers`, `Shows`: an expression for a place, and an address of a range, told by offsets.
* `elementPath_covers`, `startPoint_covers`, `endPoint_covers`: the pieces of an address.
* `Covers.rangeTo`: from the start of one place to the end of another.
* `betweenTexts_shows`: the expression for a stretch between two texts.
-/

namespace TreePointer

/-- No node of the document has a mark. -/
def Document.IsUnmarked (f : Forest) (d : Document) : Prop :=
  ∀ n, f.Within d.root n → f.isMarked n = false

/-- The texts of the document are children of elements. -/
def Document.TextInElements (f : Forest) (d : Document) : Prop :=
  ∀ t p, f.Within d.root t → f.isText t = true → f.parent t = some p → f.isElement p = true

namespace Document.Rooted

variable {f : Forest} {d : Document} {b : Boundary} (hd : d.Rooted f)

include hd

theorem textInElements_of_check (h : ∀ t ∈ f.preorder d.root, f.isText t = true →
    (f.parent t).all f.isElement = true) : d.TextInElements f := by
  intro t p ht htext hp
  have hall := hd.forall_within h t ht htext
  rwa [hp, Option.all_some] at hall

/-- A text is not the root. -/
theorem exists_parent_of_isText {t : Node} (ht : f.Within d.root t) (h : f.isText t = true) :
    ∃ p, f.parent t = some p ∧ f.Within d.root p := by
  refine hd.wellFormed.exists_parent ht ?_
  rintro rfl
  have hk := hd.kind_root
  rw [Forest.kind_of_isText h] at hk
  cases hk

theorem isShown_of_isText (hu : d.IsUnmarked f) {t : Node} (ht : f.Within d.root t)
    (h : f.isText t = true) : f.isShown t = true := by
  obtain ⟨p, hp, hpr⟩ := hd.exists_parent_of_isText ht h
  rw [Forest.isShown, h, hp, Option.any_some, hu p hpr]
  rfl

/-- A boundary in a shown text is in the text of an unmarked element. -/
theorem inText_of_inShown (htext : d.TextInElements f) (h : b.InShown f d.root) :
    ∃ p, d.InText f b p := by
  have ht := Forest.isText_of_isShown h.isShown
  obtain ⟨p, hp, -⟩ := hd.exists_parent_of_isText h.within ht
  have hs := h.isShown
  rw [Forest.isShown, ht, hp, Option.any_some, Bool.true_and, Bool.not_eq_true'] at hs
  exact ⟨p, h.within, ht, hp, htext _ p h.within ht hp, hs, h.inBounds⟩

end Document.Rooted

theorem Document.InText.inShown {f : Forest} {d : Document} {b : Boundary} {p : Node}
    (h : d.InText f b p) (wf : f.WellFormed) : b.InShown f p :=
  ⟨Or.inr (h.mem_ancestors wf), h.isShown, h.inBounds⟩

theorem Boundary.InShown.mono {f : Forest} {b : Boundary} {r p : Node} (h : b.InShown f p)
    (wf : f.WellFormed) (hp : f.Within r p) : b.InShown f r :=
  ⟨wf.within_trans hp h.within, h.isShown, h.inBounds⟩

namespace Address

variable {f : Forest} {d : Document} {o o' : Options} {a b : Boundary} {p q : Node}

/-! ## What numbers stand for -/

section Numbers

variable (wf : f.WellFormed) (hp : f.Has p)

include wf hp

/-- The character with a number has a place, with the number around it. -/
theorem exists_place {n : Nat} (hn : n < (f.countedIndices p).length) :
    ∃ i x, (f.countedIndices p)[n]? = some i ∧ (f.places p)[i]? = some x ∧
      countIn f p x.before = n ∧ countIn f p x.after = n + 1 := by
  have hi := List.getElem?_eq_getElem hn
  have hlt := Counter.lt_of_mem_indices (List.mem_of_getElem? hi)
  rw [Forest.visibleChars, List.length_map] at hlt
  have hx := List.getElem?_eq_getElem hlt
  obtain ⟨hbefore, hafter⟩ := wf.textOffset_place hp hx
  refine ⟨_, _, hi, hx, ?_, ?_⟩
  · rw [countIn, hbefore]
    exact Counter.countTo_of_getElem? hi
  · rw [countIn, hafter, Counter.countTo_succ_of_mem (List.mem_of_getElem? hi)]
    exact congrArg (· + 1) (Counter.countTo_of_getElem? hi)

/-- The end of a text that shows something is in a text, behind all that is counted. -/
theorem endOfText_inShown (hb : b.InShown f p) :
    (f.endOfText p).InShown f p ∧ countIn f p (f.endOfText p) = (f.countedIndices p).length := by
  obtain ⟨hw, hbounds⟩ := wf.endOfText_spec hp
  refine ⟨⟨hw, ?_, hbounds⟩, ?_⟩
  · have hmem : b.container ∈ f.shownTexts p :=
      List.mem_filter.mpr ⟨(wf.mem_preorder_iff hp).mpr hb.within, hb.isShown⟩
    unfold Forest.endOfText Forest.lastShown?
    cases hlast : (f.shownTexts p).getLast? with
    | none =>
      rw [List.getLast?_eq_none_iff.mp hlast] at hmem
      cases hmem
    | some t => exact (List.mem_filter.mp (List.mem_of_getLast? hlast)).2
  · have hlen : (f.places p).length = (f.visibleChars p).length := by
      rw [Forest.visibleChars, List.length_map]
    rw [countIn, wf.textOffset_endOfText hp, hlen, Counter.countTo_length]
    rfl

/-- A length of zero stands for a point with the same number before it. -/
theorem point_spec (hb : b.InShown f p) {n : Nat} (hn : n ≤ (f.countedIndices p).length) :
    ∃ e, f.stringRange p (n + 1 : Nat) (0 : Nat) = .ok (some (.point e)) ∧ e.InShown f p ∧
      countIn f p e = n := by
  rcases Nat.lt_or_ge n (f.countedIndices p).length with hlt | hge
  · obtain ⟨i, x, hi, hx, hcount, -⟩ := exists_place wf hp hlt
    exact ⟨x.before, Forest.stringRange_point (Nat.le_add_left 1 n) hi hx,
      (inShown_of_place wf hp hx).1, hcount⟩
  · obtain ⟨hshown, hcount⟩ := endOfText_inShown wf hp hb
    exact ⟨f.endOfText p, Forest.stringRange_end (Nat.le_add_left 1 n) (by omega), hshown,
      by omega⟩

/-- A start and a length stand for a range with the same numbers before its ends. -/
theorem stretch_spec {n m : Nat} (hnm : n < m) (hm : m ≤ (f.countedIndices p).length) :
    ∃ r, f.stringRange p (n + 1 : Nat) (m - n : Nat) = .ok (some r) ∧ r.start.InShown f p ∧
      countIn f p r.start = n ∧ r.stop.InShown f p ∧ countIn f p r.stop = m := by
  obtain ⟨i, x, hi, hx, hcount, -⟩ := exists_place (n := n) wf hp (by omega)
  obtain ⟨j, y, hj, hy, -, hcount'⟩ := exists_place (n := m - 1) wf hp (by omega)
  have hlast : n + 1 + (m - n) - 2 = m - 1 := by omega
  refine ⟨⟨x.before, y.after⟩, ?_, (inShown_of_place wf hp hx).1, hcount,
    (inShown_of_place wf hp hy).2, by rw [hcount']; omega⟩
  exact Forest.stringRange_found wf hp (Nat.le_add_left 1 n) (by omega) hi
    (by rw [hlast]; exact hj) hx hy

/-- The number of an end stands for a point with the same number before it. -/
theorem last_spec (hb : b.InShown f p) {m : Nat} (hm : m ≤ (f.countedIndices p).length) :
    ∃ r, (if m = 0 then f.stringRange p (1 : Nat) (0 : Nat) else f.stringRange p m (1 : Nat))
        = .ok (some r) ∧ r.start.InShown f p ∧ r.stop.InShown f p ∧ countIn f p r.stop = m := by
  by_cases hzero : m = 0
  · subst hzero
    obtain ⟨e, hrange, hshown, hcount⟩ := point_spec wf hp hb (Nat.zero_le _)
    exact ⟨.point e, by rw [if_pos rfl]; exact hrange, hshown, hshown, hcount⟩
  · obtain ⟨r, hrange, hstart, -, hstop, hcount⟩ :=
      stretch_spec (n := m - 1) wf hp (by omega) hm
    have hfirst : m - 1 + 1 = m := by omega
    have hlength : m - (m - 1) = 1 := by omega
    rw [hfirst, hlength] at hrange
    exact ⟨r, by rw [if_neg hzero]; exact hrange, hstart, hstop, hcount⟩

/-- **Boundaries with one number** in the text of a node differ by blanks, also in a text around
it. -/
theorem upToBlanks_of_countIn {r : Node} (hr : f.Has r) (hpr : f.Within r p)
    (ha : f.Within p a.container) (hb : f.Within p b.container)
    (h : countIn f p a = countIn f p b) :
    UpToBlanks (f.visibleChars r) (f.textOffset r a) (f.textOffset r b) := by
  obtain ⟨before, after, e⟩ := wf.preorder_infix hr hpr
  have hoffset : ∀ {c : Boundary}, f.Within p c.container →
      f.textOffset r c = ((f.placesIn before).map Place.char).length + f.textOffset p c := by
    intro c hc
    rw [Forest.textOffset, wf.placesBefore_within hr e hp hc, List.length_append, List.length_map,
      Forest.textOffset]
  have hle : ∀ c : Boundary, f.textOffset p c ≤ (f.visibleChars p).length := by
    intro c
    rw [Forest.visibleChars, List.length_map]
    exact Forest.textOffset_le p c
  rw [Forest.visibleChars_of_infix e, hoffset ha, hoffset hb]
  exact (UpToBlanks.of_countTo h).of_part (hle a) (hle b)

end Numbers

/-! ## Expressions and addresses -/

open Expression

/-- The address of an element, if it has one, is an expression for that element. -/
def Findable (f : Forest) (d : Document) (o : Options) : Prop :=
  ∀ e path, IsElementOf f d e → elementPath f d o e = .ok path → Finds f d path.toList [.node e]

/-- Names that can be read are enough for that. -/
theorem findable (hd : d.Rooted f) (hlex : d.Lexable f) (hstar : d.NoWildcard f) :
    Findable f d o := by
  intro e path he hpath
  obtain ⟨r, hchars, hlegible, hnode⟩ := elementPath_route hd hlex he.1 he.2 hpath
  have hfinds := Route.finds hlegible f d
  rw [hnode hstar] at hfinds
  rwa [hchars]

/-- The text is an expression for a place with so many visible characters before its ends, but for
blanks; the ends have a property besides. -/
def Covers (Q : Boundary → Prop) (f : Forest) (d : Document) (text : String) (k m : Nat) : Prop :=
  ∃ entry r k' m', Finds f d text.toList [entry] ∧ entry.toRange f = .ok r ∧
    r.At f d.root k' m' ∧ Q r.start ∧ Q r.stop ∧
    UpToBlanks (f.visibleChars d.root) k' k ∧ UpToBlanks (f.visibleChars d.root) m' m

/-- The text is the address of a range with the same content as the stretch between two offsets. -/
def Shows (Q : Boundary → Prop) (f : Forest) (d : Document) (body : String) (k m : Nat) : Prop :=
  ∃ r k' m', (∀ o o', resolve f d o' (wrapped o body) = .ok r) ∧ r.At f d.root k' m' ∧
    Q r.start ∧ Q r.stop ∧ SameContent (f.visibleChars d.root) k' m' k m

section Covers

variable {Q Q' : Boundary → Prop} {text target body : String} {k k' m m' : Nat}

theorem Covers.mono (h : Covers Q f d text k m) (hQ : ∀ b, Q b → Q' b) :
    Covers Q' f d text k m := by
  obtain ⟨entry, r, k', m', hfinds, hr, hat, hstart, hstop, hk, hm⟩ := h
  exact ⟨entry, r, k', m', hfinds, hr, hat, hQ _ hstart, hQ _ hstop, hk, hm⟩

theorem Shows.mono (h : Shows Q f d body k m) (hQ : ∀ b, Q b → Q' b) : Shows Q' f d body k m := by
  obtain ⟨r, k', m', hresolve, hat, hstart, hstop, hsame⟩ := h
  exact ⟨r, k', m', hresolve, hat, hQ _ hstart, hQ _ hstop, hsame⟩

/-- What covers a place covers any other one beside it. -/
theorem Covers.trans (h : Covers Q f d text k m) (hk : UpToBlanks (f.visibleChars d.root) k k')
    (hm : UpToBlanks (f.visibleChars d.root) m m') : Covers Q f d text k' m' := by
  obtain ⟨entry, r, i, j, hfinds, hr, hat, hstart, hstop, hi, hj⟩ := h
  exact ⟨entry, r, i, j, hfinds, hr, hat, hstart, hstop, hi.trans hk, hj.trans hm⟩

/-- What shows a stretch shows any other one with its content. -/
theorem Shows.trans (h : Shows Q f d body k m)
    (hsame : SameContent (f.visibleChars d.root) k m k' m') : Shows Q f d body k' m' := by
  obtain ⟨r, i, j, hresolve, hat, hstart, hstop, h⟩ := h
  exact ⟨r, i, j, hresolve, hat, hstart, hstop, h.trans hsame⟩

/-- An expression for a place is an address of it. -/
theorem Covers.shows (h : Covers Q f d text k m) : Shows Q f d text k m := by
  obtain ⟨entry, r, k', m', hfinds, hr, hat, hstart, hstop, hk, hm⟩ := h
  exact ⟨r, k', m', fun o o' => hfinds.resolve hr, hat, hstart, hstop, .of_upToBlanks hk hm⟩

/-- One end of a place. -/
theorem Covers.point (h : Covers Q f d text k m) (toStart : Bool) :
    Covers Q f d (pointName toStart ++ "(" ++ text ++ ")") (if toStart then k else m)
      (if toStart then k else m) := by
  obtain ⟨entry, r, k', m', hfinds, hr, hat, hstart, hstop, hk, hm⟩ := h
  have hpoint := hfinds.pointOf hr toStart
  rw [← toList_point] at hpoint
  cases toStart
  · exact ⟨_, _, m', m', hpoint, rfl, hat.collapse false, hstop, hstop, hm, hm⟩
  · exact ⟨_, _, k', k', hpoint, rfl, hat.collapse true, hstart, hstart, hk, hk⟩

/-- **From one place to another** is from the start of the one to the end of the other. -/
theorem Covers.rangeTo (hd : d.Rooted f) (h : Covers Q f d text k m)
    (h' : Covers Q f d target k' m') :
    Shows Q f d (text ++ "/range-to(" ++ target ++ ")") k m' := by
  have wf := hd.wellFormed
  obtain ⟨entry, r, i, i', hfinds, hr, hat, hstart, -, hk, -⟩ := h
  obtain ⟨entry', r', j', j, hfinds', hr', hat', -, hstop, -, hm⟩ := h'
  obtain ⟨t, hreads⟩ := hfinds'.reads
  have hresolve : ∀ {found : Range}, Range.make f r.start r'.stop = .ok found →
      ∀ o o', resolve f d o' (wrapped o (text ++ "/range-to(" ++ target ++ ")")) = .ok found :=
    fun hmake _ _ => hfinds.resolve_rangeTo hr (hreads [entry]) hr' hmake
  obtain ⟨order, horder⟩ := wf.exists_compare hat.start.within hat'.stop.within
  by_cases hgt : order = .gt
  · -- the ends passed each other, and the range is the point of the start
    subst hgt
    have hle := wf.textOffset_mono hd.has_root hat'.stop.within hat.start.within
      (wf.compare_swap hat.start.within hat'.stop.within horder) (by decide)
    rw [hat.start.offset_eq, hat'.stop.offset_eq] at hle
    refine ⟨.point r.start, i, i,
      hresolve (Range.make_of_gt hat.start.inBounds hat'.stop.inBounds horder),
      ⟨hat.start, hat.start⟩, hstart, hstart, ?_⟩
    exact (SameContent.of_le (Nat.le_refl i) hle).trans (.of_upToBlanks hk hm)
  · exact ⟨⟨r.start, r'.stop⟩, i, j,
      hresolve (Range.make_of_le hat.start.inBounds hat'.stop.inBounds horder hgt),
      ⟨hat.start, hat'.stop⟩, hstart, hstop, .of_upToBlanks hk hm⟩

end Covers

/-! ## What the pieces cover -/

/-- The boundary is in a shown text of the document. -/
abbrev InShownText (f : Forest) (d : Document) (b : Boundary) : Prop := b.InShown f d.root

section Pieces

variable (hd : d.Rooted f) (hfind : Findable f d o)

include hd hfind

/-- An element covers its text. -/
theorem elementPath_covers {e : Node} (he : IsElementOf f d e) :
    Yields (fun text => Covers (fun _ => True) f d text (f.textOffset d.root ⟨e, 0⟩)
      (f.textOffset d.root ⟨e, 0⟩ + (f.places e).length)) (elementPath f d o e) := by
  refine .of_forall fun path hpath => ?_
  obtain ⟨r, hr, hat⟩ :=
    hd.wellFormed.around_at hd.has_root he.1 (hd.ne_root_of_isElement he.2)
  rw [Forest.visibleChars, List.length_map] at hat
  exact ⟨.node e, r, _, _, hfind e path he hpath, hr, hat, trivial, trivial, .refl _ _, .refl _ _⟩

/-- A stretch of the text of an element covers what its numbers stand for. -/
theorem stringRange_covers (hp : IsElementOf f d p) {s l : Nat} {r : Range}
    (hs : s < Binary64.exactBound) (hl : l < Binary64.exactBound)
    (hr : f.stringRange p s l = .ok (some r)) (hstart : r.start.InShown f p)
    (hstop : r.stop.InShown f p) :
    Yields (fun text => Covers (InShownText f d) f d text (f.textOffset d.root r.start)
      (f.textOffset d.root r.stop)) (stringRange f d o p s l) := by
  have wf := hd.wellFormed
  refine Gives.bind (Yields.of_forall fun path h => h) fun path hpath => ?_
  have hranges : stringRanges f s l [.node p] = .ok [.range r] := by
    simp [stringRanges, hr, bind, Except.bind]
  have hfinds := (hfind p path hp hpath).stretch hs hl hranges
  rw [← toList_stringRange] at hfinds
  have hstart' := hstart.mono wf hp.1
  have hstop' := hstop.mono wf hp.1
  exact .ok ⟨.range r, r, _, _, hfinds, rfl, ⟨⟨hstart'.within, hstart'.inBounds, rfl⟩,
    ⟨hstop'.within, hstop'.inBounds, rfl⟩⟩, hstart', hstop', .refl _ _, .refl _ _⟩

variable (hchars : ∀ n, IsElementOf f d n → f.isIgnored n = false →
  (f.visibleChars n).length + 1 < Binary64.exactBound)

include hchars

omit hfind in
theorem countIn_succ_lt (hb : d.InText f b p) : countIn f p b + 1 < Binary64.exactBound := by
  have hle := Counter.countTo_le (f.visibleChars p) (f.textOffset p b)
  have hlen := Counter.length_indices_le .start (f.visibleChars p)
  have hlt := hchars p ⟨hb.within_parent hd, hb.isElement⟩ hb.not_isIgnored
  rw [countIn]
  omega

/-- The start of a stretch covers its place. -/
theorem startPoint_covers (ha : d.InText f a p) :
    Yields (fun text => Covers (InShownText f d) f d text (f.textOffset d.root a)
      (f.textOffset d.root a)) (startPoint f d o a) := by
  have wf := hd.wellFormed
  have hpr := ha.within_parent hd
  have hp := wf.has_of_within hd.has_root hpr
  obtain ⟨e, hrange, hshown, hcount⟩ := point_spec wf hp (ha.inShown wf)
    (Counter.countTo_le (f.visibleChars p) (f.textOffset p a))
  have hsame := upToBlanks_of_countIn wf hp hd.has_root hpr hshown.within (ha.inShown wf).within
    hcount
  rw [startPoint_eq hd ha]
  refine (stringRange_covers hd hfind ⟨hpr, ha.isElement⟩ (countIn_succ_lt hd hchars ha)
    (by decide) hrange hshown hshown).bind fun text htext => .ok ?_
  exact (htext.point true).trans hsame hsame

/-- The end of a stretch covers its place. -/
theorem endPoint_covers (hb : d.InText f b q) :
    Yields (fun text => Covers (InShownText f d) f d text (f.textOffset d.root b)
      (f.textOffset d.root b)) (endPoint f d o b) := by
  have wf := hd.wellFormed
  have hqr := hb.within_parent hd
  have hq := wf.has_of_within hd.has_root hqr
  have hlt := countIn_succ_lt hd hchars hb
  obtain ⟨r, hrange, hstart, hstop, hcount⟩ := last_spec wf hq (hb.inShown wf)
    (Counter.countTo_le (f.visibleChars q) (f.textOffset q b))
  have hsame := upToBlanks_of_countIn wf hq hd.has_root hqr hstop.within (hb.inShown wf).within
    hcount
  have hcovers : ∀ {s l : Nat}, s < Binary64.exactBound → l < Binary64.exactBound →
      f.stringRange q s l = .ok (some r) → Yields (fun text => Covers (InShownText f d) f d text
        (f.textOffset d.root b) (f.textOffset d.root b))
        (stringRange f d o q s l >>= fun text => .ok ("end-point(" ++ text ++ ")")) :=
    fun hs hl hr => (stringRange_covers hd hfind ⟨hqr, hb.isElement⟩ hs hl hr hstart hstop).bind
      fun text htext => .ok ((htext.point false).trans hsame hsame)
  rw [← countIn] at hrange
  rw [endPoint_eq hd hb, stopNumber]
  by_cases hzero : countIn f q b = 0
  · rw [if_pos hzero] at hrange ⊢
    exact hcovers (by decide) (by decide) hrange
  · rw [if_neg hzero] at hrange ⊢
    exact hcovers (Nat.lt_of_succ_lt hlt) (by decide) hrange

/-! ## What an expression between texts shows -/

/-- A stretch of the text of one element shows what lies between its ends. -/
theorem textStretch_shows (ha : d.InText f a p) (hb : d.InText f b p)
    (hle : countIn f p a ≤ countIn f p b) :
    Yields (fun text => Shows (InShownText f d) f d text (f.textOffset d.root a)
      (f.textOffset d.root b)) (textStretch f d o a b) := by
  have wf := hd.wellFormed
  have hpr := ha.within_parent hd
  have hp := wf.has_of_within hd.has_root hpr
  have hmax : countIn f p b ≤ (f.countedIndices p).length := Counter.countTo_le _ _
  have hlt := countIn_succ_lt hd hchars ha
  have hlt' := countIn_succ_lt hd hchars hb
  -- one range with the numbers of the ends, whether they differ or not
  obtain ⟨r, hrange, hstart, hcount, hstop, hcount'⟩ :
      ∃ r, f.stringRange p (countIn f p a + 1 : Nat) (countIn f p b - countIn f p a : Nat)
          = .ok (some r) ∧ r.start.InShown f p ∧ countIn f p r.start = countIn f p a ∧
        r.stop.InShown f p ∧ countIn f p r.stop = countIn f p b := by
    rcases Nat.lt_or_ge (countIn f p a) (countIn f p b) with hlt | hge
    · exact stretch_spec wf hp hlt hmax
    · have e : countIn f p b = countIn f p a := Nat.le_antisymm hge hle
      obtain ⟨c, hrange, hshown, hcount⟩ := point_spec wf hp (ha.inShown wf) (e ▸ hmax)
      refine ⟨.point c, ?_, hshown, hcount, hshown, hcount.trans e.symm⟩
      rw [e, Nat.sub_self]
      exact hrange
  rw [textStretch_eq hd ha hb]
  refine (stringRange_covers hd hfind ⟨hpr, ha.isElement⟩ hlt (by omega) hrange hstart
    hstop).imp fun text htext => (htext.trans ?_ ?_).shows
  · exact upToBlanks_of_countIn wf hp hd.has_root hpr hstart.within (ha.inShown wf).within hcount
  · exact upToBlanks_of_countIn wf hp hd.has_root hpr hstop.within (hb.inShown wf).within hcount'

/-- **The expression for a stretch between two texts** shows what lies between them. -/
theorem betweenTexts_shows (htext : d.TextInElements f) (ha : a.InShown f d.root)
    (hb : b.InShown f d.root) :
    Yields (fun text => Shows (InShownText f d) f d text (f.textOffset d.root a)
      (f.textOffset d.root b)) (betweenTexts f d o a b) := by
  have wf := hd.wellFormed
  obtain ⟨ha', hoffset⟩ := settleStart_spec wf hd.has_root hd.parent_root ha
  obtain ⟨hb', hoffset'⟩ := settleEnd_spec wf hd.has_root hd.parent_root hb
  rw [← hoffset, ← hoffset']
  generalize hstart : settleStart f a = a' at ha'
  generalize hstop : settleEnd f b = b' at hb'
  obtain ⟨p, hap⟩ := hd.inText_of_inShown htext ha'
  obtain ⟨q, hbq⟩ := hd.inText_of_inShown htext hb'
  obtain ⟨order, horder⟩ := wf.exists_compare ha'.within hb'.within
  simp only [betweenTexts, hstart, hstop, horder, hap.elementAbove wf, hbq.elementAbove wf, bind,
    Except.bind]
  by_cases hgt : order = .gt
  · -- nothing lies between ends that passed each other
    subst hgt
    have hback := wf.textOffset_mono hd.has_root hb'.within ha'.within
      (wf.compare_swap ha'.within hb'.within horder) (by decide)
    exact (textStretch_shows hd hfind hchars hap hap (Nat.le_refl _)).imp
      fun text h => h.trans (.of_le (Nat.le_refl _) hback)
  · split
    · exact absurd rfl hgt
    · by_cases hpq : p = q
      · subst hpq
        rw [if_pos (Or.inr rfl)]
        exact textStretch_shows hd hfind hchars hap hbq (Counter.countTo_mono _
          (wf.textOffset_mono (wf.has_of_within hd.has_root (hap.within_parent hd))
            (hap.inShown wf).within (hbq.inShown wf).within horder hgt))
      · have hne : a'.container ≠ b'.container := by
          intro e
          have hparent := hap.parent
          rw [e, hbq.parent, Option.some.injEq] at hparent
          exact hpq hparent.symm
        rw [if_neg (not_or.mpr ⟨hne, hpq⟩)]
        exact (startPoint_covers hd hfind hchars hap).bind fun first hfirst =>
          (endPoint_covers hd hfind hchars hbq).bind fun last hlast =>
            .ok (hfirst.rangeTo hd hlast)

end Pieces

end Address

end TreePointer
