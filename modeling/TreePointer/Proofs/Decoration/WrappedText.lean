import TreePointer.Proofs.Address.Phrase
import TreePointer.Proofs.Address.TextPreserved
import TreePointer.Proofs.Decoration.Quiet

/-!
# A text in a wrapper of its own

The text of a marked element does not count. A wrapper around an element leaves that element its
text, but a text that is wrapped itself becomes the text of the wrapper, and no longer counts for
the element above. An address of a stretch of this text still leads to the element, and numbers the
characters there as if the text were gone.

* `Enclosed`: a text and the wrapper that took its place.
* `Enclosed.sameWays`: routes lead to the same elements as before.
* `Enclosed.places_eq`: the visible characters are those before and behind the text.
* `resolve_wrapped_text`: the address of a stretch stands for a later one then, or for none.
* `not_resolve_wrapped_text`: the selected text does not come back.
-/

namespace TreePointer

namespace Forest

variable {f g : Forest} {r p t x n : Node} {left right before after : List Node}

/-- The text `t`, between `left` and `right` among the children of `p`, was wrapped in the marked
element `x`. -/
structure Enclosed (f g : Forest) (p t x : Node) (left right : List Node) : Prop where
  isText : f.isText t = true
  replaced : Replaced f g p left [t] [x] right
  has_iff : ∀ m, g.Has m ↔ f.Has m ∨ m = x
  not_has : ¬ f.Has x
  marked : ∃ tag, g.content x = markedRecord tag
  children_eq : g.children x = [t]
  content_eq : ∀ m, f.Has m → g.content m = f.content m

/-- **Wrapping a text** encloses it. -/
theorem wrap_text (wf : f.WellFormed) (ht : f.isText t = true) (hp : f.parent t = some p)
    (tag : String) : ∃ g left right, f.wrap t tag = (.ok f.fresh, g) ∧
      Enclosed f g p t f.fresh left right := by
  obtain ⟨left, right, hsplit⟩ := List.append_of_mem (wf.mem_of_parent hp)
  obtain ⟨g, hwrap, hr, hhas, hmarked, hchild, hcontent⟩ := wrap_eq wf hsplit tag
  refine ⟨g, left, right, hwrap, ht, hr, hhas, f.not_has_fresh, ⟨tag, hmarked⟩, hchild,
    fun m hm => ?_⟩
  by_cases hmt : m = t
  · rw [hmt, hcontent]
  · exact hr.content_eq m hm fun e => hmt (List.mem_singleton.mp e)

namespace Enclosed

variable (h : Enclosed f g p t x left right)

include h

theorem parent_eq (hn : f.Has n) (hne : n ≠ t) : g.parent n = f.parent n :=
  h.replaced.parent_eq n hn fun e => hne (List.mem_singleton.mp e)

theorem isText_new : g.isText t = true :=
  (isText_congr (h.content_eq t (has_of_isText h.isText))).trans h.isText

theorem isElement_wrapper : g.isElement x = true :=
  have ⟨_, hmarked⟩ := h.marked
  isElement_of_marked hmarked

theorem isIgnored_wrapper : g.isIgnored x = true :=
  have ⟨_, hmarked⟩ := h.marked
  isIgnored_of_marked hmarked

theorem has_wrapper : g.Has x := (h.has_iff x).mpr (Or.inr rfl)

/-- The text is one of a marked element. -/
theorem not_isShown : g.isShown t = false := by
  obtain ⟨tag, hmarked⟩ := h.marked
  have hmem : t ∈ g.children x := h.children_eq ▸ List.mem_singleton_self t
  rw [isShown_of_parent (h.replaced.wellFormed.parent_of_mem hmem), isMarked_of_marked hmarked,
    Bool.not_true, Bool.and_false]

variable (wf : f.WellFormed)

include wf

/-- The other texts are shown as before. -/
theorem isShown_eq (hn : f.Has n) (hne : n ≠ t) : g.isShown n = f.isShown n := by
  rw [isShown, isShown, isText_congr (h.content_eq n hn), h.parent_eq hn hne]
  cases hq : f.parent n with
  | none => rfl
  | some q =>
    rw [Option.any_some, Option.any_some, isMarked_congr (h.content_eq q (wf.has_parent n q hq))]

/-- The elements among the spliced children stay. -/
theorem elements_eq (hn : f.Has n) :
    (g.spliced n).filter g.isElement = (f.spliced n).filter f.isElement := by
  have wf' := h.replaced.wellFormed
  refine h.replaced.elements_eq wf (List.forall_mem_nil _) (fun m hm _ => h.content_eq m hm)
    (fun _ => ?_) hn
  -- there is none at the text, inside the wrapper or not
  rw [List.flatMap_singleton, List.flatMap_singleton, elementsAt_of_isText h.isText,
    elementsAt_of_isIgnored wf' h.has_wrapper h.isIgnored_wrapper, h.children_eq,
    List.flatMap_singleton, elementsAt_of_isText h.isText_new]

/-- The nodes there were stay in order. -/
theorem order_eq (hn : f.Has n) : (g.preorder n).filter (fun m => f.Has m) = f.preorder n := by
  have wf' := h.replaced.wellFormed
  have hhead : ∀ {m : Node} {ns : List Node}, f.Has m →
      (m :: ns).filter (fun m => f.Has m) = [m] ++ ns.filter fun m => f.Has m := fun hm => by
    rw [List.filter_cons_of_pos (by simpa using hm), List.singleton_append]
  refine (h.replaced.flatMap_eq wf (List.forall_mem_nil _) (F := f.preorder)
    (G := fun n => (g.preorder n).filter fun m => f.Has m) (fun n below => [n] ++ below)
    (fun m hm _ => wf.preorder_eq hm) (fun m hm _ => ?_) (fun hsame => ?_) n hn).2 nofun
  · rw [wf'.preorder_eq (h.replaced.has m hm), hhead hm, List.filter_flatMap]
  · rw [List.flatMap_singleton, List.flatMap_singleton, wf'.preorder_eq h.has_wrapper,
      List.filter_cons_of_neg (by simpa using h.not_has), h.children_eq, List.flatMap_singleton]
    exact hsame t (List.mem_singleton_self t) nofun

/-- Nothing else than before is shown, and the text no longer. -/
theorem shownTexts_eq (hn : f.Has n) :
    g.shownTexts n = (f.shownTexts n).filter (· != t) := by
  have hshown : ∀ m, g.isShown m = (f.isShown m && m != t && decide (f.Has m)) := by
    intro m
    by_cases hm : f.Has m
    · by_cases hmt : m = t
      · subst hmt
        simp [h.not_isShown]
      · simp [h.isShown_eq wf hm hmt, hmt, hm]
    · have hnone : g.isShown m = false := by
        rw [Bool.eq_false_iff]
        intro hs
        have ht := isText_of_isShown hs
        obtain hold | rfl := (h.has_iff m).mp (has_of_isText ht)
        · exact hm hold
        · rw [not_isText_of_isElement h.isElement_wrapper] at ht
          cases ht
      simp [hnone, hm]
  rw [shownTexts, shownTexts, ← h.order_eq wf hn, List.filter_filter, List.filter_filter]
  refine List.filter_congr fun m _ => ?_
  rw [hshown m]
  cases f.isShown m <;> cases m != t <;> rfl

/-- **The visible characters** are those before and those behind the text. -/
theorem places_eq (hn : f.Has n) (hsplit : f.preorder n = before ++ t :: after) :
    g.places n = f.placesIn before ++ f.placesIn after := by
  obtain ⟨hbefore, hafter⟩ := not_mem_beside_of_nodup (hsplit ▸ wf.nodup_preorder hn)
  have hkeep : ∀ ns : List Node, t ∉ ns →
      (ns.filter f.isShown).filter (· != t) = ns.filter f.isShown := fun ns hns =>
    filter_bne_of_not_mem fun hm => hns (List.mem_filter.mp hm).1
  have hself : ([t].filter f.isShown).filter (· != t) = [] := by
    refine List.filter_eq_nil_iff.mpr fun m hm => ?_
    simp [List.mem_singleton.mp (List.mem_filter.mp hm).1]
  have htexts : g.shownTexts n = before.filter f.isShown ++ after.filter f.isShown := by
    rw [h.shownTexts_eq wf hn, shownTexts, hsplit, ← List.singleton_append, List.filter_append,
      List.filter_append, List.filter_append, List.filter_append, hkeep before hbefore,
      hkeep after hafter, hself, List.nil_append]
  have hchars : ∀ m, f.Has m → g.placesOf m = f.placesOf m := fun m hm => by
    rw [placesOf, placesOf, characters_congr (h.content_eq m hm)]
  have hflat : ∀ ns : List Node,
      (ns.filter f.isShown).flatMap g.placesOf = (ns.filter f.isShown).flatMap f.placesOf :=
    fun ns => flatMap_congr_mem fun m hm =>
      hchars m (has_of_isText (isText_of_isShown (List.mem_filter.mp hm).2))
  rw [places, htexts, List.flatMap_append, hflat, hflat, placesIn, placesIn]

/-- What comes behind the text does so still. -/
theorem compare_after (hn : f.Has n) (hsplit : f.preorder n = before ++ t :: after) {i : Nat}
    {b : Boundary} (hb : b.container ∈ after) : Boundary.compare g ⟨t, i⟩ b = .ok .lt := by
  have wf' := h.replaced.wellFormed
  have hpair := (wf'.pairwise_preorder (h.replaced.has n hn)).filter fun m => f.Has m
  rw [h.order_eq wf hn, hsplit, List.pairwise_append, List.pairwise_cons] at hpair
  refine wf'.compare_of_earlier (hpair.2.1.1 _ hb) fun habove => ?_
  -- a text has nothing below it
  obtain ⟨c, hc, -⟩ := wf'.exists_child_within habove
  rw [children_of_isText wf' h.isText_new] at hc
  cases hc

end Enclosed

end Forest

namespace Forest.Enclosed

variable {f g : Forest} {d : Document} {p t x : Node} {left right : List Node}
  (h : Enclosed f g p t x left right) (hd : d.Rooted f)

include h hd

/-- The wrapper has no id. -/
theorem elementById?_eq (id : String) : d.elementById? g id = d.elementById? f id := by
  refine Document.elementById?_congr (h.order_eq hd.wellFormed hd.has_root)
    (fun n hn => isElement_congr (h.content_eq n hn))
    (fun n hn => h.content_eq n (has_of_isElement hn)) (fun n hnot helement => ?_) id
  obtain hold | rfl := (h.has_iff n).mp (has_of_isElement helement)
  · exact absurd hold hnot
  · obtain ⟨tag, hmarked⟩ := h.marked
    exact attribute?_of_marked hmarked

/-- **Routes** lead to the same elements. -/
theorem sameWays : d.SameWays f g := by
  have hhas : ∀ n, d.Reaches f n → f.Has n := fun n hn =>
    hd.wellFormed.has_of_within hd.has_root hn.1
  exact ⟨fun n hn => isElement_congr (h.content_eq n (hhas n hn)),
    fun n hn => Document.tagOf?_congr (h.content_eq n (hhas n hn)),
    fun n hn => h.elements_eq hd.wellFormed (hhas n hn), h.elementById?_eq hd⟩

end Forest.Enclosed

namespace Address

open Forest Expression

variable {f g : Forest} {d : Document} {o : Options} {n p t x : Node} {i j : Nat}
  {left right before after : List Node}

/-! ## Numbers behind the text -/

/-- In what remains, the numbers of the text are those of characters behind it. -/
theorem placesIn_le_of_number (h : Enclosed f g p t x left right) (wf : f.WellFormed) (hn : f.Has n)
    (hsplit : f.preorder n = before ++ t :: after) (hs : f.isShown t = true)
    (hi : i ≤ (f.characters t).length) {a k : Nat} (ha : countIn f n ⟨t, i⟩ ≤ a)
    (hk : (g.countedIndices n)[a]? = some k) : (f.placesIn before).length ≤ k := by
  have hnew : g.visibleChars n
      = (f.placesIn before).map Place.char ++ (f.placesIn after).map Place.char := by
    rw [visibleChars, h.places_eq wf hn hsplit, List.map_append]
  have hold : f.visibleChars n = (f.placesIn before).map Place.char
      ++ ((f.placesIn [t]).map Place.char ++ (f.placesIn after).map Place.char) := by
    rw [visibleChars, Forest.places_eq, hsplit, ← List.singleton_append, placesIn_append,
      placesIn_append, List.map_append, List.map_append]
  have hoffset := wf.textOffset_of_preorder hn hsplit hs hi
  -- up to the text the characters are the same
  have hcount : ∀ cs : List Char,
      Counter.countTo ((f.placesIn before).map Place.char ++ cs) (f.placesIn before).length
        = (Counter.start.run ((f.placesIn before).map Place.char)).count := by
    intro cs
    rw [Counter.countTo, List.take_left' (List.length_map _)]
  refine Nat.le_of_not_lt fun hlt => ?_
  rw [countedIndices, hnew] at hk
  have hlt' := (Counter.lt_iff_lt_countTo hk).mp hlt
  rw [hcount, ← hcount, ← hold] at hlt'
  have hmono := Counter.countTo_mono (f.visibleChars n)
    (Nat.le_add_right (f.placesIn before).length i)
  rw [countIn, hoffset] at ha
  exact absurd (Nat.lt_of_lt_of_le hlt' (Nat.le_trans hmono ha)) (Nat.lt_irrefl a)

/-- The stretch with the numbers of one in the text lies behind the text, if what remains has so
many characters. -/
theorem stringRange_behind (h : Enclosed f g p t x left right) (wf : f.WellFormed) (hn : f.Has n)
    (ht : f.Within n t) (hs : f.isShown t = true) (hi : i ≤ (f.characters t).length) {m : Nat}
    (hlt : countIn f n ⟨t, i⟩ < m) (hm : m ≤ (g.countedIndices n).length) :
    ∃ r, g.stringRange n (countIn f n ⟨t, i⟩ + 1 : Nat) (m - countIn f n ⟨t, i⟩ : Nat)
        = .ok (some r) ∧ Boundary.compare g ⟨t, g.length t⟩ r.start = .ok .lt ∧
      countIn g n r.start = countIn f n ⟨t, i⟩ ∧ countIn g n r.stop = m := by
  have wf' := h.replaced.wellFormed
  have hn' := h.replaced.has n hn
  obtain ⟨before, after, hsplit⟩ := List.append_of_mem ((wf.mem_preorder_iff hn).mpr ht)
  obtain ⟨k, u, hk, hu, hcount, -⟩ := exists_place wf' hn' (Nat.lt_of_lt_of_le hlt hm)
  obtain ⟨k', v, hk', hv, -, hcount'⟩ := exists_place (n := m - 1) wf' hn' (by omega)
  have hlast : countIn f n ⟨t, i⟩ + 1 + (m - countIn f n ⟨t, i⟩) - 2 = m - 1 := by omega
  refine ⟨⟨u.before, v.after⟩, stringRange_found wf' hn' (Nat.le_add_left 1 _) (by omega) hk
    (by rw [hlast]; exact hk') hu hv, ?_, hcount, by rw [hcount']; omega⟩
  have hle := placesIn_le_of_number h wf hn hsplit hs hi (Nat.le_refl _) hk
  rw [h.places_eq wf hn hsplit, List.getElem?_append_right hle] at hu
  exact h.compare_after wf hn hsplit (mem_placesIn (List.mem_of_getElem? hu)).1

/-! ## The address of a stretch -/

/-- A stretch of the text of the element to which a route leads. -/
theorem resolve_stretch {route : Route} (hroute : route.Legible) (hp : route.node? f d = some p)
    {s l : Nat} (hs : s < Binary64.exactBound) (hl : l < Binary64.exactBound) {body : String}
    (hbody : body.toList = (Phrase.stretch route s l).chars) {found : Option Range}
    (hfound : f.stringRange p s l = .ok found) (o' : Options) :
    resolve f d o' (wrapped o body) = match found with
      | some r => .ok r
      | none => .error (.unresolved (.noMatch (wrapped o body))) := by
  have hfinds := route.finds hroute f d
  rw [hp] at hfinds
  have hranges : stringRanges f s l [.node p] = .ok (found.map Location.range).toList := by
    simp only [stringRanges, hfound, bind, Except.bind, Option.toList_map, List.append_nil]
  have hstretch := hfinds.stretch hs hl hranges
  rw [← Phrase.chars_stretch, ← hbody] at hstretch
  cases found with
  | some r => exact hstretch.resolve rfl
  | none =>
    have hvalue : evaluate f d o' (wrapped o body) = .ok [] := hstretch.evaluate (List.forall_mem_nil _)
    simp only [resolve, hvalue, bind, Except.bind]

section Stretch

variable (hd : d.Rooted f) (hlex : d.Lexable f) (hstar : d.NoWildcard f)
  (ha : d.InText f ⟨t, i⟩ p) (hb : d.InText f ⟨t, j⟩ p)
  (hstart : Document.CountedAfter f p ⟨t, i⟩) (hstop : Document.CountedBefore f p ⟨t, j⟩)
  (hij : i < j)

include hd ha hb hstart hstop hij

/-- The address of a stretch of one text is made of the address of the element above. -/
theorem create_stretch_eq {s : Selection} (hs : s.Spans ⟨t, i⟩ ⟨t, j⟩) :
    create f d o s = (elementPath f d o p >>= fun path =>
      .ok (wrapped o ("string-range(" ++ path ++ ", \"\", " ++ toString (countIn f p ⟨t, i⟩ + 1)
        ++ ", " ++ toString (countIn f p ⟨t, j⟩ - countIn f p ⟨t, i⟩) ++ ")"))) := by
  have hab : Boundary.compare f ⟨t, i⟩ ⟨t, j⟩ = .ok .lt := by
    have hsame := Boundary.compare_same (f := f) (a := ⟨t, i⟩) (b := ⟨t, j⟩) rfl
    rwa [Nat.compare_eq_lt.mpr hij] at hsame
  rw [create_texts hd ha hb hab hs]
  simp only [betweenTexts, settleStart_of_lt hstart.1, settleEnd_of_pos hstop.1, hab,
    ha.elementAbove hd.wellFormed, true_or, if_true, bind, Except.bind]
  rw [textStretch_eq hd ha hb, stringRange]
  cases elementPath f d o p <;> rfl

include hlex hstar

/-- The address numbers the stretch in the text of the element above, to which a route leads. -/
theorem create_stretch {s : Selection} (hs : s.Spans ⟨t, i⟩ ⟨t, j⟩) {address : String}
    (h : create f d o s = .ok address) :
    ∃ (body : String) (route : Route), address = wrapped o body ∧ route.Legible ∧
      route.node? f d = some p ∧ body.toList = (Phrase.stretch route (countIn f p ⟨t, i⟩ + 1)
        (countIn f p ⟨t, j⟩ - countIn f p ⟨t, i⟩)).chars := by
  rw [create_stretch_eq hd ha hb hstart hstop hij hs] at h
  obtain ⟨path, hpath, h⟩ := exists_of_bind h
  obtain ⟨route, hchars, hroute, hnode⟩ :=
    elementPath_route hd hlex (ha.within_parent hd) ha.isElement hpath
  refine ⟨_, route, (Except.ok.inj h).symm, hroute, hnode hstar, ?_⟩
  rw [toList_stringRange, hchars, Phrase.chars_stretch]

/-- **A text in a wrapper of its own is lost to its addresses.** After the text of a stretch was
wrapped, the address of the stretch stands for the characters with the same numbers in what remains
of the text of the element, all of which lie behind the wrapped text; and for nothing if there are
not so many. -/
theorem resolve_wrapped_text
    (hchars : (f.visibleChars p).length + 1 < Binary64.exactBound) {s : Selection}
    (hs : s.Spans ⟨t, i⟩ ⟨t, j⟩) (tag : String) :
    ∃ w g, f.wrap t tag = (.ok w, g) ∧ (d.IsSole f → ∃ address, create f d o s = .ok address) ∧
      ∀ address, create f d o s = .ok address → ∀ o',
        if countIn f p ⟨t, j⟩ ≤ (g.countedIndices p).length then
          ∃ r, resolve g d o' address = .ok r ∧
            Boundary.compare g ⟨t, g.length t⟩ r.start = .ok .lt ∧
            countIn g p r.start = countIn f p ⟨t, i⟩ ∧ countIn g p r.stop = countIn f p ⟨t, j⟩
        else resolve g d o' address = .error (.unresolved (.noMatch address)) := by
  have wf := hd.wellFormed
  have hp := has_of_isElement ha.isElement
  obtain ⟨g, left, right, hwrap, h⟩ := wrap_text wf ha.isText ha.parent tag
  refine ⟨f.fresh, g, hwrap, fun hsole => ?_, fun address hcreate o' => ?_⟩
  · obtain ⟨path, hpath⟩ := exists_elementPath (o := o) hd hsole hlex.named (ha.within_parent hd)
      ha.isElement ha.not_isIgnored
    rw [create_stretch_eq hd ha hb hstart hstop hij hs, hpath]
    exact ⟨_, rfl⟩
  obtain ⟨body, route, rfl, hroute, hnode, hbody⟩ :=
    create_stretch hd hlex hstar ha hb hstart hstop hij hs hcreate
  have hnode' : route.node? g d = some p := ((h.sameWays hd).node?_eq hd route).trans hnode
  -- the start has a smaller number than the end
  have hlt : countIn f p ⟨t, i⟩ < countIn f p ⟨t, j⟩ := by
    refine (Counter.lt_iff_lt_countTo (counted_after hd ha hstart).1).mp ?_
    rw [wf.textOffset_in_text hp (ha.inShown wf).within ha.isShown ha.offset_le,
      wf.textOffset_in_text hp (hb.inShown wf).within hb.isShown hb.offset_le]
    exact Nat.add_lt_add_left hij _
  have hbound : countIn f p ⟨t, j⟩ + 1 < Binary64.exactBound := by
    have hle := Counter.countTo_le (f.visibleChars p) (f.textOffset p ⟨t, j⟩)
    have hlen := Counter.length_indices_le .start (f.visibleChars p)
    rw [countIn]
    omega
  have hresolve := fun {found} (hfound : g.stringRange p _ _ = .ok found) =>
    resolve_stretch (o := o) hroute hnode' (by omega) (by omega) hbody hfound o'
  split
  · next hmany =>
    obtain ⟨r, hr, hbehind, hcount, hcount'⟩ := stringRange_behind h wf hp (ha.inShown wf).within
      ha.isShown ha.offset_le hlt hmany
    exact ⟨r, hresolve hr, hbehind, hcount, hcount'⟩
  · next hfew =>
    exact hresolve (stringRange_none (Nat.le_add_left 1 _) (by omega) (by omega))

end Stretch

/-! ## A text before an element -/

/-- The document `<r>ab<b>cd</b></r>`. -/
def heralded : Forest := ⟨#[
  { Record.bare .document with children := [⟨1⟩] },
  { Record.bare .element with
    name := some (.plain "r"), parent := some ⟨0⟩, children := [⟨2⟩, ⟨3⟩] },
  { Record.bare .text with value := some "ab", parent := some ⟨1⟩ },
  { Record.bare .element with
    name := some (.plain "b"), parent := some ⟨1⟩, children := [⟨4⟩] },
  { Record.bare .text with value := some "cd", parent := some ⟨3⟩ }]⟩

theorem heralded_rooted : Document.Rooted heralded ⟨⟨0⟩, .xml⟩ := by decide

/-- The text before the `b` is selected and then wrapped. -/
theorem resolve_wrapped_text_heralded :
    ∃ w g, Forest.wrap heralded ⟨2⟩ "m" = (.ok w, g) ∧
      (Document.IsSole heralded ⟨⟨0⟩, .xml⟩ → ∃ address,
        create heralded ⟨⟨0⟩, .xml⟩ .standard (.range ⟨⟨⟨2⟩, 0⟩, ⟨⟨2⟩, 2⟩⟩) = .ok address) ∧
      ∀ address, create heralded ⟨⟨0⟩, .xml⟩ .standard (.range ⟨⟨⟨2⟩, 0⟩, ⟨⟨2⟩, 2⟩⟩) = .ok address →
        ∀ o', if countIn heralded ⟨1⟩ ⟨⟨2⟩, 2⟩ ≤ (g.countedIndices ⟨1⟩).length then
          ∃ r, resolve g ⟨⟨0⟩, .xml⟩ o' address = .ok r ∧
            Boundary.compare g ⟨⟨2⟩, g.length ⟨2⟩⟩ r.start = .ok .lt ∧
            countIn g ⟨1⟩ r.start = countIn heralded ⟨1⟩ ⟨⟨2⟩, 0⟩ ∧
            countIn g ⟨1⟩ r.stop = countIn heralded ⟨1⟩ ⟨⟨2⟩, 2⟩
        else resolve g ⟨⟨0⟩, .xml⟩ o' address = .error (.unresolved (.noMatch address)) :=
  resolve_wrapped_text heralded_rooted
    (heralded_rooted.lexable_of_check (by decide))
    (heralded_rooted.noWildcard_of_check (by decide))
    ⟨by decide, by decide, by decide, by decide, by decide, by decide⟩
    ⟨by decide, by decide, by decide, by decide, by decide, by decide⟩
    ⟨by decide, Counter.mem_indices_iff.mp (by decide)⟩
    ⟨by decide, Counter.mem_indices_iff.mp (by decide)⟩ (by decide) (by decide)
    (.inl rfl) "m"

/-- The address of the text `ab`, once that is wrapped, stands for the text `cd`. -/
theorem not_resolve_wrapped_text :
    ¬ ∀ (f g : Forest) (d : Document) (o : Options) (t p w : Node) (i j : Nat) (tag : String)
      (selected : Range) (address : String) (cs : List Char), d.Rooted f → d.IsSole f →
      d.Lexable f → d.NoWildcard f → d.IsUnmarked f → d.TextInElements f →
      (∀ n, f.Within d.root n → (f.visibleChars n).length + 1 < Binary64.exactBound) →
      d.InText f ⟨t, i⟩ p → d.InText f ⟨t, j⟩ p → Document.CountedAfter f p ⟨t, i⟩ →
      Document.CountedBefore f p ⟨t, j⟩ → i < j → selected = ⟨⟨t, i⟩, ⟨t, j⟩⟩ →
      selected.text f = .ok cs → create f d o (.range selected) = .ok address →
      f.wrap t tag = (.ok w, g) →
      ∃ r, resolve g d o address = .ok r ∧ r.text g = .ok cs := by
  intro h
  let d : Document := ⟨⟨0⟩, .xml⟩
  have hcreate : create heralded d .standard (.range ⟨⟨⟨2⟩, 0⟩, ⟨⟨2⟩, 2⟩⟩)
      = .ok "xpointer(string-range(/r[1], \"\", 1, 2))" := by decide
  obtain ⟨g, hwrap, hfound⟩ : ∃ g, heralded.wrap ⟨2⟩ "m" = (.ok ⟨5⟩, g) ∧
      (resolve g d .standard "xpointer(string-range(/r[1], \"\", 1, 2))" >>= fun r =>
        r.text g) = .ok ['c', 'd'] :=
    ⟨_, rfl, by decide +kernel⟩
  obtain ⟨r, hresolve, htext⟩ := h heralded g d .standard ⟨2⟩ ⟨1⟩ ⟨5⟩ 0 2 "m"
    ⟨⟨⟨2⟩, 0⟩, ⟨⟨2⟩, 2⟩⟩ _ ['a', 'b'] heralded_rooted
    (heralded_rooted.isSole_of_check (by decide))
    (heralded_rooted.lexable_of_check (by decide))
    (heralded_rooted.noWildcard_of_check (by decide))
    (heralded_rooted.forall_within (by decide))
    (heralded_rooted.textInElements_of_check (by decide))
    (heralded_rooted.forall_within (by decide))
    ⟨by decide, by decide, by decide, by decide, by decide, by decide⟩
    ⟨by decide, by decide, by decide, by decide, by decide, by decide⟩
    ⟨by decide, Counter.mem_indices_iff.mp (by decide)⟩
    ⟨by decide, Counter.mem_indices_iff.mp (by decide)⟩ (by decide) rfl
    (by decide) hcreate hwrap
  rw [hresolve] at hfound
  have hlater : r.text g = .ok ['c', 'd'] := hfound
  rw [htext, Except.ok.injEq] at hlater
  revert hlater
  decide

end Address

end TreePointer
