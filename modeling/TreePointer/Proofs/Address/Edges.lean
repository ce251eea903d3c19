import TreePointer.Proofs.Address.Offsets
import TreePointer.Proofs.Address.TextPreserved

/-!
# Elements, and ranges with elements at their ends

An element is named by one address, and the address stands for the range around it. A range that
starts directly before an element or stops directly after one is therefore given by that element, so
that it comes back as it was.

* `elementPath_designates`: the address of an element evaluates to that element and nothing else.
* `Document.ExactStart`, `Document.ExactStop`: edges of elements, and of counted characters.
* `roundTrip_of_edges`: a range with an element at one end or both survives being written as an
  address and read again.
* `not_designates_starred`, `not_roundTrip_edges_starred`: not so for an element that is named like
  the wildcard.
-/

namespace TreePointer

/-! ## Edges -/

/-- The boundary is directly before an element. -/
def Boundary.Precedes (f : Forest) (b : Boundary) (e : Node) : Prop :=
  f.childAt? b.container b.offset = some e ∧ f.isElement e = true

/-- The boundary is directly after an element. -/
def Boundary.Follows (f : Forest) (b : Boundary) (e : Node) : Prop :=
  0 < b.offset ∧ f.childAt? b.container (b.offset - 1) = some e ∧ f.isElement e = true

/-- A start that comes back exactly: before an element, or in a text before a character that is
counted in the text of its parent. -/
inductive Document.ExactStart (f : Forest) (b : Boundary) : Prop
  | element {e : Node} (h : b.Precedes f e)
  | text {p : Node} (h : f.isText b.container = true) (hp : f.parent b.container = some p)
      (hc : Document.CountedAfter f p b)

/-- A stop that comes back exactly: after an element, or in a text after a character that is counted
in the text of its parent. -/
inductive Document.ExactStop (f : Forest) (b : Boundary) : Prop
  | element {e : Node} (h : b.Follows f e)
  | text {p : Node} (h : f.isText b.container = true) (hi : b.InBounds f)
      (hp : f.parent b.container = some p) (hc : Document.CountedBefore f p b)

theorem Document.IsUnmarked.not_isIgnored {f : Forest} {d : Document} (h : d.IsUnmarked f)
    {n : Node} (hn : f.Within d.root n) : f.isIgnored n = false := by
  have hm := h n hn
  rw [Forest.isMarked, Bool.or_eq_false_iff] at hm
  exact hm.1

namespace Forest.WellFormed

variable {f : Forest} (wf : f.WellFormed)

include wf

/-- A child is at the place where it is found. -/
theorem slot_of_childAt {p c : Node} {i : Nat} (h : f.childAt? p i = some c) :
    c ∈ f.children p ∧ f.slot c = i := by
  have hmem : c ∈ f.children p := List.mem_of_getElem? h
  refine ⟨hmem, ?_⟩
  obtain ⟨hlt, hc⟩ := List.getElem?_eq_some_iff.mp h
  have hsplit : f.children p = (f.children p).take i ++ c :: (f.children p).drop (i + 1) := by
    rw [← hc, ← List.drop_eq_getElem_cons hlt, List.take_append_drop]
  rw [wf.slot_eq hsplit, List.length_take]
  omega

end Forest.WellFormed

/-- A boundary before an element is where the range around the element starts. -/
theorem Boundary.Precedes.spec {f : Forest} (wf : f.WellFormed) {b : Boundary} {e : Node}
    (h : b.Precedes f e) :
    e ∈ f.children b.container ∧ b.InBounds f ∧
      ∃ r, Location.rangeAround f e = .ok r ∧ r.start = b := by
  obtain ⟨hmem, hslot⟩ := wf.slot_of_childAt h.1
  obtain ⟨haround, hlt⟩ := wf.rangeAround_child hmem
  rw [hslot] at haround hlt
  exact ⟨hmem, Nat.le_of_lt hlt, _, haround, rfl⟩

/-- A boundary after an element is where the range around the element stops. -/
theorem Boundary.Follows.spec {f : Forest} (wf : f.WellFormed) {b : Boundary} {e : Node}
    (h : b.Follows f e) :
    e ∈ f.children b.container ∧ b.InBounds f ∧
      ∃ r, Location.rangeAround f e = .ok r ∧ r.stop = b := by
  obtain ⟨hpos, hchild, -⟩ := h
  obtain ⟨hmem, hslot⟩ := wf.slot_of_childAt hchild
  obtain ⟨haround, hlt⟩ := wf.rangeAround_child hmem
  rw [hslot, Nat.sub_add_cancel hpos] at haround
  refine ⟨hmem, ?_, _, haround, rfl⟩
  show b.offset ≤ f.length b.container
  omega

namespace Address

variable {f : Forest} {d : Document} {o o' : Options} {a b : Boundary} {e p q : Node}

/-! ## The address of an element -/

/-- The range around an element starts with that element. -/
theorem startNode_around (wf : f.WellFormed) (he : e ∈ f.children p)
    (helement : f.isElement e = true) :
    startNode f ⟨⟨p, f.slot e⟩, ⟨p, f.slot e + 1⟩⟩ = .ok e := by
  have hchild : f.childAt? p (f.slot e) = some e := wf.getElem?_slot he
  have hcollapsed : ¬ Range.isCollapsed ⟨⟨p, f.slot e⟩, ⟨p, f.slot e + 1⟩⟩ = true := by
    simp [Range.isCollapsed]
  simp only [startNode, wf.container_of_mem p e he, if_true, hchild]
  rw [if_pos ⟨helement, hcollapsed⟩]

section Elements

variable (hd : d.Rooted f) (hsole : d.IsSole f) (hlex : d.Lexable f) (hstar : d.NoWildcard f)

include hd hsole hlex hstar

/-- **The address of an element names exactly that element.** Whatever is marked, an element that is
not ignored has an address, which evaluates to the element alone and is resolved to it. -/
theorem elementPath_designates (he : f.Within d.root e) (helement : f.isElement e = true)
    (hi : f.isIgnored e = false) :
    ∃ path, elementPath f d o e = .ok path ∧ evaluate f d o' path = .ok [.node e] ∧
      resolveElement f d o' path = .ok e := by
  have wf := hd.wellFormed
  obtain ⟨path, hpath, hfinds⟩ := elementPath_finds (o := o) hd hsole hlex hstar he helement hi
  have hvalue : evaluate f d o' path = .ok [.node e] := hfinds.evaluate_plain
  have hne : e ≠ d.root := by
    rintro rfl
    rw [hd.not_isElement_root] at helement
    cases helement
  obtain ⟨p, hp, -⟩ := wf.exists_parent he hne
  have hmem := wf.mem_of_parent hp
  refine ⟨path, hpath, hvalue, ?_⟩
  simp only [resolveElement, resolve, hvalue, bind, Except.bind, Location.isPlace, if_true,
    Location.toRange, (wf.rangeAround_child hmem).1, startNode_around wf hmem helement, helement]

end Elements

/-- The document `<R><P id='it"s'><m><m><B>a</B></m></m><b>c</b></P></R>`, where `m` is ignored. -/
def nested : Forest := ⟨#[
  { Record.bare .document with children := [⟨1⟩] },
  { Record.bare .element with
    name := some (.plain "R"), parent := some ⟨0⟩, children := [⟨2⟩] },
  { Record.bare .element with
    name := some (.plain "P"), attributes := [⟨.plain "id", "it\"s"⟩], parent := some ⟨1⟩
    children := [⟨3⟩, ⟨7⟩] },
  { Record.bare .element with
    name := some (.plain "m"), parent := some ⟨2⟩, children := [⟨4⟩]
    attributes := [⟨⟨none, "_dom_ignore_element_", some Mark.uri⟩, "true"⟩] },
  { Record.bare .element with
    name := some (.plain "m"), parent := some ⟨3⟩, children := [⟨5⟩]
    attributes := [⟨⟨none, "_dom_ignore_element_", some Mark.uri⟩, "true"⟩] },
  { Record.bare .element with
    name := some (.plain "B"), parent := some ⟨4⟩, children := [⟨6⟩] },
  { Record.bare .text with value := some "a", parent := some ⟨5⟩ },
  { Record.bare .element with
    name := some (.plain "b"), parent := some ⟨2⟩, children := [⟨8⟩] },
  { Record.bare .text with value := some "c", parent := some ⟨7⟩ }]⟩

theorem nested_rooted : Document.Rooted nested ⟨⟨0⟩, .html⟩ := by decide

/-- The second `b`, of which the first is in another case and in decoration: it is
`id('it"s')/b[2]`. -/
theorem elementPath_designates_nested :
    ∃ path, elementPath nested ⟨⟨0⟩, .html⟩ .standard ⟨7⟩ = .ok path ∧
      evaluate nested ⟨⟨0⟩, .html⟩ .standard path = .ok [.node ⟨7⟩] ∧
      resolveElement nested ⟨⟨0⟩, .html⟩ .standard path = .ok ⟨7⟩ :=
  elementPath_designates nested_rooted (nested_rooted.isSole_of_check (by decide))
    (nested_rooted.lexable_of_check (by decide +kernel))
    (nested_rooted.noWildcard_of_check (by decide +kernel)) (by decide +kernel) (by decide)
    (by decide)

/-- An element of the name `*` has an address that finds another element before it. -/
theorem not_designates_starred :
    ¬ ∀ (f : Forest) (d : Document) (o : Options) (e : Node),
      d.Rooted f → d.IsSole f → d.Lexable f → f.Within d.root e → f.isElement e = true →
      f.isIgnored e = false →
      ∃ path, elementPath f d o e = .ok path ∧ evaluate f d o path = .ok [.node e] ∧
        resolveElement f d o path = .ok e := by
  intro h
  obtain ⟨path, hpath, hvalue, -⟩ := h starred ⟨⟨0⟩, .xml⟩ .standard ⟨4⟩ starred_rooted
    (starred_rooted.isSole_of_check (by decide))
    (starred_rooted.lexable_of_check (by decide))
    (by decide) (by decide) (by decide)
  have hmade : (elementPath starred ⟨⟨0⟩, .xml⟩ .standard ⟨4⟩).toOption = some "/r[1]/*[1]" := by
    decide
  have hfound : (evaluate starred ⟨⟨0⟩, .xml⟩ .standard "/r[1]/*[1]").toOption
      = some [.node ⟨2⟩] := by decide +kernel
  rw [hpath, Except.toOption, Option.some.injEq] at hmade
  rw [← hmade, hvalue, Except.toOption, Option.some.injEq] at hfound
  revert hfound
  decide

/-! ## Ends that stay where they are -/

section Ends

variable (wf : f.WellFormed)

theorem leaveMarked_of_unmarked (hu : d.IsUnmarked f) (hb : f.Within d.root b.container)
    {beside : Option Node} (hbeside : ∀ n ∈ beside, f.Within d.root n) :
    leaveMarked f b beside = .ok b := by
  have hfilter : beside.filter f.isIgnored = none := by
    rw [Option.filter_eq_none_iff]
    intro n hn
    rw [hu.not_isIgnored (hbeside n hn)]
    exact Bool.false_ne_true
  unfold leaveMarked
  split
  · rfl
  · simp only [hu.not_isIgnored hb, Bool.false_eq_true, if_false, hfilter, Option.bind_none]

include wf

theorem leaveMarkedStart_of_unmarked (hu : d.IsUnmarked f) (hb : f.Within d.root b.container) :
    leaveMarkedStart f b = .ok b :=
  leaveMarked_of_unmarked hu hb fun _ hn => wf.within_child hb (List.mem_of_getElem? hn)

theorem leaveMarkedEnd_of_unmarked (hu : d.IsUnmarked f) (hb : f.Within d.root b.container) :
    leaveMarkedEnd f b = .ok b := by
  refine leaveMarked_of_unmarked hu hb fun n hn => ?_
  split at hn
  · cases hn
  · exact wf.within_child hb (List.mem_of_getElem? hn)

/-- A start before an element stays there, and the element is the next one. -/
theorem descendStart_of_precedes (h : b.Precedes f e) :
    f.isText b.container = false ∧ descendStart f b = .ok b ∧ elementAfter f b = .ok e := by
  obtain ⟨hmem, -⟩ := wf.slot_of_childAt h.1
  obtain ⟨hlt, he⟩ := List.getElem?_eq_some_iff.mp h.1
  have hdrop : (f.children b.container).drop b.offset
      = e :: (f.children b.container).drop (b.offset + 1) := by
    rw [← he, List.drop_eq_getElem_cons hlt]
  have htext := wf.not_isText_of_mem_children hmem
  refine ⟨htext, ?_, ?_⟩
  · rw [descendStart, if_neg (by rw [htext]; exact Bool.false_ne_true), firstContent?, hdrop,
      List.find?_cons_of_pos (by rw [h.2, Bool.or_true])]
    simp only [Forest.not_isText_of_isElement h.2, Bool.false_eq_true, if_false]
  · rw [elementAfter, hdrop, List.find?_cons_of_pos h.2]

/-- A stop after an element stays there, and the element is the last one. -/
theorem descendEnd_of_follows (h : b.Follows f e) :
    f.isText b.container = false ∧ descendEnd f b = .ok b ∧ elementBefore f b = .ok e := by
  obtain ⟨hpos, hchild, helement⟩ := h
  obtain ⟨hmem, -⟩ := wf.slot_of_childAt hchild
  have htake : ((f.children b.container).take b.offset).reverse
      = e :: ((f.children b.container).take (b.offset - 1)).reverse := by
    have hone : b.offset = b.offset - 1 + 1 := (Nat.sub_add_cancel hpos).symm
    rw [hone, List.take_add_one, show (f.children b.container)[b.offset - 1]? = some e from hchild]
    simp
  have htext := wf.not_isText_of_mem_children hmem
  refine ⟨htext, ?_, ?_⟩
  · rw [descendEnd, if_neg (by rw [htext]; exact Bool.false_ne_true), firstContent?, htake,
      List.find?_cons_of_pos (by rw [helement, Bool.or_true])]
    simp only [Forest.not_isText_of_isElement helement, Bool.false_eq_true, if_false]
  · rw [elementBefore, htake, List.find?_cons_of_pos helement]

end Ends

/-! ## The shapes of an address -/

/-- The body is made for the stretch between two boundaries and resolved to exactly that. -/
def Restores (f : Forest) (d : Document) (o o' : Options) (a b : Boundary) : Prop :=
  ∃ body, between f d o a b = .ok body ∧ resolve f d o' (wrapped o body) = .ok ⟨a, b⟩

section Shapes

variable (hd : d.Rooted f) (hsole : d.IsSole f) (hlex : d.Lexable f) (hstar : d.NoWildcard f)
  (hunmarked : d.IsUnmarked f) (ha : f.Within d.root a.container)
  (hb : f.Within d.root b.container) (hab : a.compare f b = .ok .lt)

include hd hunmarked

/-- A boundary in a text of a document without marks. -/
theorem inText_of_unmarked (htext : d.TextInElements f) (hb : f.Within d.root b.container)
    (ht : f.isText b.container = true) (hp : f.parent b.container = some p) (hi : b.InBounds f) :
    d.InText f b p := by
  obtain ⟨q, hq, hqr⟩ := hd.exists_parent_of_isText hb ht
  rw [hp, Option.some.injEq] at hq
  exact ⟨hb, ht, hp, htext _ p hb ht hp, hunmarked p (hq ▸ hqr), hi⟩

include hsole hlex hstar ha hb hab

/-- From before an element to after one. -/
theorem restores_elements (hstart : a.Precedes f p) (hstop : b.Follows f q) :
    Restores f d o o' a b := by
  have wf := hd.wellFormed
  obtain ⟨hpmem, hai, r, hr, rfl⟩ := hstart.spec wf
  obtain ⟨hqmem, hbi, s, hs, rfl⟩ := hstop.spec wf
  have hpr := wf.within_child ha hpmem
  have hqr := wf.within_child hb hqmem
  obtain ⟨hta, hdescend, hafter⟩ := descendStart_of_precedes wf hstart
  obtain ⟨htb, hdescend', hbefore⟩ := descendEnd_of_follows wf hstop
  obtain ⟨first, hfirst, hfinds⟩ := elementPath_finds (o := o) hd hsole hlex hstar hpr hstart.2
    (hunmarked.not_isIgnored hpr)
  obtain ⟨last, hlast, hfinds'⟩ := elementPath_finds (o := o) hd hsole hlex hstar hqr hstop.2.2
    (hunmarked.not_isIgnored hqr)
  simp only [Restores, between, leaveMarkedStart_of_unmarked wf hunmarked ha,
    leaveMarkedEnd_of_unmarked wf hunmarked hb, hdescend, hdescend', hta, htb, hafter, hbefore,
    hfirst, hlast, bind, Except.bind]
  by_cases hpq : p = q
  · subst hpq
    rw [hr, Except.ok.injEq] at hs
    subst hs
    exact ⟨first, if_pos rfl, hfinds.resolve hr⟩
  · have hmake := Range.make_of_le hai hbi hab (by decide)
    obtain ⟨t, hreads⟩ := hfinds'.reads
    exact ⟨_, if_neg hpq, hfinds.resolve_rangeTo hr (hreads _) hs hmake⟩

/-- From before an element to a character in a text. -/
theorem restores_element_text (htext : d.TextInElements f)
    (hchars : ∀ n, f.Within d.root n → (f.visibleChars n).length < Binary64.exactBound)
    (hstart : a.Precedes f p) (htb : f.isText b.container = true) (hbi : b.InBounds f)
    (hq : f.parent b.container = some q) (hcounted : Document.CountedBefore f q b) :
    Restores f d o o' a b := by
  have wf := hd.wellFormed
  obtain ⟨hpmem, hai, r, hr, rfl⟩ := hstart.spec wf
  have hpr := wf.within_child ha hpmem
  have hbq := inText_of_unmarked hd hunmarked htext hb htb hq hbi
  obtain ⟨hta, hdescend, hafter⟩ := descendStart_of_precedes wf hstart
  have hdescend' : descendEnd f b = .ok b := by rw [descendEnd, if_pos htb]
  obtain ⟨first, hfirst, hfinds⟩ := elementPath_finds (o := o) hd hsole hlex hstar hpr hstart.2
    (hunmarked.not_isIgnored hpr)
  obtain ⟨last, hlast, hdenotes⟩ := endPoint_of_counted (o := o) hd hsole hlex hstar hbq hcounted
    (hchars q (hbq.within_parent hd))
  obtain ⟨t, hreads⟩ := (hdenotes.finds rfl (by decide)).reads
  simp only [Restores, between, leaveMarkedStart_of_unmarked wf hunmarked ha,
    leaveMarkedEnd_of_unmarked wf hunmarked hb, hdescend, hdescend', hta, htb, hafter, hfirst,
    settleEnd_of_pos hcounted.1, hlast, bind, Except.bind]
  exact ⟨_, rfl, hfinds.resolve_rangeTo hr (hreads _) rfl
    (Range.make_of_le hai hbi hab (by decide))⟩

/-- From a character in a text to after an element. -/
theorem restores_text_element (htext : d.TextInElements f)
    (hchars : ∀ n, f.Within d.root n → (f.visibleChars n).length < Binary64.exactBound)
    (hta : f.isText a.container = true) (hp : f.parent a.container = some p)
    (hcounted : Document.CountedAfter f p a) (hstop : b.Follows f q) :
    Restores f d o o' a b := by
  have wf := hd.wellFormed
  have hai : a.InBounds f := Nat.le_of_lt hcounted.1
  obtain ⟨hqmem, hbi, s, hs, rfl⟩ := hstop.spec wf
  have hqr := wf.within_child hb hqmem
  have hap := inText_of_unmarked hd hunmarked htext ha hta hp hai
  have hdescend : descendStart f a = .ok a := by rw [descendStart, if_pos hta]
  obtain ⟨htb, hdescend', hbefore⟩ := descendEnd_of_follows wf hstop
  obtain ⟨first, hfirst, hdenotes⟩ := startPoint_of_counted (o := o) hd hsole hlex hstar hap
    hcounted (hchars p (hap.within_parent hd))
  obtain ⟨last, hlast, hfinds⟩ := elementPath_finds (o := o) hd hsole hlex hstar hqr hstop.2.2
    (hunmarked.not_isIgnored hqr)
  obtain ⟨t, hreads⟩ := hfinds.reads
  simp only [Restores, between, leaveMarkedStart_of_unmarked wf hunmarked ha,
    leaveMarkedEnd_of_unmarked wf hunmarked hb, hdescend, hdescend', hta, htb, hbefore, hfirst,
    settleStart_of_lt hcounted.1, hlast, bind, Except.bind]
  exact ⟨_, rfl, (hdenotes.finds rfl (by decide)).resolve_rangeTo rfl (hreads _) hs
    (Range.make_of_le hai hbi hab (by decide))⟩

/-- **A range with an element at one end or both** survives being written as an address and read
again, if its other end is next to an element or to a counted character. -/
theorem roundTrip_of_edges (htext : d.TextInElements f)
    (hchars : ∀ n, f.Within d.root n → (f.visibleChars n).length < Binary64.exactBound)
    (hstart : Document.ExactStart f a) (hstop : Document.ExactStop f b)
    (hedge : (∃ e, a.Precedes f e) ∨ ∃ e, b.Follows f e) :
    ∃ address, createFromRange f d o ⟨a, b⟩ = .ok address ∧
      resolve f d o' address = .ok ⟨a, b⟩ := by
  have wf := hd.wellFormed
  have hrestores : Restores f d o o' a b := by
    cases hstart with
    | element hstart =>
      cases hstop with
      | element hstop =>
        exact restores_elements hd hsole hlex hstar hunmarked ha hb hab hstart hstop
      | text htb hbi hq hcounted =>
        exact restores_element_text hd hsole hlex hstar hunmarked ha hb hab htext hchars hstart htb
          hbi hq hcounted
    | text hta hp hcounted =>
      -- a text holds no element, so that the stop is the edge of one
      have hnot : ¬ ∃ e, a.Precedes f e := by
        rintro ⟨e, he⟩
        rw [(descendStart_of_precedes wf he).1] at hta
        cases hta
      obtain ⟨e, he⟩ := hedge.resolve_left hnot
      exact restores_text_element hd hsole hlex hstar hunmarked ha hb hab htext hchars hta hp
        hcounted he
  obtain ⟨body, hbody, hresolve⟩ := hrestores
  refine ⟨wrapped o body, ?_, hresolve⟩
  rw [createFromRange, create_between ha hb hab rfl, hbody]
  rfl

end Shapes

/-- The document `<r><p>ab <q>c</q></p>d<s><q>e</q></s></r>`. -/
def tiered : Forest := ⟨#[
  { Record.bare .document with children := [⟨1⟩] },
  { Record.bare .element with
    name := some (.plain "r"), parent := some ⟨0⟩, children := [⟨2⟩, ⟨6⟩, ⟨7⟩] },
  { Record.bare .element with
    name := some (.plain "p"), parent := some ⟨1⟩, children := [⟨3⟩, ⟨4⟩] },
  { Record.bare .text with value := some "ab ", parent := some ⟨2⟩ },
  { Record.bare .element with
    name := some (.plain "q"), parent := some ⟨2⟩, children := [⟨5⟩] },
  { Record.bare .text with value := some "c", parent := some ⟨4⟩ },
  { Record.bare .text with value := some "d", parent := some ⟨1⟩ },
  { Record.bare .element with
    name := some (.plain "s"), parent := some ⟨1⟩, children := [⟨8⟩] },
  { Record.bare .element with
    name := some (.plain "q"), parent := some ⟨7⟩, children := [⟨9⟩] },
  { Record.bare .text with value := some "e", parent := some ⟨8⟩ }]⟩

theorem tiered_rooted : Document.Rooted tiered ⟨⟨0⟩, .xml⟩ := by decide

/-- From before the `b` to after the second `q`. -/
theorem roundTrip_of_edges_tiered :
    ∃ address, createFromRange tiered ⟨⟨0⟩, .xml⟩ .standard ⟨⟨⟨3⟩, 1⟩, ⟨⟨7⟩, 1⟩⟩ = .ok address ∧
      resolve tiered ⟨⟨0⟩, .xml⟩ .standard address = .ok ⟨⟨⟨3⟩, 1⟩, ⟨⟨7⟩, 1⟩⟩ :=
  roundTrip_of_edges tiered_rooted (tiered_rooted.isSole_of_check (by decide))
    (tiered_rooted.lexable_of_check (by decide))
    (tiered_rooted.noWildcard_of_check (by decide))
    (tiered_rooted.forall_within (by decide)) (by decide) (by decide)
    (Boundary.isBefore_iff.mp (by decide))
    (tiered_rooted.textInElements_of_check (by decide))
    (tiered_rooted.forall_within (by decide))
    (.text (p := ⟨2⟩) (by decide) (by decide)
      ⟨by decide, Counter.mem_indices_iff.mp (by decide)⟩)
    (.element (e := ⟨8⟩) ⟨by decide, by decide, by decide⟩)
    (.inr ⟨⟨8⟩, by decide, by decide, by decide⟩)

/-- The range around an element of the name `*` comes back as that around another one. -/
theorem not_roundTrip_edges_starred :
    ¬ ∀ (f : Forest) (d : Document) (o : Options) (a b : Boundary),
      d.Rooted f → d.IsSole f → d.Lexable f → d.IsUnmarked f → f.Within d.root a.container →
      f.Within d.root b.container → a.compare f b = .ok .lt → d.TextInElements f →
      (∀ n, f.Within d.root n → (f.visibleChars n).length < Binary64.exactBound) →
      Document.ExactStart f a → Document.ExactStop f b →
      ((∃ e, a.Precedes f e) ∨ ∃ e, b.Follows f e) →
      ∃ address, createFromRange f d o ⟨a, b⟩ = .ok address ∧
        resolve f d o address = .ok ⟨a, b⟩ := by
  intro h
  obtain ⟨address, hcreate, hresolve⟩ := h starred ⟨⟨0⟩, .xml⟩ .standard ⟨⟨1⟩, 1⟩ ⟨⟨1⟩, 2⟩
    starred_rooted (starred_rooted.isSole_of_check (by decide))
    (starred_rooted.lexable_of_check (by decide))
    (starred_rooted.forall_within (by decide)) (by decide) (by decide)
    (Boundary.isBefore_iff.mp (by decide))
    (starred_rooted.textInElements_of_check (by decide))
    (starred_rooted.forall_within (by decide))
    (.element (e := ⟨4⟩) ⟨by decide, by decide⟩)
    (.element (e := ⟨4⟩) ⟨by decide, by decide, by decide⟩) (.inl ⟨⟨4⟩, by decide, by decide⟩)
  have hmade : (createFromRange starred ⟨⟨0⟩, .xml⟩ .standard ⟨⟨⟨1⟩, 1⟩, ⟨⟨1⟩, 2⟩⟩).toOption
      = some "xpointer(/r[1]/*[1])" := by decide
  have hfound : (resolve starred ⟨⟨0⟩, .xml⟩ .standard "xpointer(/r[1]/*[1])").toOption
      = some ⟨⟨⟨1⟩, 0⟩, ⟨⟨1⟩, 1⟩⟩ := by decide +kernel
  rw [hcreate, Except.toOption, Option.some.injEq] at hmade
  rw [← hmade, hresolve, Except.toOption, Option.some.injEq] at hfound
  revert hfound
  decide

end Address

end TreePointer
