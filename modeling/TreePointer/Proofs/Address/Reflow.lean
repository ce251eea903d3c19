import TreePointer.Proofs.Address.Check
import TreePointer.Proofs.Address.Offsets
import TreePointer.Proofs.Address.Reach
import TreePointer.Proofs.Address.Simulation
import TreePointer.Proofs.Address.TextPreserved
import TreePointer.Proofs.Text.Reflow
import TreePointer.Proofs.Tree.Mirror

/-!
# Addresses survive re-flowed blanks

A document that is saved by another editor often comes back with its lines broken elsewhere and its
nodes in new tables. An address of the old document resolves in the new one as well, to a range of
the same text, but for blanks. The two evaluations come to nodes that correspond, and to ranges
whose ends are aligned in the visible texts: where a range is not turned round in the one document,
it may be so in the other, but then only blanks are between its ends.

* `Document.Reflowed`: the document after it was re-flowed.
* `Reflowed.correspondence`: it answers an evaluation alike, by ranges that are aligned.
* `resolve_reflowed`: what an address resolves to in both.
-/

namespace TreePointer

/-- A document with the blanks of its texts re-flowed, its nodes under the names that `φ` gives
them. Kinds, names, attributes and child lists are the same. What comments and processing
instructions hold plays no part. -/
structure Document.Reflowed (f g : Forest) (d d' : Document) (φ : Node → Node) : Prop where
  root_eq : φ d.root = d'.root
  flavor_eq : d'.flavor = d.flavor
  mirrored : f.Mirrored g d.root φ
  name_eq : ∀ n, f.Within d.root n → g.name (φ n) = f.name n
  text : ∀ t, f.Within d.root t → f.isText t = true → Reflows (f.characters t) (g.characters (φ t))

theorem Document.root_ofRoot (f : Forest) (r : Node) : (Document.ofRoot f r).root = r := by
  unfold ofRoot
  split <;> rfl

/-- A document that is taken for plain HTML by its names is taken for it again. -/
theorem Document.Reflowed.ofRoot {f g : Forest} {r : Node} {φ : Node → Node} (wf : f.WellFormed)
    (h : f.Mirrored g r φ) (hname : ∀ n, f.Within r n → g.name (φ n) = f.name n)
    (htext : ∀ t, f.Within r t → f.isText t = true →
      Reflows (f.characters t) (g.characters (φ t))) :
    Document.Reflowed f g (Document.ofRoot f r) (Document.ofRoot g (φ r)) φ := by
  have hfirst : (g.firstElement? (φ r)).bind g.name = (f.firstElement? r).bind f.name := by
    rw [h.firstElement?_eq wf (.refl f r)]
    cases he : f.firstElement? r with
    | none => rfl
    | some e => exact hname e (wf.within_child (.refl f r) (List.mem_of_find?_eq_some he))
  have hflavor : (Document.ofRoot g (φ r)).flavor = (Document.ofRoot f r).flavor := by
    unfold Document.ofRoot
    rw [hfirst]
    split <;> rfl
  have hroot := Document.root_ofRoot f r
  exact ⟨by rw [hroot, Document.root_ofRoot], hflavor, by rwa [hroot], by rwa [hroot],
    by rwa [hroot]⟩

/-- Ranges of two forests whose ends are aligned in the visible texts. -/
def Range.AlignedWith (f g : Forest) (r r' : Node) (s s' : Range) : Prop :=
  ∃ k m k' m', s.At f r k m ∧ s'.At g r' k' m' ∧
    Aligned (f.visibleChars r) (g.visibleChars r') k k' ∧
    Aligned (f.visibleChars r) (g.visibleChars r') m m'

/-! ## Stretches of counted characters -/

/-- Stretches with the same numbers are aligned. -/
theorem Reflows.stretch?_aligned {cs ds : List Char} (h : Reflows cs ds) (start length : Nat) :
    Option.Rel (fun p q => Aligned cs ds p.1 q.1 ∧ Aligned cs ds p.2 q.2)
      (stretch? cs start length) (stretch? ds start length) := by
  have hcounted : List.Forall₂ (Reflows.AlignedAt cs ds) (Counter.start.indices cs)
      (Counter.start.indices ds) := h.indices rfl
  have hfirst := forall₂_getElem? hcounted (start - 1)
  have hlast := forall₂_getElem? hcounted (start + length - 2)
  unfold stretch?
  simp only [hcounted.length_eq]
  generalize (Counter.start.indices cs)[start - 1]? = i at hfirst ⊢
  generalize (Counter.start.indices ds)[start - 1]? = i' at hfirst ⊢
  generalize (Counter.start.indices cs)[start + length - 2]? = j at hlast ⊢
  generalize (Counter.start.indices ds)[start + length - 2]? = j' at hlast ⊢
  split
  · split
    · exact .some ⟨h.aligned_length, h.aligned_length⟩
    · cases hfirst with
      | none => exact .none
      | some hi => exact .some ⟨hi.1, hi.1⟩
  · cases hfirst with
    | none => exact .none
    | some hi =>
      cases hlast with
      | none => exact .none
      | some hj => exact .some ⟨hi.1, hj.2⟩

namespace Document.Reflowed

variable {f g : Forest} {d d' : Document} {φ : Node → Node} {n : Node} (hd : d.Rooted f)
  (hd' : d'.Rooted g) (h : Document.Reflowed f g d d' φ)

include hd hd' h

/-! ## Nodes -/

omit hd in
theorem has_root' : g.Has (φ d.root) := h.root_eq.symm ▸ hd'.has_root

omit hd in
theorem parent_root' : g.parent (φ d.root) = none := h.root_eq.symm ▸ hd'.parent_root

theorem identified : f.Identified g fun n n' => n' = φ n ∧ f.Within d.root n :=
  h.mirrored.identified hd.wellFormed hd'.wellFormed hd.parent_root (h.parent_root' hd') hd.has_root
    (h.has_root' hd')

theorem within (hn : f.Within d.root n) : g.Within d'.root (φ n) :=
  ((h.identified hd hd').within_iff hd.wellFormed hd'.wellFormed ⟨h.root_eq.symm, .refl f d.root⟩
    ⟨rfl, hn⟩).mpr hn

theorem preorder_eq (hn : f.Within d.root n) : g.preorder (φ n) = (f.preorder n).map φ :=
  Forest.Mirrored.map_of_forall₂
    ((h.identified hd hd').preorder hd.wellFormed hd'.wellFormed ⟨rfl, hn⟩)

theorem isShown_eq (hn : f.Within d.root n) : g.isShown (φ n) = f.isShown n :=
  (h.identified hd hd').isShown_eq ⟨rfl, hn⟩

theorem injective {m : Node} (hn : f.Within d.root n) (hm : f.Within d.root m) (e : φ n = φ m) :
    n = m :=
  h.mirrored.injective hd.wellFormed hd'.wellFormed hd.parent_root (h.parent_root' hd') hn hm e

/-- Every node of the re-flowed document has a counterpart. -/
theorem exists_counterpart {m : Node} (hm : g.Within d'.root m) :
    ∃ n, f.Within d.root n ∧ φ n = m := by
  have hmem := (hd'.wellFormed.mem_preorder_iff hd'.has_root).mpr hm
  rw [← h.root_eq, h.preorder_eq hd hd' (.refl f d.root)] at hmem
  obtain ⟨n, hn, e⟩ := List.mem_map.mp hmem
  exact ⟨n, (hd.wellFormed.mem_preorder_iff hd.has_root).mp hn, e⟩

theorem isUnmarked (hu : d.IsUnmarked f) : d'.IsUnmarked g := by
  intro m hm
  obtain ⟨n, hn, rfl⟩ := h.exists_counterpart hd hd' hm
  rw [(h.mirrored.sameNode hn).isMarked_eq]
  exact hu n hn

omit hd hd' in
theorem tagOf?_eq (hn : f.Within d.root n) : d'.tagOf? g (φ n) = d.tagOf? f n := by
  have hnormal : d'.normalizeTag = d.normalizeTag := by
    funext tag
    rw [Document.normalizeTag, h.flavor_eq, Document.normalizeTag]
  rw [Document.tagOf?, Document.tagOf?, Forest.tagName?, Forest.tagName?,
    (h.mirrored.sameNode hn).isElement_eq, h.name_eq n hn, hnormal]

/-! ## Visible texts -/

/-- The visible characters of some nodes were re-flowed. -/
theorem reflows_chars {ns : List Node} (hns : ∀ n ∈ ns, f.Within d.root n) :
    Reflows ((f.placesIn ns).map Place.char) ((g.placesIn (ns.map φ)).map Place.char) := by
  have hshown : (ns.map φ).filter g.isShown = (ns.filter f.isShown).map φ := by
    rw [List.filter_map]
    exact congrArg _ (List.filter_congr fun n hn => h.isShown_eq hd hd' (hns n hn))
  rw [Forest.map_char_placesIn, Forest.map_char_placesIn, hshown, List.flatMap_map]
  refine Reflows.flatMap fun t ht => ?_
  obtain ⟨hmem, hs⟩ := List.mem_filter.mp ht
  exact h.text t (hns t hmem) (Forest.isText_of_isShown hs)

theorem reflows_visibleChars (hn : f.Within d.root n) :
    Reflows (f.visibleChars n) (g.visibleChars (φ n)) := by
  have hhas := hd.wellFormed.has_of_within hd.has_root hn
  rw [Forest.visibleChars, Forest.visibleChars, Forest.places_eq, Forest.places_eq,
    h.preorder_eq hd hd' hn]
  exact h.reflows_chars hd hd' fun m hm =>
    hd.wellFormed.within_trans hn ((hd.wellFormed.mem_preorder_iff hhas).mp hm)

/-- Aligned places in the text of a node are so in the text of the document. -/
theorem aligned_within (hn : f.Within d.root n) {i i' : Nat}
    (hi : Aligned (f.visibleChars n) (g.visibleChars (φ n)) i i') :
    Aligned (f.visibleChars d.root) (g.visibleChars d'.root)
      (f.textOffset d.root ⟨n, 0⟩ + i) (g.textOffset d'.root ⟨φ n, 0⟩ + i') := by
  have wf := hd.wellFormed
  have wf' := hd'.wellFormed
  obtain ⟨before, after, e⟩ := wf.preorder_infix hd.has_root hn
  have e' : g.preorder d'.root = before.map φ ++ (g.preorder (φ n) ++ after.map φ) := by
    rw [← h.root_eq, h.preorder_eq hd hd' (.refl f d.root), e, List.map_append, List.map_append,
      h.preorder_eq hd hd' hn]
  have hbefore : ∀ m ∈ before, f.Within d.root m := fun m hm =>
    (wf.mem_preorder_iff hd.has_root).mp (e ▸ List.mem_append_left _ hm)
  have hhas := wf.has_of_within hd.has_root hn
  have hhas' := wf'.has_of_within hd'.has_root (h.within hd hd' hn)
  have hreflows := (hi.append_right ((f.placesIn after).map Place.char)
    ((g.placesIn (after.map φ)).map Place.char)).append_left
      (h.reflows_chars hd hd' hbefore).countP_eq
  rw [List.length_map, List.length_map] at hreflows
  rwa [wf.textOffset_of_infix hd.has_root e hhas, wf'.textOffset_of_infix hd'.has_root e' hhas',
    Forest.visibleChars_of_infix e, Forest.visibleChars_of_infix e']

/-! ## Ranges -/

theorem around_below (hn : f.Within d.root n) (hne : n ≠ d.root) :
    ∃ s s', Location.rangeAround f n = .ok s ∧ Location.rangeAround g (φ n) = .ok s' ∧
      Range.AlignedWith f g d.root d'.root s s' := by
  have hne' : φ n ≠ d'.root := by
    intro e
    rw [← h.root_eq] at e
    exact hne (h.injective hd hd' hn (.refl f d.root) e)
  obtain ⟨s, hs, hat⟩ := hd.wellFormed.around_at hd.has_root hn hne
  obtain ⟨s', hs', hat'⟩ := hd'.wellFormed.around_at hd'.has_root (h.within hd hd' hn) hne'
  exact ⟨s, s', hs, hs', _, _, _, _, hat, hat',
    h.aligned_within hd hd' hn ⟨Nat.zero_le _, Nat.zero_le _, rfl⟩,
    h.aligned_within hd hd' hn (h.reflows_visibleChars hd hd' hn).aligned_length⟩

theorem around_agrees (hn : f.Within d.root n) :
    Agrees (Range.AlignedWith f g d.root d'.root) (Location.rangeAround f n)
      (Location.rangeAround g (φ n)) := by
  by_cases hroot : n = d.root
  · -- the first element stands for the root
    have hfirst := h.mirrored.firstElement?_eq hd.wellFormed (.refl f d.root)
    rw [h.root_eq] at hfirst
    rw [hroot, h.root_eq, hd.wellFormed.rangeAround_of_top hd.parent_root,
      hd'.wellFormed.rangeAround_of_top hd'.parent_root, hfirst]
    cases he : f.firstElement? d.root with
    | none => exact .error _
    | some e =>
      have hmem := List.mem_of_find?_eq_some he
      obtain ⟨s, s', hs, hs', hat⟩ := h.around_below hd hd'
        (hd.wellFormed.within_child (.refl f d.root) hmem) (hd.wellFormed.ne_of_mem_children hmem)
      rw [Option.map_some]
      dsimp only
      rw [hs, hs']
      exact .ok hat
  · obtain ⟨s, s', hs, hs', hat⟩ := h.around_below hd hd' hn hroot
    rw [hs, hs']
    exact .ok hat

omit h in
/-- Where one of two ranges would be turned round, the other one would be so too or is blank. -/
theorem make_agrees {a a' b b' : Range} (ha : Range.AlignedWith f g d.root d'.root a a')
    (hb : Range.AlignedWith f g d.root d'.root b b') :
    Agrees (Range.AlignedWith f g d.root d'.root) (Range.make f a.start b.stop)
      (Range.make g a'.start b'.stop) := by
  obtain ⟨k, _, k', _, hat, hat', hk, -⟩ := ha
  obtain ⟨_, m, _, m', hbt, hbt', -, hm⟩ := hb
  obtain ⟨s, hs, hst⟩ := hd.wellFormed.make_at hd.has_root hat.start hbt.stop
  obtain ⟨s', hs', hst'⟩ := hd'.wellFormed.make_at hd'.has_root hat'.start hbt'.stop
  rw [hs, hs']
  exact .ok ⟨_, _, _, _, hst, hst', hk, hk.max hm⟩

theorem stringRange_agrees (hn : f.Within d.root n) (start length : Nat) :
    Agrees (Option.Rel (Range.AlignedWith f g d.root d'.root)) (f.stringRange n start length)
      (g.stringRange (φ n) start length) := by
  obtain ⟨found, hfound, hat⟩ := hd.wellFormed.stringRange_at hd.has_root hn start length
  obtain ⟨found', hfound', hat'⟩ :=
    hd'.wellFormed.stringRange_at hd'.has_root (h.within hd hd' hn) start length
  have haligned := (h.reflows_visibleChars hd hd' hn).stretch?_aligned (max start 1) length
  rw [hfound, hfound']
  refine .ok ?_
  generalize stretch? (f.visibleChars n) (max start 1) length = stretch at hat haligned
  generalize stretch? (g.visibleChars (φ n)) (max start 1) length = stretch' at hat' haligned
  cases haligned with
  | none =>
    cases hat
    cases hat'
    exact .none
  | some hpq =>
    cases hat with
    | some hat =>
      cases hat' with
      | some hat' =>
        exact .some ⟨_, _, _, _, hat, hat', h.aligned_within hd hd' hn hpq.1,
          h.aligned_within hd hd' hn hpq.2⟩

/-! ## Whole documents -/

/-- **A re-flowed document** answers an evaluation alike, by ranges that are aligned. -/
theorem correspondence : Correspondence f g d d' (fun n n' => n' = φ n ∧ d.Reaches f n)
    (Range.AlignedWith f g d.root d'.root) where
  root := ⟨h.root_eq.symm, hd.reaches_root⟩
  one_to_one := by
    constructor
    · rintro n n' m ⟨e, hn⟩ ⟨e', hm⟩
      exact (h.identified hd hd').one_to_one.1 ⟨e, hn.1⟩ ⟨e', hm.1⟩
    · rintro n n' m' ⟨e, -⟩ ⟨e', -⟩
      exact e.trans e'.symm
  flavor_eq := h.flavor_eq
  isElement_eq := by
    rintro n _ ⟨rfl, hn⟩
    exact (h.mirrored.sameNode hn.1).isElement_eq
  tag_eq := by
    rintro n _ ⟨rfl, hn⟩
    exact h.tagOf?_eq hn.1
  elements := by
    rintro p _ ⟨rfl, hp⟩
    have hspliced := (h.identified hd hd').spliced hd.wellFormed hd'.wellFormed ⟨rfl, hp.1⟩
    rw [Forest.Mirrored.map_of_forall₂
      (forall₂_filter hspliced fun _ _ hc => ((h.identified hd hd').same _ _ hc).isElement_eq)]
    exact List.forall₂_map_right_iff.mpr
      (List.forall₂_same.mpr fun c hc => ⟨rfl, hd.reaches_element hp hc⟩)
  parent := by
    rintro n _ ⟨rfl, hn⟩
    have hparent := (h.identified hd hd').effectiveParent hd.wellFormed hd'.wellFormed ⟨rfl, hn.1⟩
    generalize hp : f.effectiveParent? n = p, g.effectiveParent? (φ n) = p' at hparent
    cases hparent with
    | none => exact .none
    | some h => exact .some ⟨h.1, hd.reaches_effectiveParent hn.1 hp⟩
  byId := by
    intro id
    have hfound := (h.identified hd hd').elementById hd.wellFormed hd'.wellFormed
      ⟨h.root_eq.symm, .refl f d.root⟩ id
    generalize he : d.elementById? f id = e, d'.elementById? g id = e' at hfound
    cases hfound with
    | none => exact .none
    | some hn => exact .some ⟨hn.1, hd.reaches_elementById he⟩
  around := by
    rintro n _ ⟨rfl, hn⟩
    exact h.around_agrees hd hd' hn.1
  make := fun _ _ _ _ hr hs => make_agrees hd hd' hr hs
  collapse := by
    rintro s s' toStart ⟨k, m, k', m', hat, hat', hk, hm⟩
    refine ⟨_, _, _, _, hat.collapse toStart, hat'.collapse toStart, ?_⟩
    cases toStart
    · exact ⟨hm, hm⟩
    · exact ⟨hk, hk⟩
  stringRange := by
    rintro n _ start length ⟨rfl, hn⟩
    exact h.stringRange_agrees hd hd' hn.1 start length

end Document.Reflowed

/-! ## Texts -/

/-- In an unmarked document the text of a range is the slice of the visible text between its
ends. -/
theorem Range.At.text_eq {f : Forest} {d : Document} {s : Range} {k m : Nat} (hd : d.Rooted f)
    (hu : d.IsUnmarked f) (h : s.At f d.root k m) :
    s.text f = .ok (slice (f.visibleChars d.root) k m) := by
  have htext := hd.wellFormed.text_eq_slice_of_within hd.has_root hd.parent_root
    (fun t ht => hd.isShown_of_isText hu ht) h.start.within h.stop.within
  rwa [h.start.offset_eq, h.stop.offset_eq] at htext

namespace Address

variable {f g : Forest} {d d' : Document} {φ : Node → Node}

/-- **Addresses survive re-flowed blanks.** An address that is resolved in an unmarked document and
in one that was made of it by re-flowing is refused in both with one fault, or it gives ranges of the
same text: trimmed and with every run of blanks collapsed, the texts are equal. -/
theorem resolve_reflowed (hd : d.Rooted f) (hd' : d'.Rooted g) (hu : d.IsUnmarked f)
    (h : Document.Reflowed f g d d' φ) (o : Options) (address : String) :
    Agrees (fun s s' => ∃ cs ds, s.text f = .ok cs ∧ s'.text g = .ok ds ∧
        squeeze (trim cs) = squeeze (trim ds))
      (resolve f d o address) (resolve g d' o address) := by
  refine (resolve_agrees (h.correspondence hd hd') o address).mono ?_
  rintro s s' ⟨k, m, k', m', hat, hat', hk, hm⟩
  have hreflows := h.reflows_visibleChars hd hd' (.refl f d.root)
  rw [h.root_eq] at hreflows
  exact ⟨_, _, hat.text_eq hd hu, hat'.text_eq hd' (h.isUnmarked hd hd' hu),
    hreflows.squeeze_trim_slice hk hm⟩

/-- The document `<r><p>ab </p><q> cd</q></r>`. -/
def tight : Forest := ⟨#[
  { Record.bare .document with children := [⟨1⟩] },
  { Record.bare .element with
    name := some (.plain "r"), parent := some ⟨0⟩, children := [⟨2⟩, ⟨4⟩] },
  { Record.bare .element with
    name := some (.plain "p"), parent := some ⟨1⟩, children := [⟨3⟩] },
  { Record.bare .text with value := some "ab ", parent := some ⟨2⟩ },
  { Record.bare .element with
    name := some (.plain "q"), parent := some ⟨1⟩, children := [⟨5⟩] },
  { Record.bare .text with value := some " cd", parent := some ⟨4⟩ }]⟩

/-- The same document with a line break and a tab at the end of the `p` and a line break at the start
of the `q`. Its nodes are numbered from the last one to the first. -/
def airy : Forest := ⟨#[
  { Record.bare .text with value := some "\n cd", parent := some ⟨1⟩ },
  { Record.bare .element with
    name := some (.plain "q"), parent := some ⟨4⟩, children := [⟨0⟩] },
  { Record.bare .text with value := some "ab\n\t", parent := some ⟨3⟩ },
  { Record.bare .element with
    name := some (.plain "p"), parent := some ⟨4⟩, children := [⟨2⟩] },
  { Record.bare .element with
    name := some (.plain "r"), parent := some ⟨5⟩, children := [⟨3⟩, ⟨1⟩] },
  { Record.bare .document with children := [⟨4⟩] }]⟩

theorem tight_rooted : (Document.ofRoot tight ⟨0⟩).Rooted tight := by decide

theorem airy_rooted : (Document.ofRoot airy ⟨5⟩).Rooted airy := by decide

theorem tight_reflowed : Document.Reflowed tight airy (Document.ofRoot tight ⟨0⟩)
    (Document.ofRoot airy ⟨5⟩) fun n => ⟨5 - n.index⟩ := by
  have wf := tight_rooted.wellFormed
  have hroot : tight.Has ⟨0⟩ := by decide
  have hmirrored : tight.Mirrored airy ⟨0⟩ fun n => ⟨5 - n.index⟩ :=
    ⟨wf.forall_within hroot (by decide), wf.forall_within hroot (by decide),
      wf.forall_within hroot (by decide)⟩
  refine .ofRoot wf hmirrored (wf.forall_within hroot (by decide))
    (wf.forall_within hroot fun t ht htext => ?_)
  have htexts : (tight.preorder ⟨0⟩).filter tight.isText = [⟨3⟩, ⟨5⟩] := by decide
  have hmem := List.mem_filter.mpr ⟨ht, htext⟩
  rw [htexts, List.mem_cons, List.mem_singleton] at hmem
  rcases hmem with rfl | rfl
  · exact .keep rfl (.keep rfl
      (@Reflows.blank ' ' ['\n', '\t'] [] [] rfl (by simp) (by simp [isBlank]) .nil))
  · exact @Reflows.blank ' ' ['\n', ' '] ['c', 'd'] ['c', 'd'] rfl (by simp) (by simp [isBlank])
      (.keep rfl (.keep rfl .nil))

/-- From the `b` to the `c`: blanks at the end of one element and at the start of the next one make
one run, which is longer after the document was re-flowed. -/
theorem resolve_reflowed_airy :
    (resolve tight (Document.ofRoot tight ⟨0⟩) .standard
        "string-range(/r/p, \"\", 2, 1)/range-to(string-range(/r/q, \"\", 1, 1))").toOption
        = some ⟨⟨⟨3⟩, 1⟩, ⟨⟨5⟩, 2⟩⟩ ∧
      (resolve airy (Document.ofRoot airy ⟨5⟩) .standard
        "string-range(/r/p, \"\", 2, 1)/range-to(string-range(/r/q, \"\", 1, 1))").toOption
        = some ⟨⟨⟨2⟩, 1⟩, ⟨⟨0⟩, 3⟩⟩ ∧
      Agrees (fun s s' => ∃ cs ds, s.text tight = .ok cs ∧ s'.text airy = .ok ds ∧
          squeeze (trim cs) = squeeze (trim ds))
        (resolve tight (Document.ofRoot tight ⟨0⟩) .standard
          "string-range(/r/p, \"\", 2, 1)/range-to(string-range(/r/q, \"\", 1, 1))")
        (resolve airy (Document.ofRoot airy ⟨5⟩) .standard
          "string-range(/r/p, \"\", 2, 1)/range-to(string-range(/r/q, \"\", 1, 1))") :=
  ⟨by decide +kernel, by decide +kernel,
    resolve_reflowed tight_rooted airy_rooted
      (tight_rooted.forall_within (by decide)) tight_reflowed .standard _⟩

end Address

end TreePointer
