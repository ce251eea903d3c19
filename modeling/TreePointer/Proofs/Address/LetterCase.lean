import TreePointer.Proofs.Address.Check
import TreePointer.Proofs.Address.TwinAddresses
import TreePointer.Proofs.Tree.Mirror

/-!
# Plain HTML takes no notice of case

In plain HTML a tag is compared in lower case wherever it plays a part: where an address names it,
where children of one tag are counted, and where a tag is written into an address. Two trees in
which the same elements are written `BODY` here and `body` there are twins for that reason. An
address leads to the same places in both, and a selection is given the same address.

* `Name.folded`: a name in lower case.
* `SameButCase`: trees that are the same but for the case of names.
* `SameButCase.twins`: as plain HTML they are twins.
* `evaluate_create_anyCase`: no address and no selection tells them apart.
-/

namespace TreePointer

/-! ## Names -/

theorem lowerAscii_append (a b : String) : lowerAscii (a ++ b) = lowerAscii a ++ lowerAscii b := by
  refine String.toList_injective ?_
  simp only [lowerAscii, String.toList_map, String.toList_append, List.map_append]

/-- The name with its ASCII letters in lower case. Its namespace is left as it is. -/
def Name.folded (a : Name) : Name :=
  ⟨a.qualifier.map lowerAscii, lowerAscii a.localName, a.uri⟩

/-- A folded name is written as the name is, in lower case. -/
theorem Name.qualified_folded (a : Name) : a.folded.qualified = lowerAscii a.qualified := by
  obtain ⟨qualifier, localName, uri⟩ := a
  cases qualifier with
  | none => rfl
  | some q =>
    have hcolon : lowerAscii ":" = ":" :=
      String.toList_injective (String.toList_map.trans (by decide))
    simp only [folded, Option.map_some, qualified, lowerAscii_append, hcolon]

/-! ## Trees -/

/-- Nodes that are identified are also called the same, but for the case of ASCII letters. -/
structure Forest.SameButCase (f g : Forest) (M : Node → Node → Prop) : Prop
    extends Copied f g M where
  name_eq : ∀ n n', M n n' → (g.name n').map Name.folded = (f.name n).map Name.folded

/-- As plain HTML, trees that are the same but for the case of names are twins. -/
theorem Forest.SameButCase.twins {f g : Forest} {M : Node → Node → Prop} {r r' : Node}
    (h : f.SameButCase g M) (wf : f.WellFormed) (wf' : g.WellFormed) (hr : M r r') :
    Document.Twins f g ⟨r, .html⟩ ⟨r', .html⟩ M where
  wf := wf
  wf' := wf'
  copied := h.toCopied
  root := hr
  flavor_eq := rfl
  tag_eq := by
    intro n n' hn
    have hfold : lowerAscii ∘ Name.qualified = Name.qualified ∘ Name.folded :=
      funext fun a => a.qualified_folded.symm
    have hnames : (g.name n').map (lowerAscii ∘ Name.qualified)
        = (f.name n).map (lowerAscii ∘ Name.qualified) := by
      rw [hfold, ← Option.map_map, ← Option.map_map, h.name_eq n n' hn]
    show (g.tagName? n').map lowerAscii = (f.tagName? n).map lowerAscii
    rw [Forest.tagName?, Forest.tagName?, (h.same n n' hn).isElement_eq]
    split
    · rwa [Option.map_map, Option.map_map]
    · rfl

namespace Address

variable {f g : Forest} {M : Node → Node → Prop} {r r' : Node}

/-- **Plain HTML takes no notice of case.** In trees that are the same but for the case of names, an
address is refused with one fault or gives contexts that correspond entry by entry, and selections
that correspond are given one address or are refused with one fault. -/
theorem evaluate_create_anyCase (wf : f.WellFormed) (wf' : g.WellFormed) (h : f.SameButCase g M)
    (hr : M r r') (o : Options) :
    (∀ text, Agrees (Context.Corresponds M (Range.Corresponds M)) (evaluate f ⟨r, .html⟩ o text)
        (evaluate g ⟨r', .html⟩ o text)) ∧
      ∀ s s' : Selection, s.Corresponds M s' →
        create g ⟨r', .html⟩ o s' = create f ⟨r, .html⟩ o s := by
  have htwins := h.twins wf wf' hr
  constructor
  · intro text
    exact (evaluate_agreesIn htwins.correspondence.inAny o text).agrees
  · intro s s' hs
    exact htwins.create_eq o hs

/-- The document `<Html><svg:G>ab</svg:G><BODY>cd</BODY><body>ef</body></Html>`. -/
def mixed : Forest := ⟨#[
  { Record.bare .document with children := [⟨1⟩] },
  { Record.bare .element with
    name := some (.plain "Html"), parent := some ⟨0⟩, children := [⟨2⟩, ⟨4⟩, ⟨6⟩] },
  { Record.bare .element with
    name := some ⟨some "svg", "G", none⟩, parent := some ⟨1⟩, children := [⟨3⟩] },
  { Record.bare .text with value := some "ab", parent := some ⟨2⟩ },
  { Record.bare .element with
    name := some (.plain "BODY"), parent := some ⟨1⟩, children := [⟨5⟩] },
  { Record.bare .text with value := some "cd", parent := some ⟨4⟩ },
  { Record.bare .element with
    name := some (.plain "body"), parent := some ⟨1⟩, children := [⟨7⟩] },
  { Record.bare .text with value := some "ef", parent := some ⟨6⟩ }]⟩

/-- The same document with other letters in upper case. Its nodes are numbered from the last one to
the first. -/
def remixed : Forest := ⟨#[
  { Record.bare .text with value := some "ef", parent := some ⟨1⟩ },
  { Record.bare .element with
    name := some (.plain "BodY"), parent := some ⟨6⟩, children := [⟨0⟩] },
  { Record.bare .text with value := some "cd", parent := some ⟨3⟩ },
  { Record.bare .element with
    name := some (.plain "body"), parent := some ⟨6⟩, children := [⟨2⟩] },
  { Record.bare .text with value := some "ab", parent := some ⟨5⟩ },
  { Record.bare .element with
    name := some ⟨some "SVG", "g", none⟩, parent := some ⟨6⟩, children := [⟨4⟩] },
  { Record.bare .element with
    name := some (.plain "HTML"), parent := some ⟨7⟩, children := [⟨5⟩, ⟨3⟩, ⟨1⟩] },
  { Record.bare .document with children := [⟨6⟩] }]⟩

/-- How the nodes of the two documents are identified. -/
def Counterpart (n n' : Node) : Prop := n' = ⟨7 - n.index⟩ ∧ mixed.Within ⟨0⟩ n

theorem mixed_rooted : Document.Rooted mixed ⟨⟨0⟩, .html⟩ := by decide

theorem remixed_wellFormed : remixed.WellFormed := by decide

theorem mixed_mirrored : mixed.Mirrored remixed ⟨0⟩ fun n => ⟨7 - n.index⟩ := by
  have wf := mixed_rooted.wellFormed
  have hroot : mixed.Has ⟨0⟩ := by decide
  exact ⟨wf.forall_within hroot (by decide), wf.forall_within hroot (by decide),
    wf.forall_within hroot (by decide)⟩

/-- The names of the nodes of both documents in lower case, in document order. -/
def foldedNames : List (Option Name) :=
  [none, some (.plain "html"), some ⟨some "svg", "g", none⟩, none, some (.plain "body"), none,
    some (.plain "body"), none]

theorem mixed_sameButCase : mixed.SameButCase remixed Counterpart := by
  have wf := mixed_rooted.wellFormed
  have hroot : mixed.Has ⟨0⟩ := by decide
  have hvalue : ∀ n, mixed.Within ⟨0⟩ n → remixed.value ⟨7 - n.index⟩ = mixed.value n :=
    wf.forall_within hroot (by decide)
  -- each side is evaluated against names that are written out, never against the other side
  have hmixed : (mixed.preorder ⟨0⟩).map (fun n => (mixed.name n).map Name.folded)
      = foldedNames := by
    decide +kernel
  have hremixed : (mixed.preorder ⟨0⟩).map (fun n => (remixed.name ⟨7 - n.index⟩).map Name.folded)
      = foldedNames := by
    decide +kernel
  refine ⟨⟨mixed_mirrored.identified wf remixed_wellFormed rfl rfl hroot (by decide), ?_⟩, ?_⟩
  · rintro n _ ⟨rfl, hn⟩
    exact hvalue n hn
  · rintro n _ ⟨rfl, hn⟩
    exact List.map_inj_left.mp (hremixed.trans hmixed.symm) n ((wf.mem_preorder_iff hroot).mpr hn)

/-- The address of the second body finds it in both documents, and a selection from the drawing to
that body has one address. -/
theorem evaluate_create_anyCase_mixed :
    ∃ path, elementPath mixed ⟨⟨0⟩, .html⟩ .standard ⟨6⟩ = .ok path ∧
      evaluate mixed ⟨⟨0⟩, .html⟩ .standard path = .ok [.node ⟨6⟩] ∧
      evaluate remixed ⟨⟨7⟩, .html⟩ .standard path = .ok [.node ⟨1⟩] ∧
      create remixed ⟨⟨7⟩, .html⟩ .standard (.range ⟨⟨⟨4⟩, 1⟩, ⟨⟨0⟩, 1⟩⟩)
        = create mixed ⟨⟨0⟩, .html⟩ .standard (.range ⟨⟨⟨3⟩, 1⟩, ⟨⟨7⟩, 1⟩⟩) := by
  have hwithin : ∀ n ∈ mixed.preorder ⟨0⟩, mixed.Within ⟨0⟩ n := fun n hn =>
    (mixed_rooted.wellFormed.mem_preorder_iff mixed_rooted.has_root).mp hn
  have hcounterpart : ∀ n ∈ mixed.preorder ⟨0⟩, Counterpart n ⟨7 - n.index⟩ := fun n hn =>
    ⟨rfl, hwithin n hn⟩
  obtain ⟨path, hpath, hfinds⟩ := elementPath_finds (o := .standard) mixed_rooted
    (mixed_rooted.isSole_of_check (by decide))
    (mixed_rooted.lexable_of_check (by decide +kernel))
    (mixed_rooted.noWildcard_of_check (by decide +kernel)) (hwithin ⟨6⟩ (by decide)) (by decide)
    (by decide)
  have hvalue : evaluate mixed ⟨⟨0⟩, .html⟩ .standard path = .ok [.node ⟨6⟩] :=
    hfinds.evaluate_plain
  have h := evaluate_create_anyCase mixed_rooted.wellFormed remixed_wellFormed mixed_sameButCase
    (hcounterpart ⟨0⟩ (by decide)) .standard
  have hvalue' : evaluate remixed ⟨⟨7⟩, .html⟩ .standard path = .ok [.node ⟨1⟩] := by
    have hagrees := h.1 path
    rw [hvalue] at hagrees
    generalize evaluate remixed ⟨⟨7⟩, .html⟩ .standard path = value' at hagrees
    cases hagrees with
    | ok hctx =>
      obtain ⟨_, _, ⟨hn⟩, hnil, rfl⟩ := List.forall₂_cons_left_iff.mp hctx
      rw [List.forall₂_nil_left_iff.mp hnil, hn.1]
      rfl
  have hselection : Selection.Corresponds Counterpart (.range ⟨⟨⟨3⟩, 1⟩, ⟨⟨7⟩, 1⟩⟩)
      (.range ⟨⟨⟨4⟩, 1⟩, ⟨⟨0⟩, 1⟩⟩) :=
    .range ⟨⟨hcounterpart ⟨3⟩ (by decide), rfl⟩, ⟨hcounterpart ⟨7⟩ (by decide), rfl⟩⟩
  exact ⟨path, hpath, hvalue, hvalue', h.2 _ _ hselection⟩

end Address

end TreePointer
