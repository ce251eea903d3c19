import TreePointer.Address.Composition
import TreePointer.Proofs.Address.Route
import TreePointer.Proofs.Tree.FirstById
import TreePointer.Proofs.Tree.Spliced

/-!
# The address of an element leads back to it

The path of an element goes up through its effective ancestors and writes down a tag and a number
for each, up to the root or to an ancestor that has an id. Read as an expression it goes down the
same way. It needs a root, names that can be read, and no element that is named like the
wildcard.

A document may be made of any node. The way up ends at the top of the tree all the same, and an id
is looked up below the root.

* `Document.Rooted`, `Document.Lexable`, `Document.NoWildcard`: what the document has to provide.
* `referable`: the elements from whose ids an address may start.
* `pathStep_ok_iff`, `pathThrough_cons`, `elementPath_ok`: what there is to a step, a way up and an
  address that have been written.
* `elementPath_cases`: an address starts from one of these, or it is a path from the top of a tree.
* `elementPath_route`: the address of an element is a route that can be read, and leads back to it.
* `exists_elementPath`: names alone are enough for an address.
* `elementPath_finds`: the address of an element is an expression for that element.
-/

namespace TreePointer

/-! ## What a document has to provide -/

/-- The root of the document is a document node at the top of a tree. -/
structure Document.Rooted (f : Forest) (d : Document) : Prop where
  wellFormed : f.WellFormed
  has_root : f.Has d.root
  kind_root : f.kind d.root = .document
  parent_root : f.parent d.root = none

/-- The root is the only document node of its tree. -/
def Document.IsSole (f : Forest) (d : Document) : Prop :=
  ∀ n, f.Within d.root n → f.kind n = .document → n = d.root

/-- Tags are single names for the lexer, ids are single words, and numbers of children can be
read. -/
structure Document.Lexable (f : Forest) (d : Document) : Prop where
  tag : ∀ n, f.Within d.root n → f.isElement n = true →
    ∃ tag, d.tagOf? f n = some tag ∧ Lexer.IsTag tag
  id : ∀ n, f.Within d.root n → f.isElement n = true → ∀ id, f.attribute? n none "id" = some id →
    ∀ c ∈ id.toList, Unicode.isWhiteSpace c = false
  children : ∀ n, f.Within d.root n → (f.spliced n).length < Binary64.exactBound

/-- Every element has a name. -/
def Document.Named (f : Forest) (d : Document) : Prop :=
  ∀ n, f.Within d.root n → f.isElement n = true → ∃ tag, d.tagOf? f n = some tag

/-- The document that is made of another node, with the same rule for tag names. -/
abbrev Document.withRoot (d : Document) (r : Node) : Document := ⟨r, d.flavor⟩

theorem Document.tagOf?_withRoot (f : Forest) (d : Document) (r n : Node) :
    (d.withRoot r).tagOf? f n = d.tagOf? f n := rfl

theorem Document.Lexable.named {f : Forest} {d : Document} (h : d.Lexable f) : d.Named f :=
  fun n hn helement => (h.tag n hn helement).imp fun _ htag => htag.1

/-- No element is named like the wildcard. -/
def Document.NoWildcard (f : Forest) (d : Document) : Prop :=
  ∀ n, f.Within d.root n → d.tagOf? f n ≠ some "*"

theorem Document.NoWildcard.below {f : Forest} {d : Document} (h : d.NoWildcard f)
    (wf : f.WellFormed) {a : Node} (ha : f.Within d.root a) : (d.withRoot a).NoWildcard f :=
  fun n hn => h n (wf.within_trans ha hn)

/-! ## Tags -/

theorem toLower_toLower (c : Char) : c.toLower.toLower = c.toLower := by
  by_cases h : c.val ≥ 'A'.val ∧ c.val ≤ 'Z'.val
  · have hlo : 65 ≤ c.val.toNat := UInt32.le_iff_toNat_le.mp h.1
    have hhi : c.val.toNat ≤ 90 := UInt32.le_iff_toNat_le.mp h.2
    have hval : c.toLower.val = c.val + 32 := by
      unfold Char.toLower
      rw [dif_pos h]
      rfl
    have hnat : c.toLower.val.toNat = c.val.toNat + 32 := by
      rw [hval, UInt32.toNat_add]
      show (c.val.toNat + 32) % 2 ^ 32 = _
      omega
    generalize c.toLower = d at hnat
    unfold Char.toLower
    rw [dif_neg]
    rintro ⟨-, hle⟩
    have hle' : d.val.toNat ≤ 90 := UInt32.le_iff_toNat_le.mp hle
    omega
  · have e : c.toLower = c := by
      unfold Char.toLower
      rw [dif_neg h]
    rw [e, e]

theorem Document.normalizeTag_normalizeTag (d : Document) (tag : String) :
    d.normalizeTag (d.normalizeTag tag) = d.normalizeTag tag := by
  unfold normalizeTag
  cases d.flavor with
  | xml => rfl
  | html =>
    refine String.toList_injective ?_
    simp only [lowerAscii, String.toList_map, List.map_map]
    exact List.map_congr_left fun c _ => toLower_toLower c

/-- A tag is in the form in which it is compared. -/
theorem Document.normalizeTag_of_tagOf? {f : Forest} {d : Document} {n : Node} {tag : String}
    (h : d.tagOf? f n = some tag) : d.normalizeTag tag = tag := by
  unfold tagOf? at h
  obtain ⟨name, -, rfl⟩ := Option.map_eq_some_iff.mp h
  exact d.normalizeTag_normalizeTag name

/-- What has a tag is an element. -/
theorem Document.isElement_of_tagOf? {f : Forest} {d : Document} {n : Node} {tag : String}
    (h : d.tagOf? f n = some tag) : f.isElement n = true := by
  rw [tagOf?, Forest.tagName?] at h
  split at h
  · next helement => exact helement
  · cases h

/-- A name test accepts the elements with its tag. -/
theorem Expression.accepts_of_tag {f : Forest} {d : Document} {n : Node} {tag : String}
    (h : d.tagOf? f n = some tag) (hstar : tag ≠ "*") :
    Expression.accepts f d tag = d.hasTag f tag := by
  funext m
  have hne : (tag == "*") = false := beq_false_of_ne hstar
  rw [accepts, Document.normalizeTag_of_tagOf? h, hne, Bool.false_or, Document.hasTag]

/-- What has children is the root or an element. -/
theorem Document.IsSole.isElement {f : Forest} {d : Document} (hsole : d.IsSole f) {n : Node}
    (hn : f.Within d.root n) (hc : (f.kind n).isContainer = true) (hne : n ≠ d.root) :
    f.isElement n = true := by
  unfold Forest.isElement
  cases hk : f.kind n with
  | document => exact absurd (hsole n hn hk) hne
  | element => rfl
  | text => rw [hk] at hc; cases hc
  | comment => rw [hk] at hc; cases hc
  | instruction => rw [hk] at hc; cases hc

namespace Document.Rooted

variable {f : Forest} {d : Document} (hd : d.Rooted f)

include hd

theorem ancestors_root : f.ancestors d.root = [] := Forest.ancestors_of_top hd.parent_root

theorem within_of_mem_ancestors {n a : Node} (hn : f.Within d.root n) (ha : a ∈ f.ancestors n) :
    f.Within d.root a :=
  hd.wellFormed.within_of_mem_ancestors hd.parent_root hn ha

theorem not_isElement_root : f.isElement d.root = false := by
  rw [Forest.isElement, hd.kind_root]
  rfl

theorem ne_root_of_isElement {n : Node} (h : f.isElement n = true) : n ≠ d.root := by
  rintro rfl
  rw [hd.not_isElement_root] at h
  cases h

theorem not_isIgnored_root : f.isIgnored d.root = false := by
  rw [Forest.isIgnored, Forest.hasMark, hd.not_isElement_root, Bool.false_and]

/-- An effective ancestor is the root or an element. -/
theorem effectiveParent?_spec (hsole : d.IsSole f) {n p : Node} (hn : f.Within d.root n)
    (h : f.effectiveParent? n = some p) :
    f.Within d.root p ∧ f.isIgnored p = false ∧ (p = d.root ∨ f.isElement p = true) := by
  obtain ⟨hmem, hi⟩ := f.effectiveParent?_spec h
  have hp := hd.within_of_mem_ancestors hn hmem
  refine ⟨hp, hi, ?_⟩
  by_cases hne : p = d.root
  · exact Or.inl hne
  · obtain ⟨c, hc, -⟩ := hd.wellFormed.exists_child_within hmem
    exact Or.inr (hsole.isElement hp (hd.wellFormed.container_of_mem p c hc) hne)

/-- A node below the root has an effective parent. -/
theorem exists_effectiveParent? {n : Node} (hn : f.Within d.root n) (hne : n ≠ d.root) :
    ∃ p, f.effectiveParent? n = some p :=
  Forest.exists_effectiveParent? hd.not_isIgnored_root hn hne

end Document.Rooted

namespace Address

open Expression

variable {f : Forest} {d : Document} {o : Options} {r : Node}

/-! ## References by id -/

/-- What an id is put between. -/
theorem quoteId?_spec {id reference : String} (h : quoteId? id = some reference) :
    ∃ q, (q = '"' ∨ q = '\'') ∧ q ∉ id.toList ∧
      reference.toList = "id".toList ++ idArguments q id := by
  unfold quoteId? at h
  split at h
  · next hq =>
    cases h
    refine ⟨'"', Or.inl rfl, hq, ?_⟩
    have hopen : "id(\"".toList = "id".toList ++ ['(', '"'] := rfl
    have hclose : "\")".toList = ['"', ')'] := rfl
    rw [String.toList_append, String.toList_append, hopen, hclose, idArguments]
    simp only [List.append_assoc, List.cons_append, List.nil_append]
  · split at h
    · next hq =>
      cases h
      refine ⟨'\'', Or.inr rfl, hq, ?_⟩
      have hopen : "id('".toList = "id".toList ++ ['(', '\''] := rfl
      have hclose : "')".toList = ['\'', ')'] := rfl
      rw [String.toList_append, String.toList_append, hopen, hclose, idArguments]
      simp only [List.append_assoc, List.cons_append, List.nil_append]
    · cases h

/-- The id that an element is referred to by finds it. -/
theorem idReference?_spec {n : Node} {reference : String}
    (h : idReference? f d n = some reference) :
    ∃ id, f.isElement n = true ∧ f.attribute? n none "id" = some id ∧
      d.elementById? f id = some n ∧ quoteId? id = some reference := by
  unfold idReference? at h
  by_cases hmark : ¬ f.isElement n = true ∨ f.isIgnored n = true
  · rw [if_pos hmark] at h
    cases h
  · rw [if_neg hmark] at h
    rw [not_or, Decidable.not_not] at hmark
    cases hid : f.attribute? n none "id" with
    | none =>
      rw [hid] at h
      cases h
    | some id =>
      simp only [hid, Option.bind_eq_bind, Option.bind_some] at h
      by_cases hfound : d.elementById? f id = some n
      · exact ⟨id, hmark.1, rfl, hfound, by simpa [hfound] using h⟩
      · simp [hfound] at h

/-- A reference by id is the origin of a route, which starts at the element. -/
theorem idReference?_origin (hlex : (d.withRoot r).Lexable f) {e : Node} {reference : String}
    (he : f.Within r e) (h : idReference? f d e = some reference) :
    ∃ origin : Origin, reference.toList = origin.chars ∧ origin.Legible ∧ origin ≠ .root ∧
      origin.node? f d = some e := by
  obtain ⟨id, helement, hattribute, hfound, hquote⟩ := idReference?_spec h
  obtain ⟨q, hq, hmem, htext⟩ := quoteId?_spec hquote
  have hne := Document.ne_empty_of_elementById? hfound
  have hwhite := hlex.id e he helement id hattribute
  refine ⟨.reference q id, htext, ⟨hq, hmem, hne, hwhite⟩, fun h => ?_, hfound⟩
  cases h

/-- The elements from whose ids the address of an element may start: those of the element itself and
of what is above it, as far as the options allow it. -/
def referable (f : Forest) (d : Document) (o : Options) (e : Node) : List Node :=
  ((if o.preferIds then [e] else []) ++ if o.ancestorIds then f.effectiveAncestors e else []).filter
    fun a => (idReference? f d a).isSome

theorem mem_referable {e a : Node} :
    a ∈ referable f d o e ↔
      (a = e ∧ o.preferIds = true ∨ a ∈ f.effectiveAncestors e ∧ o.ancestorIds = true) ∧
        (idReference? f d a).isSome = true := by
  rw [referable, List.mem_filter, List.mem_append, List.mem_ite_nil_right,
    List.mem_ite_nil_right, List.mem_singleton, and_comm (a := o.preferIds = true),
    and_comm (a := o.ancestorIds = true)]

/-- What an address may start from is in the document. -/
theorem within_of_mem_referable (wf : f.WellFormed) (hroot : f.Has d.root) {e a : Node}
    (ha : a ∈ referable f d o e) : f.Within d.root a := by
  obtain ⟨reference, href⟩ := Option.isSome_iff_exists.mp (mem_referable.mp ha).2
  obtain ⟨id, -, -, hfound, -⟩ := idReference?_spec href
  exact (wf.mem_preorder_iff hroot).mp (Document.elementById?_spec hfound).1

/-! ## Paths -/

theorem pathChars_intercalate (s : PathStep) (steps : List PathStep) :
    '/' :: ['/'].intercalate (((s :: steps).map PathStep.text).map String.toList)
      = pathChars (s :: steps) := by
  induction steps generalizing s with
  | nil => simp [pathChars]
  | cons next steps ih =>
    rw [pathChars_cons, ← ih next]
    simp only [List.map_cons, List.intercalate_cons_cons, List.cons_append, List.append_assoc,
      List.nil_append]

theorem toList_path {start : String} {steps : List PathStep} (h : steps ≠ []) :
    (start ++ "/" ++ "/".intercalate (steps.map PathStep.text)).toList
      = start.toList ++ pathChars steps := by
  have hslash : "/".toList = ['/'] := rfl
  cases steps with
  | nil => exact absurd rfl h
  | cons s steps =>
    rw [String.toList_append, String.toList_append, String.toList_intercalate, hslash,
      List.append_assoc, List.singleton_append, pathChars_intercalate]

/-- A step is written for a node that has a tag and is counted among the children. -/
theorem pathStep_ok_iff {n p : Node} {text : String} :
    pathStep f d p n = .ok text ↔ ∃ tag i, d.tagOf? f n = some tag ∧
      f.positionOf? p n (d.hasTag f tag) = some i ∧ text = (PathStep.mk tag i).text := by
  constructor
  · intro h
    obtain ⟨tag, htag, h⟩ := exists_of_bind h
    unfold tagOf at htag
    split at htag
    · next found hfound =>
      cases htag
      split at h
      · next i hposition =>
        cases h
        exact ⟨tag, i, hfound, hposition, rfl⟩
      · cases h
    · cases htag
  · rintro ⟨tag, i, htag, hposition, rfl⟩
    simp only [pathStep, tagOf, htag, bind, Except.bind, hposition]
    rfl

/-- The way up ends at an ancestor that is referred to by its id, or it goes on from there. -/
theorem pathThrough_cons {n p : Node} {above : List Node} {below texts : List String}
    {start : String} (h : pathThrough f d o n below (p :: above) = .ok (start, texts)) :
    ∃ text, pathStep f d p n = .ok text ∧
      (o.ancestorIds = true ∧ idReference? f d p = some start ∧ texts = text :: below ∨
        (o.ancestorIds = true → idReference? f d p = none) ∧
          pathThrough f d o p (text :: below) above = .ok (start, texts)) := by
  obtain ⟨text, hstep, h⟩ := exists_of_bind h
  refine ⟨text, hstep, ?_⟩
  dsimp only at h
  split at h
  · next reference href =>
    cases h
    rw [Option.ite_none_right_eq_some, Bool.and_eq_true] at href
    exact .inl ⟨href.1.1, href.2, rfl⟩
  · next href =>
    refine .inr ⟨fun hids => ?_, h⟩
    -- what is no element has no reference
    refine Option.eq_none_iff_forall_ne_some.mpr fun reference hreference => ?_
    obtain ⟨_, helement, -⟩ := idReference?_spec hreference
    rw [hids, helement, hreference] at href
    cases href

/-- The address of an element is a reference by its id, or the steps that lead to it. -/
theorem elementPath_ok {n : Node} {path : String} (hkind : f.kind n ≠ .document)
    (h : elementPath f d o n = .ok path) :
    o.preferIds = true ∧ idReference? f d n = some path ∨
      (o.preferIds = true → idReference? f d n = none) ∧ ∃ start texts,
        pathThrough f d o n [] (f.effectiveAncestors n) = .ok (start, texts) ∧ texts ≠ [] ∧
          path = start ++ "/" ++ "/".intercalate texts := by
  rw [elementPath, if_neg hkind] at h
  split at h
  · next reference href =>
    cases h
    exact .inl (Option.ite_none_right_eq_some.mp href)
  · next href =>
    obtain ⟨⟨start, texts⟩, hthrough, h⟩ := exists_of_bind h
    refine .inr ⟨ite_eq_right_iff.mp href, start, texts, hthrough, ?_⟩
    dsimp only at h
    split at h
    · cases h
    · next hempty =>
      cases h
      exact ⟨fun hnil => hempty (List.isEmpty_iff.mpr hnil), rfl⟩

/-- One step of a path is a legible step, which leads from the effective parent to the node. -/
theorem pathStep_spec (hlex : (d.withRoot r).Lexable f) {n p : Node} (hn : f.Within r n)
    (hp : f.Within r p) {text : String} (h : pathStep f d p n = .ok text) :
    ∃ s : PathStep, text = s.text ∧ s.Legible ∧
      (d.tagOf? f n ≠ some "*" → s.child? f d p = some n) := by
  obtain ⟨tag, i, htag, hposition, rfl⟩ := pathStep_ok_iff.mp h
  have helement := Document.isElement_of_tagOf? htag
  obtain ⟨hpos, hle, hfound⟩ := Forest.positionOf?_spec hposition
  have hlegible : Lexer.IsTag tag := by
    obtain ⟨tag', htag', his⟩ := hlex.tag n hn helement
    rw [d.tagOf?_withRoot, htag, Option.some.injEq] at htag'
    exact htag' ▸ his
  have hbound := Nat.lt_of_le_of_lt hle (hlex.children p hp)
  refine ⟨⟨tag, i⟩, rfl, ⟨hlegible, hpos, hbound⟩, fun hstar => ?_⟩
  have haccept : d.hasTag f tag n = true := by
    rw [Document.hasTag, helement, htag, Bool.true_and]
    exact beq_self_eq_true _
  have hne : tag ≠ "*" := fun e => hstar (e ▸ htag)
  rw [PathStep.child?, accepts_of_tag htag hne, hfound haccept]

/-- The steps through the effective ancestors lead where the steps below lead. They start from the
nearest of them that is referred to by its id, and from the top of the tree if there is none. -/
theorem pathThrough_cases (wf : f.WellFormed) (hlex : (d.withRoot r).Lexable f)
    (htop : f.parent r = none) (hi : f.isIgnored r = false) {m : Node} (above : List Node) :
    ∀ (n : Node) (below : List PathStep) (start : String) (texts : List String),
      f.Within r n → f.effectiveAncestors n = above → (∀ s ∈ below, s.Legible) →
      ((d.withRoot n).NoWildcard f → descend? f d below (some n) = some m) →
      pathThrough f d o n (below.map PathStep.text) above = .ok (start, texts) →
      ∃ (a : Node) (steps : List PathStep), texts = steps.map PathStep.text ∧
        (∀ s ∈ steps, s.Legible) ∧
        ((d.withRoot a).NoWildcard f → descend? f d steps (some a) = some m) ∧
        (a ∈ above ∧ o.ancestorIds = true ∧ idReference? f d a = some start ∨
          a = r ∧ start = "" ∧ steps.length = below.length + above.length ∧
            (o.ancestorIds = true → ∀ p ∈ above, idReference? f d p = none)) := by
  induction above with
  | nil =>
    intro n below start texts hn habove hbelow hto h
    cases h
    have hroot : n = r := by
      refine Decidable.byContradiction fun hne => ?_
      obtain ⟨p, hp⟩ := Forest.exists_effectiveParent? hi hn hne
      rw [Forest.effectiveParent?_eq, habove] at hp
      cases hp
    exact ⟨n, below, rfl, hbelow, hto, .inr ⟨hroot, rfl, rfl, fun _ => List.forall_mem_nil _⟩⟩
  | cons p above ih =>
    intro n below start texts hn habove hbelow hto h
    obtain ⟨hp, hpabove⟩ := wf.effectiveAncestors_eq_cons habove
    have hmem := (f.effectiveParent?_spec hp).1
    have hpr := wf.within_of_mem_ancestors htop hn hmem
    obtain ⟨text, hstep, hrest⟩ := pathThrough_cons h
    obtain ⟨s, rfl, hs, hchild⟩ := pathStep_spec hlex hn hpr hstep
    have hlegible : ∀ s' ∈ s :: below, s'.Legible := List.forall_mem_cons.mpr ⟨hs, hbelow⟩
    have hto' : (d.withRoot p).NoWildcard f → descend? f d (s :: below) (some p) = some m := by
      intro hstar
      rw [← hto (hstar.below wf (.inr hmem)), ← hchild (hstar n (.inr hmem))]
      rfl
    rcases hrest with ⟨hids, hreference, rfl⟩ | ⟨hnone, hrest⟩
    · exact ⟨p, s :: below, rfl, hlegible, hto', .inl ⟨List.mem_cons_self, hids, hreference⟩⟩
    · obtain ⟨a, steps, htexts, hsteps, hdown, hcase⟩ :=
        ih p (s :: below) start texts hpr hpabove hlegible hto' hrest
      refine ⟨a, steps, htexts, hsteps, hdown, hcase.imp ?_ ?_⟩
      · exact fun ⟨ha, hids, hreference⟩ => ⟨List.mem_cons_of_mem p ha, hids, hreference⟩
      · rintro ⟨ha, hstart, hlength, hnone'⟩
        refine ⟨ha, hstart, ?_, fun hids => List.forall_mem_cons.mpr ⟨hnone hids, hnone' hids⟩⟩
        rw [hlength, List.length_cons, List.length_cons]
        omega

/-- **What the address of an element is.** It starts from the id of an element that it may start
from, or it is the path from the top of the tree, if there is no such element. -/
theorem elementPath_cases (wf : f.WellFormed) (hlex : (d.withRoot r).Lexable f)
    (htop : f.parent r = none) (hi : f.isIgnored r = false) {n : Node} (hn : f.Within r n)
    (helement : f.isElement n = true) {path : String} (h : elementPath f d o n = .ok path) :
    (∃ (a : Node) (route : Route), a ∈ referable f d o n ∧ path.toList = route.chars ∧
        route.Legible ∧ route.origin.node? f d = some a ∧
        ((d.withRoot a).NoWildcard f → route.node? f d = some n)) ∨
      referable f d o n = [] ∧ ∃ steps : List PathStep, path.toList = pathChars steps ∧
        (∀ s ∈ steps, s.Legible) ∧ steps ≠ [] ∧
        steps.length = (f.effectiveAncestors n).length ∧
        ((d.withRoot r).NoWildcard f → descend? f d steps (some r) = some n) := by
  have hkind := Forest.kind_ne_document_of_isElement helement
  rcases elementPath_ok hkind h with ⟨hprefer, href⟩ | ⟨href, start, texts, hthrough, hne, rfl⟩
  · obtain ⟨origin, hchars, horigin, hne, hnode⟩ := idReference?_origin hlex hn href
    refine .inl ⟨n, ⟨origin, []⟩, mem_referable.mpr ⟨.inl ⟨rfl, hprefer⟩, ?_⟩, ?_,
      ⟨horigin, List.forall_mem_nil _, fun e => absurd e hne⟩, hnode, fun _ => hnode⟩
    · rw [href]
      rfl
    · rw [hchars, Route.chars, pathChars, List.flatMap_nil, List.append_nil]
  · obtain ⟨a, steps, rfl, hsteps, hdown, hcase⟩ := pathThrough_cases (m := n) wf hlex htop hi
      (f.effectiveAncestors n) n [] start texts hn rfl (List.forall_mem_nil _) (fun _ => rfl)
      hthrough
    have hne : steps ≠ [] := fun e => hne (e ▸ rfl)
    rcases hcase with ⟨ha, hids, hreference⟩ | ⟨rfl, rfl, hlength, hnone⟩
    · have har := wf.within_of_mem_ancestors htop hn (List.mem_filter.mp ha).1
      obtain ⟨origin, hchars, horigin, horiginne, hnode⟩ := idReference?_origin hlex har hreference
      refine .inl ⟨a, ⟨origin, steps⟩, mem_referable.mpr ⟨.inr ⟨ha, hids⟩, ?_⟩, ?_,
        ⟨horigin, hsteps, fun e => absurd e horiginne⟩, hnode, fun hstar => ?_⟩
      · rw [hreference]
        rfl
      · rw [toList_path hne, hchars, Route.chars]
      · rw [Route.node?, hnode]
        exact hdown hstar
    · refine .inr ⟨List.eq_nil_iff_forall_not_mem.mpr fun a ha => ?_, steps, ?_, hsteps, hne,
        hlength.trans (Nat.zero_add _), hdown⟩
      · obtain ⟨⟨rfl, hids⟩ | ⟨hmem, hids⟩, hsome⟩ := mem_referable.mp ha
        · rw [href hids] at hsome
          cases hsome
        · rw [hnone hids a hmem] at hsome
          cases hsome
      · rw [toList_path hne]
        rfl

/-- The address of an element is a route that starts in the document. -/
theorem elementPath_start (hd : d.Rooted f) (hlex : d.Lexable f) {n : Node}
    (hn : f.Within d.root n) (helement : f.isElement n = true) {path : String}
    (h : elementPath f d o n = .ok path) :
    ∃ r : Route, path.toList = r.chars ∧ r.Legible ∧ r.Starts f d ∧
      (d.NoWildcard f → r.node? f d = some n) := by
  rcases elementPath_cases hd.wellFormed hlex hd.parent_root hd.not_isIgnored_root hn helement h
    with ⟨a, route, ha, hchars, hlegible, hnode, hto⟩ | ⟨-, steps, hchars, hsteps, hne, -, hto⟩
  · have haroot := within_of_mem_referable hd.wellFormed hd.has_root ha
    exact ⟨route, hchars, hlegible, ⟨a, hnode⟩, fun hstar => hto (hstar.below hd.wellFormed haroot)⟩
  · exact ⟨⟨.root, steps⟩, hchars, ⟨trivial, hsteps, fun _ => hne⟩, ⟨d.root, rfl⟩, hto⟩

/-- **The address of an element is a route** that can be read and, unless an element is named like
the wildcard, leads back to the element. -/
theorem elementPath_route (hd : d.Rooted f) (hlex : d.Lexable f) {n : Node}
    (hn : f.Within d.root n) (helement : f.isElement n = true) {path : String}
    (h : elementPath f d o n = .ok path) :
    ∃ r : Route, path.toList = r.chars ∧ r.Legible ∧
      (d.NoWildcard f → r.node? f d = some n) :=
  have ⟨r, hchars, hlegible, _, hnode⟩ := elementPath_start hd hlex hn helement h
  ⟨r, hchars, hlegible, hnode⟩

/-! ## Every element has an address -/

section Named

variable (hd : d.Rooted f) (hsole : d.IsSole f) (hnamed : d.Named f)

include hd hsole hnamed

/-- The steps through the effective ancestors end at the root or at an id. -/
theorem exists_pathThrough (above : List Node) :
    ∀ (n : Node) (below : List String), f.Within d.root n → f.isElement n = true →
      f.isIgnored n = false → f.effectiveAncestors n = above →
      ∃ start steps, pathThrough f d o n below above = .ok (start, steps) ∧ steps ≠ [] := by
  have wf := hd.wellFormed
  induction above with
  | nil =>
    intro n below hn helement _ habove
    obtain ⟨p, hp⟩ := hd.exists_effectiveParent? hn (hd.ne_root_of_isElement helement)
    rw [Forest.effectiveParent?_eq, habove] at hp
    cases hp
  | cons p above ih =>
    intro n below hn helement hi habove
    obtain ⟨hp, hpabove⟩ := wf.effectiveAncestors_eq_cons habove
    obtain ⟨hpr, hpi, hpkind⟩ := hd.effectiveParent?_spec hsole hn hp
    obtain ⟨tag, htag⟩ := hnamed n hn helement
    have haccept : d.hasTag f tag n = true := by
      rw [Document.hasTag, helement, htag, Bool.true_and]
      exact beq_self_eq_true _
    obtain ⟨i, -, -, hposition, -⟩ := wf.exists_position hi hp haccept
    have hstep := pathStep_ok_iff.mpr ⟨tag, i, htag, hposition, rfl⟩
    simp only [pathThrough, hstep, bind, Except.bind]
    cases (if (o.ancestorIds && f.isElement p) = true then idReference? f d p else none) with
    | some reference => exact ⟨reference, _, rfl, List.cons_ne_nil _ _⟩
    | none =>
      rcases hpkind with rfl | hpelement
      · have hend : above = [] := by
          rw [← hpabove, Forest.effectiveAncestors, hd.ancestors_root, List.filter_nil]
        subst hend
        exact ⟨"", _, rfl, List.cons_ne_nil _ _⟩
      · exact ih p _ hpr hpelement hpi hpabove

/-- **An element with a name** has an address, be there a reading of the name or not. -/
theorem exists_elementPath {n : Node} (hn : f.Within d.root n) (helement : f.isElement n = true)
    (hi : f.isIgnored n = false) : ∃ path, elementPath f d o n = .ok path := by
  have hkind := Forest.kind_ne_document_of_isElement helement
  rw [elementPath, if_neg hkind]
  cases (if o.preferIds = true then idReference? f d n else none) with
  | some reference => exact ⟨reference, rfl⟩
  | none =>
    obtain ⟨start, steps, hthrough, hsteps⟩ := exists_pathThrough (o := o) hd hsole hnamed
      (f.effectiveAncestors n) n [] hn helement hi rfl
    refine ⟨start ++ "/" ++ "/".intercalate steps, ?_⟩
    simp only [hthrough, bind, Except.bind]
    rw [if_neg (by simpa using hsteps)]

end Named

/-- **The address of an element** is an expression for that element, from wherever it is read. -/
theorem elementPath_finds (hd : d.Rooted f) (hsole : d.IsSole f) (hlex : d.Lexable f)
    (hstar : d.NoWildcard f) {n : Node} (hn : f.Within d.root n) (helement : f.isElement n = true)
    (hi : f.isIgnored n = false) :
    ∃ path, elementPath f d o n = .ok path ∧ Finds f d path.toList [.node n] := by
  obtain ⟨path, hpath⟩ := exists_elementPath (o := o) hd hsole hlex.named hn helement hi
  obtain ⟨r, hchars, hlegible, hnode⟩ := elementPath_route hd hlex hn helement hpath
  refine ⟨path, hpath, ?_⟩
  rw [hchars]
  have hfinds := Route.finds hlegible f d
  rwa [hnode hstar] at hfinds

end Address

end TreePointer
