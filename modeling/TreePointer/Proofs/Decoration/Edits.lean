import TreePointer.Mark
import TreePointer.Proofs.Tree.Cutting

/-!
# What decorating does to a forest

Decoration is put into a forest in three ways: a node is wrapped in a marked element, a text is cut
around an empty marked element, and a text is written into a marked element. Each of them replaces a
stretch of the children of one node, and leaves all nodes outside that stretch as they were.

* `Replaced`: a stretch of children was replaced.
* `Entered`: a node was put into the sibling before it.
* `wrap_eq`, `insertMarked_eq`, `write_eq`: the three edits, where they are allowed.
* `wrap_refused`, `insertMarked_refused`: where they are not, nothing happens.
-/

namespace TreePointer.Forest

variable {f g : Forest} {p n : Node} {left right : List Node}

/-- The children `old` of a node, between `left` and `right`, were replaced by the children `new`.
The replaced ones may have changed; all other nodes that were there have not. -/
structure Replaced (f g : Forest) (p : Node) (left old new right : List Node) : Prop where
  wellFormed : g.WellFormed
  has : ∀ n, f.Has n → g.Has n
  children_old : f.children p = left ++ (old ++ right)
  children_new : g.children p = left ++ (new ++ right)
  children_eq : ∀ n, f.Has n → n ≠ p → g.children n = f.children n
  parent_eq : ∀ n, f.Has n → n ∉ old → g.parent n = f.parent n
  content_eq : ∀ n, f.Has n → n ∉ old → g.content n = f.content n

/-! ## Marked elements -/

/-- The attributes of an element that has both marks. -/
def markAttributes : List Attribute :=
  putAttribute (some Mark.uri) Mark.hide.attributeName Mark.set
    (putAttribute (some Mark.uri) Mark.ignore.attributeName Mark.set [])

/-- A marked element without links. -/
def markedRecord (tag : String) : Record :=
  { Record.bare .element with name := some (.ofString none tag), attributes := markAttributes }

theorem modify_push_fresh (f : Forest) (r : Record) (change : Record → Record) :
    (f.push r).1.modify f.fresh change = (f.push (change r)).1 := by
  simp only [push, modify, fresh, size, Forest.mk.injEq]
  refine Array.ext (by simp) fun i hi hi' => ?_
  rw [Array.getElem_modify, Array.getElem_push, Array.getElem_push]
  by_cases hin : i < f.records.size
  · have hne : f.records.size ≠ i := by omega
    simp only [hin, dif_pos, hne, if_neg, not_false_iff]
  · have heq : f.records.size = i := by
      rw [Array.size_modify, Array.size_push] at hi
      omega
    rw [dif_neg hin, dif_neg hin, if_pos heq]

theorem createMarked_eq (f : Forest) (tag : String) :
    f.createMarked tag = f.push (markedRecord tag) := by
  have h : (f.createElement tag) = f.push
      { Record.bare .element with name := some (.ofString none tag) } := rfl
  have hfresh : ∀ r, (f.push r).2 = f.fresh := fun _ => rfl
  unfold createMarked setMark setAttribute
  simp only [h, hfresh, modify_push_fresh]
  rfl

theorem characters_congr {m : Node} (h : g.content n = f.content m) :
    g.characters n = f.characters m := by
  rw [characters, value_eq_content, h, ← value_eq_content, ← characters]

theorem attribute?_congr {m : Node} (h : g.content n = f.content m) (uri : Option String)
    (localName : String) : g.attribute? n uri localName = f.attribute? m uri localName := by
  rw [attribute?, attributes_eq_content, h, ← attributes_eq_content, ← attribute?]

theorem kind_congr {m : Node} (h : g.content n = f.content m) : g.kind n = f.kind m := by
  rw [kind_eq_content, h, ← kind_eq_content]

theorem isText_congr {m : Node} (h : g.content n = f.content m) : g.isText n = f.isText m := by
  rw [isText, kind_congr h, isText]

theorem isElement_congr {m : Node} (h : g.content n = f.content m) :
    g.isElement n = f.isElement m := by
  rw [isElement, kind_congr h, isElement]

theorem hasMark_congr {m : Node} (h : g.content n = f.content m) (k : Mark) :
    g.hasMark k n = f.hasMark k m := by
  rw [hasMark, hasMark, isElement_congr h, attribute?_congr h]

theorem isIgnored_congr {m : Node} (h : g.content n = f.content m) :
    g.isIgnored n = f.isIgnored m := hasMark_congr h .ignore

theorem isMarked_congr {m : Node} (h : g.content n = f.content m) :
    g.isMarked n = f.isMarked m := by
  rw [isMarked, isMarked, isIgnored_congr h, isHidden, isHidden, hasMark_congr h]

section Marked

variable {x : Node} {tag : String} (h : g.content x = markedRecord tag)

include h

theorem isElement_of_marked : g.isElement x = true := by
  rw [isElement, kind_eq_content, h]
  rfl

theorem hasMark_of_marked (m : Mark) : g.hasMark m x = true := by
  have hattributes : g.attributes x = markAttributes := by rw [attributes_eq_content, h]; rfl
  rw [hasMark, isElement_of_marked h, attribute?, hattributes]
  cases m <;> decide

theorem isIgnored_of_marked : g.isIgnored x = true :=
  hasMark_of_marked h .ignore

theorem isMarked_of_marked : g.isMarked x = true := by
  rw [isMarked, isIgnored_of_marked h, Bool.true_or]

/-- A marked element has no id. -/
theorem attribute?_of_marked : g.attribute? x none "id" = none := by
  have hattributes : g.attributes x = markAttributes := by rw [attributes_eq_content, h]; rfl
  rw [attribute?, hattributes]
  decide

end Marked

/-! ## Growing by one node -/

/-- A new child is put between children that stay. -/
theorem Grown.replaced {x : Node} {r : Record} (h : Grown f g p x left right r) :
    Replaced f g p left [] [x] right := by
  have hne : ∀ n, f.Has n → n ≠ x := fun n hn => h.fresh_eq ▸ hn.ne_fresh
  refine ⟨h.wellFormed, fun n hn => (h.has_iff n).mpr (Or.inl hn), ?_, ?_, fun n _ hp => ?_,
    fun n hn _ => ?_, fun n hn _ => h.content_old n (hne n hn)⟩
  · rw [h.children_eq, List.nil_append]
  · rw [h.child_eq, if_pos rfl, List.singleton_append]
  · rw [h.child_eq, if_neg hp]
  · rw [h.parent_eq, if_neg (hne n hn)]

/-! ## Wrapping -/

theorem wrap_refused (h : f.parent n = none) (tag : String) :
    f.wrap n tag = (.error (.argument .wrapWithoutParent), f) := by
  rw [wrap, h]

/-- The node `n` was put into the node `x`, which stood empty before it among the children of
`p`. -/
structure Entered (f g : Forest) (p x n : Node) (left right : List Node) : Prop where
  wellFormed : g.WellFormed
  has_iff : ∀ m, g.Has m ↔ f.Has m
  content_eq : ∀ m, g.content m = f.content m
  parent_eq : ∀ m, m ≠ n → g.parent m = f.parent m
  children_around : g.children p = left ++ x :: right
  children_wrapper : g.children x = [n]
  children_eq : ∀ m, m ≠ p → m ≠ x → g.children m = f.children m

/-- A node that is put into the sibling before it is its only child then. -/
theorem append_sibling (wf : f.WellFormed) {x : Node} (hsplit : f.children p = left ++ x :: n :: right)
    (hk : (f.kind x).isContainer = true) (hempty : f.children x = []) :
    ∃ g, f.append x n = (.ok (), g) ∧ Entered f g p x n left right := by
  have hxp : x ∈ f.children p := hsplit ▸ List.mem_append_right _ List.mem_cons_self
  have hnp : n ∈ f.children p :=
    hsplit ▸ List.mem_append_right _ (List.mem_cons_of_mem _ List.mem_cons_self)
  have hx := wf.has_child hxp
  have hn := wf.has_child hnp
  have hnodup : (left ++ x :: n :: right).Nodup := hsplit ▸ wf.nodup_children p
  rw [List.nodup_append, List.nodup_cons, List.nodup_cons] at hnodup
  have hne : x ≠ n := fun e => hnodup.2.1.1 (e ▸ List.mem_cons_self)
  have hpx : p ≠ x := (wf.ne_of_mem_children hxp).symm
  have hout := wf.not_within_sibling hnp hxp hne
  have hslot : (f.detach n).slot? x none = some 0 := by
    rw [slot?, children_detach wf, hempty]
    rfl
  have happend : f.append x n = (.ok (), (f.detach n).attach x n 0) :=
    insertBefore_eq hk hout (by intro e; cases e) hslot
  have hwf := wf.insertBefore hx hn none
  rw [← append, happend] at hwf
  have hx' : (f.detach n).Has x := (has_of_size_eq (size_detach ..)).mpr hx
  have hn' : (f.detach n).Has n := (has_of_size_eq (size_detach ..)).mpr hn
  have hchildren : ∀ m, m ≠ x →
      ((f.detach n).attach x n 0).children m = (f.children m).filter (· != n) := by
    intro m hm
    rw [children_attach hx' hn', if_neg hm, children_detach wf]
  refine ⟨_, happend, ⟨hwf, fun m => ?_, fun m => ?_, fun m hm => ?_, ?_, ?_, fun m hmp hmx => ?_⟩⟩
  · rw [has_of_size_eq (size_attach ..), has_of_size_eq (size_detach ..)]
  · rw [content_attach hx' hn', content_of_detach]
  · rw [parent_attach hx' hn', if_neg hm, parent_of_detach, if_neg hm]
  · have hleft : n ∉ left := fun h =>
      hnodup.2.2 n h n (List.mem_cons_of_mem _ List.mem_cons_self) rfl
    rw [hchildren p hpx, hsplit, List.filter_append, filter_bne_of_not_mem hleft,
      List.filter_cons_of_pos (by simpa using hne), List.filter_cons_of_neg (by simp),
      filter_bne_of_not_mem hnodup.2.1.2.1]
  · rw [children_attach hx' hn', if_pos rfl, children_detach wf, hempty]
    rfl
  · rw [hchildren m hmx, filter_bne_of_not_mem]
    intro hc
    rw [wf.mem_children_iff, wf.parent_of_mem hnp, Option.some.injEq] at hc
    exact hmp hc.symm

/-- **Wrapping** puts a node into a marked element that takes its place. -/
theorem wrap_eq (wf : f.WellFormed) (hsplit : f.children p = left ++ n :: right) (tag : String) :
    ∃ g, f.wrap n tag = (.ok f.fresh, g) ∧ Replaced f g p left [n] [f.fresh] right ∧
      (∀ m, g.Has m ↔ f.Has m ∨ m = f.fresh) ∧ g.content f.fresh = markedRecord tag ∧
      g.children f.fresh = [n] ∧ g.content n = f.content n := by
  have hn : n ∈ f.children p := hsplit ▸ List.mem_append_right _ List.mem_cons_self
  have hp := wf.has_of_mem_children hn
  have hne := (wf.has_child hn).ne_fresh
  obtain ⟨g₁, hinsert, hg₁⟩ := insertBefore_push (r := markedRecord tag) wf rfl rfl hp
    (wf.container_of_mem p n hn) (some n) (fun e => hne (Option.some.inj e)) hsplit
    (slot?_head wf hsplit)
  have hsplit₁ : g₁.children p = left ++ f.fresh :: n :: right := by
    rw [hg₁.child_eq, if_pos rfl]
  have hk₁ : (g₁.kind f.fresh).isContainer = true := by
    rw [kind_eq_content, hg₁.content_new]
    rfl
  obtain ⟨g, happend, hg⟩ := append_sibling hg₁.wellFormed hsplit₁ hk₁ (hg₁.children_new hp)
  refine ⟨g, ?_, ⟨hg.wellFormed, fun m hm => ?_, hsplit, hg.children_around, fun m hm hmp => ?_,
    fun m hm hmn => ?_, fun m hm _ => ?_⟩, fun m => ?_, ?_, hg.children_wrapper, ?_⟩
  · simp only [wrap, wf.parent_of_mem hn, createMarked_eq]
    rw [show (f.push (markedRecord tag)).2 = f.fresh from rfl, hinsert]
    simp only [happend]
  · rw [hg.has_iff, hg₁.has_iff]
    exact Or.inl hm
  · rw [hg.children_eq m hmp hm.ne_fresh, hg₁.child_eq, if_neg hmp]
  · have hmn' : m ≠ n := fun e => hmn (e ▸ List.mem_singleton_self n)
    rw [hg.parent_eq m hmn', hg₁.parent_eq, if_neg hm.ne_fresh]
  · rw [hg.content_eq, hg₁.content_old m hm.ne_fresh]
  · rw [hg.has_iff, hg₁.has_iff]
  · rw [hg.content_eq, hg₁.content_new]
  · rw [hg.content_eq, hg₁.content_old n hne]

/-! ## Cutting a text around a marked element -/

theorem insertMarked_refused {t : Node} {k : Nat}
    (h : ¬ f.isText t = true ∨ f.parent t = none ∨ (f.characters t).length < k) (tag : String) :
    ∃ e, f.insertMarked t k tag = (.error e, f) := by
  unfold insertMarked
  by_cases ht : f.isText t = true
  · rw [if_neg (not_not_intro ht)]
    cases hp : f.parent t with
    | none => exact ⟨_, rfl⟩
    | some p =>
      have hk : (f.characters t).length < k := by
        rcases h with h | h | h
        · exact absurd ht h
        · rw [hp] at h
          cases h
        · exact h
      simp only [splitText_refused ht hk]
      exact ⟨_, rfl⟩
  · rw [if_pos ht]
    exact ⟨_, rfl⟩

/-- What cutting a text around a marked element does, besides replacing the text. -/
structure Marked (f g : Forest) (p t x u : Node) (k : Nat) (tag : String) : Prop where
  has_iff : ∀ m, g.Has m ↔ f.Has m ∨ m = x ∨ m = u
  not_has_marker : ¬ f.Has x
  not_has_tail : ¬ f.Has u
  marker_ne : x ≠ u
  content_marker : g.content x = markedRecord tag
  children_marker : g.children x = []
  content_tail : g.content u = textRecord ((f.characters t).drop k)
  parent_tail : g.parent u = some p
  parent_text : g.parent t = some p
  isText_text : g.isText t = true
  characters_text : g.characters t = (f.characters t).take k

/-- **Marking** a text that has a parent succeeds up to its end, and then it is a cut around the new
element. -/
theorem insertMarked_cut (wf : f.WellFormed) {t : Node} {k : Nat} (ht : f.isText t = true)
    (hk : k ≤ (f.characters t).length) (hp : f.parent t = some p) (tag : String) :
    ∃ x g, f.insertMarked t k tag = (.ok x, g) ∧ Cut f g t k [x] f.fresh ∧
      g.content x = markedRecord tag := by
  obtain ⟨g₁, hsplit, hcut⟩ := splitText_cut wf ht hk
  have wf₁ := hcut.wellFormed
  obtain ⟨left, right, hold, hnew⟩ := hcut.children_beside p hp
  have hnew' : g₁.children p = (left ++ [t]) ++ f.fresh :: right := by
    rw [hnew, List.append_assoc, List.singleton_append, List.nil_append]
  have hu : f.fresh ∈ g₁.children p := hnew' ▸ List.mem_append_right _ List.mem_cons_self
  obtain ⟨g, hinsert, hgrown⟩ := insertBefore_push (r := markedRecord tag) wf₁ rfl rfl
    (wf₁.has_of_mem_children hu) (wf₁.container_of_mem p _ hu) (some f.fresh)
    (ne_fresh_of_head wf₁ hnew') hnew' (slot?_head wf₁ hnew')
  refine ⟨g₁.fresh, g, ?_, hcut.grown ht hp wf hold hgrown, hgrown.content_new⟩
  rw [insertMarked, if_neg (not_not_intro ht)]
  simp only [hp, hsplit, createMarked_eq]
  rw [show (g₁.push (markedRecord tag)).2 = g₁.fresh from rfl, hinsert]

/-- The parent of a text that was cut has its parts, and what is between them, in its place. -/
theorem Cut.replaced {t u : Node} {k : Nat} {between : List Node} (hc : Cut f g t k between u)
    (wf : f.WellFormed) (hsplit : f.children p = left ++ t :: right) :
    Replaced f g p left [t] (t :: (between ++ [u])) right where
  wellFormed := hc.wellFormed
  has := fun m hm => (hc.has_iff m).mpr (Or.inl hm)
  children_old := by rw [hsplit, List.singleton_append]
  children_new := by
    have hp := wf.parent_of_mem (hsplit ▸ List.mem_append_right left List.mem_cons_self)
    obtain ⟨left', right', hold, hnew⟩ := hc.children_beside p hp
    obtain ⟨rfl, rfl⟩ :=
      append_cons_inj (hsplit ▸ wf.nodup_children p) (hsplit.symm.trans hold)
    simp only [hnew, List.cons_append, List.append_assoc, List.nil_append]
  children_eq := fun m hm hmp => hc.children_eq m hm fun h => hmp <| Option.some.inj <|
    h.symm.trans (wf.parent_of_mem (hsplit ▸ List.mem_append_right left List.mem_cons_self))
  parent_eq := fun m hm _ => hc.parent_eq m hm
  content_eq := fun m hm hmt => hc.content_eq m hm fun e => hmt (e ▸ List.mem_singleton_self t)

/-- A cut around a marked element marks the text. -/
theorem Cut.marked {t x u : Node} {k : Nat} {tag : String} (hc : Cut f g t k [x] u)
    (ht : f.isText t = true) (hp : f.parent t = some p) (hx : g.content x = markedRecord tag) :
    Marked f g p t x u k tag where
  has_iff := fun m => by rw [hc.has_iff, List.mem_singleton]
  not_has_marker := hc.not_has_new x (Or.inl (List.mem_singleton_self x))
  not_has_tail := hc.not_has_new u (Or.inr rfl)
  marker_ne := by
    rintro rfl
    have hu := hc.isText_tail
    rw [not_isText_of_isElement (isElement_of_marked hx)] at hu
    cases hu
  content_marker := hx
  children_marker := hc.children_new x (Or.inl (List.mem_singleton_self x))
  content_tail := hc.content_tail
  parent_tail := (hc.parent_new u (Or.inr rfl)).trans hp
  parent_text := (hc.parent_eq t (has_of_isText ht)).trans hp
  isText_text := (hc.isText_eq (has_of_isText ht)).trans ht
  characters_text := hc.characters_head

/-- **Marking** cuts a text and puts an empty marked element between the parts. -/
theorem insertMarked_eq (wf : f.WellFormed) {t : Node} {k : Nat} (ht : f.isText t = true)
    (hk : k ≤ (f.characters t).length) (hsplit : f.children p = left ++ t :: right)
    (tag : String) :
    ∃ g x, f.insertMarked t k tag = (.ok x, g) ∧
      Replaced f g p left [t] [t, x, f.fresh] right ∧ Marked f g p t x f.fresh k tag := by
  have hp := wf.parent_of_mem (hsplit ▸ List.mem_append_right left List.mem_cons_self)
  obtain ⟨x, g, hinsert, hcut, hx⟩ := insertMarked_cut wf ht hk hp tag
  exact ⟨g, x, hinsert, hcut.replaced wf hsplit, hcut.marked ht hp hx⟩

/-! ## Writing into a marked element -/

/-- **Writing** puts a new text behind the children of an element. -/
theorem write_eq (wf : f.WellFormed) (hp : f.isElement p = true) (text : String) :
    ∃ g, (f.addText text).1.append p f.fresh = (.ok (), g) ∧
      Replaced f g p (f.children p) [] [f.fresh] [] ∧ (∀ m, g.Has m ↔ f.Has m ∨ m = f.fresh) ∧
      g.content f.fresh = textRecord text.toList ∧ g.children f.fresh = [] := by
  have hk : f.kind p = .element := beq_iff_eq.mp hp
  have hhas := has_of_isElement hp
  have htext : f.addText text = f.push (textRecord text.toList) := by
    rw [textRecord, String.ofList_toList]
    rfl
  obtain ⟨g, hinsert, hg⟩ := insertBefore_push (r := textRecord text.toList) wf rfl rfl hhas
    (by rw [hk]; rfl) none (by intro e; cases e) (List.append_nil _).symm rfl
  exact ⟨g, by rw [htext]; exact hinsert, hg.replaced, hg.has_iff, hg.content_new,
    hg.children_new hhas⟩

end TreePointer.Forest
