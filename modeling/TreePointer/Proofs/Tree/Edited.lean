import Mathlib.Data.List.Nodup
import Mathlib.Logic.Relation
import TreePointer.Mark
import TreePointer.Proofs.Tree.Editing

/-!
# Forests that are built and edited

A forest is built bottom up: texts, comments and instructions by themselves, then containers around
what was built before. As long as no node is put into two containers, or into one of them twice, the
links and the child lists of what is built agree. Edits keep it so, and they do so when they fail:
each of them is made of small ones, and none of these stops between two changes that belong
together.

* `Built`: what is built, every node used once. `Built.wellFormed`: such a forest is well formed.
* `Edit`: the edits, with any arguments. `Edit.run`: the forest that one leaves.
* `Edit.run_keeps`: an edit keeps a forest well formed, whether it succeeds or fails.
* `edited_links`: what links and child lists say after any number of edits.
-/

namespace TreePointer.Forest

variable {f g : Forest}

/-! ## Building -/

/-- The forest was built by adding node after node. The nodes in the list have been used: they are
children of containers. No node is used again. -/
inductive Built : Forest → List Node → Prop
  | empty : Built .empty []
  | text {f : Forest} {used : List Node} (h : Built f used) (value : String) :
      Built (f.addText value).1 used
  | comment {f : Forest} {used : List Node} (h : Built f used) (value : String) :
      Built (f.addComment value).1 used
  | instruction {f : Forest} {used : List Node} (h : Built f used) (target value : String) :
      Built (f.addInstruction target value).1 used
  | element {f : Forest} {used : List Node} (h : Built f used) (name : Name)
      (attributes : List Attribute) (children : List Node) (has : ∀ c ∈ children, f.Has c)
      (once : (children ++ used).Nodup) :
      Built (f.addElement name attributes children).1 (children ++ used)
  | document {f : Forest} {used : List Node} (h : Built f used) (children : List Node)
      (has : ∀ c ∈ children, f.Has c) (once : (children ++ used).Nodup) :
      Built (f.addDocument children).1 (children ++ used)

section SetParents

variable {ns : List Node} (h : ∀ c ∈ ns, f.Has c) (p : Option Node)

@[simp] theorem size_setParents (f : Forest) (ns : List Node) :
    (ns.foldl (fun f c => f.setParent p c) f).size = f.size := by
  induction ns generalizing f with
  | nil => rfl
  | cons n ns ih => rw [List.foldl_cons, ih, setParent, size_modify]

include h

/-- Giving some nodes a parent changes nothing else. -/
theorem record_setParents (m : Node) :
    (ns.foldl (fun f c => f.setParent p c) f).record m
      = if m ∈ ns then { f.record m with parent := p } else f.record m := by
  induction ns generalizing f with
  | nil => simp
  | cons n ns ih =>
    have hn : f.Has n := h n List.mem_cons_self
    have hns : ∀ c ∈ ns, (f.setParent p n).Has c := fun c hc =>
      (has_of_size_eq (size_modify ..)).mpr (h c (List.mem_cons_of_mem n hc))
    rw [List.foldl_cons, ih hns, setParent, record_modify hn]
    by_cases hmn : m = n
    · subst hmn
      simp
    · simp [hmn]

end SetParents

section Container

variable {r : Record} {children : List Node} (has : ∀ c ∈ children, f.Has c)

theorem size_addContainer : (f.addContainer r children).1.size = f.size + 1 :=
  (size_setParents ..).trans (Array.size_push _)

include has

/-- A container that is added is the parent of its children; the other records stay. -/
theorem record_addContainer (m : Node) :
    (f.addContainer r children).1.record m
      = if m = f.fresh then { r with children := children }
        else if m ∈ children then { f.record m with parent := some f.fresh }
        else f.record m := by
  have has' : ∀ c ∈ children, (f.push { r with children := children }).1.Has c := fun c hc =>
    (has_push _).mpr (Or.inl (has c hc))
  have hrecord := record_setParents has' (some f.fresh) m
  have hadd : (f.addContainer r children).1.record m
      = if m ∈ children then
          { (f.push { r with children := children }).1.record m with parent := some f.fresh }
        else (f.push { r with children := children }).1.record m := hrecord
  rw [hadd]
  by_cases hm : m = f.fresh
  · have hnot : m ∉ children := fun hc => (has m hc).ne_fresh hm
    rw [if_neg hnot, if_pos hm, hm, record_push_fresh]
  · rw [if_neg hm, record_push_of_ne _ hm]

theorem parent_addContainer (hr : r.parent = none) (m : Node) :
    (f.addContainer r children).1.parent m
      = if m ∈ children then some f.fresh else f.parent m := by
  rw [parent, record_addContainer has]
  by_cases hm : m = f.fresh
  · have hnot : m ∉ children := fun hc => (has m hc).ne_fresh hm
    rw [if_pos hm, if_neg hnot, hm, parent_of_not_has f.not_has_fresh]
    exact hr
  · rw [if_neg hm]
    split <;> rfl

theorem children_addContainer (m : Node) :
    (f.addContainer r children).1.children m
      = if m = f.fresh then children else f.children m := by
  rw [Forest.children, record_addContainer has]
  split
  · rfl
  · split <;> rfl

theorem kind_addContainer (m : Node) :
    (f.addContainer r children).1.kind m = if m = f.fresh then r.kind else f.kind m := by
  rw [kind, record_addContainer has]
  split
  · rfl
  · split <;> rfl

/-- Parents do not run in a circle once a container was added: it has no parent, and above all
other nodes there is what there was, or it. -/
theorem WellFormed.up_ends_addContainer (wf : f.WellFormed) (hr : r.parent = none) :
    WellFounded fun q m => (f.addContainer r children).1.parent m = some q := by
  have hparent := parent_addContainer (r := r) has hr
  have htopmost : Acc (fun q m => (f.addContainer r children).1.parent m = some q) f.fresh := by
    refine ⟨_, fun q hq => ?_⟩
    have hnot : f.fresh ∉ children := fun hc => (has _ hc).ne_fresh rfl
    rw [hparent, if_neg hnot, parent_of_not_has f.not_has_fresh] at hq
    cases hq
  refine ⟨fun m => ?_⟩
  induction m using wf.up_ends.induction with
  | _ m ih =>
    refine ⟨m, fun q hq => ?_⟩
    rw [hparent] at hq
    split at hq
    · cases hq
      exact htopmost
    · exact ih q hq

/-- Child lists and parents agree once a container was put around nodes without parent. -/
theorem WellFormed.mem_children_addContainer (wf : f.WellFormed) (hr : r.parent = none)
    (htop : ∀ c ∈ children, f.parent c = none) (p c : Node) :
    c ∈ (f.addContainer r children).1.children p ↔
      (f.addContainer r children).1.parent c = some p := by
  have hnew : ∀ m, f.parent m ≠ some f.fresh := fun m h =>
    f.not_has_fresh (wf.has_parent m _ h)
  rw [children_addContainer has, parent_addContainer has hr]
  by_cases hp : p = f.fresh <;> by_cases hc : c ∈ children
  · simp [hp, hc]
  · simp [hp, hc, hnew]
  · have hnot : c ∉ f.children p := by
      rw [wf.mem_children_iff, htop c hc]
      exact (Option.some_ne_none _).symm
    simp [hp, hc, hnot, Ne.symm hp]
  · simp [hp, hc, wf.mem_children_iff]

/-- **A container around nodes without parent**, each taken once, keeps a forest well formed. -/
theorem WellFormed.addContainer (wf : f.WellFormed) (hr : r.parent = none)
    (hk : r.kind.isContainer = true) (htop : ∀ c ∈ children, f.parent c = none)
    (hnodup : children.Nodup) : (f.addContainer r children).1.WellFormed := by
  refine ⟨fun m p h => ?_, wf.mem_children_addContainer has hr htop, fun p => ?_,
    wf.up_ends_addContainer has hr, fun p c h => ?_⟩
  · rw [Has, size_addContainer]
    rw [parent_addContainer has hr] at h
    split at h
    · cases h
      exact Nat.lt_succ_self _
    · exact Nat.lt_succ_of_lt (wf.has_parent m p h)
  · rw [children_addContainer has]
    split
    · exact hnodup
    · exact wf.nodup_children p
  · rw [kind_addContainer has]
    rw [children_addContainer has] at h
    split at h
    · next hp => rwa [if_pos hp]
    · next hp =>
      rw [if_neg hp]
      exact wf.container_of_mem p c h

end Container

theorem wellFormed_empty : Forest.empty.WellFormed := by
  have hparent : ∀ n, Forest.empty.parent n = none := fun n =>
    parent_of_not_has (Nat.not_lt_zero _)
  have hchildren : ∀ n, Forest.empty.children n = [] := fun n =>
    children_of_not_has (Nat.not_lt_zero _)
  refine ⟨fun n p hp => ?_, fun p c => ?_, fun p => ?_, ⟨fun n => ⟨n, fun p hp => ?_⟩⟩,
    fun p c hc => ?_⟩
  · rw [hparent] at hp
    cases hp
  · simp [hparent, hchildren]
  · simp [hchildren]
  · rw [hparent] at hp
    cases hp
  · rw [hchildren] at hc
    cases hc

/-- A node that was not used has no parent. -/
theorem Built.invariant {used : List Node} (h : Built f used) :
    f.WellFormed ∧ ∀ n, n ∉ used → f.parent n = none := by
  -- a record without links is a tree of its own, and it is not used
  have hpush : ∀ {f : Forest} {used : List Node} {r : Record}, r.parent = none → r.children = [] →
      (f.WellFormed ∧ ∀ n, n ∉ used → f.parent n = none) →
      (f.push r).1.WellFormed ∧ ∀ n, n ∉ used → (f.push r).1.parent n = none :=
    fun hp hc ⟨wf, htop⟩ => ⟨wf.push hp hc, fun n hn => by rw [parent_push hp, htop n hn]⟩
  have hcontainer : ∀ {f : Forest} {used children : List Node} {r : Record}, r.parent = none →
      r.kind.isContainer = true → (∀ c ∈ children, f.Has c) → (children ++ used).Nodup →
      (f.WellFormed ∧ ∀ n, n ∉ used → f.parent n = none) →
      (f.addContainer r children).1.WellFormed ∧
        ∀ n, n ∉ children ++ used → (f.addContainer r children).1.parent n = none := by
    intro f used children r hr hk has once ⟨wf, htop⟩
    rw [List.nodup_append] at once
    refine ⟨wf.addContainer has hr hk (fun c hc => htop c fun hu => once.2.2 c hc c hu rfl) once.1,
      fun n hn => ?_⟩
    rw [List.mem_append, not_or] at hn
    rw [parent_addContainer has hr, if_neg hn.1, htop n hn.2]
  induction h with
  | empty => exact ⟨wellFormed_empty, fun n _ => parent_of_not_has (Nat.not_lt_zero _)⟩
  | text h value ih => exact hpush rfl rfl ih
  | comment h value ih => exact hpush rfl rfl ih
  | instruction h target value ih => exact hpush rfl rfl ih
  | element h name attributes children has once ih => exact hcontainer rfl rfl has once ih
  | document h children has once ih => exact hcontainer rfl rfl has once ih

theorem Built.wellFormed {used : List Node} (h : Built f used) : f.WellFormed := h.invariant.1

/-! ## Edits -/

/-- An edit of a forest, with its arguments. -/
inductive Edit where
  | insertBefore (p child : Node) (reference : Option Node)
  | append (p child : Node)
  | remove (p child : Node)
  | splitText (n : Node) (offset : Nat)
  | setValue (n : Node) (value : String)
  | setAttribute (n : Node) (uri : Option String) (localName value : String)
  | createElement (tag : String)
  | wrap (n : Node) (tag : String)
  | insertMarked (n : Node) (offset : Nat) (tag : String)
deriving DecidableEq, Repr

namespace Edit

/-- The nodes that an edit is given. -/
def nodes : Edit → List Node
  | insertBefore p child reference => p :: child :: reference.toList
  | append p child | remove p child => [p, child]
  | splitText n _ | setValue n _ | setAttribute n .. | wrap n _ | insertMarked n .. => [n]
  | createElement _ => []

/-- The forest that an edit leaves, whether it succeeds or fails. -/
def run (f : Forest) : Edit → Forest
  | insertBefore p child reference => (f.insertBefore p child reference).2
  | append p child => (f.append p child).2
  | remove p child => (f.remove p child).2
  | splitText n offset => (f.splitText n offset).2
  | setValue n value => f.setValue n value
  | setAttribute n uri localName value => f.setAttribute n uri localName value
  | createElement tag => (f.createElement tag).1
  | wrap n tag => (f.wrap n tag).2
  | insertMarked n offset tag => (f.insertMarked n offset tag).2

end Edit

/-- The second forest is well formed and has all nodes of the first. -/
structure Keeps (f g : Forest) : Prop where
  wellFormed : g.WellFormed
  has : ∀ n, f.Has n → g.Has n

theorem Keeps.trans {k : Forest} (h : Keeps f g) (h' : Keeps g k) : Keeps f k :=
  ⟨h'.wellFormed, fun n hn => h'.has n (h.has n hn)⟩

namespace WellFormed

variable (wf : f.WellFormed)

include wf

theorem keeps_self : Keeps f f := ⟨wf, fun _ => id⟩

/-- New data or attributes change no link. -/
theorem keeps_modify {n : Node} (hn : f.Has n) {change : Record → Record}
    (hp : ∀ r, (change r).parent = r.parent) (hc : ∀ r, (change r).children = r.children)
    (hk : ∀ r, (change r).kind = r.kind) : Keeps f (f.modify n change) := by
  refine ⟨wf.of_links (size_modify ..) (fun m => ?_) (fun m => ?_) (fun m => ?_),
    fun m hm => (has_of_size_eq (size_modify ..)).mpr hm⟩
  · rw [parent, record_modify hn]
    split
    · exact hp _
    · rfl
  · rw [children, record_modify hn]
    split
    · exact hc _
    · rfl
  · rw [kind, record_modify hn]
    split
    · exact hk _
    · rfl

theorem keeps_setValue {n : Node} (hn : f.Has n) (value : String) :
    Keeps f (f.setValue n value) := by
  unfold setValue
  split
  · exact wf.keeps_self
  · exact wf.keeps_modify hn (fun _ => rfl) (fun _ => rfl) (fun _ => rfl)

theorem keeps_setAttribute {n : Node} (hn : f.Has n) (uri : Option String)
    (localName value : String) : Keeps f (f.setAttribute n uri localName value) :=
  wf.keeps_modify hn (fun _ => rfl) (fun _ => rfl) (fun _ => rfl)

theorem keeps_push {r : Record} (hp : r.parent = none) (hc : r.children = []) :
    Keeps f (f.push r).1 :=
  ⟨wf.push hp hc, fun _ hn => (has_push r).mpr (Or.inl hn)⟩

theorem keeps_createMarked (tag : String) : Keeps f (f.createMarked tag).1 := by
  have hcreate : Keeps f (f.createElement tag).1 := wf.keeps_push rfl rfl
  have hn : (f.createElement tag).1.Has f.fresh := (has_push _).mpr (Or.inr rfl)
  have hignore := hcreate.wellFormed.keeps_setAttribute hn (some Mark.uri)
    Mark.ignore.attributeName Mark.set
  have hhide := hignore.wellFormed.keeps_setAttribute (hignore.has _ hn) (some Mark.uri)
    Mark.hide.attributeName Mark.set
  exact (hcreate.trans hignore).trans hhide

omit wf in
theorem has_createMarked (tag : String) : (f.createMarked tag).1.Has (f.createMarked tag).2 := by
  have hn : (f.createElement tag).1.Has f.fresh := (has_push _).mpr (Or.inr rfl)
  simp only [createMarked, setMark, setAttribute]
  exact (has_of_size_eq (by rw [size_modify, size_modify])).mpr hn

omit wf in
theorem size_insertBefore (p child : Node) (reference : Option Node) :
    (f.insertBefore p child reference).2.size = f.size := by
  unfold Forest.insertBefore
  split
  · rfl
  split
  · rfl
  split
  · rfl
  · dsimp only
    split
    · rw [size_attach, size_detach]
    · rw [size_detach]

theorem keeps_insertBefore {p child : Node} (hp : f.Has p) (hc : f.Has child)
    (reference : Option Node) : Keeps f (f.insertBefore p child reference).2 :=
  ⟨wf.insertBefore hp hc reference, fun _ hn => (has_of_size_eq (size_insertBefore ..)).mpr hn⟩

/-- An edit that puts a node somewhere and goes on from the forest that leaves. -/
theorem keeps_of_insertBefore {p child : Node} {reference : Option Node} {o : Except Fault Unit}
    {g : Forest} (h : f.insertBefore p child reference = (o, g)) (hp : f.Has p)
    (hc : f.Has child) : Keeps f g := by
  have hkeep := wf.keeps_insertBefore hp hc reference
  rwa [h] at hkeep

theorem keeps_remove (p child : Node) : Keeps f (f.remove p child).2 := by
  unfold remove
  split
  · exact ⟨wf.detach child, fun _ hn => (has_of_size_eq (size_detach ..)).mpr hn⟩
  · exact wf.keeps_self

/-- Cutting a text, with or without a parent, and where it cannot be cut. -/
theorem keeps_splitText {n : Node} (hn : f.Has n) (offset : Nat) :
    Keeps f (f.splitText n offset).2 ∧
      ∀ tail, (f.splitText n offset).1 = .ok tail → (f.splitText n offset).2.Has tail := by
  unfold splitText
  split
  · exact ⟨wf.keeps_self, nofun⟩
  split
  · exact ⟨wf.keeps_self, nofun⟩
  dsimp only
  have hadd : Keeps f (f.addText (String.ofList ((f.characters n).drop offset))).1 :=
    wf.keeps_push rfl rfl
  have htail : (f.addText (String.ofList ((f.characters n).drop offset))).1.Has f.fresh :=
    (has_push _).mpr (Or.inr rfl)
  have hset := hadd.wellFormed.keeps_setValue (hadd.has n hn)
    (String.ofList ((f.characters n).take offset))
  have hcut := hadd.trans hset
  split
  · refine ⟨hcut, fun tail h => ?_⟩
    cases h
    exact hset.has _ htail
  · next p hp =>
    have hparent := hset.wellFormed.has_parent n p hp
    split
    · next g hg =>
      have hkeep := hset.wellFormed.keeps_of_insertBefore hg hparent (hset.has _ htail)
      refine ⟨hcut.trans hkeep, fun tail h => ?_⟩
      cases h
      exact hkeep.has _ (hset.has _ htail)
    · next e g hg =>
      exact ⟨hcut.trans (hset.wellFormed.keeps_of_insertBefore hg hparent (hset.has _ htail)),
        nofun⟩

theorem keeps_wrap {n : Node} (hn : f.Has n) (tag : String) : Keeps f (f.wrap n tag).2 := by
  unfold wrap
  split
  · exact wf.keeps_self
  · next p hp =>
    dsimp only
    have hcreate := wf.keeps_createMarked tag
    have hwrapper := has_createMarked (f := f) tag
    have hparent := hcreate.has p (wf.has_parent n p hp)
    split
    · next g hg =>
      exact hcreate.trans (hcreate.wellFormed.keeps_of_insertBefore hg hparent hwrapper)
    · next g hg =>
      have hinsert := hcreate.wellFormed.keeps_of_insertBefore hg hparent hwrapper
      have hboth := hcreate.trans hinsert
      split
      all_goals
        next k hk =>
        exact hboth.trans (hboth.wellFormed.keeps_of_insertBefore hk (hinsert.has _ hwrapper)
          (hboth.has n hn))

theorem keeps_insertMarked {n : Node} (hn : f.Has n) (offset : Nat) (tag : String) :
    Keeps f (f.insertMarked n offset tag).2 := by
  unfold insertMarked
  split
  · exact wf.keeps_self
  split
  · exact wf.keeps_self
  · next p hp =>
    have hsplit := (wf.keeps_splitText hn offset).1
    split
    · next g hg => rwa [hg] at hsplit
    · next tail g hg =>
      rw [hg] at hsplit
      dsimp only at hsplit ⊢
      have hcreate := hsplit.wellFormed.keeps_createMarked tag
      have hboth := hsplit.trans hcreate
      have hparent := hboth.has p (wf.has_parent n p hp)
      split
      all_goals
        next k hk =>
        exact hboth.trans (hboth.wellFormed.keeps_of_insertBefore hk hparent
          (has_createMarked tag))

end WellFormed

/-- **An edit keeps a forest well formed**, whether it succeeds or fails, and no node is lost. -/
theorem Edit.run_keeps (wf : f.WellFormed) (e : Edit) (has : ∀ n ∈ e.nodes, f.Has n) :
    Keeps f (e.run f) := by
  cases e with
  | insertBefore p child reference =>
    exact wf.keeps_insertBefore (has p (by simp [nodes])) (has child (by simp [nodes])) reference
  | append p child =>
    exact wf.keeps_insertBefore (has p (by simp [nodes])) (has child (by simp [nodes])) none
  | remove p child => exact wf.keeps_remove p child
  | splitText n offset => exact (wf.keeps_splitText (has n (by simp [nodes])) offset).1
  | setValue n value => exact wf.keeps_setValue (has n (by simp [nodes])) value
  | setAttribute n uri localName value =>
    exact wf.keeps_setAttribute (has n (by simp [nodes])) uri localName value
  | createElement tag => exact wf.keeps_push rfl rfl
  | wrap n tag => exact wf.keeps_wrap (has n (by simp [nodes])) tag
  | insertMarked n offset tag => exact wf.keeps_insertMarked (has n (by simp [nodes])) offset tag

/-- The second forest is what an edit leaves of the first, that is given nodes of it. -/
def EditedOnce (f g : Forest) : Prop :=
  ∃ e : Edit, (∀ n ∈ e.nodes, f.Has n) ∧ e.run f = g

/-- Any number of edits, each of which may fail. -/
def Edited : Forest → Forest → Prop := Relation.ReflTransGen EditedOnce

theorem WellFormed.edited (wf : f.WellFormed) (h : Edited f g) : g.WellFormed := by
  induction h with
  | refl => exact wf
  | tail _ hstep ih =>
    obtain ⟨e, has, rfl⟩ := hstep
    exact (e.run_keeps ih has).wellFormed

/-- Going up from a node ends at one without parent. -/
theorem WellFormed.exists_top (wf : f.WellFormed) (n : Node) :
    ∃ top, f.parent top = none ∧ Relation.ReflTransGen (fun a b => f.parent a = some b) n top := by
  induction n using wf.up_ends.induction with
  | _ n ih =>
    cases hp : f.parent n with
    | none => exact ⟨n, hp, .refl⟩
    | some p =>
      obtain ⟨top, htop, hup⟩ := ih p hp
      exact ⟨top, htop, .head hp hup⟩

/-- **What is built with every node used once stays a forest**, after any number of edits with any
arguments, whether they succeed or fail: child lists and parent links agree, no child list names a
node twice, the way up from a node ends, and only elements and documents have children. -/
theorem Built.edited_links {used : List Node} (hb : Built f used) (he : Edited f g) :
    (∀ p c, c ∈ g.children p ↔ g.parent c = some p) ∧
    (∀ p c, c ∈ g.children p → (g.children p).count c = 1) ∧
    (∀ n, ∃ top, g.parent top = none ∧
      Relation.ReflTransGen (fun a b => g.parent a = some b) n top) ∧
    (∀ p c, c ∈ g.children p → g.kind p = .element ∨ g.kind p = .document) := by
  have wf := hb.wellFormed.edited he
  refine ⟨wf.mem_children_iff, fun p c hc => ?_, wf.exists_top, fun p c hc => ?_⟩
  · exact List.count_eq_one_of_mem (wf.nodup_children p) hc
  · have hcontainer := wf.container_of_mem p c hc
    cases hk : g.kind p <;> rw [hk] at hcontainer <;> simp_all [NodeKind.isContainer]

/-- What is built of a text, a comment, `<p>` around the text and `<r>` around both. -/
def remark : Forest :=
  ((((Forest.empty.addText "abc").1.addComment "note").1.addElement (.plain "p") [] [⟨0⟩]).1
    |>.addElement (.plain "r") [] [⟨2⟩, ⟨1⟩]).1

theorem remark_built : Built remark [⟨2⟩, ⟨1⟩, ⟨0⟩] :=
  (((Built.empty.text "abc").comment "note").element (.plain "p") [] [⟨0⟩]
    (by decide) (by decide)).element (.plain "r") [] [⟨2⟩, ⟨1⟩]
    (by decide) (by decide)

/-- What three edits leave of it: a move that fails halfway, a mark in the text, and an attempt to
put `<r>` into the mark. -/
def remarked : Forest :=
  (Edit.append ⟨5⟩ ⟨3⟩).run ((Edit.insertMarked ⟨0⟩ 1 "m").run
    ((Edit.insertBefore ⟨2⟩ ⟨1⟩ (some ⟨3⟩)).run remark))

theorem built_edited_links_remarked :
    Built remark [⟨2⟩, ⟨1⟩, ⟨0⟩] ∧ Edited remark remarked ∧
      (∀ p c, c ∈ remarked.children p ↔ remarked.parent c = some p) ∧
      (∀ p c, c ∈ remarked.children p → (remarked.children p).count c = 1) ∧
      (∀ n, ∃ top, remarked.parent top = none ∧
        Relation.ReflTransGen (fun a b => remarked.parent a = some b) n top) ∧
      (∀ p c, c ∈ remarked.children p →
        remarked.kind p = .element ∨ remarked.kind p = .document) :=
  have hedited : Edited remark remarked :=
    .tail (.tail (.tail .refl ⟨_, by decide, rfl⟩) ⟨_, by decide, rfl⟩)
      ⟨_, by decide, rfl⟩
  ⟨remark_built, hedited, remark_built.edited_links hedited⟩

/-- The move takes the comment from `<r>` and fails, since `<r>` is not a child of `<p>`. -/
example : (remark.insertBefore ⟨2⟩ ⟨1⟩ (some ⟨3⟩)).1 = .error (.argument .notReferenceChild) ∧
    ((Edit.insertBefore ⟨2⟩ ⟨1⟩ (some ⟨3⟩)).run remark).parent ⟨1⟩ = none :=
  ⟨rfl, rfl⟩

end TreePointer.Forest
