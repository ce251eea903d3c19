import TreePointer.Proofs.Tree.Growing

/-!
# Texts that are cut

A cut leaves the first characters in a text and puts the others into a new one. If the text has a
parent, the new text stands directly behind it there, and the forest may grow between the two. No
other node is touched.

* `parts`: a text keeps the first characters, and a new one without parent has the others.
* `splitText_of_top`, `splitText_eq`, `splitText_refused`: what cutting makes of these.
* `Cut`: what a cut does to each node.
* `splitText_cut`: cutting a text is a cut.
* `Cut.grown`: so is cutting it and growing between the parts.
-/

namespace TreePointer.Forest

variable {f g h : Forest} {p t u x n : Node} {k : Nat} {left right between : List Node}
  {r : Record}

/-! ## The parts of a text -/

/-- A text with other data. -/
def withText (f : Forest) (t : Node) (cs : List Char) : Forest :=
  f.modify t fun r => { r with value := some (String.ofList cs) }

theorem has_withText (cs : List Char) : (f.withText t cs).Has n ↔ f.Has n :=
  has_of_size_eq (size_modify ..)

theorem fresh_withText (cs : List Char) : (f.withText t cs).fresh = f.fresh := by
  rw [fresh, withText, size_modify, fresh]

section WithText

variable (ht : f.isText t = true) (cs : List Char)

include ht

theorem setValue_of_isText : f.setValue t (String.ofList cs) = f.withText t cs := by
  have hk : f.kind t = .text := beq_iff_eq.mp ht
  rw [setValue, hk]
  rfl

theorem parent_withText (n : Node) : (f.withText t cs).parent n = f.parent n := by
  rw [parent, withText, record_modify (has_of_isText ht)]
  split <;> rfl

theorem children_withText (n : Node) : (f.withText t cs).children n = f.children n := by
  rw [children, withText, record_modify (has_of_isText ht)]
  split <;> rfl

theorem kind_withText (n : Node) : (f.withText t cs).kind n = f.kind n := by
  rw [kind, withText, record_modify (has_of_isText ht)]
  split <;> rfl

theorem content_withText :
    (f.withText t cs).content t = { f.content t with value := some (String.ofList cs) } := by
  rw [content, withText, record_modify (has_of_isText ht), if_pos rfl, content]

theorem content_withText_of_ne {n : Node} (hn : n ≠ t) :
    (f.withText t cs).content n = f.content n := by
  rw [content, withText, record_modify (has_of_isText ht), if_neg hn, content]

theorem WellFormed.withText (wf : f.WellFormed) : (f.withText t cs).WellFormed :=
  wf.of_links (size_modify ..) (parent_withText ht cs) (children_withText ht cs)
    (kind_withText ht cs)

theorem withText_push : (f.push r).1.withText t cs = ((f.withText t cs).push r).1 := by
  have hlt : t.index < f.records.size := has_of_isText ht
  simp only [Forest.withText, push, modify, Forest.mk.injEq]
  refine Array.ext (by simp) fun i hi hi' => ?_
  rw [Array.getElem_modify, Array.getElem_push, Array.getElem_push]
  simp only [Array.size_modify]
  by_cases hin : i < f.records.size
  · simp only [hin, dif_pos, Array.getElem_modify]
  · have hne : t.index ≠ i := by omega
    simp only [hin, dif_neg, hne, if_neg, not_false_iff]

end WithText

/-- A text without links. -/
def textRecord (cs : List Char) : Record :=
  { Record.bare .text with value := some (String.ofList cs) }

theorem isText_of_textRecord {cs : List Char} (h : g.content x = textRecord cs) :
    g.isText x = true := by
  rw [isText, kind_eq_content, h]
  rfl

theorem characters_of_textRecord {cs : List Char} (h : g.content x = textRecord cs) :
    g.characters x = cs := by
  rw [characters, value_eq_content, h]
  exact String.toList_ofList

/-- A text keeps what is before a cut, and a new text without parent holds what is behind it. -/
def parts (f : Forest) (t : Node) (k : Nat) : Forest :=
  ((f.withText t ((f.characters t).take k)).push (textRecord ((f.characters t).drop k))).1

theorem parent_parts (ht : f.isText t = true) (k : Nat) (n : Node) :
    (f.parts t k).parent n = f.parent n := by
  rw [parts, parent_push rfl, parent_withText ht]

theorem children_parts (ht : f.isText t = true) (k : Nat) (n : Node) :
    (f.parts t k).children n = f.children n := by
  rw [parts, children_push rfl, children_withText ht]

theorem setValue_addText (ht : f.isText t = true) (k : Nat) :
    (f.addText (String.ofList ((f.characters t).drop k))).1.setValue t
      (String.ofList ((f.characters t).take k)) = f.parts t k := by
  have ht₁ : (f.push (textRecord ((f.characters t).drop k))).1.isText t = true := by
    rw [isText, kind, record_push_of_ne _ (has_of_isText ht).ne_fresh]
    exact ht
  exact (setValue_of_isText ht₁ _).trans (withText_push ht _)

section SplitText

variable (ht : f.isText t = true)

include ht

/-- **Cutting a text that has no parent** leaves both parts without one. -/
theorem splitText_of_top (hk : k ≤ (f.characters t).length) (htop : f.parent t = none) :
    f.splitText t k = (.ok f.fresh, f.parts t k) := by
  have htail : (f.addText (String.ofList ((f.characters t).drop k))).2 = f.fresh := rfl
  rw [splitText, if_neg (not_not_intro ht), if_neg (Nat.not_lt.mpr hk)]
  simp only [setValue_addText ht, parent_parts ht, htop, htail]

/-- The second part is inserted behind the first. -/
theorem splitText_of_parent (hk : k ≤ (f.characters t).length) (hp : f.parent t = some p)
    (h : (f.parts t k).insertBefore p f.fresh ((f.parts t k).nextSibling? t) = (.ok (), g)) :
    f.splitText t k = (.ok f.fresh, g) := by
  have htail : (f.addText (String.ofList ((f.characters t).drop k))).2 = f.fresh := rfl
  rw [splitText, if_neg (not_not_intro ht), if_neg (Nat.not_lt.mpr hk)]
  simp only [setValue_addText ht, parent_parts ht, hp, htail, h]

/-- A cut behind the end of a text is refused. -/
theorem splitText_refused (hk : (f.characters t).length < k) :
    f.splitText t k = (.error (.argument (.splitTooFar k)), f) := by
  rw [splitText, if_neg (not_not_intro ht), if_pos hk]

/-- **Cutting a text that has a parent** leaves the first part in it and makes the forest grow by
the second. -/
theorem splitText_eq (wf : f.WellFormed) (hk : k ≤ (f.characters t).length)
    (hsplit : f.children p = left ++ t :: right) :
    ∃ g, f.splitText t k = (.ok f.fresh, g) ∧
      Grown (f.withText t ((f.characters t).take k)) g p f.fresh (left ++ [t]) right
        (textRecord ((f.characters t).drop k)) := by
  have htp : t ∈ f.children p := hsplit ▸ List.mem_append_right _ List.mem_cons_self
  have wf' := wf.withText ht ((f.characters t).take k)
  have hsplit' : (f.withText t ((f.characters t).take k)).children p = (left ++ [t]) ++ right := by
    rw [children_withText ht, hsplit, List.append_assoc, List.singleton_append]
  have hp := wf.has_of_mem_children htp
  have hk' : ((f.withText t ((f.characters t).take k)).kind p).isContainer = true := by
    rw [kind_withText ht]
    exact wf.container_of_mem p t htp
  obtain ⟨g, hg, hgrown⟩ := insertBefore_push (r := textRecord ((f.characters t).drop k)) wf' rfl
    rfl ((has_withText _).mpr hp) hk' right.head? (ne_fresh_of_head wf' hsplit')
    hsplit' (slot?_head wf' hsplit')
  rw [fresh_withText] at hg hgrown
  refine ⟨g, ?_, hgrown⟩
  have hnext : (f.parts t k).nextSibling? t = right.head? :=
    (wf'.push (r := textRecord _) rfl rfl).nextSibling?_eq ((children_parts ht k p).trans hsplit)
  refine splitText_of_parent ht hk (wf.parent_of_mem htp) ?_
  rw [hnext]
  exact hg

end SplitText

/-! ## What a cut does to each node -/

/-- The text `t` was cut at the character `k`. It keeps what is before the cut, and the new text `u`
holds what is behind it. If `t` has a parent, `u` stands behind it there, with some new nodes
`between` them. Everything else is as it was. -/
structure Cut (f g : Forest) (t : Node) (k : Nat) (between : List Node) (u : Node) : Prop where
  wellFormed : g.WellFormed
  has_iff : ∀ n, g.Has n ↔ f.Has n ∨ n ∈ between ∨ n = u
  not_has_new : ∀ n, n ∈ between ∨ n = u → ¬ f.Has n
  content_head : g.content t
    = { f.content t with value := some (String.ofList ((f.characters t).take k)) }
  content_tail : g.content u = textRecord ((f.characters t).drop k)
  content_eq : ∀ n, f.Has n → n ≠ t → g.content n = f.content n
  parent_eq : ∀ n, f.Has n → g.parent n = f.parent n
  parent_new : ∀ n, n ∈ between ∨ n = u → g.parent n = f.parent t
  children_new : ∀ n, n ∈ between ∨ n = u → g.children n = []
  children_beside : ∀ p, f.parent t = some p → ∃ left right,
    f.children p = left ++ t :: right ∧ g.children p = left ++ t :: (between ++ u :: right)
  children_eq : ∀ n, f.Has n → f.parent t ≠ some n → g.children n = f.children n

/-- Where nothing is between the parts, the second part alone is new. -/
theorem eq_tail (h : n ∈ ([] : List Node) ∨ n = u) : n = u := h.resolve_left List.not_mem_nil

/-- A text without parent is cut by adding the second part. -/
theorem cut_of_top (wf : f.WellFormed) (ht : f.isText t = true) (htop : f.parent t = none)
    (k : Nat) : Cut f (f.parts t k) t k [] f.fresh := by
  have hold : ∀ n, f.Has n → (f.parts t k).content n
      = (f.withText t ((f.characters t).take k)).content n := by
    intro n hn
    have hne : n ≠ (f.withText t ((f.characters t).take k)).fresh := by
      rw [fresh_withText]
      exact hn.ne_fresh
    rw [content, parts, record_push_of_ne _ hne, content]
  exact {
    wellFormed := (wf.withText ht _).push rfl rfl
    has_iff := fun n => by
      rw [parts, has_push, fresh_withText, has_withText]
      exact or_congr_right ⟨.inr, eq_tail⟩
    not_has_new := fun n hn => eq_tail hn ▸ f.not_has_fresh
    content_head := by rw [hold t (has_of_isText ht), content_withText ht]
    content_tail := by
      rw [content, parts, ← fresh_withText (t := t) ((f.characters t).take k), record_push_fresh]
      rfl
    content_eq := fun n hn hne => by rw [hold n hn, content_withText_of_ne ht _ hne]
    parent_eq := fun n _ => parent_parts ht k n
    parent_new := fun n hn => by
      rw [eq_tail hn, parent_parts ht, htop, parent_of_not_has f.not_has_fresh]
    children_new := fun n hn => by
      rw [eq_tail hn, children_parts ht, children_of_not_has f.not_has_fresh]
    children_beside := fun p hp => by
      rw [htop] at hp
      cases hp
    children_eq := fun n _ _ => children_parts ht k n }

/-- A text with a parent is cut when the forest grows by the second part. -/
theorem Grown.cut (ht : f.isText t = true) (hp : f.parent t = some p) (wf : f.WellFormed)
    (hsplit : f.children p = left ++ t :: right)
    (hg : Grown (f.withText t ((f.characters t).take k)) g p u (left ++ [t]) right
      (textRecord ((f.characters t).drop k))) : Cut f g t k [] u := by
  have hu : ¬ f.Has u := by
    rw [hg.fresh_eq, fresh_withText]
    exact f.not_has_fresh
  have hne : ∀ n, f.Has n → n ≠ u := fun n hn e => hu (e ▸ hn)
  have hup : u ≠ p := (hne p (wf.has_parent t p hp)).symm
  exact {
    wellFormed := hg.wellFormed
    has_iff := fun n => by
      rw [hg.has_iff, has_withText]
      exact or_congr_right ⟨.inr, eq_tail⟩
    not_has_new := fun n hn => eq_tail hn ▸ hu
    content_head := by rw [hg.content_old t (hne t (has_of_isText ht)), content_withText ht]
    content_tail := hg.content_new
    content_eq := fun n hn hnt => by
      rw [hg.content_old n (hne n hn), content_withText_of_ne ht _ hnt]
    parent_eq := fun n hn => by rw [hg.parent_eq, if_neg (hne n hn), parent_withText ht]
    parent_new := fun n hn => by rw [eq_tail hn, hg.parent_eq, if_pos rfl, hp]
    children_new := fun n hn => by
      rw [eq_tail hn, hg.child_eq, if_neg hup, children_withText ht, children_of_not_has hu]
    children_beside := fun q hq => by
      obtain rfl : p = q := Option.some.inj (hp.symm.trans hq)
      refine ⟨left, right, hsplit, ?_⟩
      rw [hg.child_eq, if_pos rfl, List.append_assoc, List.singleton_append, List.nil_append]
    children_eq := fun n _ hn => by
      rw [hg.child_eq, if_neg fun e : n = p => hn (e ▸ hp), children_withText ht] }

/-- Between the two parts the forest may grow. -/
theorem Cut.grown (hc : Cut f g t k [] u) (ht : f.isText t = true) (hp : f.parent t = some p)
    (wf : f.WellFormed) (hsplit : f.children p = left ++ t :: right)
    (hg : Grown g h p x (left ++ [t]) (u :: right) r) : Cut f h t k [x] u := by
  have hhas : ∀ n, f.Has n → n ≠ x := fun n hn =>
    hg.fresh_eq ▸ ((hc.has_iff n).mpr (Or.inl hn)).ne_fresh
  have hux : u ≠ x := hg.fresh_eq ▸ ((hc.has_iff u).mpr (Or.inr (Or.inr rfl))).ne_fresh
  have hp' := wf.has_parent t p hp
  have hup : u ≠ p := fun e => hc.not_has_new u (Or.inr rfl) (e ▸ hp')
  have hnew : ∀ n, n ∈ [x] ∨ n = u → n = x ∨ n = u := fun n hn => hn.imp_left List.mem_singleton.mp
  exact {
    wellFormed := hg.wellFormed
    has_iff := fun n => by
      rw [hg.has_iff, hc.has_iff, List.mem_singleton, or_assoc, or_comm (a := n = x)]
      simp only [List.not_mem_nil, false_or]
    not_has_new := fun n hn => by
      rcases hnew n hn with rfl | rfl
      · exact fun hn => hhas n hn rfl
      · exact hc.not_has_new n (Or.inr rfl)
    content_head := by rw [hg.content_old t (hhas t (has_of_isText ht)), hc.content_head]
    content_tail := by rw [hg.content_old u hux, hc.content_tail]
    content_eq := fun n hn hne => by rw [hg.content_old n (hhas n hn), hc.content_eq n hn hne]
    parent_eq := fun n hn => by rw [hg.parent_eq, if_neg (hhas n hn), hc.parent_eq n hn]
    parent_new := fun n hn => by
      rcases hnew n hn with rfl | rfl
      · rw [hg.parent_eq, if_pos rfl, hp]
      · rw [hg.parent_eq, if_neg hux, hc.parent_new n (Or.inr rfl)]
    children_new := fun n hn => by
      rcases hnew n hn with rfl | rfl
      · exact hg.children_new ((hc.has_iff p).mpr (Or.inl hp'))
      · rw [hg.child_eq, if_neg hup, hc.children_new n (Or.inr rfl)]
    children_beside := fun q hq => by
      obtain rfl : p = q := Option.some.inj (hp.symm.trans hq)
      refine ⟨left, right, hsplit, ?_⟩
      rw [hg.child_eq, if_pos rfl, List.append_assoc, List.singleton_append,
        List.singleton_append]
    children_eq := fun n hn hnp => by
      rw [hg.child_eq, if_neg fun e : n = p => hnp (e ▸ hp), hc.children_eq n hn hnp] }

/-- **Cutting a text** succeeds up to its end, and then it is a cut. -/
theorem splitText_cut (wf : f.WellFormed) (ht : f.isText t = true)
    (hk : k ≤ (f.characters t).length) :
    ∃ g, f.splitText t k = (.ok f.fresh, g) ∧ Cut f g t k [] f.fresh := by
  cases hp : f.parent t with
  | none => exact ⟨_, splitText_of_top ht hk hp, cut_of_top wf ht hp k⟩
  | some p =>
    obtain ⟨left, right, hsplit⟩ := List.append_of_mem (wf.mem_of_parent hp)
    obtain ⟨g, hcut, hgrown⟩ := splitText_eq ht wf hk hsplit
    exact ⟨g, hcut, hgrown.cut ht hp wf hsplit⟩

namespace Cut

variable (hc : Cut f g t k between u)

include hc

theorem characters_head : g.characters t = (f.characters t).take k := by
  rw [characters, value_eq_content, hc.content_head]
  exact String.toList_ofList

theorem characters_tail : g.characters u = (f.characters t).drop k :=
  characters_of_textRecord hc.content_tail

theorem isText_tail : g.isText u = true := isText_of_textRecord hc.content_tail

theorem isText_eq (hn : f.Has n) : g.isText n = f.isText n := by
  by_cases hnt : n = t
  · rw [hnt, isText, isText, kind_eq_content, hc.content_head, ← kind_eq_content]
  · rw [isText, isText, kind_eq_content, hc.content_eq n hn hnt, ← kind_eq_content]

end Cut

end TreePointer.Forest
