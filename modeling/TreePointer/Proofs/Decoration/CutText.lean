import TreePointer.Proofs.Tree.Check
import TreePointer.Proofs.Decoration.Quiet

/-!
# A tree says the same when a text is cut

A text is cut at a character, by itself or around a marked element. What is before the cut stays in
it, what is behind it comes into a new text, and the two stand next to each other or have the marked
element between them. No other node is touched, and whatever node is read, its text is the same as
before. A cut behind the end of the text is refused, and nothing happens.

* `charsOf`: the characters of the texts below a node that are picked; `Cut.charsOf_eq`: they stay.
* `Cut.stringValue_eq`, `Cut.visibleChars_eq`: so do the string value and the visible text.
* `WellFormed.cut_preserves`: both edits, with what they refuse.
-/

namespace TreePointer.Forest

variable {f g : Forest} {t u n : Node} {k : Nat} {between : List Node}

/-! ## The text below a node -/

/-- The characters of the nodes of a subtree that are picked. -/
def charsOf (f : Forest) (pick : Node → Bool) (n : Node) : List Char :=
  ((f.preorder n).filter pick).flatMap f.characters

theorem charsOf_eq (wf : f.WellFormed) (pick : Node → Bool) (hn : f.Has n) :
    f.charsOf pick n
      = (if pick n then f.characters n else []) ++ (f.children n).flatMap (f.charsOf pick) := by
  rw [charsOf, wf.preorder_eq hn, List.filter_cons, List.filter_flatMap]
  split
  · rw [List.flatMap_cons, List.flatMap_assoc]
    rfl
  · rw [List.flatMap_assoc]
    rfl

theorem charsOf_of_leaf (wf : f.WellFormed) (pick : Node → Bool) (hn : f.Has n)
    (hleaf : f.children n = []) :
    f.charsOf pick n = if pick n then f.characters n else [] := by
  rw [charsOf_eq wf pick hn, hleaf, List.flatMap_nil, List.append_nil]

theorem stringValue_eq_charsOf (h : (f.kind n).isContainer = true) :
    f.stringValue n = String.ofList (f.charsOf f.isText n) := by
  rw [stringValue, if_pos h, charsOf]

theorem visibleChars_eq_charsOf : f.visibleChars n = f.charsOf f.isShown n := by
  rw [visibleChars, places_eq, map_char_placesIn, charsOf]

namespace Cut

variable (hc : Cut f g t k between u) (wf : f.WellFormed) (ht : f.isText t = true)

include hc wf ht

/-- The marks of a parent have not changed. -/
theorem isMarked_parent (n : Node) :
    (f.parent n).any g.isMarked = (f.parent n).any f.isMarked := by
  cases hp : f.parent n with
  | none => rfl
  | some q =>
    have hq : q ≠ t := by
      rintro rfl
      rw [wf.not_isText_of_mem_children (wf.mem_of_parent hp)] at ht
      cases ht
    rw [Option.any_some, Option.any_some,
      isMarked_congr (hc.content_eq q (wf.has_parent n q hp) hq)]

theorem isShown_eq (hn : f.Has n) : g.isShown n = f.isShown n := by
  rw [isShown, hc.isText_eq hn, hc.parent_eq n hn, hc.isMarked_parent wf ht n, isShown]

theorem isShown_tail : g.isShown u = f.isShown t := by
  rw [isShown, hc.isText_tail, hc.parent_new u (Or.inr rfl),
    hc.isMarked_parent wf ht t, isShown, ht]

/-- **The characters that are picked stay**, if the second part is picked just if the text was, and
nothing between the two is. -/
theorem charsOf_eq {pick pick' : Node → Bool} (hpick : ∀ n, f.Has n → pick' n = pick n)
    (htail : pick' u = pick t) (hbetween : ∀ x ∈ between, pick' x = false) (hn : f.Has n)
    (hnt : n ≠ t) : g.charsOf pick' n = f.charsOf pick n := by
  have wf' := hc.wellFormed
  have hhas : ∀ m, f.Has m → g.Has m := fun m hm => (hc.has_iff m).mpr (Or.inl hm)
  have hleaf : ∀ m, m ∈ between ∨ m = u →
      g.charsOf pick' m = if pick' m then g.characters m else [] := fun m hm =>
    charsOf_of_leaf wf' pick' ((hc.has_iff m).mpr (Or.inr hm)) (hc.children_new m hm)
  -- the parts of the text, with what is between them, read as the text did
  have hparts : g.charsOf pick' t ++ (between.flatMap (g.charsOf pick') ++ g.charsOf pick' u)
      = f.charsOf pick t := by
    have hnothing : between.flatMap (g.charsOf pick') = [] := by
      refine List.flatMap_eq_nil_iff.mpr fun y hy => ?_
      rw [hleaf y (Or.inl hy), hbetween y hy]
      rfl
    have hchildren : g.children t = [] := by
      refine children_of_isText wf' ?_
      rw [hc.isText_eq (has_of_isText ht), ht]
    rw [hnothing, hleaf u (Or.inr rfl), htail, hc.characters_tail,
      charsOf_of_leaf wf' pick' (hhas t (has_of_isText ht)) hchildren,
      hpick t (has_of_isText ht), hc.characters_head,
      charsOf_of_leaf wf pick (has_of_isText ht) (children_of_isText wf ht)]
    split
    · exact List.take_append_drop k _
    · rfl
  induction n using wf.induction_down with
  | step n ih =>
    have hbelow : ∀ m ∈ f.children n, m ≠ t → g.charsOf pick' m = f.charsOf pick m :=
      fun m hm => ih m hm (wf.has_child hm)
    have hchildren : (g.children n).flatMap (g.charsOf pick')
        = (f.children n).flatMap (f.charsOf pick) := by
      by_cases hp : f.parent t = some n
      · obtain ⟨left, right, hsplit, hsplit'⟩ := hc.children_beside n hp
        obtain ⟨hbefore, hafter⟩ := not_mem_beside_of_nodup (hsplit ▸ wf.nodup_children n)
        have hleft : left.flatMap (g.charsOf pick') = left.flatMap (f.charsOf pick) :=
          flatMap_congr_mem fun m hm => hbelow m (hsplit ▸ List.mem_append_left _ hm)
            fun e => hbefore (e ▸ hm)
        have hright : right.flatMap (g.charsOf pick') = right.flatMap (f.charsOf pick) :=
          flatMap_congr_mem fun m hm =>
            hbelow m (hsplit ▸ List.mem_append_right _ (List.mem_cons_of_mem t hm))
              fun e => hafter (e ▸ hm)
        simp only [hsplit, hsplit', List.flatMap_append, List.flatMap_cons, hleft, hright, ← hparts,
          List.append_assoc]
      · rw [hc.children_eq n hn hp]
        exact flatMap_congr_mem fun m hm => hbelow m hm fun e => hp (e ▸ wf.parent_of_mem hm)
    rw [Forest.charsOf_eq wf' pick' (hhas n hn), Forest.charsOf_eq wf pick hn, hpick n hn,
      hchildren, characters_congr (hc.content_eq n hn hnt)]

/-- **The string value** of every other node is as before. -/
theorem stringValue_eq (hbetween : ∀ x ∈ between, g.isText x = false) (hn : f.Has n) (hnt : n ≠ t) :
    g.stringValue n = f.stringValue n := by
  have hcontent := hc.content_eq n hn hnt
  by_cases hk : (f.kind n).isContainer = true
  · rw [stringValue_eq_charsOf hk, stringValue_eq_charsOf ((kind_congr hcontent).symm ▸ hk),
      hc.charsOf_eq wf ht (fun m hm => hc.isText_eq hm) (hc.isText_tail.trans ht.symm) hbetween hn
        hnt]
  · rw [stringValue, stringValue, kind_congr hcontent, if_neg hk, if_neg hk, value_eq_content,
      hcontent, ← value_eq_content]

/-- **The visible text** of every other node is as before. -/
theorem visibleChars_eq (hbetween : ∀ x ∈ between, g.isText x = false) (hn : f.Has n)
    (hnt : n ≠ t) : g.visibleChars n = f.visibleChars n := by
  rw [visibleChars_eq_charsOf, visibleChars_eq_charsOf]
  refine hc.charsOf_eq wf ht (fun m hm => hc.isShown_eq wf ht hm) (hc.isShown_tail wf ht)
    (fun x hx => ?_) hn hnt
  rw [isShown, hbetween x hx, Bool.false_and]

end Cut

/-! ## The edits -/

/-- The text of every node but `t` that was there is as before: what it has as string value, and
what is streamed of it. -/
def SameText (f g : Forest) (t : Node) : Prop :=
  ∀ n, f.Has n → n ≠ t →
    g.stringValue n = f.stringValue n ∧ (g.places n).map Place.char = (f.places n).map Place.char

theorem Cut.sameText (hc : Cut f g t k between u) (wf : f.WellFormed) (ht : f.isText t = true)
    (hbetween : ∀ x ∈ between, g.isText x = false) : SameText f g t :=
  fun _ hn hnt =>
    ⟨hc.stringValue_eq wf ht hbetween hn hnt, hc.visibleChars_eq wf ht hbetween hn hnt⟩

/-- **Cutting and marking keep what a tree says.** A text is cut by itself just up to its end, and
so it is around a marked element if it has a parent; else nothing happens. A cut leaves the first
characters in the text and puts the others into a new text, directly behind it or behind the one new
element, which is empty and has both marks. No other node changes in any way but that the two stand
among the children of the parent, and the text of every other node is as before. -/
theorem WellFormed.cut_preserves (wf : f.WellFormed) (ht : f.isText t = true) (k : Nat)
    (tag : String) :
    ((∃ u g, f.splitText t k = (.ok u, g)) ↔ k ≤ (f.characters t).length) ∧
      (∀ e g, f.splitText t k = (.error e, g) → g = f) ∧
      (∀ u g, f.splitText t k = (.ok u, g) → Cut f g t k [] u ∧ SameText f g t) ∧
      ∀ p, f.parent t = some p →
        ((∃ x g, f.insertMarked t k tag = (.ok x, g)) ↔ k ≤ (f.characters t).length) ∧
        (∀ e g, f.insertMarked t k tag = (.error e, g) → g = f) ∧
        ∀ x g, f.insertMarked t k tag = (.ok x, g) →
          (∃ u, Cut f g t k [x] u) ∧ g.content x = markedRecord tag ∧ g.isIgnored x = true ∧
            g.isHidden x = true ∧ SameText f g t := by
  by_cases hk : k ≤ (f.characters t).length
  · obtain ⟨g₀, hsplit, hcut⟩ := splitText_cut wf ht hk
    refine ⟨iff_of_true ⟨_, _, hsplit⟩ hk, fun e g h => ?_, fun u g h => ?_, fun p hp => ?_⟩
    · rw [hsplit] at h
      cases h
    · rw [hsplit] at h
      cases h
      exact ⟨hcut, hcut.sameText wf ht fun _ hx => absurd hx List.not_mem_nil⟩
    · obtain ⟨x₁, g₁, hinsert, hcut₁, hmarked⟩ := insertMarked_cut wf ht hk hp tag
      refine ⟨iff_of_true ⟨_, _, hinsert⟩ hk, fun e g h => ?_, fun x g h => ?_⟩
      · rw [hinsert] at h
        cases h
      · rw [hinsert] at h
        cases h
        refine ⟨⟨_, hcut₁⟩, hmarked, isIgnored_of_marked hmarked, hasMark_of_marked hmarked .hide,
          hcut₁.sameText wf ht fun y hy => ?_⟩
        rw [List.mem_singleton.mp hy, isText, kind_eq_content, hmarked]
        rfl
  · have hsplit := splitText_refused ht (Nat.lt_of_not_le hk)
    obtain ⟨e₁, hinsert⟩ := insertMarked_refused (.inr (.inr (Nat.lt_of_not_le hk))) tag
    refine ⟨iff_of_false ?_ hk, fun e g h => ?_, fun u g h => ?_, fun p _ =>
      ⟨iff_of_false ?_ hk, fun e g h => ?_, fun x g h => ?_⟩⟩
    · rintro ⟨u, g, h⟩
      rw [hsplit] at h
      cases h
    · rw [hsplit] at h
      exact (Prod.mk.inj h).2.symm
    · rw [hsplit] at h
      cases h
    · rintro ⟨x, g, h⟩
      rw [hinsert] at h
      cases h
    · rw [hinsert] at h
      exact (Prod.mk.inj h).2.symm
    · rw [hinsert] at h
      cases h

/-- The tree `<r>ab<b/></r>`. -/
def twoLetters : Forest := ⟨#[
  { Record.bare .element with name := some (.plain "r"), children := [⟨1⟩, ⟨2⟩] },
  { Record.bare .text with value := some "ab", parent := some ⟨0⟩ },
  { Record.bare .element with name := some (.plain "b"), parent := some ⟨0⟩ }]⟩

/-- The text is cut between its letters, by itself and around an `m`. -/
theorem cut_preserves_twoLetters :
    (∃ u g, twoLetters.splitText ⟨1⟩ 1 = (.ok u, g) ∧ Cut twoLetters g ⟨1⟩ 1 [] u ∧
      g.characters ⟨1⟩ = ['a'] ∧ g.characters u = ['b'] ∧ SameText twoLetters g ⟨1⟩) ∧
    ∃ x g, twoLetters.insertMarked ⟨1⟩ 1 "m" = (.ok x, g) ∧
      (∃ u, Cut twoLetters g ⟨1⟩ 1 [x] u) ∧ SameText twoLetters g ⟨1⟩ := by
  obtain ⟨hsplits, -, hcut, hmarks⟩ :=
    WellFormed.cut_preserves (f := twoLetters) (t := ⟨1⟩) (by decide) (by decide) 1 "m"
  obtain ⟨hmarks, -, hmarked⟩ := hmarks ⟨0⟩ (by decide)
  obtain ⟨u, g, hsplit⟩ := hsplits.mpr (by decide)
  obtain ⟨x, g', hmark⟩ := hmarks.mpr (by decide)
  obtain ⟨hsplit', hsame⟩ := hcut u g hsplit
  obtain ⟨hmark', -, -, -, hsame'⟩ := hmarked x g' hmark
  exact ⟨⟨u, g, hsplit, hsplit', hsplit'.characters_head, hsplit'.characters_tail, hsame⟩,
    x, g', hmark, hmark', hsame'⟩

end TreePointer.Forest
