import TreePointer.Proofs.Address.Check
import TreePointer.Proofs.Address.Edges
import TreePointer.Proofs.Tree.Order

/-!
# Addresses in a document that is part of a tree

A document may be made of a node that has a parent. Addresses are read from this node on, and ids
are looked up below it, but a path is written from the top of the tree. So an address that starts
from an id leads back to its element, and a path does not: it names the element in the document that
is made of the top of the tree, and in the one for which it was made it goes too deep.

* `descend?_depth`: in an unmarked tree each step of a path goes down one level.
* `elementPath_innerRoot`: what the address of an element finds in such a document.
* `not_elementPath_innerRoot`: the address of an element need not find it.
-/

namespace TreePointer

open Expression

variable {f : Forest} {d : Document} {o : Options} {e p : Node} {path : String}

/-- The document that is made of the top of the tree. -/
abbrev Document.whole (f : Forest) (d : Document) : Document := d.withRoot (f.top d.root)

/-! ## Depths -/

namespace Document.IsUnmarked

variable (hu : d.IsUnmarked f) (wf : f.WellFormed)

include hu wf

/-- No node is left out on the way up. -/
theorem effectiveAncestors_eq (htop : f.parent d.root = none) {n : Node}
    (hn : f.Within d.root n) : f.effectiveAncestors n = f.ancestors n := by
  rw [Forest.effectiveAncestors, List.filter_eq_self]
  intro a ha
  rw [hu.not_isIgnored (wf.within_of_mem_ancestors htop hn ha)]
  rfl

/-- A step of a path leads to a child. -/
theorem child?_mem {s : PathStep} {p c : Node} (hp : f.Within d.root p) (hhas : f.Has p)
    (h : s.child? f d p = some c) : c ∈ f.children p := by
  unfold PathStep.child? at h
  split at h
  · next found hfound =>
    cases h
    have hmem := (List.mem_filter.mp (Forest.mem_of_nthChild hfound)).1
    rwa [wf.spliced_of_plain hhas fun c hc => hu.not_isIgnored (wf.within_child hp hc)] at hmem
  · cases h

/-- **Each step of a path goes down one level.** -/
theorem descend?_depth (steps : List PathStep) {p : Option Node} {m : Node}
    (hp : ∀ n ∈ p, f.Within d.root n ∧ f.Has n) (h : descend? f d steps p = some m) :
    ∃ n ∈ p, f.Within n m ∧ (f.ancestors m).length = (f.ancestors n).length + steps.length := by
  induction steps generalizing p with
  | nil => exact ⟨m, h, .refl f m, rfl⟩
  | cons s steps ih =>
    have hchild : ∀ c ∈ p.bind (s.child? f d), ∃ n ∈ p, c ∈ f.children n := by
      intro c hc
      obtain ⟨n, hn, hstep⟩ := Option.bind_eq_some_iff.mp hc
      exact ⟨n, hn, hu.child?_mem wf (hp n hn).1 (hp n hn).2 hstep⟩
    have hbelow : ∀ c ∈ p.bind (s.child? f d), f.Within d.root c ∧ f.Has c := by
      intro c hc
      obtain ⟨n, hn, hmem⟩ := hchild c hc
      exact ⟨wf.within_child (hp n hn).1 hmem, wf.has_child hmem⟩
    obtain ⟨c, hc, hw, hdepth⟩ := ih hbelow h
    obtain ⟨n, hn, hmem⟩ := hchild c hc
    refine ⟨n, hn, wf.within_trans (wf.within_child (.refl f n) hmem) hw, ?_⟩
    rw [hdepth, wf.depth_child hmem, List.length_cons]
    omega

end Document.IsUnmarked

namespace Address

/-! ## What an address finds -/

theorem nodeEntries_eq_iff {found : Option Node} :
    nodeEntries found = [.node e] ↔ found = some e := by
  cases found <;> simp [nodeEntries]

/-- **Addresses in a document that is part of an unmarked tree.** If the address of an element may
start from an id, it finds the element. Else it is a path from the top of the tree. In the document
of the whole tree this finds the element; in the document for which it was made it finds nothing or
one node, which lies as much deeper than the element as the root of the document is below the top of
the tree. -/
theorem elementPath_innerRoot (wf : f.WellFormed) (hu : (d.whole f).IsUnmarked f)
    (hlex : (d.whole f).Lexable f) (hinner : f.parent d.root = some p) (he : f.Within d.root e)
    (helement : f.isElement e = true) (h : elementPath f d o e = .ok path) (o' : Options) :
    (referable f d o e ≠ [] → d.NoWildcard f → evaluate f d o' path = .ok [.node e]) ∧
      (referable f d o e = [] →
        (∃ found, evaluate f d o' path = .ok (nodeEntries found) ∧ ∀ n ∈ found,
          f.Within d.root n ∧
            (f.ancestors n).length = (f.ancestors e).length + (f.ancestors d.root).length) ∧
        evaluate f d o' path ≠ .ok [.node e] ∧
        ((d.whole f).NoWildcard f → evaluate f (d.whole f) o' path = .ok [.node e])) := by
  have hhas := Forest.has_of_parent hinner
  have htop := f.parent_top wf d.root
  have hroot := f.within_top d.root
  have hetop : f.Within (f.top d.root) e := wf.within_trans hroot he
  have hi := hu.not_isIgnored (.refl f (f.top d.root))
  rcases elementPath_cases wf hlex htop hi hetop helement h with
    ⟨a, route, ha, hchars, hlegible, hnode, hto⟩ | ⟨hnone, steps, hchars, hsteps, hne, hlength, hto⟩
  · refine ⟨fun _ hstar => ?_, fun hnone => absurd ha (hnone ▸ List.not_mem_nil)⟩
    have hfinds := route.finds hlegible f d
    have haroot := within_of_mem_referable wf hhas ha
    rw [← hchars, hto (hstar.below wf haroot)] at hfinds
    exact hfinds.evaluate_plain
  · refine ⟨fun hsome => absurd hnone hsome, fun _ => ?_⟩
    have hfinds := fun d' => (finds_path (f := f) (d := d') hsteps hne)
    rw [← hchars] at hfinds
    have hvalue : evaluate f d o' path = .ok (nodeEntries (descend? f d steps (some d.root))) :=
      (hfinds d).evaluate_plain
    have hdeep : ∀ n ∈ descend? f d steps (some d.root), f.Within d.root n ∧
        (f.ancestors n).length = (f.ancestors e).length + (f.ancestors d.root).length := by
      intro n hn
      obtain ⟨m, hm, hw, hdepth⟩ := hu.descend?_depth wf steps (by simp [hroot, hhas]) hn
      obtain rfl := Option.mem_some_iff.mp hm
      rw [hlength, hu.effectiveAncestors_eq wf htop hetop] at hdepth
      exact ⟨hw, hdepth.trans (Nat.add_comm _ _)⟩
    refine ⟨⟨_, hvalue, hdeep⟩, fun hself => ?_, fun hstar => ?_⟩
    · -- the root has a parent, so that what is found is deeper than the element
      rw [hvalue, Except.ok.injEq, nodeEntries_eq_iff] at hself
      have hdepth := (hdeep e hself).2
      rw [wf.ancestors_of_parent hinner, List.length_cons] at hdepth
      omega
    · have hfound : descend? f (d.whole f) steps (some (f.top d.root)) = some e := hto hstar
      rw [(hfinds (d.whole f)).evaluate_plain, hfound]
      rfl

/-- The document `<r><s><x/><y id="i"/></s></r>`. -/
def housed : Forest := ⟨#[
  { Record.bare .document with children := [⟨1⟩] },
  { Record.bare .element with
    name := some (.plain "r"), parent := some ⟨0⟩, children := [⟨2⟩] },
  { Record.bare .element with
    name := some (.plain "s"), parent := some ⟨1⟩, children := [⟨3⟩, ⟨4⟩] },
  { Record.bare .element with name := some (.plain "x"), parent := some ⟨2⟩ },
  { Record.bare .element with
    name := some (.plain "y"), attributes := [⟨.plain "id", "i"⟩], parent := some ⟨2⟩ }]⟩

theorem housed_rooted : Document.Rooted housed ⟨⟨0⟩, .xml⟩ := by decide

theorem housed_lexable : (Document.whole housed ⟨⟨2⟩, .xml⟩).Lexable housed :=
  housed_rooted.lexable_of_check (by decide)

theorem housed_unmarked : (Document.whole housed ⟨⟨2⟩, .xml⟩).IsUnmarked housed :=
  housed_rooted.forall_within (by decide)

/-- In the document that is made of `s`, the `y` is found by its id, and the `x` is not found. -/
theorem elementPath_innerRoot_housed :
    evaluate housed ⟨⟨2⟩, .xml⟩ .standard "id(\"i\")" = .ok [.node ⟨4⟩] ∧
      evaluate housed ⟨⟨2⟩, .xml⟩ .standard "/r[1]/s[1]/x[1]" ≠ .ok [.node ⟨3⟩] ∧
      evaluate housed ⟨⟨0⟩, .xml⟩ .standard "/r[1]/s[1]/x[1]" = .ok [.node ⟨3⟩] := by
  have hx : elementPath housed ⟨⟨2⟩, .xml⟩ .standard ⟨3⟩ = .ok "/r[1]/s[1]/x[1]" := by decide
  have hy : elementPath housed ⟨⟨2⟩, .xml⟩ .standard ⟨4⟩ = .ok "id(\"i\")" := by decide
  have hwhole : (Document.whole housed ⟨⟨2⟩, .xml⟩).NoWildcard housed :=
    housed_rooted.noWildcard_of_check (by decide)
  have hstar : Document.NoWildcard housed ⟨⟨2⟩, .xml⟩ :=
    hwhole.below housed_rooted.wellFormed (by decide)
  obtain ⟨hfinds, -⟩ := elementPath_innerRoot housed_rooted.wellFormed housed_unmarked
    housed_lexable rfl (by decide) (by decide) hy .standard
  obtain ⟨-, hlost⟩ := elementPath_innerRoot housed_rooted.wellFormed housed_unmarked
    housed_lexable rfl (by decide) (by decide) hx .standard
  obtain ⟨-, hother, hfound⟩ := hlost (by decide)
  exact ⟨hfinds (by decide) hstar, hother, hfound hwhole⟩

/-- The address of `x` is written from the top of the tree, and read from `s` it finds nothing. -/
theorem not_elementPath_innerRoot :
    ¬ ∀ (f : Forest) (d : Document) (o o' : Options) (e p : Node) (path : String),
      f.WellFormed → (d.whole f).IsUnmarked f → (d.whole f).Lexable f →
      f.isElement d.root = true → f.parent d.root = some p → f.Within d.root e → e ≠ d.root →
      f.isElement e = true → elementPath f d o e = .ok path →
      evaluate f d o' path = .ok [.node e] := by
  intro h
  have hmade : elementPath housed ⟨⟨2⟩, .xml⟩ .standard ⟨3⟩ = .ok "/r[1]/s[1]/x[1]" := by decide
  have hfound := h housed ⟨⟨2⟩, .xml⟩ .standard .standard ⟨3⟩ ⟨1⟩ _ housed_rooted.wellFormed
    housed_unmarked housed_lexable (by decide) (by decide) (by decide) (by decide) (by decide) hmade
  have hlost : evaluate housed ⟨⟨2⟩, .xml⟩ .standard "/r[1]/s[1]/x[1]" = .ok [] := by
    decide +kernel
  rw [hlost] at hfound
  cases hfound

end Address

end TreePointer
