import TreePointer.Proofs.Address.RoundTrip
import TreePointer.Proofs.Address.Offsets
import TreePointer.Proofs.Address.Reach
import TreePointer.Proofs.Address.Simulation
import TreePointer.Proofs.Tree.RangeCalls

/-!
# Every resolution is sound

Whatever text is taken as an address, a range that comes of it lies in the document, at offsets that
its containers have and with its start not after its stop, and a fault that comes of it tells what
is wrong with the address or that it locates nothing. An evaluation asks a document in order only
for things that keep this up, so the document answers alike to itself in a sense that keeps it up.

* `Range.Sound`: what is asked of a range of the document.
* `Document.Rooted.alikeIn_self`: a document answers an evaluation by sound ranges.
* `resolve_sound`, `resolveElement_sound`: what a resolution gives.
* `resolution_sound`: both together.
-/

namespace TreePointer

/-- A range of the document: its ends lie in the document and in the bounds of their containers, the
start not after the stop. -/
structure Range.Sound (f : Forest) (d : Document) (r : Range) : Prop where
  start_within : f.Within d.root r.start.container
  stop_within : f.Within d.root r.stop.container
  start_inBounds : r.start.InBounds f
  stop_inBounds : r.stop.InBounds f
  ordered : r.Ordered f

namespace Gives

variable {α : Type} {E : Fault → Prop} {Q : α → Prop} {x : Except Fault α}

/-- What a computation gives, it gives twice. -/
theorem agreesIn (h : Gives E Q x) : AgreesIn E (fun a b => b = a ∧ Q a) x x := by
  cases h with
  | ok h => exact .ok ⟨rfl, h⟩
  | error h => exact .error h

theorem of_agreesIn {R : α → α → Prop} (h : AgreesIn E R x x) (hR : ∀ a, R a a → Q a) :
    Gives E Q x := by
  cases h with
  | ok h => exact .ok (hR _ h)
  | error h => exact .error h

end Gives

/-- A fault of the address, or of an address that locates nothing. -/
def Fault.IsReported (e : Fault) : Prop :=
  e.kind = .malformed ∨ e.kind = .unresolved ∨ e.kind = .unsupported

theorem Fault.OfAddress.isReported {e : Fault} (h : e.OfAddress) : e.IsReported := by
  cases h with
  | malformed cause rest => exact .inl rfl
  | unsupported cause => exact .inr (.inr rfl)

theorem Fault.isReported_unresolved (cause : ResolutionFault) : (unresolved cause).IsReported :=
  .inr (.inl rfl)

namespace Range

variable {f : Forest} {d : Document} {b : Boundary} {r : Range}

theorem sound_point (hw : f.Within d.root b.container) (hb : b.InBounds f) :
    (Range.point b).Sound f d :=
  ⟨hw, hw, hb, hb, .eq, Boundary.compare_self f b, by decide⟩

theorem Sound.collapse (h : r.Sound f d) (toStart : Bool) : (r.collapse toStart).Sound f d := by
  cases toStart
  · exact sound_point h.stop_within h.stop_inBounds
  · exact sound_point h.start_within h.start_inBounds

/-- A search for a stretch gives a point, or it makes a range. -/
theorem ordered_of_stringRange {n : Node} {start length : Int}
    (h : f.stringRange n start length = .ok (some r)) : r.Ordered f := by
  unfold Forest.stringRange at h
  dsimp only at h
  split at h
  · next first last _ =>
    split at h
    · cases h
      exact ordered_point f _
    · obtain ⟨made, hmade, h⟩ := exists_of_bind h
      cases h
      exact (InOrder.make hmade).ordered
  · split at h
    · cases h
      exact ordered_point f _
    · cases h

end Range

namespace Document.Rooted

variable {f : Forest} {d : Document} (hd : d.Rooted f)

include hd

/-! ## Ways to come to a range -/

theorem make_sound {a b : Boundary} (ha : f.Within d.root a.container) (hai : a.InBounds f)
    (hb : f.Within d.root b.container) (hbi : b.InBounds f) :
    ∃ r, Range.make f a b = .ok r ∧ r.Sound f d := by
  obtain ⟨o, ho⟩ := hd.wellFormed.exists_compare ha hb
  by_cases hgt : o = .gt
  · subst hgt
    exact ⟨_, Range.make_of_gt hai hbi ho, Range.sound_point ha hai⟩
  · exact ⟨_, Range.make_of_le hai hbi ho hgt, ha, hb, hai, hbi, o, ho, hgt⟩

theorem around_below {n : Node} (hn : f.Within d.root n) (hne : n ≠ d.root) :
    ∃ r, Location.rangeAround f n = .ok r ∧ r.Sound f d := by
  have wf := hd.wellFormed
  obtain ⟨p, hp, hpr⟩ := wf.exists_parent hn hne
  obtain ⟨haround, hlt⟩ := wf.rangeAround_child (wf.mem_of_parent hp)
  have hcompare : Boundary.compare f ⟨p, f.slot n⟩ ⟨p, f.slot n + 1⟩ = .ok .lt := by
    rw [Boundary.compare, if_pos rfl, Nat.compare_eq_lt.mpr (Nat.lt_succ_self _)]
  exact ⟨_, haround, hpr, hpr, Nat.le_of_lt hlt, hlt, .lt, hcompare, by decide⟩

/-- The root has no place of its own; the range of its first element stands for it. -/
theorem around_sound {n : Node} (hn : f.Within d.root n) :
    Gives Fault.IsReported (Range.Sound f d) (Location.rangeAround f n) := by
  by_cases hroot : n = d.root
  · subst hroot
    rw [hd.wellFormed.rangeAround_of_top hd.parent_root]
    cases he : f.firstElement? d.root with
    | none => exact .error (Fault.isReported_unresolved _)
    | some e =>
      have wf := hd.wellFormed
      have hmem := List.mem_of_find?_eq_some he
      obtain ⟨r, hr, hsound⟩ :=
        hd.around_below (wf.within_child (.refl f d.root) hmem) (wf.ne_of_mem_children hmem)
      dsimp only
      rw [hr]
      exact .ok hsound
  · obtain ⟨r, hr, hsound⟩ := hd.around_below hn hroot
    rw [hr]
    exact .ok hsound

/-- The places of a search for a stretch lie below the node that is searched. -/
theorem stringRange_sound {n : Node} (hn : f.Within d.root n) (start length : Nat) :
    ∃ found, f.stringRange n start length = .ok found ∧ ∀ r ∈ found, r.Sound f d := by
  have wf := hd.wellFormed
  obtain ⟨found, hfound, hat⟩ := wf.stringRange_at hd.has_root hn start length
  refine ⟨found, hfound, fun r hr => ?_⟩
  obtain rfl : found = some r := hr
  generalize stretch? _ _ _ = stretch at hat
  cases hat with
  | some hat => exact ⟨hat.start.within, hat.stop.within, hat.start.inBounds, hat.stop.inBounds,
      Range.ordered_of_stringRange hfound⟩

/-! ## A document answers itself -/

/-- **A document answers an evaluation** about its nodes by sound ranges, or because there is no
element at all. -/
theorem alikeIn_self : AlikeIn Fault.IsReported f f d (d.Reaches f)
    (fun r r' => r' = r ∧ r.Sound f d) := by
  have hmake : ∀ r r' s s' : Range, r' = r ∧ r.Sound f d → s' = s ∧ s.Sound f d →
      Gives Fault.IsReported (Range.Sound f d) (Range.make f r.start s.stop) := by
    rintro r - s - ⟨-, hr⟩ ⟨-, hs⟩
    exact .of_ok
      (hd.make_sound hr.start_within hr.start_inBounds hs.stop_within hs.stop_inBounds)
  have hstring : ∀ (n : Node) (start length : Nat), d.Reaches f n → Gives Fault.IsReported
      (fun found => ∀ r ∈ found, r.Sound f d) (f.stringRange n start length) :=
    fun n start length hn => .of_ok (hd.stringRange_sound hn.1 start length)
  exact {
    root := hd.reaches_root
    isElement_eq := fun _ _ => rfl
    tag_eq := fun _ _ => rfl
    elements_eq := fun _ _ => rfl
    elements_mem := fun _ _ => hd.reaches_element
    parent_eq := fun _ _ => rfl
    parent_mem := fun _ _ hn => hd.reaches_effectiveParent hn.1
    byId_eq := fun _ => rfl
    byId_mem := fun _ _ => hd.reaches_elementById
    around := fun _ hn => (hd.around_sound hn.1).agreesIn.agrees
    make := by
      rintro r r' s s' ⟨rfl, hr⟩ ⟨rfl, hs⟩
      exact (hmake r' r' s' s' ⟨rfl, hr⟩ ⟨rfl, hs⟩).agreesIn.agrees
    collapse := fun r r' toStart hr => ⟨by rw [hr.1], hr.2.collapse toStart⟩
    stringRange := by
      intro n start length hn
      refine ((hstring n start length hn).agreesIn.mono ?_).agrees
      rintro _ found ⟨rfl, hsound⟩
      cases found with
      | none => exact .none
      | some r => exact .some ⟨rfl, hsound r rfl⟩
    ofAddress := fun _ => Fault.OfAddress.isReported
    around_fails := fun _ hn => (hd.around_sound hn.1).fails
    make_fails := fun r r' s s' hr hs => (hmake r r' s s' hr hs).fails
    stringRange_fails := fun n start length hn => (hstring n start length hn).fails }

end Document.Rooted

/-! ## What a resolution gives -/

namespace Address

section

variable {f : Forest} {d : Document} (hd : d.Rooted f) (o : Options) (text : String)

include hd

/-- **An address** gives a sound range or a fault that is reported. -/
theorem resolve_sound : Gives Fault.IsReported (Range.Sound f d) (resolve f d o text) := by
  have h := hd.alikeIn_self.correspondence
  refine Gives.bind (Gives.of_agreesIn (evaluate_agreesIn h o text) fun ctx hctx => hctx)
    fun ctx hctx => ?_
  cases hctx with
  | nil => exact .error (Fault.isReported_unresolved _)
  | @cons first _ rest _ hfirst _ =>
    dsimp only
    split
    · exact Gives.of_agreesIn (Location.toRange_agrees h hfirst) fun r hr => hr.2
    · exact .error (Fault.isReported_unresolved _)

/-- The node in which a sound range starts. -/
theorem startNode_sound {r : Range} (hr : r.Sound f d) :
    ∃ n, startNode f r = .ok n ∧ f.Within d.root n := by
  have wf := hd.wellFormed
  have hw := hr.start_within
  unfold startNode
  dsimp only
  split
  · split
    · next child hchild =>
      refine ⟨_, rfl, ?_⟩
      split
      · exact wf.within_child hw (List.mem_of_getElem? hchild)
      · exact hw
    · exact ⟨_, rfl, hw⟩
  · next hcontainer =>
    have hne : r.start.container ≠ d.root := by
      intro e
      rw [e, hd.kind_root] at hcontainer
      exact hcontainer rfl
    obtain ⟨p, hp⟩ := hd.exists_effectiveParent? hw hne
    rw [hp]
    exact ⟨p, rfl, (hd.reaches_effectiveParent hw hp).1⟩

/-- **The element of an address** lies in the document, or a fault is reported. -/
theorem resolveElement_sound :
    Gives Fault.IsReported (fun n => f.Within d.root n ∧ f.isElement n = true)
      (resolveElement f d o text) := by
  refine (resolve_sound hd o text).bind fun r hr => ?_
  obtain ⟨n, hn, hw⟩ := startNode_sound hd hr
  simp only [hn, bind, Except.bind]
  split
  · next helement => exact .ok ⟨hw, helement⟩
  · split
    · next e he =>
      have hmem := List.mem_of_find?_eq_some he
      exact .ok ⟨hd.wellFormed.within_child hw hmem, List.find?_some he⟩
    · exact .error (Fault.isReported_unresolved _)

/-- **Every resolution is sound.** Whatever text is resolved in a document, by whatever options, a
range that comes of it is sound and an element that comes of it lies in the document; all that can
go wrong is in the address or that it locates nothing. -/
theorem resolution_sound :
    Gives Fault.IsReported (Range.Sound f d) (resolve f d o text) ∧
      Gives Fault.IsReported (fun n => f.Within d.root n ∧ f.isElement n = true)
        (resolveElement f d o text) :=
  ⟨resolve_sound hd o text, resolveElement_sound hd o text⟩

end

/-- From the blank before the note, in the text of `p`, to the end of `q`. -/
theorem resolution_sound_noted :
    Range.Sound noted ⟨⟨0⟩, .xml⟩ ⟨⟨⟨3⟩, 2⟩, ⟨⟨1⟩, 2⟩⟩ ∧
      noted.Within ⟨0⟩ ⟨2⟩ ∧ noted.isElement ⟨2⟩ = true := by
  obtain ⟨hrange, helement⟩ := resolution_sound noted_rooted .standard
    "start-point(string-range(id('x'),'',3,1))/range-to(/r/q)"
  exact ⟨hrange.of_toOption (by decide +kernel), helement.of_toOption (by decide +kernel)⟩

end Address

end TreePointer
