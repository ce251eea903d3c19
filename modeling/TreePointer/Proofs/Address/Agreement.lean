import Mathlib.Data.List.Forall2
import TreePointer.Address.Resolution
import TreePointer.Forest.WellFormed
import TreePointer.Proofs.Token.Faults

/-!
# Two forests that an evaluation cannot tell apart

An evaluation asks a forest a few questions about the nodes and ranges it has come to. If two
forests answer them alike, where ranges may be answered by other ranges that match, then everything
that is looked up in the one is looked up alike in the other.

* `Agrees`: both computations fail with one fault, or give what is related; `AgreesIn` also says
  which sort of fault that may be.
* `Alike`: the questions, and that they are answered alike; `AlikeIn` also says which sort of fault
  an answer may be.
* `Location.Matches`: entries that stand for the same.
-/

namespace TreePointer

/-! ## Computations -/

/-- Both computations fail with one fault, or what they give is related. -/
inductive Agrees {α β : Type} (R : α → β → Prop) : Except Fault α → Except Fault β → Prop
  | ok {a : α} {b : β} (h : R a b) : Agrees R (.ok a) (.ok b)
  | error (e : Fault) : Agrees R (.error e) (.error e)

namespace Agrees

variable {α β γ δ : Type} {R R' : α → β → Prop} {S : γ → δ → Prop} {x : Except Fault α}
  {y : Except Fault β}

theorem mono (h : Agrees R x y) (hR : ∀ a b, R a b → R' a b) : Agrees R' x y := by
  cases h with
  | ok h => exact .ok (hR _ _ h)
  | error e => exact .error e

/-- What goes on alike from what is related agrees. -/
theorem bind {h : α → Except Fault γ} {k : β → Except Fault δ} (hxy : Agrees R x y)
    (hhk : ∀ a b, R a b → Agrees S (h a) (k b)) : Agrees S (x >>= h) (y >>= k) := by
  cases hxy with
  | ok hab => exact hhk _ _ hab
  | error e => exact .error e

end Agrees

/-- The computations agree, and if they fail, then with a fault of a certain sort. -/
inductive AgreesIn {α β : Type} (E : Fault → Prop) (R : α → β → Prop) :
    Except Fault α → Except Fault β → Prop
  | ok {a : α} {b : β} (h : R a b) : AgreesIn E R (.ok a) (.ok b)
  | error {e : Fault} (h : E e) : AgreesIn E R (.error e) (.error e)

namespace AgreesIn

variable {α β γ δ : Type} {E : Fault → Prop} {R : α → β → Prop} {S : γ → δ → Prop}

theorem of_agrees {x : Except Fault α} {y : Except Fault β} (h : Agrees R x y)
    (hx : FailsIn E x) : AgreesIn E R x y := by
  cases h with
  | ok h => exact .ok h
  | error e => exact .error (hx e rfl)

theorem agrees {x : Except Fault α} {y : Except Fault β} (h : AgreesIn E R x y) :
    Agrees R x y := by
  cases h with
  | ok h => exact .ok h
  | error _ => exact .error _

theorem mono {R' : α → β → Prop} {x : Except Fault α} {y : Except Fault β}
    (h : AgreesIn E R x y) (hR : ∀ a b, R a b → R' a b) : AgreesIn E R' x y := by
  cases h with
  | ok h => exact .ok (hR _ _ h)
  | error h => exact .error h

/-- What goes on alike from what is related agrees. -/
theorem bind {x : Except Fault α} {y : Except Fault β} {h : α → Except Fault γ}
    {k : β → Except Fault δ} (hxy : AgreesIn E R x y)
    (hhk : ∀ a b, R a b → AgreesIn E S (h a) (k b)) : AgreesIn E S (x >>= h) (y >>= k) := by
  cases hxy with
  | ok hab => exact hhk _ _ hab
  | error he => exact .error he

theorem mapM {xs : List α} {ys : List β} {h : α → Except Fault γ} {k : β → Except Fault δ}
    (hxy : List.Forall₂ R xs ys) (hhk : ∀ a b, R a b → AgreesIn E S (h a) (k b)) :
    AgreesIn E (List.Forall₂ S) (xs.mapM h) (ys.mapM k) := by
  induction hxy with
  | nil => exact .ok .nil
  | cons hab _ ih =>
    rw [List.mapM_cons, List.mapM_cons]
    exact (hhk _ _ hab).bind fun c d hcd => ih.bind fun cs ds hcds => .ok (.cons hcd hcds)

theorem foldlM {xs : List α} {ys : List β} {h : γ → α → Except Fault γ}
    {k : δ → β → Except Fault δ} (hxy : List.Forall₂ R xs ys)
    (hhk : ∀ s t a b, S s t → R a b → AgreesIn E S (h s a) (k t b)) {s : γ} {t : δ}
    (hst : S s t) : AgreesIn E S (xs.foldlM h s) (ys.foldlM k t) := by
  induction hxy generalizing s t with
  | nil => exact .ok hst
  | cons hab _ ih =>
    rw [List.foldlM_cons, List.foldlM_cons]
    exact (hhk _ _ _ _ hst hab).bind fun _ _ hst' => ih hst'

end AgreesIn

/-! ## Numbered children -/

namespace Forest

variable {f g : Forest} {p n : Node} {accept accept' : Node → Bool}

/-- Only the children that meet the condition are counted. -/
theorem foldlM_nthStep (k : Nat) (ns : List Node) (seen : Nat) :
    ns.foldlM (nthStep accept k) seen
      = (ns.filter accept).foldlM (nthStep (fun _ => true) k) seen := by
  induction ns generalizing seen with
  | nil => rfl
  | cons n ns ih =>
    rw [List.foldlM_cons, nthStep]
    by_cases hn : accept n = true
    · rw [if_pos hn, List.filter_cons_of_pos hn, List.foldlM_cons, nthStep, if_pos rfl]
      split
      · rfl
      · exact ih _
    · rw [if_neg hn, List.filter_cons_of_neg hn]
      exact ih seen

end Forest

/-! ## Forests -/

/-- What an evaluation asks of a forest is answered alike by another one, as long as the nodes it
comes to are in `N` and the ranges it comes to match by `R`. -/
structure Alike (f g : Forest) (d : Document) (N : Node → Prop) (R : Range → Range → Prop) :
    Prop where
  root : N d.root
  isElement_eq : ∀ n, N n → g.isElement n = f.isElement n
  tag_eq : ∀ n, N n → d.tagOf? g n = d.tagOf? f n
  elements_eq : ∀ p, N p → (g.spliced p).filter g.isElement = (f.spliced p).filter f.isElement
  elements_mem : ∀ p c, N p → c ∈ (f.spliced p).filter f.isElement → N c
  parent_eq : ∀ n, N n → g.effectiveParent? n = f.effectiveParent? n
  parent_mem : ∀ n p, N n → f.effectiveParent? n = some p → N p
  byId_eq : ∀ id, d.elementById? g id = d.elementById? f id
  byId_mem : ∀ id n, d.elementById? f id = some n → N n
  around : ∀ n, N n → Agrees R (Location.rangeAround f n) (Location.rangeAround g n)
  make : ∀ r r' s s', R r r' → R s s' →
    Agrees R (Range.make f r.start s.stop) (Range.make g r'.start s'.stop)
  collapse : ∀ r r' toStart, R r r' → R (r.collapse toStart) (r'.collapse toStart)
  stringRange : ∀ n (start length : Nat), N n →
    Agrees (Option.Rel R) (f.stringRange n start length) (g.stringRange n start length)

/-- The forests answer alike, and where a place has no range they fail in a certain way, in which
an address may also be at fault by itself. -/
structure AlikeIn (E : Fault → Prop) (f g : Forest) (d : Document) (N : Node → Prop)
    (R : Range → Range → Prop) : Prop extends Alike f g d N R where
  ofAddress : ∀ e, Fault.OfAddress e → E e
  around_fails : ∀ n, N n → FailsIn E (Location.rangeAround f n)
  make_fails : ∀ r r' s s', R r r' → R s s' → FailsIn E (Range.make f r.start s.stop)
  stringRange_fails : ∀ n (start length : Nat), N n → FailsIn E (f.stringRange n start length)

/-- Entries that stand for the same: one node, ranges that match, or one value. -/
inductive Location.Matches (N : Node → Prop) (R : Range → Range → Prop) : Location → Location → Prop
  | node {n : Node} (h : N n) : Location.Matches N R (.node n) (.node n)
  | range {r r' : Range} (h : R r r') : Location.Matches N R (.range r) (.range r')
  | literal (s : String) : Location.Matches N R (.literal s) (.literal s)
  | number (x : Binary64) : Location.Matches N R (.number x) (.number x)
  | boolean (b : Bool) : Location.Matches N R (.boolean b) (.boolean b)

/-- Contexts that stand for the same, entry by entry. -/
def Context.Matches (N : Node → Prop) (R : Range → Range → Prop) : Context → Context → Prop :=
  List.Forall₂ (Location.Matches N R)

/-- Forests that answer alike do so with whatever faults they have. -/
theorem Alike.inAny {f g : Forest} {d : Document} {N : Node → Prop} {R : Range → Range → Prop}
    (h : Alike f g d N R) : AlikeIn (fun _ => True) f g d N R :=
  ⟨h, fun _ _ => trivial, fun _ _ _ _ => trivial, fun _ _ _ _ _ _ _ _ => trivial,
    fun _ _ _ _ _ _ => trivial⟩

end TreePointer
