import TreePointer.Proofs.Address.Agreement
import TreePointer.Proofs.Related

/-!
# Forests whose nodes correspond

Documents that are alike need not keep their nodes under the same names. What an evaluation asks
about a node of the one is then answered alike about the node that corresponds to it in the other,
and everything that is looked up in the one is looked up alike in the other. Forests that share
their nodes are the case in which every node corresponds to itself.

* `Correspondence`: the questions, and that they are answered alike; `CorrespondenceIn` also says
  which sort of fault an answer may be.
* `Location.Corresponds`: entries that stand for the same.
* `Predicate.apply_corresponds`, `Location.toRange_agrees`: what is built from the questions.
* `AlikeIn.correspondence`: forests that share their nodes.
-/

namespace TreePointer

/-! ## Numbered children -/

namespace Forest

variable {f g : Forest} {M : Node → Node → Prop} {p p' : Node} {accept accept' : Node → Bool}

/-- Searches of lists that correspond find nodes that correspond, or count alike. -/
theorem foldlM_nthStep_corresponds {ns ms : List Node} (h : List.Forall₂ M ns ms) (k : Nat) :
    StopsAlike M Eq (ns.foldlM (nthStep (fun _ => true) k) 0)
      (ms.foldlM (nthStep (fun _ => true) k) 0) := by
  refine .foldlM h (fun seen seen' n m hseen hnm => ?_) rfl
  subst hseen
  simp only [nthStep, if_true]
  split
  · exact .stop hnm
  · exact .go rfl

/-- The child with a number corresponds to the one with that number. -/
theorem nthChild_corresponds (k : Nat)
    (h : List.Forall₂ M ((f.spliced p).filter accept) ((g.spliced p').filter accept')) :
    (∃ c c', f.nthChild p k accept = .found c ∧ g.nthChild p' k accept' = .found c' ∧ M c c') ∨
      ∃ s, f.nthChild p k accept = .count s ∧ g.nthChild p' k accept' = .count s := by
  rw [nthChild, nthChild, visitSpliced_eq, visitSpliced_eq, foldlM_nthStep k (f.spliced p),
    foldlM_nthStep k (g.spliced p')]
  have hrun := foldlM_nthStep_corresponds h k
  generalize ((f.spliced p).filter accept).foldlM (nthStep (fun _ => true) k) 0 = a,
    ((g.spliced p').filter accept').foldlM (nthStep (fun _ => true) k) 0 = b at hrun ⊢
  cases hrun with
  | stop hc => exact .inl ⟨_, _, rfl, rfl, hc⟩
  | go e => exact .inr ⟨_, rfl, e ▸ rfl⟩

end Forest

/-! ## Forests -/

/-- What an evaluation asks of a forest is answered alike by another one, about nodes that correspond
by `M` and ranges that correspond by `R`. -/
structure Correspondence (f g : Forest) (d d' : Document) (M : Node → Node → Prop)
    (R : Range → Range → Prop) : Prop where
  root : M d.root d'.root
  one_to_one : Relator.BiUnique M
  flavor_eq : d'.flavor = d.flavor
  isElement_eq : ∀ n n', M n n' → g.isElement n' = f.isElement n
  tag_eq : ∀ n n', M n n' → d'.tagOf? g n' = d.tagOf? f n
  elements : ∀ p p', M p p' →
    List.Forall₂ M ((f.spliced p).filter f.isElement) ((g.spliced p').filter g.isElement)
  parent : ∀ n n', M n n' → Option.Rel M (f.effectiveParent? n) (g.effectiveParent? n')
  byId : ∀ id, Option.Rel M (d.elementById? f id) (d'.elementById? g id)
  around : ∀ n n', M n n' → Agrees R (Location.rangeAround f n) (Location.rangeAround g n')
  make : ∀ r r' s s', R r r' → R s s' →
    Agrees R (Range.make f r.start s.stop) (Range.make g r'.start s'.stop)
  collapse : ∀ r r' toStart, R r r' → R (r.collapse toStart) (r'.collapse toStart)
  stringRange : ∀ n n' (start length : Nat), M n n' →
    Agrees (Option.Rel R) (f.stringRange n start length) (g.stringRange n' start length)

/-- The forests answer alike, and where a place has no range they fail in a certain way, in which
an address may also be at fault by itself. -/
structure CorrespondenceIn (E : Fault → Prop) (f g : Forest) (d d' : Document)
    (M : Node → Node → Prop) (R : Range → Range → Prop) : Prop
    extends Correspondence f g d d' M R where
  ofAddress : ∀ e, Fault.OfAddress e → E e
  around_fails : ∀ n n', M n n' → FailsIn E (Location.rangeAround f n)
  make_fails : ∀ r r' s s', R r r' → R s s' → FailsIn E (Range.make f r.start s.stop)
  stringRange_fails : ∀ n n' (start length : Nat), M n n' →
    FailsIn E (f.stringRange n start length)

/-- Entries that stand for the same: nodes that correspond, ranges that do, or one value. -/
inductive Location.Corresponds (M : Node → Node → Prop) (R : Range → Range → Prop) :
    Location → Location → Prop
  | node {n n' : Node} (h : M n n') : Location.Corresponds M R (.node n) (.node n')
  | range {r r' : Range} (h : R r r') : Location.Corresponds M R (.range r) (.range r')
  | literal (s : String) : Location.Corresponds M R (.literal s) (.literal s)
  | number (x : Binary64) : Location.Corresponds M R (.number x) (.number x)
  | boolean (b : Bool) : Location.Corresponds M R (.boolean b) (.boolean b)

/-- Contexts that stand for the same, entry by entry. -/
def Context.Corresponds (M : Node → Node → Prop) (R : Range → Range → Prop) :
    Context → Context → Prop :=
  List.Forall₂ (Location.Corresponds M R)

variable {E : Fault → Prop} {f g : Forest} {d d' : Document} {M : Node → Node → Prop}
  {R : Range → Range → Prop} {entry entry' : Location} {ctx ctx' : Context}

/-- Forests that correspond do so with whatever faults they have. -/
theorem Correspondence.inAny (h : Correspondence f g d d' M R) :
    CorrespondenceIn (fun _ => True) f g d d' M R :=
  ⟨h, fun _ _ => trivial, fun _ _ _ _ _ => trivial, fun _ _ _ _ _ _ _ _ => trivial,
    fun _ _ _ _ _ _ _ => trivial⟩

namespace CorrespondenceIn

variable {α γ δ : Type} {S : γ → δ → Prop} (h : CorrespondenceIn E f g d d' M R)

include h

theorem malformed {cause : SyntaxFault} {remaining : List Char} :
    E (.malformed cause remaining) :=
  h.ofAddress _ (.malformed cause remaining)

theorem unsupported {cause : UnsupportedFault} : E (.unsupported cause) :=
  h.ofAddress _ (.unsupported cause)

theorem make_in {r r' s s' : Range} (hr : R r r') (hs : R s s') :
    AgreesIn E R (Range.make f r.start s.stop) (Range.make g r'.start s'.stop) :=
  .of_agrees (h.make _ _ _ _ hr hs) (h.make_fails _ _ _ _ hr hs)

theorem stringRange_in {n n' : Node} {start length : Nat} (hn : M n n') :
    AgreesIn E (Option.Rel R) (f.stringRange n start length) (g.stringRange n' start length) :=
  .of_agrees (h.stringRange _ _ _ _ hn) (h.stringRange_fails _ _ _ _ hn)

/-- What begins by reading the same. -/
theorem bind_isReading {x : Except Fault α} (hx : IsReading x) {u : α → Except Fault γ}
    {v : α → Except Fault δ} (huv : ∀ a, AgreesIn E S (u a) (v a)) :
    AgreesIn E S (x >>= u) (x >>= v) := by
  cases x with
  | error e => exact .error (h.ofAddress e (hx e rfl))
  | ok a => exact huv a

end CorrespondenceIn

theorem Context.Corresponds.of_nodes {ns ms : List Node} (h : List.Forall₂ M ns ms) :
    Context.Corresponds M R (ns.map .node) (ms.map .node) :=
  List.rel_map (fun _ _ hn => .node hn) h

namespace Location.Corresponds

variable (h : Location.Corresponds M R entry entry')

include h

theorem isPlace_eq : entry'.isPlace = entry.isPlace := by
  cases h <;> rfl

theorem kind_eq : entry'.kind = entry.kind := by
  cases h <;> rfl

theorem isTrue_eq : entry'.isTrue = entry.isTrue := by
  cases h <;> rfl

theorem number?_eq : entry'.number? = entry.number? := by
  cases h <;> rfl

end Location.Corresponds

theorem Location.toRange_agrees (h : CorrespondenceIn E f g d d' M R)
    (he : Location.Corresponds M R entry entry') :
    AgreesIn E R (entry.toRange f) (entry'.toRange g) := by
  cases he with
  | node hn => exact .of_agrees (h.around _ _ hn) (h.around_fails _ _ hn)
  | range hr => exact .ok hr
  | literal s => exact .error h.unsupported
  | number x => exact .error h.unsupported
  | boolean b => exact .error h.unsupported

/-! ## Children that meet a condition -/

/-- Only elements have a name. -/
theorem Expression.filter_accepts (f : Forest) (d : Document) (name : String) (ns : List Node) :
    ns.filter (accepts f d name) = (ns.filter f.isElement).filter (accepts f d name) := by
  rw [List.filter_filter]
  refine List.filter_congr fun c _ => ?_
  cases hc : f.isElement c
  · simp [accepts, hc]
  · simp

namespace Correspondence

variable (h : Correspondence f g d d' M R) {ns ns' : List Node} (name : String)

include h

theorem accepts_eq {n n' : Node} (hn : M n n') :
    Expression.accepts g d' name n' = Expression.accepts f d name n := by
  have hnormal : d'.normalizeTag name = d.normalizeTag name := by
    rw [Document.normalizeTag, h.flavor_eq, Document.normalizeTag]
  rw [Expression.accepts, Expression.accepts, h.isElement_eq _ _ hn, h.tag_eq _ _ hn, hnormal]

/-- The child elements with a name correspond. -/
theorem filter_accepts {p p' : Node} (hp : M p p') :
    List.Forall₂ M ((f.spliced p).filter (Expression.accepts f d name))
      ((g.spliced p').filter (Expression.accepts g d' name)) := by
  rw [Expression.filter_accepts f, Expression.filter_accepts g]
  refine List.rel_filter (fun c c' hc => ?_) (h.elements p p' hp)
  exact Iff.of_eq (congrArg (· = true) (h.accepts_eq name hc).symm)

theorem matching_corresponds (hns : List.Forall₂ M ns ns') :
    Context.Corresponds M R (f.matching (Expression.accepts f d name) ns)
      (g.matching (Expression.accepts g d' name) ns') :=
  List.rel_flatMap hns fun _ _ hp => Context.Corresponds.of_nodes (h.filter_accepts name hp)

theorem parents_corresponds (hns : List.Forall₂ M ns ns') :
    Context.Corresponds M R (Expression.parents f ns) (Expression.parents g ns') :=
  .of_nodes (forall₂_eraseDups h.one_to_one (List.rel_filterMap (fun n n' => h.parent n n') hns))

end Correspondence

/-! ## Predicates -/

theorem Predicate.ofContext_eq (h : ctx.Corresponds M R ctx') : ofContext ctx' = ofContext ctx := by
  have hnumbers : ctx'.mapM Location.number? = ctx.mapM Location.number? := by
    induction h with
    | nil => rfl
    | cons he _ ih => rw [List.mapM_cons, List.mapM_cons, he.number?_eq, ih]
  cases h with
  | nil => rfl
  | cons he _ => rw [ofContext, ofContext, hnumbers, he.isTrue_eq]

theorem Predicate.select_corresponds (xs : List Binary64) (h : ctx.Corresponds M R ctx') :
    Context.Corresponds M R (select xs ctx) (select xs ctx') := by
  refine List.rel_map (fun _ _ he => he.1) (List.rel_filter (fun a b he => ?_) (forall₂_zipIdx h 0))
  dsimp only
  rw [he.2]

/-- What predicates select corresponds. -/
theorem Predicate.apply_corresponds (h : Correspondence f g d d' M R) {name : String}
    {ns ns' : List Node} (hns : List.Forall₂ M ns ns') {candidates candidates' : Option Context}
    (hc : Option.Rel (Context.Corresponds M R) candidates candidates') (predicate : Predicate) :
    Option.Rel (Context.Corresponds M R)
      (predicate.apply f (Expression.accepts f d name) ns candidates)
      (predicate.apply g (Expression.accepts g d' name) ns' candidates') := by
  have hmatching := h.matching_corresponds name hns
  have hnth : ∀ x, Context.Corresponds M R (nthOfEach f (Expression.accepts f d name) ns x)
      (nthOfEach g (Expression.accepts g d' name) ns' x) := by
    intro x
    unfold nthOfEach
    cases x.position? with
    | none => exact .nil
    | some index =>
      refine List.rel_filterMap (fun p p' hp => ?_) hns
      rcases Forest.nthChild_corresponds index (h.filter_accepts name hp) with
        ⟨c, c', hf, hg, hM⟩ | ⟨s, hf, hg⟩
      · rw [hf, hg]
        exact .some (.node hM)
      · rw [hf, hg]
        exact .none
  cases predicate with
  | keep => exact hc
  | drop => exact .some .nil
  | positions xs =>
    cases hc with
    | none =>
      match xs with
      | [x] => exact .some (hnth x)
      | [] => exact .some (select_corresponds [] hmatching)
      | x :: y :: xs => exact .some (select_corresponds (x :: y :: xs) hmatching)
    | some hc => exact .some (select_corresponds xs hc)

/-! ## Forests that share their nodes -/

/-- Forests that answer alike about the same nodes correspond, every node to itself. -/
theorem AlikeIn.correspondence {N : Node → Prop} (h : AlikeIn E f g d N R) :
    CorrespondenceIn E f g d d (fun n n' => n' = n ∧ N n) R where
  root := ⟨rfl, h.root⟩
  one_to_one := ⟨fun _ _ _ hn hm => hn.1.symm.trans hm.1, fun _ _ _ hn hm => hn.1.trans hm.1.symm⟩
  flavor_eq := rfl
  isElement_eq := by
    rintro n _ ⟨rfl, hn⟩
    exact h.isElement_eq _ hn
  tag_eq := by
    rintro n _ ⟨rfl, hn⟩
    exact h.tag_eq _ hn
  elements := by
    rintro p _ ⟨rfl, hp⟩
    rw [h.elements_eq _ hp]
    exact List.forall₂_same.mpr fun c hc => ⟨rfl, h.elements_mem _ c hp hc⟩
  parent := by
    rintro n _ ⟨rfl, hn⟩
    rw [h.parent_eq _ hn]
    cases hp : f.effectiveParent? _ with
    | none => exact .none
    | some p => exact .some ⟨rfl, h.parent_mem _ p hn hp⟩
  byId := by
    intro id
    rw [h.byId_eq]
    cases he : d.elementById? f id with
    | none => exact .none
    | some e => exact .some ⟨rfl, h.byId_mem id e he⟩
  around := by
    rintro n _ ⟨rfl, hn⟩
    exact h.around _ hn
  make := h.make
  collapse := h.collapse
  stringRange := by
    rintro n _ start length ⟨rfl, hn⟩
    exact h.stringRange _ start length hn
  ofAddress := h.ofAddress
  around_fails := fun n _ hn => h.around_fails n hn.2
  make_fails := h.make_fails
  stringRange_fails := fun n _ start length hn => h.stringRange_fails n start length hn.2

/-- Entries that correspond to each other by the same nodes match. -/
theorem Context.Corresponds.matches {N : Node → Prop}
    (h : Context.Corresponds (fun n n' => n' = n ∧ N n) R ctx ctx') : ctx.Matches N R ctx' := by
  refine h.imp fun e e' he => ?_
  cases he with
  | node hn =>
    obtain ⟨rfl, hn⟩ := hn
    exact .node hn
  | range hr => exact .range hr
  | literal s => exact .literal s
  | number x => exact .number x
  | boolean b => exact .boolean b

end TreePointer
