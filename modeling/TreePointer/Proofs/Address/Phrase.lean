import TreePointer.Proofs.Address.Skipping
import TreePointer.Proofs.Address.Soundness

/-!
# Phrases, in any document

All addresses are made by one small grammar: routes to elements, stretches of their texts, ends of
such, and ranges from one to another. A phrase of this grammar is an expression in every document.
It finds one place or none there, since each of its parts does: a route leads to one element or
nowhere, one element has one stretch or none, and a range goes from one place to one other.

* `Phrase`: the grammar, with the text and with what makes it legible.
* `Phrase.skips`: a phrase can be passed over.
* `Phrase.Locates`, `Phrase.locates`: what a phrase finds.
* `Phrase.resolve`: a phrase as an address gives a sound range or matches nothing.
-/

namespace TreePointer

open Expression

/-! ## Routes -/

/-- Steps do not go on with what could belong to a number. -/
theorem Expression.endsNumber_pathChars (steps : List PathStep) {r : List Char}
    (hr : Lexer.EndsNumber r) : Lexer.EndsNumber (pathChars steps ++ r) := by
  cases steps with
  | nil => exact hr
  | cons s steps =>
    rw [pathChars_cons]
    exact Lexer.endsNumber_of_not (by decide) (by decide) _

/-- The child to which a step leads is an element of the document. -/
theorem Expression.PathStep.child?_spec {f : Forest} {d : Document} (hd : d.Rooted f) {s : PathStep}
    {p c : Node} (hp : f.Within d.root p) (h : s.child? f d p = some c) :
    f.Within d.root c ∧ f.isElement c = true := by
  unfold PathStep.child? at h
  split at h
  · next found hfound =>
    cases h
    obtain ⟨hmem, haccepts⟩ := List.mem_filter.mp (Forest.mem_of_nthChild hfound)
    have wf := hd.wellFormed
    have hw := wf.within_of_mem_spliced (wf.has_of_within hd.has_root hp) hmem
    exact ⟨wf.within_trans hp hw, (Bool.and_eq_true_iff.mp haccepts).1⟩
  · cases h

namespace Route

variable {f : Forest} {d : Document} {r : Route}

theorem skips (h : r.Legible) : Skips r.chars := by
  obtain ⟨origin, steps⟩ := r
  have hpath := skips_path h.steps
  cases origin with
  | root => exact hpath
  | reference quote id =>
    obtain ⟨hquote, hmem, -⟩ := h.origin
    exact (skips_id hquote hmem).append hpath fun r hr => endsNumber_pathChars steps hr

/-- A route leads to an element of the document, if anywhere. -/
theorem node?_spec (h : r.Legible) (hd : d.Rooted f) {n : Node} (hn : r.node? f d = some n) :
    f.Within d.root n ∧ f.isElement n = true := by
  -- the steps keep to the document, and the last one ends at an element
  have hsteps : ∀ (steps : List PathStep) (p : Option Node), (∀ m ∈ p, f.Within d.root m) →
      ((∀ m ∈ p, f.isElement m = true) ∨ steps ≠ []) →
      ∀ m ∈ descend? f d steps p, f.Within d.root m ∧ f.isElement m = true := by
    intro steps
    induction steps with
    | nil =>
      intro p hp helement m hm
      exact ⟨hp m hm, (helement.resolve_right (· rfl)) m hm⟩
    | cons s steps ih =>
      intro p hp _
      have hspec : ∀ m ∈ p.bind (s.child? f d), f.Within d.root m ∧ f.isElement m = true := by
        intro m hm
        obtain ⟨q, hq, hchild⟩ := Option.bind_eq_some_iff.mp hm
        exact s.child?_spec hd (hp q hq) hchild
      exact ih (p.bind (s.child? f d)) (fun m hm => (hspec m hm).1)
        (.inl fun m hm => (hspec m hm).2)
  obtain ⟨origin, steps⟩ := r
  cases origin with
  | root =>
    refine hsteps steps (some d.root) (fun m hm => ?_) (.inr (h.ne_nil rfl)) n hn
    obtain rfl := Option.mem_some_iff.mp hm
    exact .refl f d.root
  | reference quote id =>
    exact hsteps steps (d.elementById? f id) (fun m hm => (hd.elementById_spec hm).1)
      (.inl fun m hm => (hd.elementById_spec hm).2) n hn

end Route

/-! ## Routes in two forests -/

/-- In the second forest the elements of the first one stand in the same places, with the same tags
and ids. -/
structure Document.SameWays (f g : Forest) (d : Document) : Prop where
  isElement_eq : ∀ n, d.Reaches f n → g.isElement n = f.isElement n
  tag_eq : ∀ n, d.Reaches f n → d.tagOf? g n = d.tagOf? f n
  elements_eq : ∀ p, d.Reaches f p →
    (g.spliced p).filter g.isElement = (f.spliced p).filter f.isElement
  byId_eq : ∀ id, d.elementById? g id = d.elementById? f id

namespace Document.SameWays

variable {f g : Forest} {d : Document} (h : d.SameWays f g) (hd : d.Rooted f)

include h hd

theorem filter_accepts {p : Node} (hp : d.Reaches f p) (name : String) :
    (g.spliced p).filter (accepts g d name) = (f.spliced p).filter (accepts f d name) := by
  rw [Expression.filter_accepts g, Expression.filter_accepts f, h.elements_eq p hp]
  refine List.filter_congr fun c hc => ?_
  have hcr := hd.reaches_element hp hc
  rw [accepts, accepts, h.isElement_eq c hcr, h.tag_eq c hcr]

theorem child?_eq (s : PathStep) {p : Node} (hp : d.Reaches f p) :
    s.child? g d p = s.child? f d p := by
  rw [PathStep.child?, PathStep.child?, Forest.nthChild, Forest.nthChild, Forest.visitSpliced_eq,
    Forest.visitSpliced_eq, Forest.foldlM_nthStep _ (g.spliced p),
    Forest.foldlM_nthStep _ (f.spliced p), h.filter_accepts hd hp]

theorem descend?_eq (steps : List PathStep) {p : Option Node} (hp : ∀ m ∈ p, d.Reaches f m) :
    descend? g d steps p = descend? f d steps p := by
  induction steps generalizing p with
  | nil => rfl
  | cons s steps ih =>
    have hstep : p.bind (s.child? g d) = p.bind (s.child? f d) := by
      cases p with
      | none => rfl
      | some m => exact h.child?_eq hd s (hp m rfl)
    show descend? g d steps (p.bind (s.child? g d)) = descend? f d steps (p.bind (s.child? f d))
    rw [hstep]
    refine ih fun m hm => ?_
    obtain ⟨q, hq, hchild⟩ := Option.bind_eq_some_iff.mp hm
    obtain ⟨hw, helement⟩ := s.child?_spec hd (hp q hq).1 hchild
    exact reaches_of_isElement hw helement

/-- **A route leads to the same node** in both forests. -/
theorem node?_eq (r : Route) : r.node? g d = r.node? f d := by
  obtain ⟨origin, steps⟩ := r
  cases origin with
  | root =>
    refine h.descend?_eq hd steps fun m hm => ?_
    obtain rfl := Option.mem_some_iff.mp hm
    exact hd.reaches_root
  | reference quote id =>
    have hid : (Origin.reference quote id).node? g d = (Origin.reference quote id).node? f d :=
      h.byId_eq id
    rw [Route.node?, Route.node?, hid]
    exact h.descend?_eq hd steps fun m hm => hd.reaches_elementById hm

end Document.SameWays

/-! ## Phrases -/

/-- What an address says: an element, a stretch of its text, one end of another phrase, or the range
from one to another. -/
inductive Phrase where
  | element (r : Route)
  | stretch (r : Route) (start length : Nat)
  | point (toStart : Bool) (p : Phrase)
  | between (first last : Phrase)
deriving DecidableEq, Repr

namespace Phrase

/-- The phrase as it is written. -/
def chars : Phrase → List Char
  | element r => r.chars
  | stretch r start length => "string-range".toList ++ stringRangeChars r.chars start length
  | point toStart p => (pointName toStart).toList ++ '(' :: (p.chars ++ [')'])
  | between first last => first.chars ++ rangeToChars last.chars

/-- The phrase can be read: its routes can, and its numbers are such that can be held. -/
def Legible : Phrase → Prop
  | element r => r.Legible
  | stretch r start length =>
    r.Legible ∧ start < Binary64.exactBound ∧ length < Binary64.exactBound
  | point _ p => p.Legible
  | between first last => first.Legible ∧ last.Legible

/-- The routes of the phrase start in the document. -/
def Starts (f : Forest) (d : Document) : Phrase → Prop
  | element r => r.Starts f d
  | stretch r _ _ => r.Starts f d
  | point _ p => p.Starts f d
  | between first last => first.Starts f d ∧ last.Starts f d

theorem chars_stretch (r : Route) (start length : Nat) : (stretch r start length).chars
    = "string-range".toList ++ stringRangeChars r.chars start length := rfl

theorem chars_point (toStart : Bool) (p : Phrase) : (point toStart p).chars
    = (pointName toStart).toList ++ '(' :: (p.chars ++ [')']) := rfl

theorem chars_between (first last : Phrase) :
    (between first last).chars = first.chars ++ rangeToChars last.chars := rfl

theorem skips {p : Phrase} (h : p.Legible) : Skips p.chars := by
  induction p with
  | element r => exact Route.skips h
  | stretch r start length =>
    have harguments := (Route.skips h.1).append (skips_lengthChars h.2.1 h.2.2) fun _ _ =>
      Lexer.endsNumber_of_not (c := ',') (by decide) (by decide) _
    have hname : Lexer.isFunctionName "string-range" = true := by decide
    have hcall := skips_call hname harguments
    rwa [List.append_assoc] at hcall
  | point toStart p ih =>
    have hname : Lexer.isFunctionName (pointName toStart) = true := by
      cases toStart <;> decide
    exact skips_call hname (ih h)
  | between first last ih ih' =>
    exact (ih h.1).append (skips_rangeTo (ih' h.2)) fun _ _ =>
      Lexer.endsNumber_of_not (c := '/') (by decide) (by decide) _

section Finds

open Address

variable {f : Forest} {d : Document} (hd : d.Rooted f)

include hd

/-- One place of the document that is found, with its range, or none. -/
def Locates (f : Forest) (d : Document) (text : List Char) : Prop :=
  ∃ found : Option Location, Finds f d text found.toList ∧
    ∀ x ∈ found, ∃ r, x.toRange f = .ok r ∧ r.Sound f d

theorem locates_element {r : Route} (h : r.Legible) : Locates f d r.chars := by
  refine ⟨(r.node? f d).map .node, ?_, fun x hx => ?_⟩
  · rw [Option.toList_map]
    exact Route.finds h f d
  · obtain ⟨n, hn, rfl⟩ := Option.map_eq_some_iff.mp hx
    obtain ⟨hw, helement⟩ := Route.node?_spec h hd hn
    exact hd.around_below hw (hd.ne_root_of_isElement helement)

theorem locates_stretch {r : Route} (h : r.Legible) {start length : Nat}
    (hstart : start < Binary64.exactBound) (hlength : length < Binary64.exactBound) :
    Locates f d ("string-range".toList ++ stringRangeChars r.chars start length) := by
  have hroute := Route.finds h f d
  cases hn : r.node? f d with
  | none =>
    rw [hn] at hroute
    exact ⟨none, hroute.stretch hstart hlength rfl, nofun⟩
  | some n =>
    rw [hn] at hroute
    obtain ⟨found, hfound, hsound⟩ :=
      hd.stringRange_sound (Route.node?_spec h hd hn).1 start length
    have hranges : stringRanges f start length [.node n]
        = .ok (found.map Location.range).toList := by
      simp only [stringRanges, hfound, bind, Except.bind, Option.toList_map, List.append_nil]
    refine ⟨found.map .range, hroute.stretch hstart hlength hranges, fun x hx => ?_⟩
    obtain ⟨s, hs, rfl⟩ := Option.map_eq_some_iff.mp hx
    exact ⟨s, rfl, hsound s hs⟩

omit hd in
theorem Locates.point {text : List Char} (h : Locates f d text) (toStart : Bool) :
    Locates f d ((pointName toStart).toList ++ '(' :: (text ++ [')'])) := by
  obtain ⟨found, hfinds, hsound⟩ := h
  cases found with
  | none => exact ⟨none, hfinds.point toStart rfl, nofun⟩
  | some x =>
    obtain ⟨r, hr, hrs⟩ := hsound x rfl
    refine ⟨some (.range (r.collapse toStart)), hfinds.pointOf hr toStart, fun y hy => ?_⟩
    obtain rfl := Option.mem_some_iff.mp hy
    exact ⟨_, rfl, hrs.collapse toStart⟩

theorem Locates.between {text target : List Char} (h : Locates f d text) (h' : Locates f d target)
    (hskips : Skips target) : Locates f d (text ++ rangeToChars target) := by
  obtain ⟨found, hfinds, hsound⟩ := h
  obtain ⟨last, hlast, hsound'⟩ := h'
  cases found with
  | none => exact ⟨none, hfinds.rangeTo (hskips.rangesTo f d), nofun⟩
  | some x =>
    obtain ⟨r, hr, hrs⟩ := hsound x rfl
    obtain ⟨t, hreads⟩ := hlast.reads
    -- without a target the range is the start
    obtain ⟨s, honto, hs⟩ : ∃ s, rangeOnto f r.start last.toList = .ok s ∧ s.Sound f d := by
      cases last with
      | none => exact ⟨_, rfl, Range.sound_point hrs.start_within hrs.start_inBounds⟩
      | some y =>
        obtain ⟨r', hr', hrs'⟩ := hsound' y rfl
        obtain ⟨s, hmake, hs⟩ := hd.make_sound hrs.start_within hrs.start_inBounds
          hrs'.stop_within hrs'.stop_inBounds
        refine ⟨s, ?_, hs⟩
        simp only [Option.toList_some, rangeOnto, hr', hmake, bind, Except.bind]
    refine ⟨some (.range s), hfinds.rangeTo ((hreads _).rangesTo hr honto), fun y hy => ?_⟩
    obtain rfl := Option.mem_some_iff.mp hy
    exact ⟨s, rfl, hs⟩

/-- **A phrase finds one place or none** in whatever document it is read. -/
theorem locates {p : Phrase} (h : p.Legible) : Locates f d p.chars := by
  induction p with
  | element r => exact locates_element hd h
  | stretch r start length => exact locates_stretch hd h.1 h.2.1 h.2.2
  | point toStart p ih => exact (ih h).point toStart
  | between first last ih ih' => exact (ih h.1).between hd (ih' h.2) (skips h.2)

omit hd in
/-- What locates one place or none has that as its value, whatever the options are. -/
theorem Locates.evaluates {body : String} (h : Locates f d body.toList) :
    ∃ found : Option Location, (∀ x ∈ found, ∃ r, x.toRange f = .ok r) ∧ ∀ o o' : Options,
      Address.evaluate f d o' (wrapped o body) = .ok found.toList := by
  obtain ⟨found, hfinds, hsound⟩ := h
  refine ⟨found, fun x hx => (hsound x hx).imp fun _ hr => hr.1, fun o o' => ?_⟩
  refine hfinds.evaluate fun x hx => ?_
  obtain ⟨r, hr, -⟩ := hsound x (Option.mem_toList.mp hx)
  exact isPlace_of_toRange hr

omit hd in
/-- What locates one place or none does so as an address, whatever the options are. -/
theorem Locates.resolve {body : String} (h : Locates f d body.toList) :
    ∃ found : Option Range, (∀ r ∈ found, r.Sound f d) ∧ ∀ o o' : Options,
      Address.resolve f d o' (wrapped o body) = match found with
        | some r => .ok r
        | none => .error (.unresolved (.noMatch (wrapped o body))) := by
  obtain ⟨found, hfinds, hsound⟩ := h
  cases found with
  | none =>
    refine ⟨none, nofun, fun o o' => ?_⟩
    have hvalue : evaluate f d o' (wrapped o body) = .ok [] := hfinds.evaluate nofun
    simp only [Address.resolve, hvalue, bind, Except.bind]
  | some x =>
    obtain ⟨r, hr, hrs⟩ := hsound x rfl
    refine ⟨some r, fun s hs => ?_, fun o o' => hfinds.resolve hr⟩
    rwa [← Option.mem_some_iff.mp hs]

/-- **A phrase as an address** gives a sound range or matches nothing. -/
theorem resolve {p : Phrase} (h : p.Legible) {body : String} (hbody : body.toList = p.chars)
    (o o' : Options) :
    (∃ r, Address.resolve f d o' (wrapped o body) = .ok r ∧ r.Sound f d) ∨
      Address.resolve f d o' (wrapped o body)
        = .error (.unresolved (.noMatch (wrapped o body))) := by
  obtain ⟨found, hsound, hresolve⟩ := Locates.resolve (hbody ▸ locates hd h)
  rw [hresolve o o']
  cases found with
  | none => exact .inr rfl
  | some r => exact .inl ⟨r, rfl, hsound r rfl⟩

end Finds

end Phrase

end TreePointer
