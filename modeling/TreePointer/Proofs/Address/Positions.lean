import TreePointer.Proofs.Address.Continued
import TreePointer.Proofs.Tree.Check

/-!
# Numbers and strings as predicates

A step by name from several nodes may have several predicates that are numbers or strings. A string
drops all that was found or nothing. The first number counts the children of each node by
themselves, and every later one counts what the first one has left, of all nodes together. So with
one number a step treats each node on its own, and with two it does not.

* `Constant`, `Constants`: such predicates, and where they stand in a text.
* `Predicate.counted`: what some numbers select.
* `predicates_constants`, `applyAll_none`: what a text of such predicates selects.
* `step_constants`: a step with such predicates.
* `not_step_constants_append`: a second number counts the children of all nodes.
-/

namespace TreePointer

open Lexer

/-- A number or a string that is a predicate. -/
inductive Constant where
  | number (x : Binary64)
  | text (s : String)
deriving DecidableEq, Repr

namespace Constant

def token : Constant → Token
  | number x => .number x
  | text s => .literal s

def value : Constant → Location
  | number x => .number x
  | text s => .literal s

def number? : Constant → Option Binary64
  | number x => some x
  | text _ => none

variable {s : String} {cs : List Constant}

theorem empty_mem_number (x : Binary64) : .text "" ∈ Constant.number x :: cs ↔ .text "" ∈ cs := by
  simp

theorem empty_mem_text (h : s ≠ "") : .text "" ∈ Constant.text s :: cs ↔ .text "" ∈ cs := by
  simp [h.symm]

end Constant

/-- What comes next are some numbers and strings, each of them in square brackets, and then
something else. -/
inductive Constants : Lexer → List Constant → Lexer → Prop
  | done {l m : Lexer} {t : Option Token} (seen : l.peek = .ok (t, m))
      (other : t ≠ some (.fence .leftBracket)) : Constants l [] m
  | cons {l l₁ l₂ l₃ m : Lexer} {c : Constant} {cs : List Constant}
      (opened : l.next = .ok (some (.fence .leftBracket), l₁))
      (taken : l₁.next = .ok (some c.token, l₂))
      (closed : l₂.next = .ok (some (.fence .rightBracket), l₃))
      (more : Constants l₃ cs m) : Constants l (c :: cs) m

namespace Constants

variable {l m : Lexer} {cs : List Constant} {r : List Char}

/-- A whole number in brackets, as it is written. -/
theorem number {n : Nat} (hn : n < Binary64.exactBound)
    (hat : l.At ('[' :: (Nat.toDigits 10 n ++ ']' :: r)))
    (more : Constants ⟨r, none, some (.fence .rightBracket)⟩ cs m) :
    Constants l (.number (.ofNat n) :: cs) m :=
  .cons (hat.next (scan_punctuation (by decide) hat.rest_eq))
    ((at_of_rest _ _).next (scan_number hn (endsNumber_of_not (by decide) (by decide) _) rfl))
    ((at_of_rest _ _).next (scan_punctuation (by decide) rfl)) more

/-- A string in brackets, as it is written. -/
theorem text {q : Char} (hq : q = '"' ∨ q = '\'') {s : String} (hs : q ∉ s.toList)
    (hat : l.At ('[' :: q :: (s.toList ++ q :: ']' :: r)))
    (more : Constants ⟨r, none, some (.fence .rightBracket)⟩ cs m) :
    Constants l (.text s :: cs) m :=
  .cons (hat.next (scan_punctuation (by decide) hat.rest_eq))
    ((at_of_rest _ _).next (scan_literal hq hs rfl))
    ((at_of_rest _ _).next (scan_punctuation (by decide) rfl)) more

/-- The end of the text. -/
theorem ended (previous : Option Token) : Constants ⟨[], none, previous⟩ [] ⟨[], none, previous⟩ :=
  .done rfl (by decide)

end Constants

namespace Predicate

variable {f : Forest} {accept : Node → Bool} {ns ms : List Node} {cs : List Constant}
  {xs : List Binary64} {found : Context}

/-- What some predicates leave of the candidates, one after the other. -/
def applyAll (f : Forest) (accept : Node → Bool) (ns : List Node) (cs : List Constant)
    (candidates : Option Context) : Option Context :=
  cs.foldl (fun found c => (ofContext [c.value]).apply f accept ns found) candidates

/-- What some numbers select among the children of some nodes: the first one of the children of each
node, every later one of all that is left. -/
def counted (f : Forest) (accept : Node → Bool) (ns : List Node) : List Binary64 → Context
  | [] => f.matching accept ns
  | x :: later => later.foldl (fun found y => select [y] found) (nthOfEach f accept ns x)

/-! ## Strings and numbers -/

theorem apply_text (s : String) (candidates : Option Context) :
    (ofContext [.literal s]).apply f accept ns candidates
      = if s = "" then some [] else candidates := by
  by_cases h : s = ""
  · rw [if_pos h, h]
    rfl
  · have hkeep : ofContext [.literal s] = .keep := if_pos (bne_iff_ne.mpr h)
    rw [if_neg h, hkeep]
    rfl

theorem applyAll_text (s : String) (cs : List Constant) (candidates : Option Context) :
    applyAll f accept ns (.text s :: cs) candidates
      = applyAll f accept ns cs (if s = "" then some [] else candidates) := by
  rw [applyAll, List.foldl_cons, Constant.value, apply_text, ← applyAll]

theorem foldl_select_nil (ys : List Binary64) :
    ys.foldl (fun found y => select [y] found) [] = [] := by
  induction ys with
  | nil => rfl
  | cons y ys ih => exact ih

theorem select_of_no_position {y : Binary64} (h : y.position? = none) (found : Context) :
    select [y] found = [] := by
  have hnone : (found.zipIdx.filter fun p => [y].any fun x => x.position? == some (p.2 + 1)) = [] :=
    List.filter_eq_nil_iff.mpr fun p _ => by simp [h]
  exact congrArg (List.map Prod.fst) hnone

/-- Once there is a list of candidates, every number selects among these. -/
theorem applyAll_some (cs : List Constant) (found : Context) :
    applyAll f accept ns cs (some found) = some (if .text "" ∈ cs then [] else
      (cs.filterMap Constant.number?).foldl (fun found y => select [y] found) found) := by
  induction cs generalizing found with
  | nil => rfl
  | cons c cs ih =>
    cases c with
    | number x =>
      simp only [Constant.empty_mem_number]
      exact ih (select [x] found)
    | text s =>
      rw [applyAll_text]
      by_cases h : s = ""
      · rw [if_pos h, ih, h, if_pos List.mem_cons_self, foldl_select_nil, ite_self]
      · rw [if_neg h, ih]
        simp only [Constant.empty_mem_text h]
        rfl

/-- **What numbers and strings select**: nothing if one of the strings is empty, and otherwise what
the numbers select. -/
theorem applyAll_none (cs : List Constant) :
    (applyAll f accept ns cs none).getD (f.matching accept ns)
      = if .text "" ∈ cs then [] else counted f accept ns (cs.filterMap Constant.number?) := by
  induction cs with
  | nil => rfl
  | cons c cs ih =>
    cases c with
    | number x =>
      -- the first number counts, and from here on there are candidates to select from
      have hfirst : applyAll f accept ns (.number x :: cs) none
          = applyAll f accept ns cs (some (nthOfEach f accept ns x)) := rfl
      rw [hfirst, applyAll_some]
      simp only [Constant.empty_mem_number]
      rfl
    | text s =>
      rw [applyAll_text]
      by_cases h : s = ""
      · rw [if_pos h, applyAll_some, h, if_pos List.mem_cons_self, foldl_select_nil, ite_self]
        rfl
      · rw [if_neg h, ih]
        simp only [Constant.empty_mem_text h]
        rfl

/-! ## One node after another -/

/-- A number that is no position selects nothing, wherever it stands. -/
theorem counted_of_no_position {x : Binary64} (hx : x ∈ xs) (h : x.position? = none) :
    counted f accept ns xs = [] := by
  cases xs with
  | nil => cases hx
  | cons first later =>
    rw [counted]
    rcases List.mem_cons.mp hx with rfl | hx
    · rw [nthOfEach, h, foldl_select_nil]
    · obtain ⟨before, after, rfl⟩ := List.append_of_mem hx
      rw [List.foldl_append, List.foldl_cons, select_of_no_position h, foldl_select_nil]

theorem nthOfEach_append (x : Binary64) : nthOfEach f accept (ns ++ ms) x
    = nthOfEach f accept ns x ++ nthOfEach f accept ms x := by
  unfold nthOfEach
  split
  · rfl
  · exact List.filterMap_append

/-- **One number counts the children of each node**, and so does none at all. -/
theorem counted_append (h : xs.length ≤ 1) :
    counted f accept (ns ++ ms) xs = counted f accept ns xs ++ counted f accept ms xs := by
  cases xs with
  | nil => exact List.flatMap_append
  | cons x later =>
    cases later with
    | nil => exact nthOfEach_append x
    | cons y later =>
      rw [List.length_cons, List.length_cons] at h
      omega

end Predicate

namespace Expression

variable {f : Forest} {d : Document} {l l₁ l₂ l₃ m : Lexer} {c : Constant} {cs : List Constant}
  {b : Nat}

/-! ## Reading the predicates -/

/-- A number or a string before a bracket is an expression by itself. -/
theorem evaluateNext_constant (hl : l.Faithful) (hb : l.rest.length ≤ b)
    (taken : l.next = .ok (some c.token, l₁))
    (closed : l₁.next = .ok (some (.fence .rightBracket), m)) (ctx : Context) :
    ∃ l', evaluateNext f d b .predicate ctx l = .ok ([c.value], l') ∧
      l'.expectFence .rightBracket = .ok m := by
  cases b with
  | zero =>
    have hshort := (next_shorter hl taken).2
    omega
  | succ b =>
    obtain ⟨l', hp, hclose⟩ := peek_of_next (hl.next taken) closed
    refine ⟨l', ?_, expectFence_ok_iff.mpr hclose⟩
    cases c <;>
      simp only [evaluateNext, expect_ok_iff.mpr taken, Constant.token, Constant.value, expression,
        pathFrom, hp, bind, Except.bind]

/-- The predicates are applied one after the other, and each of them takes some of the text. -/
theorem predicates_constants {accept : Node → Bool} {ns : List Node} {ctx : Context}
    (h : Constants l cs m) (hl : l.Faithful) {fuel : Nat} (hb : l.rest.length ≤ b)
    (hfuel : l.rest.length ≤ fuel) (candidates : Option Context) :
    predicates f (within f d b) accept ns ctx fuel candidates l
      = .ok (Predicate.applyAll f accept ns cs candidates, m) := by
  induction h generalizing fuel candidates with
  | done seen other =>
    rw [predicates_eq hl hfuel]
    simp only [seen, bind, Except.bind, if_neg other]
    rfl
  | cons opened taken closed more ih =>
    obtain ⟨l', hp, hopen⟩ := peek_of_next hl opened
    have hl₁ := hl.next opened
    have hl₃ := (hl₁.next taken).next closed
    have hshort := (next_shorter hl opened).2
    have hshort₁ := (next_shorter hl₁ taken).2
    have hshort₂ := (next_shorter (hl₁.next taken) closed).2
    obtain ⟨l'', hvalue, hclose⟩ := evaluateNext_constant (f := f) (d := d) (b := b) hl₁ (by omega)
      taken closed ctx
    rw [predicates_eq hl hfuel]
    simp only [hp, hopen, hvalue, hclose, bind, Except.bind, if_true]
    exact ih hl₃ (by omega) (by omega) _

theorem nodesOf_nodes (ns : List Node) : nodesOf (ns.map .node) = .ok ns := by
  induction ns with
  | nil => rfl
  | cons n ns ih =>
    rw [nodesOf] at ih ⊢
    rw [List.map_cons, List.mapM_cons, ih]
    rfl

/-- A step with numbers and strings as predicates. -/
theorem step_eq_counted (h : Constants l cs m) (hl : l.Faithful) (hb : l.rest.length ≤ b)
    (name : String) (ns : List Node) :
    step f d (within f d b) (.nameTest name) (ns.map .node) l = .ok (if .text "" ∈ cs then [] else
      Predicate.counted f (accepts f d name) ns (cs.filterMap Constant.number?), m) := by
  simp only [step, nameStep, nodesOf_nodes, predicates_constants h hl hb hb, bind, Except.bind,
    Predicate.applyAll_none]

/-- **A step with numbers and strings as predicates.** From nodes such a step always gives a result,
and takes the same text whatever the nodes are. An empty string leaves nothing. The first number
selects among the children of each node by themselves, and every later one among all that the
numbers before have left. So the step treats each node on its own if there is one number at most, and
where nothing is left in any case. -/
theorem step_constants (h : Constants l cs m) (hl : l.Faithful) (hb : l.rest.length ≤ b)
    (name : String) :
    ∃ found : List Node → Context,
      (∀ ns, step f d (within f d b) (.nameTest name) (ns.map .node) l = .ok (found ns, m)) ∧
      (∀ ns, found ns = if .text "" ∈ cs then [] else
        Predicate.counted f (accepts f d name) ns (cs.filterMap Constant.number?)) ∧
      ((.text "" ∈ cs ∨ (∃ x, .number x ∈ cs ∧ x.position? = none) ∨
          (cs.filterMap Constant.number?).length ≤ 1) →
        ∀ ns ms, found (ns ++ ms) = found ns ++ found ms) := by
  refine ⟨_, step_eq_counted h hl hb name, fun _ => rfl, fun hcases ns ms => ?_⟩
  by_cases hempty : .text "" ∈ cs
  · rw [if_pos hempty, if_pos hempty, if_pos hempty, List.append_nil]
  · rw [if_neg hempty, if_neg hempty, if_neg hempty]
    rcases hcases with hcases | ⟨x, hx, hposition⟩ | hone
    · exact absurd hcases hempty
    · have hmem : x ∈ cs.filterMap Constant.number? := List.mem_filterMap.mpr ⟨_, hx, rfl⟩
      simp only [Predicate.counted_of_no_position hmem hposition, List.append_nil]
    · exact Predicate.counted_append hone

/-- The document `<r><a><b/></a><a><b/></a></r>`. -/
def branches : Forest := ⟨#[
  { Record.bare .document with children := [⟨1⟩] },
  { Record.bare .element with
    name := some (.plain "r"), parent := some ⟨0⟩, children := [⟨2⟩, ⟨3⟩] },
  { Record.bare .element with
    name := some (.plain "a"), parent := some ⟨1⟩, children := [⟨4⟩] },
  { Record.bare .element with
    name := some (.plain "a"), parent := some ⟨1⟩, children := [⟨5⟩] },
  { Record.bare .element with name := some (.plain "b"), parent := some ⟨2⟩ },
  { Record.bare .element with name := some (.plain "b"), parent := some ⟨3⟩ }]⟩

/-- The first `b` of each `a`, which a string leaves. -/
theorem step_constants_branches :
    Constants (ofString "[1]['x']") [.number (.ofNat 1), .text "x"]
        ⟨[], none, some (.fence .rightBracket)⟩ ∧
      ∃ found : List Node → Context,
        step branches ⟨⟨0⟩, .xml⟩ (within branches ⟨⟨0⟩, .xml⟩ 9) (.nameTest "b")
            [.node ⟨2⟩, .node ⟨3⟩] (ofString "[1]['x']")
          = .ok (found [⟨2⟩, ⟨3⟩], ⟨[], none, some (.fence .rightBracket)⟩) ∧
        found [⟨2⟩] = [.node ⟨4⟩] ∧ found [⟨3⟩] = [.node ⟨5⟩] ∧
        found ([⟨2⟩] ++ [⟨3⟩]) = found [⟨2⟩] ++ found [⟨3⟩] := by
  have h : Constants (ofString "[1]['x']") [.number (.ofNat 1), .text "x"]
      ⟨[], none, some (.fence .rightBracket)⟩ :=
    .number (by decide) (at_ofString _)
      (.text (.inr rfl) (by decide) (at_of_rest _ _) (.ended _))
  obtain ⟨found, hstep, hfound, happend⟩ := step_constants (f := branches) (d := ⟨⟨0⟩, .xml⟩)
    (b := 9) h (faithful_ofString _) (by decide) "b"
  exact ⟨h, found, hstep [⟨2⟩, ⟨3⟩], (hfound _).trans (by decide +kernel),
    (hfound _).trans (by decide +kernel), happend (.inr (.inr (by decide))) _ _⟩

/-- A second number counts the children of all nodes: of two nodes with one child each, `[1][1]`
leaves one child. -/
theorem not_step_constants_append :
    ¬ ∀ (f : Forest) (d : Document) (l m : Lexer) (cs : List Constant) (b : Nat) (name : String),
      f.WellFormed → Constants l cs m → l.Faithful → l.rest.length ≤ b → ∀ ns ms : List Node,
      ∃ found found' : Context,
        step f d (within f d b) (.nameTest name) (ns.map .node) l = .ok (found, m) ∧
        step f d (within f d b) (.nameTest name) (ms.map .node) l = .ok (found', m) ∧
        step f d (within f d b) (.nameTest name) ((ns ++ ms).map .node) l
          = .ok (found ++ found', m) := by
  intro h
  have hread : Constants (ofString "[1][1]") [.number (.ofNat 1), .number (.ofNat 1)]
      ⟨[], none, some (.fence .rightBracket)⟩ :=
    .number (by decide) (at_ofString _) (.number (by decide) (at_of_rest _ _) (.ended _))
  obtain ⟨found, found', hfirst, hsecond, hboth⟩ := h branches ⟨⟨0⟩, .xml⟩ _ _ _ 6 "b"
    (Forest.isWellFormed_iff.mp (by decide)) hread (faithful_ofString _) (by decide) [⟨2⟩] [⟨3⟩]
  have hstep := step_eq_counted (f := branches) (d := ⟨⟨0⟩, .xml⟩) (b := 6) hread
    (faithful_ofString _) (by decide) "b"
  cases (hstep [⟨2⟩]).symm.trans hfirst
  cases (hstep [⟨3⟩]).symm.trans hsecond
  have hsame := (Prod.mk.inj (Except.ok.inj ((hstep [⟨2⟩, ⟨3⟩]).symm.trans hboth))).1
  revert hsame
  decide +kernel

end Expression

end TreePointer
