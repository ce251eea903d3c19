import TreePointer.Address.Resolution
import TreePointer.Proofs.Token.Spelling

/-!
# What the text of an address evaluates to

The texts that are made as addresses are built from element paths, calls and the step `range-to`.
For each kind of text it is said here what it evaluates to, whatever text follows that cannot be
part of it, and with any bound that is not below the text that is left.

* `Reads`: a text is an expression with a certain value.
* `Opens`: a text begins an expression, which has a certain value so far.
* `Calls`, `RangesTo`: a text in parentheses gives a function a certain value.
* `opens_path`, `calls_id`, `calls_stringRange`, `calls_point`, `Opens.rangeTo`: the kinds of texts.
-/

namespace TreePointer

open Lexer

/-- The token that comes next in a text, whatever was read before, is one of some. -/
def Lexer.NextIn (ts : List (Option Token)) (cs : List Char) : Prop :=
  ∀ l : Lexer, l.rest = cs → ∃ found, l.scan = .ok found ∧ found.map Prod.fst ∈ ts

theorem Lexer.At.peek_of_nextIn {l : Lexer} {cs : List Char} {ts : List (Option Token)}
    (h : l.At cs) (hn : NextIn ts cs) : ∃ t l', l.peek = .ok (t, l') ∧ l'.At cs ∧ t ∈ ts := by
  obtain ⟨found, hs, hmem⟩ := hn l h.rest_eq
  cases found with
  | none =>
    obtain ⟨l', hp, hl, -⟩ := h.peek_none hs
    exact ⟨none, l', hp, hl, hmem⟩
  | some found =>
    obtain ⟨t, r⟩ := found
    obtain ⟨l', hp, hl, -⟩ := h.peek hs
    exact ⟨some t, l', hp, hl, hmem⟩

namespace Expression

variable {f : Forest} {d : Document}

/-- The text goes on with what ends an expression. -/
def Stops (r : List Char) : Prop :=
  NextIn [none, some .comma, some (.fence .rightParen)] r

/-- The text goes on with what ends an expression or with another step. -/
def StopsStep (r : List Char) : Prop :=
  NextIn [none, some .comma, some (.fence .rightParen), some (.operator .slash)] r

theorem stops_nil : Stops [] := fun _ h => ⟨none, scan_nil h, by decide⟩

theorem stops_comma (r : List Char) : Stops (',' :: r) := fun _ h =>
  ⟨_, scan_punctuation (t := .comma) (by decide) h, by simp⟩

theorem stops_rightParen (r : List Char) : Stops (')' :: r) := fun _ h =>
  ⟨_, scan_punctuation (t := .fence .rightParen) (by decide) h, by simp⟩

theorem Stops.step {r : List Char} (h : Stops r) : StopsStep r := by
  intro l hl
  obtain ⟨found, hs, hmem⟩ := h l hl
  refine ⟨found, hs, ?_⟩
  simp only [List.mem_cons, List.not_mem_nil, or_false] at hmem ⊢
  rcases hmem with h | h | h
  · exact Or.inl h
  · exact Or.inr (Or.inl h)
  · exact Or.inr (Or.inr (Or.inl h))

theorem stopsStep_slash {c : Char} (hc : c ≠ '/') (r : List Char) : StopsStep ('/' :: c :: r) :=
  fun _ h => ⟨_, scan_slash hc h, by simp⟩

/-- The evaluator of the expressions inside, with a bound. -/
abbrev within (f : Forest) (d : Document) (b : Nat) : Evaluator := ⟨b, evaluateNext f d b⟩

/-! ## Loops that end -/

section Stop

variable {l : Lexer} {r : List Char} (inner : Evaluator) (ctx : Context)

theorem steps_stop (h : l.At r) (hr : Stops r) (fuel : Nat) :
    ∃ l', steps f d inner fuel ctx l = .ok (ctx, l') ∧ l'.At r := by
  cases fuel with
  | zero => exact ⟨l, rfl, h⟩
  | succ fuel =>
    obtain ⟨t, l', hp, hl, hmem⟩ := h.peek_of_nextIn hr
    refine ⟨l', ?_, hl⟩
    simp only [List.mem_cons, List.not_mem_nil, or_false] at hmem
    rcases hmem with rfl | rfl | rfl <;> simp [steps, hp, bind, Except.bind]

theorem predicates_stop (accept : Node → Bool) (ns : List Node) (candidates : Option Context)
    (h : l.At r) (hr : StopsStep r) (fuel : Nat) :
    ∃ l', predicates f inner accept ns ctx fuel candidates l = .ok (candidates, l') ∧ l'.At r := by
  cases fuel with
  | zero => exact ⟨l, rfl, h⟩
  | succ fuel =>
    obtain ⟨t, l', hp, hl, hmem⟩ := h.peek_of_nextIn hr
    refine ⟨l', ?_, hl⟩
    simp only [List.mem_cons, List.not_mem_nil, or_false] at hmem
    rcases hmem with rfl | rfl | rfl | rfl <;> simp [predicates, hp, bind, Except.bind]

end Stop

/-! ## Steps of a path -/

/-- One step of a path: a tag, and the number among the children that have it. -/
structure PathStep where
  tag : String
  number : Nat
deriving DecidableEq, Repr

namespace PathStep

/-- The step as it is written. -/
def text (s : PathStep) : String := s.tag ++ "[" ++ toString s.number ++ "]"

/-- The step can be read: its tag is a single name and its number a position. -/
structure Legible (s : PathStep) : Prop where
  isTag : IsTag s.tag
  pos : 0 < s.number
  bounded : s.number < Binary64.exactBound

/-- The child to which the step leads, if the node has so many with the tag. -/
def child? (f : Forest) (d : Document) (s : PathStep) (p : Node) : Option Node :=
  match f.nthChild p s.number (accepts f d s.tag) with
  | .found c => some c
  | .count _ => none

end PathStep

/-- The node to which the steps lead down from another one. -/
def descend? (f : Forest) (d : Document) (steps : List PathStep) (p : Option Node) : Option Node :=
  steps.foldl (fun n s => n.bind (s.child? f d)) p

/-- A path as it is written, each step after a slash. -/
def pathChars (steps : List PathStep) : List Char :=
  steps.flatMap fun s => '/' :: s.text.toList

/-- One node as entries, or none. -/
abbrev nodeEntries (n : Option Node) : Context := n.toList.map .node

theorem position?_ofNat {i : Nat} (hpos : 0 < i) (h : i < Binary64.exactBound) :
    (Binary64.ofNat i).position? = some i := by
  rw [Binary64.position?, Binary64.ofNat_toNat? h]
  simp [hpos]

variable {l : Lexer} {r : List Char}

/-- The number in a predicate. -/
theorem evaluateNext_number {i b : Nat} (ctx : Context) (hi : i < Binary64.exactBound)
    (h : l.At (Nat.toDigits 10 i ++ ']' :: r)) (hb : l.rest.length ≤ b) :
    ∃ l', evaluateNext f d b .predicate ctx l = .ok ([.number (.ofNat i)], l') ∧
      l'.At (']' :: r) := by
  have hs := scan_number hi (endsNumber_of_not (by decide) (by decide) _) h.rest_eq
  cases b with
  | zero =>
    have hlt := (scan_shorter hs).2
    omega
  | succ b =>
    have hat := at_of_rest (']' :: r) (some (.number (.ofNat i)))
    obtain ⟨l', hp, hl, -⟩ :=
      hat.peek (scan_punctuation (t := .fence .rightBracket) (by decide) rfl)
    refine ⟨l', ?_, hl⟩
    simp [evaluateNext, h.expect hs, bind, Except.bind, expression, pathFrom, hp]

theorem ofContext_number (x : Binary64) : Predicate.ofContext [.number x] = .positions [x] := rfl

/-- A step number as a predicate selects the child of the step. -/
theorem PathStep.Legible.apply_number {s : PathStep} (h : s.Legible) (p : Option Node) :
    (Predicate.ofContext [.number (.ofNat s.number)]).apply f (accepts f d s.tag) p.toList none
      = some (nodeEntries (p.bind (s.child? f d))) := by
  rw [ofContext_number]
  show some (Predicate.nthOfEach f (accepts f d s.tag) p.toList (.ofNat s.number)) = _
  rw [Predicate.nthOfEach, position?_ofNat h.pos h.bounded]
  cases p with
  | none => rfl
  | some p =>
    simp only [Option.toList_some, List.filterMap_cons, List.filterMap_nil, Option.bind_some,
      PathStep.child?, nodeEntries]
    cases f.nthChild p s.number (accepts f d s.tag) <;> rfl

theorem nodesOf_nodeEntries (p : Option Node) : nodesOf (nodeEntries p) = .ok p.toList := by
  cases p <;> rfl

/-- The name of a step with its number leads from a node to the child of the step, and from nowhere
to nowhere. -/
theorem PathStep.Legible.nameStep {s : PathStep} (hs : s.Legible) (p : Option Node) {b : Nat}
    (h : l.At ('[' :: (Nat.toDigits 10 s.number ++ ']' :: r))) (hr : StopsStep r)
    (hb : l.rest.length ≤ b) :
    ∃ l', Expression.nameStep f d (within f d b) s.tag (nodeEntries p) l
        = .ok (nodeEntries (p.bind (s.child? f d)), l') ∧ l'.At r := by
  cases b with
  | zero =>
    rw [h.rest_eq] at hb
    exact absurd hb (Nat.not_succ_le_zero _)
  | succ b =>
    obtain ⟨l₁, hp, hl₁, hs₁⟩ :=
      h.peek (scan_punctuation (t := .fence .leftBracket) (by decide) h.rest_eq)
    have hnext := hl₁.next hs₁
    have hopen := at_of_rest (Nat.toDigits 10 s.number ++ ']' :: r) (some (.fence .leftBracket))
    obtain ⟨l₂, hvalue, hl₂⟩ := evaluateNext_number (f := f) (d := d) (nodeEntries p) hs.bounded
      hopen (b := b + 1) (by rw [h.rest_eq, List.length_cons] at hb; exact Nat.le_of_succ_le hb)
    have hclose : l₂.expectFence .rightBracket = .ok ⟨r, none, some (.fence .rightBracket)⟩ :=
      hl₂.expectToken (scan_punctuation (by decide) hl₂.rest_eq) _
    obtain ⟨l₃, hstop, hl₃⟩ := predicates_stop (f := f) (within f d (b + 1)) (nodeEntries p)
      (accepts f d s.tag) p.toList (some (nodeEntries (p.bind (s.child? f d))))
      (at_of_rest r (some (.fence .rightBracket))) hr b
    refine ⟨l₃, ?_, hl₃⟩
    simp only [Expression.nameStep, nodesOf_nodeEntries, bind, Except.bind, predicates, hp, hnext,
      hvalue, hclose, hs.apply_number, hstop, Option.getD_some]

theorem PathStep.toList_text (s : PathStep) :
    s.text.toList = s.tag.toList ++ '[' :: (Nat.toDigits 10 s.number ++ [']']) := by
  have hopen : "[".toList = ['['] := rfl
  have hclose : "]".toList = [']'] := rfl
  rw [PathStep.text, String.toList_append, String.toList_append, String.toList_append,
    toList_toString, hopen, hclose]
  simp only [List.append_assoc, List.cons_append, List.nil_append]

/-- A tag does not start with a slash. -/
theorem head_of_isTag {tag : String} (h : IsTag tag) :
    ∃ c cs, tag.toList = c :: cs ∧ c ≠ '/' := by
  obtain ⟨hs, hwhite⟩ := h.scan_eq
  obtain ⟨c, cs, hcs, ho⟩ := readOther_of_scan hs
  refine ⟨c, cs, hwhite.symm.trans hcs, ?_⟩
  rcases readOther_nameTest ho with ⟨rfl, -, -⟩ | ⟨hc, -⟩
  · decide
  · exact ne_of_isNameStart hc (by decide)

theorem pathChars_cons (s : PathStep) (steps : List PathStep) :
    pathChars (s :: steps) = '/' :: s.text.toList ++ pathChars steps := by
  rw [pathChars, List.flatMap_cons, pathChars]

namespace PathStep.Legible

variable {s : PathStep} (h : s.Legible)

include h

/-- The text of a step starts with something other than a slash. -/
theorem exists_head : ∃ c cs, s.text.toList = c :: cs ∧ c ≠ '/' := by
  obtain ⟨c, cs, e, hc⟩ := head_of_isTag h.isTag
  exact ⟨c, _, by rw [s.toList_text, e, List.cons_append], hc⟩

/-- Where a name is due, the tag of a step comes first. -/
theorem scan (hl : l.rest = s.text.toList ++ r) (hop : l.atOperator = false) :
    l.scan = .ok (some (.nameTest s.tag, '[' :: (Nat.toDigits 10 s.number ++ ']' :: r))) := by
  refine scan_tag (by decide) h.isTag hop (hl.trans ?_)
  rw [s.toList_text]
  simp only [List.append_assoc, List.cons_append, List.nil_append]

end PathStep.Legible

/-- Behind a slash that is not doubled, one step is taken. -/
theorem steps_slash {inner : Evaluator} {ctx : Context} {c : Char} {cs : List Char} {t : Token}
    (hat : l.At ('/' :: c :: cs)) (hc : c ≠ '/')
    (hs : Lexer.scan ⟨c :: cs, none, some (.operator .slash)⟩ = .ok (some (t, r))) (fuel : Nat) :
    steps f d inner (fuel + 1) ctx l = (do
      let (ctx, l) ← step f d inner t ctx ⟨r, none, some t⟩
      steps f d inner fuel ctx l) := by
  obtain ⟨l₁, hp, hl₁, hs₁⟩ := hat.peek (Lexer.scan_slash hc hat.rest_eq)
  have hexpect := (at_of_rest (c :: cs) (some (.operator .slash))).expect hs .locationStep
  simp only [steps, hp, hl₁.next hs₁, hexpect, bind, Except.bind]

/-- What goes on from a value goes on by steps. -/
theorem pathFrom_eq (inner : Evaluator) (ctx : Context) (l : Lexer) :
    pathFrom f d inner ctx l = steps f d inner (inner.bound + 1) ctx l := rfl

/-! ## Expressions -/

/-- The text is an expression that starts with a token and evaluates to some entries. -/
def Reads (f : Forest) (d : Document) (t : Token) (text : List Char) (ctx value : Context) : Prop :=
  ∀ (l : Lexer) (r : List Char), l.At (text ++ r) → Stops r →
    ∃ l₁, l.scan = .ok (some (t, l₁.rest)) ∧ l.next = .ok (some t, l₁) ∧
      ∀ b, l₁.rest.length ≤ b →
        ∃ l₂, expression f d (within f d b) t ctx l₁ = .ok (value, l₂) ∧ l₂.At r

/-- The text is the beginning of an expression, which evaluates to some entries up to here and goes
on with steps from them, if any. -/
def Opens (f : Forest) (d : Document) (t : Token) (text : List Char) (ctx value : Context) : Prop :=
  ∀ (l : Lexer) (r : List Char), l.At (text ++ r) → StopsStep r →
    ∃ l₁, l.scan = .ok (some (t, l₁.rest)) ∧ l.next = .ok (some t, l₁) ∧
      ∀ b, l₁.rest.length ≤ b →
        ∃ l₂ fuel, l₂.At r ∧ r.length ≤ b ∧ r.length ≤ fuel ∧
          expression f d (within f d b) t ctx l₁ = steps f d (within f d b) fuel value l₂

/-- The text is the arguments of a function in parentheses, and the call evaluates to some
entries. -/
def Calls (f : Forest) (d : Document) (name : String) (text : List Char) (ctx value : Context) :
    Prop :=
  ∀ (l : Lexer) (r : List Char) (b : Nat), l.At (text ++ r) → l.rest.length ≤ b →
    ∃ l', functionCall f d (within f d b) name ctx l = .ok (value, l') ∧ l'.At r

section

variable {t : Token} {text : List Char} {ctx value : Context}

/-- An expression inside another one. -/
theorem Reads.evaluateNext (h : Reads f d t text ctx value) (hat : l.At (text ++ r))
    (hr : Stops r) {b : Nat} (hb : l.rest.length ≤ b) (e : Expected) :
    ∃ l', Expression.evaluateNext f d b e ctx l = .ok (value, l') ∧ l'.At r := by
  obtain ⟨l₁, hs, hnext, hvalue⟩ := h l r hat hr
  have hshort := (scan_shorter hs).2
  cases b with
  | zero => omega
  | succ b =>
    obtain ⟨l₂, hl₂, hat₂⟩ := hvalue b (by omega)
    refine ⟨l₂, ?_, hat₂⟩
    simp only [Expression.evaluateNext, expect_ok_iff.mpr hnext, bind, Except.bind]
    exact hl₂

/-- What may go on with steps is an expression without them. -/
theorem Opens.reads (h : Opens f d t text ctx value) : Reads f d t text ctx value := by
  intro l r hat hr
  obtain ⟨l₁, hs, hnext, hvalue⟩ := h l r hat hr.step
  refine ⟨l₁, hs, hnext, fun b hb => ?_⟩
  obtain ⟨l₂, fuel, hl₂, -, -, heq⟩ := hvalue b hb
  obtain ⟨l₃, hstop, hl₃⟩ := steps_stop (f := f) (d := d) (within f d b) value hl₂ hr fuel
  exact ⟨l₃, heq.trans hstop, hl₃⟩

/-- A call begins an expression. -/
theorem Calls.opens {name : String} {args : List Char}
    (h : Calls f d name ('(' :: args) ctx value) (hname : isFunctionName name = true)
    (hrange : name ≠ "range-to") :
    Opens f d (.functionName name) (name.toList ++ '(' :: args) ctx value := by
  intro l r hat hr
  rw [List.append_assoc] at hat
  have hs := scan_function hname hat.rest_eq
  refine ⟨⟨'(' :: args ++ r, none, _⟩, hs, hat.next hs, fun b hb => ?_⟩
  obtain ⟨l₂, hcall, hl₂⟩ := h _ r b (at_of_rest _ (some (.functionName name))) hb
  have hlen : r.length ≤ b := Nat.le_trans (List.suffix_append _ _).length_le hb
  refine ⟨l₂, b + 1, hl₂, hlen, Nat.le_succ_of_le hlen, ?_⟩
  rw [expression, if_neg hrange]
  simp only [hcall, bind, Except.bind, pathFrom_eq]

/-- A call is an expression. -/
theorem Calls.reads {name : String} {args : List Char}
    (h : Calls f d name ('(' :: args) ctx value) (hname : isFunctionName name = true)
    (hrange : name ≠ "range-to") :
    Reads f d (.functionName name) (name.toList ++ '(' :: args) ctx value :=
  (h.opens hname hrange).reads

/-! ## Paths -/

/-- The first step from the root. -/
theorem PathStep.Legible.opens {s : PathStep} (h : s.Legible) :
    Opens f d (.operator .slash) ('/' :: s.text.toList) ctx
      (nodeEntries (s.child? f d d.root)) := by
  intro l r hat hr
  obtain ⟨c, cs, hhead, hc⟩ := h.exists_head
  have hs : l.scan = .ok (some (.operator .slash, s.text.toList ++ r)) := by
    have hrest := hat.rest_eq
    rw [List.cons_append, hhead, List.cons_append] at hrest
    rw [Lexer.scan_slash hc hrest, hhead, List.cons_append]
  refine ⟨⟨s.text.toList ++ r, none, _⟩, hs, hat.next hs, fun b hb => ?_⟩
  -- the step is looked at before it is taken
  have hat₁ := at_of_rest (s.text.toList ++ r) (some (.operator .slash))
  have hs₁ := h.scan (l := ⟨s.text.toList ++ r, none, some (.operator .slash)⟩) rfl rfl
  obtain ⟨l₂, hp, hl₂, hs₂⟩ := hat₁.peek hs₁
  have hshort := (scan_shorter hs₁).2
  obtain ⟨l₃, hname, hl₃⟩ := h.nameStep (f := f) (d := d) (some d.root)
    (at_of_rest _ (some (.nameTest s.tag))) hr (Nat.le_trans (Nat.le_of_lt hshort) hb)
  have hstep : Expression.nameStep f d (within f d b) s.tag [.node d.root] _
      = .ok (nodeEntries (s.child? f d d.root), l₃) := hname
  have hlen : r.length ≤ b := Nat.le_trans (List.suffix_append _ _).length_le hb
  refine ⟨l₃, b, hl₃, hlen, hlen, ?_⟩
  have hstart : (some (Token.nameTest s.tag)).any startsStep = true := rfl
  rw [expression, absolutePath]
  simp only [hp, bind, Except.bind, hstart, if_true, hl₂.expect hs₂, locationPath, step, hstep]

/-- A further step. -/
theorem Opens.step {s : PathStep} {p : Option Node} (h : Opens f d t text ctx (nodeEntries p))
    (hs : s.Legible) :
    Opens f d t (text ++ '/' :: s.text.toList) ctx (nodeEntries (p.bind (s.child? f d))) := by
  intro l r hat hr
  obtain ⟨c, cs, hhead, hc⟩ := hs.exists_head
  have hslash : '/' :: s.text.toList ++ r = '/' :: c :: (cs ++ r) := by
    rw [hhead]
    rfl
  rw [List.append_assoc, hslash] at hat
  obtain ⟨l₁, hscan, hnext, hvalue⟩ := h l _ hat (stopsStep_slash hc _)
  refine ⟨l₁, hscan, hnext, fun b hb => ?_⟩
  obtain ⟨l₂, fuel, hl₂, hlen, hfuel, heq⟩ := hvalue b hb
  cases fuel with
  | zero => exact absurd hfuel (Nat.not_succ_le_zero _)
  | succ fuel =>
    have hs₂ := hs.scan (r := r) (l := ⟨c :: (cs ++ r), none, some (.operator .slash)⟩)
      (by rw [hhead]; rfl) rfl
    have hrest : (c :: (cs ++ r)).length ≤ b := Nat.le_of_succ_le hlen
    have hrlen : r.length ≤ (c :: (cs ++ r)).length := (List.suffix_append (c :: cs) r).length_le
    obtain ⟨l₃, hname, hl₃⟩ := hs.nameStep (f := f) (d := d) p
      (at_of_rest _ (some (.nameTest s.tag))) hr
      (Nat.le_trans (Nat.le_of_lt (scan_shorter hs₂).2) hrest)
    refine ⟨l₃, fuel, hl₃, Nat.le_trans hrlen hrest,
      Nat.le_trans hrlen (Nat.le_of_succ_le_succ hfuel), ?_⟩
    rw [heq, steps_slash hl₂ hc hs₂]
    simp only [Expression.step, hname, bind, Except.bind]

/-- A path goes on from where it has come. -/
theorem Opens.path {p : Option Node} (h : Opens f d t text ctx (nodeEntries p))
    {steps : List PathStep} (hsteps : ∀ s ∈ steps, s.Legible) :
    Opens f d t (text ++ pathChars steps) ctx (nodeEntries (descend? f d steps p)) := by
  induction steps generalizing text p with
  | nil => rwa [pathChars, List.flatMap_nil, List.append_nil]
  | cons s steps ih =>
    rw [pathChars_cons, ← List.append_assoc]
    exact ih (h.step (hsteps s List.mem_cons_self)) fun s' hs' =>
      hsteps s' (List.mem_cons_of_mem s hs')

/-- A path from the root. -/
theorem opens_path {s : PathStep} {steps : List PathStep} (h : ∀ s' ∈ s :: steps, s'.Legible) :
    Opens f d (.operator .slash) (pathChars (s :: steps)) ctx
      (nodeEntries (descend? f d (s :: steps) (some d.root))) := by
  rw [pathChars_cons]
  exact (h s List.mem_cons_self).opens.path fun s' hs' => h s' (List.mem_cons_of_mem s hs')

/-! ## The function `id` -/

/-- An id without white space is the only word in it. -/
theorem words_of_id {id : List Char} (hne : id ≠ [])
    (h : ∀ c ∈ id, Unicode.isWhiteSpace c = false) : words id = [id] := by
  rw [words, List.splitOnP_eq_singleton h]
  cases id with
  | nil => exact absurd rfl hne
  | cons c cs => rfl

/-- The arguments of `id` as they are written. -/
def idArguments (quote : Char) (id : String) : List Char :=
  '(' :: (quote :: (id.toList ++ [quote, ')']))

/-- The elements that the words in quotes are the ids of. -/
theorem calls_byIds {q : Char} {id : String} (hq : q = '"' ∨ q = '\'') (hid : q ∉ id.toList) :
    Calls f d "id" (idArguments q id) ctx (byIds f d id) := by
  intro l r b hat hb
  have hrest : idArguments q id ++ r = '(' :: (q :: (id.toList ++ q :: (')' :: r))) := by
    simp only [idArguments, List.cons_append, List.append_assoc, List.nil_append]
  rw [hrest] at hat
  have hopen : l.expectFence .leftParen = .ok _ :=
    hat.expectToken (scan_punctuation (by decide) hat.rest_eq) _
  have hat₁ := at_of_rest (q :: (id.toList ++ q :: (')' :: r))) (some (.fence .leftParen))
  have hliteral := hat₁.expect (scan_literal hq hid hat₁.rest_eq) .idLiteral
  have hat₂ := at_of_rest (')' :: r) (some (.literal id))
  have hclose : Lexer.expectFence ⟨')' :: r, none, some (.literal id)⟩ .rightParen = .ok _ :=
    hat₂.expectToken (scan_punctuation (by decide) hat₂.rest_eq) _
  refine ⟨_, ?_, at_of_rest r (some (.fence .rightParen))⟩
  simp only [functionCall, hopen, arguments, if_true, idCall, hliteral, hclose, bind, Except.bind]

/-- A single word finds at most one element. -/
theorem byIds_of_word {id : String} (hne : id ≠ "")
    (hwhite : ∀ c ∈ id.toList, Unicode.isWhiteSpace c = false) :
    byIds f d id = nodeEntries (d.elementById? f id) := by
  rw [byIds, words_of_id (mt String.toList_eq_nil_iff.mp hne) hwhite, List.filterMap_cons,
    List.filterMap_nil, String.ofList_toList]
  cases d.elementById? f id with
  | none => rfl
  | some n => simp [nodeEntries, List.eraseDups_cons]

theorem calls_id {q : Char} {id : String} (hq : q = '"' ∨ q = '\'') (hid : q ∉ id.toList)
    (hne : id ≠ "") (hwhite : ∀ c ∈ id.toList, Unicode.isWhiteSpace c = false) :
    Calls f d "id" (idArguments q id) ctx (nodeEntries (d.elementById? f id)) := by
  rw [← byIds_of_word hne hwhite]
  exact calls_byIds hq hid

/-! ## The function `string-range` -/

theorem scan_spaced_number {n : Nat} (hn : n < Binary64.exactBound) (hr : EndsNumber r)
    (h : l.rest = ' ' :: (Nat.toDigits 10 n ++ r)) :
    l.scan = .ok (some (.number (.ofNat n), r)) :=
  scan_space h (scan_number hn hr rfl)

theorem expectInteger_number {cs : List Char} {x : Binary64} {n : Nat} (hx : x.toNat? = some n)
    (hat : l.At cs) (hs : l.scan = .ok (some (.number x, r))) (e : Expected) :
    l.expectInteger e = .ok (n, ⟨r, none, some (.number x)⟩) := by
  simp only [expectInteger, hat.expect hs, bind, Except.bind, hx]

theorem expectInteger_digits {n : Nat} (hn : n < Binary64.exactBound) (hr : EndsNumber r)
    (hat : l.At (' ' :: (Nat.toDigits 10 n ++ r))) (e : Expected) :
    l.expectInteger e = .ok (n, ⟨r, none, some (.number (.ofNat n))⟩) :=
  expectInteger_number (Binary64.ofNat_toNat? hn) hat (scan_spaced_number hn hr hat.rest_eq) e

/-- A number that is not known exactly is no integer. -/
theorem expectInteger_inexact {cs : List Char} {x : Binary64} (hx : x.toNat? = none)
    (hat : l.At cs) (hs : l.scan = .ok (some (.number x, r))) (e : Expected) :
    ∃ fault, l.expectInteger e = .error fault := by
  simp only [expectInteger, hat.expect hs, bind, Except.bind, hx]
  exact ⟨_, rfl⟩

theorem expectInteger_large {n : Nat} (hn : Binary64.exactBound ≤ n) (hr : EndsNumber r)
    (hat : l.At (' ' :: (Nat.toDigits 10 n ++ r))) (e : Expected) :
    ∃ fault, l.expectInteger e = .error fault := by
  have hx := Binary64.toNat?_ofDecimal_toDigits n
  rw [if_neg (Nat.not_lt_of_le hn)] at hx
  exact expectInteger_inexact hx hat (scan_space hat.rest_eq (scan_digits hr rfl)) e

theorem refuseEnd_comma (hat : l.At (',' :: r)) (fault : UnsupportedFault) :
    ∃ l', refuseEnd fault l = .ok l' ∧ l'.At (',' :: r) := by
  obtain ⟨l', hp, hl, -⟩ := hat.peek (scan_punctuation (t := .comma) (by decide) hat.rest_eq)
  exact ⟨l', by simp only [refuseEnd, hp, bind, Except.bind], hl⟩

theorem expectComma_at (hat : l.At (',' :: r)) :
    l.expectComma = .ok ⟨r, none, some .comma⟩ :=
  hat.expectToken (scan_punctuation (by decide) hat.rest_eq) _

/-- The arguments after the location, as they are written. -/
def lengthChars (start length : Nat) : List Char :=
  ',' :: ' ' :: '"' :: '"' :: ',' :: ' ' :: (Nat.toDigits 10 start ++ ',' :: ' ' ::
    Nat.toDigits 10 length)

/-- Before the start there is nothing that could not be read. -/
theorem stringRangeArguments_eq {start length : Nat}
    (hat : l.At (lengthChars start length ++ ')' :: r)) :
    stringRangeArguments l = (do
      let (s, l) ← Lexer.expectInteger ⟨' ' :: (Nat.toDigits 10 start ++ ',' :: ' ' ::
        (Nat.toDigits 10 length ++ ')' :: r)), none, some .comma⟩ .startOffset
      let l ← refuseEnd .noLength l
      let l ← l.expectComma
      let (n, l) ← l.expectInteger .length
      .ok ((s, n), l)) := by
  have hrest : lengthChars start length ++ ')' :: r
      = ',' :: ' ' :: '"' :: '"' :: ',' :: ' ' :: (Nat.toDigits 10 start ++ ',' :: ' ' ::
        (Nat.toDigits 10 length ++ ')' :: r)) := by
    simp only [lengthChars, List.cons_append, List.append_assoc]
  rw [hrest] at hat
  have hcomma := expectComma_at hat
  have hat₁ := at_of_rest (' ' :: '"' :: '"' :: ',' :: ' ' :: (Nat.toDigits 10 start ++ ',' ::
    ' ' :: (Nat.toDigits 10 length ++ ')' :: r))) (some .comma)
  have hsearch := hat₁.expect (scan_space hat₁.rest_eq
    (scan_literal (Or.inl rfl) (show '"' ∉ "".toList by decide) rfl)) .searchString
  have hat₂ := at_of_rest (',' :: ' ' :: (Nat.toDigits 10 start ++ ',' :: ' ' ::
    (Nat.toDigits 10 length ++ ')' :: r))) (some (.literal ""))
  obtain ⟨l₃, hmore, hl₃⟩ := refuseEnd_comma hat₂ .noStartAndLength
  simp only [stringRangeArguments, expectNoSearch, hcomma, hsearch, hmore, expectComma_at hl₃, bind,
    Except.bind, if_true]

theorem endsNumber_lengthChars (length : Nat) (r : List Char) :
    EndsNumber (',' :: ' ' :: (Nat.toDigits 10 length ++ ')' :: r)) :=
  endsNumber_of_not (by decide) (by decide) _

theorem endsNumber_rightParen (r : List Char) : EndsNumber (')' :: r) :=
  endsNumber_of_not (by decide) (by decide) r

/-- The start can be read, and the reading goes on before the length. -/
theorem stringRangeArguments_start {start length : Nat} (hstart : start < Binary64.exactBound)
    (hat : l.At (lengthChars start length ++ ')' :: r)) :
    stringRangeArguments l = (do
      let (n, l) ← Lexer.expectInteger ⟨' ' :: (Nat.toDigits 10 length ++ ')' :: r), none,
        some .comma⟩ .length
      .ok ((start, n), l)) := by
  have hfirst := expectInteger_digits hstart (endsNumber_lengthChars length r)
    (at_of_rest _ (some .comma)) .startOffset
  obtain ⟨l₁, hmore, hl₁⟩ := refuseEnd_comma (at_of_rest (',' :: ' ' :: (Nat.toDigits 10 length ++
    ')' :: r)) (some (.number (.ofNat start)))) .noLength
  rw [stringRangeArguments_eq hat]
  simp only [hfirst, hmore, expectComma_at hl₁, bind, Except.bind]

theorem stringRangeArguments_lengthChars {start length : Nat}
    (hstart : start < Binary64.exactBound) (hlength : length < Binary64.exactBound)
    (hat : l.At (lengthChars start length ++ ')' :: r)) :
    ∃ l', stringRangeArguments l = .ok ((start, length), l') ∧ l'.At (')' :: r) := by
  have hsecond := expectInteger_digits hlength (endsNumber_rightParen r)
    (at_of_rest _ (some .comma)) .length
  refine ⟨_, ?_, at_of_rest (')' :: r) (some (.number (.ofNat length)))⟩
  simp only [stringRangeArguments_start hstart hat, hsecond, bind, Except.bind]

/-- A start or a length that cannot be read. -/
theorem stringRangeArguments_large {start length : Nat}
    (hlarge : Binary64.exactBound ≤ start ∨ Binary64.exactBound ≤ length)
    (hat : l.At (lengthChars start length ++ ')' :: r)) :
    ∃ fault, stringRangeArguments l = .error fault := by
  rcases Nat.lt_or_ge start Binary64.exactBound with hstart | hstart
  · obtain ⟨fault, hfault⟩ := expectInteger_large
      (hlarge.resolve_left (Nat.not_le_of_lt hstart)) (endsNumber_rightParen r)
      (at_of_rest _ (some .comma)) .length
    refine ⟨fault, ?_⟩
    simp only [stringRangeArguments_start hstart hat, hfault, bind, Except.bind]
  · obtain ⟨fault, hfault⟩ := expectInteger_large hstart (endsNumber_lengthChars length r)
      (at_of_rest _ (some .comma)) .startOffset
    refine ⟨fault, ?_⟩
    simp only [stringRangeArguments_eq hat, hfault, bind, Except.bind]

/-- The arguments of `string-range` as they are written. -/
def stringRangeChars (path : List Char) (start length : Nat) : List Char :=
  '(' :: (path ++ (lengthChars start length ++ [')']))

theorem toList_stringRange (path : String) (start length : Nat) :
    ("string-range(" ++ path ++ ", \"\", " ++ toString start ++ ", " ++ toString length
      ++ ")").toList = "string-range".toList ++ stringRangeChars path.toList start length := by
  have hopen : "string-range(".toList = "string-range".toList ++ ['('] := rfl
  have hmiddle : ", \"\", ".toList = [',', ' ', '"', '"', ',', ' '] := rfl
  have hcomma : ", ".toList = [',', ' '] := rfl
  have hclose : ")".toList = [')'] := rfl
  simp only [String.toList_append, toList_toString, hopen, hmiddle, hcomma, hclose,
    stringRangeChars, lengthChars, List.append_assoc, List.cons_append, List.nil_append]

/-- The stretches of a start and a length in the text of what a path leads to. -/
theorem calls_stringRange {path : List Char} {start length : Nat} {found : Context}
    (hpath : Reads f d t path ctx value) (hstart : start < Binary64.exactBound)
    (hlength : length < Binary64.exactBound)
    (hfound : stringRanges f start length value = .ok found) :
    Calls f d "string-range" (stringRangeChars path start length) ctx found := by
  intro l r b hat hb
  have hrest : stringRangeChars path start length ++ r
      = '(' :: (path ++ (lengthChars start length ++ ')' :: r)) := by
    simp only [stringRangeChars, List.cons_append, List.append_assoc, List.nil_append]
  rw [hrest] at hat
  have hopen : l.expectFence .leftParen = .ok _ :=
    hat.expectToken (scan_punctuation (by decide) hat.rest_eq) _
  have hat₁ := at_of_rest (path ++ (lengthChars start length ++ ')' :: r))
    (some (.fence .leftParen))
  have hlen : (path ++ (lengthChars start length ++ ')' :: r)).length ≤ b := by
    rw [hat.rest_eq] at hb
    exact Nat.le_of_succ_le hb
  obtain ⟨l₂, hlocation, hl₂⟩ := hpath.evaluateNext hat₁ (stops_comma _) hlen .location
  obtain ⟨l₃, harguments, hl₃⟩ := stringRangeArguments_lengthChars hstart hlength hl₂
  have hclose : l₃.expectFence .rightParen = .ok _ :=
    hl₃.expectToken (scan_punctuation (by decide) hl₃.rest_eq) _
  refine ⟨_, ?_, at_of_rest r (some (.fence .rightParen))⟩
  have hname : ¬ "string-range" = "id" := by decide
  simp only [functionCall, hopen, arguments, bind, Except.bind, if_neg hname, if_true]
  simp only [stringRangeCall, hlocation, harguments, hfound, hclose, bind, Except.bind]

/-! ## Points and ranges -/

/-- The function that gives one end of a range. -/
def pointName (toStart : Bool) : String :=
  if toStart then "start-point" else "end-point"

theorem toList_point (toStart : Bool) (text : String) :
    (pointName toStart ++ "(" ++ text ++ ")").toList
      = (pointName toStart).toList ++ '(' :: (text.toList ++ [')']) := by
  have hopen : "(".toList = ['('] := rfl
  have hclose : ")".toList = [')'] := rfl
  simp only [String.toList_append, hopen, hclose, List.append_assoc, List.cons_append,
    List.nil_append]

/-- The opening parenthesis is taken from the front of a text in parentheses. -/
theorem expectFence_leftParen (hat : l.At ('(' :: (text ++ [')']) ++ r)) :
    l.expectFence .leftParen = .ok ⟨text ++ ')' :: r, none, some (.fence .leftParen)⟩ ∧
      (text ++ ')' :: r).length < l.rest.length := by
  have hrest : '(' :: (text ++ [')']) ++ r = '(' :: (text ++ ')' :: r) := by
    simp only [List.cons_append, List.append_assoc, List.nil_append]
  rw [hrest] at hat
  refine ⟨hat.expectToken (scan_punctuation (by decide) hat.rest_eq) _, ?_⟩
  rw [hat.rest_eq]
  exact Nat.lt_succ_self _

/-- An expression in parentheses is read from the opening one to the closing one. -/
theorem Reads.inParens (h : Reads f d t text ctx value) (e : Expected) {b : Nat}
    (hat : l.At ('(' :: (text ++ [')']) ++ r)) (hb : l.rest.length ≤ b) :
    ∃ l₁ l₂ l₃, l.expectFence .leftParen = .ok l₁ ∧
      Expression.evaluateNext f d b e ctx l₁ = .ok (value, l₂) ∧
      l₂.expectFence .rightParen = .ok l₃ ∧ l₃.At r := by
  obtain ⟨hopen, hlen⟩ := expectFence_leftParen hat
  obtain ⟨l₂, hvalue, hl₂⟩ := h.evaluateNext
    (at_of_rest (text ++ ')' :: r) (some (.fence .leftParen))) (stops_rightParen r)
    (Nat.le_trans (Nat.le_of_lt hlen) hb) e
  exact ⟨_, l₂, _, hopen, hvalue,
    hl₂.expectToken (scan_punctuation (by decide) hl₂.rest_eq) _,
    at_of_rest r (some (.fence .rightParen))⟩

/-- The starts or the ends of what an expression gives. -/
theorem calls_point {toStart : Bool} {points : Context} (h : Reads f d t text ctx value)
    (hpoints : value.mapM (pointOf f toStart) = .ok points) :
    Calls f d (pointName toStart) ('(' :: (text ++ [')'])) ctx points := by
  intro l r b hat hb
  obtain ⟨l₁, l₂, l₃, hopen, hvalue, hclose, hl₃⟩ := h.inParens .location hat hb
  have hpoint : pointCall f (within f d b) toStart ctx l₁ = .ok (points, l₂) := by
    simp only [pointCall, hvalue, hpoints, bind, Except.bind]
  have harguments : arguments f d (within f d b) (pointName toStart) ctx l₁ = .ok (points, l₂) := by
    rw [← hpoint]
    cases toStart <;> rfl
  refine ⟨l₃, ?_, hl₃⟩
  simp only [functionCall, hopen, harguments, hclose, bind, Except.bind]

/-- The range from a boundary to what its target was evaluated to. -/
def rangeOnto (f : Forest) (start : Boundary) : Context → Except Fault Range
  | [] => .ok (.point start)
  | [last] => do Range.make f start (← last.toRange f).stop
  | _ => .error (.unsupported .rangeToSet)

/-- The text in parentheses behind `range-to` leads from some entries to others. -/
def RangesTo (f : Forest) (d : Document) (text : List Char) (ctx value : Context) : Prop :=
  ∀ (l : Lexer) (r : List Char) (b : Nat), l.At (text ++ r) → l.rest.length ≤ b →
    ∃ l', rangeTo f (within f d b) ctx l = .ok (value, l') ∧ l'.At r

/-- The range from an entry to the value of its target. -/
theorem Reads.rangesTo {entry : Location} {first found : Range} {target : List Char}
    {last : Context} (h : Reads f d t target [entry] last) (hentry : entry.toRange f = .ok first)
    (hfound : rangeOnto f first.start last = .ok found) :
    RangesTo f d ('(' :: (target ++ [')'])) [entry] [.range found] := by
  intro l r b hat hb
  obtain ⟨l₁, l₂, l₃, hopen, hvalue, hclose, hl₃⟩ := h.inParens .rangeTarget hat hb
  have hfrom : rangeFrom f (within f d b) entry l₁ = .ok (.range found, l₂) := by
    simp only [rangeFrom, hentry, hvalue, bind, Except.bind]
    unfold rangeOnto at hfound
    split at hfound
    · cases hfound
      rfl
    · next last =>
      obtain ⟨s, hlast, hmake⟩ := exists_of_bind hfound
      simp only [hlast, hmake]
    · cases hfound
  refine ⟨l₃, ?_, hl₃⟩
  simp [rangeTo, hopen, rangesFrom, hfrom, hclose, bind, Except.bind, pure, Except.pure]

/-- The step `range-to` as it is written, with its slash. -/
def rangeToChars (target : List Char) : List Char :=
  '/' :: ("range-to".toList ++ '(' :: (target ++ [')']))

theorem toList_rangeTo (first last : String) :
    (first ++ "/range-to(" ++ last ++ ")").toList = first.toList ++ rangeToChars last.toList := by
  have hopen : "/range-to(".toList = '/' :: ("range-to".toList ++ ['(']) := rfl
  have hclose : ")".toList = [')'] := rfl
  simp only [String.toList_append, hopen, hclose, rangeToChars, List.append_assoc,
    List.cons_append, List.nil_append]

/-- Behind what an expression begins with, the step `range-to` is taken. -/
theorem Opens.rangeTo_eq {target : List Char} (h : Opens f d t text ctx value)
    (hat : l.At (text ++ rangeToChars target ++ r)) :
    ∃ l₁, l.scan = .ok (some (t, l₁.rest)) ∧ l.next = .ok (some t, l₁) ∧
      ∀ b, l₁.rest.length ≤ b → ∃ l₂ fuel, l₂.At ('(' :: (target ++ [')']) ++ r) ∧
        l₂.rest.length ≤ b ∧ r.length ≤ fuel ∧
        expression f d (within f d b) t ctx l₁ = (do
          let (ranges, l) ← Expression.rangeTo f (within f d b) value l₂
          steps f d (within f d b) fuel ranges l) := by
  have hrest : rangeToChars target ++ r
      = '/' :: ("range-to".toList ++ '(' :: (target ++ [')'] ++ r)) := by
    simp only [rangeToChars, List.cons_append, List.append_assoc, List.nil_append]
  rw [List.append_assoc, hrest] at hat
  obtain ⟨l₁, hscan, hnext, hvalue⟩ := h l _ hat (stopsStep_slash (c := 'r') (by decide) _)
  refine ⟨l₁, hscan, hnext, fun b hb => ?_⟩
  obtain ⟨l₂, fuel, hl₂, hlen, hfuel, heq⟩ := hvalue b hb
  cases fuel with
  | zero => exact absurd hfuel (Nat.not_succ_le_zero _)
  | succ fuel =>
    have hs₂ : Lexer.scan ⟨"range-to".toList ++ '(' :: (target ++ [')'] ++ r), none,
        some (.operator .slash)⟩ = .ok _ :=
      scan_function (by decide) rfl
    simp only [List.length_cons, List.length_append, List.length_nil] at hlen hfuel
    refine ⟨_, fuel, at_of_rest _ (some (.functionName "range-to")), ?_, by omega, ?_⟩
    · simp only [List.cons_append, List.length_cons, List.length_append, List.length_nil]
      omega
    · rw [heq, steps_slash (c := 'r') hl₂ (by decide) hs₂]
      rfl

/-- The step `range-to` from what an expression begins with. -/
theorem Opens.rangeTo {target : List Char} {ranges : Context} (h : Opens f d t text ctx value)
    (hrange : RangesTo f d ('(' :: (target ++ [')'])) value ranges) :
    Opens f d t (text ++ rangeToChars target) ctx ranges := by
  intro l r hat hr
  obtain ⟨l₁, hscan, hnext, hvalue⟩ := h.rangeTo_eq hat
  refine ⟨l₁, hscan, hnext, fun b hb => ?_⟩
  obtain ⟨l₂, fuel, hl₂, hlen, hfuel, heq⟩ := hvalue b hb
  obtain ⟨l₃, hstep, hl₃⟩ := hrange l₂ r b hl₂ hlen
  have hr₂ : r.length ≤ b := by
    rw [hl₂.rest_eq] at hlen
    exact Nat.le_trans (List.suffix_append _ _).length_le hlen
  refine ⟨l₃, fuel, hl₃, hr₂, hfuel, ?_⟩
  simp only [heq, hstep, bind, Except.bind]

end

end Expression

end TreePointer
