import Mathlib.Data.List.Forall2
import TreePointer.Proofs.Address.Continued
import TreePointer.Proofs.Address.Route

/-!
# Child sequences are paths by wildcards

A child sequence `/1/2` goes down by numbers alone. It is read by productions of its own, which are
shorter than those of a path, have another search for the children and pass on at most one node. Yet
each of its numbers is the step `*[1]` of a path. So a child sequence leads to the same node as the
path by wildcards, from the root as from the element with an id, with the scheme `element` or
without it.

* `sequence`, `wildcards`: the two ways to write numbers.
* `childSequence_reads`: what a child sequence gives, by induction on the numbers.
* `Points`: a text is a child sequence, alone or behind a name, with a certain value.
* `evaluate_sequence`: all the ways to write it are evaluated alike.
-/

namespace TreePointer

open Lexer Expression

namespace Address

variable {f : Forest} {d : Document} {o : Options} {l : Lexer} {r : List Char} {n : Nat}
  {ns : List Nat} {p : Option Node} {value : Context}

/-! ## The texts -/

/-- A way down by the numbers of children, as a child sequence. -/
def sequence (ns : List Nat) : String :=
  String.join (ns.map fun n => "/" ++ toString n)

/-- The same way, as a path by wildcards. -/
def wildcards (ns : List Nat) : String :=
  String.join (ns.map fun n => "/*[" ++ toString n ++ "]")

def sequenceChars (ns : List Nat) : List Char :=
  ns.flatMap fun n => '/' :: Nat.toDigits 10 n

/-- The step to the child element with a number, whatever its tag is. -/
def anyStep (n : Nat) : PathStep := ⟨"*", n⟩

theorem toList_sequence (ns : List Nat) : (sequence ns).toList = sequenceChars ns := by
  rw [sequence, String.toList_join, List.flatMap_map, sequenceChars]
  congr 1
  funext n
  rw [String.toList_append, toList_toString]
  rfl

theorem toList_wildcards (ns : List Nat) :
    (wildcards ns).toList = pathChars (ns.map anyStep) := by
  rw [wildcards, String.toList_join, List.flatMap_map, pathChars, List.flatMap_map]
  congr 1
  funext n
  have hopen : "/*[".toList = ['/', '*', '['] := rfl
  have hclose : "]".toList = [']'] := rfl
  have htag : "*".toList = ['*'] := rfl
  rw [PathStep.toList_text, String.toList_append, String.toList_append, toList_toString, hopen,
    hclose, anyStep, htag]
  rfl

theorem sequenceChars_cons (n : Nat) (ns : List Nat) (r : List Char) :
    sequenceChars (n :: ns) ++ r = '/' :: (Nat.toDigits 10 n ++ (sequenceChars ns ++ r)) := by
  rw [sequenceChars, List.flatMap_cons, List.append_assoc]
  rfl

theorem endsNumber_sequenceChars (ns : List Nat) (hend : EndsNumber r) :
    EndsNumber (sequenceChars ns ++ r) := by
  cases ns with
  | nil => exact hend
  | cons n ns =>
    rw [sequenceChars_cons]
    exact endsNumber_of_not (by decide) (by decide) _

/-- A slash before a number. -/
theorem scan_slash_digits (h : l.rest = '/' :: (Nat.toDigits 10 n ++ r)) :
    l.scan = .ok (some (.operator .slash, Nat.toDigits 10 n ++ r)) := by
  have hdigit : ∀ c ∈ Nat.toDigits 10 n, c.isDigit = true := fun c hc =>
    Nat.isDigit_of_mem_toDigits (by decide) (by decide) hc
  cases hcs : Nat.toDigits 10 n with
  | nil => exact absurd hcs Nat.toDigits_ne_nil
  | cons c cs =>
    have hne : c ≠ '/' := by
      rintro rfl
      exact absurd (hdigit '/' (hcs ▸ List.mem_cons_self)) (by decide)
    rw [hcs] at h
    exact scan_slash hne h

/-! ## Single numbers -/

theorem accepts_star (f : Forest) (d : Document) : accepts f d "*" = f.isElement := by
  have hstar : d.normalizeTag "*" = "*" := by
    unfold Document.normalizeTag
    split
    · exact String.toList_injective (String.toList_map.trans rfl)
    · rfl
  funext n
  rw [accepts, hstar]
  simp

/-- A number of a child sequence is a step to any element. -/
theorem childElement_eq (f : Forest) (d : Document) (n : Nat) (p : Option Node) :
    childElement f n (nodeEntries p) = .ok (nodeEntries (p.bind ((anyStep n).child? f d))) := by
  cases p with
  | none => rfl
  | some p =>
    have hstar : accepts f d (anyStep n).tag = f.isElement := accepts_star f d
    have hnumber : (anyStep n).number = n := rfl
    rw [Option.bind_some, PathStep.child?, hstar, hnumber]
    cases hchild : f.nthChild p n f.isElement with
    | found c => simp only [nodeEntries, Option.toList_some, List.map_cons, List.map_nil,
        childElement, hchild]
    | count _ => simp only [nodeEntries, Option.toList_some, Option.toList_none, List.map_cons,
        List.map_nil, childElement, hchild]

theorem isTag_star : IsTag "*" := by
  decide

theorem legible_anyStep (hpos : 0 < n) (hn : n < Binary64.exactBound) : (anyStep n).Legible :=
  ⟨isTag_star, hpos, hn⟩

theorem expectIndex_number {cs : List Char} {x : Binary64} (hx : x.position? = some n)
    (hat : l.At cs) (hs : l.scan = .ok (some (.number x, r))) :
    l.expectIndex = .ok (n, ⟨r, none, some (.number x)⟩) := by
  simp only [expectIndex, hat.expect hs, bind, Except.bind, hx]

theorem expectIndex_digits (hpos : 0 < n) (hn : n < Binary64.exactBound) (hr : EndsNumber r)
    (hat : l.At (Nat.toDigits 10 n ++ r)) :
    l.expectIndex = .ok (n, ⟨r, none, some (.number (.ofNat n))⟩) :=
  expectIndex_number (position?_ofNat hpos hn) hat (scan_number hn hr hat.rest_eq)

/-! ## Child sequences -/

/-- **A child sequence** gives the node to which the steps lead that its numbers are, or none. -/
theorem childSequence_reads (hns : ∀ m ∈ n :: ns, 0 < m ∧ m < Binary64.exactBound)
    (p : Option Node) (hat : l.At (Nat.toDigits 10 n ++ (sequenceChars ns ++ r))) (hr : Stops r)
    (hend : EndsNumber r) {fuel : Nat} (hfuel : l.rest.length ≤ fuel) :
    ∃ l', childSequence f fuel (nodeEntries p) l
        = .ok (nodeEntries (descend? f d ((n :: ns).map anyStep) p), l') ∧ l'.At r := by
  induction ns generalizing n p l fuel with
  | nil =>
    obtain ⟨hpos, hn⟩ := hns n List.mem_cons_self
    have hindex := expectIndex_digits hpos hn (endsNumber_sequenceChars [] hend) hat
    obtain ⟨t, l', hp, hl', ht⟩ :=
      (at_of_rest r (some (.number (.ofNat n)))).peek_of_nextIn hr
    refine ⟨l', ?_, hl'⟩
    have hne : t ≠ some (.operator .slash) := by
      rintro rfl
      revert ht
      decide
    rw [childSequence_eq hat.faithful hfuel]
    simp only [hindex, childElement_eq f d, sequenceChars, List.flatMap_nil, List.nil_append, hp,
      if_neg hne, bind, Except.bind]
    rfl
  | cons m ns ih =>
    obtain ⟨hpos, hn⟩ := hns n List.mem_cons_self
    have hindex := expectIndex_digits hpos hn (endsNumber_sequenceChars (m :: ns) hend) hat
    rw [sequenceChars_cons] at hindex
    have hat₁ := at_of_rest ('/' :: (Nat.toDigits 10 m ++ (sequenceChars ns ++ r)))
      (some (.number (.ofNat n)))
    obtain ⟨l₂, hp, hl₂, hs⟩ := hat₁.peek (scan_slash_digits rfl)
    have hlen : (Nat.toDigits 10 m ++ (sequenceChars ns ++ r)).length ≤ fuel - 1 := by
      rw [hat.rest_eq, sequenceChars_cons, List.length_append, List.length_cons] at hfuel
      omega
    obtain ⟨l', hvalue, hl'⟩ := ih (fun k hk => hns k (List.mem_cons_of_mem n hk))
      (p.bind ((anyStep n).child? f d)) (at_of_rest _ (some (.operator .slash))) hlen
    refine ⟨l', ?_, hl'⟩
    rw [childSequence_eq hat.faithful hfuel]
    simp only [hindex, childElement_eq f d, hp, if_true, hl₂.next hs, hvalue, bind, Except.bind]
    rfl

/-- The text is the data of the scheme `element`, or an address without scheme, and gives some
entries. -/
def Points (f : Forest) (d : Document) (text : List Char) (value : Context) : Prop :=
  ∀ (l : Lexer) (r : List Char), l.At (text ++ r) → l.atOperator = false → Stops r →
    EndsNumber r → ∃ t l₁, l.scan = .ok (some (t, l₁.rest)) ∧ l.next = .ok (some t, l₁) ∧
      ∀ b, l₁.rest.length ≤ b →
        (∃ l₂, elementPointer f d b t l₁ = .ok (value, l₂) ∧ l₂.At r) ∧
        ∀ o, ∃ l₂, ofToken f d o b t l₁ = .ok (value, l₂) ∧ l₂.At r

/-- A child sequence from the root. -/
theorem points_sequence (hns : ∀ m ∈ n :: ns, 0 < m ∧ m < Binary64.exactBound) :
    Points f d (sequenceChars (n :: ns))
      (nodeEntries (descend? f d ((n :: ns).map anyStep) (some d.root))) := by
  intro l r hat _ hr hend
  rw [sequenceChars_cons] at hat
  have hs := scan_slash_digits hat.rest_eq
  refine ⟨.operator .slash, ⟨Nat.toDigits 10 n ++ (sequenceChars ns ++ r), none, _⟩, hs,
    hat.next hs, fun b hb => ?_⟩
  have hat₁ := at_of_rest (Nat.toDigits 10 n ++ (sequenceChars ns ++ r))
    (some (.operator .slash))
  refine ⟨childSequence_reads hns (some d.root) hat₁ hr hend hb, fun o => ?_⟩
  -- as an address the number is looked at first
  obtain ⟨l₂, hp, hl₂, -⟩ := hat₁.peek (scan_number (hns n List.mem_cons_self).2
    (endsNumber_sequenceChars ns hend) rfl)
  have hrest : l₂.rest.length ≤ b := by
    rw [hl₂.rest_eq]
    exact hb
  obtain ⟨l₃, hvalue, hl₃⟩ :=
    childSequence_reads (f := f) (d := d) hns (some d.root) hl₂ hr hend hrest
  refine ⟨l₃, ?_, hl₃⟩
  simp only [ofToken, hp, rootSequence, bind, Except.bind]
  exact hvalue

/-- A child sequence behind a name. -/
theorem points_name (hns : ∀ m ∈ n :: ns, 0 < m ∧ m < Binary64.exactBound) {name : String}
    (hname : IsTag name) :
    Points f d (name.toList ++ sequenceChars (n :: ns))
      (nodeEntries (descend? f d ((n :: ns).map anyStep) (d.elementById? f name))) := by
  intro l r hat hop hr hend
  rw [List.append_assoc, sequenceChars_cons] at hat
  have hs := scan_tag (by decide) hname hop hat.rest_eq
  refine ⟨.nameTest name, ⟨'/' :: (Nat.toDigits 10 n ++ (sequenceChars ns ++ r)), none, _⟩, hs,
    hat.next hs, fun b hb => ?_⟩
  have hat₁ := at_of_rest ('/' :: (Nat.toDigits 10 n ++ (sequenceChars ns ++ r)))
    (some (.nameTest name))
  obtain ⟨l₂, hp, hl₂, hslash⟩ := hat₁.peek (scan_slash_digits rfl)
  obtain ⟨l₃, hvalue, hl₃⟩ := childSequence_reads (f := f) (d := d) hns (d.elementById? f name)
    (at_of_rest _ (some (.operator .slash))) hr hend (Nat.le_of_succ_le hb)
  have hbare : bareName f d b name
      ⟨'/' :: (Nat.toDigits 10 n ++ (sequenceChars ns ++ r)), none, some (.nameTest name)⟩
        = .ok (nodeEntries (descend? f d ((n :: ns).map anyStep) (d.elementById? f name)), l₃) := by
    rw [bareName_eq]
    simp only [hp, if_true, hl₂.next hslash, bind, Except.bind]
    exact hvalue
  exact ⟨⟨l₃, hbare, hl₃⟩, fun o => ⟨l₃, hbare, hl₃⟩⟩

namespace Points

variable {body : String}

/-- The text alone is an address. -/
theorem evaluate_plain (h : Points f d body.toList value) (o : Options) :
    evaluate f d o body = .ok value := by
  have hat : (ofString body).At (body.toList ++ []) := by
    rw [List.append_nil]
    exact at_ofString body
  obtain ⟨t, l₁, hs, hnext, hvalue⟩ := h _ [] hat rfl stops_nil nofun
  obtain ⟨l₂, htoken, hl₂⟩ := (hvalue l₁.rest.length (Nat.le_refl _)).2 o
  rw [Address.evaluate, if_neg (not_blank_of_scan hs)]
  simp only [expect_ok_iff.mpr hnext, htoken, expectEnd_at hl₂, bind, Except.bind]

/-- The text in a scheme part, which counts if it gives a place. -/
theorem evaluate_element (h : Points f d body.toList value) (ho : o.elementScheme = true) :
    evaluate f d o ("element(" ++ body ++ ")") = .ok ((locating value).getD []) := by
  have hscheme : isFunctionName "element" = true := by decide
  have hat := at_of_rest ('(' :: (body.toList ++ [')'])) (some (.functionName "element"))
  have hopen : Lexer.expectFence _ .leftParen = .ok _ :=
    hat.expectToken (scan_punctuation (by decide) rfl) _
  obtain ⟨t, l₁, hs, hnext, hvalue⟩ := h _ [')']
    (at_of_rest (body.toList ++ [')']) (some (.fence .leftParen))) rfl (stops_rightParen [])
    (endsNumber_rightParen [])
  have hshort := (scan_shorter hs).2
  obtain ⟨⟨l₂, hpointer, hl₂⟩, -⟩ := hvalue ('(' :: (body.toList ++ [')'])).length
    (Nat.le_trans (Nat.le_of_lt hshort) (Nat.le_succ _))
  have hclose : l₂.expectFence .rightParen = .ok _ :=
    hl₂.expectToken (scan_punctuation (by decide) hl₂.rest_eq) _
  have hpart : elementPart f d ('(' :: (body.toList ++ [')'])).length
      ⟨'(' :: (body.toList ++ [')']), none, some (.functionName "element")⟩
        = .ok (value, ⟨[], none, some (.fence .rightParen)⟩) := by
    simp only [elementPart, hopen, expect_ok_iff.mpr hnext, hpointer, hclose, bind, Except.bind]
  refine evaluate_of_schemePart hscheme rfl (by decide) ?_
  have hother : "element" ≠ "xpointer" := by decide
  simp only [schemePart, Option.isSome_none, Bool.false_eq_true, if_false, if_neg hother, ho,
    and_self, if_true, hpart, bind, Except.bind]

end Points

/-! ## The addresses -/

theorem locating_nodeEntries (p : Option Node) :
    (locating (nodeEntries p)).getD [] = nodeEntries p := by
  cases p <;> rfl

/-- A name is an id that can be written in quotes. -/
theorem legible_reference {name : String} (h : IsTag name) :
    (Origin.reference '"' name).Legible := by
  refine ⟨.inl rfl, fun hmem => ?_, ?_, fun c hc =>
    not_isWhiteSpace_of_isTagChar (h.isTagChar c hc)⟩
  · exact absurd (h.isTagChar '"' hmem) (by decide)
  · rintro rfl
    obtain ⟨c, cs, hcs, -⟩ := head_of_isTag h
    cases hcs

/-- **Child sequences and paths by wildcards coincide.** Whatever the document and the options are,
the addresses `/1/2` and `/*[1]/*[2]` give the same node or both none, and so do `name/1/2` and
`id("name")/*[1]/*[2]`. Where the scheme is taken, `element(/1/2)` and `element(name/1/2)` give that
node too. -/
theorem evaluate_sequence (f : Forest) (d : Document) (o : Options) {ns : List Nat}
    (hne : ns ≠ []) (hns : ∀ n ∈ ns, 0 < n ∧ n < Binary64.exactBound) :
    (∃ p : Option Node, evaluate f d o (sequence ns) = .ok (nodeEntries p) ∧
      evaluate f d o (wildcards ns) = .ok (nodeEntries p) ∧
      (o.elementScheme = true →
        evaluate f d o ("element(" ++ sequence ns ++ ")") = .ok (nodeEntries p))) ∧
    (∀ name, IsTag name →
      ∃ p : Option Node, evaluate f d o (name ++ sequence ns) = .ok (nodeEntries p) ∧
        evaluate f d o ("id(\"" ++ name ++ "\")" ++ wildcards ns) = .ok (nodeEntries p) ∧
        (o.elementScheme = true →
          evaluate f d o ("element(" ++ (name ++ sequence ns) ++ ")") = .ok (nodeEntries p))) := by
  have hsteps : ∀ s ∈ ns.map anyStep, s.Legible := by
    intro s hs
    obtain ⟨n, hn, rfl⟩ := List.mem_map.mp hs
    exact legible_anyStep (hns n hn).1 (hns n hn).2
  obtain ⟨n, ns, rfl⟩ := List.exists_cons_of_ne_nil hne
  constructor
  · have hpoints : Points f d (sequence (n :: ns)).toList _ :=
      toList_sequence (n :: ns) ▸ points_sequence hns
    have hfinds : Finds f d (wildcards (n :: ns)).toList _ :=
      toList_wildcards (n :: ns) ▸ finds_path hsteps (List.cons_ne_nil _ _)
    refine ⟨_, hpoints.evaluate_plain o, hfinds.evaluate_plain, fun ho => ?_⟩
    rw [hpoints.evaluate_element ho, locating_nodeEntries]
  · intro name hname
    have hpoints := points_name (f := f) (d := d) hns hname
    rw [← toList_sequence, ← String.toList_append] at hpoints
    have htext : ("id(\"" ++ name ++ "\")" ++ wildcards (n :: ns)).toList
        = Route.chars ⟨.reference '"' name, (n :: ns).map anyStep⟩ := by
      have hopen : "id(\"".toList = "id".toList ++ ['(', '"'] := rfl
      have hclose : "\")".toList = ['"', ')'] := rfl
      rw [String.toList_append, String.toList_append, String.toList_append, toList_wildcards, hopen,
        hclose, Route.chars, Origin.chars, idArguments]
      simp only [List.append_assoc, List.cons_append, List.nil_append]
    have hfinds : Finds f d ("id(\"" ++ name ++ "\")" ++ wildcards (n :: ns)).toList _ :=
      htext ▸ Route.finds ⟨legible_reference hname, hsteps, fun _ => List.cons_ne_nil _ _⟩ f d
    refine ⟨_, hpoints.evaluate_plain o, hfinds.evaluate_plain, fun ho => ?_⟩
    rw [hpoints.evaluate_element ho, locating_nodeEntries]

/-- The document `<r><m><a/></m><b id="k"><c/></b></r>`, where `m` is ignored. -/
def numbered : Forest := ⟨#[
  { Record.bare .document with children := [⟨1⟩] },
  { Record.bare .element with
    name := some (.plain "r"), parent := some ⟨0⟩, children := [⟨2⟩, ⟨4⟩] },
  { Record.bare .element with
    name := some (.plain "m"), parent := some ⟨1⟩, children := [⟨3⟩],
    attributes := [⟨⟨none, Mark.ignore.attributeName, some Mark.uri⟩, Mark.set⟩] },
  { Record.bare .element with name := some (.plain "a"), parent := some ⟨2⟩ },
  { Record.bare .element with
    name := some (.plain "b"), parent := some ⟨1⟩, children := [⟨5⟩],
    attributes := [⟨⟨none, "id", none⟩, "k"⟩] },
  { Record.bare .element with name := some (.plain "c"), parent := some ⟨4⟩ }]⟩

/-- The way to the `c` by numbers, and one from the `b` that leads nowhere. -/
theorem evaluate_sequence_numbered :
    sequence [1, 2, 1] = "/1/2/1" ∧ wildcards [1, 2, 1] = "/*[1]/*[2]/*[1]" ∧
    evaluate numbered ⟨⟨0⟩, .xml⟩ .standard (sequence [1, 2, 1]) = .ok [.node ⟨5⟩] ∧
    evaluate numbered ⟨⟨0⟩, .xml⟩ .standard (wildcards [1, 2, 1]) = .ok [.node ⟨5⟩] ∧
    evaluate numbered ⟨⟨0⟩, .xml⟩ .standard ("element(" ++ sequence [1, 2, 1] ++ ")")
      = .ok [.node ⟨5⟩] ∧
    ∃ p : Option Node,
      evaluate numbered ⟨⟨0⟩, .xml⟩ .standard ("k" ++ sequence [1, 2, 1]) = .ok (nodeEntries p) ∧
      evaluate numbered ⟨⟨0⟩, .xml⟩ .standard ("id(\"" ++ "k" ++ "\")" ++ wildcards [1, 2, 1])
        = .ok (nodeEntries p) ∧
      evaluate numbered ⟨⟨0⟩, .xml⟩ .standard ("element(" ++ ("k" ++ sequence [1, 2, 1]) ++ ")")
        = .ok (nodeEntries p) := by
  obtain ⟨⟨p, hsequence, hwildcards, helement⟩, hnames⟩ :=
    evaluate_sequence numbered ⟨⟨0⟩, .xml⟩ .standard (show [1, 2, 1] ≠ [] by decide) (by decide)
  have hvalue : evaluate numbered ⟨⟨0⟩, .xml⟩ .standard (sequence [1, 2, 1]) = .ok [.node ⟨5⟩] := by
    decide +kernel
  have hp : nodeEntries p = [.node ⟨5⟩] := Except.ok.inj (hsequence.symm.trans hvalue)
  obtain ⟨q, hname, hid, hpart⟩ := hnames "k" (by decide)
  exact ⟨by decide, by decide, hvalue, hp ▸ hwildcards, hp ▸ helement rfl, q, hname,
    hid, hpart rfl⟩

end Address

end TreePointer
