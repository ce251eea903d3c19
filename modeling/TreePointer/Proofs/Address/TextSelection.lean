import TreePointer.Proofs.Address.Path
import TreePointer.Proofs.Text.Counting
import TreePointer.Proofs.Tree.Walk

/-!
# Addresses of stretches of text

A stretch of text runs between two boundaries in texts whose parents are unmarked elements. Its
address is made from counts in those elements, and read as the ranges that these counts stand for.

* `Document.InText`: a boundary in such a text.
* `create_texts`: what is made of a selection of such a stretch.
* `textStretch_eq`, `startPoint_eq`, `endPoint_eq`: numbers stand for the boundaries in it.
* `stringRange_denotes`, `startPoint_denotes`, `endPoint_denotes`, `textStretch_denotes`: the pieces
  and what they are read as.
* `Denotes.resolve`, `Denotes.resolve_rangeTo`: from the pieces to the range of an address.
-/

namespace TreePointer

/-- A boundary in a text of the document whose parent is an unmarked element. -/
structure Document.InText (f : Forest) (d : Document) (b : Boundary) (p : Node) : Prop where
  within : f.Within d.root b.container
  isText : f.isText b.container = true
  parent : f.parent b.container = some p
  isElement : f.isElement p = true
  unmarked : f.isMarked p = false
  inBounds : b.InBounds f

/-- The selection has these ends, as a range or as anchor and focus in either order. -/
def Selection.Spans (s : Selection) (a b : Boundary) : Prop :=
  s = .range ⟨a, b⟩ ∨ s = .anchorFocus a b ∨ s = .anchorFocus b a

namespace Document.InText

variable {f : Forest} {d : Document} {b : Boundary} {p : Node} (h : d.InText f b p)

include h

theorem isShown : f.isShown b.container = true := by
  rw [Forest.isShown, h.isText, h.parent, Option.any_some, h.unmarked]
  rfl

theorem length_eq : f.length b.container = (f.characters b.container).length :=
  Forest.length_of_isShown h.isShown

theorem offset_le : b.offset ≤ (f.characters b.container).length :=
  h.length_eq ▸ h.inBounds

theorem not_isIgnored : f.isIgnored p = false := by
  have hu := h.unmarked
  rw [Forest.isMarked, Bool.or_eq_false_iff] at hu
  exact hu.1

theorem not_isElement : f.isElement b.container = false := by
  rw [Forest.isElement, Forest.kind_of_isText h.isText]
  rfl

variable (wf : f.WellFormed)

include wf

theorem mem_ancestors : p ∈ f.ancestors b.container :=
  wf.mem_ancestors_iff.mpr ⟨p, h.parent, .refl f p⟩

theorem elementAbove : Address.elementAbove f d b.container = .ok p := by
  have hp : f.effectiveParent? b.container = some p := by
    rw [wf.effectiveParent?_of_parent h.parent, h.not_isIgnored]
    rfl
  rw [Address.elementAbove, hp]
  simp only [h.isElement, if_true]

end Document.InText

theorem Document.InText.within_parent {f : Forest} {d : Document} {b : Boundary} {p : Node}
    (h : d.InText f b p) (hd : d.Rooted f) : f.Within d.root p := by
  refine hd.wellFormed.within_parent h.within ?_ h.parent
  intro e
  have hk := hd.kind_root
  rw [← e, Forest.kind_of_isText h.isText] at hk
  cases hk

namespace Address

variable {f : Forest} {d : Document} {o : Options} {a b : Boundary} {p q : Node}

theorem ends_of_spans (wf : f.WellFormed) {r : Node} (ha : f.Within r a.container)
    (hb : f.Within r b.container) (hai : a.InBounds f) (hbi : b.InBounds f)
    (hab : a.compare f b = .ok .lt) {s : Selection} (hs : s.Spans a b) :
    s.ends f = .ok (a, b) := by
  rcases hs with rfl | rfl | rfl
  · rfl
  · simp only [Selection.ends, Boundary.check, if_pos hai, if_pos hbi, hab, bind, Except.bind, pure,
      Except.pure]
  · have hba : b.compare f a = .ok .gt := wf.compare_swap ha hb hab
    simp only [Selection.ends, Boundary.check, if_pos hai, if_pos hbi, hba, bind, Except.bind, pure,
      Except.pure]

theorem leaveMarked_of_text (h : d.InText f b p) (beside : Option Node) :
    leaveMarked f b beside = .ok b := by
  rw [leaveMarked, if_pos (by rw [h.not_isElement]; exact Bool.false_ne_true)]

/-- The address of a selection that is no point is made between its ends. -/
theorem create_of_ne (ha : f.Within d.root a.container) (hb : f.Within d.root b.container)
    (hne : a ≠ b) {s : Selection} (hs : s.ends f = .ok (a, b)) :
    create f d o s = (between f d o a b).map (wrapped o) := by
  simp only [create, hs, bind, Except.bind]
  rw [if_pos ⟨contains_iff.mpr ha, contains_iff.mpr hb⟩, if_neg hne]
  cases between f d o a b <;> rfl

theorem create_between (ha : f.Within d.root a.container) (hb : f.Within d.root b.container)
    (hab : a.compare f b = .ok .lt) {s : Selection} (hs : s.ends f = .ok (a, b)) :
    create f d o s = (between f d o a b).map (wrapped o) := by
  refine create_of_ne ha hb ?_ hs
  rintro rfl
  rw [Boundary.compare_self] at hab
  cases hab

/-- The address of a point is that of the whole document. -/
theorem create_of_point (ha : f.Within d.root a.container) {s : Selection}
    (hs : s.ends f = .ok (a, a)) :
    create f d o s = (wholeDocument f d).map (wrapped o) := by
  simp only [create, hs, bind, Except.bind]
  rw [if_pos ⟨contains_iff.mpr ha, contains_iff.mpr ha⟩, if_pos trivial]
  cases wholeDocument f d <;> rfl

/-- **The address of a stretch of text** is the expression for the stretch between two texts. -/
theorem create_texts (hd : d.Rooted f) (ha : d.InText f a p) (hb : d.InText f b q)
    (hab : a.compare f b = .ok .lt) {s : Selection} (hs : s.Spans a b) :
    create f d o s = (betweenTexts f d o a b).map (wrapped o) := by
  have hends := ends_of_spans hd.wellFormed ha.within hb.within ha.inBounds hb.inBounds hab hs
  have hstart : descendStart f a = .ok a := by rw [descendStart, if_pos ha.isText]
  have hstop : descendEnd f b = .ok b := by rw [descendEnd, if_pos hb.isText]
  have hbetween : between f d o a b = betweenTexts f d o a b := by
    simp only [between, leaveMarkedEnd, leaveMarkedStart, leaveMarked_of_text ha,
      leaveMarked_of_text hb, hstart, hstop, ha.isText, hb.isText, bind, Except.bind]
  rw [create_between ha.within hb.within hab hends, hbetween]

/-! ## Numbers of characters -/

/-- The number of counted characters of an element before a boundary. -/
def countIn (f : Forest) (p : Node) (b : Boundary) : Nat :=
  Counter.countTo (f.visibleChars p) (f.textOffset p b)

/-- The start of a stretch with so many counted characters of an element before it. -/
def startNumber (f : Forest) (d : Document) (o : Options) (p : Node) (n : Nat) :
    Except Fault String := do
  let point ← stringRange f d o p (n + 1) 0
  .ok ("start-point(" ++ point ++ ")")

/-- The end of a stretch with so many counted characters of an element before it. -/
def stopNumber (f : Forest) (d : Document) (o : Options) (q : Node) (m : Nat) :
    Except Fault String := do
  let point ← if m = 0 then stringRange f d o q 1 0 else stringRange f d o q m 1
  .ok ("end-point(" ++ point ++ ")")

section Numbers

variable (hd : d.Rooted f)

include hd

theorem countBefore_inText (h : d.InText f b p) :
    f.countBefore p b.container b.offset = .ok (countIn f p b) :=
  Forest.countBefore_eq hd.wellFormed
    (hd.wellFormed.has_of_within hd.has_root (h.within_parent hd)) (h.mem_ancestors hd.wellFormed)
    h.isText b.offset

theorem textStretch_eq (ha : d.InText f a p) (hb : d.InText f b p) :
    textStretch f d o a b = stringRange f d o p (countIn f p a + 1)
      (countIn f p b - countIn f p a) := by
  simp only [textStretch, ha.elementAbove hd.wellFormed, countBefore_inText hd ha,
    countBefore_inText hd hb, bind, Except.bind]

theorem startPoint_eq (ha : d.InText f a p) :
    startPoint f d o a = startNumber f d o p (countIn f p a) := by
  simp only [startPoint, startNumber, ha.elementAbove hd.wellFormed, countBefore_inText hd ha,
    bind, Except.bind]

theorem endPoint_eq (hb : d.InText f b q) :
    endPoint f d o b = stopNumber f d o q (countIn f q b) := by
  simp only [endPoint, stopNumber, hb.elementAbove hd.wellFormed, countBefore_inText hd hb, bind,
    Except.bind]

end Numbers

/-! ## The pieces -/

open Expression

/-- The text is a call of a function that gives a range, from wherever it is read. -/
def Denotes (f : Forest) (d : Document) (text name : String) (r : Range) : Prop :=
  ∃ chars, text.toList = name.toList ++ '(' :: chars ∧
    ∀ ctx, Calls f d name ('(' :: chars) ctx [.range r]

/-- One end of what a call stands for. -/
theorem Denotes.point {name text : String} {r : Range} (h : Denotes f d text name r)
    (toStart : Bool) (hname : Lexer.isFunctionName name = true)
    (hrange : (name != "range-to") = true) :
    Denotes f d (pointName toStart ++ "(" ++ text ++ ")") (pointName toStart)
      (r.collapse toStart) := by
  obtain ⟨chars, htext, hcalls⟩ := h
  have hpoint : [Location.range r].mapM (pointOf f toStart) = .ok [.range (r.collapse toStart)] :=
    rfl
  refine ⟨text.toList ++ [')'], toList_point toStart text, fun ctx =>
    calls_point (t := .functionName name) ?_ hpoint⟩
  rw [htext]
  exact (hcalls ctx).reads hname (by simpa using hrange)

section Pieces

variable (hd : d.Rooted f) (hsole : d.IsSole f) (hlex : d.Lexable f) (hstar : d.NoWildcard f)

include hd hsole hlex hstar

/-- A start and a length in the text of an element are read as the range they stand for. -/
theorem stringRange_denotes (hp : f.Within d.root p) (helement : f.isElement p = true)
    (hi : f.isIgnored p = false) {s l : Nat} (hs : s < Binary64.exactBound)
    (hl : l < Binary64.exactBound) {r : Range} (hr : f.stringRange p s l = .ok (some r)) :
    ∃ text, stringRange f d o p s l = .ok text ∧ Denotes f d text "string-range" r := by
  obtain ⟨path, hpath, hfinds⟩ := elementPath_finds (o := o) hd hsole hlex hstar hp helement hi
  obtain ⟨t, hreads⟩ := hfinds.reads
  have hranges : stringRanges f s l [.node p] = .ok [.range r] := by
    simp [stringRanges, hr, bind, Except.bind]
  refine ⟨"string-range(" ++ path ++ ", \"\", " ++ toString s ++ ", " ++ toString l ++ ")", ?_,
    path.toList ++ (lengthChars s l ++ [')']), toList_stringRange path s l, fun ctx =>
      calls_stringRange (hreads ctx) hs hl hranges⟩
  simp only [stringRange, hpath, bind, Except.bind]

/-- The start of a range in a text is one end of the range that its number stands for. -/
theorem startPoint_denotes (h : d.InText f a p) (hn : countIn f p a + 1 < Binary64.exactBound)
    {r : Range} (hr : f.stringRange p (countIn f p a + 1) (0 : Nat) = .ok (some r)) :
    ∃ text, startPoint f d o a = .ok text ∧ Denotes f d text "start-point" (r.collapse true) := by
  obtain ⟨text, htext, hdenotes⟩ := stringRange_denotes (o := o) hd hsole hlex hstar
    (h.within_parent hd) h.isElement h.not_isIgnored hn (by decide) hr
  refine ⟨"start-point(" ++ text ++ ")", ?_, hdenotes.point true rfl rfl⟩
  simp only [startPoint_eq hd h, startNumber, htext, bind, Except.bind]

/-- The end of a range in a text is one end of the range of the last counted character. -/
theorem endPoint_denotes (h : d.InText f b p) (hn : countIn f p b < Binary64.exactBound) {r : Range}
    (hr : (if countIn f p b = 0 then f.stringRange p (1 : Nat) (0 : Nat)
      else f.stringRange p (countIn f p b) (1 : Nat)) = .ok (some r)) :
    ∃ text, endPoint f d o b = .ok text ∧ Denotes f d text "end-point" (r.collapse false) := by
  have hstring := fun {s l} => stringRange_denotes (o := o) (s := s) (l := l) (r := r) hd hsole hlex
    hstar (h.within_parent hd) h.isElement h.not_isIgnored
  by_cases hzero : countIn f p b = 0
  · rw [if_pos hzero] at hr
    obtain ⟨text, htext, hdenotes⟩ := hstring (by decide) (by decide) hr
    refine ⟨"end-point(" ++ text ++ ")", ?_, hdenotes.point false rfl rfl⟩
    simp only [endPoint_eq hd h, stopNumber, if_pos hzero, htext, bind, Except.bind]
  · rw [if_neg hzero] at hr
    obtain ⟨text, htext, hdenotes⟩ := hstring hn (by decide) hr
    refine ⟨"end-point(" ++ text ++ ")", ?_, hdenotes.point false rfl rfl⟩
    simp only [endPoint_eq hd h, stopNumber, if_neg hzero, htext, bind, Except.bind]

/-- A stretch of the text of one element is the range that its start and length stand for. -/
theorem textStretch_denotes (ha : d.InText f a p) (hb : d.InText f b p)
    (hn : countIn f p a + 1 < Binary64.exactBound) (hm : countIn f p b < Binary64.exactBound)
    {r : Range}
    (hr : f.stringRange p (countIn f p a + 1) ((countIn f p b - countIn f p a : Nat))
      = .ok (some r)) :
    ∃ text, textStretch f d o a b = .ok text ∧ Denotes f d text "string-range" r := by
  obtain ⟨text, htext, hdenotes⟩ := stringRange_denotes (o := o) hd hsole hlex hstar
    (ha.within_parent hd) ha.isElement ha.not_isIgnored hn (by omega) hr
  exact ⟨text, (textStretch_eq hd ha hb).trans htext, hdenotes⟩

end Pieces

/-! ## Resolving -/

variable {o' : Options}

/-- A call that stands for a range is an expression that finds it. -/
theorem Denotes.finds {name body : String} {r : Range} (h : Denotes f d body name r)
    (hfunction : Lexer.isFunctionName name = true) (hname : name ∈ expressionFunctions) :
    Finds f d body.toList [.range r] := by
  obtain ⟨chars, htext, hcalls⟩ := h
  rw [htext]
  exact finds_call hcalls hfunction hname

/-- A call that stands for a range is an address of it. -/
theorem Denotes.resolve {name body : String} {r : Range} (h : Denotes f d body name r)
    (hfunction : Lexer.isFunctionName name = true) (hname : name ∈ expressionFunctions) :
    Address.resolve f d o' (wrapped o body) = .ok r :=
  (h.finds hfunction hname).resolve rfl

/-- A place, and `range-to` another one that is read from there, are an address of the range between
them. -/
theorem Finds.resolve_rangeTo {first last : String} {t : Token} {entry entry' : Location}
    {r s found : Range} (hfirst : Finds f d first.toList [entry]) (hr : entry.toRange f = .ok r)
    (hlast : Reads f d t last.toList [entry] [entry']) (hs : entry'.toRange f = .ok s)
    (hmake : Range.make f r.start s.stop = .ok found) :
    Address.resolve f d o' (wrapped o (first ++ "/range-to(" ++ last ++ ")")) = .ok found := by
  have hfinds := hfirst.between hr hlast hs hmake
  rw [← toList_rangeTo] at hfinds
  exact hfinds.resolve rfl

/-- A call and `range-to` another one is an address of the range between them. -/
theorem Denotes.resolve_rangeTo {first last name name' : String} {r s found : Range}
    (hfirst : Denotes f d first name r) (hlast : Denotes f d last name' s)
    (hfunction : Lexer.isFunctionName name = true) (hfunction' : Lexer.isFunctionName name' = true)
    (hname : name ∈ expressionFunctions) (hrange' : name' ≠ "range-to")
    (hmake : Range.make f r.start s.stop = .ok found) :
    Address.resolve f d o' (wrapped o (first ++ "/range-to(" ++ last ++ ")")) = .ok found := by
  obtain ⟨chars', htext', hcalls'⟩ := hlast
  have hreads := (hcalls' [.range r]).reads hfunction' hrange'
  rw [← htext'] at hreads
  exact (hfirst.finds hfunction hname).resolve_rangeTo rfl hreads rfl hmake

end Address

end TreePointer
