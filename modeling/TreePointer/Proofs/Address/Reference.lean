import TreePointer.Proofs.Address.Check

/-!
# References by id

An element that has an id may be given by that id alone. An id is written down if the whole of it
finds the element again, but it is read as a list of words. A reference therefore finds its element
just if the id has no white space in it.

* `IsReference`: an address that refers to an element by its id, and is no path.
* `reference_finds_iff`: what such an address evaluates to, and when that is the element itself.
* `not_reference_finds_spaced`: an id of two words may find another element.
-/

namespace TreePointer

/-! ## Words -/

/-- What is between separators has no separator in it. -/
theorem not_mem_of_mem_splitOnP {p : Char → Bool} {cs w : List Char} (h : w ∈ cs.splitOnP p) :
    ∀ c ∈ w, p c = false := by
  induction cs generalizing w with
  | nil =>
    rw [List.splitOnP_nil, List.mem_singleton] at h
    subst h
    nofun
  | cons c cs ih =>
    rw [List.splitOnP_cons_eq_if_modifyHead] at h
    split at h
    · obtain rfl | h := List.mem_cons.mp h
      · nofun
      · exact ih h
    · next hc =>
      obtain ⟨first, others, hsplit⟩ := List.exists_cons_of_ne_nil (List.splitOnP_ne_nil p cs)
      rw [hsplit, List.modifyHead_cons] at h
      obtain rfl | h := List.mem_cons.mp h
      · intro c' hc'
        obtain rfl | hc' := List.mem_cons.mp hc'
        · exact Bool.eq_false_iff.mpr hc
        · exact ih (hsplit ▸ List.mem_cons_self) c' hc'
      · exact ih (hsplit ▸ List.mem_cons_of_mem first h)

/-- A word has no white space in it. -/
theorem Expression.not_isWhiteSpace_of_mem_words {cs w : List Char} (h : w ∈ words cs) :
    ∀ c ∈ w, Unicode.isWhiteSpace c = false :=
  not_mem_of_mem_splitOnP (List.mem_filter.mp h).1

/-- An element whose id is no single word is not found by any word. -/
theorem Expression.not_mem_byIds {f : Forest} {d : Document} {n : Node} {id : String} {c : Char}
    (hid : f.attribute? n none "id" = some id) (hc : c ∈ id.toList)
    (hwhite : Unicode.isWhiteSpace c = true) (ids : String) :
    Location.node n ∉ byIds f d ids := by
  intro hmem
  rw [byIds, List.mem_map] at hmem
  obtain ⟨m, hm, hmn⟩ := hmem
  obtain rfl : m = n := by cases hmn; rfl
  obtain ⟨w, hw, hfound⟩ := List.mem_filterMap.mp (List.mem_eraseDups.mp hm)
  have hattribute := (Document.elementById?_spec hfound).2.2
  rw [hid, Option.some.injEq] at hattribute
  rw [hattribute, String.toList_ofList] at hc
  have hblank := not_isWhiteSpace_of_mem_words hw c hc
  rw [hwhite] at hblank
  cases hblank

namespace Address

open Expression

variable {f : Forest} {d : Document} {o o' : Options} {e : Node} {address : String}

/-! ## References and paths -/

/-- The address refers to an element by its id: it is the function `id` on a literal. -/
def IsReference (address : String) : Prop :=
  ∃ q id, address.toList = "id".toList ++ idArguments q id

/-- What ends in a bracket is no reference. -/
theorem not_isReference_of_getLast? (h : address.toList.getLast? = some ']') :
    ¬ IsReference address := by
  rintro ⟨q, id, htext⟩
  have hend : address.toList.getLast? = some ')' := by
    rw [htext, idArguments]
    simp [List.getLast?_cons, List.getLast?_append]
  rw [hend] at h
  revert h
  decide

/-- Whatever a path starts from, it goes on by written steps. -/
theorem pathThrough_text {above : List Node} {n : Node} (below : List PathStep) {start : String}
    {texts : List String}
    (h : pathThrough f d o n (below.map PathStep.text) above = .ok (start, texts)) :
    ∃ steps : List PathStep, texts = steps.map PathStep.text := by
  induction above generalizing n below with
  | nil =>
    cases h
    exact ⟨below, rfl⟩
  | cons p above ih =>
    obtain ⟨text, hstep, hrest⟩ := pathThrough_cons h
    obtain ⟨tag, i, -, -, rfl⟩ := pathStep_ok_iff.mp hstep
    rcases hrest with ⟨-, -, rfl⟩ | ⟨-, hrest⟩
    · exact ⟨⟨tag, i⟩ :: below, rfl⟩
    · exact ih (⟨tag, i⟩ :: below) hrest

theorem getLast?_pathChars {steps : List PathStep} (hne : steps ≠ []) :
    (pathChars steps).getLast? = some ']' := by
  obtain ⟨init, s, rfl⟩ := (List.eq_nil_or_concat steps).resolve_left hne
  rw [List.concat_eq_append, pathChars, List.flatMap_append, List.flatMap_singleton,
    s.toList_text]
  simp [List.getLast?_append, List.getLast?_cons]

/-- An address that is a reference was made from the id of the element. -/
theorem idReference?_of_isReference (h : elementPath f d o e = .ok address)
    (hr : IsReference address) : idReference? f d e = some address := by
  by_cases hkind : f.kind e = .document
  · rw [elementPath, if_pos hkind] at h
    obtain ⟨root, -, h⟩ := exists_of_bind h
    obtain ⟨tag, -, h⟩ := exists_of_bind h
    cases h
    refine absurd hr (not_isReference_of_getLast? ?_)
    have hclose : "[1]".toList = ['[', '1', ']'] := rfl
    rw [String.toList_append, List.getLast?_append, hclose]
    rfl
  · rcases elementPath_ok hkind h with ⟨-, href⟩ | ⟨-, start, texts, hthrough, hne, rfl⟩
    · exact href
    · obtain ⟨steps, rfl⟩ := pathThrough_text [] hthrough
      have hsteps : steps ≠ [] := fun e => hne (e ▸ rfl)
      refine absurd hr (not_isReference_of_getLast? ?_)
      rw [toList_path hsteps, List.getLast?_append, getLast?_pathChars hsteps]
      rfl

/-! ## What a reference finds -/

/-- **A reference finds its element just if the id is a single word.** In any case it finds the
elements whose ids are the words of this one. -/
theorem reference_finds_iff (h : elementPath f d o e = .ok address) (hr : IsReference address) :
    ∃ id, f.attribute? e none "id" = some id ∧
      evaluate f d o' address = .ok (byIds f d id) ∧
      (evaluate f d o' address = .ok [.node e] ↔
        ∀ c ∈ id.toList, Unicode.isWhiteSpace c = false) := by
  obtain ⟨id, -, hattribute, hfound, hquote⟩ :=
    idReference?_spec (idReference?_of_isReference h hr)
  obtain ⟨q, hq, hmem, htext⟩ := quoteId?_spec hquote
  have hfinds : Finds f d address.toList (byIds f d id) := by
    rw [htext]
    exact finds_call (fun ctx => calls_byIds hq hmem) rfl (by decide)
  refine ⟨id, hattribute, hfinds.evaluate_plain, ?_⟩
  rw [hfinds.evaluate_plain, Except.ok.injEq]
  constructor
  · intro hbyIds c hc
    refine Bool.eq_false_iff.mpr fun hwhite => not_mem_byIds (d := d) hattribute hc hwhite id ?_
    rw [hbyIds]
    exact List.mem_singleton_self _
  · intro hwhite
    have hne : id ≠ "" := by
      rintro rfl
      rw [Document.elementById?, if_pos rfl] at hfound
      cases hfound
    rw [byIds_of_word hne hwhite, hfound]
    rfl

/-! ## An id of two words -/

/-- The document `<r><x id="a b"/><y id="a"/></r>`. -/
def twofold : Forest := ⟨#[
  { Record.bare .document with children := [⟨1⟩] },
  { Record.bare .element with
    name := some (.plain "r"), parent := some ⟨0⟩, children := [⟨2⟩, ⟨3⟩] },
  { Record.bare .element with
    name := some (.plain "x"), attributes := [⟨.plain "id", "a b"⟩], parent := some ⟨1⟩ },
  { Record.bare .element with
    name := some (.plain "y"), attributes := [⟨.plain "id", "a"⟩], parent := some ⟨1⟩ }]⟩

theorem elementPath_twofold :
    elementPath twofold ⟨⟨0⟩, .xml⟩ .standard ⟨2⟩ = .ok "id(\"a b\")" := by
  have hmade : (elementPath twofold ⟨⟨0⟩, .xml⟩ .standard ⟨2⟩).toOption
      = some "id(\"a b\")" := by decide
  cases h : elementPath twofold ⟨⟨0⟩, .xml⟩ .standard ⟨2⟩ with
  | error x =>
    rw [h] at hmade
    cases hmade
  | ok address =>
    rw [h, Except.toOption, Option.some.injEq] at hmade
    rw [hmade]

theorem isReference_twofold : IsReference "id(\"a b\")" := ⟨'"', "a b", by decide⟩

/-- The element `x` is referred to by both words. -/
theorem reference_finds_twofold :
    ∃ id, twofold.attribute? ⟨2⟩ none "id" = some id ∧
      evaluate twofold ⟨⟨0⟩, .xml⟩ .standard "id(\"a b\")" = .ok (byIds twofold ⟨⟨0⟩, .xml⟩ id) ∧
      (evaluate twofold ⟨⟨0⟩, .xml⟩ .standard "id(\"a b\")" = .ok [.node ⟨2⟩] ↔
        ∀ c ∈ id.toList, Unicode.isWhiteSpace c = false) :=
  reference_finds_iff elementPath_twofold isReference_twofold

/-- The address of `x` finds `y`: whether an id finds its element again is asked with the whole id,
which is then read as two. -/
theorem not_reference_finds_spaced :
    ¬ ∀ (f : Forest) (d : Document) (o o' : Options) (e : Node) (address : String),
      d.Rooted f → f.Within d.root e → f.isElement e = true → f.isIgnored e = false →
      o.preferIds = true → elementPath f d o e = .ok address → IsReference address →
      evaluate f d o' address = .ok [.node e] := by
  intro h
  have hfound := h twofold ⟨⟨0⟩, .xml⟩ .standard .standard ⟨2⟩ _ (by decide)
    (by decide) (by decide) (by decide) rfl elementPath_twofold isReference_twofold
  have hother : (evaluate twofold ⟨⟨0⟩, .xml⟩ .standard "id(\"a b\")").toOption
      = some [.node ⟨3⟩] := by decide
  rw [hfound, Except.toOption, Option.some.injEq] at hother
  revert hother
  decide

end Address

end TreePointer
