import TreePointer.Proofs.Address.Elsewhere
import TreePointer.Proofs.Address.Parts

/-!
# Created addresses as fallbacks

Addresses with the scheme can be put one behind the other, so that the second one counts where the
first one locates nothing. The second one is then read token by token, as if it stood alone. But if
the first one locates something, the second one is passed over as text in which parentheses have to
balance, and an id in quotes may hold one that does not.

* `Phrase.balanced`: an address is balanced if the ids in it are.
* `StartsScheme.evaluate_kept`: the value of a first address is not changed by a second one.
* `resolve_chained`: what two addresses are resolved to, one behind the other.
* `not_resolve_chained`: an id that gets in the way.
-/

namespace TreePointer

open Lexer Expression

/-! ## Balanced addresses -/

/-- The ids in the document could stand in the data of a scheme part. -/
def Document.BalancedIds (f : Forest) (d : Document) : Prop :=
  ∀ n, f.Within d.root n → f.isElement n = true → ∀ id, f.attribute? n none "id" = some id →
    SchemeData.Balanced id.toList

theorem Document.Rooted.balancedIds_of_check {f : Forest} {d : Document} (hd : d.Rooted f)
    (h : ∀ n ∈ f.preorder d.root,
      (f.attribute? n none "id").all fun id => decide (SchemeData.Balanced id.toList)) :
    d.BalancedIds f := fun n hn _ id hid =>
  of_decide_eq_true ((Option.all_eq_true _ _).mp (hd.forall_within h n hn) id hid)

namespace SchemeData

theorem Balanced.call {name args : List Char}
    (hname : name.all (fun c => decide (¬ IsSpecial c)) = true) (h : Balanced args) :
    Balanced (name ++ '(' :: (args ++ [')'])) :=
  .append (.of_plain fun c hc => of_decide_eq_true (List.all_eq_true.mp hname c hc)) h.parens

theorem not_isSpecial_of_mem_toDigits {n : Nat} {c : Char} (h : c ∈ Nat.toDigits 10 n) :
    ¬ IsSpecial c := by
  have hdigit := Nat.isDigit_of_mem_toDigits (by decide) (by decide) h
  rintro (rfl | rfl | rfl) <;> cases hdigit

theorem not_isSpecial_of_isTagChar {c : Char} (h : isTagChar c = true) : ¬ IsSpecial c := by
  have hspecial : isTagChar '(' = false ∧ isTagChar ')' = false ∧ isTagChar '^' = false := by
    decide
  rintro (rfl | rfl | rfl)
  · rw [hspecial.1] at h
    cases h
  · rw [hspecial.2.1] at h
    cases h
  · rw [hspecial.2.2] at h
    cases h

end SchemeData

open SchemeData

/-- The steps of a path have no parentheses. -/
theorem Expression.balanced_pathChars {steps : List PathStep} (h : ∀ s ∈ steps, s.Legible) :
    Balanced (pathChars steps) := by
  refine .of_plain fun c hc => ?_
  obtain ⟨s, hs, hc⟩ := List.mem_flatMap.mp hc
  rw [s.toList_text] at hc
  have htag : ∀ c ∈ s.tag.toList, ¬ IsSpecial c := fun c hc =>
    not_isSpecial_of_isTagChar ((h s hs).isTag.isTagChar c hc)
  have hnumber : ∀ c ∈ Nat.toDigits 10 s.number, ¬ IsSpecial c := fun c hc =>
    not_isSpecial_of_mem_toDigits hc
  simp only [List.mem_cons, List.mem_append, List.not_mem_nil, or_false] at hc
  rcases hc with rfl | hc | rfl | hc | rfl
  · decide
  · exact htag c hc
  · decide
  · exact hnumber c hc
  · decide

/-- So do the arguments of `string-range` after the location. -/
theorem Expression.balanced_lengthChars (start length : Nat) :
    Balanced (lengthChars start length) := by
  refine .of_plain fun c hc => ?_
  simp only [lengthChars, List.mem_cons, List.mem_append] at hc
  rcases hc with rfl | rfl | rfl | rfl | rfl | rfl | hc | rfl | rfl | hc
  all_goals first | decide | exact not_isSpecial_of_mem_toDigits hc

section Phrases

variable {f : Forest} {d : Document} (hd : d.Rooted f) (hids : d.BalancedIds f)

include hd hids

theorem Route.balanced {r : Route} (h : r.Legible) (hstart : r.Starts f d) : Balanced r.chars := by
  obtain ⟨origin, steps⟩ := r
  refine .append ?_ (balanced_pathChars h.steps)
  cases origin with
  | root => exact .nil
  | reference quote id =>
    obtain ⟨n, hn⟩ := hstart
    have hid : Balanced id.toList :=
      have ⟨hw, helement⟩ := hd.elementById_spec hn
      hids n hw helement id (Document.elementById?_spec hn).2.2
    have hquote : ¬ IsSpecial quote := by
      rcases h.origin.1 with rfl | rfl <;> decide
    have hcall : Balanced ("id".toList ++ '(' :: (quote :: (id.toList ++ [quote]) ++ [')'])) :=
      .call (by decide) (.plain hquote (hid.append (.plain hquote .nil)))
    simpa [Origin.chars, idArguments] using hcall

/-- **An address is balanced** if the ids of the document are. -/
theorem Phrase.balanced {p : Phrase} (h : p.Legible) (hstart : p.Starts f d) :
    Balanced p.chars := by
  induction p with
  | element r => exact Route.balanced hd hids h hstart
  | stretch r start length =>
    have hargs := (Route.balanced hd hids h.1 hstart).append (balanced_lengthChars start length)
    have hcall : Balanced ("string-range".toList
        ++ '(' :: (r.chars ++ lengthChars start length ++ [')'])) :=
      .call (by decide) hargs
    rwa [List.append_assoc] at hcall
  | point toStart p ih =>
    refine Balanced.call ?_ (ih h hstart)
    cases toStart <;> decide
  | between first last ih ih' =>
    exact (ih h.1 hstart.1).append
      (.plain (by decide) (.call (by decide) (ih' h.2 hstart.2)))

end Phrases

namespace Address

variable {f : Forest} {d : Document} {o : Options}

/-! ## What is passed over -/

/-- Where something has been found, it is kept, unless a part cannot be passed over. -/
theorem schemeParts_kept (ctx : Context) (b : Nat) (l : Lexer) :
    Gives Fault.OfAddress (fun p => p.1 = some ctx) (schemeParts f d o b (some ctx) l) := by
  induction b generalizing l with
  | zero => exact .ok rfl
  | succ b ih =>
    refine (Gives.of_failsIn l.next_fails).bind fun ⟨seen, l₁⟩ _ => ?_
    rcases seen with _ | t
    · exact .ok rfl
    have hpart : Gives Fault.OfAddress (fun p => p.1 = some ctx)
        (schemePart f d o b t (some ctx) l₁) := by
      cases t with
      | functionName scheme =>
        rw [schemePart_some]
        exact (Gives.of_failsIn (skipPart_fails l₁)).bind fun m _ => .ok rfl
      | _ => exact .error (.malformed _ _)
    refine hpart.bind fun ⟨found, l₂⟩ hfound => ?_
    obtain rfl : found = some ctx := hfound
    exact ih l₂

/-- **A value** of an address that is a list of parts is not changed by what follows. -/
theorem StartsScheme.evaluate_kept {first : String} {ctx : Context} (h : StartsScheme first)
    (hctx : evaluate f d o first = .ok ctx) (hne : ctx ≠ []) (second : String) :
    Gives Fault.OfAddress (· = ctx) (evaluate f d o (first ++ second)) := by
  obtain ⟨m, -, -, heq⟩ := h.evaluate_append hctx second
  rw [heq, if_neg hne]
  refine (schemeParts_kept ctx _ m).bind fun ⟨found, l⟩ hfound => ?_
  obtain rfl : found = some ctx := hfound
  exact (Gives.of_failsIn (expectEnd_fails l)).bind fun _ _ => .ok rfl

/-- Balanced text in the scheme is a part. -/
def Part.xpointer (body : String) (h : SchemeData.Balanced body.toList) : Part :=
  ⟨"xpointer", body, by decide, by decide, h⟩

theorem Part.joined_xpointer {body : String} (h : SchemeData.Balanced body.toList) :
    joined [xpointer body h] = "xpointer(" ++ body ++ ")" := by
  have hopen : "xpointer(" = "xpointer" ++ "(" := rfl
  rw [hopen, joined, List.map_singleton, String.join_cons, String.join_nil, String.append_empty]
  rfl

theorem startsScheme_xpointer (body : String) : StartsScheme ("xpointer(" ++ body ++ ")") :=
  ⟨"xpointer", _, scan_xpointer body, by decide⟩

/-! ## What is resolved -/

theorem resolve_of_nil {text : String} (h : evaluate f d o text = .ok []) :
    resolve f d o text = .error (.unresolved (.noMatch text)) := by
  simp only [resolve, h, bind, Except.bind]

theorem resolve_of_singleton {text : String} {x : Location} {r : Range}
    (h : evaluate f d o text = .ok [x]) (hr : x.toRange f = .ok r) :
    resolve f d o text = .ok r := by
  simp only [resolve, h, bind, Except.bind, isPlace_of_toRange hr, if_true, hr]

/-- **A place** of an address that is a list of parts is not changed by what follows. -/
theorem StartsScheme.resolve_kept {first : String} {x : Location} {r : Range}
    (h : StartsScheme first) (hvalue : evaluate f d o first = .ok [x]) (hr : x.toRange f = .ok r)
    (second : String) : Gives Fault.OfAddress (· = r) (resolve f d o (first ++ second)) := by
  refine (h.evaluate_kept hvalue (List.cons_ne_nil _ _) second).bind fun ctx hctx => ?_
  subst hctx
  simp only [isPlace_of_toRange hr, if_true, hr]
  exact .ok rfl

/-- A created address with the scheme has one place as its value, or none, and is balanced if the
ids are. -/
theorem create_evaluates (hd : d.Rooted f) (hlex : d.Lexable f)
    (hplaces : ∀ n, f.Within d.root n → f.placeCount n < Binary64.exactBound)
    (hscheme : o.wrapScheme = true) {s : Selection} {address : String}
    (h : create f d o s = .ok address) :
    ∃ body, address = "xpointer(" ++ body ++ ")" ∧
      (d.BalancedIds f → SchemeData.Balanced body.toList) ∧
      ∀ {g : Forest} {e : Document}, e.Rooted g → ∀ o', ∃ found : Option Location,
        (∀ x ∈ found, ∃ r, x.toRange g = .ok r) ∧ evaluate g e o' address = .ok found.toList := by
  have hphrase := create_phraseOf (o := o) (s := s) hd hlex hplaces
  rw [h] at hphrase
  rcases hphrase with ⟨body, ⟨p, hp, hstart, hbody⟩, rfl⟩ | -
  refine ⟨body, if_pos hscheme, fun hids => hbody ▸ p.balanced hd hids hp hstart, fun he o' => ?_⟩
  obtain ⟨found, hranges, hvalue⟩ := Phrase.Locates.evaluates (hbody ▸ Phrase.locates he hp)
  exact ⟨found, hranges, hvalue o o'⟩

/-- **Two created addresses**, one behind the other, are resolved to what the first one is resolved
to, and if that locates nothing, to what the second one is resolved to. Only if the first one
locates something can the second one be at fault, and it is not if the ids in its document are
balanced. -/
theorem resolve_chained {f f' g : Forest} {d d' e : Document}
    (hd : d.Rooted f) (hlex : d.Lexable f)
    (hplaces : ∀ n, f.Within d.root n → f.placeCount n < Binary64.exactBound)
    (hd' : d'.Rooted f') (hlex' : d'.Lexable f')
    (hplaces' : ∀ n, f'.Within d'.root n → f'.placeCount n < Binary64.exactBound)
    {o o' : Options} (hscheme : o.wrapScheme = true) (hscheme' : o'.wrapScheme = true)
    {s s' : Selection} {first second : String} (hfirst : create f d o s = .ok first)
    (hsecond : create f' d' o' s' = .ok second) (he : e.Rooted g) (options : Options) :
    (∀ r, resolve g e options first = .ok r →
      Gives Fault.OfAddress (· = r) (resolve g e options (first ++ second)) ∧
        (d'.BalancedIds f' → resolve g e options (first ++ second) = .ok r)) ∧
    (∀ fault r, resolve g e options first = .error fault → resolve g e options second = .ok r →
      resolve g e options (first ++ second) = .ok r) ∧
    (∀ fault fault', resolve g e options first = .error fault →
      resolve g e options second = .error fault' → resolve g e options (first ++ second)
        = .error (.unresolved (.noMatch (first ++ second)))) := by
  obtain ⟨body, hbody, -, hvalue⟩ := create_evaluates hd hlex hplaces hscheme hfirst
  obtain ⟨body', hbody', hbalanced, hvalue'⟩ :=
    create_evaluates hd' hlex' hplaces' hscheme' hsecond
  have hstart : StartsScheme first := hbody ▸ startsScheme_xpointer body
  have hstart' : StartsScheme second := hbody' ▸ startsScheme_xpointer body'
  obtain ⟨found, hranges, hvalue⟩ := hvalue he options
  obtain ⟨found', hranges', hvalue'⟩ := hvalue' he options
  cases found with
  | some x =>
    obtain ⟨r, hr⟩ := hranges x rfl
    simp only [resolve_of_singleton hvalue hr, reduceCtorEq, false_imp_iff, implies_true, and_true,
      Except.ok.injEq]
    rintro _ rfl
    refine ⟨hstart.resolve_kept hvalue hr second, fun hids => ?_⟩
    have hpart := hstart.evaluate_joined hvalue (List.cons_ne_nil _ _)
      [.xpointer body' (hbalanced hids)]
    rw [Part.joined_xpointer, ← hbody'] at hpart
    exact resolve_of_singleton hpart hr
  | none =>
    have hboth := (hstart.evaluate_of_nil hvalue hstart').trans hvalue'
    simp only [resolve_of_nil hvalue, reduceCtorEq, false_imp_iff, implies_true, true_and]
    cases found' with
    | some y =>
      obtain ⟨r, hr⟩ := hranges' y rfl
      simp [resolve_of_singleton hvalue' hr, resolve_of_singleton hboth hr]
    | none =>
      simp [resolve_of_nil hvalue', resolve_of_nil hboth]

/-- The address of a text in one document and that of a text in another one, in which the first one
locates nothing: they give the second text in either order. -/
theorem resolve_chained_starred :
    ∃ first second,
      create noted ⟨⟨0⟩, .xml⟩ .standard (.anchorFocus ⟨⟨8⟩, 0⟩ ⟨⟨8⟩, 1⟩) = .ok first ∧
      create starred ⟨⟨0⟩, .xml⟩ .standard (.anchorFocus ⟨⟨3⟩, 0⟩ ⟨⟨3⟩, 1⟩) = .ok second ∧
      resolve starred ⟨⟨0⟩, .xml⟩ .standard (first ++ second) = .ok ⟨⟨⟨3⟩, 0⟩, ⟨⟨3⟩, 1⟩⟩ ∧
      resolve starred ⟨⟨0⟩, .xml⟩ .standard (second ++ first) = .ok ⟨⟨⟨3⟩, 0⟩, ⟨⟨3⟩, 1⟩⟩ := by
  have hfirst : create noted ⟨⟨0⟩, .xml⟩ .standard (.anchorFocus ⟨⟨8⟩, 0⟩ ⟨⟨8⟩, 1⟩)
      = .ok "xpointer(string-range(/r[1]/q[1], \"\", 1, 1))" := by decide
  have hsecond : create starred ⟨⟨0⟩, .xml⟩ .standard (.anchorFocus ⟨⟨3⟩, 0⟩ ⟨⟨3⟩, 1⟩)
      = .ok "xpointer(string-range(/r[1]/a[1], \"\", 1, 1))" := by decide
  have hnowhere : resolve starred ⟨⟨0⟩, .xml⟩ .standard
      "xpointer(string-range(/r[1]/q[1], \"\", 1, 1))"
      = .error (.unresolved (.noMatch "xpointer(string-range(/r[1]/q[1], \"\", 1, 1))")) := by
    decide +kernel
  have hfound : resolve starred ⟨⟨0⟩, .xml⟩ .standard
      "xpointer(string-range(/r[1]/a[1], \"\", 1, 1))" = .ok ⟨⟨⟨3⟩, 0⟩, ⟨⟨3⟩, 1⟩⟩ := by
    decide +kernel
  have hnoted := noted_rooted.lexable_of_check (by decide)
  have hstarred := starred_rooted.lexable_of_check (by decide)
  have hnotedPlaces := noted_rooted.forall_within (P := fun n =>
    noted.placeCount n < Binary64.exactBound) (by decide)
  have hstarredPlaces := starred_rooted.forall_within (P := fun n =>
    starred.placeCount n < Binary64.exactBound) (by decide)
  have hbehind := resolve_chained noted_rooted hnoted hnotedPlaces starred_rooted hstarred
    hstarredPlaces rfl rfl hfirst hsecond starred_rooted .standard
  have hbefore := resolve_chained starred_rooted hstarred hstarredPlaces noted_rooted hnoted
    hnotedPlaces rfl rfl hsecond hfirst starred_rooted .standard
  exact ⟨_, _, hfirst, hsecond, hbehind.2.1 _ _ hnowhere hfound,
    (hbefore.1 _ hfound).2 (noted_rooted.balancedIds_of_check (by decide))⟩

/-! ## An id with a parenthesis -/

/-- The document `<r>y<p id="a(">x</p></r>`. -/
def unclosed : Forest := ⟨#[
  { Record.bare .document with children := [⟨1⟩] },
  { Record.bare .element with
    name := some (.plain "r"), parent := some ⟨0⟩, children := [⟨2⟩, ⟨3⟩] },
  { Record.bare .text with value := some "y", parent := some ⟨1⟩ },
  { Record.bare .element with
    name := some (.plain "p"), attributes := [⟨.plain "id", "a("⟩], parent := some ⟨1⟩
    children := [⟨4⟩] },
  { Record.bare .text with value := some "x", parent := some ⟨3⟩ }]⟩

theorem unclosed_rooted : Document.Rooted unclosed ⟨⟨0⟩, .xml⟩ := by decide

/-- The address of the `x` is well formed by itself and cannot be passed over behind that of the
`y`: whether an id can be written is asked of the quotes in it alone. -/
theorem not_resolve_chained :
    ¬ ∀ (f f' g : Forest) (d d' e : Document) (o o' options : Options) (s s' : Selection)
      (first second : String) (r : Range), d.Rooted f → d.Lexable f →
      (∀ n, f.Within d.root n → f.placeCount n < Binary64.exactBound) → d'.Rooted f' →
      d'.Lexable f' → (∀ n, f'.Within d'.root n → f'.placeCount n < Binary64.exactBound) →
      o.wrapScheme = true → o'.wrapScheme = true → create f d o s = .ok first →
      create f' d' o' s' = .ok second → e.Rooted g → resolve g e options first = .ok r →
      resolve g e options (first ++ second) = .ok r := by
  intro h
  have hlex := unclosed_rooted.lexable_of_check (by decide)
  have hplaces := unclosed_rooted.forall_within (P := fun n =>
    unclosed.placeCount n < Binary64.exactBound) (by decide)
  have hchained := h unclosed unclosed unclosed ⟨⟨0⟩, .xml⟩ ⟨⟨0⟩, .xml⟩ ⟨⟨0⟩, .xml⟩ .standard
    .standard .standard (.anchorFocus ⟨⟨2⟩, 0⟩ ⟨⟨2⟩, 1⟩) (.anchorFocus ⟨⟨4⟩, 0⟩ ⟨⟨4⟩, 1⟩)
    "xpointer(string-range(/r[1], \"\", 1, 1))" "xpointer(string-range(id(\"a(\"), \"\", 1, 1))"
    ⟨⟨⟨2⟩, 0⟩, ⟨⟨2⟩, 1⟩⟩ unclosed_rooted hlex hplaces unclosed_rooted hlex hplaces rfl rfl
    (by decide +kernel) (by decide +kernel) unclosed_rooted (by decide +kernel)
  have hfault : (resolve unclosed ⟨⟨0⟩, .xml⟩ .standard
      ("xpointer(string-range(/r[1], \"\", 1, 1))"
        ++ "xpointer(string-range(id(\"a(\"), \"\", 1, 1))")).toOption = none := by
    decide +kernel
  rw [hchained] at hfault
  cases hfault

end Address

end TreePointer
