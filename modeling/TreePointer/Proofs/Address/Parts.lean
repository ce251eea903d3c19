import TreePointer.Proofs.Address.Enclosed
import TreePointer.Proofs.Token.Balanced

/-!
# Addresses of several parts

The parts of an address are read one after the other, and nothing is left of a part but what it has
located and where it ends. That place is behind a closing parenthesis, so what follows has no
influence on the part. The parts that follow an address with a value are therefore read as if they
stood alone, or passed over.

* `readParts`: what is left of the parts, without the bound that the source does not have.
* `schemePart_append`: a part is read as before, whatever follows it.
* `readParts_append`: so are several parts, and the reading goes on with what follows.
* `evaluate_append_parts`: what an address with a value and further parts is evaluated to.
-/

namespace TreePointer

open Lexer

namespace Address

open Expression

variable {f : Forest} {d : Document} {o : Options} {l l' m : Lexer} {more r : List Char}
  {n b b' : Nat} {t : Token} {found found' : Option Context}

/-! ## The data of a part -/

/-- The data of `xpointer(...)`, with the parenthesis before it. -/
def expressionData (f : Forest) (d : Document) (bound : Nat) (l : Lexer) : Result := do
  let l ← l.expectFence .leftParen
  let (t, l) ← l.expect .expression
  Expression.fromRoot f d bound t l

/-- The data of `element(...)`, with the parenthesis before it. -/
def elementData (f : Forest) (d : Document) (bound : Nat) (l : Lexer) : Result := do
  let l ← l.expectFence .leftParen
  let (t, l) ← l.expect .elementPointer
  elementPointer f d bound t l

theorem expressionPart_eq (b : Nat) (l : Lexer) :
    expressionPart f d b l = fenced (expressionData f d b l) := by
  simp only [expressionPart, expressionData, fenced, bind_assoc]

theorem elementPart_eq (b : Nat) (l : Lexer) :
    elementPart f d b l = fenced (elementData f d b l) := by
  simp only [elementPart, elementData, fenced, bind_assoc]

section Data

variable (hl : Continued more n l l') (hn : n ≤ b) (hb : b + more.length ≤ b')

include hl hn hb

theorem expressionData_tracks :
    Tracks more n l (expressionData f d b l) (expressionData f d b' l') := by
  refine Tracks.bind_only (hl.expectFence _) fun l₁ l₁' h₁ => ?_
  refine (h₁.expect _).bind fun t l₂ l₂' h₂ => ?_
  exact (fromRoot_tracks hb h₂ (by omega) t).mono (by omega)

theorem elementData_tracks :
    Tracks more n l (elementData f d b l) (elementData f d b' l') := by
  refine Tracks.bind_only (hl.expectFence _) fun l₁ l₁' h₁ => ?_
  refine (h₁.expect _).bind fun t l₂ l₂' h₂ => ?_
  exact (elementPointer_tracks h₂ (by omega) hb t).mono (by omega)

end Data

theorem skipPart_ok_iff : skipPart l = .ok m ↔ ∃ l₁ r,
    l.next = .ok (some (.fence .leftParen), l₁) ∧ SchemeData.skip 1 l₁.rest = .closed r ∧
      m = closed r := by
  unfold skipPart skipData
  rcases hnext : l.next with e | ⟨_ | t, l₁⟩
  · simp
  · simp
  by_cases ht : t = .fence .leftParen
  · subst ht
    cases hskip : SchemeData.skip 1 l₁.rest <;> simp [hskip, closed, eq_comm]
  · simp [ht]

/-- **Balanced data is passed over**, whatever follows it. -/
theorem skipPart_append (hl : Continued more n l l') (h : skipPart l = .ok m) :
    ∃ r, m = closed r ∧ ')' :: r <:+ l.rest ∧ skipPart l' = .ok (closed (r ++ more)) := by
  obtain ⟨l₁, r, hnext, hskip, rfl⟩ := skipPart_ok_iff.mp h
  obtain ⟨data, hdata, hrest⟩ := SchemeData.skip_closed_iff.mp hskip
  have hparen : ')' :: r <:+ l.rest :=
    .trans ⟨data, hrest.symm⟩ (next_shorter hl.faithful hnext).1
  have hnext' := hl.next_eq (.of_mem (hparen.subset List.mem_cons_self)) hnext
  refine ⟨r, rfl, hparen, skipPart_ok_iff.mpr ⟨_, r ++ more, hnext', ?_, rfl⟩⟩
  exact SchemeData.skip_closed_iff.mpr ⟨data, hdata, by simp [hrest]⟩

/-! ## One part -/

/-- Where something has been found, a part is passed over. -/
theorem schemePart_some (b : Nat) (scheme : String) (ctx : Context) (l : Lexer) :
    schemePart f d o b (.functionName scheme) (some ctx) l
      = skipPart l >>= fun m => .ok (some ctx, m) := rfl

/-- **A part** is read as before, whatever follows it. -/
theorem schemePart_append (hl : Continued more n l l') (hn : n ≤ b) (hb : b + more.length ≤ b')
    (h : schemePart f d o b t found l = .ok (found', m)) :
    ∃ r, m = closed r ∧ ')' :: r <:+ l.rest ∧
      schemePart f d o b' t found l' = .ok (found', closed (r ++ more)) := by
  cases t with
  | functionName scheme =>
    simp only [schemePart, expressionPart_eq, elementPart_eq] at h ⊢
    split at h
    · next hfound =>
      obtain ⟨_, hskip, hrest⟩ := exists_of_bind h
      obtain ⟨r, rfl, hr, hskip'⟩ := skipPart_append hl hskip
      cases hrest
      exact ⟨r, rfl, hr, by rw [if_pos hfound, hskip']; rfl⟩
    next hfound =>
    rw [if_neg hfound]
    split at h
    · next hscheme =>
      obtain ⟨_, hdata, hrest⟩ := exists_of_bind h
      obtain ⟨r, hm, hr, hdata'⟩ := (expressionData_tracks hl hn hb).fenced_append hdata
      cases hrest
      exact ⟨r, hm, hr, by rw [if_pos hscheme, hdata']; rfl⟩
    next hscheme =>
    rw [if_neg hscheme]
    split at h
    · next helement =>
      obtain ⟨_, hdata, hrest⟩ := exists_of_bind h
      obtain ⟨r, hm, hr, hdata'⟩ := (elementData_tracks hl hn hb).fenced_append hdata
      cases hrest
      exact ⟨r, hm, hr, by rw [if_pos helement, hdata']; rfl⟩
    · next helement =>
      obtain ⟨_, hskip, hrest⟩ := exists_of_bind h
      obtain ⟨r, rfl, hr, hskip'⟩ := skipPart_append hl hskip
      cases hrest
      exact ⟨r, rfl, hr, by rw [if_neg helement, hskip']; rfl⟩
  | _ => cases h

/-- The bound matters only as far as it covers the text. -/
theorem schemePart_bound (hl : l.Faithful) (hb : l.rest.length ≤ b) (t : Token)
    (found : Option Context) :
    schemePart f d o b t found l = schemePart f d o l.rest.length t found l := by
  have hself : Continued [] l.rest.length l l :=
    ⟨(List.append_nil _).symm, rfl, hl, hl, Nat.le_refl _⟩
  cases t with
  | functionName scheme =>
    simp only [schemePart, expressionPart_eq, elementPart_eq,
      (expressionData_tracks hself (Nat.le_refl _) (by simpa using hb)).fenced_eq,
      (elementData_tracks hself (Nat.le_refl _) (by simpa using hb)).fenced_eq]
  | _ => rfl

/-- A part ends behind a closing parenthesis. -/
theorem schemePart_closed (hl : l.Faithful) (hb : l.rest.length ≤ b)
    (h : schemePart f d o b t found l = .ok (found', m)) :
    ∃ r, m = closed r ∧ ')' :: r <:+ l.rest ∧ r.length < l.rest.length := by
  have hself : Continued [] l.rest.length l l :=
    ⟨(List.append_nil _).symm, rfl, hl, hl, Nat.le_refl _⟩
  obtain ⟨r, hm, hr, -⟩ := schemePart_append hself hb (Nat.le_refl _) h
  exact ⟨r, hm, hr, hr.length_le⟩

/-! ## Several parts -/

/-- The parts before a lexer, all of them. -/
def readParts (f : Forest) (d : Document) (o : Options) (found : Option Context) (l : Lexer) :
    Except Fault (Option Context × Lexer) :=
  schemeParts f d o l.rest.length found l

theorem schemeParts_none (hl : l.Faithful) (hs : l.scan = .ok none) (b : Nat)
    (found : Option Context) : schemeParts f d o b found l = .ok (found, l) := by
  cases b with
  | zero => rfl
  | succ b => simp only [schemeParts, At.next_none ⟨rfl, hl⟩ hs, bind, Except.bind]

theorem schemeParts_error (hl : l.Faithful) {e : Fault} (hs : l.scan = .error e) (b : Nat)
    (found : Option Context) : schemeParts f d o (b + 1) found l = .error e := by
  simp only [schemeParts, next_of_scan_error hl hs, bind, Except.bind]

theorem schemeParts_succ (hl : l.Faithful) (hs : l.scan = .ok (some (t, r))) (b : Nat)
    (found : Option Context) :
    schemeParts f d o (b + 1) found l
      = schemePart f d o b t found ⟨r, none, some t⟩ >>= fun p => schemeParts f d o b p.1 p.2 := by
  simp only [schemeParts, next_of_scan hl hs, bind, Except.bind]

theorem exists_bound_of_scan (hs : l.scan ≠ .ok none) (hb : l.rest.length ≤ b) :
    ∃ k, b = k + 1 := by
  refine Nat.exists_eq_add_one.mpr (Nat.pos_of_ne_zero ?_)
  rintro rfl
  exact hs (scan_nil (List.length_eq_zero_iff.mp (Nat.le_zero.mp hb)))

/-- The bound matters only as far as it covers the text. -/
theorem schemeParts_bound (hl : l.Faithful) (hb : l.rest.length ≤ b) (found : Option Context) :
    schemeParts f d o b found l = readParts f d o found l := by
  suffices h : ∀ b', l.rest.length ≤ b' →
      schemeParts f d o b found l = schemeParts f d o b' found l from h _ (Nat.le_refl _)
  intro b' hb'
  induction hn : l.rest.length using Nat.strongRecOn generalizing l found b b' with
  | _ n ih =>
  subst hn
  rcases hs : l.scan with e | _ | ⟨t, r⟩
  · have hsome : l.scan ≠ .ok none := by rw [hs]; exact nofun
    obtain ⟨k, rfl⟩ := exists_bound_of_scan hsome hb
    obtain ⟨k', rfl⟩ := exists_bound_of_scan hsome hb'
    rw [schemeParts_error hl hs, schemeParts_error hl hs]
  · rw [schemeParts_none hl hs, schemeParts_none hl hs]
  · have hsome : l.scan ≠ .ok none := by rw [hs]; exact nofun
    obtain ⟨k, rfl⟩ := exists_bound_of_scan hsome hb
    obtain ⟨k', rfl⟩ := exists_bound_of_scan hsome hb'
    have hshort := (scan_shorter hs).2
    have hl₁ := faithful_of_none (l := ⟨r, none, some t⟩) rfl
    rw [schemeParts_succ hl hs, schemeParts_succ hl hs,
      schemePart_bound hl₁ (b := k) (by simp only; omega),
      schemePart_bound hl₁ (b := k') (by simp only; omega)]
    rcases hpart : schemePart f d o r.length t found ⟨r, none, some t⟩ with e | ⟨found', m⟩
    · simp only [bind, Except.bind]
    · obtain ⟨r', rfl, -, hlt⟩ := schemePart_closed hl₁ (Nat.le_refl r.length) hpart
      have hlt : r'.length < r.length := hlt
      show schemeParts f d o k found' (closed r') = schemeParts f d o k' found' (closed r')
      exact ih r'.length (by omega) (faithful_of_none rfl) (show r'.length ≤ k by omega) found' k'
        (show r'.length ≤ k' by omega) rfl

/-- A part and the other ones behind it. -/
theorem schemePart_bind_schemeParts (hl : l.Faithful) (hb : l.rest.length ≤ b)
    (found : Option Context) :
    (schemePart f d o b t found l >>= fun p => schemeParts f d o b p.1 p.2)
      = schemePart f d o l.rest.length t found l >>= fun p => readParts f d o p.1 p.2 := by
  rw [schemePart_bound hl hb]
  rcases hpart : schemePart f d o l.rest.length t found l with e | ⟨found', m⟩
  · rfl
  · obtain ⟨r, rfl, -, hlt⟩ := schemePart_closed hl (Nat.le_refl _) hpart
    exact schemeParts_bound (faithful_of_none rfl) (show r.length ≤ b by omega) found'

theorem readParts_none (hl : l.Faithful) (hs : l.scan = .ok none) (found : Option Context) :
    readParts f d o found l = .ok (found, l) :=
  schemeParts_none hl hs _ found

theorem readParts_error (hl : l.Faithful) {e : Fault} (hs : l.scan = .error e)
    (found : Option Context) : readParts f d o found l = .error e := by
  obtain ⟨k, hk⟩ := exists_bound_of_scan (by rw [hs]; exact nofun) (Nat.le_refl l.rest.length)
  rw [readParts, hk, schemeParts_error hl hs]

/-- The first of the parts and the other ones. -/
theorem readParts_some (hl : l.Faithful) (hs : l.scan = .ok (some (t, r)))
    (found : Option Context) :
    readParts f d o found l
      = schemePart f d o r.length t found ⟨r, none, some t⟩ >>= fun p =>
        readParts f d o p.1 p.2 := by
  have hshort := (scan_shorter hs).2
  obtain ⟨k, hk⟩ : ∃ k, l.rest.length = k + 1 := Nat.exists_eq_add_one.mpr (by omega)
  rw [readParts, hk, schemeParts_succ hl hs]
  exact schemePart_bind_schemeParts (faithful_of_none rfl) (show r.length ≤ k by omega) found

/-- **Parts that can be read** are read as before, whatever follows them, and the reading goes on
with what follows. -/
theorem readParts_append (hl : Continued more n l l')
    (h : readParts f d o found l = .ok (found', m)) :
    ∃ m', Continued more n m m' ∧ m.scan = .ok none ∧
      readParts f d o found l' = readParts f d o found' m' := by
  induction hk : l.rest.length using Nat.strongRecOn generalizing l l' found with
  | _ k ih =>
  subst hk
  rcases hs : l.scan with e | _ | ⟨t, r⟩
  · rw [readParts_error hl.faithful hs] at h
    cases h
  · rw [readParts_none hl.faithful hs] at h
    cases h
    exact ⟨l', hl, hs, rfl⟩
  · rw [readParts_some hl.faithful hs] at h
    obtain ⟨⟨found₁, m₁⟩, hpart, hrest⟩ := exists_of_bind h
    obtain ⟨hsuffix, hshort⟩ := scan_shorter hs
    have hle : r.length + more.length ≤ (r ++ more).length := by simp
    obtain ⟨r₁, rfl, hr, hpart'⟩ := schemePart_append
      (.of_rest more t (Nat.le_refl r.length)) (Nat.le_refl _) hle hpart
    have hp : Parted l.rest more :=
      .of_mem (hsuffix.subset (hr.subset List.mem_cons_self))
    have hlt : r₁.length < r.length := hr.length_le
    have hlen := hl.length_le
    have hs' := scan_parted hp hl.rest_eq hl.atOperator_eq hs
    obtain ⟨m', hm, hend, heq⟩ := ih r₁.length (by omega)
      (.of_rest more (.fence .rightParen) (by omega)) hrest rfl
    refine ⟨m', hm, hend, ?_⟩
    rw [readParts_some hl.faithful' hs', hpart']
    exact heq

/-- A list of parts has a closing parenthesis. -/
theorem paren_mem_of_readParts {p : Option Context × Lexer} (hl : l.Faithful)
    (hs : l.scan = .ok (some (t, r))) (h : readParts f d o found l = .ok p) : ')' ∈ l.rest := by
  rw [readParts_some hl hs] at h
  obtain ⟨_, hpart, -⟩ := exists_of_bind h
  obtain ⟨r', -, hr, -⟩ := schemePart_closed (faithful_of_none rfl) (Nat.le_refl _) hpart
  exact (scan_shorter hs).1.subset (hr.subset List.mem_cons_self)

/-- Nothing else than the text decides how parts are read, which is read from the first name on. -/
theorem readParts_congr {name : String} (hl : l.Faithful) (hl' : l'.Faithful)
    (hs : l.scan = .ok (some (.functionName name, r)))
    (hwhite : skipWhite l'.rest = skipWhite l.rest) (found : Option Context) :
    readParts f d o found l' = readParts f d o found l := by
  rw [readParts_some hl hs, readParts_some hl' (scan_function_of_skipWhite hs hwhite)]

/-! ## What parts locate -/

/-- Nothing that counts is empty. -/
theorem schemePart_ne_nil (hfound : found ≠ some [])
    (h : schemePart f d o b t found l = .ok (found', m)) : found' ≠ some [] := by
  have hlocating : ∀ ctx, locating ctx ≠ some [] := by
    rintro (_ | ⟨entry, rest⟩)
    · exact (Option.some_ne_none _).symm
    · unfold locating
      split <;> simp
  cases t with
  | functionName scheme =>
    simp only [schemePart] at h
    split at h
    · obtain ⟨_, -, hrest⟩ := exists_of_bind h
      cases hrest
      exact hfound
    split at h
    · obtain ⟨⟨ctx, _⟩, -, hrest⟩ := exists_of_bind h
      cases hrest
      exact hlocating ctx
    split at h
    · obtain ⟨⟨ctx, _⟩, -, hrest⟩ := exists_of_bind h
      cases hrest
      exact hlocating ctx
    · obtain ⟨_, -, hrest⟩ := exists_of_bind h
      cases hrest
      exact (Option.some_ne_none _).symm
  | _ => cases h

theorem schemeParts_ne_nil (hfound : found ≠ some [])
    (h : schemeParts f d o b found l = .ok (found', m)) : found' ≠ some [] := by
  induction b generalizing found l with
  | zero =>
    cases h
    exact hfound
  | succ b ih =>
    obtain ⟨⟨_ | t, l₁⟩, -, hrest⟩ := exists_of_bind h
    · cases hrest
      exact hfound
    · obtain ⟨⟨found₁, l₂⟩, hpart, hrest⟩ := exists_of_bind hrest
      exact ih (schemePart_ne_nil hfound hpart) hrest

/-! ## Addresses -/

/-- The address starts with the name of a scheme. -/
def StartsScheme (text : String) : Prop :=
  ∃ name r, (ofString text).scan = .ok (some (.functionName name, r)) ∧ name ∉ expressionFunctions

/-- Such an address is a list of parts. -/
theorem StartsScheme.evaluate_eq {text : String} (h : StartsScheme text) :
    evaluate f d o text = (do
      let (found, l) ← readParts f d o none (ofString text)
      expectEnd l
      .ok (found.getD [])) := by
  obtain ⟨name, r, hs, hname⟩ := h
  have hl := faithful_ofString text
  have hfirst : (ofString text).expect .address
      = .ok (.functionName name, ⟨r, none, some (.functionName name)⟩) :=
    (at_ofString text).expect hs _
  have hparts := schemePart_bind_schemeParts (f := f) (d := d) (o := o) (t := .functionName name)
    (l := ⟨r, none, some (.functionName name)⟩) (faithful_of_none rfl) (Nat.le_refl _) none
  rw [evaluate, if_neg (not_blank_of_scan hs), hfirst, readParts_some hl hs, ← hparts]
  show (ofToken f d o r.length (.functionName name) _ >>= fun p => _) = _
  rw [ofToken, if_neg hname, schemes]
  simp only [bind_assoc]
  rfl

/-- **Behind an address with a value** that is a list of parts, what follows is read as further
parts. They have the value before them, if it is not empty. -/
theorem StartsScheme.evaluate_append {first : String} {ctx : Context} (h : StartsScheme first)
    (hctx : evaluate f d o first = .ok ctx) (second : String) :
    ∃ m : Lexer, m.Faithful ∧ skipWhite m.rest = skipWhite second.toList ∧
      evaluate f d o (first ++ second) = (do
        let (found, l) ← readParts f d o (if ctx = [] then none else some ctx) m
        expectEnd l
        .ok (found.getD [])) := by
  have hfirst := faithful_ofString first
  obtain ⟨name, r, hs, hname⟩ := id h
  rw [h.evaluate_eq] at hctx
  obtain ⟨⟨found, m⟩, hparts, hrest⟩ := exists_of_bind hctx
  obtain ⟨_, -, hvalue⟩ := exists_of_bind hrest
  have hl : Continued second.toList first.toList.length (ofString first)
      (ofString (first ++ second)) :=
    ⟨String.toList_append, rfl, hfirst, faithful_ofString _, Nat.le_refl _⟩
  obtain ⟨m', hm, hend, hread⟩ := readParts_append hl hparts
  have hscheme : StartsScheme (first ++ second) :=
    ⟨name, _, scan_parted (.of_mem (paren_mem_of_readParts hfirst hs hparts)) hl.rest_eq rfl hs,
      hname⟩
  refine ⟨m', hm.faithful', ?_, ?_⟩
  · rw [hm.rest_eq, skipWhite, List.dropWhile_append, ← skipWhite, skipWhite_of_scan_none hend]
    rfl
  · -- what was found is the value, since it is not empty
    have hfound : found = if ctx = [] then none else some ctx := by
      have hne : found ≠ some [] := schemeParts_ne_nil (Option.some_ne_none []).symm hparts
      cases found with
      | none =>
        cases hvalue
        rfl
      | some c =>
        cases hvalue
        exact (if_neg fun hnil => hne (congrArg some hnil)).symm
    rw [hscheme.evaluate_eq, hread, hfound]

/-! ## Parts that are written down -/

/-- A scheme part: a name that is no type of node, and data in which parentheses balance. -/
structure Part where
  name : String
  data : String
  isName : isName name = true
  notNodeType : name ∉ Token.nodeTypes
  balanced : SchemeData.Balanced data.toList

namespace Part

/-- The part as it is written. -/
def text (p : Part) : String := p.name ++ "(" ++ p.data ++ ")"

/-- Parts one after the other. -/
def joined (parts : List Part) : String := String.join (parts.map text)

theorem toList_joined_cons (p : Part) (parts : List Part) : (joined (p :: parts)).toList
    = p.name.toList ++ '(' :: (p.data.toList ++ ')' :: (joined parts).toList) := by
  have hopen : "(".toList = ['('] := rfl
  have hclose : ")".toList = [')'] := rfl
  simp only [joined, List.map_cons, String.join_cons, text, String.toList_append, hopen, hclose,
    List.append_assoc, List.cons_append, List.nil_append]

/-- The name before a part is read as such. -/
theorem scan_joined_cons (p : Part) (parts : List Part)
    (hrest : skipWhite l.rest = skipWhite (joined (p :: parts)).toList) :
    l.scan = .ok (some (.functionName p.name,
      '(' :: (p.data.toList ++ ')' :: (joined parts).toList))) :=
  scan_function_of_skipWhite
    (scan_function (isFunctionName_of_isName p.isName p.notNodeType)
      (at_of_rest _ none |>.rest_eq.trans (toList_joined_cons p parts))) hrest

/-- The data of a part is passed over. -/
theorem skipPart_data (p : Part) (previous : Option Token) (r : List Char) :
    skipPart ⟨'(' :: (p.data.toList ++ ')' :: r), none, previous⟩ = .ok (closed r) := by
  have hopen := at_of_rest ('(' :: (p.data.toList ++ ')' :: r)) previous
  exact skipPart_ok_iff.mpr ⟨_, r, hopen.next (scan_punctuation (by decide) hopen.rest_eq),
    SchemeData.skip_closed_iff.mpr ⟨_, p.balanced, rfl⟩, rfl⟩

/-- **Parts are passed over** where something has been found, whatever they say. -/
theorem readParts_joined (parts : List Part) (ctx : Context) (hl : l.Faithful)
    (hrest : skipWhite l.rest = skipWhite (joined parts).toList) :
    ∃ m, readParts f d o (some ctx) l = .ok (some ctx, m) ∧ m.Faithful ∧ m.scan = .ok none := by
  induction parts generalizing l with
  | nil =>
    have hs : l.scan = .ok none := by
      rw [scan, hrest]
      rfl
    exact ⟨l, readParts_none hl hs _, hl, hs⟩
  | cons p parts ih =>
    obtain ⟨m, hread, hm, hend⟩ := ih (faithful_of_none (l := closed (joined parts).toList) rfl) rfl
    refine ⟨m, ?_, hm, hend⟩
    rw [readParts_some hl (p.scan_joined_cons parts hrest), schemePart_some, skipPart_data]
    exact hread

end Part

/-! ## Values of several parts -/

/-- An address with a value keeps it before whatever parts. -/
theorem StartsScheme.evaluate_joined {first : String} {ctx : Context} (h : StartsScheme first)
    (hctx : evaluate f d o first = .ok ctx) (hne : ctx ≠ []) (parts : List Part) :
    evaluate f d o (first ++ Part.joined parts) = .ok ctx := by
  obtain ⟨m, hm, hrest, heq⟩ := h.evaluate_append hctx (Part.joined parts)
  obtain ⟨m', hread, hm', hend⟩ := Part.readParts_joined parts ctx hm hrest
  rw [heq, if_neg hne, hread]
  simp only [expectEnd_of_scan_none hm' hend, bind, Except.bind, Option.getD_some]

/-- An address without a value leaves what follows as it is. -/
theorem StartsScheme.evaluate_of_nil {first second : String} (h : StartsScheme first)
    (hnil : evaluate f d o first = .ok []) (h' : StartsScheme second) :
    evaluate f d o (first ++ second) = evaluate f d o second := by
  obtain ⟨m, hm, hrest, heq⟩ := h.evaluate_append hnil second
  obtain ⟨name, r, hs, -⟩ := id h'
  rw [heq, if_pos rfl, h'.evaluate_eq, readParts_congr (faithful_ofString second) hm hs hrest]

/-- Whether tokens are those of a list of scheme parts: they start with a function with which no
expression starts. -/
def startScheme : List Token → Bool
  | .functionName name :: _ => !expressionFunctions.contains name
  | _ => false

theorem startsScheme_of_tokens {text : String} (h : startScheme (tokens text).1 = true) :
    StartsScheme text := by
  rcases hnext : (ofString text).next with e | ⟨_ | t, l⟩
  · simp [tokens, collect, hnext, startScheme] at h
  · simp [tokens, collect, hnext, startScheme] at h
  obtain ⟨k, htokens⟩ := tokens_of_next hnext
  rw [htokens] at h
  cases t with
  | functionName name =>
    exact ⟨name, l.rest, (scan_of_next (faithful_ofString text) hnext).1,
      by simpa [startScheme] using h⟩
  | _ => cases h

/-- **Scheme parts compose.** An address that is a list of parts and has a value keeps it, whatever
parts follow, as long as their data is balanced; if it has none, the address that follows is
evaluated as if it stood alone, be it to a value or to a fault. -/
theorem evaluate_append_parts (f : Forest) (d : Document) (o : Options) {first : String}
    {ctx : Context} (hstart : startScheme (tokens first).1 = true)
    (h : evaluate f d o first = .ok ctx) :
    (ctx ≠ [] → ∀ parts, evaluate f d o (first ++ Part.joined parts) = .ok ctx) ∧
      (ctx = [] → ∀ second, startScheme (tokens second).1 = true →
        evaluate f d o (first ++ second) = evaluate f d o second) := by
  have hfirst := startsScheme_of_tokens hstart
  refine ⟨fun hne parts => hfirst.evaluate_joined h hne parts, ?_⟩
  rintro rfl second hsecond
  exact hfirst.evaluate_of_nil h (startsScheme_of_tokens hsecond)

/-- A part that locates the `p`, before parts with an escaped parenthesis and a quote that nothing
ends; and parts that locate nothing, before one that does not end. -/
theorem evaluate_append_parts_noted :
    evaluate noted ⟨⟨0⟩, .xml⟩ .standard ("element(/1/1)" ++ Part.joined
        [⟨"foo", "a(^)\"b)", by decide, by decide, by decide⟩,
          ⟨"xpointer", "", by decide, by decide, by decide⟩])
      = .ok [.node ⟨2⟩] ∧
    evaluate noted ⟨⟨0⟩, .xml⟩ .standard ("foo(^))xpointer(id('z')) " ++ "xpointer(/r[1]")
      = evaluate noted ⟨⟨0⟩, .xml⟩ .standard "xpointer(/r[1]" := by
  have hfound : evaluate noted ⟨⟨0⟩, .xml⟩ .standard "element(/1/1)" = .ok [.node ⟨2⟩] := by
    decide +kernel
  have hnothing : evaluate noted ⟨⟨0⟩, .xml⟩ .standard "foo(^))xpointer(id('z')) " = .ok [] := by
    decide
  have hkept := (evaluate_append_parts noted ⟨⟨0⟩, .xml⟩ .standard (by decide) hfound).1
  have hleft := (evaluate_append_parts noted ⟨⟨0⟩, .xml⟩ .standard (by decide) hnothing).2
  exact ⟨hkept (by decide) _, hleft rfl _ (by decide)⟩

end Address

end TreePointer
