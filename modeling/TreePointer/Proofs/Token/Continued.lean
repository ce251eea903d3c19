import TreePointer.Proofs.Token.Parted

/-!
# Reading where the text goes on

Two lexers stand before the same text, behind which the second one has more to read. As long as the
first one does not come to the end, both take the same tokens. Computations that take tokens give
the same then, and leave lexers that go on alike. It is enough to know this of the lexer that such a
computation leaves in the end: what it left in between was longer.

* `Continued`: a lexer and one whose text goes on. Taking and looking at tokens keeps it.
* `Tracks`: what one computation gives, another one gives as well where the text goes on.
* `Tracks.bind`: computations that consist of such computations.
* `Continued.next_bind`, `Continued.peek_bind`, `Continued.expect`: the ways to take tokens.
-/

namespace TreePointer.Lexer

variable {l l' : Lexer} {r more : List Char} {t : Token}

theorem peek_atOperator {seen : Option Token} {m : Lexer} (hl : l.Faithful)
    (h : l.peek = .ok (seen, m)) : m.atOperator = l.atOperator := by
  obtain ⟨found, -, -, rfl⟩ := scan_of_peek hl h
  rfl

/-- The second lexer has the text of the first one before it and `more` behind that; of the text at
most `n` characters are left. -/
structure Continued (more : List Char) (n : Nat) (l l' : Lexer) : Prop where
  rest_eq : l'.rest = l.rest ++ more
  atOperator_eq : l'.atOperator = l.atOperator
  faithful : l.Faithful
  faithful' : l'.Faithful
  length_le : l.rest.length ≤ n

namespace Continued

variable {n m : Nat}

theorem mono (h : Continued more n l l') (hnm : n ≤ m) : Continued more m l l' :=
  { h with length_le := Nat.le_trans h.length_le hnm }

theorem tight (h : Continued more n l l') : Continued more l.rest.length l l' :=
  { h with length_le := Nat.le_refl _ }

/-- Behind a token that both have taken. -/
theorem of_rest (more : List Char) (previous : Token) (hr : r.length ≤ n) :
    Continued more n ⟨r, none, some previous⟩ ⟨r ++ more, none, some previous⟩ :=
  ⟨rfl, rfl, faithful_of_none rfl, faithful_of_none rfl, hr⟩

theorem exists_of_faithful (more : List Char) (hl : l.Faithful) (hn : l.rest.length ≤ n) :
    ∃ l', Continued more n l l' :=
  ⟨⟨l.rest ++ more, none, l.previous⟩, rfl, rfl, hl, faithful_of_none rfl, hn⟩

/-- Holding a token changes nothing. -/
theorem hold (h : Continued more n l l') {u u' : Option (Token × List Char)} (hu : l.scan = .ok u)
    (hu' : l'.scan = .ok u') : Continued more n { l with held := u } { l' with held := u' } :=
  ⟨h.rest_eq, h.atOperator_eq, faithful_hold hu, faithful_hold hu', h.length_le⟩

/-- Where only the first of them has looked at a token, they go on alike. -/
theorem of_peek (h : Continued more n l l') {seen : Option Token} {l₁ : Lexer}
    (hpeek : l.peek = .ok (seen, l₁)) : Continued more n l₁ l' :=
  ⟨h.rest_eq.trans (by rw [peek_rest hpeek]),
    h.atOperator_eq.trans (peek_atOperator h.faithful hpeek).symm, h.faithful.peek hpeek,
    h.faithful', by rw [peek_rest hpeek]; exact h.length_le⟩

/-- Without a text behind the first one, both read the same. -/
theorem scan_eq (h : Continued [] n l l') : l'.scan = l.scan :=
  scan_congr (h.rest_eq.trans (List.append_nil _)) h.atOperator_eq

theorem fault_eq (h : Continued [] n l l') (cause : SyntaxFault) :
    l'.fault cause = l.fault cause := by
  rw [fault, fault, h.rest_eq, List.append_nil]

/-- Both take one and the same token. -/
theorem next_eq (h : Continued more n l l') (hp : Parted l.rest more) {l₁ : Lexer}
    (hnext : l.next = .ok (some t, l₁)) :
    l'.next = .ok (some t, ⟨l₁.rest ++ more, none, some t⟩) :=
  next_of_scan h.faithful'
    (scan_parted hp h.rest_eq h.atOperator_eq (scan_of_next h.faithful hnext).1)

/-- Then they go on alike, with a shorter text. -/
theorem next_some (h : Continued more n l l') (hp : Parted l.rest more) {l₁ : Lexer}
    (hnext : l.next = .ok (some t, l₁)) :
    ∃ l₁', l'.next = .ok (some t, l₁') ∧ Continued more (n - 1) l₁ l₁' := by
  have hshort := (next_shorter h.faithful hnext).2
  have hle := h.length_le
  refine ⟨_, h.next_eq hp hnext, ?_⟩
  rw [(scan_of_next h.faithful hnext).2]
  exact of_rest more t (by omega)

/-- Where the first one is at the end, the second one takes the closing parenthesis. -/
theorem next_end (h : Continued (')' :: more) n l l') {l₁ : Lexer}
    (hnext : l.next = .ok (none, l₁)) :
    l'.next = .ok (some (.fence .rightParen), ⟨more, none, some (.fence .rightParen)⟩) :=
  next_of_scan h.faithful' (scan_parted_end h.rest_eq (scan_of_next_none h.faithful hnext).1)

end Continued

/-! ## Computations -/

/-- What the computation `x` gives that starts from the lexer `l`, the computation `y` gives as well
that has `more` to read, if that is parted from what `x` has left. The results are the same and the
lexers go on alike. Without more to read both have the same faults, too. -/
structure Tracks {α : Type} (more : List Char) (n : Nat) (l : Lexer)
    (x y : Except Fault (α × Lexer)) : Prop where
  after : ∀ {a m}, x = .ok (a, m) → m.Faithful ∧ m.rest <:+ l.rest ∧ m.rest.length ≤ n
  ok : ∀ {a m}, x = .ok (a, m) → Parted m.rest more →
    ∃ m', y = .ok (a, m') ∧ Continued more n m m'
  error : more = [] → ∀ {e}, x = .error e → y = .error e

/-- The result of a computation that gives nothing but a lexer. -/
def only (x : Except Fault Lexer) : Except Fault (Unit × Lexer) := x.map fun m => ((), m)

theorem only_bind {γ : Type} (v : Except Fault γ) (h : γ → Except Fault Lexer) :
    only (v >>= h) = v >>= fun c => only (h c) := by
  cases v <;> rfl

namespace Tracks

variable {α β γ : Type} {n k : Nat} {x y : Except Fault (α × Lexer)}

theorem mono (h : Tracks more n l x y) (hnk : n ≤ k) : Tracks more k l x y := by
  refine ⟨fun hx => ?_, fun hx hp => ?_, h.error⟩
  · obtain ⟨hfaithful, hsuffix, hle⟩ := h.after hx
    exact ⟨hfaithful, hsuffix, Nat.le_trans hle hnk⟩
  · obtain ⟨m', hy, hm⟩ := h.ok hx hp
    exact ⟨m', hy, hm.mono hnk⟩

theorem pure (h : Continued more n l l') (a : α) : Tracks more n l (.ok (a, l)) (.ok (a, l')) := by
  refine ⟨fun hx => ?_, fun hx _ => ?_, fun _ _ hx => ?_⟩
  · cases hx
    exact ⟨h.faithful, List.suffix_rfl, h.length_le⟩
  · cases hx
    exact ⟨l', rfl, h⟩
  · cases hx

theorem of_error {e : Fault} (h : more = [] → y = .error e) : Tracks more n l (.error e) y := by
  refine ⟨fun hx => ?_, fun hx _ => ?_, fun hmore _ hx => ?_⟩
  · cases hx
  · cases hx
  · cases hx
    exact h hmore

theorem same_error (e : Fault) :
    Tracks more n l (.error e : Except Fault (α × Lexer)) (.error e) :=
  of_error fun _ => rfl

theorem fault (h : Continued more k l l') (cause : SyntaxFault) :
    Tracks more n l (.error (l.fault cause) : Except Fault (α × Lexer))
      (.error (l'.fault cause)) := by
  refine of_error fun hmore => ?_
  subst hmore
  exact congrArg _ (h.fault_eq cause)

/-- What goes on alike from what is tracked. -/
theorem bind_of_ok {h h' : α × Lexer → Except Fault (β × Lexer)} (hxy : Tracks more n l x y)
    (hh : ∀ a m m', x = .ok (a, m) → Continued more n m m' →
      Tracks more k m (h (a, m)) (h' (a, m'))) :
    Tracks more k l (x >>= h) (y >>= h') := by
  rcases x with e | ⟨a, m⟩
  · exact .of_error fun hmore => by rw [hxy.error hmore rfl]; rfl
  obtain ⟨hfaithful, hsuffix, hle⟩ := hxy.after rfl
  have hfirst : ∃ m', Continued more n m m' ∧ (Parted m.rest more → y = .ok (a, m')) := by
    by_cases hp : Parted m.rest more
    · obtain ⟨m', hy, hm⟩ := hxy.ok rfl hp
      exact ⟨m', hm, fun _ => hy⟩
    · -- any lexer will do, since nothing is said about the second computation
      obtain ⟨m', hm⟩ := Continued.exists_of_faithful more hfaithful hle
      exact ⟨m', hm, fun hp' => absurd hp' hp⟩
  obtain ⟨m', hm, hy⟩ := hfirst
  have hsecond := hh a m m' rfl hm
  refine ⟨fun hx => ?_, fun hx hp => ?_, fun hmore e he => ?_⟩
  · obtain ⟨hfaithful₂, hsuffix₂, hle₂⟩ := hsecond.after hx
    exact ⟨hfaithful₂, hsuffix₂.trans hsuffix, hle₂⟩
  · rw [hy (hp.of_suffix (hsecond.after hx).2.1)]
    exact hsecond.ok hx hp
  · rw [hy (.inl hmore)]
    exact hsecond.error hmore he

theorem bind {h h' : α × Lexer → Except Fault (β × Lexer)} (hxy : Tracks more n l x y)
    (hh : ∀ a m m', Continued more n m m' → Tracks more k m (h (a, m)) (h' (a, m'))) :
    Tracks more k l (x >>= h) (y >>= h') :=
  hxy.bind_of_ok fun a m m' _ hm => hh a m m' hm

theorem bind_only {v w : Except Fault Lexer} {h h' : Lexer → Except Fault (β × Lexer)}
    (hvw : Tracks more n l (only v) (only w))
    (hh : ∀ m m', Continued more n m m' → Tracks more k m (h m) (h' m')) :
    Tracks more k l (v >>= h) (w >>= h') := by
  have hbind : Tracks more k l (only v >>= fun p => h p.2) (only w >>= fun p => h' p.2) :=
    hvw.bind fun _ m m' hm => hh m m' hm
  have hmap : ∀ {u : Except Fault Lexer} {g : Lexer → Except Fault (β × Lexer)},
      (only u >>= fun p => g p.2) = u >>= g := by
    intro u g
    cases u <;> rfl
  rwa [hmap, hmap] at hbind

/-- What goes on alike from one and the same computation. -/
theorem bind_same (v : Except Fault γ) {h h' : γ → Except Fault (β × Lexer)}
    (hh : ∀ c, v = .ok c → Tracks more k l (h c) (h' c)) :
    Tracks more k l (v >>= h) (v >>= h') := by
  cases v with
  | error e => exact same_error e
  | ok c => exact hh c rfl

/-- Two computations that read the same text, one after the other. -/
theorem both {x' y' : Except Fault (β × Lexer)} (hxy : Tracks more n l x y)
    (hxy' : Tracks more n l x' y')
    (hends : ∀ {a b m m'}, x = .ok (a, m) → x' = .ok (b, m') → m = m') (g : α → β → γ) :
    Tracks more n l (do let (a, _) ← x; let (b, m) ← x'; .ok (g a b, m))
      (do let (a, _) ← y; let (b, m) ← y'; .ok (g a b, m)) := by
  rcases x with e | ⟨a, m⟩
  · exact .of_error fun hmore => by rw [hxy.error hmore rfl]; rfl
  rcases x' with e | ⟨b, m'⟩
  · refine .of_error fun hmore => ?_
    obtain ⟨_, hy, -⟩ := hxy.ok rfl (.inl hmore)
    rw [hy, hxy'.error hmore rfl]
    rfl
  obtain rfl := hends rfl rfl
  refine ⟨fun hx => ?_, fun hx hp => ?_, fun _ _ hx => by cases hx⟩
  · cases hx
    exact hxy'.after rfl
  · cases hx
    obtain ⟨_, hy, -⟩ := hxy.ok rfl hp
    obtain ⟨m', hy', hm'⟩ := hxy'.ok rfl hp
    rw [hy, hy']
    exact ⟨m', rfl, hm'⟩

end Tracks

namespace Continued

variable {α : Type} {n k : Nat}

/-- Both take the token that the first one has before it. -/
theorem next (h : Continued more n l l') (hs : l.scan = .ok (some (t, r))) :
    Tracks more (n - 1) l l.next l'.next := by
  have hnext := next_of_scan h.faithful hs
  have hshort := scan_shorter hs
  have hle : r.length ≤ n - 1 := Nat.le_sub_one_of_lt (Nat.lt_of_lt_of_le hshort.2 h.length_le)
  refine ⟨fun hx => ?_, fun hx hp => ?_, fun _ _ hx => ?_⟩
  · cases hnext.symm.trans hx
    exact ⟨faithful_of_none rfl, hshort.1, hle⟩
  · cases hnext.symm.trans hx
    exact h.next_some (hp.of_suffix hshort.1) hnext
  · cases hnext.symm.trans hx

/-- Both take a token and go on with it. Without a token there is a fault. -/
theorem next_bind (h : Continued more n l l')
    {g g' : Option Token × Lexer → Except Fault (α × Lexer)}
    (hsome : ∀ t m m', Continued more (n - 1) m m' →
      Tracks more k m (g (some t, m)) (g' (some t, m')))
    (cause : SyntaxFault) (hnone : ∀ m, g (none, m) = .error (m.fault cause))
    (hnone' : ∀ m, g' (none, m) = .error (m.fault cause)) :
    Tracks more k l (l.next >>= g) (l'.next >>= g') := by
  rcases hs : l.scan with e | _ | ⟨t, r⟩
  · rw [next_of_scan_error h.faithful hs]
    refine .of_error fun hmore => ?_
    subst hmore
    rw [next_of_scan_error h.faithful' (h.scan_eq.trans hs)]
    rfl
  · have hx : (l.next >>= g) = .error (l.fault cause) := by
      rw [At.next_none ⟨rfl, h.faithful⟩ hs]
      exact hnone l
    rw [hx]
    refine .of_error fun hmore => ?_
    subst hmore
    rw [At.next_none ⟨rfl, h.faithful'⟩ (h.scan_eq.trans hs), ← h.fault_eq]
    exact hnone' l'
  · refine (h.next hs).bind_of_ok fun seen m m' hx hm => ?_
    cases (next_of_scan h.faithful hs).symm.trans hx
    exact hsome t _ m' hm

/-- What both see: the same token, which they can take, the end, or the end and the closing
parenthesis behind it. -/
inductive Seen (more : List Char) (n : Nat) :
    Option Token × Lexer → Option Token × Lexer → Prop
  | token {t : Token} {l l' : Lexer} (h : Continued more n l l') (hpos : 0 < n)
    (hnext : Tracks more (n - 1) l l.next l'.next) : Seen more n (some t, l) (some t, l')
  | nothing {l l' : Lexer} (h : Continued more n l l') : Seen more n (none, l) (none, l')
  | paren {l l' : Lexer} (h : Continued more n l l') (hmore : more ≠ [])
    (hend : l.next = .ok (none, l)) : Seen more n (none, l) (some (.fence .rightParen), l')

namespace Seen

variable {p p' : Option Token × Lexer}

/-- Both see a certain token that is no closing parenthesis, or neither does. -/
theorem ite (h : Seen more n p p') (ht : t ≠ .fence .rightParen)
    {x x' y y' : Except Fault (α × Lexer)}
    (hyes : 0 < n → Tracks more (n - 1) p.2 p.2.next p'.2.next → Tracks more k p.2 x x')
    (hno : Continued more n p.2 p'.2 → Tracks more k p.2 y y') :
    Tracks more k p.2 (if p.1 = some t then x else y) (if p'.1 = some t then x' else y') := by
  cases h with
  | @token u l l' h hpos hnext =>
    by_cases hu : u = t
    · simp only [hu, if_true]
      exact hyes hpos hnext
    · simp only [Option.some.injEq, hu, if_false]
      exact hno h
  | nothing h => exact hno h
  | paren h _ _ =>
    simp only [Option.some.injEq, ht.symm, if_false, reduceCtorEq]
    exact hno h

end Seen

/-- Both look at what comes and go on with it. -/
theorem peek_bind (h : Continued more n l l')
    {g g' : Option Token × Lexer → Except Fault (α × Lexer)}
    (hg : ∀ p p', Seen more n p p' → Tracks more k p.2 (g p) (g' p')) :
    Tracks more k l (l.peek >>= g) (l'.peek >>= g') := by
  rcases hs : l.scan with e | found
  · rw [peek_of_scan_error h.faithful hs]
    refine .of_error fun hmore => ?_
    subst hmore
    rw [peek_of_scan_error h.faithful' (h.scan_eq.trans hs)]
    rfl
  rw [peek_of_scan h.faithful hs]
  have hfaithful := faithful_hold hs
  have hseen : ∃ p', Seen more n (found.map Prod.fst, { l with held := found }) p' ∧
      (Parted l.rest more → l'.peek = .ok p') := by
    have hpos : ∀ {u}, found = some u → 0 < n := by
      rintro u rfl
      exact Nat.lt_of_lt_of_le (Nat.zero_lt_of_lt (scan_shorter hs).2) h.length_le
    by_cases hp : Parted l.rest more
    · cases found with
      | some u =>
        have hs' := scan_parted hp h.rest_eq h.atOperator_eq hs
        have hheld := h.hold hs hs'
        exact ⟨_, .token hheld (hpos rfl) (hheld.next hs), fun _ => peek_of_scan h.faithful' hs'⟩
      | none =>
        rcases more with _ | ⟨c, more⟩
        · have hs' := h.scan_eq.trans hs
          exact ⟨_, .nothing (h.hold hs hs'), fun _ => peek_of_scan h.faithful' hs'⟩
        · obtain rfl : c = ')' := by simpa using hp.head (paren_not_mem_of_scan_none hs)
          have hs' := scan_parted_end h.rest_eq hs
          have hheld := h.hold hs hs'
          exact ⟨_, .paren hheld nofun (At.next_none ⟨rfl, hheld.faithful⟩ hs),
            fun _ => peek_of_scan h.faithful' hs'⟩
    · obtain ⟨l₁', hl₁⟩ := exists_of_faithful more hfaithful h.length_le
      refine ⟨(found.map Prod.fst, l₁'), ?_, fun hp' => absurd hp' hp⟩
      cases found with
      | some u => exact .token hl₁ (hpos rfl) (hl₁.next hs)
      | none => exact .nothing hl₁
  obtain ⟨p', hseen, hpeek⟩ := hseen
  have hgo := hg _ p' hseen
  refine ⟨hgo.after, fun hx hp => ?_, fun hmore _ he => ?_⟩
  · rw [hpeek (hp.of_suffix (hgo.after hx).2.1)]
    exact hgo.ok hx hp
  · rw [hpeek (.inl hmore)]
    exact hgo.error hmore he

/-! ## Tokens that have to be there -/

theorem expect (h : Continued more n l l') (e : Expected) :
    Tracks more (n - 1) l (l.expect e) (l'.expect e) := by
  unfold Lexer.expect
  exact h.next_bind (fun t m m' hm => .pure hm t) (.ended e) (fun m => rfl) fun m => rfl

theorem expectToken (h : Continued more n l l') (token : Token) (e : Expected) :
    Tracks more (n - 1) l (only (l.expectToken token e)) (only (l'.expectToken token e)) := by
  unfold Lexer.expectToken
  rw [only_bind, only_bind]
  refine (h.expect e).bind fun t m m' hm => ?_
  by_cases ht : t = token
  · simp only [if_pos ht]
    exact .pure hm ()
  · simp only [if_neg ht]
    exact .fault hm _

theorem expectFence (h : Continued more n l l') (fence : Fence) :
    Tracks more (n - 1) l (only (l.expectFence fence)) (only (l'.expectFence fence)) :=
  h.expectToken _ _

theorem expectComma (h : Continued more n l l') :
    Tracks more (n - 1) l (only l.expectComma) (only l'.expectComma) :=
  h.expectToken _ _

theorem expectInteger (h : Continued more n l l') (e : Expected) :
    Tracks more (n - 1) l (l.expectInteger e) (l'.expectInteger e) := by
  refine (h.expect e).bind fun t m m' hm => ?_
  cases t with
  | number x =>
    dsimp only
    cases x.toNat? with
    | some i => exact .pure hm i
    | none => exact .fault hm _
  | _ => exact .fault hm _

theorem expectIndex (h : Continued more n l l') :
    Tracks more (n - 1) l l.expectIndex l'.expectIndex := by
  refine (h.expect _).bind fun t m m' hm => ?_
  cases t with
  | number x =>
    dsimp only
    cases x.position? with
    | some i => exact .pure hm i
    | none => exact .fault hm _
  | _ => exact .fault hm _

/-- Without a text behind the first one, both have the same token to take. -/
theorem expect_eq (h : Continued [] n l l') (e : Expected) : l'.expect e = l.expect e := by
  have hs' := h.scan_eq
  unfold Lexer.expect
  rcases hs : l.scan with fault | _ | ⟨t, r⟩
  · rw [next_of_scan_error h.faithful hs, next_of_scan_error h.faithful' (hs'.trans hs)]
  · rw [At.next_none ⟨rfl, h.faithful⟩ hs, At.next_none ⟨rfl, h.faithful'⟩ (hs'.trans hs)]
    exact congrArg Except.error (h.fault_eq _)
  · rw [next_of_scan h.faithful hs, next_of_scan h.faithful' (hs'.trans hs)]

end Continued

/-! ## Up to a closing parenthesis -/

/-- The lexer behind a closing parenthesis. -/
def closed (rest : List Char) : Lexer := ⟨rest, none, some (.fence .rightParen)⟩

/-- A computation with the closing parenthesis that has to follow. -/
def fenced {α : Type} (x : Except Fault (α × Lexer)) : Except Fault (α × Lexer) := do
  let (a, l) ← x
  let l ← l.expectFence .rightParen
  .ok (a, l)

theorem fenced_ok {α : Type} (a : α) (l : Lexer) :
    fenced (.ok (a, l)) = (l.expectFence .rightParen).map fun m => (a, m) := by
  cases h : l.expectFence .rightParen <;> simp [fenced, h, bind, Except.bind, Except.map]

namespace Tracks

variable {α : Type} {n : Nat} {x y : Except Fault (α × Lexer)} {a : α} {m : Lexer}

/-- With the parenthesis behind it, whatever follows that, the result is the same. -/
theorem fenced_append (h : Tracks more n l x y) (hx : fenced x = .ok (a, m)) :
    ∃ r, m = closed r ∧ ')' :: r <:+ l.rest ∧ fenced y = .ok (a, closed (r ++ more)) := by
  rcases x with e | ⟨a', l₁⟩
  · cases hx
  obtain ⟨hfaithful, hsuffix, -⟩ := h.after rfl
  rw [fenced_ok] at hx
  rcases hclose : l₁.expectFence .rightParen with e | l₂
  · rw [hclose] at hx
    cases hx
  have hnext := expectFence_ok_iff.mp hclose
  obtain ⟨hs, hl₂⟩ := scan_of_next hfaithful hnext
  have hparen : ')' :: l₂.rest <:+ l₁.rest := by
    rw [← skipWhite_of_scan_paren hs]
    exact List.dropWhile_suffix _
  -- so far the texts are parted by the parenthesis
  have hp : Parted l₁.rest more := .of_mem (hparen.subset List.mem_cons_self)
  obtain ⟨l₁', hy, hl₁⟩ := h.ok rfl hp
  rw [hclose] at hx
  cases hx
  refine ⟨m.rest, hl₂, hparen.trans hsuffix, ?_⟩
  rw [hy, fenced_ok, expectFence_ok_iff.mpr (hl₁.next_eq hp hnext)]
  rfl

/-- With nothing more to read, the result is the same, be it a fault or not. -/
theorem fenced_eq (h : Tracks [] n l x y) : fenced y = fenced x := by
  rcases x with e | ⟨a, m⟩
  · rw [h.error rfl rfl]
  obtain ⟨m', rfl, hm⟩ := h.ok rfl (.nil _)
  rw [fenced_ok, fenced_ok, Lexer.expectFence, Lexer.expectToken, hm.expect_eq]
  rfl

end Tracks

end TreePointer.Lexer
