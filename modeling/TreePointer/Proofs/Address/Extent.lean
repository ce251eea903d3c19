import TreePointer.Proofs.Address.Passing

/-!
# How much text an expression takes

An expression is evaluated while it is read, so that one could fear that the entries it is evaluated
from decide how much of the text it takes. They do not: from whatever entries it starts, it ends at
the same place of the text if it succeeds at all. Only `range-to` makes this a question, since it
passes over its argument token by token where there are no entries, reads it once for every entry
where there are some, and goes on behind the last reading.

* `EndsAlike`: two computations end at the same place, as far as they end.
* `skipCall_of_rangeTo`: where `range-to` ends, passing over its argument ends as well.
* `rangesFrom_append`: the ranges from entries and further entries.
* `evaluateNext_endsAlike`: the place where an expression ends does not depend on the entries.
-/

namespace TreePointer.Expression

open Lexer

variable {l l₀ l₁ l₂ m : Lexer} {t : Token}

/-! ## Computations -/

section Computations

variable {α β γ : Type} {x y : Except Fault (α × Lexer)}

/-- If the computation succeeds, then with this lexer. -/
def EndsAt (m : Lexer) (x : Except Fault (α × Lexer)) : Prop :=
  ∀ a m', x = .ok (a, m') → m' = m

theorem endsAt_ok (a : α) (m : Lexer) : EndsAt m (.ok (a, m)) := by
  intro a' m' h
  cases h
  rfl

theorem endsAt_error (e : Fault) (m : Lexer) :
    EndsAt m (.error e : Except Fault (α × Lexer)) := by
  intro a m' h
  cases h

/-- Two computations that start from one lexer end with one and the same lexer, as far as they
succeed, and the text up to it has balanced parentheses. -/
def EndsAlike (l : Lexer) (x y : Except Fault (α × Lexer)) : Prop :=
  ∃ m, Passed l m ∧ EndsAt m x ∧ EndsAt m y

namespace EndsAlike

theorem ok (h : Passed l m) (a b : α) : EndsAlike l (.ok (a, m)) (.ok (b, m)) :=
  ⟨m, h, endsAt_ok a m, endsAt_ok b m⟩

theorem stay (hl : l.Faithful) (a b : α) : EndsAlike l (.ok (a, l)) (.ok (b, l)) :=
  .ok (.refl hl) a b

theorem error (hl : l.Faithful) (e e' : Fault) :
    EndsAlike l (.error e : Except Fault (α × Lexer)) (.error e') :=
  ⟨l, .refl hl, endsAt_error e l, endsAt_error e' l⟩

theorem trans (h : Passed l m) (h' : EndsAlike m x y) : EndsAlike l x y := by
  obtain ⟨m', hm', hx, hy⟩ := h'
  exact ⟨m', h.trans hm', hx, hy⟩

theorem passed (h : EndsAlike l x y) {a : α} (hx : x = .ok (a, m)) : Passed l m := by
  obtain ⟨m', hm', hend, -⟩ := h
  rwa [hend a m hx]

theorem eq {a b : α} (h : EndsAlike l x y) (hx : x = .ok (a, l₁)) (hy : y = .ok (b, l₂)) :
    l₁ = l₂ := by
  obtain ⟨m, -, hend, hend'⟩ := h
  rw [hend a l₁ hx, hend' b l₂ hy]

/-- What goes on alike, told of a lexer from which the first part need not start. -/
theorem bind_from {h k : α × Lexer → Except Fault (β × Lexer)} (hl₀ : l₀.Faithful)
    (hxy : EndsAlike l x y)
    (hhk : ∀ a b m, Passed l m → EndsAlike l₀ (h (a, m)) (k (b, m))) :
    EndsAlike l₀ (x >>= h) (y >>= k) := by
  obtain ⟨m, hm, hx, hy⟩ := hxy
  rcases x with e | ⟨a, m₁⟩
  · rcases y with e' | ⟨b, m₂⟩
    · exact .error hl₀ e e'
    · obtain rfl := hy b m₂ rfl
      obtain ⟨m', hm', -, hend⟩ := hhk b b m₂ hm
      exact ⟨m', hm', endsAt_error e m', hend⟩
  · obtain rfl := hx a m₁ rfl
    rcases y with e' | ⟨b, m₂⟩
    · obtain ⟨m', hm', hend, -⟩ := hhk a a m₁ hm
      exact ⟨m', hm', hend, endsAt_error e' m'⟩
    · obtain rfl := hy b m₂ rfl
      exact hhk a b m₂ hm

theorem bind {h k : α × Lexer → Except Fault (β × Lexer)} (hl : l.Faithful)
    (hxy : EndsAlike l x y)
    (hhk : ∀ a b m, Passed l m → EndsAlike m (h (a, m)) (k (b, m))) :
    EndsAlike l (x >>= h) (y >>= k) :=
  bind_from hl hxy fun a b m hm => .trans hm (hhk a b m hm)

/-- What goes on alike from two computations that read nothing. -/
theorem bind_values {h k : γ → Except Fault (β × Lexer)} (hl : l.Faithful) (v w : Except Fault γ)
    (hhk : ∀ c c', EndsAlike l (h c) (k c')) : EndsAlike l (v >>= h) (w >>= k) := by
  rcases v with e | c
  · rcases w with e' | c'
    · exact .error hl e e'
    · obtain ⟨m, hm, -, hend⟩ := hhk c' c'
      exact ⟨m, hm, endsAt_error e m, hend⟩
  · rcases w with e' | c'
    · obtain ⟨m, hm, hend, -⟩ := hhk c c
      exact ⟨m, hm, hend, endsAt_error e' m⟩
    · exact hhk c c'

/-- What goes on alike from one and the same computation. -/
theorem bind_same {h k : γ → Except Fault (β × Lexer)} (hl : l.Faithful) (v : Except Fault γ)
    (hhk : ∀ c, v = .ok c → EndsAlike l (h c) (k c)) : EndsAlike l (v >>= h) (v >>= k) := by
  cases v with
  | error e => exact .error hl e e
  | ok c => exact hhk c rfl

end EndsAlike

end Computations

variable {f : Forest} {d : Document} {inner : Evaluator} {ctx ctx' : Context}

/-- The evaluator ends at a place that does not depend on the entries. -/
def Evaluator.EndsAlike (inner : Evaluator) : Prop :=
  ∀ ⦃l : Lexer⦄, l.Faithful → l.rest.length ≤ inner.bound → ∀ e ctx ctx',
    Expression.EndsAlike l (inner.run e ctx l) (inner.run e ctx' l)

/-- The range from a place to the one entry of a target, or to nowhere. -/
def rangeUpTo (f : Forest) (start : Boundary) : Context → Except Fault Location
  | [] => .ok (.range (.point start))
  | [last] => do
    let r ← Range.make f start (← last.toRange f).stop
    .ok (.range r)
  | _ => .error (.unsupported .rangeToSet)

/-- What `range-to` makes of a target reads nothing more. -/
theorem rangeFrom_eq (entry : Location) : rangeFrom f inner entry l = (do
    let r ← entry.toRange f
    let (target, l) ← inner.run .rangeTarget [entry] l
    let range ← rangeUpTo f r.start target
    .ok (range, l)) := by
  refine bind_congr fun r => bind_congr fun (target, l₁) => ?_
  match target with
  | [] => rfl
  | [last] => simp only [rangeUpTo, bind_assoc]; rfl
  | _ :: _ :: _ => rfl

/-- Puts the range from one more entry before those that are done. -/
def addRange (f : Forest) (inner : Evaluator) (opened : Lexer) (done : Context × Lexer)
    (entry : Location) : Result := do
  let (r, l) ← rangeFrom f inner entry opened
  .ok (r :: done.1, l)

theorem rangesFrom_eq (f : Forest) (inner : Evaluator) (opened : Lexer) (ctx : Context) :
    rangesFrom f inner opened ctx = (do
      let (ranges, l) ← ctx.foldlM (addRange f inner opened) ([], opened)
      .ok (ranges.reverse, l)) := rfl

/-- The ranges that were done before stay; the lexer before is forgotten with the first entry. -/
theorem foldlM_addRange (f : Forest) (inner : Evaluator) (opened : Lexer) (entry : Location)
    (ctx done : Context) (l : Lexer) :
    (entry :: ctx).foldlM (addRange f inner opened) (done, l) = (do
      let (ranges, l) ← rangesFrom f inner opened (entry :: ctx)
      .ok (ranges.reverse ++ done, l)) := by
  have hstep : ∀ (ctx done : Context) (l : Lexer),
      (entry :: ctx).foldlM (addRange f inner opened) (done, l) = (do
        let (r, l) ← rangeFrom f inner entry opened
        ctx.foldlM (addRange f inner opened) (r :: done, l)) := by
    intro ctx done l
    rw [List.foldlM_cons]
    cases hx : rangeFrom f inner entry opened <;> simp [addRange, hx, bind, Except.bind]
  rw [rangesFrom_eq, hstep, hstep]
  cases rangeFrom f inner entry opened with
  | error e => rfl
  | ok p =>
    obtain ⟨r, l₁⟩ := p
    cases ctx with
    | nil => rfl
    | cons next ctx =>
      simp only [bind, Except.bind]
      rw [foldlM_addRange f inner opened next ctx (r :: done),
        foldlM_addRange f inner opened next ctx [r]]
      cases rangesFrom f inner opened (next :: ctx) with
      | error e => rfl
      | ok q => simp [bind, Except.bind]

theorem rangesFrom_singleton (f : Forest) (inner : Evaluator) (opened : Lexer) (entry : Location) :
    rangesFrom f inner opened [entry] = (do
      let (r, l) ← rangeFrom f inner entry opened
      .ok ([r], l)) := by
  rw [rangesFrom_eq, List.foldlM_cons, addRange]
  cases rangeFrom f inner entry opened <;> rfl

/-- **The ranges from entries and further entries** are put behind each other. The lexer behind the
first ones is forgotten. -/
theorem rangesFrom_append (f : Forest) (inner : Evaluator) (opened : Lexer) (xs : Context)
    {ys : Context} (hys : ys ≠ []) :
    rangesFrom f inner opened (xs ++ ys) = (do
      let (ranges, _) ← rangesFrom f inner opened xs
      let (others, l) ← rangesFrom f inner opened ys
      .ok (ranges ++ others, l)) := by
  obtain ⟨y, ys, rfl⟩ := List.exists_cons_of_ne_nil hys
  rw [rangesFrom_eq, rangesFrom_eq f inner opened xs, List.foldlM_append]
  cases xs.foldlM (addRange f inner opened) ([], opened) with
  | error e => rfl
  | ok p =>
    obtain ⟨done, l⟩ := p
    simp only [bind, Except.bind]
    rw [foldlM_addRange]
    cases rangesFrom f inner opened (y :: ys) with
    | error e => rfl
    | ok q => simp [bind, Except.bind]

/-- The lexer behind the ranges is the one behind the range from one of the entries. -/
theorem exists_rangeFrom {opened : Lexer} {ranges : Context} (hctx : ctx ≠ [])
    (hr : rangesFrom f inner opened ctx = .ok (ranges, m)) :
    ∃ entry r, rangeFrom f inner entry opened = .ok (r, m) := by
  rw [← List.dropLast_concat_getLast hctx,
    rangesFrom_append f inner opened _ (List.cons_ne_nil _ _), rangesFrom_singleton] at hr
  obtain ⟨⟨_, _⟩, _, hr⟩ := exists_of_bind hr
  obtain ⟨⟨others, l₁⟩, hlast, hr⟩ := exists_of_bind hr
  obtain ⟨⟨r, l₂⟩, hfrom, hlast⟩ := exists_of_bind hlast
  cases hlast
  cases hr
  exact ⟨_, r, hfrom⟩

/-! ## Location steps -/

section Steps

variable (h : inner.EndsAlike) (hl : l.Faithful) (hb : l.rest.length ≤ inner.bound)

include h hl hb

theorem predicates_endsAlike (accept : Node → Bool) (ns ns' : List Node) (ctx ctx' : Context)
    (fuel : Nat) (candidates candidates' : Option Context) :
    EndsAlike l (predicates f inner accept ns ctx fuel candidates l)
      (predicates f inner accept ns' ctx' fuel candidates' l) := by
  induction fuel generalizing candidates candidates' l with
  | zero => exact .stay hl _ _
  | succ fuel ih =>
    simp only [predicates]
    refine .bind_same hl _ fun found hpeek => ?_
    obtain ⟨seen, l₁⟩ := found
    have h₁ := Passed.of_peek hl hpeek
    split
    · next heq =>
      cases heq
      refine .bind_same hl _ fun found hnext => ?_
      obtain ⟨_, l₂⟩ := found
      have h₂ := Passed.of_peek_next hl hpeek hnext (by simp) (by simp)
      refine .trans h₂ (.bind h₂.faithful (h h₂.faithful (h₂.length_le hb) _ _ _)
        fun value value' l₃ h₃ => ?_)
      refine .bind_same h₃.faithful _ fun l₄ hclose => ?_
      have h₄ := Passed.of_expectToken h₃.faithful hclose (by simp) (by simp)
      exact .trans h₄ (ih h₄.faithful ((h₂.trans (h₃.trans h₄)).length_le hb) _ _)
    · next heq =>
      cases heq
      exact .ok h₁ _ _

theorem nameStep_endsAlike (name : String) (ctx ctx' : Context) :
    EndsAlike l (nameStep f d inner name ctx l) (nameStep f d inner name ctx' l) := by
  refine .bind_values hl _ _ fun ns ns' => ?_
  refine .bind hl (predicates_endsAlike h hl hb _ ns ns' ctx ctx' _ none none) fun _ _ m hm => ?_
  exact .stay hm.faithful _ _

theorem axisStep_endsAlike (axis : String) (ctx ctx' : Context) :
    EndsAlike l (axisStep f d inner axis ctx l) (axisStep f d inner axis ctx' l) := by
  unfold axisStep
  split
  · exact .error hl _ _
  refine .bind_same hl _ fun (_, l₁) hnext => ?_
  split
  · next heq =>
    cases heq
    have h₁ := Passed.of_next hl hnext nofun nofun
    refine .bind_same hl _ fun (t, l₂) hexpect => ?_
    cases t with
    | nameTest name =>
      have h₂ := Passed.of_expect h₁.faithful hexpect nofun nofun
      exact .trans (h₁.trans h₂)
        (nameStep_endsAlike h h₂.faithful ((h₁.trans h₂).length_le hb) name ctx ctx')
    | _ => exact .error hl _ _
  · exact .error hl _ _

/-! ## Ranges from one place to another -/

theorem rangeFrom_endsAlike (entry entry' : Location) :
    EndsAlike l (rangeFrom f inner entry l) (rangeFrom f inner entry' l) := by
  rw [rangeFrom_eq, rangeFrom_eq]
  refine .bind_values hl _ _ fun r r' => ?_
  refine .bind hl (h hl hb _ _ _) fun target target' m hm => ?_
  exact .bind_values hm.faithful _ _ fun range range' => .stay hm.faithful _ _

theorem rangesFrom_endsAlike (hctx : ctx ≠ []) (hctx' : ctx' ≠ []) {ranges others : Context}
    (hr : rangesFrom f inner l ctx = .ok (ranges, l₁))
    (hr' : rangesFrom f inner l ctx' = .ok (others, l₂)) : l₁ = l₂ := by
  obtain ⟨entry, r, hfrom⟩ := exists_rangeFrom hctx hr
  obtain ⟨entry', r', hfrom'⟩ := exists_rangeFrom hctx' hr'
  exact (rangeFrom_endsAlike h hl hb entry entry').eq hfrom hfrom'

/-- **Where `range-to` ends**, passing over its argument ends as well. -/
theorem skipCall_of_rangeTo {ranges : Context} (hr : rangeTo f inner ctx l = .ok (ranges, m)) :
    skipCall inner.bound l = .ok m := by
  cases ctx with
  | nil =>
    obtain ⟨l₁, hskip, hr⟩ := exists_of_bind hr
    cases hr
    exact hskip
  | cons entry ctx =>
    obtain ⟨l₁, hopen, hr⟩ := exists_of_bind hr
    obtain ⟨⟨ranges, l₂⟩, hranges, hr⟩ := exists_of_bind hr
    obtain ⟨l₃, hclose, hr⟩ := exists_of_bind hr
    cases hr
    have hnext := expectFence_ok_iff.mp hopen
    have hb₁ := Nat.le_trans (next_shorter hl hnext).1.length_le hb
    obtain ⟨entry', r, hfrom⟩ := exists_rangeFrom (List.cons_ne_nil entry ctx) hranges
    have hpassed := (rangeFrom_endsAlike h (hl.next hnext) hb₁ entry' entry').passed hfrom
    exact skipCall_of_passed hopen hb₁ hpassed hclose

theorem rangeTo_endsAlike (ctx ctx' : Context) :
    EndsAlike l (rangeTo f inner ctx l) (rangeTo f inner ctx' l) := by
  rcases hskip : skipCall inner.bound l with e | m
  · have hnot : ∀ ctx a m', rangeTo f inner ctx l ≠ .ok (a, m') := fun ctx a m' hr => by
      have hskip' := skipCall_of_rangeTo h hl hb hr
      rw [hskip] at hskip'
      cases hskip'
    exact ⟨l, .refl hl, fun a m' hr => absurd hr (hnot ctx a m'),
      fun a m' hr => absurd hr (hnot ctx' a m')⟩
  · have hend : ∀ ctx, EndsAt m (rangeTo f inner ctx l) := fun ctx a m' hr =>
      Except.ok.inj ((skipCall_of_rangeTo h hl hb hr).symm.trans hskip)
    exact ⟨m, passed_skipCall hl hskip, hend ctx, hend ctx'⟩

/-! ## Location paths -/

omit h hl hb in
/-- A bracket starts no step. -/
theorem step_fence (fence : Fence) (ctx : Context) :
    step f d inner (.fence fence) ctx l = .error (l.fault (.inPath (.fence fence))) := by
  simp only [step]

theorem step_endsAlike (token : Token) (ctx ctx' : Context) :
    EndsAlike l (step f d inner token ctx l) (step f d inner token ctx' l) := by
  cases token with
  | dot => exact .stay hl _ _
  | dotDot => exact .bind_values hl _ _ fun ns ns' => .stay hl _ _
  | functionName name =>
    simp only [step]
    split
    · exact rangeTo_endsAlike h hl hb ctx ctx'
    · exact .error hl _ _
  | axisName axis => exact axisStep_endsAlike h hl hb axis ctx ctx'
  | nameTest name => exact nameStep_endsAlike h hl hb name ctx ctx'
  | _ => exact .error hl _ _

omit hl hb in
/-- A step with its first token. -/
theorem step_from {e : Expected} (hl₀ : l₀.Faithful) (ht : l₀.expect e = .ok (t, l))
    (hb : l.rest.length ≤ inner.bound) (ctx ctx' : Context) :
    EndsAlike l₀ (step f d inner t ctx l) (step f d inner t ctx' l) := by
  by_cases hfence : ∃ fence, t = .fence fence
  · obtain ⟨fence, rfl⟩ := hfence
    rw [step_fence, step_fence]
    exact .error hl₀ _ _
  · have hl := Passed.of_expect hl₀ ht (fun heq => hfence ⟨_, heq⟩) fun heq => hfence ⟨_, heq⟩
    exact .trans hl (step_endsAlike h hl.faithful hb t ctx ctx')

theorem steps_endsAlike (fuel : Nat) (ctx ctx' : Context) :
    EndsAlike l (steps f d inner fuel ctx l) (steps f d inner fuel ctx' l) := by
  induction fuel generalizing ctx ctx' l with
  | zero => exact .stay hl _ _
  | succ fuel ih =>
    simp only [steps]
    refine .bind_same hl _ fun found hpeek => ?_
    obtain ⟨seen, l₁⟩ := found
    have h₁ := Passed.of_peek hl hpeek
    split
    · exact .error hl _ _
    · next heq =>
      cases heq
      refine .bind_same hl _ fun found hnext => ?_
      obtain ⟨_, l₂⟩ := found
      have h₂ := Passed.of_peek_next hl hpeek hnext (by simp) (by simp)
      refine .trans h₂ (.bind_same h₂.faithful _ fun found hexpect => ?_)
      obtain ⟨t, l₃⟩ := found
      have hb₃ := Nat.le_trans (expect_shorter h₂.faithful hexpect).1.length_le (h₂.length_le hb)
      refine .bind h₂.faithful (step_from h h₂.faithful hexpect hb₃ ctx ctx') fun _ _ l₄ h₄ => ?_
      exact ih h₄.faithful ((h₂.trans h₄).length_le hb) _ _
    · next heq =>
      cases heq
      exact .ok h₁ _ _

theorem locationPath_endsAlike (token : Token) (ctx ctx' : Context) :
    EndsAlike l (locationPath f d inner token ctx l) (locationPath f d inner token ctx' l) := by
  refine .bind hl (step_endsAlike h hl hb token ctx ctx') fun _ _ l₁ h₁ => ?_
  exact steps_endsAlike h h₁.faithful (h₁.length_le hb) _ _ _

omit hl hb in
/-- A location path with its first token. -/
theorem locationPath_from {e : Expected} (hl₀ : l₀.Faithful) (ht : l₀.expect e = .ok (t, l))
    (hb : l.rest.length ≤ inner.bound) (ctx ctx' : Context) :
    EndsAlike l₀ (locationPath f d inner t ctx l) (locationPath f d inner t ctx' l) := by
  by_cases hfence : ∃ fence, t = .fence fence
  · obtain ⟨fence, rfl⟩ := hfence
    rw [locationPath, locationPath, step_fence, step_fence]
    exact .error hl₀ _ _
  · have hl := Passed.of_expect hl₀ ht (fun heq => hfence ⟨_, heq⟩) fun heq => hfence ⟨_, heq⟩
    exact .trans hl (locationPath_endsAlike h hl.faithful hb t ctx ctx')

theorem absolutePath_endsAlike :
    EndsAlike l (absolutePath f d inner l) (absolutePath f d inner l) := by
  refine .bind_same hl _ fun (seen, l₁) hpeek => ?_
  have h₁ := Passed.of_peek hl hpeek
  dsimp only
  split
  · refine .trans h₁ (.bind_same h₁.faithful _ fun (t, l₂) hexpect => ?_)
    have hb₂ := Nat.le_trans (expect_shorter h₁.faithful hexpect).1.length_le (h₁.length_le hb)
    exact locationPath_from h h₁.faithful hexpect hb₂ _ _
  · exact .ok h₁ _ _

/-- The rest of an expression after a value. -/
theorem pathFrom_endsAlike (ctx ctx' : Context) :
    EndsAlike l (pathFrom f d inner ctx l) (pathFrom f d inner ctx' l) := by
  rw [pathFrom_eq, pathFrom_eq]
  exact steps_endsAlike h hl hb _ ctx ctx'

/-! ## Functions -/

omit h hb in
theorem idCall_endsAlike : EndsAlike l (idCall f d l) (idCall f d l) := by
  refine .bind_same hl _ fun (t, m) hexpect => ?_
  cases t with
  | literal s => exact .ok (.of_expect hl hexpect nofun nofun) _ _
  | _ => exact .error hl _ _

omit h hb in
theorem passed_expectNoSearch (hx : expectNoSearch l = .ok m) : Passed l m := by
  obtain ⟨⟨t, l₁⟩, hexpect, hx⟩ := exists_of_bind hx
  cases t with
  | literal s =>
    dsimp only at hx
    split at hx
    · cases hx
      exact .of_expect hl hexpect nofun nofun
    · cases hx
  | _ => cases hx

omit h hb in
theorem passed_refuseEnd {fault : UnsupportedFault} (hx : refuseEnd fault l = .ok m) :
    Passed l m := by
  obtain ⟨⟨seen, l₁⟩, hpeek, hx⟩ := exists_of_bind hx
  split at hx
  · cases hx
  · next heq =>
    cases heq
    cases hx
    exact .of_peek hl hpeek

omit h hb in
theorem stringRangeArguments_endsAlike :
    EndsAlike l (stringRangeArguments l) (stringRangeArguments l) := by
  refine .bind_same hl _ fun l₁ hcomma => ?_
  have h₁ := Passed.of_expectComma hl hcomma
  refine .bind_same hl _ fun l₂ hsearch => ?_
  have h₂ := h₁.trans (passed_expectNoSearch h₁.faithful hsearch)
  refine .bind_same hl _ fun l₃ hrefuse => ?_
  have h₃ := h₂.trans (passed_refuseEnd h₂.faithful hrefuse)
  refine .bind_same hl _ fun l₄ hcomma' => ?_
  have h₄ := h₃.trans (.of_expectComma h₃.faithful hcomma')
  refine .bind_same hl _ fun (start, l₅) hstart => ?_
  have h₅ := h₄.trans (.of_expectInteger h₄.faithful hstart)
  refine .bind_same hl _ fun l₆ hrefuse' => ?_
  have h₆ := h₅.trans (passed_refuseEnd h₅.faithful hrefuse')
  refine .bind_same hl _ fun l₇ hcomma'' => ?_
  have h₇ := h₆.trans (.of_expectComma h₆.faithful hcomma'')
  refine .bind_same hl _ fun (length, l₈) hlength => ?_
  exact .ok (h₇.trans (.of_expectInteger h₇.faithful hlength)) _ _

theorem stringRangeCall_endsAlike (ctx ctx' : Context) :
    EndsAlike l (stringRangeCall f inner ctx l) (stringRangeCall f inner ctx' l) := by
  refine .bind hl (h hl hb _ _ _) fun locations locations' l₁ h₁ => ?_
  refine .bind h₁.faithful (stringRangeArguments_endsAlike h₁.faithful) fun _ _ l₂ h₂ => ?_
  exact .bind_values h₂.faithful _ _ fun ranges ranges' => .stay h₂.faithful _ _

theorem pointCall_endsAlike (toStart : Bool) (ctx ctx' : Context) :
    EndsAlike l (pointCall f inner toStart ctx l) (pointCall f inner toStart ctx' l) := by
  refine .bind hl (h hl hb _ _ _) fun locations locations' l₁ h₁ => ?_
  exact .bind_values h₁.faithful _ _ fun points points' => .stay h₁.faithful _ _

theorem arguments_endsAlike (name : String) (ctx ctx' : Context) :
    EndsAlike l (arguments f d inner name ctx l) (arguments f d inner name ctx' l) := by
  unfold arguments
  split
  · exact idCall_endsAlike hl
  split
  · exact stringRangeCall_endsAlike h hl hb ctx ctx'
  split
  · exact pointCall_endsAlike h hl hb true ctx ctx'
  split
  · exact pointCall_endsAlike h hl hb false ctx ctx'
  · exact .error hl _ _

theorem functionCall_endsAlike (name : String) (ctx ctx' : Context) :
    EndsAlike l (functionCall f d inner name ctx l) (functionCall f d inner name ctx' l) := by
  refine .bind_same hl _ fun l₁ hopen => ?_
  have hnext := expectFence_ok_iff.mp hopen
  have hl₁ := hl.next hnext
  have hb₁ := Nat.le_trans (next_shorter hl hnext).1.length_le hb
  refine .bind_from hl (arguments_endsAlike h hl₁ hb₁ name ctx ctx') fun _ _ l₂ h₂ => ?_
  refine .bind_same hl _ fun l₃ hclose => ?_
  exact .ok (.of_fences hl hnext h₂ hclose) _ _

/-! ## Expressions -/

omit hl hb in
/-- **An expression** with its first token ends at a place that does not depend on the entries, if
the expressions inside it do. -/
theorem expression_from {e : Expected} (hl₀ : l₀.Faithful) (ht : l₀.expect e = .ok (t, l))
    (hb : l.rest.length ≤ inner.bound) (ctx ctx' : Context) :
    EndsAlike l₀ (expression f d inner t ctx l) (expression f d inner t ctx' l) := by
  have hnext := expect_ok_iff.mp ht
  have hl := hl₀.next hnext
  unfold expression
  split
  · exact .error hl₀ _ _
  · exact .error hl₀ _ _
  · exact .trans (.of_expect hl₀ ht nofun nofun) (absolutePath_endsAlike h hl hb)
  · refine .bind_from hl₀ (h hl hb _ ctx ctx') fun _ _ l₁ h₁ => ?_
    refine .bind_same hl₀ _ fun l₂ hclose => ?_
    have hfences := Passed.of_fences hl₀ hnext h₁ hclose
    have hb₂ := Nat.le_trans (next_shorter h₁.faithful (expectFence_ok_iff.mp hclose)).1.length_le
      (h₁.length_le hb)
    exact .trans hfences (pathFrom_endsAlike h hfences.faithful hb₂ _ _)
  · exact .trans (.of_expect hl₀ ht nofun nofun) (pathFrom_endsAlike h hl hb _ _)
  · exact .trans (.of_expect hl₀ ht nofun nofun) (pathFrom_endsAlike h hl hb _ _)
  · split
    · exact locationPath_from h hl₀ ht hb ctx ctx'
    · refine .trans (.of_expect hl₀ ht nofun nofun) ?_
      refine .bind hl (functionCall_endsAlike h hl hb _ ctx ctx') fun _ _ l₁ h₁ => ?_
      exact pathFrom_endsAlike h h₁.faithful (h₁.length_le hb) _ _
  · exact locationPath_from h hl₀ ht hb ctx ctx'

end Steps

/-- **Where an expression ends** does not depend on the entries it is evaluated from. -/
theorem evaluateNext_endsAlike (b : Nat) (hl : l.Faithful) (hb : l.rest.length ≤ b) (e : Expected)
    (ctx ctx' : Context) :
    EndsAlike l (evaluateNext f d b e ctx l) (evaluateNext f d b e ctx' l) := by
  induction b generalizing l e ctx ctx' with
  | zero => exact .error hl _ _
  | succ b ih =>
    have hinner : Evaluator.EndsAlike ⟨b, evaluateNext f d b⟩ :=
      fun _ hl hb e ctx ctx' => ih hl hb e ctx ctx'
    refine .bind_same hl _ fun (t, l₁) hexpect => ?_
    have hb₁ : l₁.rest.length ≤ b :=
      Nat.le_of_lt_succ (Nat.lt_of_lt_of_le (expect_shorter hl hexpect).2 hb)
    exact expression_from hinner hl hexpect hb₁ ctx ctx'

theorem evaluator_endsAlike (f : Forest) (d : Document) (b : Nat) :
    (evaluator f d b).EndsAlike :=
  fun _ hl hb e ctx ctx' => evaluateNext_endsAlike b hl hb e ctx ctx'

end TreePointer.Expression
