import TreePointer.Proofs.Address.Extent
import TreePointer.Proofs.Address.Soundness

/-!
# `range-to` entry by entry

The argument of `range-to` is read once for every entry, each time from its opening parenthesis, and
the closing parenthesis is looked for behind the last reading. Since all readings end at the same
place, the entries have nothing to do with each other: over two lists of entries `range-to` gives
what it gives over each of them, and it ends where it ends over each of them.

* `rangeTo_append`: `range-to` over two lists of entries.
-/

namespace TreePointer.Expression

open Lexer

variable {f : Forest} {inner : Evaluator} {l l₁ : Lexer} {xs ys : Context}

theorem rangeTo_of_ne_nil {ctx : Context} (hctx : ctx ≠ []) (l : Lexer) :
    rangeTo f inner ctx l = (do
      let opened ← l.expectFence .leftParen
      let (ranges, l) ← rangesFrom f inner opened ctx
      let l ← l.expectFence .rightParen
      .ok (ranges, l)) := by
  obtain ⟨entry, ctx, rfl⟩ := List.exists_cons_of_ne_nil hctx
  rfl

/-- What `range-to` gives over some entries, in its parts. -/
theorem rangeTo_eq_ok_iff (hxs : xs ≠ []) {ranges : Context} :
    rangeTo f inner xs l = .ok (ranges, l₁) ↔ ∃ opened l₂, l.expectFence .leftParen = .ok opened ∧
      rangesFrom f inner opened xs = .ok (ranges, l₂) ∧ l₂.expectFence .rightParen = .ok l₁ := by
  rw [rangeTo_of_ne_nil hxs]
  constructor
  · intro h
    obtain ⟨opened, hopen, h⟩ := exists_of_bind h
    obtain ⟨⟨others, l₂⟩, hranges, h⟩ := exists_of_bind h
    obtain ⟨l₃, hclose, h⟩ := exists_of_bind h
    cases h
    exact ⟨opened, l₂, hopen, hranges, hclose⟩
  · rintro ⟨opened, l₂, hopen, hranges, hclose⟩
    simp only [hopen, hranges, hclose, bind, Except.bind]

theorem rangesFrom_append_eq_ok_iff {opened : Lexer} (hys : ys ≠ []) {all : Context} :
    rangesFrom f inner opened (xs ++ ys) = .ok (all, l) ↔ ∃ ranges others l₁,
      rangesFrom f inner opened xs = .ok (ranges, l₁) ∧
        rangesFrom f inner opened ys = .ok (others, l) ∧ all = ranges ++ others := by
  rw [rangesFrom_append f inner opened xs hys]
  constructor
  · intro h
    obtain ⟨⟨ranges, l₁⟩, hranges, h⟩ := exists_of_bind h
    obtain ⟨⟨others, l₂⟩, hothers, h⟩ := exists_of_bind h
    cases h
    exact ⟨ranges, others, l₁, hranges, hothers, rfl⟩
  · rintro ⟨ranges, others, l₁, hranges, hothers, rfl⟩
    simp only [hranges, hothers, bind, Except.bind]

/-- Behind a bracket nothing is held, and the bracket was read last. -/
theorem eq_of_expectFence {fence : Fence} (hl : l.Faithful) (h : l.expectFence fence = .ok l₁) :
    l₁ = ⟨l₁.rest, none, some (.fence fence)⟩ :=
  (scan_of_next hl (expectFence_ok_iff.mp h)).2

/-- All readings from behind the opening parenthesis end with the same lexer. -/
theorem rangesFrom_same_end {d : Document} {b : Nat} {opened l₂ : Lexer} {ranges others : Context}
    (hl : l.Faithful) (hb : l.rest.length ≤ b) (hxs : xs ≠ []) (hys : ys ≠ [])
    (hopen : l.expectFence .leftParen = .ok opened)
    (hranges : rangesFrom f (evaluator f d b) opened xs = .ok (ranges, l₁))
    (hothers : rangesFrom f (evaluator f d b) opened ys = .ok (others, l₂)) :
    l₁ = l₂ ∧ l₁.Faithful := by
  have hnext := expectFence_ok_iff.mp hopen
  have hopened := hl.next hnext
  have hb' := Nat.le_trans (next_shorter hl hnext).1.length_le hb
  have hinner := evaluator_endsAlike f d b
  obtain ⟨entry, _, hfrom⟩ := exists_rangeFrom hxs hranges
  exact ⟨rangesFrom_endsAlike hinner hopened hb' hxs hys hranges hothers,
    ((rangeFrom_endsAlike hinner hopened hb' entry entry).passed hfrom).faithful⟩

/-- **`range-to` over two lists of entries** succeeds just where it succeeds over each of them. It
gives the ranges of both behind each other and ends where it ends over each of them, behind a
closing parenthesis. -/
theorem rangeTo_append (f : Forest) (d : Document) {b : Nat} (hl : l.Faithful)
    (hb : l.rest.length ≤ b) (hxs : xs ≠ []) (hys : ys ≠ []) :
    ((∃ given, rangeTo f (evaluator f d b) (xs ++ ys) l = .ok given) ↔
      (∃ given, rangeTo f (evaluator f d b) xs l = .ok given) ∧
        ∃ given, rangeTo f (evaluator f d b) ys l = .ok given) ∧
    ∀ ranges others l₁ l₂, rangeTo f (evaluator f d b) xs l = .ok (ranges, l₁) →
      rangeTo f (evaluator f d b) ys l = .ok (others, l₂) →
      rangeTo f (evaluator f d b) (xs ++ ys) l = .ok (ranges ++ others, l₁) ∧ l₂ = l₁ ∧
        l₁ = ⟨l₁.rest, none, some (.fence .rightParen)⟩ := by
  have hxys : xs ++ ys ≠ [] := List.append_ne_nil_of_left_ne_nil hxs ys
  have hboth : ∀ {ranges others l₁ l₂}, rangeTo f (evaluator f d b) xs l = .ok (ranges, l₁) →
      rangeTo f (evaluator f d b) ys l = .ok (others, l₂) →
      rangeTo f (evaluator f d b) (xs ++ ys) l = .ok (ranges ++ others, l₁) ∧ l₂ = l₁ ∧
        l₁ = ⟨l₁.rest, none, some (.fence .rightParen)⟩ := by
    intro ranges others l₁ l₂ hx hy
    obtain ⟨opened, m, hopen, hranges, hclose⟩ := (rangeTo_eq_ok_iff hxs).mp hx
    obtain ⟨opened', m', hopen', hothers, hclose'⟩ := (rangeTo_eq_ok_iff hys).mp hy
    cases hopen.symm.trans hopen'
    obtain ⟨rfl, hm⟩ := rangesFrom_same_end hl hb hxs hys hopen hranges hothers
    refine ⟨(rangeTo_eq_ok_iff hxys).mpr ⟨opened, m, hopen, ?_, hclose⟩,
      Except.ok.inj (hclose'.symm.trans hclose), eq_of_expectFence hm hclose⟩
    exact (rangesFrom_append_eq_ok_iff hys).mpr ⟨ranges, others, m, hranges, hothers, rfl⟩
  refine ⟨⟨fun ⟨(all, l₁), h⟩ => ?_, fun ⟨⟨(ranges, l₁), hx⟩, (others, l₂), hy⟩ =>
    ⟨_, (hboth hx hy).1⟩⟩, fun ranges others l₁ l₂ => hboth⟩
  obtain ⟨opened, m, hopen, hall, hclose⟩ := (rangeTo_eq_ok_iff hxys).mp h
  obtain ⟨ranges, others, m', hranges, hothers, -⟩ := (rangesFrom_append_eq_ok_iff hys).mp hall
  obtain ⟨rfl, -⟩ := rangesFrom_same_end hl hb hxs hys hopen hranges hothers
  exact ⟨⟨_, (rangeTo_eq_ok_iff hxs).mpr ⟨opened, m', hopen, hranges, hclose⟩⟩,
    ⟨_, (rangeTo_eq_ok_iff hys).mpr ⟨opened, m', hopen, hothers, hclose⟩⟩⟩

/-- From `<r>` to the `<q>` in it, and from `<q>`, in which there is no other one. The argument has
a `range-to` of its own, which is evaluated the first time and passed over the second time. -/
theorem rangeTo_append_noted :
    rangeTo Address.noted (evaluator Address.noted ⟨⟨0⟩, .xml⟩ 25) [.node ⟨1⟩, .node ⟨7⟩]
        (.ofString "(q[1]/range-to(../q[1]))]")
      = .ok ([.range ⟨⟨⟨0⟩, 0⟩, ⟨⟨1⟩, 2⟩⟩, .range ⟨⟨⟨1⟩, 1⟩, ⟨⟨1⟩, 1⟩⟩],
        ⟨[']'], none, some (.fence .rightParen)⟩) := by
  have hfirst : rangeTo Address.noted (evaluator Address.noted ⟨⟨0⟩, .xml⟩ 25) [.node ⟨1⟩]
      (.ofString "(q[1]/range-to(../q[1]))]")
      = .ok ([.range ⟨⟨⟨0⟩, 0⟩, ⟨⟨1⟩, 2⟩⟩], ⟨[']'], none, some (.fence .rightParen)⟩) := by
    decide +kernel
  have hsecond : rangeTo Address.noted (evaluator Address.noted ⟨⟨0⟩, .xml⟩ 25) [.node ⟨7⟩]
      (.ofString "(q[1]/range-to(../q[1]))]")
      = .ok ([.range ⟨⟨⟨1⟩, 1⟩, ⟨⟨1⟩, 1⟩⟩], ⟨[']'], none, some (.fence .rightParen)⟩) := by
    decide +kernel
  exact ((rangeTo_append Address.noted ⟨⟨0⟩, .xml⟩ (faithful_ofString _) (by decide)
    (List.cons_ne_nil _ _) (List.cons_ne_nil _ _)).2 _ _ _ _ hfirst hsecond).1

end TreePointer.Expression
