import TreePointer.Proofs.Related
import TreePointer.Proofs.Token.Spelling

/-!
# Looking ahead is not seen

A reader may look at the next token as often as it likes, keep the state of its lexer and go back to
it later. What it has looked at is held by the lexer, so that two lexers at one place of a text may
hold different things. But a lexer holds nothing but what it would read, and so no call can tell the
two apart: a session in which the looks ahead are left out gives the same answers.

* `Call`, `Session`, `Session.observe`: calls in any order, and what is seen of them.
* `Abreast`: lexers that differ at most in what they hold.
* `Abreast.next`, `Abreast.skipData`: taking and skipping give the same, and leave such lexers.
* `Session.Abreast.call`, `Session.Abreast.peek`: one call of a session.
* `Session.Abreast.observe`, `Session.Abreast.run`: any number of calls.
* `peek_unseen`: looking ahead changes no other answer, and it gives what is taken next.
-/

namespace TreePointer.Lexer

/-! ## Sessions -/

/-- A call on a lexer. The snapshots that are kept are numbered from zero. -/
inductive Call where
  | next
  | peek
  | skipData
  | snapshot
  | restore (k : Nat)
deriving DecidableEq, Repr

/-- What a call answers. -/
inductive Answer where
  | token (found : Except Fault (Option Token))
  | skipped (done : Except Fault Unit)
  | kept (k : Nat)
  | restored

/-- A lexer that is called on, with the snapshots kept so far. -/
structure Session where
  lexer : Lexer
  snapshots : List Lexer

/-- What is seen of a call: its answer, and the text that is left after it. -/
structure Observation where
  call : Call
  answer : Answer
  remaining : List Char

namespace Session

/-- The session that begins with a text. -/
def ofString (text : String) : Session := ⟨.ofString text, []⟩

/-- The session after a token was taken or looked at. Where that fails, the lexer stays. -/
def reading (s : Session) : Except Fault (Option Token × Lexer) → Answer × Session
  | .ok (t, l) => (.token (.ok t), { s with lexer := l })
  | .error e => (.token (.error e), s)

/-- The answer to a call, and the session after it. There is nothing to restore for a number that no
snapshot has. -/
def call (s : Session) : Call → Answer × Session
  | .next => s.reading s.lexer.next
  | .peek => s.reading s.lexer.peek
  | .skipData =>
    let (done, l) := s.lexer.skipData
    (.skipped done, { s with lexer := l })
  | .snapshot =>
    (.kept s.snapshots.length, { s with snapshots := s.snapshots ++ [s.lexer] })
  | .restore k => (.restored, { s with lexer := s.snapshots[k]?.getD s.lexer })

/-- The session after some calls, whether they succeed or fail. -/
def run (s : Session) (calls : List Call) : Session :=
  calls.foldl (fun s c => (s.call c).2) s

/-- What is seen of some calls, one after the other. -/
def observe : Session → List Call → List Observation
  | _, [] => []
  | s, c :: calls =>
    let (answer, s) := s.call c
    ⟨c, answer, s.lexer.rest⟩ :: observe s calls

end Session

/-! ## Lexers at one place -/

/-- Two lexers at one place of a text, which differ at most in what they hold, and hold nothing but
what they would read. -/
structure Abreast (l m : Lexer) : Prop where
  rest_eq : l.rest = m.rest
  previous_eq : l.previous = m.previous
  faithful : l.Faithful
  faithful' : m.Faithful

variable {l m : Lexer}

theorem Abreast.refl (h : l.Faithful) : Abreast l l := ⟨rfl, rfl, h, h⟩

namespace Abreast

variable (h : Abreast l m)

include h

/-- They read the same. -/
theorem scan_eq : l.scan = m.scan := by
  obtain ⟨rest, held, previous⟩ := l
  obtain ⟨rest', held', previous'⟩ := m
  obtain rfl : rest = rest' := h.rest_eq
  obtain rfl : previous = previous' := h.previous_eq
  rfl

theorem fault_eq (cause : SyntaxFault) : l.fault cause = m.fault cause := by
  rw [fault, h.rest_eq, fault]

/-- **Taking a token** gives the same, and the lexers behind it hold nothing. -/
theorem next :
    (∃ e, l.next = .error e ∧ m.next = .error e) ∨
      (l.next = .ok (none, l) ∧ m.next = .ok (none, m)) ∨
      ∃ t r, l.next = .ok (some t, ⟨r, none, some t⟩) ∧
        m.next = .ok (some t, ⟨r, none, some t⟩) := by
  have hscan := h.scan_eq
  rcases hs : l.scan with e | _ | ⟨t, r⟩
  · rw [hs] at hscan
    exact .inl ⟨e, next_of_scan_error h.faithful hs, next_of_scan_error h.faithful' hscan.symm⟩
  · rw [hs] at hscan
    have hm : m.next = .ok (none, m) := At.next_none ⟨rfl, h.faithful'⟩ hscan.symm
    exact .inr (.inl ⟨At.next_none ⟨rfl, h.faithful⟩ hs, hm⟩)
  · rw [hs] at hscan
    exact .inr (.inr ⟨t, r, next_of_scan h.faithful hs, next_of_scan h.faithful' hscan.symm⟩)

/-- Looking at a token leaves the lexer where it is. -/
theorem peek {found : Option Token} {l' : Lexer} (hpeek : l.peek = .ok (found, l')) :
    Abreast l' m := by
  obtain ⟨ahead, -, -, rfl⟩ := scan_of_peek h.faithful hpeek
  exact ⟨h.rest_eq, h.previous_eq, h.faithful.peek hpeek, h.faithful'⟩

/-- **Passing over data** gives the same. -/
theorem skipData : l.skipData.1 = m.skipData.1 ∧ Abreast l.skipData.2 m.skipData.2 := by
  unfold Lexer.skipData
  rcases h.next with ⟨e, hl, hm⟩ | ⟨hl, hm⟩ | ⟨t, r, hl, hm⟩
  · rw [hl, hm]
    exact ⟨rfl, h⟩
  · rw [hl, hm]
    exact ⟨congrArg Except.error (h.fault_eq _), h⟩
  · rw [hl, hm]
    refine ⟨rfl, .refl (faithful_of_none ?_)⟩
    dsimp only
    split
    · split <;> rfl
    · rfl

end Abreast

/-- Of two lists the lexers with one number are abreast, or those that stand in for them. -/
theorem abreast_getD {ls ms : List Lexer} (h : List.Forall₂ Abreast ls ms) (hlm : Abreast l m)
    (k : Nat) : Abreast (ls[k]?.getD l) (ms[k]?.getD m) := by
  rcases option_rel_cases (forall₂_getElem? h k) with ⟨hl, hm⟩ | ⟨_, _, hl, hm, hkept⟩
  · rw [hl, hm]
    exact hlm
  · rw [hl, hm]
    exact hkept

/-! ## Sessions side by side -/

namespace Session

/-- Two sessions whose lexers are at one place, and whose snapshots are, one by one. -/
structure Abreast (s s' : Session) : Prop where
  lexer : Lexer.Abreast s.lexer s'.lexer
  snapshots : List.Forall₂ Lexer.Abreast s.snapshots s'.snapshots

variable {s s' : Session}

theorem abreast_ofString (text : String) : Abreast (ofString text) (ofString text) :=
  ⟨.refl (faithful_ofString text), .nil⟩

namespace Abreast

variable (h : Abreast s s')

include h

/-- **A look ahead** is not seen: it leaves the session where it is. -/
theorem peek : Abreast (s.call .peek).2 s' := by
  rw [Session.call]
  cases hpeek : s.lexer.peek with
  | error e => exact h
  | ok found =>
    obtain ⟨t, l⟩ := found
    exact ⟨h.lexer.peek hpeek, h.snapshots⟩

/-- **Every call** gives the same answer, and leaves the sessions abreast. -/
theorem call (c : Call) (hc : c ≠ .peek) :
    (s.call c).1 = (s'.call c).1 ∧ Abreast (s.call c).2 (s'.call c).2 := by
  cases c with
  | next =>
    rw [Session.call, Session.call]
    rcases h.lexer.next with ⟨e, hl, hm⟩ | ⟨hl, hm⟩ | ⟨t, r, hl, hm⟩
    · rw [hl, hm]
      exact ⟨rfl, h⟩
    · rw [hl, hm]
      exact ⟨rfl, h⟩
    · rw [hl, hm]
      exact ⟨rfl, .refl (faithful_of_none rfl), h.snapshots⟩
  | peek => exact absurd rfl hc
  | skipData =>
    obtain ⟨hdone, hlexer⟩ := h.lexer.skipData
    exact ⟨congrArg Answer.skipped hdone, hlexer, h.snapshots⟩
  | snapshot =>
    exact ⟨congrArg Answer.kept h.snapshots.length_eq, h.lexer,
      List.rel_append h.snapshots (.cons h.lexer .nil)⟩
  | restore k => exact ⟨rfl, abreast_getD h.snapshots h.lexer k, h.snapshots⟩

/-- **Without the looks ahead** the same is seen of the other calls. -/
theorem observe (calls : List Call) :
    (s.observe calls).filter (·.call ≠ .peek) = s'.observe (calls.filter (· ≠ .peek)) := by
  induction calls generalizing s s' with
  | nil => rfl
  | cons c calls ih =>
    by_cases hc : c = .peek
    · subst hc
      rw [List.filter_cons_of_neg (by simp), ← ih h.peek, Session.observe,
        List.filter_cons_of_neg (by simp)]
    · obtain ⟨hanswer, hnext⟩ := h.call c hc
      rw [List.filter_cons_of_pos (by simp [hc]), Session.observe, Session.observe,
        List.filter_cons_of_pos (by simp [hc]), ih hnext, hanswer, hnext.lexer.rest_eq]

/-- **Without the looks ahead** the session comes to the same place. -/
theorem run (calls : List Call) : Abreast (s.run calls) (s'.run (calls.filter (· ≠ .peek))) := by
  induction calls generalizing s s' with
  | nil => exact h
  | cons c calls ih =>
    by_cases hc : c = .peek
    · subst hc
      rw [List.filter_cons_of_neg (by simp)]
      exact ih h.peek
    · rw [List.filter_cons_of_pos (by simp [hc])]
      exact ih (h.call c hc).2

end Abreast

/-- A look ahead is answered with what would be taken. -/
theorem answer_peek (s : Session) : (s.call .peek).1 = (s.call .next).1 := by
  rw [call, call, Lexer.peek, Lexer.next]
  rcases s.lexer.ahead with e | _ | ⟨t, r⟩ <;> rfl

end Session

/-- **Looking ahead is not seen.** Whatever is called on a lexer, the calls that are no looks ahead
have the same answers and leave the same text as they do without these. A look ahead gives what
would be taken at that moment, and leaves the text as it is. -/
theorem peek_unseen (text : String) (calls : List Call) :
    ((Session.ofString text).observe calls).filter (·.call ≠ .peek)
        = (Session.ofString text).observe (calls.filter (· ≠ .peek)) ∧
      (((Session.ofString text).run calls).call .peek).1
        = (((Session.ofString text).run calls).call .next).1 ∧
      (((Session.ofString text).run calls).call .peek).2.lexer.rest
        = ((Session.ofString text).run calls).lexer.rest := by
  have hstart := Session.abreast_ofString text
  have hreached := hstart.run calls
  refine ⟨hstart.observe calls, Session.answer_peek _, ?_⟩
  exact hreached.peek.lexer.rest_eq.trans hreached.lexer.rest_eq.symm

end TreePointer.Lexer
