import TreePointer.Proofs.Token.Faults
import TreePointer.Proofs.Token.Lossless
import TreePointer.Proofs.Token.Peeking
import TreePointer.Proofs.Token.SkippedData

/-!
# What is left is an end of the text

A lexer goes through its text from the front. It may hold a token, go back to a place that was kept,
or pass over data without reading it: what it has left is always an end of the text, and so is what
a fault that it gives reports.

* `Fault.IsIn`: what a fault reports is an end of a text.
* `Inside`: what a lexer has left is one, and what it would have left behind the token it holds.
* `ReadsInside`, `StaysInside`: readers that keep both.
* `Inside.next`, `Inside.peek`, `Inside.skipData`, `Inside.expect`: the calls of a lexer.
* `Session.Inside.call`, `Session.Inside.observe`: one call in a session, and any number of calls.
-/

namespace TreePointer

/-- If the fault is in the text of an address, what it reports is an end of this text. -/
def Fault.IsIn (text : List Char) : Fault → Prop
  | .malformed _ remaining => remaining <:+ text
  | _ => True

namespace Lexer

/-- What is left before the lexer is an end of the text, and so is what is behind the token that it
holds. -/
structure Inside (text : List Char) (l : Lexer) : Prop where
  rest : l.rest <:+ text
  held : ∀ found, l.held = some found → found.2 <:+ text

/-- A reader that stays inside a text. -/
abbrev ReadsInside {α : Type} (text : List Char) (x : Except Fault (α × Lexer)) : Prop :=
  Gives (Fault.IsIn text) (fun p => p.2.Inside text) x

/-- A reader of nothing that stays inside a text. -/
abbrev StaysInside (text : List Char) (x : Except Fault Lexer) : Prop :=
  Gives (Fault.IsIn text) (Inside text) x

variable {text rest : List Char} {l : Lexer}

theorem inside_of_rest (h : rest <:+ text) (previous : Option Token) :
    Inside text ⟨rest, none, previous⟩ := by
  refine ⟨h, ?_⟩
  rintro found ⟨⟩

theorem inside_ofString (text : String) : (ofString text).Inside text.toList :=
  inside_of_rest List.suffix_rfl none

namespace Inside

variable (h : l.Inside text)

include h

theorem fault (cause : SyntaxFault) : (l.fault cause).IsIn text := h.rest

/-! ## Taking tokens -/

theorem scan : Gives (Fault.IsIn text) (fun found => ∀ p ∈ found, p.2 <:+ text) l.scan := by
  cases hscan : l.scan with
  | ok found =>
    refine .ok fun p hp => ?_
    obtain ⟨t, r⟩ := p
    obtain rfl : found = some (t, r) := hp
    exact (scan_shorter hscan).1.trans h.rest
  | error e =>
    refine .error ?_
    rcases l.scan_fails_at e hscan with ⟨cause, rfl⟩ | ⟨cause, rfl⟩
    · exact h.fault cause
    · trivial

theorem ahead : Gives (Fault.IsIn text) (fun found => ∀ p ∈ found, p.2 <:+ text) l.ahead := by
  unfold Lexer.ahead
  split
  · next found hheld =>
    refine .ok fun p hp => ?_
    obtain rfl : found = p := Option.some.inj hp
    exact h.held found hheld
  · exact h.scan

/-- **Taking a token** stays inside the text. -/
theorem next : ReadsInside text l.next := by
  refine h.ahead.bind fun found hfound => ?_
  cases found with
  | none => exact .ok h
  | some p => exact .ok (inside_of_rest (hfound p rfl) _)

/-- **Looking at a token** stays inside the text. -/
theorem peek : ReadsInside text l.peek :=
  h.ahead.bind fun _ hfound => .ok ⟨h.rest, hfound⟩

theorem expect (e : Expected) : ReadsInside text (l.expect e) := by
  refine h.next.bind fun ⟨t, l⟩ hl => ?_
  cases t with
  | some t => exact .ok hl
  | none => exact .error (hl.fault _)

theorem expectToken (token : Token) (e : Expected) : StaysInside text (l.expectToken token e) := by
  refine (h.expect e).bind fun ⟨t, l⟩ hl => ?_
  dsimp only
  split
  · exact .ok hl
  · exact .error (hl.fault _)

theorem expectFence (fence : Fence) : StaysInside text (l.expectFence fence) :=
  h.expectToken _ _

theorem expectComma : StaysInside text l.expectComma :=
  h.expectToken _ _

theorem expectInteger (e : Expected) : ReadsInside text (l.expectInteger e) := by
  refine (h.expect e).bind fun ⟨t, l⟩ hl => ?_
  cases t with
  | number x =>
    dsimp only
    split
    · exact .ok hl
    · exact .error (hl.fault _)
  | _ => exact .error (hl.fault _)

theorem expectIndex : ReadsInside text l.expectIndex := by
  refine (h.expect .childIndex).bind fun ⟨t, l⟩ hl => ?_
  cases t with
  | number x =>
    dsimp only
    split
    · exact .ok hl
    · exact .error (hl.fault _)
  | _ => exact .error (hl.fault _)

/-! ## Passing over data -/

/-- **Passing over data** stays inside the text, whether it comes to the end of the data or not. -/
theorem skipData : FailsIn (Fault.IsIn text) l.skipData.1 ∧ l.skipData.2.Inside text := by
  have hnext := h.next
  unfold Lexer.skipData
  split
  · next e he => exact ⟨.error (hnext.fails e he), h⟩
  · next m he =>
    have hm : m.Inside text := (he ▸ hnext).of_toOption rfl
    exact ⟨.error (hm.fault _), hm⟩
  · next t m he =>
    have hm : m.Inside text := (he ▸ hnext).of_toOption rfl
    split
    · split
      · next rest hskip =>
        obtain ⟨d, hd⟩ := SchemeData.skip_eq_closed_iff.mp hskip
        have hrest : rest <:+ text :=
          ((List.suffix_cons ')' rest).trans ⟨d, hd.eq.symm⟩).trans hm.rest
        exact ⟨.ok _, inside_of_rest hrest _⟩
      · next rest hskip =>
        obtain ⟨u, hu⟩ := SchemeData.firstStray_of_skip hskip
        have hrest : rest <:+ text := List.IsSuffix.trans ⟨u, hu.eq.symm⟩ hm.rest
        exact ⟨.error hrest, hrest, hm.held⟩
      · exact ⟨.error (hm.fault _), hm⟩
    · exact ⟨.error (hm.fault _), hm⟩

end Inside

/-! ## Sessions -/

/-- The fault that a call answers. -/
def Answer.fault? : Answer → Option Fault
  | .token (.error e) | .skipped (.error e) => some e
  | _ => none

namespace Session

variable {s : Session}

/-- The lexer of a session is inside a text, and so are the snapshots. -/
structure Inside (text : List Char) (s : Session) : Prop where
  lexer : s.lexer.Inside text
  snapshots : ∀ l ∈ s.snapshots, l.Inside text

theorem inside_ofString (text : String) : (ofString text).Inside text.toList :=
  ⟨Lexer.inside_ofString text, fun _ hl => absurd hl List.not_mem_nil⟩

namespace Inside

variable (h : s.Inside text)

include h

theorem reading {x : Except Fault (Option Token × Lexer)} (hx : ReadsInside text x) :
    (∀ e, (s.reading x).1.fault? = some e → e.IsIn text) ∧ (s.reading x).2.Inside text := by
  cases hx with
  | ok hl =>
    refine ⟨?_, hl, h.snapshots⟩
    rintro e ⟨⟩
  | error he =>
    refine ⟨?_, h⟩
    rintro e ⟨⟩
    exact he

/-- **Every call** keeps a session inside the text, and so is the fault that it answers. -/
theorem call (c : Call) :
    (∀ e, (s.call c).1.fault? = some e → e.IsIn text) ∧ (s.call c).2.Inside text := by
  cases c with
  | next => exact h.reading h.lexer.next
  | peek => exact h.reading h.lexer.peek
  | skipData =>
    obtain ⟨hfault, hlexer⟩ := h.lexer.skipData
    refine ⟨fun e he => hfault e ?_, hlexer, h.snapshots⟩
    have hanswer : (Answer.skipped s.lexer.skipData.1).fault? = some e := he
    cases hdone : s.lexer.skipData.1 with
    | ok => rw [hdone] at hanswer; cases hanswer
    | error e' => rw [hdone] at hanswer; cases hanswer; rfl
  | snapshot =>
    refine ⟨?_, h.lexer, fun l hl => ?_⟩
    · rintro e ⟨⟩
    · rcases List.mem_append.mp hl with hl | hl
      · exact h.snapshots l hl
      · rw [List.mem_singleton.mp hl]
        exact h.lexer
  | restore k =>
    refine ⟨?_, ?_, h.snapshots⟩
    · rintro e ⟨⟩
    · dsimp only [Session.call]
      cases hk : s.snapshots[k]? with
      | none => exact h.lexer
      | some l => exact h.snapshots l (List.mem_of_getElem? hk)

end Inside

/-- **Whatever is called**, all that is left and all that is reported is an end of the text. -/
theorem Inside.observe (h : s.Inside text) (calls : List Call) :
    ∀ o ∈ s.observe calls,
      o.remaining <:+ text ∧ ∀ e, o.answer.fault? = some e → e.IsIn text := by
  induction calls generalizing s with
  | nil => exact fun o ho => absurd ho List.not_mem_nil
  | cons c calls ih =>
    obtain ⟨hfault, hcall⟩ := h.call c
    intro o ho
    rcases List.mem_cons.mp ho with rfl | ho
    · exact ⟨hcall.lexer.rest, hfault⟩
    · exact ih hcall o ho

end Session

end Lexer

end TreePointer
