import TreePointer.Proofs.Address.Path
import TreePointer.Proofs.Tree.Check

/-!
# Checking what a document has to provide

What addresses need of a document is asked of every node below its root. The nodes below the root
are listed, so that it can be checked one node after the other.

* `Rooted.isSole_of_check`, `Rooted.lexable_of_check`, `Rooted.noWildcard_of_check`: from the checks
  of the listed nodes to the whole document.
-/

namespace TreePointer.Document

variable {f : Forest} {d : Document}

/-- Whether the tag and the id of a node, and the numbers of its children, can be read. -/
def lexesAt (f : Forest) (d : Document) (n : Node) : Bool :=
  (!f.isElement n || (d.tagOf? f n).any (fun tag => decide (Lexer.IsTag tag))) &&
    (f.attribute? n none "id").all (fun id => id.toList.all (!Unicode.isWhiteSpace ·)) &&
    decide ((f.spliced n).length < Binary64.exactBound)

instance (f : Forest) (d : Document) : Decidable (d.Rooted f) :=
  decidable_of_iff
    (f.WellFormed ∧ f.Has d.root ∧ f.kind d.root = .document ∧ f.parent d.root = none)
    ⟨fun ⟨h₁, h₂, h₃, h₄⟩ => ⟨h₁, h₂, h₃, h₄⟩, fun ⟨h₁, h₂, h₃, h₄⟩ => ⟨h₁, h₂, h₃, h₄⟩⟩

namespace Rooted

variable (hd : d.Rooted f)

include hd

theorem forall_within {P : Node → Prop} (h : ∀ n ∈ f.preorder d.root, P n) (n : Node)
    (hn : f.Within d.root n) : P n :=
  hd.wellFormed.forall_within hd.has_root h n hn

theorem isSole_of_check (h : ∀ n ∈ f.preorder d.root, f.kind n = .document → n = d.root) :
    d.IsSole f :=
  hd.forall_within h

theorem lexable_of_check (h : (f.preorder d.root).all (d.lexesAt f) = true) : d.Lexable f := by
  have hall := hd.forall_within (List.all_eq_true.mp h)
  simp only [lexesAt, Bool.and_eq_true, Bool.or_eq_true, Bool.not_eq_true', Option.any_eq_true,
    Option.all_eq_true, decide_eq_true_iff, List.all_eq_true] at hall
  refine ⟨fun n hn helement => ?_, fun n hn _ => ?_, fun n hn => (hall n hn).2⟩
  · rcases (hall n hn).1.1 with hno | htag
    · rw [helement] at hno
      cases hno
    · exact htag
  · exact (hall n hn).1.2

theorem noWildcard_of_check (h : ∀ n ∈ f.preorder d.root, d.tagOf? f n ≠ some "*") :
    d.NoWildcard f :=
  hd.forall_within h

end Rooted

end TreePointer.Document
