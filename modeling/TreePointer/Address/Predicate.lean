import TreePointer.Address.Location
import TreePointer.Splice

/-!
# Predicates

A predicate in square brackets holds an expression. Its value is read either as positions or as a
truth value, and selects among the children that a step has found.

Modelled are `Predicate`, `coerce` (`ofContext`) and what `name_step` does with a predicate
(`apply`).

* `Predicate.ofContext` reads a value, `Predicate.apply` selects by it.
-/

namespace TreePointer

/-- What the value of a predicate means. -/
inductive Predicate where
  /-- Keep what is at these positions. -/
  | positions (xs : List Binary64)
  | keep
  | drop
deriving DecidableEq, Repr

/-- The number an entry is, if it is one. -/
def Location.number? : Location → Option Binary64
  | .number x => some x
  | _ => none

/-- Whether a value that is no list of numbers counts as true. The empty string, false and ranges
do not. -/
def Location.isTrue : Location → Bool
  | .literal s => s != ""
  | .boolean b => b
  | .range _ => false
  | _ => true

/-- The spliced children of some nodes that meet a condition. -/
def Forest.matching (f : Forest) (accept : Node → Bool) (ns : List Node) : Context :=
  ns.flatMap fun p => ((f.spliced p).filter accept).map .node

namespace Predicate

/-- Reads a value as a predicate. No entries are false, numbers are positions, and of anything else
the first entry decides. -/
def ofContext : Context → Predicate
  | [] => .drop
  | first :: rest =>
    match (first :: rest).mapM Location.number? with
    | some xs => .positions xs
    | none => if first.isTrue then .keep else .drop

/-- The entries of a list at some positions, counted from one. -/
def select (xs : List Binary64) (ctx : Context) : Context :=
  (ctx.zipIdx.filter fun (_, i) => xs.any fun x => x.position? == some (i + 1)).map Prod.fst

/-- Of each node the child that has position `x` among those that meet a condition. -/
def nthOfEach (f : Forest) (accept : Node → Bool) (ns : List Node) (x : Binary64) : Context :=
  match x.position? with
  | none => []
  | some index => ns.filterMap fun p =>
    match f.nthChild p index accept with
    | .found c => some (.node c)
    | .count _ => none

/-- What a predicate leaves of the candidates, where `none` stands for all children that meet the
condition. A single position that comes first counts the children of each node by themselves; all
other positions count the candidates. -/
def apply (f : Forest) (accept : Node → Bool) (ns : List Node) (candidates : Option Context) :
    Predicate → Option Context
  | .keep => candidates
  | .drop => some []
  | .positions xs =>
    match candidates, xs with
    | none, [x] => some (nthOfEach f accept ns x)
    | _, _ => some (select xs (candidates.getD (f.matching accept ns)))

end Predicate

end TreePointer
