import TreePointer.Forest.Basic

/-!
# The nodes of a subtree in order

`preorder` lists a node, then the subtrees of its children from first to last. Child lists are
followed as they are stored; a forest with as many nodes as `size` has no deeper level than that.

A node that was given to several parents is below each of them, so a subtree may have many more
places than the forest has nodes. Walks that can end early therefore go down by themselves and look
at no node past their end; they give what they would give on the list.

Modelled is `string_value` (`stringValue`); `findBelow?` is the search of `element_by_id`, and
`visit` the order in which `CharStream` comes to nodes.

* `preorder_eq_within`: the list, level by level.
* `findBelow?_eq`: the first node that meets a condition is the first on the list.
* `visit_eq`: a walk that a step may stop is the run of that step over the list.
* `stringValue`: the text of a subtree.
-/

namespace TreePointer.Forest

/-! ## The list -/

/-- The nodes on the first `k` levels of a subtree. -/
def preorderWithin (f : Forest) : Nat → Node → List Node
  | 0, _ => []
  | k + 1, n => n :: (f.children n).flatMap (preorderWithin f k)

/-- The nodes on the first `k` levels of a subtree, put before a list. -/
def preorderOnto (f : Forest) : Nat → Node → List Node → List Node
  | 0, _, rest => rest
  | k + 1, n, rest => n :: (f.children n).foldr (preorderOnto f k) rest

/-- The node and all nodes below it, each before its children. -/
def preorder (f : Forest) (n : Node) : List Node :=
  f.preorderOnto f.size n []

theorem preorderOnto_eq (f : Forest) (k : Nat) (n : Node) (rest : List Node) :
    f.preorderOnto k n rest = f.preorderWithin k n ++ rest := by
  induction k generalizing n rest with
  | zero => rfl
  | succ k ih =>
    rw [preorderOnto, preorderWithin, List.cons_append]
    congr 1
    induction f.children n with
    | nil => rfl
    | cons c cs ihc => rw [List.foldr_cons, ihc, ih, List.flatMap_cons, List.append_assoc]

theorem preorder_eq_within (f : Forest) (n : Node) : f.preorder n = f.preorderWithin f.size n := by
  rw [preorder, preorderOnto_eq, List.append_nil]

/-! ## Walks that end early -/

/-- The first node on the first `k` levels of a subtree that meets a condition. -/
def findWithin (f : Forest) (accept : Node → Bool) : Nat → Node → Option Node
  | 0, _ => none
  | k + 1, n => if accept n then some n else (f.children n).findSome? (findWithin f accept k)

/-- The first node of a subtree that meets a condition. -/
def findBelow? (f : Forest) (accept : Node → Bool) (n : Node) : Option Node :=
  f.findWithin accept f.size n

theorem findWithin_eq (f : Forest) (accept : Node → Bool) (k : Nat) (n : Node) :
    f.findWithin accept k n = (f.preorderWithin k n).find? accept := by
  induction k generalizing n with
  | zero => rfl
  | succ k ih =>
    rw [findWithin, preorderWithin, List.find?_cons, List.find?_flatMap]
    cases accept n <;> simp [funext ih]

theorem findBelow?_eq (f : Forest) (accept : Node → Bool) (n : Node) :
    f.findBelow? accept n = (f.preorder n).find? accept := by
  rw [findBelow?, findWithin_eq, preorder_eq_within]

/-- Feeds the nodes on the first `k` levels of a subtree to a step. -/
def visitWithin {ρ σ : Type} (f : Forest) (step : σ → Node → Except ρ σ) :
    Nat → σ → Node → Except ρ σ
  | 0, s, _ => .ok s
  | k + 1, s, n => do (f.children n).foldlM (visitWithin f step k) (← step s n)

/-- Feeds the nodes of a subtree in order to a step, which turns one state into the next or stops
the walk with an answer. -/
def visit {ρ σ : Type} (f : Forest) (step : σ → Node → Except ρ σ) (s : σ) (n : Node) :
    Except ρ σ :=
  f.visitWithin step f.size s n

/-- Running a step over lists one after the other is running it over all of them. -/
theorem foldlM_flatMap {α β ρ σ : Type} (step : σ → β → Except ρ σ) (g : α → List β)
    (xs : List α) (s : σ) :
    (xs.flatMap g).foldlM step s = xs.foldlM (fun s a => (g a).foldlM step s) s := by
  induction xs generalizing s with
  | nil => rfl
  | cons x xs ih => simp only [List.flatMap_cons, List.foldlM_append, List.foldlM_cons, ih]

theorem visitWithin_eq {ρ σ : Type} (f : Forest) (step : σ → Node → Except ρ σ) (k : Nat) (s : σ)
    (n : Node) : f.visitWithin step k s n = (f.preorderWithin k n).foldlM step s := by
  induction k generalizing s n with
  | zero => rfl
  | succ k ih =>
    have hk : f.visitWithin step k = fun s c => (f.preorderWithin k c).foldlM step s :=
      funext fun s => funext (ih s)
    simp only [visitWithin, preorderWithin, List.foldlM_cons, foldlM_flatMap, hk]

theorem visit_eq {ρ σ : Type} (f : Forest) (step : σ → Node → Except ρ σ) (s : σ) (n : Node) :
    f.visit step s n = (f.preorder n).foldlM step s := by
  rw [visit, visitWithin_eq, preorder_eq_within]

/-! ## Text -/

/-- The text of all text nodes of a subtree, or the data of a node that is no container. -/
def stringValue (f : Forest) (n : Node) : String :=
  if (f.kind n).isContainer then
    String.ofList (((f.preorder n).filter f.isText).flatMap f.characters)
  else (f.value n).getD ""

end TreePointer.Forest
