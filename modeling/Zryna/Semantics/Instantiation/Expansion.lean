import Mathlib.Data.List.MinMax
import Zryna.Foundation.Marking
import Zryna.Semantics.Instantiation.Builder

/-!
# Expanding applications

Canonical simple witnesses within the graph of applications that declarations generate: a path from
another instance of the same declaration to the origin of a new application.
-/

namespace Zryna.Semantics.Instantiation.Expansion

/-- Depth-first descent to a node. Each node of the stack has the children that are left. -/
def descend (forward : ℕ → List ℕ) (goal : ℕ) (visited : List Bool)
    (stack : List (ℕ × List ℕ)) : Option (List ℕ) :=
  match stack with
  | [] => none
  | (id, children) :: below =>
    if id = goal then some ((id :: below.map Prod.fst).reverse)
    else
      match children with
      | [] => descend forward goal visited below
      | child :: children =>
        if visited[child]? = some false then
          descend forward goal (visited.set child true)
            ((child, forward child) :: (id, children) :: below)
        else descend forward goal visited ((id, children) :: below)
termination_by (visited.count false, (stack.map fun frame => frame.2.length + 1).sum)
decreasing_by
  · exact .right _ (by simp)
  · next h => exact .left _ _ (by have := count_set_true h; omega)
  · exact .right _ (by simp)

/-- The least origin by key that leads to `source`, and the first path from it. -/
def canonicalPath (keys : List (List UInt8)) (reverse : List (List ℕ)) (origins : List ℕ)
    (source target : ℕ) : Except InstantiationFailure (Option (List ℕ)) :=
  let key (id : ℕ) : List UInt8 := keys.getD id []
  let parents (id : ℕ) : List ℕ := reverse.getD id []
  let unmarked := List.replicate keys.length false
  let reachable := markFrom parents unmarked [source]
  match (origins.filter fun id => reachable[id]? = some true).argmin key with
  | none => .ok none
  | some root =>
    let forward (id : ℕ) : List ℕ :=
      ((List.range reverse.length).filter fun child =>
        reachable[child]? = some true ∧ reachable[id]? = some true ∧ id ∈ parents child).insertionSort
          fun a b => key a ≤ key b
    match descend forward source (unmarked.set root true) [(root, forward root)] with
    | some path => .ok (some (path ++ [target]))
    | none => .error .internalFailure

/-- A path from another instance of the declaration of `target`, when there is one. -/
def path (bodies : BodyTypes) (builder : Builder) (source target : ℕ) :
    Except InstantiationFailure (Option (List ℕ)) :=
  match builder.types[target]? with
  | none => .error .internalFailure
  | some node =>
    match node.shape with
    | .nominal _ =>
      if !Builder.generic bodies node.shape then .ok none
      else
        let origins := (List.range builder.types.length).filter fun id =>
          id ≠ target ∧ (builder.types[id]?).map Node.shape = some node.shape
        canonicalPath (builder.types.map Node.key) builder.generatedReverse origins source target
    | _ => .ok none

end Zryna.Semantics.Instantiation.Expansion
