import GraphQL.Tree.Basic

/-!
# Walking a tree

A walk enters a construct, then walks each of its children in source order, then leaves it. A
visitor carries a state from call to call, and by its answer to `enter` it decides whether the
children are walked. A construct whose children are skipped is not left either.
-/

namespace GraphQL

/-- What to do on entering and on leaving a construct. The answer to `enter` says whether to go
on to the children. -/
structure Visitor (σ : Type) where
  enter : Tree → σ → Bool × σ
  leave : Tree → σ → σ

namespace Tree

mutual

/-- Walks a construct and everything below it. -/
def walk {σ : Type} (v : Visitor σ) : Tree → σ → σ
  | .token _, s => s
  | .node k ps, s =>
    match v.enter (.node k ps) s with
    | (true, s) => v.leave (.node k ps) (walkParts v ps s)
    | (false, s) => s

/-- Walks the constructs of a row. -/
def walkParts {σ : Type} (v : Visitor σ) : List Tree → σ → σ
  | [], s => s
  | t :: ts, s => walkParts v ts (walk v t s)

end

/-- Walks a construct with a visitor that does nothing on leaving. -/
def inspect {σ : Type} (enter : Tree → σ → Bool × σ) (t : Tree) (s : σ) : σ :=
  t.walk ⟨enter, fun _ s => s⟩ s

mutual

/-- The constructs of a tree in the order in which a walk enters them, each with its depth. -/
def preorder (depth : Nat) : Tree → List (Nat × Tree)
  | .token _ => []
  | .node k ps => (depth, .node k ps) :: preorderOf (depth + 1) ps

/-- The constructs of a row of trees in the order of a walk. -/
def preorderOf (depth : Nat) : List Tree → List (Nat × Tree)
  | [] => []
  | t :: ts => t.preorder depth ++ preorderOf depth ts

end

/-- Goes down from a construct, taking the child with the given number at each step. Fails with
the construct that has no such child. -/
def descend : Tree → List Nat → Except Tree Tree
  | t, [] => .ok t
  | t, n :: path =>
    match t.children[n]? with
    | some child => child.descend path
    | none => .error t

end Tree

end GraphQL
