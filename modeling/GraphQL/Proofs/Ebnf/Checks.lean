import GraphQL.Proofs.Ebnf.Edges
import GraphQL.Tree.View

/-!
# Checks of the productions

Every construct of a tree is described by one of the productions of the language, so what holds of
all productions for a kind of construct holds of every construct of this kind. `passes` goes through
the productions that an expression contains or refers to.

A constant expression has no place for a variable, however deep. The trees that it stands for
mention none, and there is no dollar sign among their tokens.

Results:
1. `Occurs.passes`: what `passes` tests holds of every production.
2. `Derives.constant`: what a constant expression describes mentions no variable.
3. `Derives.exists_value`: a construct that ends with a constant value holds that value.
-/

namespace GraphQL

namespace Tree

theorem isConst_token (x : PlacedToken) : (token x).isConst = true := by
  simp only [isConst]

theorem isConst_variable (ps : List Tree) : (node .variable ps).isConst = false := by
  simp only [isConst]

theorem isConst_node {k : NodeKind} (other : k ≠ .variable) (ps : List Tree) :
    (node k ps).isConst = allConst ps := by
  unfold isConst
  split
  · next h => cases h
  · next h => exact absurd (Tree.node.inj h).1 other
  · next h =>
    obtain ⟨-, rfl⟩ := Tree.node.inj h
    rfl

@[simp] theorem allConst_nil : allConst [] = true := by
  simp only [allConst]

@[simp] theorem allConst_cons (t : Tree) (ts : List Tree) :
    allConst (t :: ts) = (t.isConst && allConst ts) := by
  simp only [allConst]

@[simp] theorem allConst_append (ts us : List Tree) :
    allConst (ts ++ us) = (allConst ts && allConst us) := by
  induction ts with
  | nil => simp
  | cons t ts ih => simp [ih, Bool.and_assoc]

end Tree

namespace Ebnf

/-! ## Productions -/

/-- The productions in the expression pass the test, and the recursive constructs that it refers to
are among the given ones. -/
def passes (rules : List Rule) (test : NodeKind → Ebnf → Bool) : Ebnf → Bool
  | empty | never | terminal _ | hidden _ => true
  | seq e f | alt e f => e.passes rules test && f.passes rules test
  | star e => e.passes rules test
  | node k e => test k e && e.passes rules test
  | ref r => rules.contains r

theorem Occurs.passes {rules : List Rule} {test : NodeKind → Ebnf → Bool}
    (closed : ∀ r ∈ rules, (ofRule r).passes rules test = true) {p e : Ebnf} (h : Occurs p e)
    (he : e.passes rules test = true) : p.passes rules test = true := by
  induction h with
  | here => exact he
  | first _ ih | left _ ih =>
    simp only [Ebnf.passes, Bool.and_eq_true] at he
    exact ih he.1
  | second _ ih | right _ ih =>
    simp only [Ebnf.passes, Bool.and_eq_true] at he
    exact ih he.2
  | item _ ih => exact ih he
  | body _ ih =>
    simp only [Ebnf.passes, Bool.and_eq_true] at he
    exact ih he.2
  | @rule r _ ih => exact ih (closed r (List.contains_iff_mem.mp he))

/-- A production that occurs in an expression passes the test if all of them do. -/
theorem Occurs.tested {rules : List Rule} {test : NodeKind → Ebnf → Bool}
    (closed : ∀ r ∈ rules, (ofRule r).passes rules test = true) {k : NodeKind} {body e : Ebnf}
    (h : Occurs (.node k body) e) (he : e.passes rules test = true) : test k body = true := by
  have passed := h.passes closed he
  simp only [Ebnf.passes, Bool.and_eq_true] at passed
  exact passed.1

/-! ## Constant expressions -/

/-- There is no place for a dollar sign or a variable in the expression, and all values that it
refers to are constant. -/
def constant : Ebnf → Bool
  | empty | never => true
  | terminal t | hidden t => t ≠ .kind .dollar
  | seq e f | alt e f => e.constant && f.constant
  | star e => e.constant
  | node k e => k ≠ .variable && e.constant
  | ref r => r = .type || r = .value true

theorem constant_ofRule {r : Rule} (h : (ref r).constant = true) : (ofRule r).constant = true := by
  simp only [constant, Bool.or_eq_true, decide_eq_true_eq] at h
  rcases h with rfl | rfl <;> rfl

/-- What a constant expression describes mentions no variable. -/
theorem Derives.constant {e : Ebnf} {xs : List PlacedToken} {ts : List Tree} (h : Derives e xs ts)
    (he : e.constant = true) :
    Tree.allConst ts = true ∧ ∀ x ∈ xs, x.token.kind ≠ .dollar := by
  induction h with
  | empty => exact ⟨rfl, nofun⟩
  | @terminal t x accepted =>
    refine ⟨by simp [Tree.isConst_token], fun y hy => ?_⟩
    obtain rfl := List.mem_singleton.mp hy
    exact Terminal.kind_ne_of_accepts (by decide) (of_decide_eq_true he) accepted
  | @hidden t x accepted =>
    refine ⟨rfl, fun y hy => ?_⟩
    obtain rfl := List.mem_singleton.mp hy
    exact Terminal.kind_ne_of_accepts (by decide) (of_decide_eq_true he) accepted
  | seq _ _ ihe ihf =>
    simp only [Ebnf.constant, Bool.and_eq_true] at he
    obtain ⟨first, before⟩ := ihe he.1
    obtain ⟨second, behind⟩ := ihf he.2
    refine ⟨by rw [Tree.allConst_append, first, second]; rfl, fun x hx => ?_⟩
    exact (List.mem_append.mp hx).elim (before x) (behind x)
  | left _ ih =>
    simp only [Ebnf.constant, Bool.and_eq_true] at he
    exact ih he.1
  | right _ ih =>
    simp only [Ebnf.constant, Bool.and_eq_true] at he
    exact ih he.2
  | starNil => exact ⟨rfl, nofun⟩
  | starCons _ _ ihe ihs =>
    obtain ⟨first, before⟩ := ihe he
    obtain ⟨second, behind⟩ := ihs he
    refine ⟨by rw [Tree.allConst_append, first, second]; rfl, fun x hx => ?_⟩
    exact (List.mem_append.mp hx).elim (before x) (behind x)
  | node _ ih =>
    simp only [Ebnf.constant, Bool.and_eq_true, decide_eq_true_eq] at he
    obtain ⟨parts, tokens⟩ := ih he.2
    exact ⟨by simp [Tree.isConst_node he.1, parts], tokens⟩
  | ref _ ih => exact ih (constant_ofRule he)

/-! ## Constant values -/

/-- The expression consists of leaves and names and, at last, a constant value. -/
def endsConstant : Ebnf → Bool
  | ref r => r = .value true
  | seq (terminal _) e => e.endsConstant
  | seq (node k _) e => k = .name && e.endsConstant
  | _ => false

/-- What a value is described as is a value. -/
theorem Derives.isValue {constant : Bool} {xs : List PlacedToken} {ts : List Tree}
    (h : Derives (.ref (.value constant)) xs ts) : ∃ v, ts = [v] ∧ v.isValue = true := by
  cases h with
  | ref h =>
    obtain ⟨k, hk, ps, rfl⟩ := h.exists_node (single_ofRule _)
    refine ⟨_, rfl, ?_⟩
    have kinds : ∀ k ∈ (ofRule (.value constant)).heads,
        k ∈ [NodeKind.variable, .literalValue, .nameValue, .listValue, .objectValue] := by
      cases constant <;> decide
    have listed := kinds k hk
    simp only [List.mem_cons, List.not_mem_nil, or_false] at listed
    rcases listed with rfl | rfl | rfl | rfl | rfl <;> rfl

/-- A construct that ends with a constant value holds this value. -/
theorem Derives.exists_value {e : Ebnf} (ends : e.endsConstant = true) {xs : List PlacedToken}
    {ps : List Tree} (h : Derives e xs ps) :
    ∃ v, ps.find? Tree.isValue = some v ∧ v.isConst = true := by
  fun_induction endsConstant e generalizing xs ps with
  | case1 r =>
    obtain rfl := of_decide_eq_true ends
    obtain ⟨v, rfl, value⟩ := h.isValue
    have const := (h.constant rfl).1
    simp only [Tree.allConst_cons, Tree.allConst_nil, Bool.and_true] at const
    exact ⟨v, List.find?_cons_of_pos value, const⟩
  | case2 t e ih =>
    cases h with
    | seq leaf others =>
      obtain ⟨v, found, const⟩ := ih ends others
      cases leaf with
      | terminal => exact ⟨v, found, const⟩
  | case3 k f e ih =>
    simp only [Bool.and_eq_true, decide_eq_true_eq] at ends
    obtain ⟨rfl, ends⟩ := ends
    cases h with
    | seq name others =>
      obtain ⟨v, found, const⟩ := ih ends others
      cases name with
      | node => exact ⟨v, found, const⟩
  | case4 => cases ends

end Ebnf

end GraphQL
