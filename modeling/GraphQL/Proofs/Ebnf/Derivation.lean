import GraphQL.Proofs.Ebnf.Productions

/-!
# Derivations

`Ebnf.Derives` is the meaning of the grammar in EBNF, an inductive relation with one rule for each
form of expression. A row of tokens is a text of the language if it is related to a tree.

Results:
1. `Derives.bare`: a derivation stays one when all positions are forgotten; a token or a tree is
   bare when it has none.
2. `Derives.ne_nil`: which expressions do not describe the empty row.
3. `slice_append`, `slice_eq_append`: how rows of tokens are cut out of an infinite tape.
-/

namespace GraphQL

/-- The token without its positions. -/
def PlacedToken.bare (t : PlacedToken) : PlacedToken := ⟨t.token, .none, .none⟩

namespace Tree

mutual

/-- The tree without the positions of its tokens. -/
def bare : Tree → Tree
  | token t => token t.bare
  | node k ps => node k (bareOf ps)

/-- A row of trees without the positions of their tokens. -/
def bareOf : List Tree → List Tree
  | [] => []
  | t :: ts => t.bare :: bareOf ts

end

@[simp] theorem bare_token (t : PlacedToken) : (token t).bare = token t.bare := by
  simp only [bare]

@[simp] theorem bare_node (k : NodeKind) (ps : List Tree) :
    (node k ps).bare = node k (bareOf ps) := by
  simp only [bare]

@[simp] theorem bareOf_nil : bareOf [] = [] := by
  simp only [bareOf]

@[simp] theorem bareOf_cons (t : Tree) (ts : List Tree) :
    bareOf (t :: ts) = t.bare :: bareOf ts := by
  simp only [bareOf]

@[simp] theorem bareOf_append (ts us : List Tree) : bareOf (ts ++ us) = bareOf ts ++ bareOf us := by
  induction ts with
  | nil => simp
  | cons t ts ih => simp [ih]

end Tree

namespace Ebnf

/-- `Derives e xs ts`: the row of tokens `xs` is one of those that `e` describes, and `ts` are the
trees that it stands for. -/
inductive Derives : Ebnf → List PlacedToken → List Tree → Prop
  | empty : Derives .empty [] []
  | terminal {t : Terminal} {x : PlacedToken} :
      t.accepts x.token = true → Derives (.terminal t) [x] [.token x]
  | hidden {t : Terminal} {x : PlacedToken} :
      t.accepts x.token = true → Derives (.hidden t) [x] []
  | seq {e f : Ebnf} {xs ys : List PlacedToken} {ts us : List Tree} :
      Derives e xs ts → Derives f ys us → Derives (.seq e f) (xs ++ ys) (ts ++ us)
  | left {e f : Ebnf} {xs : List PlacedToken} {ts : List Tree} :
      Derives e xs ts → Derives (.alt e f) xs ts
  | right {e f : Ebnf} {xs : List PlacedToken} {ts : List Tree} :
      Derives f xs ts → Derives (.alt e f) xs ts
  | starNil {e : Ebnf} : Derives (.star e) [] []
  | starCons {e : Ebnf} {xs ys : List PlacedToken} {ts us : List Tree} :
      Derives e xs ts → Derives (.star e) ys us → Derives (.star e) (xs ++ ys) (ts ++ us)
  | node {k : NodeKind} {e : Ebnf} {xs : List PlacedToken} {ts : List Tree} :
      Derives e xs ts → Derives (.node k e) xs [.node k ts]
  | ref {r : Rule} {xs : List PlacedToken} {ts : List Tree} :
      Derives (ofRule r) xs ts → Derives (.ref r) xs ts

/-- Positions play no part in a derivation. -/
theorem Derives.bare {e : Ebnf} {xs : List PlacedToken} {ts : List Tree} (h : Derives e xs ts) :
    Derives e (xs.map PlacedToken.bare) (Tree.bareOf ts) := by
  induction h with
  | empty => simpa using Derives.empty
  | @terminal t x accepted => simpa using Derives.terminal (x := x.bare) accepted
  | @hidden t x accepted => simpa using Derives.hidden (x := x.bare) accepted
  | seq _ _ ihe ihf => simpa using ihe.seq ihf
  | left _ ih => exact ih.left
  | right _ ih => exact ih.right
  | starNil => simpa using Derives.starNil
  | starCons _ _ ihe ihs => simpa using ihe.starCons ihs
  | node _ ih => simpa using ih.node
  | ref _ ih => exact ih.ref

/-- Two rows of texts are a row of texts. -/
theorem Derives.star_append {e : Ebnf} {xs ys : List PlacedToken} {ts us : List Tree}
    (h : Derives (.star e) xs ts) (h' : Derives (.star e) ys us) :
    Derives (.star e) (xs ++ ys) (ts ++ us) := by
  generalize hs : Ebnf.star e = s at h
  induction h with
  | starNil => exact hs ▸ h'
  | starCons first _ _ ih =>
    obtain rfl := Ebnf.star.inj hs
    rw [List.append_assoc, List.append_assoc]
    exact first.starCons (ih rfl)
  | _ => cases hs

/-- The expression describes no empty row of tokens. -/
def consumes : Ebnf → Bool
  | empty | star _ => false
  | never | terminal _ | hidden _ | ref _ => true
  | seq e f => e.consumes || f.consumes
  | alt e f => e.consumes && f.consumes
  | node _ e => e.consumes

theorem consumes_ofRule (r : Rule) : (ofRule r).consumes = true := by
  cases r with
  | value constant => cases constant <;> rfl
  | _ => rfl

theorem Derives.ne_nil {e : Ebnf} {xs : List PlacedToken} {ts : List Tree} (h : Derives e xs ts)
    (he : e.consumes = true) : xs ≠ [] := by
  induction h with
  | empty => cases he
  | terminal _ => exact List.cons_ne_nil _ _
  | hidden _ => exact List.cons_ne_nil _ _
  | seq _ _ ihe ihf =>
    simp only [consumes, Bool.or_eq_true] at he
    rcases he with he | hf
    · exact List.append_ne_nil_of_left_ne_nil (ihe he) _
    · exact List.append_ne_nil_of_right_ne_nil _ (ihf hf)
  | left _ ih =>
    simp only [consumes, Bool.and_eq_true] at he
    exact ih he.1
  | right _ ih =>
    simp only [consumes, Bool.and_eq_true] at he
    exact ih he.2
  | starNil => cases he
  | starCons _ _ _ _ => cases he
  | node _ ih => exact ih he
  | @ref r xs ts _ ih => exact ih (consumes_ofRule r)

end Ebnf

/-! ## Rows of tokens on a tape -/

/-- The tokens with numbers from `i` up to but not including `j`. -/
def slice (tape : Nat → PlacedToken) (i j : Nat) : List PlacedToken :=
  (List.range' i (j - i)).map tape

section Slice

variable (tape : Nat → PlacedToken)

@[simp] theorem slice_self (i : Nat) : slice tape i i = [] := by
  simp [slice]

@[simp] theorem slice_succ (i : Nat) : slice tape i (i + 1) = [tape i] := by
  simp [slice]

theorem slice_append {i j k : Nat} (hij : i ≤ j) (hjk : j ≤ k) :
    slice tape i j ++ slice tape j k = slice tape i k := by
  have whole : k - i = (j - i) + (k - j) := by omega
  have middle : i + (j - i) = j := by omega
  rw [slice, slice, slice, ← List.map_append, whole, ← List.range'_append_1, middle]

@[simp] theorem length_slice (i j : Nat) : (slice tape i j).length = j - i := by
  simp [slice]

variable {tape}

theorem mem_slice {i j : Nat} {x : PlacedToken} :
    x ∈ slice tape i j ↔ ∃ n, i ≤ n ∧ n < j ∧ tape n = x := by
  rw [slice, List.mem_map]
  constructor
  · rintro ⟨n, hn, rfl⟩
    rw [List.mem_range'_1] at hn
    exact ⟨n, hn.1, by omega, rfl⟩
  · rintro ⟨n, hin, hnj, rfl⟩
    exact ⟨n, List.mem_range'_1.mpr ⟨hin, by omega⟩, rfl⟩

theorem slice_eq_nil {i j : Nat} (hij : i ≤ j) (h : slice tape i j = []) : i = j := by
  have := congrArg List.length h
  simp only [length_slice, List.length_nil] at this
  omega

theorem slice_eq_singleton {i j : Nat} {x : PlacedToken} (h : slice tape i j = [x]) :
    j = i + 1 ∧ tape i = x := by
  have := congrArg List.length h
  simp only [length_slice, List.length_singleton] at this
  obtain rfl : j = i + 1 := by omega
  simpa using h

theorem head?_slice {i j : Nat} (h : i < j) : (slice tape i j).head? = some (tape i) := by
  obtain ⟨n, hn⟩ : ∃ n, j - i = n + 1 := ⟨j - i - 1, by omega⟩
  rw [slice, hn, List.range'_succ]
  rfl

theorem getLast?_slice {i j : Nat} (h : i < j) :
    (slice tape i j).getLast? = some (tape (j - 1)) := by
  have whole := slice_append tape (i := i) (j := j - 1) (k := j) (by omega) (by omega)
  have last : slice tape (j - 1) j = [tape (j - 1)] := by
    have := slice_succ tape (j - 1)
    rwa [Nat.sub_add_cancel (by omega)] at this
  rw [← whole, last]
  exact List.getLast?_concat

/-- A slice that falls into two parts is cut at some place. -/
theorem slice_eq_append {i j : Nat} {xs ys : List PlacedToken} (hij : i ≤ j)
    (h : slice tape i j = xs ++ ys) :
    ∃ m, i ≤ m ∧ m ≤ j ∧ slice tape i m = xs ∧ slice tape m j = ys := by
  have len := congrArg List.length h
  rw [length_slice, List.length_append] at len
  have him : i ≤ i + xs.length := Nat.le_add_right _ _
  have hmj : i + xs.length ≤ j := by omega
  rw [← slice_append tape him hmj] at h
  obtain ⟨first, second⟩ := List.append_inj h (by simp)
  exact ⟨_, him, hmj, first, second⟩

end Slice

end GraphQL
