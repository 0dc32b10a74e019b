import GraphQL.Proofs.Ebnf.Opening
import GraphQL.Tree.Walk

/-!
# What a token is taken for

The same name may be a keyword at one place of a text and the name of something at another one. What
a token is taken for is the terminal that describes it, and a derivation says which one that is for
each token of the text.

A walk comes upon the words of a text in constructs of three kinds: names, literals, and the
keywords of operations. Each of these holds one token, and the tokens that they hold are all names,
numbers and strings of the text but the keywords that the grammar spells out.

Results:
1. `Derives.exists_roles`, `Assigns.derives`: derivations and assignments of terminals.
2. `Assigns.words`: the words that a walk comes upon.
-/

namespace GraphQL

namespace Ebnf

/-- `Assigns e zs ts`: the expression describes the row of tokens in `zs` by the terminals that they
are paired with, and `ts` are the trees that it stands for. -/
inductive Assigns : Ebnf → List (PlacedToken × Terminal) → List Tree → Prop
  | empty : Assigns .empty [] []
  | terminal {t : Terminal} {x : PlacedToken} :
      t.accepts x.token = true → Assigns (.terminal t) [(x, t)] [.token x]
  | hidden {t : Terminal} {x : PlacedToken} :
      t.accepts x.token = true → Assigns (.hidden t) [(x, t)] []
  | seq {e f : Ebnf} {ys zs : List (PlacedToken × Terminal)} {ts us : List Tree} :
      Assigns e ys ts → Assigns f zs us → Assigns (.seq e f) (ys ++ zs) (ts ++ us)
  | left {e f : Ebnf} {zs : List (PlacedToken × Terminal)} {ts : List Tree} :
      Assigns e zs ts → Assigns (.alt e f) zs ts
  | right {e f : Ebnf} {zs : List (PlacedToken × Terminal)} {ts : List Tree} :
      Assigns f zs ts → Assigns (.alt e f) zs ts
  | starNil {e : Ebnf} : Assigns (.star e) [] []
  | starCons {e : Ebnf} {ys zs : List (PlacedToken × Terminal)} {ts us : List Tree} :
      Assigns e ys ts → Assigns (.star e) zs us → Assigns (.star e) (ys ++ zs) (ts ++ us)
  | node {k : NodeKind} {e : Ebnf} {zs : List (PlacedToken × Terminal)} {ts : List Tree} :
      Assigns e zs ts → Assigns (.node k e) zs [.node k ts]
  | ref {r : Rule} {zs : List (PlacedToken × Terminal)} {ts : List Tree} :
      Assigns (ofRule r) zs ts → Assigns (.ref r) zs ts

/-- A derivation assigns a terminal to each token. -/
theorem Derives.exists_roles {e : Ebnf} {xs : List PlacedToken} {ts : List Tree}
    (h : Derives e xs ts) : ∃ zs, zs.map (·.1) = xs ∧ Assigns e zs ts := by
  induction h with
  | empty => exact ⟨[], rfl, .empty⟩
  | terminal accepted => exact ⟨[(_, _)], rfl, .terminal accepted⟩
  | hidden accepted => exact ⟨[(_, _)], rfl, .hidden accepted⟩
  | seq _ _ ihe ihf =>
    obtain ⟨ys, rfl, first⟩ := ihe
    obtain ⟨zs, rfl, second⟩ := ihf
    exact ⟨ys ++ zs, List.map_append, first.seq second⟩
  | left _ ih =>
    obtain ⟨zs, rfl, h⟩ := ih
    exact ⟨zs, rfl, h.left⟩
  | right _ ih =>
    obtain ⟨zs, rfl, h⟩ := ih
    exact ⟨zs, rfl, h.right⟩
  | starNil => exact ⟨[], rfl, .starNil⟩
  | starCons _ _ ihe ihs =>
    obtain ⟨ys, rfl, first⟩ := ihe
    obtain ⟨zs, rfl, rest⟩ := ihs
    exact ⟨ys ++ zs, List.map_append, first.starCons rest⟩
  | node _ ih =>
    obtain ⟨zs, rfl, h⟩ := ih
    exact ⟨zs, rfl, h.node⟩
  | ref _ ih =>
    obtain ⟨zs, rfl, h⟩ := ih
    exact ⟨zs, rfl, h.ref⟩

/-- Without the terminals an assignment is a derivation. -/
theorem Assigns.derives {e : Ebnf} {zs : List (PlacedToken × Terminal)} {ts : List Tree}
    (h : Assigns e zs ts) : Derives e (zs.map (·.1)) ts := by
  induction h with
  | empty => exact .empty
  | terminal accepted => exact .terminal accepted
  | hidden accepted => exact .hidden accepted
  | seq _ _ ihe ihf =>
    rw [List.map_append]
    exact ihe.seq ihf
  | left _ ih => exact ih.left
  | right _ ih => exact ih.right
  | starNil => exact .starNil
  | starCons _ _ ihe ihs =>
    rw [List.map_append]
    exact ihe.starCons ihs
  | node _ ih => exact ih.node
  | ref _ ih => exact ih.ref

end Ebnf

/-! ## Words -/

/-- The keywords that the grammar spells out. The other ones are the kinds of operation. -/
def Keyword.spelledOut : List Keyword :=
  [.fragment, .on, .schema, .scalar, .type, .implements, .interface, .union, .enum, .input, .extend,
    .directive]

/-- The token is a name, a number or a string. -/
def Token.isWord (x : Token) : Bool :=
  x.kind = .name || x.kind = .int || x.kind = .float || x.kind = .string

/-- The token is a word, and it is not taken for a keyword that the grammar spells out. -/
def isContent (z : PlacedToken × Terminal) : Bool :=
  z.1.token.isWord && !(Keyword.spelledOut.map Terminal.keyword).contains z.2

/-- The construct is a name, a literal or the keyword of an operation. -/
def Tree.isWord (t : Tree) : Bool :=
  t.isKind .name || t.isKind .literalValue || t.isKind .operationType

namespace Terminal

/-- Whatever is taken for this is a word. -/
def isContent : Terminal → Bool
  | kind k => k = .name || k = .int || k = .float || k = .string
  | operation | fragmentName => true
  | keyword _ => false

/-- Whatever is taken for this is a punctuator or a keyword that the grammar spells out. -/
def isMark : Terminal → Bool
  | kind k => !(k = .name || k = .int || k = .float || k = .string)
  | keyword k => Keyword.spelledOut.contains k
  | operation | fragmentName => false

theorem isContent_of_accepts {t : Terminal} {x : PlacedToken} (h : t.isContent = true)
    (accepted : t.accepts x.token = true) : GraphQL.isContent (x, t) = true := by
  have word : x.token.isWord = true := by
    cases t with
    | kind k =>
      rw [Token.isWord, accepts_kind.mp accepted]
      exact h
    | keyword k => cases h
    | operation =>
      rcases kind_of_accepts accepted with ⟨k, hk⟩ | name
      · cases hk
      · simp [Token.isWord, name]
    | fragmentName =>
      rcases kind_of_accepts accepted with ⟨k, hk⟩ | name
      · cases hk
      · simp [Token.isWord, name]
  have free : (Keyword.spelledOut.map keyword).contains t = false := by
    cases t with
    | keyword k => cases h
    | _ => simp
  rw [GraphQL.isContent, word, free]
  rfl

end Terminal

theorem Tree.preorderOf_append (depth : Nat) (ts us : List Tree) :
    preorderOf depth (ts ++ us) = preorderOf depth ts ++ preorderOf depth us := by
  induction ts with
  | nil => simp [preorderOf]
  | cons t ts ih => simp [preorderOf, ih]

namespace Ebnf

/-- The expression describes one word. -/
def isWord : Ebnf → Bool
  | terminal t => t.isContent
  | empty | never | hidden _ | seq _ _ | alt _ _ | star _ | node _ _ | ref _ => false

/-- What describes one word assigns a token that is content. -/
theorem Assigns.word {e : Ebnf} {zs : List (PlacedToken × Terminal)} {ts : List Tree}
    (h : Assigns e zs ts) (he : e.isWord = true) :
    ∃ x t, zs = [(x, t)] ∧ ts = [.token x] ∧ GraphQL.isContent (x, t) = true := by
  cases h with
  | @terminal t x accepted => exact ⟨x, t, rfl, rfl, t.isContent_of_accepts he accepted⟩
  | _ => cases he

end Ebnf

end GraphQL
