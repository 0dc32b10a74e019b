import GraphQL.Proofs.Ebnf.Edges
import GraphQL.Proofs.Ebnf.Roles
import GraphQL.Tree.View

/-!
# Other names

Wherever the grammar describes a name it describes every name, and only the names of fragments may
not be `on`. So the names of a text may be replaced by others, reserved words among them, as long as
the words that are taken for keywords stay what they are: the new text is described by the same
terminals, and it stands for the same trees with the new names.

Results:
1. `text?_rename`, `name?_rename`: what renamed constructs are called.
2. `named_ofRule`, `fragmented_ofRule`: where the grammar of the language describes names.
3. `Assigns.renamed`: new names lead to the renamed trees.
4. `Assigns.names`: the names of the trees are the tokens that are taken for names.
5. `Assigns.fragments`: what is taken for the name of a fragment is what a fragment is called.
-/

namespace GraphQL

/-! ## Names -/

/-- The token with another text. -/
def Token.respell (r : String → String) (x : Token) : Token := { x with text := r x.text }

/-- The token with another text, at the same place. -/
def PlacedToken.respell (r : String → String) (x : PlacedToken) : PlacedToken :=
  { x with token := x.token.respell r }

namespace Tree

/-- The tree with another text if it is a token. -/
def respell (r : String → String) : Tree → Tree
  | token x => token (x.respell r)
  | node k ps => node k ps

mutual

/-- The tree with every name in it replaced. -/
def rename (r : String → String) : Tree → Tree
  | token x => token x
  | node k ps => node k (if k = .name then ps.map (respell r) else renameOf r ps)

/-- The trees with every name in them replaced. -/
def renameOf (r : String → String) : List Tree → List Tree
  | [] => []
  | t :: ts => t.rename r :: renameOf r ts

end

theorem renameOf_eq_map (r : String → String) (ts : List Tree) :
    renameOf r ts = ts.map (rename r) := by
  induction ts with
  | nil => rw [renameOf, List.map_nil]
  | cons t ts ih => rw [renameOf, ih, List.map_cons]

theorem isKind_rename (r : String → String) (k : NodeKind) (t : Tree) :
    (t.rename r).isKind k = t.isKind k := by
  cases t with
  | token x => rw [rename]
  | node l ps => rw [rename]; rfl

/-- Among the parts of a name the same token is found, with its new text. -/
theorem token?_map_respell (r : String → String) (k : NodeKind) (ps : List Tree) :
    (node k (ps.map (respell r))).token? (·.kind = .name) =
      ((node k ps).token? (·.kind = .name)).map (PlacedToken.respell r) := by
  rw [token?, token?, parts, parts, List.findSome?_map, List.map_findSome?]
  refine congrArg (List.findSome? · ps) (funext fun p => ?_)
  cases p with
  | node l qs => rfl
  | token x =>
    by_cases kind : x.token.kind = .name <;>
      simp [respell, PlacedToken.respell, Token.respell, kind]

/-- A name that is replaced has the new text. -/
theorem text?_rename (r : String → String) {t : Tree} (name : t.isKind .name = true) :
    (t.rename r).text? = t.text?.map r := by
  cases t with
  | token x => cases name
  | node k ps =>
    obtain rfl : k = .name := Option.some.inj (of_decide_eq_true name)
    rw [rename, if_pos rfl, text?, text?, token?_map_respell, Option.map_map, Option.map_map]
    rfl

/-- A construct that is called something is called what its name is replaced by. -/
theorem name?_rename (r : String → String) {t : Tree} (other : t.isKind .name = false) :
    (t.rename r).name? = t.name?.map r := by
  cases t with
  | token x => rw [rename]; rfl
  | node k ps =>
    have different : k ≠ .name := fun same => by
      rw [same] at other
      exact Bool.noConfusion other
    rw [rename, if_neg different, renameOf_eq_map, name?, name?, child?, child?, parts, parts,
      List.find?_map]
    simp only [Function.comp_def, isKind_rename]
    cases found : ps.find? (isKind .name) with
    | none => rfl
    | some t => exact text?_rename r (List.find?_some found)

/-- The construct is a fragment or refers to one. -/
def isFragment (t : Tree) : Bool := t.isKind .fragmentDefinition || t.isKind .fragmentSpread

/-- Somewhere in the trees there is a fragment, or a reference to one, that is called `n`. -/
def NamesFragment (ts : List Tree) (n : String) : Prop :=
  ∃ t ∈ ts, ∃ u : Tree, u.Inside t ∧ u.isFragment = true ∧ u.name? = some n

namespace NamesFragment

variable {ts us : List Tree} {n : String}

theorem append_left (h : NamesFragment ts n) : NamesFragment (ts ++ us) n := by
  obtain ⟨t, ht, u, hu⟩ := h
  exact ⟨t, List.mem_append_left us ht, u, hu⟩

theorem append_right (h : NamesFragment us n) : NamesFragment (ts ++ us) n := by
  obtain ⟨t, ht, u, hu⟩ := h
  exact ⟨t, List.mem_append_right ts ht, u, hu⟩

theorem node (h : NamesFragment ts n) (k : NodeKind) : NamesFragment [.node k ts] n := by
  obtain ⟨t, ht, u, inside, fragment⟩ := h
  exact ⟨_, List.mem_singleton_self _, u, .part ht inside, fragment⟩

end NamesFragment

end Tree

namespace Terminal

/-- Whatever is taken for this is a name. -/
def isName : Terminal → Bool
  | kind k => k = .name
  | fragmentName => true
  | keyword _ | operation => false

variable {t : Terminal} {x : Token}

theorem kind_of_isName (h : t.isName = true) (accepted : t.accepts x = true) : x.kind = .name := by
  cases t with
  | kind k => exact (accepts_kind.mp accepted).trans (of_decide_eq_true h)
  | fragmentName => exact (accepts_fragmentName.mp accepted).1
  | keyword k => cases h
  | operation => cases h

/-- What is taken for a name is one whatever it is, apart from `on` for a fragment. -/
theorem accepts_respell {r : String → String} (h : t.isName = true) (accepted : t.accepts x = true)
    (allowed : t = .fragmentName → r x.text ≠ "on") : t.accepts (x.respell r) = true := by
  have name : x.kind = .name := kind_of_isName h accepted
  cases t with
  | kind k => exact accepts_kind.mpr (name.trans (of_decide_eq_true h).symm)
  | fragmentName =>
    refine accepts_fragmentName.mpr ⟨name, fun on => allowed rfl ?_⟩
    have spelled := Token.isKeyword_iff.mpr on
    simp only [Token.isKeyword, Bool.and_eq_true, decide_eq_true_eq] at spelled
    exact spelled.2
  | keyword k => cases h
  | operation => cases h

end Terminal

/-- The token of a text that is described, with another text if it is taken for a name. -/
def respellName (r : String → String) (z : PlacedToken × Terminal) : PlacedToken :=
  if z.2.isName then z.1.respell r else z.1

namespace Ebnf

/-! ## Where names are described -/

/-- The expression describes one name. -/
def isName : Ebnf → Bool
  | terminal t => t.isName
  | empty | never | hidden _ | seq _ _ | alt _ _ | star _ | node _ _ | ref _ => false

/-- Names are described where they become constructs of their own, and nowhere else. -/
def named : Ebnf → Bool
  | empty | never | ref _ => true
  | terminal t | hidden t => !t.isName
  | seq e f | alt e f => e.named && f.named
  | star e => e.named
  | node k e => if k = .name then e.isName else e.named

theorem named_ofRule (r : Rule) : (ofRule r).named = true := by
  cases r with
  | value constant => cases constant <;> rfl
  | _ => rfl

mutual

/-- Names of fragments are described as what fragments and references to them are called, and
nowhere else. -/
def fragmented : Ebnf → Bool
  | empty | never | ref _ => true
  | terminal t | hidden t => t ≠ .fragmentName
  | seq e f | alt e f => e.fragmented && f.fragmented
  | star e => e.fragmented
  | node k e => if (Tree.node k []).isFragment then e.called else e.fragmented

/-- The first name that the expression describes is what the construct is called. Before it there
are only tokens. -/
def called : Ebnf → Bool
  | seq (terminal t) f => t ≠ .fragmentName && f.called
  | seq (node k e) f => k = .name && e.isName && f.fragmented
  | _ => false

end

theorem fragmented_ofRule (r : Rule) : (ofRule r).fragmented = true := by
  cases r with
  | value constant => cases constant <;> rfl
  | _ => rfl

variable {e : Ebnf} {zs : List (PlacedToken × Terminal)} {ts : List Tree} {r : String → String}

/-- What describes one name assigns a token that is taken for a name. -/
theorem Assigns.of_isName (h : Assigns e zs ts) (he : e.isName = true) :
    ∃ x t, e = .terminal t ∧ zs = [(x, t)] ∧ ts = [.token x] ∧ t.isName = true ∧
      t.accepts x.token = true := by
  cases h with
  | @terminal t x accepted => exact ⟨x, t, rfl, rfl, rfl, he, accepted⟩
  | _ => cases he

/-- With other names for those tokens that are taken for names, the trees are the renamed ones. -/
theorem Assigns.renamed (h : Assigns e zs ts) (he : e.named = true)
    (allowed : ∀ z ∈ zs, z.2 = .fragmentName → r z.1.token.text ≠ "on") :
    Derives e (zs.map (respellName r)) (Tree.renameOf r ts) := by
  induction h with
  | empty => simpa [Tree.renameOf] using Derives.empty
  | @terminal t x accepted =>
    have other : t.isName = false := by simpa [named] using he
    simpa [Tree.renameOf, Tree.rename, respellName, other] using Derives.terminal accepted
  | @hidden t x accepted =>
    have other : t.isName = false := by simpa [named] using he
    simpa [Tree.renameOf, respellName, other] using Derives.hidden accepted
  | seq _ _ ihe ihf =>
    simp only [named, Bool.and_eq_true] at he
    rw [List.map_append, Tree.renameOf_eq_map, List.map_append, ← Tree.renameOf_eq_map,
      ← Tree.renameOf_eq_map]
    exact (ihe he.1 fun z hz => allowed z (List.mem_append_left _ hz)).seq
      (ihf he.2 fun z hz => allowed z (List.mem_append_right _ hz))
  | left _ ih =>
    simp only [named, Bool.and_eq_true] at he
    exact (ih he.1 allowed).left
  | right _ ih =>
    simp only [named, Bool.and_eq_true] at he
    exact (ih he.2 allowed).right
  | starNil => simpa [Tree.renameOf] using Derives.starNil
  | starCons _ _ ihe ihs =>
    rw [List.map_append, Tree.renameOf_eq_map, List.map_append, ← Tree.renameOf_eq_map,
      ← Tree.renameOf_eq_map]
    exact (ihe he fun z hz => allowed z (List.mem_append_left _ hz)).starCons
      (ihs he fun z hz => allowed z (List.mem_append_right _ hz))
  | @node k e zs ts hd ih =>
    rw [named] at he
    rw [Tree.renameOf, Tree.renameOf, Tree.rename]
    refine .node ?_
    by_cases name : k = .name
    · rw [if_pos name] at he ⊢
      obtain ⟨x, t, rfl, rfl, rfl, isName, accepted⟩ := hd.of_isName he
      have accepted' : t.accepts (x.respell r).token = true :=
        Terminal.accepts_respell isName accepted (allowed (x, t) (List.mem_singleton_self _))
      simpa [Tree.respell, respellName, isName] using Derives.terminal accepted'
    · rw [if_neg name] at he ⊢
      exact ih he allowed
  | @ref rule zs ts _ ih => exact (ih (named_ofRule rule) allowed).ref

/-- The names of the trees consist of the tokens that are taken for names. -/
theorem Assigns.names (h : Assigns e zs ts) (he : e.named = true) (depth : Nat) :
    (((Tree.preorderOf depth ts).map (·.2)).filter (·.isKind .name)).flatMap Tree.tokens =
      (zs.filter (·.2.isName)).map (·.1) := by
  induction h generalizing depth with
  | empty => simp [Tree.preorderOf]
  | terminal _ =>
    simp only [named, Bool.not_eq_true'] at he
    simp [Tree.preorderOf, Tree.preorder, he]
  | hidden _ =>
    simp only [named, Bool.not_eq_true'] at he
    simp [Tree.preorderOf, he]
  | seq _ _ ihe ihf =>
    simp only [named, Bool.and_eq_true] at he
    simp only [Tree.preorderOf_append, List.map_append, List.filter_append, List.flatMap_append]
    rw [ihe he.1, ihf he.2]
  | left _ ih =>
    simp only [named, Bool.and_eq_true] at he
    exact ih he.1 depth
  | right _ ih =>
    simp only [named, Bool.and_eq_true] at he
    exact ih he.2 depth
  | starNil => simp [Tree.preorderOf]
  | starCons _ _ ihe ihs =>
    simp only [Tree.preorderOf_append, List.map_append, List.filter_append, List.flatMap_append]
    rw [ihe he, ihs he]
  | @node k e zs ts hd ih =>
    rw [Tree.preorderOf, Tree.preorderOf, List.append_nil, Tree.preorder, List.map_cons]
    by_cases name : k = .name
    · rw [named, if_pos name] at he
      obtain ⟨x, t, -, rfl, rfl, isName, -⟩ := hd.of_isName he
      have kind : (Tree.node k [.token x]).isKind .name = true :=
        decide_eq_true (congrArg some name)
      simp [Tree.preorderOf, Tree.preorder, Tree.tokensOf, isName, kind]
    · have kind : ¬ (Tree.node k ts).isKind .name = true := fun h =>
        name (Option.some.inj (of_decide_eq_true h))
      rw [named, if_neg name] at he
      rw [List.filter_cons_of_neg kind, ih he]
  | @ref rule zs ts _ ih => exact ih (named_ofRule rule) depth

/-- What is taken for the name of a fragment is what some fragment, or a reference to one, in the
trees is called. It may also be what the construct is called of which the trees are the parts. -/
theorem Assigns.fragments (h : Assigns e zs ts) :
    (e.fragmented = true → ∀ z ∈ zs, z.2 = .fragmentName →
      Tree.NamesFragment ts z.1.token.text) ∧
    (e.called = true → ∀ z ∈ zs, z.2 = .fragmentName →
      (ts.find? (Tree.isKind .name)).bind Tree.text? = some z.1.token.text ∨
        Tree.NamesFragment ts z.1.token.text) := by
  have never {p : Prop} (h : false = true) : p := absurd h Bool.false_ne_true
  induction h with
  | empty => exact ⟨fun _ z hz => absurd hz List.not_mem_nil, never⟩
  | terminal _ =>
    refine ⟨fun he z hz hn => ?_, never⟩
    rw [List.mem_singleton.mp hz] at hn
    exact absurd hn (of_decide_eq_true he)
  | hidden _ =>
    refine ⟨fun he z hz hn => ?_, never⟩
    rw [List.mem_singleton.mp hz] at hn
    exact absurd hn (of_decide_eq_true he)
  | @seq e f ys zs ts us first second ihe ihf =>
    constructor
    · intro he z hz hn
      simp only [fragmented, Bool.and_eq_true] at he
      rcases List.mem_append.mp hz with hz | hz
      · exact (ihe.1 he.1 z hz hn).append_left
      · exact (ihf.1 he.2 z hz hn).append_right
    · intro he z hz hn
      cases first with
      | @terminal t x accepted =>
        simp only [called, Bool.and_eq_true, decide_eq_true_eq] at he
        rcases List.mem_append.mp hz with hz | hz
        · rw [List.mem_singleton.mp hz] at hn
          exact absurd hn he.1
        · exact (ihf.2 he.2 z hz hn).imp id Tree.NamesFragment.append_right
      | @node k e ys ts hd =>
        simp only [called, Bool.and_eq_true, decide_eq_true_eq] at he
        obtain ⟨⟨rfl, isName⟩, rest⟩ := he
        obtain ⟨x, t, -, rfl, rfl, isName, accepted⟩ := hd.of_isName isName
        have name := Terminal.kind_of_isName isName accepted
        rcases List.mem_append.mp hz with hz | hz
        · obtain rfl := List.mem_singleton.mp hz
          left
          show Tree.text? (.node .name [.token x]) = _
          simp [Tree.text?, Tree.token?, Tree.parts, name]
        · exact .inr (ihf.1 rest z hz hn).append_right
      | _ => cases he
  | left _ ih =>
    refine ⟨fun he => ?_, never⟩
    simp only [fragmented, Bool.and_eq_true] at he
    exact ih.1 he.1
  | right _ ih =>
    refine ⟨fun he => ?_, never⟩
    simp only [fragmented, Bool.and_eq_true] at he
    exact ih.1 he.2
  | starNil => exact ⟨fun _ z hz => absurd hz List.not_mem_nil, never⟩
  | starCons _ _ ihe ihs =>
    refine ⟨fun he z hz hn => ?_, never⟩
    rcases List.mem_append.mp hz with hz | hz
    · exact (ihe.1 he z hz hn).append_left
    · exact (ihs.1 he z hz hn).append_right
  | @node k e zs ts _ ih =>
    refine ⟨fun he z hz hn => ?_, never⟩
    by_cases fragment : (Tree.node k []).isFragment = true
    · rw [fragmented, if_pos fragment] at he
      rcases ih.2 he z hz hn with name | inner
      · exact ⟨_, List.mem_singleton_self _, _, .here, fragment, name⟩
      · exact inner.node k
    · rw [fragmented, if_neg fragment] at he
      exact (ih.1 he z hz hn).node k
  | @ref rule zs ts _ ih => exact ⟨fun _ => ih.1 (fragmented_ofRule rule), never⟩

end Ebnf

end GraphQL
