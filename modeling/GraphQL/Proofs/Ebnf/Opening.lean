import GraphQL.Proofs.Ebnf.Derivation

/-!
# What a text may start with

An opening says what is known about the next two tokens. From an expression and the openings of what
follows it, the openings of both together can be computed, and one of them fits every text that the
expression describes.

Results:
1. `Terminal.accepts_of_implies`, `Terminal.refuses_of_excludes`: what a token is like decides what
   else it is like.
2. `Derives.legal`: the tokens of a text that is described are well-formed.
3. `Derives.opens`: the openings of an expression cover its texts.
-/

namespace GraphQL

/-! ## Tokens -/

namespace Keyword

theorem lookup?_spelling (k : Keyword) : lookup? k.spelling = some k := by
  cases k <;> rfl

theorem lookup?_eq_some_iff {text : String} {k : Keyword} :
    lookup? text = some k ↔ text = k.spelling := by
  constructor
  · intro h
    have found := List.find?_some h
    exact (of_decide_eq_true found).symm
  · rintro rfl
    exact lookup?_spelling k

end Keyword

namespace Token

theorem isKeyword_iff {x : Token} {k : Keyword} : x.isKeyword k = true ↔ x.keyword? = some k := by
  by_cases hk : x.kind = .name
  · simp [isKeyword, keyword?, hk, Keyword.lookup?_eq_some_iff]
  · simp [isKeyword, keyword?, hk]

theorem kind_of_keyword? {x : Token} {k : Keyword} (h : x.keyword? = some k) : x.kind = .name := by
  by_cases hk : x.kind = .name
  · exact hk
  · simp [keyword?, hk] at h

theorem operation?_isSome_iff {x : Token} :
    x.operation?.isSome = true ↔ ∃ o : OperationKind, x.keyword? = some o.keyword := by
  simp only [operation?, Option.isSome_iff_exists, Option.bind_eq_some_iff,
    OperationKind.ofKeyword?_eq_some_iff]
  constructor
  · rintro ⟨o, k, hk, rfl⟩
    exact ⟨o, hk⟩
  · rintro ⟨o, h⟩
    exact ⟨o, _, h, rfl⟩

end Token

namespace Terminal

theorem accepts_kind {k : TokenKind} {x : Token} : (kind k).accepts x = true ↔ x.kind = k := by
  simp [accepts]

theorem accepts_keyword {k : Keyword} {x : Token} :
    (keyword k).accepts x = true ↔ x.keyword? = some k :=
  Token.isKeyword_iff

theorem accepts_operation {x : Token} :
    operation.accepts x = true ↔ ∃ o : OperationKind, x.keyword? = some o.keyword :=
  Token.operation?_isSome_iff

theorem accepts_fragmentName {x : Token} :
    fragmentName.accepts x = true ↔ x.kind = .name ∧ x.keyword? ≠ some .on := by
  rw [Ne, ← Token.isKeyword_iff]
  simp [accepts]

theorem not_keyword_and_operation {k : Keyword} {x : Token}
    (h : (OperationKind.ofKeyword? k).isNone = true) (hk : (keyword k).accepts x = true) :
    ¬ operation.accepts x = true := by
  intro ho
  obtain ⟨o, ho⟩ := accepts_operation.mp ho
  rw [accepts_keyword.mp hk, Option.some.injEq, ← OperationKind.ofKeyword?_eq_some_iff] at ho
  rw [ho] at h
  exact Bool.noConfusion h

theorem not_on_and_fragmentName {x : Token} (hk : (keyword .on).accepts x = true) :
    ¬ fragmentName.accepts x = true :=
  fun hf => (accepts_fragmentName.mp hf).2 (accepts_keyword.mp hk)

/-- Every token that is like `t` is also like `u`. -/
def implies : (t u : Terminal) → Bool
  | kind k, kind l => k = l
  | kind _, _ => false
  | _, kind l => l = .name
  | keyword k, keyword l => k = l
  | keyword k, operation => (OperationKind.ofKeyword? k).isSome
  | keyword k, fragmentName => k ≠ .on
  | operation, operation | operation, fragmentName | fragmentName, fragmentName => true
  | operation, keyword _ | fragmentName, keyword _ | fragmentName, operation => false

/-- No token that is like `t` is also like `u`. -/
def excludes : (t u : Terminal) → Bool
  | kind k, kind l => k ≠ l
  | kind k, _ => k ≠ .name
  | _, kind l => l ≠ .name
  | keyword k, keyword l => k ≠ l
  | keyword k, operation | operation, keyword k => (OperationKind.ofKeyword? k).isNone
  | keyword k, fragmentName | fragmentName, keyword k => k = .on
  | operation, operation | operation, fragmentName | fragmentName, operation
  | fragmentName, fragmentName => false

/-- Some well-formed token is as required. -/
def writable (t : Terminal) : Bool := t ≠ .kind .illegal && t ≠ .kind .eof

variable {t u : Terminal} {x : Token}

theorem kind_of_accepts (h : t.accepts x = true) : (∃ k, t = kind k) ∨ x.kind = .name := by
  cases t with
  | kind k => exact .inl ⟨k, rfl⟩
  | keyword k => exact .inr (Token.kind_of_keyword? (accepts_keyword.mp h))
  | operation =>
    obtain ⟨o, ho⟩ := accepts_operation.mp h
    exact .inr (Token.kind_of_keyword? ho)
  | fragmentName => exact .inr (accepts_fragmentName.mp h).1

/-- A class of tokens other than that of names is accepted by its own terminal only. -/
theorem kind_ne_of_accepts {k : TokenKind} (hk : k ≠ .name) (ht : t ≠ kind k)
    (h : t.accepts x = true) : x.kind ≠ k := by
  intro he
  rcases kind_of_accepts h with ⟨l, rfl⟩ | name
  · exact ht (congrArg kind ((accepts_kind.mp h).symm.trans he))
  · exact hk (he.symm.trans name)

theorem accepts_of_implies (h : t.implies u = true) (ht : t.accepts x = true) :
    u.accepts x = true := by
  have named := kind_of_accepts ht
  cases t <;> cases u <;>
    simp only [implies, decide_eq_true_eq, Bool.false_eq_true, reduceCtorEq, exists_const,
      false_or] at h named
  case kind.kind k l => exact h ▸ ht
  case keyword.keyword k l => exact h ▸ ht
  case keyword.operation k =>
    obtain ⟨o, ho⟩ := Option.isSome_iff_exists.mp h
    rw [OperationKind.ofKeyword?_eq_some_iff] at ho
    exact accepts_operation.mpr ⟨o, ho ▸ accepts_keyword.mp ht⟩
  case keyword.fragmentName k =>
    refine accepts_fragmentName.mpr ⟨named, fun on => h ?_⟩
    rw [accepts_keyword.mp ht, Option.some.injEq] at on
    exact on
  case operation.fragmentName =>
    obtain ⟨o, ho⟩ := accepts_operation.mp ht
    refine accepts_fragmentName.mpr ⟨named, ?_⟩
    rw [ho]
    cases o <;> decide
  case operation.operation => exact ht
  case fragmentName.fragmentName => exact ht
  all_goals exact accepts_kind.mpr (h ▸ named)

theorem refuses_of_excludes (h : t.excludes u = true) (ht : t.accepts x = true) :
    u.accepts x = false := by
  refine Bool.eq_false_iff.mpr fun hu => ?_
  have named := kind_of_accepts ht
  have named' := kind_of_accepts hu
  cases t <;> cases u <;>
    simp only [excludes, ne_eq, decide_not, Bool.not_eq_eq_eq_not, Bool.not_true,
      decide_eq_false_iff_not, decide_eq_true_eq, Bool.false_eq_true, reduceCtorEq, exists_const,
      false_or] at h named named'
  case kind.kind k l => exact h (accepts_kind.mp ht ▸ accepts_kind.mp hu)
  case keyword.keyword k l =>
    refine h ?_
    rw [← Option.some.injEq, ← accepts_keyword.mp ht, accepts_keyword.mp hu]
  case keyword.operation k => exact not_keyword_and_operation h ht hu
  case operation.keyword k => exact not_keyword_and_operation h hu ht
  case keyword.fragmentName k => exact not_on_and_fragmentName (h ▸ ht) hu
  case fragmentName.keyword k => exact not_on_and_fragmentName (h ▸ hu) ht
  -- one of the two is a class of tokens other than that of names
  all_goals first
    | exact h ((accepts_kind.mp ht).symm.trans named')
    | exact h ((accepts_kind.mp hu).symm.trans named)

end Terminal

/-! ## Well-formed tokens -/

namespace Ebnf

/-- All tokens of the expression are well-formed. -/
def legal : Ebnf → Bool
  | empty | never | ref _ => true
  | terminal t | hidden t => t.writable
  | seq e f | alt e f => e.legal && f.legal
  | star e | node _ e => e.legal

theorem legal_ofRule (r : Rule) : (ofRule r).legal = true := by
  cases r with
  | value constant => cases constant <;> rfl
  | _ => rfl

theorem Derives.legal {e : Ebnf} {xs : List PlacedToken} {ts : List Tree} (h : Derives e xs ts)
    (he : e.legal = true) : ∀ x ∈ xs, x.token.kind ≠ .illegal := by
  have proper {t : Terminal} {x : PlacedToken} (ht : t.writable = true)
      (accepted : t.accepts x.token = true) : ∀ y ∈ [x], y.token.kind ≠ .illegal := by
    intro y hy
    obtain rfl := List.mem_singleton.mp hy
    simp only [Terminal.writable, Bool.and_eq_true, decide_eq_true_eq] at ht
    exact Terminal.kind_ne_of_accepts (by decide) ht.1 accepted
  induction h with
  | empty => exact fun x hx => absurd hx List.not_mem_nil
  | terminal accepted => exact proper he accepted
  | hidden accepted => exact proper he accepted
  | seq _ _ ihe ihf =>
    simp only [Ebnf.legal, Bool.and_eq_true] at he
    exact fun x hx => (List.mem_append.mp hx).elim (ihe he.1 x) (ihf he.2 x)
  | left _ ih =>
    simp only [Ebnf.legal, Bool.and_eq_true] at he
    exact ih he.1
  | right _ ih =>
    simp only [Ebnf.legal, Bool.and_eq_true] at he
    exact ih he.2
  | starNil => exact fun x hx => absurd hx List.not_mem_nil
  | starCons _ _ ihe ihs => exact fun x hx => (List.mem_append.mp hx).elim (ihe he x) (ihs he x)
  | node _ ih => exact ih he
  | @ref r xs ts _ ih => exact ih (legal_ofRule r)

end Ebnf

/-! ## Openings -/

/-- What is known about the next token and the one behind it. -/
structure Opening where
  first : Option Terminal := none
  second : Option Terminal := none
  deriving DecidableEq, Repr

namespace Opening

/-- The tokens from the place on are as the opening says. -/
def Fits (tape : Nat → PlacedToken) (i : Nat) (o : Opening) : Prop :=
  (∀ t ∈ o.first, t.accepts (tape i).token = true) ∧
    ∀ t ∈ o.second, t.accepts (tape (i + 1)).token = true

/-- One of the openings fits. -/
def SomeFits (tape : Nat → PlacedToken) (i : Nat) (os : List Opening) : Prop :=
  ∃ o ∈ os, o.Fits tape i

/-- Nothing is known. -/
def any : Opening := {}

/-- The token is like `t` and the opening comes behind it. -/
def behind (t : Terminal) (o : Opening) : Opening := ⟨some t, o.first⟩

/-- Whatever is known by `u` about a token is known by `t` as well. -/
def knows (t u : Option Terminal) : Bool := u.all fun u => t.any (·.implies u)

/-- Whatever `p` says about the tokens `o` says as well. -/
def refines (o p : Opening) : Bool := knows o.first p.first && knows o.second p.second

/-- Each opening refines one of the others. -/
def covered (os ps : List Opening) : Bool := os.all fun o => ps.any (o.refines ·)

variable {tape : Nat → PlacedToken} {i : Nat}

theorem someFits_any : SomeFits tape i [any] :=
  ⟨any, List.mem_singleton_self _, by simp [any, Fits]⟩

theorem accepts_of_knows {t u : Option Terminal} {x : Token} (h : knows t u = true)
    (ht : ∀ a ∈ t, a.accepts x = true) : ∀ b ∈ u, b.accepts x = true := by
  rintro b rfl
  obtain ⟨a, ha, hi⟩ := Option.any_eq_true _ _ |>.mp h
  exact Terminal.accepts_of_implies hi (ht a ha)

theorem SomeFits.of_covered {os ps : List Opening} (h : SomeFits tape i os)
    (hc : covered os ps = true) : SomeFits tape i ps := by
  obtain ⟨o, ho, fits⟩ := h
  obtain ⟨p, hp, hr⟩ := List.any_eq_true.mp (List.all_eq_true.mp hc o ho)
  simp only [refines, Bool.and_eq_true] at hr
  exact ⟨p, hp, accepts_of_knows hr.1 fits.1, accepts_of_knows hr.2 fits.2⟩

end Opening

/-- The openings of one token of the given classes. -/
def Opening.ofKinds (ks : List TokenKind) : List Opening :=
  ks.map fun k => { first := some (.kind k) }

namespace Ebnf

/-- The openings of a recursive construct. -/
def opensRule : Rule → List Opening
  | .selectionSet => Opening.ofKinds [.braceOpen]
  | .value true => Opening.ofKinds [.int, .float, .string, .name, .bracketOpen, .braceOpen]
  | .value false =>
    Opening.ofKinds [.dollar, .int, .float, .string, .name, .bracketOpen, .braceOpen]
  | .type => Opening.ofKinds [.name, .bracketOpen]

/-- The openings of the expression when something that opens with `k` follows. -/
def opens : Ebnf → List Opening → List Opening
  | empty, k => k
  | never, _ => []
  | terminal t, k | hidden t, k => (k.map (.behind t)).eraseDups
  | seq e f, k => e.opens (f.opens k)
  | alt e f, k => e.opens k ++ f.opens k
  | star e, k => k ++ e.opens [.any]
  | node _ e, k => e.opens k
  | ref r, _ => opensRule r

theorem covered_opensRule (r : Rule) :
    Opening.covered ((ofRule r).opens [.any]) (opensRule r) = true := by
  cases r with
  | value constant => cases constant <;> decide +kernel
  | _ => decide +kernel

end Ebnf

/-- A text that an expression describes has one of its openings. -/
theorem Ebnf.Derives.opens {tape : Nat → PlacedToken} {e : Ebnf} {xs : List PlacedToken}
    {ts : List Tree} (h : e.Derives xs ts) {i j : Nat} (hij : i ≤ j) (hx : slice tape i j = xs)
    {k : List Opening} (follow : Opening.SomeFits tape j k) :
    Opening.SomeFits tape i (e.opens k) := by
  -- a token that is like `t` with one of the openings behind it
  have behind {t : Terminal} {x : PlacedToken} {i j : Nat} {k : List Opening}
      (accepted : t.accepts x.token = true) (hx : slice tape i j = [x])
      (follow : Opening.SomeFits tape j k) :
      Opening.SomeFits tape i (k.map (.behind t)).eraseDups := by
    obtain ⟨rfl, rfl⟩ := slice_eq_singleton hx
    obtain ⟨o, ho, fits⟩ := follow
    refine ⟨_, List.mem_eraseDups.mpr (List.mem_map_of_mem ho), ?_, fits.1⟩
    rintro _ ⟨⟩
    exact accepted
  induction h generalizing i j k with
  | empty => exact slice_eq_nil hij hx ▸ follow
  | terminal accepted => exact behind accepted hx follow
  | hidden accepted => exact behind accepted hx follow
  | seq _ _ ihe ihf =>
    obtain ⟨m, him, hmj, hxe, hxf⟩ := slice_eq_append hij hx
    exact ihe him hxe (ihf hmj hxf follow)
  | left _ ih =>
    obtain ⟨o, ho, fits⟩ := ih hij hx follow
    exact ⟨o, List.mem_append_left _ ho, fits⟩
  | right _ ih =>
    obtain ⟨o, ho, fits⟩ := ih hij hx follow
    exact ⟨o, List.mem_append_right _ ho, fits⟩
  | starNil =>
    obtain ⟨o, ho, fits⟩ := slice_eq_nil hij hx ▸ follow
    exact ⟨o, List.mem_append_left _ ho, fits⟩
  | starCons _ _ ihe _ =>
    obtain ⟨m, him, -, hxe, -⟩ := slice_eq_append hij hx
    obtain ⟨o, ho, fits⟩ := ihe him hxe Opening.someFits_any
    exact ⟨o, List.mem_append_right _ ho, fits⟩
  | node _ ih => exact ih hij hx follow
  | @ref r xs ts _ ih => exact (ih hij hx Opening.someFits_any).of_covered (covered_opensRule r)

end GraphQL
