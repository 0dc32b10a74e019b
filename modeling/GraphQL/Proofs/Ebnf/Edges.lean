import GraphQL.Proofs.Ebnf.Outline

/-!
# Where a construct starts and ends

A construct is made by a production from a row of tokens, and the tree keeps most of these tokens as
its leaves. It may leave out a token in the middle, but never the first or the last one. A construct
reckons where it starts and ends from some of its parts. These are always its first and its last
part, so what it reckons is where the first of its tokens starts and the last one ends.

Results:
1. `Derives.edge?_tokensOf`: the first and the last token are kept.
2. `Derives.tokensOf_sublist`: the leaves are tokens of the row, in their order.
3. `Derives.exact`: a construct starts with its first token and ends with its last one.
4. `Derives.constructs`: every construct at any depth of a tree has a row of tokens of its own,
   which some production describes.
-/

namespace GraphQL

/-- `Inside t u`: the tree `t` is the tree `u` or one of the trees that it is made of. -/
inductive Tree.Inside (t : Tree) : Tree → Prop
  | here : Inside t t
  | part {k : NodeKind} {ps : List Tree} {u : Tree} :
      u ∈ ps → Inside t u → Inside t (.node k ps)

namespace Ebnf

/-- `Occurs p e`: the expression `p` is a part of the expression `e` or of a recursive construct
that `e` refers to. -/
inductive Occurs (p : Ebnf) : Ebnf → Prop
  | here : Occurs p p
  | first {e f : Ebnf} : Occurs p e → Occurs p (.seq e f)
  | second {e f : Ebnf} : Occurs p f → Occurs p (.seq e f)
  | left {e f : Ebnf} : Occurs p e → Occurs p (.alt e f)
  | right {e f : Ebnf} : Occurs p f → Occurs p (.alt e f)
  | item {e : Ebnf} : Occurs p e → Occurs p (.star e)
  | body {k : NodeKind} {e : Ebnf} : Occurs p e → Occurs p (.node k e)
  | rule {r : Rule} : Occurs p (ofRule r) → Occurs p (.ref r)

/-- The token at the side is kept in the tree. -/
def keeps (s : Side) : Ebnf → Bool
  | empty | never | terminal _ | ref _ => true
  | hidden _ => false
  | seq e f =>
    match s with
    | .front => e.keeps s && (e.consumes || f.keeps s)
    | .back => f.keeps s && (f.consumes || e.keeps s)
  | alt e f => e.keeps s && f.keeps s
  | star e | node _ e => e.keeps s

/-- The constructs of kind `k` that the expression describes have tokens, keep the first and the
last of them, and reckon from the parts that these belong to. -/
def framed (k : NodeKind) (e : Ebnf) : Bool :=
  e.consumes && e.keeps .front && e.keeps .back && e.edgedAt k .front && e.edgedAt k .back

/-- All constructs inside are framed. -/
def edged : Ebnf → Bool
  | empty | never | terminal _ | hidden _ | ref _ => true
  | seq e f | alt e f => e.edged && f.edged
  | star e => e.edged
  | node k e => e.framed k && e.edged

theorem keeps_ofRule (s : Side) (r : Rule) : (ofRule r).keeps s = true := by
  cases r with
  | value constant => cases constant <;> cases s <;> rfl
  | _ => cases s <;> rfl

theorem edged_ofRule (r : Rule) : (ofRule r).edged = true := by
  cases r with
  | value constant => cases constant <;> decide +kernel
  | _ => decide +kernel

theorem framed_iff {k : NodeKind} {e : Ebnf} :
    e.framed k = true ↔ e.consumes = true ∧ ∀ s, e.keeps s = true ∧ e.edgedAt k s = true := by
  simp only [framed, Bool.and_eq_true]
  constructor
  · rintro ⟨⟨⟨⟨consumes, front⟩, back⟩, front'⟩, back'⟩
    refine ⟨consumes, fun s => ?_⟩
    cases s with
    | front => exact ⟨front, front'⟩
    | back => exact ⟨back, back'⟩
  · rintro ⟨consumes, both⟩
    exact ⟨⟨⟨⟨consumes, (both .front).1⟩, (both .back).1⟩, (both .front).2⟩, (both .back).2⟩

variable {s : Side} {e : Ebnf} {xs : List PlacedToken} {ts : List Tree}

theorem Derives.edge?_tokensOf (h : Derives e xs ts) (he : e.keeps s = true) :
    s.edge? (Tree.tokensOf ts) = s.edge? xs := by
  induction h with
  | empty => rfl
  | terminal _ => simp [Tree.tokensOf]
  | hidden _ => cases he
  | @seq e f xs ys ts us hxs hys ihe ihf =>
    rw [Tree.tokensOf_append, Side.edge?_append, Side.edge?_append]
    cases s with
    | front =>
      simp only [keeps, Bool.and_eq_true, Bool.or_eq_true] at he
      rw [ihe he.1]
      rcases he.2 with consumes | hf
      · obtain ⟨x, hx⟩ := Side.front.exists_edge? (hxs.ne_nil consumes)
        rw [hx]
        rfl
      · rw [ihf hf]
    | back =>
      simp only [keeps, Bool.and_eq_true, Bool.or_eq_true] at he
      rw [ihf he.1]
      rcases he.2 with consumes | hf
      · obtain ⟨y, hy⟩ := Side.back.exists_edge? (hys.ne_nil consumes)
        rw [hy]
        rfl
      · rw [ihe hf]
  | left _ ih =>
    simp only [keeps, Bool.and_eq_true] at he
    exact ih he.1
  | right _ ih =>
    simp only [keeps, Bool.and_eq_true] at he
    exact ih he.2
  | starNil => rfl
  | starCons _ _ ihe ihs =>
    rw [Tree.tokensOf_append, Side.edge?_append, Side.edge?_append, ihe he, ihs he]
  | node _ ih => simpa [Tree.tokensOf] using ih he
  | @ref r xs ts _ ih => exact ih (keeps_ofRule s r)

theorem Derives.tokensOf_sublist (h : Derives e xs ts) : (Tree.tokensOf ts).Sublist xs := by
  induction h with
  | empty => exact List.nil_sublist _
  | terminal _ => simp [Tree.tokensOf]
  | hidden _ => exact List.nil_sublist _
  | seq _ _ ihe ihf =>
    rw [Tree.tokensOf_append]
    exact ihe.append ihf
  | left _ ih => exact ih
  | right _ ih => exact ih
  | starNil => exact List.nil_sublist _
  | starCons _ _ ihe ihs =>
    rw [Tree.tokensOf_append]
    exact ihe.append ihs
  | node _ ih => simpa [Tree.tokensOf] using ih
  | ref _ ih => exact ih

end Ebnf

/-! ## Places -/

/-- Where the token has the side. -/
def PlacedToken.place (x : PlacedToken) : Side → Pos
  | .front => x.pos
  | .back => x.stop

/-- Where the tree has the side. -/
def Tree.place (t : Tree) : Side → Pos
  | .front => t.pos
  | .back => t.stop

/-- The tree has the side where the token at the side of it has it. -/
def Tree.Exact (s : Side) (t : Tree) : Prop :=
  ∃ x, s.edge? t.tokens = some x ∧ t.place s = x.place s

namespace Ebnf

variable {s : Side} {e : Ebnf} {xs : List PlacedToken} {ts : List Tree}

/-- A construct has a side where the part at that side has it. -/
theorem Derives.place_node {k : NodeKind} (check : e.edgedAt k s = true) (h : Derives e xs ts)
    {t : Tree} (edge : s.edge? ts = some t) : (Tree.node k ts).place s = t.place s := by
  cases s with
  | front =>
    obtain ⟨us, rfl⟩ := List.head?_eq_some_iff.mp edge
    exact h.pos_node check
  | back =>
    obtain ⟨us, rfl⟩ := List.getLast?_eq_some_iff.mp edge
    exact h.stop_node check

/-- A construct with exact parts is exact. -/
theorem Derives.exact_node {k : NodeKind} (check : e.edgedAt k s = true) (h : Derives e xs ts)
    (nonempty : ts ≠ []) (exact : ∀ t ∈ ts, t.Exact s) : (Tree.node k ts).Exact s := by
  obtain ⟨t, edge⟩ := s.exists_edge? nonempty
  have member : t ∈ ts := by
    cases s with
    | front => exact List.mem_of_mem_head? edge
    | back => exact List.mem_of_mem_getLast? edge
  obtain ⟨x, hx, place⟩ := exact t member
  refine ⟨x, ?_, (h.place_node check edge).trans place⟩
  rw [Tree.tokens_node]
  cases s with
  | front =>
    obtain ⟨us, rfl⟩ := List.head?_eq_some_iff.mp edge
    rw [Tree.tokensOf, Side.edge?_append, hx]
    rfl
  | back =>
    obtain ⟨us, rfl⟩ := List.getLast?_eq_some_iff.mp edge
    rw [Tree.tokensOf_append, Side.edge?_append, Tree.tokensOf, Tree.tokensOf, List.append_nil, hx]
    rfl

/-- A tree starts with its first token and ends with its last one, if every token ends where
it is reckoned to. -/
theorem Derives.exact (h : Derives e xs ts) (he : e.edged = true)
    (sized : ∀ x ∈ xs, x.ending = x.stop) : ∀ t ∈ ts, t.Exact s := by
  have leaf {x : PlacedToken} (hx : x.ending = x.stop) : (Tree.token x).Exact s := by
    refine ⟨x, s.edge?_singleton x, ?_⟩
    cases s with
    | front => rfl
    | back => exact hx
  induction h with
  | empty => exact fun t ht => absurd ht List.not_mem_nil
  | @terminal t x accepted =>
    intro u hu
    obtain rfl := List.mem_singleton.mp hu
    exact leaf (sized x (List.mem_singleton_self x))
  | hidden _ => exact fun t ht => absurd ht List.not_mem_nil
  | seq _ _ ihe ihf =>
    simp only [edged, Bool.and_eq_true] at he
    intro t ht
    rcases List.mem_append.mp ht with ht | ht
    · exact ihe he.1 (fun x hx => sized x (List.mem_append_left _ hx)) t ht
    · exact ihf he.2 (fun x hx => sized x (List.mem_append_right _ hx)) t ht
  | left _ ih =>
    simp only [edged, Bool.and_eq_true] at he
    exact ih he.1 sized
  | right _ ih =>
    simp only [edged, Bool.and_eq_true] at he
    exact ih he.2 sized
  | starNil => exact fun t ht => absurd ht List.not_mem_nil
  | starCons _ _ ihe ihs =>
    intro t ht
    rcases List.mem_append.mp ht with ht | ht
    · exact ihe he (fun x hx => sized x (List.mem_append_left _ hx)) t ht
    · exact ihs he (fun x hx => sized x (List.mem_append_right _ hx)) t ht
  | @node k e xs ts hd ih =>
    simp only [edged, Bool.and_eq_true, framed_iff] at he
    intro t ht
    obtain rfl := List.mem_singleton.mp ht
    -- the construct has tokens and keeps one of them, so it has parts
    refine hd.exact_node (he.1.2 s).2 ?_ (ih he.2 sized)
    rintro rfl
    have edge := hd.edge?_tokensOf (he.1.2 s).1
    rw [Tree.tokensOf, Side.edge?_nil] at edge
    exact hd.ne_nil he.1.1 (s.edge?_eq_none_iff.mp edge.symm)
  | @ref r xs ts _ ih => exact ih (edged_ofRule r) sized

/-- A tree that stands for a whole row starts and ends with the row. -/
theorem Derives.place_eq {t : Tree} (h : Derives e xs [t]) (keeps : e.keeps s = true)
    (he : e.edged = true) (sized : ∀ x ∈ xs, x.ending = x.stop) :
    ∃ x, s.edge? xs = some x ∧ t.place s = x.place s := by
  obtain ⟨x, hx, place⟩ := h.exact he sized t (List.mem_singleton_self t)
  have edge := h.edge?_tokensOf keeps
  rw [Tree.tokensOf, Tree.tokensOf, List.append_nil, hx] at edge
  exact ⟨x, edge.symm, place⟩

/-- The row `run` of tokens is what the production for the construct `t` describes, and `t` starts
and ends with its first and its last token. -/
structure MadeFrom (g : Ebnf) (t : Tree) (run : List PlacedToken) : Prop where
  production : ∃ k body ps, t = .node k ps ∧ Occurs (.node k body) g ∧ Derives body run ps
  leaves : t.tokens.Sublist run
  edge : ∀ s : Side, ∃ x, s.edge? run = some x ∧ t.place s = x.place s

/-- Every construct of a tree is made from tokens that stand side by side. -/
theorem Derives.constructs {g : Ebnf} (h : Derives e xs ts) (he : e.edged = true)
    (hg : ∀ {k : NodeKind} {body : Ebnf}, Occurs (.node k body) e → Occurs (.node k body) g)
    (sized : ∀ x ∈ xs, x.ending = x.stop) {u : Tree} (hu : u ∈ ts) {k : NodeKind} {ps : List Tree}
    (inside : Tree.Inside (.node k ps) u) :
    ∃ before run after, xs = before ++ run ++ after ∧ MadeFrom g (.node k ps) run := by
  induction h generalizing u with
  | empty => cases hu
  | terminal _ =>
    rw [List.mem_singleton] at hu
    subst hu
    cases inside
  | hidden _ => cases hu
  | @seq e f xs ys ts us _ _ ihe ihf =>
    simp only [edged, Bool.and_eq_true] at he
    rcases List.mem_append.mp hu with hu | hu
    · obtain ⟨before, run, after, rfl, made⟩ := ihe he.1 (fun h => hg h.first)
        (fun x hx => sized x (List.mem_append_left _ hx)) hu inside
      exact ⟨before, run, after ++ ys, by simp, made⟩
    · obtain ⟨before, run, after, rfl, made⟩ := ihf he.2 (fun h => hg h.second)
        (fun x hx => sized x (List.mem_append_right _ hx)) hu inside
      exact ⟨xs ++ before, run, after, by simp, made⟩
  | left _ ih =>
    simp only [edged, Bool.and_eq_true] at he
    exact ih he.1 (fun h => hg h.left) sized hu inside
  | right _ ih =>
    simp only [edged, Bool.and_eq_true] at he
    exact ih he.2 (fun h => hg h.right) sized hu inside
  | starNil => cases hu
  | @starCons e xs ys ts us _ _ ihe ihs =>
    rcases List.mem_append.mp hu with hu | hu
    · obtain ⟨before, run, after, rfl, made⟩ := ihe he (fun h => hg h.item)
        (fun x hx => sized x (List.mem_append_left _ hx)) hu inside
      exact ⟨before, run, after ++ ys, by simp, made⟩
    · obtain ⟨before, run, after, rfl, made⟩ := ihs he hg
        (fun x hx => sized x (List.mem_append_right _ hx)) hu inside
      exact ⟨xs ++ before, run, after, by simp, made⟩
  | @node l e xs ts hd ih =>
    rw [List.mem_singleton] at hu
    subst hu
    cases inside with
    | here =>
      refine ⟨[], xs, [], by simp, ⟨k, e, ps, rfl, hg .here, hd⟩, ?_, fun s => ?_⟩
      · simpa using hd.tokensOf_sublist
      · have both := he
        simp only [edged, Bool.and_eq_true, framed_iff] at both
        exact hd.node.place_eq (both.1.2 s).1 he sized
    | part hv inside =>
      simp only [edged, Bool.and_eq_true] at he
      exact ih he.2 (fun h => hg h.body) sized hv inside
  | @ref r xs ts _ ih => exact ih (edged_ofRule r) (fun h => hg h.rule) sized hu inside

end Ebnf

end GraphQL
