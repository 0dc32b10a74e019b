import GraphQL.Proofs.Ebnf.Edges
import GraphQL.Proofs.Lexing.Placement
import GraphQL.Tree.Walk

/-!
# Constructs side by side

The tokens of a text stand one behind the other, and a construct stands where its tokens do. So the
parts of a construct stand inside it, one behind the other, and a walk, which enters a construct
before its parts and the parts in their order, never goes back in the text.

Results:
1. `Derives.sound`: all constructs of a derivation stand where their tokens do.
2. `Tree.Sound.within`, `Tree.pairwise_of_sound`: parts stand inside, one behind the other.
3. `Tree.Sound.pairwise_preorder`: the constructs that a walk enters start further and further
   behind.
-/

namespace GraphQL

/-! ## Tokens -/

/-- The tokens stand one behind the other. -/
structure InSequence (xs : List PlacedToken) : Prop where
  forward : ∀ x ∈ xs, x.pos.raw < x.stop.raw
  apart : xs.Pairwise fun x y => x.stop.raw ≤ y.pos.raw

namespace InSequence

variable {xs ys : List PlacedToken} {x y : PlacedToken}

theorem sublist (h : InSequence ys) (sub : xs.Sublist ys) : InSequence xs :=
  ⟨fun x hx => h.forward x (sub.subset hx), h.apart.sublist sub⟩

/-- The tokens of the first of two rows stand in front of those of the second. -/
theorem across (h : InSequence (xs ++ ys)) (hx : x ∈ xs) (hy : y ∈ ys) :
    x.stop.raw ≤ y.pos.raw :=
  (List.pairwise_append.mp h.apart).2.2 x hx y hy

/-- The first token stands in front of all others. -/
theorem head_le (h : InSequence xs) (first : xs.head? = some x) (hy : y ∈ xs) :
    x.pos.raw ≤ y.pos.raw := by
  obtain ⟨zs, rfl⟩ := List.head?_eq_some_iff.mp first
  rcases List.mem_cons.mp hy with rfl | hy
  · exact Nat.le_refl _
  · exact Nat.le_trans (Nat.le_of_lt (h.forward x List.mem_cons_self))
      ((List.pairwise_cons.mp h.apart).1 y hy)

/-- The last token stands behind all others. -/
theorem le_last (h : InSequence xs) (last : xs.getLast? = some x) (hy : y ∈ xs) :
    y.stop.raw ≤ x.stop.raw := by
  obtain ⟨zs, rfl⟩ := List.getLast?_eq_some_iff.mp last
  rcases List.mem_append.mp hy with hy | hy
  · exact Nat.le_trans (h.across hy (List.mem_singleton_self x))
      (Nat.le_of_lt (h.forward x (List.mem_append_right _ (List.mem_singleton_self x))))
  · exact Nat.le_of_eq (by rw [List.mem_singleton.mp hy])

end InSequence

/-- The tokens of a text stand one behind the other. -/
theorem inSequence_slice (source : String) (base : Nat) {i j : Nat} (hj : j ≤ tokenCount source) :
    InSequence (slice (tape source base) i j) := by
  refine ⟨fun x hx => ?_, ?_⟩
  · obtain ⟨n, -, hn, rfl⟩ := mem_slice.mp hx
    exact pos_tape_lt_stop_tape source base (by omega)
  · rw [slice, List.pairwise_map]
    exact (List.pairwise_lt_range' 1 Nat.one_pos).imp fun h => stop_tape_le_pos_tape source base h

/-! ## Trees -/

namespace Tree

/-- The tree and all that it is made of start with their first token and end with their last
one. -/
def Sound (t : Tree) : Prop := ∀ u : Tree, u.Inside t → ∀ s, u.Exact s

theorem Inside.trans {t u v : Tree} (h : t.Inside u) (h' : u.Inside v) : t.Inside v := by
  induction h' with
  | here => exact h
  | part hu _ ih => exact .part hu ih

theorem Sound.of_inside {t u : Tree} (h : t.Sound) (inside : u.Inside t) : u.Sound :=
  fun _ hv => h _ (hv.trans inside)

theorem Sound.part {k : NodeKind} {ps : List Tree} (h : (node k ps).Sound) {t : Tree}
    (ht : t ∈ ps) : t.Sound :=
  h.of_inside (.part ht .here)

theorem tokens_sublist_of_mem {ts : List Tree} {t : Tree} (h : t ∈ ts) :
    t.tokens.Sublist (tokensOf ts) := by
  obtain ⟨before, after, rfl⟩ := List.append_of_mem h
  rw [tokensOf_append, tokensOf]
  exact (List.sublist_append_left _ _).trans (List.sublist_append_right _ _)

theorem Inside.tokens_sublist {t u : Tree} (h : t.Inside u) : t.tokens.Sublist u.tokens := by
  induction h with
  | here => exact List.Sublist.refl _
  | part hu _ ih =>
    rw [tokens_node]
    exact ih.trans (tokens_sublist_of_mem hu)

variable {t u : Tree} {ts : List Tree}

/-- A sound tree starts where one of its tokens does. -/
theorem Sound.exists_first (h : t.Sound) : ∃ x, t.tokens.head? = some x ∧ t.pos = x.pos :=
  h t .here .front

/-- A sound tree ends where one of its tokens does. -/
theorem Sound.exists_last (h : t.Sound) : ∃ x, t.tokens.getLast? = some x ∧ t.stop = x.stop :=
  h t .here .back

/-- What a tree is made of stands inside it. -/
theorem Sound.within (h : t.Sound) (sequence : InSequence t.tokens) (inside : u.Inside t) :
    t.pos.raw ≤ u.pos.raw ∧ u.pos.raw < u.stop.raw ∧ u.stop.raw ≤ t.stop.raw := by
  obtain ⟨v, front, start⟩ := h.exists_first
  obtain ⟨w, back, finish⟩ := h.exists_last
  obtain ⟨x, first, pos⟩ := (h.of_inside inside).exists_first
  obtain ⟨y, last, stop⟩ := (h.of_inside inside).exists_last
  have tokens := inside.tokens_sublist
  have hx := List.mem_of_mem_head? first
  have hy := List.mem_of_mem_getLast? last
  have forward := (sequence.sublist tokens).forward x hx
  rw [pos, stop, start, finish]
  exact ⟨sequence.head_le front (tokens.subset hx),
    Nat.lt_of_lt_of_le forward ((sequence.sublist tokens).le_last last hx),
    sequence.le_last back (tokens.subset hy)⟩

/-- A tree in a row stands in front of what the trees behind it are made of. -/
theorem Sound.stop_le_pos (ht : t.Sound) (hu : u.Sound)
    (sequence : InSequence (t.tokens ++ tokensOf ts)) (mem : u.tokens.Sublist (tokensOf ts)) :
    t.stop.raw ≤ u.pos.raw := by
  obtain ⟨x, last, stop⟩ := ht.exists_last
  obtain ⟨y, first, pos⟩ := hu.exists_first
  rw [stop, pos]
  exact sequence.across (List.mem_of_mem_getLast? last) (mem.subset (List.mem_of_mem_head? first))

/-- Sound trees in a row stand one behind the other. -/
theorem pairwise_of_sound (sound : ∀ t ∈ ts, t.Sound) (sequence : InSequence (tokensOf ts)) :
    ts.Pairwise fun t u => t.stop.raw ≤ u.pos.raw := by
  induction ts with
  | nil => exact .nil
  | cons t ts ih =>
    rw [tokensOf] at sequence
    refine List.pairwise_cons.mpr ⟨fun u hu => ?_, ?_⟩
    · exact (sound t List.mem_cons_self).stop_le_pos (sound u (List.mem_cons_of_mem _ hu)) sequence
        (tokens_sublist_of_mem hu)
    · exact ih (fun u hu => sound u (List.mem_cons_of_mem _ hu))
        (sequence.sublist (List.sublist_append_right _ _))

/-! ## Walks -/

mutual

/-- A walk enters constructs of the tree. -/
theorem inside_of_mem_preorder {depth : Nat} {d : Nat} {u : Tree} :
    ∀ {t : Tree}, (d, u) ∈ t.preorder depth → u.Inside t
  | token _, h => by simp [preorder] at h
  | node k ps, h => by
    rw [preorder, List.mem_cons] at h
    rcases h with h | h
    · obtain ⟨-, rfl⟩ := Prod.mk.inj h
      exact .here
    · obtain ⟨p, hp, inside⟩ := inside_of_mem_preorderOf h
      exact .part hp inside

theorem inside_of_mem_preorderOf {depth : Nat} {d : Nat} {u : Tree} :
    ∀ {ts : List Tree}, (d, u) ∈ preorderOf depth ts → ∃ t ∈ ts, u.Inside t
  | [], h => by simp [preorderOf] at h
  | t :: ts, h => by
    rw [preorderOf, List.mem_append] at h
    rcases h with h | h
    · exact ⟨t, List.mem_cons_self, inside_of_mem_preorder h⟩
    · obtain ⟨u, hu, inside⟩ := inside_of_mem_preorderOf h
      exact ⟨u, List.mem_cons_of_mem _ hu, inside⟩

end

mutual

/-- A walk never goes back in the text. -/
theorem Sound.pairwise_preorder {depth : Nat} : ∀ {t : Tree}, t.Sound → InSequence t.tokens →
    (t.preorder depth).Pairwise fun a b => a.2.pos.raw ≤ b.2.pos.raw
  | token _, _, _ => by
    rw [preorder]
    exact .nil
  | node k ps, sound, sequence => by
    rw [preorder, List.pairwise_cons]
    refine ⟨fun ⟨d, u⟩ hu => ?_, ?_⟩
    · obtain ⟨p, hp, inside⟩ := inside_of_mem_preorderOf hu
      exact (sound.within sequence (.part hp inside)).1
    · exact pairwise_preorderOf (fun p hp => sound.part hp) (by simpa using sequence)

theorem pairwise_preorderOf {depth : Nat} : ∀ {ts : List Tree}, (∀ t ∈ ts, t.Sound) →
    InSequence (tokensOf ts) →
    (preorderOf depth ts).Pairwise fun a b => a.2.pos.raw ≤ b.2.pos.raw
  | [], _, _ => by
    rw [preorderOf]
    exact .nil
  | t :: ts, sound, sequence => by
    rw [tokensOf] at sequence
    have here := sound t List.mem_cons_self
    rw [preorderOf, List.pairwise_append]
    refine ⟨here.pairwise_preorder (sequence.sublist (List.sublist_append_left _ _)),
      pairwise_preorderOf (fun u hu => sound u (List.mem_cons_of_mem _ hu))
        (sequence.sublist (List.sublist_append_right _ _)), fun ⟨_, u⟩ hu ⟨_, v⟩ hv => ?_⟩
    have hu := inside_of_mem_preorder hu
    obtain ⟨w, hw, hv⟩ := inside_of_mem_preorderOf hv
    -- `u` ends inside `t`, and `v` starts behind it
    have within := here.within (sequence.sublist (List.sublist_append_left _ _)) hu
    refine Nat.le_trans (Nat.le_of_lt within.2.1) (Nat.le_trans within.2.2 ?_)
    exact here.stop_le_pos ((sound w (List.mem_cons_of_mem _ hw)).of_inside hv) sequence
      (hv.tokens_sublist.trans (tokens_sublist_of_mem hw))

end

end Tree

/-! ## Derivations -/

/-- All trees of a derivation stand where their tokens do. -/
theorem Ebnf.Derives.sound {e : Ebnf} {xs : List PlacedToken} {ts : List Tree}
    (h : Derives e xs ts) (he : e.edged = true) (sized : ∀ x ∈ xs, x.ending = x.stop) :
    ∀ t ∈ ts, t.Sound := by
  induction h with
  | empty => exact fun t ht => absurd ht List.not_mem_nil
  | terminal accepted =>
    intro t ht u inside s
    obtain rfl := List.mem_singleton.mp ht
    cases inside
    exact (Derives.terminal accepted).exact he sized _ (List.mem_singleton_self _)
  | hidden _ => exact fun t ht => absurd ht List.not_mem_nil
  | seq _ _ ihe ihf =>
    simp only [edged, Bool.and_eq_true] at he
    intro t ht
    rcases List.mem_append.mp ht with ht | ht
    · exact ihe he.1 (fun x hx => sized x (List.mem_append_left _ hx)) t ht
    · exact ihf he.2 (fun x hx => sized x (List.mem_append_right _ hx)) t ht
  | left _ ih =>
    simp only [edged, Bool.and_eq_true] at he
    exact ih he.1 sized
  | right _ ih =>
    simp only [edged, Bool.and_eq_true] at he
    exact ih he.2 sized
  | starNil => exact fun t ht => absurd ht List.not_mem_nil
  | starCons _ _ ihe ihs =>
    intro t ht
    rcases List.mem_append.mp ht with ht | ht
    · exact ihe he (fun x hx => sized x (List.mem_append_left _ hx)) t ht
    · exact ihs he (fun x hx => sized x (List.mem_append_right _ hx)) t ht
  | node hd ih =>
    intro t ht u inside s
    obtain rfl := List.mem_singleton.mp ht
    cases inside with
    | here => exact hd.node.exact he sized _ (List.mem_singleton_self _)
    | part hp inside =>
      simp only [edged, Bool.and_eq_true] at he
      exact ih he.2 sized _ hp _ inside s
  | @ref r _ _ _ ih => exact ih (edged_ofRule r) sized

end GraphQL
