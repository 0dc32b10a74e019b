import GraphQL.Proofs.Ebnf.Edges
import GraphQL.Schema

/-!
# Groups of definitions

A schema keeps its definitions in groups by kind and restores their order by sorting. Nothing is
lost on the way: for definitions of the nine kinds that start further and further behind, as those
of a text do, the order restored is the order they were given in.

Results:
1. `flatten_filter_perm`: grouping by kind keeps every definition once.
2. `definitions_ofDefinitions`: sorting restores the order of the text.
3. `Derives.ordered`: the definitions of a text start further and further behind and are of the
   kinds of the grammar.
-/

namespace GraphQL

namespace Schema

/-- The kinds of the nine groups. -/
def kinds : List NodeKind :=
  [.schemaDefinition, .scalarDefinition, .typeDefinition, .interfaceDefinition, .unionDefinition,
    .enumDefinition, .inputObjectDefinition, .extendDefinition, .directiveDefinition]

theorem groups_ofDefinitions (ds : List Tree) :
    (ofDefinitions ds).groups = kinds.map fun k => ds.filter (·.isKind k) := rfl

theorem isKind_unique {t : Tree} {k l : NodeKind} (hk : t.isKind k = true)
    (hl : t.isKind l = true) : k = l := by
  simp only [Tree.isKind, decide_eq_true_eq] at hk hl
  exact Option.some.inj (hk.symm.trans hl)

/-- Grouping by kind keeps every definition once. -/
theorem flatten_filter_perm {ks : List NodeKind} (distinct : ks.Nodup) {ds : List Tree}
    (known : ∀ d ∈ ds, ∃ k ∈ ks, d.isKind k = true) :
    (ks.map fun k => ds.filter (·.isKind k)).flatten.Perm ds := by
  induction ks generalizing ds with
  | nil =>
    cases ds with
    | nil => exact .refl _
    | cons d ds =>
      obtain ⟨k, hk, -⟩ := known d List.mem_cons_self
      cases hk
  | cons k ks ih =>
    obtain ⟨new, distinct⟩ := List.nodup_cons.mp distinct
    -- the other groups are those of the definitions of the other kinds
    have others : (ks.map fun l => ds.filter (·.isKind l)) =
        ks.map fun l => (ds.filter fun d => !d.isKind k).filter (·.isKind l) := by
      refine List.map_congr_left fun l hl => ?_
      rw [List.filter_filter]
      refine List.filter_congr fun d _ => ?_
      cases hd : d.isKind l with
      | false => rfl
      | true =>
        have : d.isKind k = false :=
          Bool.eq_false_iff.mpr fun h => new (isKind_unique h hd ▸ hl)
        rw [this]
        rfl
    rw [List.map_cons, List.flatten_cons, others]
    refine ((ih distinct fun d hd => ?_).append_left _).trans (List.filter_append_perm _ ds)
    obtain ⟨hd, not⟩ := List.mem_filter.mp hd
    obtain ⟨l, hl, hk⟩ := known d hd
    rcases List.mem_cons.mp hl with rfl | hl
    · rw [hk] at not
      exact Bool.noConfusion not
    · exact ⟨l, hl, hk⟩

/-- Sorting restores the order of the text. -/
theorem definitions_ofDefinitions {ds : List Tree}
    (known : ∀ d ∈ ds, ∃ k ∈ kinds, d.isKind k = true)
    (ordered : ds.Pairwise fun a b => a.pos.raw < b.pos.raw) :
    (ofDefinitions ds).definitions = ds := by
  have perm : (ofDefinitions ds).definitions.Perm ds := by
    refine (List.mergeSort_perm _ _).trans ?_
    rw [groups_ofDefinitions]
    exact flatten_filter_perm (by decide) known
  have sorted : (ofDefinitions ds).definitions.Pairwise
      fun a b => decide (a.pos.raw ≤ b.pos.raw) = true := by
    refine List.pairwise_mergeSort (fun a b c => ?_) (fun a b => ?_) _
    · simp only [decide_eq_true_eq]
      exact Nat.le_trans
    · simp only [Bool.or_eq_true, decide_eq_true_eq]
      exact Nat.le_total _ _
  have sorted' : ds.Pairwise fun a b => decide (a.pos.raw ≤ b.pos.raw) = true :=
    ordered.imp fun h => decide_eq_true (Nat.le_of_lt h)
  -- two definitions of the text that start at the same place are the same
  have apart : ∀ ⦃a⦄, a ∈ ds → ∀ ⦃b⦄, b ∈ ds → a.pos.raw = b.pos.raw → a = b :=
    List.Pairwise.forall_of_forall_of_flip (fun _ _ _ => rfl)
      (ordered.imp fun h e => absurd e (Nat.ne_of_lt h))
      (ordered.imp fun h e => absurd e (Nat.ne_of_gt h))
  exact perm.eq_of_pairwise
    (fun a b ha hb hab hba => apart (perm.subset ha) hb
      (Nat.le_antisymm (of_decide_eq_true hab) (of_decide_eq_true hba)))
    sorted sorted'

end Schema

namespace Ebnf

/-- The constructs of a row start further and further behind and are of the kinds described. -/
theorem Derives.ordered {tape : Nat → PlacedToken} {last : Nat}
    (increasing : ∀ i j, i < j → j ≤ last → (tape i).pos.raw < (tape j).pos.raw)
    {e : Ebnf} (single : e.single = true) (consumes : e.consumes = true)
    (keeps : e.keeps .front = true) (edged : e.edged = true) {i j : Nat} (hij : i ≤ j)
    (hj : j ≤ last) {ts : List Tree} (h : Derives (.star e) (slice tape i j) ts)
    (sized : ∀ x ∈ slice tape i j, x.ending = x.stop) :
    (∀ t ∈ ts, (∃ k ∈ e.heads, t.isKind k = true) ∧ (tape i).pos.raw ≤ t.pos.raw) ∧
      ts.Pairwise fun a b => a.pos.raw < b.pos.raw := by
  generalize hs : Ebnf.star e = s at h
  generalize hx : slice tape i j = xs at h sized
  induction h generalizing i with
  | starNil => exact ⟨fun t ht => absurd ht List.not_mem_nil, .nil⟩
  | @starCons f xs ys ts us first _ _ ih =>
    obtain rfl : e = f := Ebnf.star.inj hs
    obtain ⟨m, him, hmj, rfl, hys⟩ := slice_eq_append hij hx
    obtain ⟨k, hk, ps, rfl⟩ := first.exists_node single
    have forward : i < m := by
      refine Nat.lt_of_le_of_ne him fun he => first.ne_nil consumes ?_
      rw [he, slice_self]
    have starts : (Tree.node k ps).pos = (tape i).pos := by
      obtain ⟨x, hx, place⟩ := first.place_eq keeps edged fun x hx =>
        sized x (List.mem_append_left _ hx)
      obtain rfl : x = tape i := Option.some.inj (hx.symm.trans (head?_slice forward))
      exact place
    obtain ⟨inside, rest⟩ := ih hmj rfl hys fun x hx => sized x (List.mem_append_right _ hx)
    have later : (tape i).pos.raw < (tape m).pos.raw := increasing i m forward (by omega)
    refine ⟨fun t ht => ?_, List.pairwise_cons.mpr ⟨fun t ht => ?_, rest⟩⟩
    · rcases List.mem_cons.mp ht with rfl | ht
      · exact ⟨⟨k, hk, decide_eq_true rfl⟩, Nat.le_of_eq (by rw [starts])⟩
      · exact ⟨(inside t ht).1, Nat.le_trans (Nat.le_of_lt later) (inside t ht).2⟩
    · rw [starts]
      exact Nat.lt_of_lt_of_le later (inside t ht).2
  | _ => cases hs

end Ebnf

end GraphQL
