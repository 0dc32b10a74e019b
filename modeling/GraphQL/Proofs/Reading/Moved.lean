import GraphQL.Proofs.Ebnf.Shift
import GraphQL.Proofs.Reading.Relation

/-!
# Reading somewhere else

A grammar does not know where on the tape it is read. Behind any number of other tokens, and with
the tokens at other positions, it is read in the same way and gives the moved trees. It may have
been looked further ahead there before: `Cursor.moved n s` is a place `n` tokens further on where
`s` tokens have been looked at in any case.

Results:
1. `Reads.moved`, `Stops.moved`: what is read or stopped at somewhere is read or stopped at wherever
   the same tokens come.
2. `Reads.copied`: what is read is read on every tape that agrees as far as has been looked.
-/

namespace GraphQL

namespace Cursor

/-- The place `n` tokens further on, where `s` tokens have been looked at in any case. -/
def moved (n s : Nat) (c : Cursor) : Cursor := ⟨c.index + n, max s (c.seen + n)⟩

variable (n s : Nat) (c : Cursor)

@[simp] theorem index_moved : (c.moved n s).index = c.index + n := rfl

theorem take_moved : (c.moved n s).take = c.take.moved n s := by
  show Cursor.mk (c.index + n + 1) (max (max s (c.seen + n)) (c.index + n + 1)) =
    ⟨c.index + 1 + n, max s (max c.seen (c.index + 1) + n)⟩
  rw [mk.injEq]
  omega

theorem peek_moved : (c.moved n s).peek = c.peek.moved n s := by
  show Cursor.mk (c.index + n) (max (max s (c.seen + n)) (c.index + n + 1)) =
    ⟨c.index + n, max s (max c.seen (c.index + 1) + n)⟩
  rw [mk.injEq]
  omega

@[simp] theorem moved_zero : c.moved 0 0 = c := by
  simp [moved]

end Cursor

section Moved

variable {tape tape' : Nat → PlacedToken} {m : Int} {n b : Nat}

theorem token_of_moved (same : ∀ i, i < b → tape' (i + n) = (tape i).shift m) {i : Nat}
    (hi : i < b) : (tape' (i + n)).token = (tape i).token := by
  rw [same i hi, PlacedToken.token_shift]

/-- A test has the same outcome at the moved place. -/
theorem Lookahead.glance_moved (same : ∀ i, i < b → tape' (i + n) = (tape i).shift m) (s : Nat)
    (test : Lookahead) (c : Cursor) (bound : (test.glance tape c).seen ≤ b) :
    test.passes tape' (c.moved n s).index = test.passes tape c.index ∧
      test.glance tape' (c.moved n s) = (test.glance tape c).moved n s := by
  have first : (tape' (c.index + n)).token = (tape c.index).token :=
    token_of_moved same (Nat.lt_of_lt_of_le (index_lt_seen_glance tape test c) bound)
  cases test with
  | nextTwo t u =>
    by_cases h : t.accepts (tape c.index).token = true
    · have looked : c.index + 1 < b := by
        refine Nat.lt_of_lt_of_le ?_ bound
        simp only [glance, h, if_true]
        exact Nat.lt_of_lt_of_le (Nat.lt_succ_self _) (Nat.le_max_right _ _)
      have second : (tape' (c.index + n + 1)).token = (tape (c.index + 1)).token := by
        rw [Nat.add_right_comm]
        exact token_of_moved same looked
      refine ⟨by simp only [passes, Cursor.index_moved, first, second], ?_⟩
      simp only [glance, Cursor.index_moved, first, if_pos h]
      show Cursor.mk (c.index + n) (max (max s (c.seen + n)) (c.index + n + 2)) =
        ⟨c.index + n, max s (max c.seen (c.index + 2) + n)⟩
      rw [Cursor.mk.injEq]
      omega
    · refine ⟨by simp only [passes, Cursor.index_moved, first, h, Bool.false_and], ?_⟩
      simp only [glance, Cursor.index_moved, first, if_neg h]
      exact Cursor.peek_moved n s c
  | next t => exact ⟨by simp only [passes, Cursor.index_moved, first], Cursor.peek_moved n s c⟩
  | nextNot t => exact ⟨by simp only [passes, Cursor.index_moved, first], Cursor.peek_moved n s c⟩

namespace Grammar

variable {limit d : Nat} {g : Grammar} {c c' : Cursor} {ts : List Tree} {fault : Fault}

/-- A grammar is read in the same way at the moved place and gives the moved trees. -/
theorem Reads.moved (same : ∀ i, i < b → tape' (i + n) = (tape i).shift m) (s : Nat)
    (h : Reads tape limit d g c ts c') (bound : c'.seen ≤ b) :
    Reads tape' limit d g (c.moved n s) (ts.map (Tree.shift m)) (c'.moved n s) := by
  -- a token that is taken has been looked at
  have here {c : Cursor} (hc : c.take.seen ≤ b) :
      tape' (c.moved n s).index = (tape c.index).shift m :=
    same _ (Nat.lt_of_lt_of_le (Nat.lt_succ_self _) (Nat.le_trans (Nat.le_max_right _ _) hc))
  induction h with
  | done => exact .done
  | @token d t c accepted =>
    have token := here bound
    have accepted' : t.accepts (tape' (c.moved n s).index).token = true := by
      rw [token]
      exact accepted
    rw [← Cursor.take_moved, List.map_singleton, Tree.shift_token, ← token]
    exact .token accepted'
  | @separator d t c accepted =>
    rw [← Cursor.take_moved]
    refine .separator ?_
    rw [here bound]
    exact accepted
  | seq hg hh ihg ihh =>
    rw [List.map_append]
    exact (ihg (Nat.le_trans hh.upto.seen bound)).seq (ihh bound)
  | @yes d test g h c c' ts passed hg ih =>
    obtain ⟨hp, hl⟩ := Lookahead.glance_moved same s test c (Nat.le_trans hg.upto.seen bound)
    exact .yes (hp.trans passed) (hl.symm ▸ ih bound)
  | @no d test g h c c' ts failed hh ih =>
    obtain ⟨hp, hl⟩ := Lookahead.glance_moved same s test c (Nat.le_trans hh.upto.seen bound)
    exact .no (hp.trans failed) (hl.symm ▸ ih bound)
  | @ends d test g c failed =>
    obtain ⟨hp, hl⟩ := Lookahead.glance_moved same s test c bound
    rw [← hl]
    exact .ends (hp.trans failed)
  | @again d test g c c' c'' ts us passed hg hm ihg ihm =>
    have seen := Nat.le_trans hm.upto.seen bound
    obtain ⟨hp, hl⟩ := Lookahead.glance_moved same s test c (Nat.le_trans hg.upto.seen seen)
    rw [List.map_append]
    exact .again (hp.trans passed) (hl.symm ▸ ihg seen) (ihm bound)
  | @node d k g c c' ts hg ih =>
    rw [List.map_singleton, Tree.shift_node]
    exact (ih bound).node
  | nested room _ ih => exact .nested room (ih bound)
  | call _ ih => exact .call (ih bound)

/-- A grammar stops for the same reason at the moved place. -/
theorem Stops.moved (same : ∀ i, i < b → tape' (i + n) = (tape i).shift m) (s : Nat)
    (h : Stops tape limit d g c fault c') (bound : c'.seen ≤ b) :
    Stops tape' limit d g (c.moved n s) fault (c'.moved n s) := by
  -- a token that is refused has been looked at
  have here {c : Cursor} (hc : c.peek.seen ≤ b) :
      (tape' (c.moved n s).index).token = (tape c.index).token :=
    token_of_moved same
      (Nat.lt_of_lt_of_le (Nat.lt_succ_self _) (Nat.le_trans (Nat.le_max_right _ _) hc))
  induction h with
  | @token d t c refused =>
    rw [← Cursor.peek_moved, ← here bound]
    exact .token (here bound ▸ refused)
  | @separator d t c refused =>
    rw [← Cursor.peek_moved, ← here bound]
    exact .separator (here bound ▸ refused)
  | @fail d expected c =>
    rw [← Cursor.peek_moved]
    exact .fail
  | first _ ih => exact .first (ih bound)
  | second hg hh ih =>
    exact .second (hg.moved same s (Nat.le_trans hh.upto.seen bound)) (ih bound)
  | @yes d test g h c c' fault passed hg ih =>
    obtain ⟨hp, hl⟩ := Lookahead.glance_moved same s test c (Nat.le_trans hg.upto.seen bound)
    exact .yes (hp.trans passed) (hl.symm ▸ ih bound)
  | @no d test g h c c' fault failed hh ih =>
    obtain ⟨hp, hl⟩ := Lookahead.glance_moved same s test c (Nat.le_trans hh.upto.seen bound)
    exact .no (hp.trans failed) (hl.symm ▸ ih bound)
  | @item d test g c c' fault passed hg ih =>
    obtain ⟨hp, hl⟩ := Lookahead.glance_moved same s test c (Nat.le_trans hg.upto.seen bound)
    exact .item (hp.trans passed) (hl.symm ▸ ih bound)
  | @again d test g c c' c'' ts fault passed hg hm ih =>
    have seen := Nat.le_trans hm.upto.seen bound
    obtain ⟨hp, hl⟩ := Lookahead.glance_moved same s test c (Nat.le_trans hg.upto.seen seen)
    exact .again (hp.trans passed) (hl.symm ▸ hg.moved same s seen) (ih bound)
  | node _ ih => exact .node (ih bound)
  | @tooDeep d g c deep =>
    rw [← Cursor.peek_moved]
    exact .tooDeep deep
  | nested room _ ih => exact .nested room (ih bound)
  | call _ ih => exact .call (ih bound)

/-- What is read is read on every tape that agrees as far as has been looked. -/
theorem Reads.copied (same : ∀ i, i < b → tape' i = tape i) (h : Reads tape limit d g c ts c')
    (bound : c'.seen ≤ b) : Reads tape' limit d g c ts c' := by
  have unmoved (i : Nat) (hi : i < b) : tape' (i + 0) = (tape i).shift 0 := by
    rw [PlacedToken.shift_zero]
    exact same i hi
  have moved := h.moved unmoved 0 bound
  rw [Cursor.moved_zero, Cursor.moved_zero, ← Tree.shiftOf_eq_map, Tree.shiftOf_zero] at moved
  exact moved

end Grammar

end Moved

end GraphQL
