import GraphQL.Proofs.Ebnf.Opening
import GraphQL.Proofs.Reading.Progress

/-!
# Where reading stops

A grammar looks two tokens ahead only where it is bound to take the first of them. So when it stops
it has looked at the token that it stops at and at nothing behind it. `tidies` follows a grammar and
remembers whether a second token may have been looked at, in which case the next token is known to
be like some terminal.

Results:
1. `Reads.tidy`, `Stops.tidy`: how far a grammar that passes the check has looked.
2. `tidies_ofRule`, `tidies_executableDocument`, `tidies_typeSystemDocument`: the grammars of the
   language pass it.
-/

namespace GraphQL

/-- How far may have been looked: at the next token at most, or at the one behind it too if the next
one is like the given terminal. -/
abbrev Held := Option Terminal

/-- No more has been looked at than `held` allows. -/
def Cursor.Tidy (tape : Nat → PlacedToken) (c : Cursor) : Held → Prop
  | none => c.seen ≤ c.index + 1
  | some t =>
    c.seen ≤ c.index + 1 ∨ (c.seen ≤ c.index + 2 ∧ t.accepts (tape c.index).token = true)

namespace Held

/-- What either of two cases allows. -/
def join : Held → Held → Option Held
  | none, h | h, none => some h
  | some t, some u => if t = u then some (some t) else none

/-- What is allowed before the two branches of a choice: behind a test that passes, and behind one
that fails. -/
def branches : Held → Lookahead → Option (Held × Held)
  | h, .next u =>
    match h with
    | none => some (none, none)
    | some t => some (some t, if t.implies u then none else some t)
  | none, .nextNot _ => some (none, none)
  | none, .nextTwo t _ => some (some t, some t)
  | some _, _ => none

end Held

variable {tape : Nat → PlacedToken} {c : Cursor} {h yes no : Held}

namespace Cursor

theorem Tidy.of_none (hc : c.Tidy tape none) : c.Tidy tape h := by
  cases h with
  | none => exact hc
  | some t => exact .inl hc

theorem Tidy.of_join {a b joined : Held} (hj : a.join b = some joined)
    (hc : c.Tidy tape a ∨ c.Tidy tape b) : c.Tidy tape joined := by
  cases a with
  | none =>
    obtain rfl : b = joined := Option.some.inj hj
    exact hc.elim Tidy.of_none id
  | some t =>
    cases b with
    | none =>
      obtain rfl : some t = joined := Option.some.inj hj
      exact hc.elim id Tidy.of_none
    | some u =>
      simp only [Held.join, Option.ite_none_right_eq_some, Option.some.injEq] at hj
      obtain ⟨rfl, rfl⟩ := hj
      exact hc.elim id id

theorem Tidy.peek (hc : c.Tidy tape h) : c.peek.Tidy tape h := by
  cases h with
  | none => exact Nat.max_le.mpr ⟨hc, Nat.le_refl _⟩
  | some t =>
    refine hc.imp (fun hc => Nat.max_le.mpr ⟨hc, Nat.le_refl _⟩) fun ⟨hc, accepted⟩ => ?_
    exact ⟨Nat.max_le.mpr ⟨hc, Nat.le_succ _⟩, accepted⟩

/-- A token that is taken leaves no more than the next one looked at. -/
theorem Tidy.take (hc : c.Tidy tape h) : c.take.Tidy tape none := by
  have seen : c.seen ≤ c.index + 2 := by
    cases h with
    | none => exact Nat.le_succ_of_le hc
    | some t => exact hc.elim Nat.le_succ_of_le And.left
  exact Nat.max_le.mpr ⟨seen, Nat.le_succ _⟩

/-- Where a token is refused that a second one would have implied, no second one has been looked
at. -/
theorem Tidy.of_refuses {u : Terminal} (hc : c.Tidy tape h) (implied : h.all (·.implies u) = true)
    (refused : u.accepts (tape c.index).token = false) : c.Tidy tape none := by
  cases h with
  | none => exact hc
  | some t =>
    refine hc.elim id fun ⟨_, accepted⟩ => ?_
    have := Terminal.accepts_of_implies implied accepted
    rw [refused] at this
    exact Bool.noConfusion this

theorem Tidy.glance {test : Lookahead} (hb : h.branches test = some (yes, no))
    (hc : c.Tidy tape h) :
    (test.passes tape c.index = true → (test.glance tape c).Tidy tape yes) ∧
      (test.passes tape c.index = false → (test.glance tape c).Tidy tape no) := by
  cases test with
  | next u =>
    cases h with
    | none =>
      obtain ⟨rfl, rfl⟩ := Prod.mk.inj (Option.some.inj hb)
      exact ⟨fun _ => hc.peek, fun _ => hc.peek⟩
    | some t =>
      obtain ⟨rfl, rfl⟩ := Prod.mk.inj (Option.some.inj hb)
      refine ⟨fun _ => hc.peek, fun refused => ?_⟩
      split
      · next implied => exact (hc.of_refuses implied refused).peek
      · exact hc.peek
  | nextNot u =>
    cases h with
    | none =>
      obtain ⟨rfl, rfl⟩ := Prod.mk.inj (Option.some.inj hb)
      exact ⟨fun _ => hc.peek, fun _ => hc.peek⟩
    | some t => cases hb
  | nextTwo t u =>
    cases h with
    | none =>
      obtain ⟨rfl, rfl⟩ := Prod.mk.inj (Option.some.inj hb)
      -- the second token is looked at only if the first one is like `t`
      have looked : ((Lookahead.nextTwo t u).glance tape c).Tidy tape (some t) := by
        by_cases accepted : t.accepts (tape c.index).token = true
        · simp only [Lookahead.glance, if_pos accepted]
          exact .inr ⟨Nat.max_le.mpr ⟨Nat.le_succ_of_le hc, Nat.le_refl _⟩, accepted⟩
        · simp only [Lookahead.glance, if_neg accepted]
          exact .inl (Tidy.peek (h := none) hc)
      exact ⟨fun _ => looked, fun _ => looked⟩
    | some t => cases hb

end Cursor

namespace Grammar

/-- How far the grammar may have looked when it has been read, if it may have looked as far as `h`
before; nothing if it may stop after having looked too far. -/
def tidies : Grammar → Held → Option Held
  | done, h => some h
  | token u, h | separator u, h => if h.all (·.implies u) then some none else none
  | fail _, none => some none
  | fail _, some _ => none
  | seq g g', h => (g.tidies h).bind g'.tidies
  | choice test g g', h =>
    (h.branches test).bind fun (yes, no) =>
      (g.tidies yes).bind fun a => (g'.tidies no).bind fun b => a.join b
  | many (.nextTwo _ _) _, _ | many _ _, some _ => none
  | many _ g, none => if g.tidies none = some none then some none else none
  | node _ g, h => g.tidies h
  | nested g, none => g.tidies none
  | nested _, some _ => none
  | call _, none => some none
  | call _, some _ => none

theorem tidies_ofRule (r : Rule) : (ofRule r).tidies none = some none := by
  cases r with
  | value constant => cases constant <;> decide +kernel
  | _ => decide +kernel

theorem tidies_executableDocument : executableDocument.tidies none = some none := by
  decide +kernel

theorem tidies_typeSystemDocument : typeSystemDocument.tidies none = some none := by
  decide +kernel

variable {limit d : Nat} {g : Grammar} {c' : Cursor} {ts : List Tree} {fault : Fault} {h' : Held}

/-- What a check of a repetition says about its item. -/
theorem tidies_many {test : Lookahead} (hg : (many test g).tidies h = some h') :
    h = none ∧ h' = none ∧ g.tidies none = some none ∧
      Held.branches none test = some (none, none) := by
  cases test with
  | nextTwo t u => cases hg
  | _ =>
    cases h with
    | some t => cases hg
    | none =>
      simp only [tidies, Option.ite_none_right_eq_some, Option.some.injEq] at hg
      exact ⟨rfl, hg.2.symm, hg.1, rfl⟩

theorem tidies_choice {test : Lookahead} {g g' : Grammar}
    (hg : (choice test g g').tidies h = some h') :
    ∃ yes no a b, h.branches test = some (yes, no) ∧ g.tidies yes = some a ∧
      g'.tidies no = some b ∧ a.join b = some h' := by
  simp only [tidies, Option.bind_eq_some_iff] at hg
  obtain ⟨⟨yes, no⟩, branches, a, first, b, second, join⟩ := hg
  exact ⟨yes, no, a, b, branches, first, second, join⟩

theorem tidies_nested (hg : (nested g).tidies h = some h') :
    h = none ∧ g.tidies none = some h' := by
  cases h with
  | none => exact ⟨rfl, hg⟩
  | some t => cases hg

theorem tidies_call {r : Rule} (hg : (call r).tidies h = some h') : h = none ∧ h' = none := by
  cases h with
  | none => exact ⟨rfl, (Option.some.inj hg).symm⟩
  | some t => cases hg

theorem Reads.tidy (reads : Reads tape limit d g c ts c') (hg : g.tidies h = some h')
    (hc : c.Tidy tape h) : c'.Tidy tape h' := by
  induction reads generalizing h h' with
  | done =>
    obtain rfl := Option.some.inj hg
    exact hc
  | token _ =>
    simp only [tidies, Option.ite_none_right_eq_some, Option.some.injEq] at hg
    exact hg.2 ▸ hc.take
  | separator _ =>
    simp only [tidies, Option.ite_none_right_eq_some, Option.some.injEq] at hg
    exact hg.2 ▸ hc.take
  | seq _ _ ihg ihh =>
    obtain ⟨middle, first, second⟩ := Option.bind_eq_some_iff.mp hg
    exact ihh second (ihg first hc)
  | yes passed _ ih =>
    obtain ⟨yes, no, a, b, branches, first, second, join⟩ := tidies_choice hg
    exact .of_join join (.inl (ih first ((hc.glance branches).1 passed)))
  | no failed _ ih =>
    obtain ⟨yes, no, a, b, branches, first, second, join⟩ := tidies_choice hg
    exact .of_join join (.inr (ih second ((hc.glance branches).2 failed)))
  | ends failed =>
    obtain ⟨rfl, rfl, -, branches⟩ := tidies_many hg
    exact (hc.glance branches).2 failed
  | again passed _ _ ihg ihm =>
    obtain ⟨rfl, rfl, item, branches⟩ := tidies_many hg
    exact ihm hg (ihg item ((hc.glance branches).1 passed))
  | node _ ih => exact ih hg hc
  | nested _ _ ih =>
    obtain ⟨rfl, body⟩ := tidies_nested hg
    exact ih body hc
  | @call d r c c' ts _ ih =>
    obtain ⟨rfl, rfl⟩ := tidies_call hg
    exact ih (tidies_ofRule r) hc

/-- A grammar that stops has looked at no token behind the one that it stops at. -/
theorem Stops.tidy (stops : Stops tape limit d g c fault c') (hg : g.tidies h = some h')
    (hc : c.Tidy tape h) : c'.Tidy tape none := by
  induction stops generalizing h h' with
  | token refused =>
    simp only [tidies, Option.ite_none_right_eq_some] at hg
    exact (hc.of_refuses hg.1 refused).peek
  | separator refused =>
    simp only [tidies, Option.ite_none_right_eq_some] at hg
    exact (hc.of_refuses hg.1 refused).peek
  | fail =>
    cases h with
    | none => exact hc.peek
    | some t => cases hg
  | first _ ih =>
    obtain ⟨middle, first, -⟩ := Option.bind_eq_some_iff.mp hg
    exact ih first hc
  | second reads _ ih =>
    obtain ⟨middle, first, second⟩ := Option.bind_eq_some_iff.mp hg
    exact ih second (reads.tidy first hc)
  | yes passed _ ih =>
    obtain ⟨yes, no, a, b, branches, first, second, join⟩ := tidies_choice hg
    exact ih first ((hc.glance branches).1 passed)
  | no failed _ ih =>
    obtain ⟨yes, no, a, b, branches, first, second, join⟩ := tidies_choice hg
    exact ih second ((hc.glance branches).2 failed)
  | item passed _ ih =>
    obtain ⟨rfl, rfl, item, branches⟩ := tidies_many hg
    exact ih item ((hc.glance branches).1 passed)
  | again passed reads _ ih =>
    obtain ⟨rfl, rfl, item, branches⟩ := tidies_many hg
    exact ih hg (reads.tidy item ((hc.glance branches).1 passed))
  | node _ ih => exact ih hg hc
  | tooDeep _ =>
    obtain ⟨rfl, -⟩ := tidies_nested hg
    exact hc.peek
  | nested _ _ ih =>
    obtain ⟨rfl, body⟩ := tidies_nested hg
    exact ih body hc
  | @call d r c c' fault _ ih =>
    obtain ⟨rfl, rfl⟩ := tidies_call hg
    exact ih (tidies_ofRule r) hc

end Grammar

end GraphQL
