import GraphQL.Proofs.Ebnf.Opening
import GraphQL.Proofs.Reading.Soundness

/-!
# Progress

Two checks on grammars which show that reading them comes to an end. They are computed, so that a
grammar passes them by evaluation.

Results:
1. `Reads.index_lt`: a grammar that describes no empty row of tokens takes at least one.
2. `Reads.index_le`, `Stops.index_le`: a grammar that passes `steady` does not take the end of the
   text.
3. `Room`: a text is short enough for a bound on how deep constructs are inside one another.
4. `guarded_ofRule`, `steady_ofRule`, `steady_executableDocument`, `steady_typeSystemDocument`: the
   grammars of the language pass the checks.
-/

namespace GraphQL

namespace Grammar

/-- There is a token in front of every construct that contains itself. -/
def guarded : Grammar → Bool
  | done | token _ | separator _ | fail _ => true
  | call _ => false
  | seq g h => g.guarded && (g.toEbnf.consumes || h.guarded)
  | choice _ g h => g.guarded && h.guarded
  | many _ g | node _ g | nested g => g.guarded

/-- The end of the text is not taken, and what is repeated takes a token each time. -/
def steady : Grammar → Bool
  | done | fail _ | call _ => true
  | token t | separator t => t ≠ .kind .eof
  | seq g h | choice _ g h => g.steady && h.steady
  | many _ g => g.toEbnf.consumes && g.steady
  | node _ g | nested g => g.steady

theorem guarded_ofRule (r : Rule) : (ofRule r).guarded = true := by
  cases r with
  | value constant => cases constant <;> rfl
  | _ => rfl

theorem steady_ofRule (r : Rule) : (ofRule r).steady = true := by
  cases r with
  | value constant => cases constant <;> rfl
  | _ => rfl

theorem steady_executableDocument : executableDocument.steady = true := rfl

theorem steady_typeSystemDocument : typeSystemDocument.steady = true := rfl

variable {tape : Nat → PlacedToken} {limit d : Nat} {g : Grammar} {c c' : Cursor} {ts : List Tree}

theorem Reads.index_lt (h : Reads tape limit d g c ts c') (hg : g.toEbnf.consumes = true) :
    c.index < c'.index := by
  refine Nat.lt_of_le_of_ne h.upto.index fun e => h.derives.ne_nil hg ?_
  rw [e, slice_self]

theorem Reads.index_le {last : Nat} (heof : (tape last).token.kind = .eof)
    (h : Reads tape limit d g c ts c') (hg : g.steady = true) (hc : c.index ≤ last) :
    c'.index ≤ last := by
  -- the last token is not the one that has been taken
  have taken {t : Terminal} {i : Nat} (ht : t ≠ .kind .eof)
      (accepted : t.accepts (tape i).token = true) (hi : i ≤ last) : i + 1 ≤ last := by
    refine Nat.lt_of_le_of_ne hi fun e => ?_
    exact Terminal.kind_ne_of_accepts (by decide) ht accepted (e ▸ heof)
  induction h with
  | done => exact hc
  | token accepted => exact taken (of_decide_eq_true hg) accepted hc
  | separator accepted => exact taken (of_decide_eq_true hg) accepted hc
  | seq _ _ ihg ihh =>
    simp only [steady, Bool.and_eq_true] at hg
    exact ihh hg.2 (ihg hg.1 hc)
  | yes _ _ ih =>
    simp only [steady, Bool.and_eq_true] at hg
    exact ih hg.1 (by simpa using hc)
  | no _ _ ih =>
    simp only [steady, Bool.and_eq_true] at hg
    exact ih hg.2 (by simpa using hc)
  | ends _ => simpa using hc
  | again _ _ _ ihg ihm =>
    have hs := hg
    simp only [steady, Bool.and_eq_true] at hg
    exact ihm hs (ihg hg.2 (by simpa using hc))
  | node _ ih => exact ih hg hc
  | nested _ _ ih => exact ih hg hc
  | @call d r c c' ts _ ih => exact ih (steady_ofRule r) hc

theorem Stops.index_le {last : Nat} {fault : Fault} (heof : (tape last).token.kind = .eof)
    (h : Stops tape limit d g c fault c') (hg : g.steady = true) (hc : c.index ≤ last) :
    c'.index ≤ last := by
  induction h with
  | token _ => exact hc
  | separator _ => exact hc
  | fail => exact hc
  | tooDeep _ => exact hc
  | first _ ih =>
    simp only [steady, Bool.and_eq_true] at hg
    exact ih hg.1 hc
  | second reads _ ih =>
    simp only [steady, Bool.and_eq_true] at hg
    exact ih hg.2 (reads.index_le heof hg.1 hc)
  | yes _ _ ih =>
    simp only [steady, Bool.and_eq_true] at hg
    exact ih hg.1 (by simpa using hc)
  | no _ _ ih =>
    simp only [steady, Bool.and_eq_true] at hg
    exact ih hg.2 (by simpa using hc)
  | item _ _ ih =>
    simp only [steady, Bool.and_eq_true] at hg
    exact ih hg.2 (by simpa using hc)
  | again _ reads _ ih =>
    have hs := hg
    simp only [steady, Bool.and_eq_true] at hg
    exact ih hs (reads.index_le heof hg.2 (by simpa using hc))
  | node _ ih => exact ih hg hc
  | nested _ _ ih => exact ih hg hc
  | @call d r c c' fault _ ih => exact ih (steady_ofRule r) hc

/-- The text is short enough for `levels` recursive constructs inside one another from `c` on, where
one more is allowed if a token comes in front of it. -/
def Room (last levels : Nat) (c : Cursor) (g : Grammar) : Prop :=
  last < c.index + levels ∨ (last ≤ c.index + levels ∧ g.guarded = true)

theorem Room.mono {last last' levels : Nat} {c c' : Cursor} {g : Grammar}
    (h : Room last levels c g) (hl : last' ≤ last) (hc : c.index ≤ c'.index) :
    Room last' levels c' g := by
  rcases h with h | ⟨h, hg⟩
  · exact .inl (by omega)
  · exact .inr ⟨by omega, hg⟩

/-- Behind a token any grammar has room. -/
theorem Room.behind {last levels : Nat} {c c' : Cursor} {g h : Grammar}
    (hg : Room last levels c g) (hc : c.index < c'.index) : Room last levels c' h := by
  refine .inl ?_
  rcases hg with hg | ⟨hg, -⟩ <;> omega

theorem Room.first {last levels : Nat} {c : Cursor} {g h : Grammar}
    (room : Room last levels c (.seq g h)) : Room last levels c g := by
  refine room.imp_right fun ⟨hl, hb⟩ => ⟨hl, ?_⟩
  simp only [guarded, Bool.and_eq_true] at hb
  exact hb.1

theorem Room.second {last levels : Nat} {c c' : Cursor} {g h : Grammar}
    (room : Room last levels c (.seq g h)) (hc : c.index ≤ c'.index)
    (consumed : g.toEbnf.consumes = true → c.index < c'.index) : Room last levels c' h := by
  rcases room with hl | ⟨hl, hb⟩
  · exact .inl (by omega)
  · simp only [guarded, Bool.and_eq_true, Bool.or_eq_true] at hb
    rcases hb.2 with consumes | guarded
    · exact Room.behind (.inr ⟨hl, hb.1⟩) (consumed consumes)
    · exact Room.mono (.inr ⟨hl, guarded⟩) (Nat.le_refl last) hc

theorem Room.branches {last levels : Nat} {c : Cursor} {test : Lookahead} {g h : Grammar}
    (room : Room last levels c (.choice test g h)) :
    Room last levels c g ∧ Room last levels c h := by
  rcases room with hl | ⟨hl, hb⟩
  · exact ⟨.inl hl, .inl hl⟩
  · simp only [guarded, Bool.and_eq_true] at hb
    exact ⟨.inr ⟨hl, hb.1⟩, .inr ⟨hl, hb.2⟩⟩

end Grammar

end GraphQL
