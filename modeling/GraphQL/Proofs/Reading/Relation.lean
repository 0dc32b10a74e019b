import GraphQL.Proofs.Ebnf.Derivation
import GraphQL.Grammar.Executable

/-!
# Reading by a grammar

How a grammar is read, without the machinery that does it: `Reads` relates a grammar to the trees
that it gives when it is read from one place to another, and `Stops` to the token that it stops at
when it cannot be read to its end. The tokens are an infinite tape, and a place on it is a `Cursor`,
which also says how many tokens have been looked at so far.

Results:
1. `Reads.upto`, `Stops.upto`: reading goes forward and looks at what it takes.
2. `Reads.unique`, `Reads.not_stops`, `Stops.unique`: there is one way to read a grammar.
3. `Reads.transfer`, `Stops.transfer`: it depends on the kinds and texts of the tokens that have
   been looked at, and on nothing else.
-/

namespace GraphQL

/-- A place on the tape. -/
structure Cursor where
  /-- The number of the next token. -/
  index : Nat
  /-- How many tokens have been looked at. -/
  seen : Nat
  deriving DecidableEq, Repr

namespace Cursor

/-- The next token is looked at. -/
def peek (c : Cursor) : Cursor := { c with seen := max c.seen (c.index + 1) }

/-- The next token is taken. -/
def take (c : Cursor) : Cursor := ⟨c.index + 1, max c.seen (c.index + 1)⟩

/-- What has been taken has been looked at. -/
def Ordered (c : Cursor) : Prop := c.index ≤ c.seen

/-- The place `c'` comes after the place `c`. -/
structure Upto (c c' : Cursor) : Prop where
  index : c.index ≤ c'.index
  seen : c.seen ≤ c'.seen
  ordered : c.Ordered → c'.Ordered

theorem Upto.refl (c : Cursor) : c.Upto c := ⟨Nat.le_refl _, Nat.le_refl _, id⟩

theorem Upto.trans {c c' c'' : Cursor} (h : c.Upto c') (h' : c'.Upto c'') : c.Upto c'' :=
  ⟨Nat.le_trans h.index h'.index, Nat.le_trans h.seen h'.seen, h'.ordered ∘ h.ordered⟩

theorem upto_peek (c : Cursor) : c.Upto c.peek :=
  ⟨Nat.le_refl _, Nat.le_max_left _ _, fun h => Nat.le_trans h (Nat.le_max_left _ _)⟩

theorem upto_take (c : Cursor) : c.Upto c.take :=
  ⟨Nat.le_succ _, Nat.le_max_left _ _, fun _ => Nat.le_max_right _ _⟩

end Cursor

namespace Lookahead

/-- The tokens from the place on pass the test. -/
def passes (tape : Nat → PlacedToken) (i : Nat) : Lookahead → Bool
  | next t => t.accepts (tape i).token
  | nextNot t => !t.accepts (tape i).token
  | nextTwo t u => t.accepts (tape i).token && u.accepts (tape (i + 1)).token

/-- The place after the test has been made: its second token is looked at only if the first one is
as required. -/
def glance (tape : Nat → PlacedToken) (c : Cursor) : Lookahead → Cursor
  | next _ | nextNot _ => c.peek
  | nextTwo t _ =>
    if t.accepts (tape c.index).token then { c with seen := max c.seen (c.index + 2) } else c.peek

variable (tape : Nat → PlacedToken)

@[simp] theorem index_glance (test : Lookahead) (c : Cursor) :
    (test.glance tape c).index = c.index := by
  cases test with
  | nextTwo t u =>
    simp only [glance]
    split <;> rfl
  | _ => rfl

theorem upto_glance (test : Lookahead) (c : Cursor) : c.Upto (test.glance tape c) := by
  cases test with
  | nextTwo t u =>
    simp only [glance]
    split
    · exact ⟨Nat.le_refl _, Nat.le_max_left _ _, fun h => Nat.le_trans h (Nat.le_max_left _ _)⟩
    · exact c.upto_peek
  | _ => exact c.upto_peek

/-- A test looks at the next token. -/
theorem index_lt_seen_glance (test : Lookahead) (c : Cursor) :
    c.index < (test.glance tape c).seen := by
  cases test with
  | nextTwo t u =>
    simp only [glance]
    split
    · exact Nat.lt_of_lt_of_le (by omega) (Nat.le_max_right _ _)
    · exact Nat.le_max_right _ _
  | _ => exact Nat.le_max_right _ _

variable {tape} in
/-- The outcome of a test depends on the tokens that it looks at. -/
theorem glance_congr {tape' : Nat → PlacedToken} {n : Nat}
    (same : ∀ i, i < n → (tape' i).token = (tape i).token) (test : Lookahead) (c : Cursor)
    (bound : (test.glance tape c).seen ≤ n) :
    test.passes tape' c.index = test.passes tape c.index ∧
      test.glance tape' c = test.glance tape c := by
  have first := same c.index (Nat.lt_of_lt_of_le (index_lt_seen_glance tape test c) bound)
  cases test with
  | nextTwo t u =>
    by_cases h : t.accepts (tape c.index).token = true
    · have second : (tape' (c.index + 1)).token = (tape (c.index + 1)).token := by
        refine same _ (Nat.lt_of_lt_of_le ?_ bound)
        simp only [glance, h, if_true]
        exact Nat.lt_of_lt_of_le (by omega) (Nat.le_max_right _ _)
      simp [passes, glance, first, second]
    · simp [passes, glance, first, h]
  | _ => simp [passes, glance, first]

end Lookahead

/-- Why reading cannot go on. -/
inductive Fault where
  /-- The next token should have been something else. -/
  | unexpected (expected : String)
  /-- The construct would be nested too deeply. -/
  | tooDeep
  deriving DecidableEq, Repr

namespace Grammar

/-- `Reads tape limit d g c ts c'`: the grammar is read from `c` to `c'` and gives the trees `ts`,
where `d` constructs that count as a level are open and `limit` of them may be. -/
inductive Reads (tape : Nat → PlacedToken) (limit : Nat) :
    Nat → Grammar → Cursor → List Tree → Cursor → Prop
  | done {d : Nat} {c : Cursor} : Reads tape limit d .done c [] c
  | token {d : Nat} {t : Terminal} {c : Cursor} :
      t.accepts (tape c.index).token = true →
      Reads tape limit d (.token t) c [.token (tape c.index)] c.take
  | separator {d : Nat} {t : Terminal} {c : Cursor} :
      t.accepts (tape c.index).token = true → Reads tape limit d (.separator t) c [] c.take
  | seq {d : Nat} {g h : Grammar} {c c' c'' : Cursor} {ts us : List Tree} :
      Reads tape limit d g c ts c' → Reads tape limit d h c' us c'' →
      Reads tape limit d (.seq g h) c (ts ++ us) c''
  | yes {d : Nat} {test : Lookahead} {g h : Grammar} {c c' : Cursor} {ts : List Tree} :
      test.passes tape c.index = true → Reads tape limit d g (test.glance tape c) ts c' →
      Reads tape limit d (.choice test g h) c ts c'
  | no {d : Nat} {test : Lookahead} {g h : Grammar} {c c' : Cursor} {ts : List Tree} :
      test.passes tape c.index = false → Reads tape limit d h (test.glance tape c) ts c' →
      Reads tape limit d (.choice test g h) c ts c'
  | ends {d : Nat} {test : Lookahead} {g : Grammar} {c : Cursor} :
      test.passes tape c.index = false →
      Reads tape limit d (.many test g) c [] (test.glance tape c)
  | again {d : Nat} {test : Lookahead} {g : Grammar} {c c' c'' : Cursor} {ts us : List Tree} :
      test.passes tape c.index = true → Reads tape limit d g (test.glance tape c) ts c' →
      Reads tape limit d (.many test g) c' us c'' →
      Reads tape limit d (.many test g) c (ts ++ us) c''
  | node {d : Nat} {k : NodeKind} {g : Grammar} {c c' : Cursor} {ts : List Tree} :
      Reads tape limit d g c ts c' → Reads tape limit d (.node k g) c [.node k ts] c'
  | nested {d : Nat} {g : Grammar} {c c' : Cursor} {ts : List Tree} :
      d < limit → Reads tape limit (d + 1) g c ts c' → Reads tape limit d (.nested g) c ts c'
  | call {d : Nat} {r : Rule} {c c' : Cursor} {ts : List Tree} :
      Reads tape limit d (ofRule r) c ts c' → Reads tape limit d (.call r) c ts c'

/-- `Stops tape limit d g c fault c'`: reading the grammar from `c` ends at `c'`, before the grammar
does. -/
inductive Stops (tape : Nat → PlacedToken) (limit : Nat) :
    Nat → Grammar → Cursor → Fault → Cursor → Prop
  | token {d : Nat} {t : Terminal} {c : Cursor} :
      t.accepts (tape c.index).token = false →
      Stops tape limit d (.token t) c (.unexpected (t.expectation (tape c.index).token)) c.peek
  | separator {d : Nat} {t : Terminal} {c : Cursor} :
      t.accepts (tape c.index).token = false →
      Stops tape limit d (.separator t) c (.unexpected (t.expectation (tape c.index).token)) c.peek
  | fail {d : Nat} {expected : String} {c : Cursor} :
      Stops tape limit d (.fail expected) c (.unexpected expected) c.peek
  | first {d : Nat} {g h : Grammar} {c c' : Cursor} {fault : Fault} :
      Stops tape limit d g c fault c' → Stops tape limit d (.seq g h) c fault c'
  | second {d : Nat} {g h : Grammar} {c c' c'' : Cursor} {ts : List Tree} {fault : Fault} :
      Reads tape limit d g c ts c' → Stops tape limit d h c' fault c'' →
      Stops tape limit d (.seq g h) c fault c''
  | yes {d : Nat} {test : Lookahead} {g h : Grammar} {c c' : Cursor} {fault : Fault} :
      test.passes tape c.index = true → Stops tape limit d g (test.glance tape c) fault c' →
      Stops tape limit d (.choice test g h) c fault c'
  | no {d : Nat} {test : Lookahead} {g h : Grammar} {c c' : Cursor} {fault : Fault} :
      test.passes tape c.index = false → Stops tape limit d h (test.glance tape c) fault c' →
      Stops tape limit d (.choice test g h) c fault c'
  | item {d : Nat} {test : Lookahead} {g : Grammar} {c c' : Cursor} {fault : Fault} :
      test.passes tape c.index = true → Stops tape limit d g (test.glance tape c) fault c' →
      Stops tape limit d (.many test g) c fault c'
  | again {d : Nat} {test : Lookahead} {g : Grammar} {c c' c'' : Cursor} {ts : List Tree}
      {fault : Fault} :
      test.passes tape c.index = true → Reads tape limit d g (test.glance tape c) ts c' →
      Stops tape limit d (.many test g) c' fault c'' → Stops tape limit d (.many test g) c fault c''
  | node {d : Nat} {k : NodeKind} {g : Grammar} {c c' : Cursor} {fault : Fault} :
      Stops tape limit d g c fault c' → Stops tape limit d (.node k g) c fault c'
  | tooDeep {d : Nat} {g : Grammar} {c : Cursor} :
      ¬ d < limit → Stops tape limit d (.nested g) c .tooDeep c.peek
  | nested {d : Nat} {g : Grammar} {c c' : Cursor} {fault : Fault} :
      d < limit → Stops tape limit (d + 1) g c fault c' → Stops tape limit d (.nested g) c fault c'
  | call {d : Nat} {r : Rule} {c c' : Cursor} {fault : Fault} :
      Stops tape limit d (ofRule r) c fault c' → Stops tape limit d (.call r) c fault c'

variable {tape : Nat → PlacedToken} {limit d : Nat} {g : Grammar} {c c' c'' : Cursor}
  {ts us : List Tree} {fault fault' : Fault}

/-! ## Direction -/

theorem Reads.upto (h : Reads tape limit d g c ts c') : c.Upto c' := by
  induction h with
  | done => exact .refl _
  | token _ => exact Cursor.upto_take _
  | separator _ => exact Cursor.upto_take _
  | seq _ _ ihg ihh => exact ihg.trans ihh
  | yes _ _ ih => exact (Lookahead.upto_glance _ _ _).trans ih
  | no _ _ ih => exact (Lookahead.upto_glance _ _ _).trans ih
  | ends _ => exact Lookahead.upto_glance _ _ _
  | again _ _ _ ihg ihm => exact ((Lookahead.upto_glance _ _ _).trans ihg).trans ihm
  | node _ ih => exact ih
  | nested _ _ ih => exact ih
  | call _ ih => exact ih

theorem Stops.upto (h : Stops tape limit d g c fault c') : c.Upto c' := by
  induction h with
  | token _ => exact Cursor.upto_peek _
  | separator _ => exact Cursor.upto_peek _
  | fail => exact Cursor.upto_peek _
  | first _ ih => exact ih
  | second hg _ ih => exact hg.upto.trans ih
  | yes _ _ ih => exact (Lookahead.upto_glance _ _ _).trans ih
  | no _ _ ih => exact (Lookahead.upto_glance _ _ _).trans ih
  | item _ _ ih => exact (Lookahead.upto_glance _ _ _).trans ih
  | again _ hg _ ih => exact ((Lookahead.upto_glance _ _ _).trans hg.upto).trans ih
  | node _ ih => exact ih
  | tooDeep _ => exact Cursor.upto_peek _
  | nested _ _ ih => exact ih
  | call _ ih => exact ih

/-- The token that reading stops at has been looked at. -/
theorem Stops.index_lt_seen (h : Stops tape limit d g c fault c') : c'.index < c'.seen := by
  induction h with
  | token _ => exact Nat.le_max_right _ _
  | separator _ => exact Nat.le_max_right _ _
  | fail => exact Nat.le_max_right _ _
  | tooDeep _ => exact Nat.le_max_right _ _
  | first _ ih => exact ih
  | second _ _ ih => exact ih
  | yes _ _ ih => exact ih
  | no _ _ ih => exact ih
  | item _ _ ih => exact ih
  | again _ _ _ ih => exact ih
  | node _ ih => exact ih
  | nested _ _ ih => exact ih
  | call _ ih => exact ih

/-! ## One way to read -/

theorem Reads.unique (h : Reads tape limit d g c ts c') (h' : Reads tape limit d g c us c'') :
    ts = us ∧ c' = c'' := by
  induction h generalizing us c'' with
  | done => cases h'; exact ⟨rfl, rfl⟩
  | token _ => cases h'; exact ⟨rfl, rfl⟩
  | separator _ => cases h'; exact ⟨rfl, rfl⟩
  | seq _ _ ihg ihh =>
    cases h' with
    | seq hg' hh' =>
      obtain ⟨rfl, rfl⟩ := ihg hg'
      obtain ⟨rfl, rfl⟩ := ihh hh'
      exact ⟨rfl, rfl⟩
  | yes passed _ ih =>
    cases h' with
    | yes _ hg' => exact ih hg'
    | no failed _ => exact absurd passed (by simp [failed])
  | no failed _ ih =>
    cases h' with
    | yes passed _ => exact absurd passed (by simp [failed])
    | no _ hh' => exact ih hh'
  | ends failed =>
    cases h' with
    | ends _ => exact ⟨rfl, rfl⟩
    | again passed _ _ => exact absurd passed (by simp [failed])
  | again passed _ _ ihg ihm =>
    cases h' with
    | ends failed => exact absurd passed (by simp [failed])
    | again _ hg' hm' =>
      obtain ⟨rfl, rfl⟩ := ihg hg'
      obtain ⟨rfl, rfl⟩ := ihm hm'
      exact ⟨rfl, rfl⟩
  | node _ ih =>
    cases h' with
    | node hg' =>
      obtain ⟨rfl, rfl⟩ := ih hg'
      exact ⟨rfl, rfl⟩
  | nested _ _ ih =>
    cases h' with
    | nested _ hg' => exact ih hg'
  | call _ ih =>
    cases h' with
    | call hr' => exact ih hr'

/-- What can be read to its end is not stopped. -/
theorem Reads.not_stops (h : Reads tape limit d g c ts c') :
    ¬ Stops tape limit d g c fault c'' := by
  intro h'
  induction h' generalizing ts c' with
  | token refused => cases h with | token accepted => exact absurd accepted (by simp [refused])
  | separator refused =>
    cases h with | separator accepted => exact absurd accepted (by simp [refused])
  | fail => cases h
  | first _ ih => cases h with | seq hg _ => exact ih hg
  | second hg _ ih =>
    cases h with
    | seq hg' hh' =>
      obtain ⟨-, rfl⟩ := hg.unique hg'
      exact ih hh'
  | yes passed _ ih =>
    cases h with
    | yes _ hg => exact ih hg
    | no failed _ => exact absurd passed (by simp [failed])
  | no failed _ ih =>
    cases h with
    | yes passed _ => exact absurd passed (by simp [failed])
    | no _ hh => exact ih hh
  | item passed _ ih =>
    cases h with
    | ends failed => exact absurd passed (by simp [failed])
    | again _ hg _ => exact ih hg
  | again passed hg _ ih =>
    cases h with
    | ends failed => exact absurd passed (by simp [failed])
    | again _ hg' hm' =>
      obtain ⟨-, rfl⟩ := hg.unique hg'
      exact ih hm'
  | node _ ih => cases h with | node hg => exact ih hg
  | tooDeep deep => cases h with | nested room _ => exact deep room
  | nested _ _ ih => cases h with | nested _ hg => exact ih hg
  | call _ ih => cases h with | call hr => exact ih hr

theorem Stops.unique (h : Stops tape limit d g c fault c')
    (h' : Stops tape limit d g c fault' c'') :
    fault = fault' ∧ c' = c'' := by
  induction h generalizing fault' c'' with
  | token _ => cases h'; exact ⟨rfl, rfl⟩
  | separator _ => cases h'; exact ⟨rfl, rfl⟩
  | fail => cases h'; exact ⟨rfl, rfl⟩
  | first hg ih =>
    cases h' with
    | first hg' => exact ih hg'
    | second hg' _ => exact absurd hg hg'.not_stops
  | second hg _ ih =>
    cases h' with
    | first hg' => exact absurd hg' hg.not_stops
    | second hg' hh' =>
      obtain ⟨-, rfl⟩ := hg.unique hg'
      exact ih hh'
  | yes passed _ ih =>
    cases h' with
    | yes _ hg' => exact ih hg'
    | no failed _ => exact absurd passed (by simp [failed])
  | no failed _ ih =>
    cases h' with
    | yes passed _ => exact absurd passed (by simp [failed])
    | no _ hh' => exact ih hh'
  | item _ hg ih =>
    cases h' with
    | item _ hg' => exact ih hg'
    | again _ hg' _ => exact absurd hg hg'.not_stops
  | again _ hg _ ih =>
    cases h' with
    | item _ hg' => exact absurd hg' hg.not_stops
    | again _ hg' hm' =>
      obtain ⟨-, rfl⟩ := hg.unique hg'
      exact ih hm'
  | node _ ih => cases h' with | node hg' => exact ih hg'
  | tooDeep deep =>
    cases h' with
    | tooDeep _ => exact ⟨rfl, rfl⟩
    | nested room _ => exact absurd room deep
  | nested room _ ih =>
    cases h' with
    | tooDeep deep => exact absurd room deep
    | nested _ hg' => exact ih hg'
  | call _ ih => cases h' with | call hr' => exact ih hr'

/-! ## What reading depends on -/

section Transfer

variable {tape' : Nat → PlacedToken} {n : Nat}

/-- Reading goes the same way on a tape with the same kinds and texts, as far as it looks. -/
theorem Reads.transfer (same : ∀ i, i < n → (tape' i).token = (tape i).token)
    (h : Reads tape limit d g c ts c') (bound : c'.seen ≤ n) :
    ∃ us, Reads tape' limit d g c us c' ∧ Tree.bareOf us = Tree.bareOf ts := by
  -- a token that is taken has been looked at
  have here {c : Cursor} (hc : c.take.seen ≤ n) : (tape' c.index).token = (tape c.index).token :=
    same _ (Nat.lt_of_lt_of_le (Nat.lt_succ_self _) (Nat.le_trans (Nat.le_max_right _ _) hc))
  induction h with
  | done => exact ⟨[], .done, rfl⟩
  | @token d t c accepted =>
    refine ⟨_, .token (here bound ▸ accepted), ?_⟩
    simp [PlacedToken.bare, here bound]
  | @separator d t c accepted => exact ⟨[], .separator (here bound ▸ accepted), rfl⟩
  | seq hg hh ihg ihh =>
    obtain ⟨us, hg', e⟩ := ihg (Nat.le_trans hh.upto.seen bound)
    obtain ⟨vs, hh', e'⟩ := ihh bound
    exact ⟨us ++ vs, hg'.seq hh', by simp [e, e']⟩
  | @yes d test g h c c' ts passed hg ih =>
    obtain ⟨hp, hl⟩ := Lookahead.glance_congr same test c (Nat.le_trans hg.upto.seen bound)
    obtain ⟨us, hg', e⟩ := ih bound
    exact ⟨us, .yes (hp.trans passed) (hl.symm ▸ hg'), e⟩
  | @no d test g h c c' ts failed hh ih =>
    obtain ⟨hp, hl⟩ := Lookahead.glance_congr same test c (Nat.le_trans hh.upto.seen bound)
    obtain ⟨us, hh', e⟩ := ih bound
    exact ⟨us, .no (hp.trans failed) (hl.symm ▸ hh'), e⟩
  | @ends d test g c failed =>
    obtain ⟨hp, hl⟩ := Lookahead.glance_congr same test c bound
    exact ⟨[], hl ▸ .ends (hp.trans failed), rfl⟩
  | @again d test g c c' c'' ts us passed hg hm ihg ihm =>
    have seen := Nat.le_trans hm.upto.seen bound
    obtain ⟨hp, hl⟩ := Lookahead.glance_congr same test c (Nat.le_trans hg.upto.seen seen)
    obtain ⟨vs, hg', e⟩ := ihg seen
    obtain ⟨ws, hm', e'⟩ := ihm bound
    exact ⟨vs ++ ws, .again (hp.trans passed) (hl.symm ▸ hg') hm', by simp [e, e']⟩
  | @node d k g c c' ts hg ih =>
    obtain ⟨us, hg', e⟩ := ih bound
    exact ⟨[.node k us], hg'.node, by simp [e]⟩
  | nested room _ ih =>
    obtain ⟨us, hg', e⟩ := ih bound
    exact ⟨us, .nested room hg', e⟩
  | call _ ih =>
    obtain ⟨us, hr', e⟩ := ih bound
    exact ⟨us, hr'.call, e⟩

/-- Reading stops for the same reason on a tape with the same kinds and texts, as far as it
looks. -/
theorem Stops.transfer (same : ∀ i, i < n → (tape' i).token = (tape i).token)
    (h : Stops tape limit d g c fault c') (bound : c'.seen ≤ n) :
    Stops tape' limit d g c fault c' := by
  -- a token that is refused has been looked at
  have here {c : Cursor} (hc : c.peek.seen ≤ n) : (tape' c.index).token = (tape c.index).token :=
    same _ (Nat.lt_of_lt_of_le (Nat.lt_succ_self _) (Nat.le_trans (Nat.le_max_right _ _) hc))
  induction h with
  | @token d t c refused => exact here bound ▸ .token (here bound ▸ refused)
  | @separator d t c refused => exact here bound ▸ .separator (here bound ▸ refused)
  | fail => exact .fail
  | first _ ih => exact .first (ih bound)
  | second hg hh ih =>
    obtain ⟨us, hg', -⟩ := hg.transfer same (Nat.le_trans hh.upto.seen bound)
    exact .second hg' (ih bound)
  | @yes d test g h c c' fault passed hg ih =>
    obtain ⟨hp, hl⟩ := Lookahead.glance_congr same test c (Nat.le_trans hg.upto.seen bound)
    exact .yes (hp.trans passed) (hl.symm ▸ ih bound)
  | @no d test g h c c' fault failed hh ih =>
    obtain ⟨hp, hl⟩ := Lookahead.glance_congr same test c (Nat.le_trans hh.upto.seen bound)
    exact .no (hp.trans failed) (hl.symm ▸ ih bound)
  | @item d test g c c' fault passed hg ih =>
    obtain ⟨hp, hl⟩ := Lookahead.glance_congr same test c (Nat.le_trans hg.upto.seen bound)
    exact .item (hp.trans passed) (hl.symm ▸ ih bound)
  | @again d test g c c' c'' ts fault passed hg hm ih =>
    have seen := Nat.le_trans hm.upto.seen bound
    obtain ⟨hp, hl⟩ := Lookahead.glance_congr same test c (Nat.le_trans hg.upto.seen seen)
    obtain ⟨us, hg', -⟩ := hg.transfer same seen
    exact .again (hp.trans passed) (hl.symm ▸ hg') (ih bound)
  | node _ ih => exact .node (ih bound)
  | tooDeep deep => exact .tooDeep deep
  | nested room _ ih => exact .nested room (ih bound)
  | call _ ih => exact .call (ih bound)

end Transfer

end Grammar

end GraphQL
