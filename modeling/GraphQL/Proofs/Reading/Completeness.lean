import GraphQL.Proofs.Ebnf.Opening
import GraphQL.Proofs.Reading.Adequacy

/-!
# What is derivable is read

The tests of a grammar look at the next two tokens at most. They are right if what they see always
tells the alternatives apart, whatever stands behind them. `decides` checks this by comparing each
test with the openings of its alternatives. For a grammar that passes the check every derivation is
found, if enough levels of nesting are allowed.

Results:
1. `passes_of_fits`, `fails_of_fits`: a test on a text with a known opening.
2. `decides_executableDocument`, `decides_typeSystemDocument`, `decides_ofRule`: the grammars of the
   language pass the check.
3. `reads_of_derives`: every derivation from the expression of a grammar is a reading by it.
-/

namespace GraphQL

namespace Opening

/-- A text with this opening passes the test. -/
def passes (o : Opening) : Lookahead → Bool
  | .next t => knows o.first (some t)
  | .nextNot t => o.first.any (·.excludes t)
  | .nextTwo t u => knows o.first (some t) && knows o.second (some u)

/-- A text with this opening fails the test. -/
def fails (o : Opening) : Lookahead → Bool
  | .next t => o.first.any (·.excludes t)
  | .nextNot t => knows o.first (some t)
  | .nextTwo t u => o.first.any (·.excludes t) || o.second.any (·.excludes u)

variable {tape : Nat → PlacedToken} {i : Nat} {os : List Opening} {test : Lookahead}

theorem accepts_of_knows_some {t : Option Terminal} {u : Terminal} {x : Token}
    (h : knows t (some u) = true) (ht : ∀ a ∈ t, a.accepts x = true) : u.accepts x = true :=
  accepts_of_knows h ht u rfl

theorem refuses_of_any {t : Option Terminal} {u : Terminal} {x : Token}
    (h : t.any (·.excludes u) = true) (ht : ∀ a ∈ t, a.accepts x = true) :
    u.accepts x = false := by
  obtain ⟨a, ha, he⟩ := Option.any_eq_true _ _ |>.mp h
  exact Terminal.refuses_of_excludes he (ht a ha)

theorem passes_of_fits (h : SomeFits tape i os) (all : os.all (·.passes test) = true) :
    test.passes tape i = true := by
  obtain ⟨o, ho, first, second⟩ := h
  have here := List.all_eq_true.mp all o ho
  cases test with
  | next t => exact accepts_of_knows_some here first
  | nextNot t => rw [Lookahead.passes, refuses_of_any here first, Bool.not_false]
  | nextTwo t u =>
    simp only [passes, Bool.and_eq_true] at here
    rw [Lookahead.passes, accepts_of_knows_some here.1 first, accepts_of_knows_some here.2 second,
      Bool.and_self]

theorem fails_of_fits (h : SomeFits tape i os) (all : os.all (·.fails test) = true) :
    test.passes tape i = false := by
  obtain ⟨o, ho, first, second⟩ := h
  have here := List.all_eq_true.mp all o ho
  cases test with
  | next t => exact refuses_of_any here first
  | nextNot t => rw [Lookahead.passes, accepts_of_knows_some here first, Bool.not_true]
  | nextTwo t u =>
    simp only [fails, Bool.or_eq_true] at here
    rcases here with here | here
    · rw [Lookahead.passes, refuses_of_any here first, Bool.false_and]
    · rw [Lookahead.passes, refuses_of_any here second, Bool.and_false]

end Opening

/-- The token opens a construct that counts as a level. -/
def Token.opensLevel (x : Token) : Bool := x.kind = .braceOpen || x.kind = .bracketOpen

/-- How many tokens of the row open a construct that counts as a level. -/
def levels (xs : List PlacedToken) : Nat := xs.countP (·.token.opensLevel)

namespace Grammar

/-- What may come behind a construct that contains itself. -/
def follow : Rule → List Opening
  | .selectionSet | .value _ => [.any]
  | .type =>
    Opening.ofKinds
      [.equals, .atSign, .parenClose, .dollar, .name, .braceClose, .bracketClose]

/-- All tests of the grammar are right when something that opens with `k` follows. -/
def decides (k : List Opening) : Grammar → Bool
  | done | token _ | separator _ | fail _ => true
  | seq g h => g.decides (h.toEbnf.opens k) && h.decides k
  | choice test g h =>
    (g.toEbnf.opens k).all (·.passes test) && (h.toEbnf.opens k).all (·.fails test) &&
      g.decides k && h.decides k
  | many test g =>
    let behind := k ++ g.toEbnf.opens [.any]
    (g.toEbnf.opens behind).all (·.passes test) && k.all (·.fails test) && g.decides behind
  | node _ g | nested g => g.decides k
  | call r => Opening.covered k (follow r)

/-- The grammar starts with a token that opens a level. -/
def leads : Grammar → Bool
  | token t => t = .kind .braceOpen || t = .kind .bracketOpen
  | seq g _ | node _ g => g.leads
  | done | separator _ | fail _ | choice _ _ _ | many _ _ | nested _ | call _ => false

/-- What counts as a level starts with a token that opens one. -/
def bracketed : Grammar → Bool
  | done | token _ | separator _ | fail _ | call _ => true
  | seq g h | choice _ g h => g.bracketed && h.bracketed
  | many _ g | node _ g => g.bracketed
  | nested g => g.leads && g.bracketed

/-- Behind a whole document comes the end of the text. -/
def atEnd : List Opening := Opening.ofKinds [.eof]

theorem someFits_atEnd {tape : Nat → PlacedToken} {i : Nat} (eof : (tape i).token.kind = .eof) :
    Opening.SomeFits tape i atEnd := by
  refine ⟨_, List.mem_singleton_self _, ?_, fun _ h => absurd h (Option.not_mem_none _)⟩
  rintro _ ⟨⟩
  exact Terminal.accepts_kind.mpr eof

theorem decides_executableDocument : executableDocument.decides atEnd = true := by
  decide +kernel

theorem decides_typeSystemDocument : typeSystemDocument.decides atEnd = true := by
  decide +kernel

theorem decides_ofRule (r : Rule) : (ofRule r).decides (follow r) = true := by
  cases r with
  | value constant => cases constant <;> decide +kernel
  | _ => decide +kernel

theorem bracketed_executableDocument : executableDocument.bracketed = true := rfl

theorem bracketed_typeSystemDocument : typeSystemDocument.bracketed = true := rfl

theorem bracketed_ofRule (r : Rule) : (ofRule r).bracketed = true := by
  cases r with
  | value constant => cases constant <;> rfl
  | _ => rfl

theorem levels_append (xs ys : List PlacedToken) : levels (xs ++ ys) = levels xs + levels ys :=
  List.countP_append

theorem levels_pos_of_leads {g : Grammar} (h : g.leads = true) {xs : List PlacedToken}
    {ts : List Tree} (hd : g.toEbnf.Derives xs ts) : 0 < levels xs := by
  induction g generalizing xs ts with
  | token t =>
    cases hd with
    | @terminal _ x accepted =>
      have opening : x.token.opensLevel = true := by
        simp only [leads, Bool.or_eq_true, decide_eq_true_eq] at h
        rcases h with rfl | rfl <;>
          simp [Token.opensLevel, Terminal.accepts_kind.mp accepted]
      simp [levels, opening]
  | seq g h' ihg _ =>
    cases hd with
    | seq hg hh =>
      rw [levels_append]
      exact Nat.add_pos_left (ihg h hg) _
  | node k g ih => cases hd with | node hg => exact ih h hg
  | done => cases h
  | separator _ => cases h
  | fail _ => cases h
  | choice _ _ _ => cases h
  | many _ _ => cases h
  | nested _ => cases h
  | call _ => cases h

/-- How many levels a text may have when `d` are open and `limit` are allowed. A grammar that starts
with a token that opens a level may have one more, since that one has been counted already. -/
def Affords (limit d : Nat) (g : Grammar) (xs : List PlacedToken) : Prop :=
  d + levels xs ≤ limit + if g.leads then 1 else 0

theorem Affords.of_le {limit d : Nat} {g : Grammar} {xs : List PlacedToken}
    (h : d + levels xs ≤ limit) : Affords limit d g xs :=
  Nat.le_trans h (Nat.le_add_right _ _)

theorem Affords.of_not_leads {limit d : Nat} {g : Grammar} {xs : List PlacedToken}
    (h : Affords limit d g xs) (hg : g.leads = false) : d + levels xs ≤ limit := by
  rw [Affords, hg] at h
  exact h

theorem Affords.seq {limit d : Nat} {g h : Grammar} {xs ys : List PlacedToken} {ts : List Tree}
    (affords : Affords limit d (.seq g h) (xs ++ ys)) (hg : g.toEbnf.Derives xs ts) :
    Affords limit d g xs ∧ Affords limit d h ys := by
  rw [Affords, levels_append] at affords
  cases leads : g.leads with
  | true =>
    have first := levels_pos_of_leads leads hg
    rw [show (Grammar.seq g h).leads = true from leads, if_pos rfl] at affords
    refine ⟨?_, .of_le (by omega)⟩
    rw [Affords, leads, if_pos rfl]
    omega
  | false =>
    rw [show (Grammar.seq g h).leads = false from leads, if_neg Bool.noConfusion] at affords
    exact ⟨.of_le (by omega), .of_le (by omega)⟩

theorem Affords.nested {limit d : Nat} {g : Grammar} {xs : List PlacedToken} {ts : List Tree}
    (affords : Affords limit d (.nested g) xs) (leads : g.leads = true)
    (hg : g.toEbnf.Derives xs ts) : d < limit ∧ Affords limit (d + 1) g xs := by
  have first := levels_pos_of_leads leads hg
  have all := affords.of_not_leads rfl
  refine ⟨by omega, ?_⟩
  rw [Affords, leads, if_pos rfl]
  omega

/-! ## Finding a derivation -/

section Find

variable {tape : Nat → PlacedToken} {limit : Nat}

/-- The grammar is read from `c` to place `j` and gives the trees. -/
def Finds (tape : Nat → PlacedToken) (limit d : Nat) (g : Grammar) (c : Cursor) (j : Nat)
    (ts : List Tree) : Prop :=
  ∃ c', g.Reads tape limit d c ts c' ∧ c'.index = j

/-- A repetition finds its derivations if its item does. -/
theorem finds_many {d : Nat} {test : Lookahead} {g : Grammar} {k : List Opening}
    {ready : Cursor → Prop} (mono : ∀ c c' : Cursor, c.index ≤ c'.index → ready c → ready c')
    {last : Nat}
    (hg : ∀ (c : Cursor) (j : Nat) (ts : List Tree), c.index ≤ j → j ≤ last → ready c →
      g.toEbnf.Derives (slice tape c.index j) ts →
      Opening.SomeFits tape j (k ++ g.toEbnf.opens [.any]) →
      d + levels (slice tape c.index j) ≤ limit → Finds tape limit d g c j ts)
    (passes : (g.toEbnf.opens (k ++ g.toEbnf.opens [.any])).all (·.passes test) = true)
    (fails : k.all (·.fails test) = true) {c : Cursor} {ts : List Tree} (hr : ready c)
    (hc : c.index ≤ last) (hd : (Ebnf.star g.toEbnf).Derives (slice tape c.index last) ts)
    (follow : Opening.SomeFits tape last k)
    (affords : d + levels (slice tape c.index last) ≤ limit) :
    Finds tape limit d (.many test g) c last ts := by
  generalize he : Ebnf.star g.toEbnf = e at hd
  generalize hx : slice tape c.index last = xs at hd affords
  induction hd generalizing c with
  | starNil =>
    have ends := slice_eq_nil hc hx
    refine ⟨_, .ends (Opening.fails_of_fits (ends ▸ follow) fails), ?_⟩
    rw [Lookahead.index_glance, ends]
  | @starCons e xs ys ts us first rest _ ih =>
    obtain rfl : g.toEbnf = e := Ebnf.star.inj he
    obtain ⟨m, him, hmj, rfl, hys⟩ := slice_eq_append hc hx
    rw [levels_append] at affords
    -- behind the item comes another one or what follows the repetition
    have next : Opening.SomeFits tape m (k ++ g.toEbnf.opens [.any]) := rest.opens hmj hys follow
    have passed := Opening.passes_of_fits (first.opens him rfl next) passes
    have upto := Lookahead.upto_glance tape test c
    obtain ⟨c', hg', rfl⟩ := hg (test.glance tape c) m ts (by simpa using him) hmj
      (mono _ _ upto.index hr) (by simpa using first) next (by simp; omega)
    obtain ⟨c'', hm, ends⟩ := ih (mono _ _ him hr) hmj rfl hys (by omega)
    exact ⟨c'', .again passed hg' hm, ends⟩
  | _ => cases he

/-- A grammar finds its derivations if the constructs that contain themselves do. -/
theorem finds_of_derives {bound : Nat}
    (hrule : ∀ (r : Rule) (d : Nat) (c : Cursor) (j : Nat) (ts : List Tree), c.index ≤ j →
      j < c.index + bound → (Ebnf.ofRule r).Derives (slice tape c.index j) ts →
      Opening.SomeFits tape j (follow r) → d + levels (slice tape c.index j) ≤ limit →
      Finds tape limit d (.call r) c j ts)
    {g : Grammar} {k : List Opening} (decides : g.decides k = true)
    (bracketed : g.bracketed = true) {d : Nat} {c : Cursor} {j : Nat} {ts : List Tree}
    (hc : c.index ≤ j) (room : Room j bound c g)
    (hd : g.toEbnf.Derives (slice tape c.index j) ts) (follow : Opening.SomeFits tape j k)
    (affords : Affords limit d g (slice tape c.index j)) : Finds tape limit d g c j ts := by
  induction g generalizing k d c j ts with
  | done =>
    generalize hx : slice tape c.index j = xs at hd
    cases hd with
    | empty => exact ⟨c, .done, slice_eq_nil hc hx⟩
  | token t =>
    generalize hx : slice tape c.index j = xs at hd
    cases hd with
    | terminal accepted =>
      obtain ⟨rfl, rfl⟩ := slice_eq_singleton hx
      exact ⟨c.take, .token accepted, rfl⟩
  | separator t =>
    generalize hx : slice tape c.index j = xs at hd
    cases hd with
    | hidden accepted =>
      obtain ⟨rfl, rfl⟩ := slice_eq_singleton hx
      exact ⟨c.take, .separator accepted, rfl⟩
  | fail expected => cases hd
  | seq g h ihg ihh =>
    simp only [Grammar.decides, Bool.and_eq_true] at decides
    simp only [Grammar.bracketed, Bool.and_eq_true] at bracketed
    generalize hx : slice tape c.index j = xs at hd affords
    cases hd with
    | seq hg hh =>
      obtain ⟨m, him, hmj, rfl, rfl⟩ := slice_eq_append hc hx
      have afford := affords.seq hg
      have consumed (consumes : g.toEbnf.consumes = true) : c.index < m := by
        refine Nat.lt_of_le_of_ne him fun e => hg.ne_nil consumes ?_
        rw [e, slice_self]
      obtain ⟨c', hg', rfl⟩ := ihg decides.1 bracketed.1 him
        (room.first.mono hmj (Nat.le_refl _)) hg (hh.opens hmj rfl follow) afford.1
      obtain ⟨c'', hh', ends⟩ := ihh decides.2 bracketed.2 hmj (room.second him consumed) hh follow
        afford.2
      exact ⟨c'', hg'.seq hh', ends⟩
  | choice test g h ihg ihh =>
    simp only [Grammar.decides, Bool.and_eq_true] at decides
    simp only [Grammar.bracketed, Bool.and_eq_true] at bracketed
    have upto := Lookahead.upto_glance tape test c
    have afford := affords.of_not_leads rfl
    have rooms := room.branches
    rw [← Lookahead.index_glance tape test c] at hc hd afford
    -- the derivation says which branch is meant, and its opening decides the test
    rcases Ebnf.derives_or.mp hd with hg | hh
    · have passed := Opening.passes_of_fits (hg.opens hc rfl follow) decides.1.1.1
      obtain ⟨c', hg', ends⟩ := ihg decides.1.2 bracketed.1 hc
        (rooms.1.mono (Nat.le_refl j) upto.index) hg follow (.of_le afford)
      exact ⟨c', .yes (by simpa using passed) hg', ends⟩
    · have failed := Opening.fails_of_fits (hh.opens hc rfl follow) decides.1.1.2
      obtain ⟨c', hh', ends⟩ := ihh decides.2 bracketed.2 hc
        (rooms.2.mono (Nat.le_refl j) upto.index) hh follow (.of_le afford)
      exact ⟨c', .no (by simpa using failed) hh', ends⟩
  | many test g ih =>
    simp only [Grammar.decides, Bool.and_eq_true] at decides
    refine finds_many (fun _ _ hi (hr : Room j bound _ g) => hr.mono (Nat.le_refl j) hi)
      (fun c m ts hcm hmj room hd next afford => ?_)
      decides.1.1 decides.1.2 room hc hd follow (affords.of_not_leads rfl)
    exact ih decides.2 bracketed hcm (room.mono hmj (Nat.le_refl _)) hd next (.of_le afford)
  | node kind g ih =>
    cases hd with
    | node hg =>
      obtain ⟨c', hg', ends⟩ := ih decides bracketed hc room hg follow affords
      exact ⟨c', hg'.node, ends⟩
  | nested g ih =>
    simp only [Grammar.bracketed, Bool.and_eq_true] at bracketed
    -- the token that opens the level is among those that are counted
    obtain ⟨lower, afford⟩ := affords.nested bracketed.1 hd
    obtain ⟨c', hg', ends⟩ := ih decides bracketed.2 hc room hd follow afford
    exact ⟨c', .nested lower hg', ends⟩
  | call r =>
    have short := room.resolve_right fun h => Bool.noConfusion h.2
    cases hd with
    | ref hr =>
      exact hrule r d c j ts hc short hr (follow.of_covered decides) (affords.of_not_leads rfl)

/-- The constructs that contain themselves find their derivations. -/
theorem finds_rule (bound : Nat) (r : Rule) (d : Nat) (c : Cursor) (j : Nat) (ts : List Tree)
    (hc : c.index ≤ j) (room : j < c.index + bound)
    (hd : (Ebnf.ofRule r).Derives (slice tape c.index j) ts)
    (next : Opening.SomeFits tape j (follow r))
    (affords : d + levels (slice tape c.index j) ≤ limit) :
    Finds tape limit d (.call r) c j ts := by
  induction bound generalizing r d c j ts with
  | zero => omega
  | succ bound ih =>
    rw [← toEbnf_ofRule] at hd
    obtain ⟨c', hr, ends⟩ := finds_of_derives (fun r d c j ts => ih r d c j ts) (decides_ofRule r)
      (bracketed_ofRule r) hc (.inr ⟨by omega, guarded_ofRule r⟩) hd next (.of_le affords)
    exact ⟨c', hr.call, ends⟩

/-- Every derivation from the expression of a grammar is a reading by it, if the tests of the
grammar are right and as many levels are allowed as the text opens. -/
theorem reads_of_derives {g : Grammar} {k : List Opening} (decides : g.decides k = true)
    (bracketed : g.bracketed = true) {d : Nat} {c : Cursor} {j : Nat} {ts : List Tree}
    (hc : c.index ≤ j) (hd : g.toEbnf.Derives (slice tape c.index j) ts)
    (next : Opening.SomeFits tape j k) (affords : d + levels (slice tape c.index j) ≤ limit) :
    ∃ c', g.Reads tape limit d c ts c' ∧ c'.index = j :=
  finds_of_derives (finds_rule (j + 1)) decides bracketed hc (.inl (by omega)) hd next
    (.of_le affords)

end Find

end Grammar

end GraphQL
