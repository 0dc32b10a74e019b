import GraphQL.Proofs.Reading.Nesting

/-!
# What a greater limit does

The limit on nesting is checked before the token is looked at that should open the construct. So
there are two kinds of place at which it can stop the reading. Either this token is there, and under
a greater limit the reading goes on beyond it, or it is missing, and under every greater limit it is
what the reading stops for. The token can only be missing where nobody has looked for it before:
that is in front of a selection set, which starts with a brace.

Results:
1. `Reads.mono`: what is read is read in the same way under a greater limit.
2. `heeds_ofRule`, `heeds_executableDocument`, `heeds_typeSystemDocument`: the grammars of the
   language look for a bracket before they enter what it opens.
3. `Stops.resumes_or_misses`: the two kinds of place at which the limit stops the reading.
-/

namespace GraphQL

/-- The class that the next token is known to have if the test is passed. -/
def Lookahead.finds? : Lookahead → Option TokenKind
  | next (.kind k) => some k
  | _ => none

theorem Lookahead.kind_of_passes {tape : Nat → PlacedToken} {i : Nat} {test : Lookahead}
    (h : test.passes tape i = true) : ∀ k ∈ test.finds?, (tape i).token.kind = k := by
  intro k hk
  unfold finds? at hk
  split at hk
  · obtain rfl := Option.some.inj hk
    exact Terminal.accepts_kind.mp h
  · cases hk

namespace Grammar

/-- The grammar starts with a token of the class. -/
def opensWith (k : TokenKind) : Grammar → Bool
  | token t => t = .kind k
  | seq g _ | node _ g => g.opensWith k
  | done | separator _ | fail _ | choice _ _ _ | many _ _ | nested _ | call _ => false

/-- What counts as a level starts with a brace, or with a bracket that has been looked for. `found`
is the class that the next token is known to have, if any is. -/
def heeds (found : Option TokenKind) : Grammar → Bool
  | done | token _ | separator _ | fail _ | call _ => true
  | seq g h => g.heeds found && h.heeds none
  | choice test g h => g.heeds test.finds? && h.heeds none
  | many test g => g.heeds test.finds?
  | node _ g => g.heeds found
  | nested g =>
    (g.opensWith .braceOpen || g.opensWith .bracketOpen && found = some .bracketOpen) &&
      g.heeds none

theorem heeds_ofRule (r : Rule) : (ofRule r).heeds none = true := by
  cases r with
  | value constant => cases constant <;> rfl
  | _ => rfl

theorem heeds_executableDocument : executableDocument.heeds none = true := rfl

theorem heeds_typeSystemDocument : typeSystemDocument.heeds none = true := rfl

variable {tape : Nat → PlacedToken} {limit most d i : Nat} {g h : Grammar} {c c' c'' : Cursor}
  {ts : List Tree} {fault : Fault} {test : Lookahead}

/-- What is read is read in the same way under a greater limit. -/
theorem Reads.mono (reads : Reads tape limit d g c ts c') (le : limit ≤ most) :
    Reads tape most d g c ts c' := by
  induction reads with
  | done => exact .done
  | token accepted => exact .token accepted
  | separator accepted => exact .separator accepted
  | seq _ _ ihg ihh => exact ihg.seq ihh
  | yes passed _ ih => exact .yes passed ih
  | no failed _ ih => exact .no failed ih
  | ends failed => exact .ends failed
  | again passed _ _ ihg ihm => exact .again passed ihg ihm
  | node _ ih => exact ih.node
  | nested room _ ih => exact .nested (Nat.lt_of_lt_of_le room le) ih
  | call _ ih => exact ih.call

/-! ## Where reading comes to -/

/-- Reading comes to `c'`, and has come to the end of the grammar there or stops. -/
def ComesTo (tape : Nat → PlacedToken) (limit d : Nat) (g : Grammar) (c c' : Cursor) : Prop :=
  (∃ ts, Reads tape limit d g c ts c') ∨ ∃ fault, Stops tape limit d g c fault c'

theorem ComesTo.first (h' : ComesTo tape limit d (.seq g h) c c') :
    ∃ c₁, ComesTo tape limit d g c c₁ ∧ c₁.index ≤ c'.index := by
  rcases h' with ⟨_, reads⟩ | ⟨fault, stops⟩
  · cases reads with
    | seq hg hh => exact ⟨_, .inl ⟨_, hg⟩, hh.upto.index⟩
  · cases stops with
    | first hg => exact ⟨_, .inr ⟨_, hg⟩, Nat.le_refl _⟩
    | second hg hh => exact ⟨_, .inl ⟨_, hg⟩, hh.upto.index⟩

theorem ComesTo.second (hg : Reads tape limit d g c ts c')
    (h' : ComesTo tape limit d (.seq g h) c c'') : ComesTo tape limit d h c' c'' := by
  rcases h' with ⟨_, reads⟩ | ⟨fault, stops⟩
  · cases reads with
    | seq hg' hh =>
      obtain ⟨-, rfl⟩ := hg.unique hg'
      exact .inl ⟨_, hh⟩
  · cases stops with
    | first hg' => exact absurd hg' hg.not_stops
    | second hg' hh =>
      obtain ⟨-, rfl⟩ := hg.unique hg'
      exact .inr ⟨_, hh⟩

theorem ComesTo.yes (passed : test.passes tape c.index = true)
    (h' : ComesTo tape limit d (.choice test g h) c c') :
    ComesTo tape limit d g (test.glance tape c) c' := by
  rcases h' with ⟨_, reads⟩ | ⟨fault, stops⟩
  · cases reads with
    | yes _ hg => exact .inl ⟨_, hg⟩
    | no failed _ => exact absurd passed (by simp [failed])
  · cases stops with
    | yes _ hg => exact .inr ⟨_, hg⟩
    | no failed _ => exact absurd passed (by simp [failed])

theorem ComesTo.no (failed : test.passes tape c.index = false)
    (h' : ComesTo tape limit d (.choice test g h) c c') :
    ComesTo tape limit d h (test.glance tape c) c' := by
  rcases h' with ⟨_, reads⟩ | ⟨fault, stops⟩
  · cases reads with
    | yes passed _ => exact absurd passed (by simp [failed])
    | no _ hh => exact .inl ⟨_, hh⟩
  · cases stops with
    | yes passed _ => exact absurd passed (by simp [failed])
    | no _ hh => exact .inr ⟨_, hh⟩

theorem ComesTo.item (passed : test.passes tape c.index = true)
    (h' : ComesTo tape limit d (.many test g) c c') :
    ∃ c₁, ComesTo tape limit d g (test.glance tape c) c₁ ∧ c₁.index ≤ c'.index := by
  rcases h' with ⟨_, reads⟩ | ⟨fault, stops⟩
  · cases reads with
    | ends failed => exact absurd passed (by simp [failed])
    | again _ hg hm => exact ⟨_, .inl ⟨_, hg⟩, hm.upto.index⟩
  · cases stops with
    | item _ hg => exact ⟨_, .inr ⟨_, hg⟩, Nat.le_refl _⟩
    | again _ hg hm => exact ⟨_, .inl ⟨_, hg⟩, hm.upto.index⟩

theorem ComesTo.again (passed : test.passes tape c.index = true)
    (hg : Reads tape limit d g (test.glance tape c) ts c')
    (h' : ComesTo tape limit d (.many test g) c c'') :
    ComesTo tape limit d (.many test g) c' c'' := by
  rcases h' with ⟨_, reads⟩ | ⟨fault, stops⟩
  · cases reads with
    | ends failed => exact absurd passed (by simp [failed])
    | again _ hg' hm =>
      obtain ⟨-, rfl⟩ := hg.unique hg'
      exact .inl ⟨_, hm⟩
  · cases stops with
    | item _ hg' => exact absurd hg' hg.not_stops
    | again _ hg' hm =>
      obtain ⟨-, rfl⟩ := hg.unique hg'
      exact .inr ⟨_, hm⟩

theorem ComesTo.node {k : NodeKind} (h' : ComesTo tape limit d (.node k g) c c') :
    ComesTo tape limit d g c c' := by
  rcases h' with ⟨_, reads⟩ | ⟨fault, stops⟩
  · cases reads with | node hg => exact .inl ⟨_, hg⟩
  · cases stops with | node hg => exact .inr ⟨_, hg⟩

theorem ComesTo.nested (room : d < limit) (h' : ComesTo tape limit d (.nested g) c c') :
    ComesTo tape limit (d + 1) g c c' := by
  rcases h' with ⟨_, reads⟩ | ⟨fault, stops⟩
  · cases reads with | nested _ hg => exact .inl ⟨_, hg⟩
  · cases stops with
    | tooDeep deep => exact absurd room deep
    | nested _ hg => exact .inr ⟨_, hg⟩

theorem ComesTo.call {r : Rule} (h' : ComesTo tape limit d (.call r) c c') :
    ComesTo tape limit d (ofRule r) c c' := by
  rcases h' with ⟨_, reads⟩ | ⟨fault, stops⟩
  · cases reads with | call hr => exact .inl ⟨_, hr⟩
  · cases stops with | call hr => exact .inr ⟨_, hr⟩

/-! ## The token that opens a construct -/

theorem Reads.index_lt_of_opensWith {k : TokenKind} (reads : Reads tape limit d g c ts c')
    (opens : g.opensWith k = true) : c.index < c'.index := by
  induction reads with
  | token _ => exact Nat.lt_succ_self _
  | seq _ hh ihg _ => exact Nat.lt_of_lt_of_le (ihg opens) hh.upto.index
  | node _ ih => exact ih opens
  | _ => cases opens

/-- Where the token that opens the construct is, reading comes to a place behind it. -/
theorem ComesTo.index_lt {k : TokenKind} (h' : ComesTo tape limit d g c c')
    (opens : g.opensWith k = true) (here : (tape c.index).token.kind = k) :
    c.index < c'.index := by
  rcases h' with ⟨ts, reads⟩ | ⟨fault, stops⟩
  · exact reads.index_lt_of_opensWith opens
  · induction stops with
    | token refused =>
      obtain rfl := of_decide_eq_true opens
      exact absurd (Terminal.accepts_kind.mpr here) (by simp [refused])
    | first _ ih => exact ih opens here
    | second hg hh _ => exact Nat.lt_of_lt_of_le (hg.index_lt_of_opensWith opens) hh.upto.index
    | node _ ih => exact ih opens here
    | _ => cases opens

/-- Where it is missing, it is what reading stops for. -/
theorem stops_of_opensWith {k : TokenKind} (opens : g.opensWith k = true)
    (other : (tape c.index).token.kind ≠ k) :
    Stops tape limit d g c (.unexpected k.display) c.peek := by
  induction g with
  | token t =>
    obtain rfl := of_decide_eq_true opens
    have refused : (Terminal.kind k).accepts (tape c.index).token = false :=
      Bool.eq_false_iff.mpr fun accepted => other (Terminal.accepts_kind.mp accepted)
    exact .token refused
  | seq g h ihg _ => exact .first (ihg opens)
  | node k g ih => exact .node (ih opens)
  | _ => cases opens

/-! ## Beyond the limit -/

/-- Under every greater limit reading comes to a place behind `c'`. -/
def Resumes (tape : Nat → PlacedToken) (limit d : Nat) (g : Grammar) (c c' : Cursor) : Prop :=
  ∀ most, limit < most → ∀ c'', ComesTo tape most d g c c'' → c'.index < c''.index

/-- Under every greater limit reading stops at `c'` for a brace that is missing. -/
def Misses (tape : Nat → PlacedToken) (limit d : Nat) (g : Grammar) (c c' : Cursor) : Prop :=
  ∀ most, limit < most → Stops tape most d g c (.unexpected TokenKind.braceOpen.display) c'

theorem Resumes.imp {d' : Nat} {c₀ : Cursor} (resumes : Resumes tape limit d g c c')
    (back : ∀ most, limit < most → ∀ c'', ComesTo tape most d' h c₀ c'' →
      ∃ c₁, ComesTo tape most d g c c₁ ∧ c₁.index ≤ c''.index) :
    Resumes tape limit d' h c₀ c' := by
  intro most more c'' comes
  obtain ⟨c₁, comes', le⟩ := back most more c'' comes
  exact Nat.lt_of_lt_of_le (resumes most more c₁ comes') le

/-- What is true of a part is true of the whole if reading the whole comes to where reading the part
does, or further on, and stops where that stops. -/
theorem resumes_or_misses_imp {d' : Nat} {c₀ : Cursor} {opened missing : Prop}
    (h' : (opened ∧ Resumes tape limit d g c c') ∨ (missing ∧ Misses tape limit d g c c'))
    (back : ∀ most, limit < most → ∀ c'', ComesTo tape most d' h c₀ c'' →
      ∃ c₁, ComesTo tape most d g c c₁ ∧ c₁.index ≤ c''.index)
    (stops : ∀ most, limit < most → ∀ fault,
      Stops tape most d g c fault c' → Stops tape most d' h c₀ fault c') :
    (opened ∧ Resumes tape limit d' h c₀ c') ∨ (missing ∧ Misses tape limit d' h c₀ c') := by
  rcases h' with ⟨opens, resumes⟩ | ⟨other, misses⟩
  · exact .inl ⟨opens, resumes.imp back⟩
  · exact .inr ⟨other, fun most more => stops most more _ (misses most more)⟩

/-- Where reading is stopped by the limit, the next token opens a level, and under every greater
limit reading comes to a place behind it; or a brace is missing there, and under every greater limit
reading stops for that. -/
theorem Stops.resumes_or_misses (h' : Stops tape limit d g c fault c') (deep : fault = .tooDeep)
    {found : Option TokenKind} (heeds : g.heeds found = true)
    (known : ∀ k ∈ found, (tape c.index).token.kind = k) (allowed : d ≤ limit) :
    ((tape c'.index).token.opensLevel = true ∧ Resumes tape limit d g c c') ∨
      ((tape c'.index).token.kind ≠ .braceOpen ∧ Misses tape limit d g c c') := by
  induction h' generalizing found with
  | token _ => cases deep
  | separator _ => cases deep
  | fail => cases deep
  | first _ ih =>
    simp only [Grammar.heeds, Bool.and_eq_true] at heeds
    exact resumes_or_misses_imp (ih deep heeds.1 known allowed) (fun _ _ _ => ComesTo.first)
      fun _ _ _ => .first
  | @second d g h c c' c'' ts fault hg _ ih =>
    simp only [Grammar.heeds, Bool.and_eq_true] at heeds
    refine resumes_or_misses_imp (ih deep heeds.2 nofun allowed) (fun most more c₁ comes => ?_)
      fun most more _ => .second (hg.mono (Nat.le_of_lt more))
    exact ⟨c₁, comes.second (hg.mono (Nat.le_of_lt more)), Nat.le_refl _⟩
  | @yes d test g h c c' fault passed _ ih =>
    simp only [Grammar.heeds, Bool.and_eq_true] at heeds
    have seen : ∀ k ∈ test.finds?, (tape (test.glance tape c).index).token.kind = k := by
      simpa using Lookahead.kind_of_passes passed
    exact resumes_or_misses_imp (ih deep heeds.1 seen allowed)
      (fun _ _ c₁ comes => ⟨c₁, comes.yes passed, Nat.le_refl _⟩) fun _ _ _ => .yes passed
  | no failed _ ih =>
    simp only [Grammar.heeds, Bool.and_eq_true] at heeds
    exact resumes_or_misses_imp (ih deep heeds.2 nofun allowed)
      (fun _ _ c₁ comes => ⟨c₁, comes.no failed, Nat.le_refl _⟩) fun _ _ _ => .no failed
  | @item d test g c c' fault passed _ ih =>
    have seen : ∀ k ∈ test.finds?, (tape (test.glance tape c).index).token.kind = k := by
      simpa using Lookahead.kind_of_passes passed
    exact resumes_or_misses_imp (ih deep heeds seen allowed)
      (fun _ _ _ => ComesTo.item passed) fun _ _ _ => .item passed
  | @again d test g c c' c'' ts fault passed hg _ ih =>
    have others : (Grammar.many test g).heeds none = true := heeds
    refine resumes_or_misses_imp (ih deep others nofun allowed)
      (fun most more c₁ comes => ?_)
      fun most more _ => .again passed (hg.mono (Nat.le_of_lt more))
    exact ⟨c₁, comes.again passed (hg.mono (Nat.le_of_lt more)), Nat.le_refl _⟩
  | node _ ih =>
    exact resumes_or_misses_imp (ih deep heeds known allowed)
      (fun _ _ c₁ comes => ⟨c₁, comes.node, Nat.le_refl _⟩) fun _ _ _ => .node
  | @tooDeep d g c full =>
    have limited : d = limit := Nat.le_antisymm allowed (Nat.le_of_not_lt full)
    simp only [Grammar.heeds, Bool.and_eq_true, Bool.or_eq_true, decide_eq_true_eq] at heeds
    have behind {k : TokenKind} (opens : g.opensWith k = true)
        (here : (tape c.index).token.kind = k) : Resumes tape limit d (.nested g) c c.peek :=
      fun most more c'' comes => (comes.nested (limited ▸ more)).index_lt opens here
    rcases heeds.1 with opens | ⟨opens, rfl⟩
    · by_cases here : (tape c.index).token.kind = .braceOpen
      · exact .inl ⟨by simp [Token.opensLevel, Cursor.peek, here], behind opens here⟩
      · exact .inr ⟨here, fun most more => .nested (limited ▸ more) (stops_of_opensWith opens here)⟩
    · have here := known .bracketOpen rfl
      exact .inl ⟨by simp [Token.opensLevel, Cursor.peek, here], behind opens here⟩
  | nested room _ ih =>
    simp only [Grammar.heeds, Bool.and_eq_true] at heeds
    have wider {most : Nat} (more : limit < most) := Nat.lt_trans room more
    exact resumes_or_misses_imp (ih deep heeds.2 nofun room)
      (fun _ more c₁ comes => ⟨c₁, comes.nested (wider more), Nat.le_refl _⟩)
      fun _ more _ => .nested (wider more)
  | call _ ih =>
    exact resumes_or_misses_imp (ih deep (heeds_ofRule _) nofun allowed)
      (fun _ _ c₁ comes => ⟨c₁, comes.call, Nat.le_refl _⟩) fun _ _ _ => .call

end Grammar

end GraphQL
