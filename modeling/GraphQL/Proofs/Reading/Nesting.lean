import GraphQL.Proofs.Reading.Completeness

/-!
# The limit on nesting

A limit on nesting does nothing to a text that keeps to it. How deeply a text is nested can be read
off the tree that it gives without a limit, and so can the place where a limit that is too small
ends the reading: it is the first construct that has as many levels around it as are allowed.

Results:
1. `levelled_ofRule`, `levelled_executableDocument`, `levelled_typeSystemDocument`: the grammars of
   the language count those constructs that count as a level, and each of them once.
2. `Reads.within`: what is nested no deeper than allowed is read in the same way.
3. `Reads.exceeds`: what is nested deeper stops at the first construct that is.
4. `Stops.limited`: what stops for another reason still does, or has stopped by then.
5. `Stops.le_of_tooDeep`: a limit takes as many tokens to reach.
-/

namespace GraphQL

/-- The constructs that count as a level. -/
def NodeKind.isLevel : NodeKind → Bool
  | .selectionSet | .listValue | .objectValue | .listType => true
  | _ => false

namespace Tree

mutual

/-- The greatest number of levels on a path from the tree down to a leaf. -/
def nesting : Tree → Nat
  | .token _ => 0
  | .node k ps => if k.isLevel then nestingOf ps + 1 else nestingOf ps

/-- The greatest number of levels on a path from one of the trees down to a leaf. -/
def nestingOf : List Tree → Nat
  | [] => 0
  | t :: ts => max t.nesting (nestingOf ts)

end

mutual

/-- The constructs of the tree that count as a level, in source order. Each comes with the number of
levels around it, of which `above` are around the tree. -/
def levelNodes (above : Nat) : Tree → List (Nat × Tree)
  | .token _ => []
  | .node k ps =>
    if k.isLevel then (above, .node k ps) :: levelNodesOf (above + 1) ps
    else levelNodesOf above ps

/-- The constructs of the trees that count as a level. -/
def levelNodesOf (above : Nat) : List Tree → List (Nat × Tree)
  | [] => []
  | t :: ts => t.levelNodes above ++ levelNodesOf above ts

end

theorem nestingOf_append (ts us : List Tree) :
    nestingOf (ts ++ us) = max (nestingOf ts) (nestingOf us) := by
  induction ts with
  | nil => simp [nestingOf]
  | cons t ts ih => simp [nestingOf, ih, Nat.max_assoc]

theorem levelNodesOf_append (above : Nat) (ts us : List Tree) :
    levelNodesOf above (ts ++ us) = levelNodesOf above ts ++ levelNodesOf above us := by
  induction ts with
  | nil => simp [levelNodesOf]
  | cons t ts ih => simp [levelNodesOf, ih]

theorem nestingOf_singleton (t : Tree) : nestingOf [t] = t.nesting := by
  simp [nestingOf]

theorem levelNodesOf_singleton (above : Nat) (t : Tree) :
    levelNodesOf above [t] = t.levelNodes above := by
  simp [levelNodesOf]

mutual

/-- Around a construct that counts as a level there are fewer levels than the tree has. -/
theorem lt_of_mem_levelNodes {above : Nat} {p : Nat × Tree} :
    ∀ t : Tree, p ∈ t.levelNodes above → p.1 < above + t.nesting
  | .token x, h => by
    rw [levelNodes] at h
    cases h
  | .node k ps, h => by
    rw [levelNodes] at h
    rw [nesting]
    split at h
    · next level =>
      rw [if_pos level]
      rcases List.mem_cons.mp h with rfl | h
      · exact Nat.lt_add_of_pos_right (Nat.succ_pos _)
      · have := lt_of_mem_levelNodesOf ps h
        omega
    · next other =>
      rw [if_neg other]
      exact lt_of_mem_levelNodesOf ps h

theorem lt_of_mem_levelNodesOf {above : Nat} {p : Nat × Tree} :
    ∀ ts : List Tree, p ∈ levelNodesOf above ts → p.1 < above + nestingOf ts
  | [], h => by
    rw [levelNodesOf] at h
    cases h
  | t :: ts, h => by
    rw [levelNodesOf] at h
    rw [nestingOf]
    rcases List.mem_append.mp h with h | h
    · have := lt_of_mem_levelNodes t h
      omega
    · have := lt_of_mem_levelNodesOf ts h
      omega

end

/-- The token is the first one of the first construct that has `limit` levels around it, if `above`
are around the trees. -/
def FirstTooDeep (limit above : Nat) (ts : List Tree) (x : PlacedToken) : Prop :=
  ∃ u, (levelNodesOf above ts).find? (·.1 = limit) = some (limit, u) ∧ u.tokens.head? = some x

namespace FirstTooDeep

variable {limit above : Nat} {ts us : List Tree} {x : PlacedToken}

theorem append_left (h : FirstTooDeep limit above ts x) :
    FirstTooDeep limit above (ts ++ us) x := by
  obtain ⟨u, found, head⟩ := h
  refine ⟨u, ?_, head⟩
  rw [levelNodesOf_append, List.find?_append, found]
  rfl

theorem append_right (room : above + nestingOf ts ≤ limit) (h : FirstTooDeep limit above us x) :
    FirstTooDeep limit above (ts ++ us) x := by
  obtain ⟨u, found, head⟩ := h
  refine ⟨u, ?_, head⟩
  have none : (levelNodesOf above ts).find? (·.1 = limit) = none := by
    rw [List.find?_eq_none]
    intro p hp
    have := lt_of_mem_levelNodesOf ts hp
    simp only [decide_eq_true_eq]
    omega
  rw [levelNodesOf_append, List.find?_append, none, found]
  rfl

/-- A construct that has the levels around it itself. -/
theorem here {k : NodeKind} (level : k.isLevel = true) (head : (tokensOf ts).head? = some x) :
    FirstTooDeep limit limit [.node k ts] x := by
  refine ⟨.node k ts, ?_, by rwa [tokens_node]⟩
  rw [levelNodesOf_singleton, levelNodes, if_pos level]
  simp

/-- The first one inside a construct that has fewer levels around it. -/
theorem inside {k : NodeKind} (room : above + k.isLevel.toNat ≤ limit)
    (h : FirstTooDeep limit (above + k.isLevel.toNat) ts x) :
    FirstTooDeep limit above [.node k ts] x := by
  obtain ⟨u, found, head⟩ := h
  refine ⟨u, ?_, head⟩
  rw [levelNodesOf_singleton, levelNodes]
  cases level : k.isLevel with
  | false => simpa [level] using found
  | true =>
    have other : above ≠ limit := by
      rw [level, Bool.toNat_true] at room
      omega
    simpa [level, other] using found

end FirstTooDeep

theorem nesting_node (k : NodeKind) (ps : List Tree) :
    (node k ps).nesting = k.isLevel.toNat + nestingOf ps := by
  rw [nesting]
  cases k.isLevel with
  | false => simp
  | true => simp [Nat.add_comm]

end Tree

namespace Grammar

open GraphQL.Tree (nesting nestingOf nestingOf_append nestingOf_singleton nesting_node FirstTooDeep
  tokensOf tokensOf_append)

/-- The constructs that count as a level are those, and only those, for which one is counted.
`entered` says that one has just been counted. -/
def levelled (entered : Bool) : Grammar → Bool
  | done | token _ | separator _ | fail _ | call _ => !entered
  | seq g h | choice _ g h => !entered && g.levelled false && h.levelled false
  | many _ g => !entered && g.levelled false
  | node k g => k.isLevel == entered && g.levelled false
  | nested g => !entered && g.levelled true

theorem levelled_ofRule (r : Rule) : (ofRule r).levelled false = true := by
  cases r with
  | value constant => cases constant <;> rfl
  | _ => rfl

theorem levelled_executableDocument : executableDocument.levelled false = true := rfl

theorem levelled_typeSystemDocument : typeSystemDocument.levelled false = true := rfl

section Levelled

variable {entered : Bool} {test : Lookahead} {k : NodeKind} {r : Rule} {g h : Grammar}

theorem levelled_seq : (seq g h).levelled entered = true ↔
    entered = false ∧ g.levelled false = true ∧ h.levelled false = true := by
  simp [levelled, and_assoc]

theorem levelled_choice : (choice test g h).levelled entered = true ↔
    entered = false ∧ g.levelled false = true ∧ h.levelled false = true := by
  simp [levelled, and_assoc]

theorem levelled_many :
    (many test g).levelled entered = true ↔ entered = false ∧ g.levelled false = true := by
  simp [levelled]

theorem levelled_node :
    (node k g).levelled entered = true ↔ k.isLevel = entered ∧ g.levelled false = true := by
  simp [levelled]

theorem levelled_nested :
    (nested g).levelled entered = true ↔ entered = false ∧ g.levelled true = true := by
  simp [levelled]

theorem levelled_call : (call r).levelled entered = true ↔ entered = false := by
  simp [levelled]

end Levelled

variable {tape : Nat → PlacedToken} {limit most d above : Nat} {entered : Bool} {g : Grammar}
  {c c' : Cursor} {ts : List Tree} {fault : Fault}

/-! ## What is read without a limit -/

/-- Behind a level that has been counted there is one construct, which counts as one. -/
theorem Reads.eq_node (h : Reads tape limit d g c ts c') (levelled : g.levelled true = true) :
    ∃ k us, ts = [.node k us] ∧ k.isLevel = true := by
  cases h with
  | @node d k g c c' us _ => exact ⟨k, us, rfl, (levelled_node.mp levelled).1⟩
  | _ => simp [Grammar.levelled] at levelled

/-- What is nested no deeper than `most` allows is read under this limit in the same way. -/
theorem Reads.within (h : Reads tape limit d g c ts c') (levelled : g.levelled entered = true)
    (depth : d = above + entered.toNat) (room : above + nestingOf ts ≤ most) :
    Reads tape most d g c ts c' := by
  induction h generalizing above entered with
  | done => exact .done
  | token accepted => exact .token accepted
  | separator accepted => exact .separator accepted
  | seq _ _ ihg ihh =>
    obtain ⟨rfl, hg, hh⟩ := levelled_seq.mp levelled
    rw [nestingOf_append] at room
    exact (ihg hg depth (by omega)).seq (ihh hh depth (by omega))
  | yes passed _ ih =>
    obtain ⟨rfl, hg, -⟩ := levelled_choice.mp levelled
    exact .yes passed (ih hg depth room)
  | no failed _ ih =>
    obtain ⟨rfl, -, hh⟩ := levelled_choice.mp levelled
    exact .no failed (ih hh depth room)
  | ends failed => exact .ends failed
  | again passed _ _ ihg ihm =>
    obtain ⟨rfl, hg⟩ := levelled_many.mp levelled
    rw [nestingOf_append] at room
    exact .again passed (ihg hg depth (by omega)) (ihm levelled depth (by omega))
  | node _ ih =>
    obtain ⟨rfl, hg⟩ := levelled_node.mp levelled
    rw [nestingOf_singleton, nesting_node, ← Nat.add_assoc, ← depth] at room
    exact (ih hg rfl room).node
  | nested _ hg ih =>
    obtain ⟨rfl, inner⟩ := levelled_nested.mp levelled
    obtain rfl : _ = above := depth
    obtain ⟨k, us, rfl, level⟩ := hg.eq_node inner
    have deep := room
    rw [nestingOf_singleton, nesting_node, level, Bool.toNat_true] at deep
    exact .nested (by omega) (ih inner rfl room)
  | call _ ih =>
    obtain rfl := levelled_call.mp levelled
    exact (ih (levelled_ofRule _) depth room).call

/-- What starts with a token that opens a level has this token first. -/
theorem Reads.head_of_leads (h : Reads tape limit d g c ts c') (leads : g.leads = true) :
    (tokensOf ts).head? = some (tape c.index) ∧ (tape c.index).token.opensLevel = true ∧
      c.index < c'.index := by
  induction h with
  | @token d t c accepted =>
    simp only [Grammar.leads, Bool.or_eq_true, decide_eq_true_eq] at leads
    refine ⟨by simp [tokensOf], ?_, Nat.lt_succ_self _⟩
    rcases leads with rfl | rfl <;> simp [Token.opensLevel, Terminal.accepts_kind.mp accepted]
  | seq _ hh ihg _ =>
    obtain ⟨head, opens, forward⟩ := ihg leads
    refine ⟨?_, opens, Nat.lt_of_lt_of_le forward hh.upto.index⟩
    rw [tokensOf_append, List.head?_append, head]
    rfl
  | node _ ih => simpa [tokensOf] using ih leads
  | _ => cases leads

/-- What is nested deeper than `most` allows stops under this limit, at the first token of the first
construct that has as many levels around it. -/
theorem Reads.exceeds (h : Reads tape limit d g c ts c') (levelled : g.levelled entered = true)
    (bracketed : g.bracketed = true) (depth : d = above + entered.toNat) (allowed : d ≤ most)
    (deep : most < above + nestingOf ts) :
    ∃ c'', Stops tape most d g c .tooDeep c'' ∧ c''.index ≤ c'.index ∧
      FirstTooDeep most above ts (tape c''.index) ∧
      (tape c''.index).token.opensLevel = true := by
  induction h generalizing above entered with
  | done =>
    rw [nestingOf] at deep
    omega
  | token _ =>
    rw [nestingOf_singleton, nesting] at deep
    omega
  | separator _ =>
    rw [nestingOf] at deep
    omega
  | @seq d g h c c' c'' ts us hg hh ihg ihh =>
    obtain ⟨rfl, lg, lh⟩ := levelled_seq.mp levelled
    simp only [Grammar.bracketed, Bool.and_eq_true] at bracketed
    rcases Nat.lt_or_ge most (above + nestingOf ts) with first | room
    · obtain ⟨c₁, stops, le, found, opens⟩ := ihg lg bracketed.1 depth allowed first
      exact ⟨c₁, .first stops, Nat.le_trans le hh.upto.index, found.append_left, opens⟩
    · rw [nestingOf_append] at deep
      obtain ⟨c₁, stops, le, found, opens⟩ := ihh lh bracketed.2 depth allowed (by omega)
      exact ⟨c₁, .second (hg.within lg depth room) stops, le, found.append_right room, opens⟩
  | yes passed _ ih =>
    obtain ⟨rfl, lg, -⟩ := levelled_choice.mp levelled
    simp only [Grammar.bracketed, Bool.and_eq_true] at bracketed
    obtain ⟨c₁, stops, rest⟩ := ih lg bracketed.1 depth allowed deep
    exact ⟨c₁, .yes passed stops, rest⟩
  | no failed _ ih =>
    obtain ⟨rfl, -, lh⟩ := levelled_choice.mp levelled
    simp only [Grammar.bracketed, Bool.and_eq_true] at bracketed
    obtain ⟨c₁, stops, rest⟩ := ih lh bracketed.2 depth allowed deep
    exact ⟨c₁, .no failed stops, rest⟩
  | ends _ =>
    rw [nestingOf] at deep
    omega
  | @again d test g c c' c'' ts us passed hg hm ihg ihm =>
    obtain ⟨rfl, lg⟩ := levelled_many.mp levelled
    rcases Nat.lt_or_ge most (above + nestingOf ts) with first | room
    · obtain ⟨c₁, stops, le, found, opens⟩ := ihg lg bracketed depth allowed first
      exact ⟨c₁, .item passed stops, Nat.le_trans le hm.upto.index, found.append_left, opens⟩
    · rw [nestingOf_append] at deep
      obtain ⟨c₁, stops, le, found, opens⟩ := ihm levelled bracketed depth allowed (by omega)
      exact ⟨c₁, .again passed (hg.within lg depth room) stops, le, found.append_right room, opens⟩
  | node _ ih =>
    obtain ⟨rfl, lg⟩ := levelled_node.mp levelled
    rw [nestingOf_singleton, nesting_node, ← Nat.add_assoc, ← depth] at deep
    obtain ⟨c₁, stops, le, found, opens⟩ := ih lg bracketed rfl allowed deep
    subst depth
    exact ⟨c₁, stops.node, le, found.inside allowed, opens⟩
  | @nested d g c c' ts _ hg ih =>
    obtain ⟨rfl, lg⟩ := levelled_nested.mp levelled
    obtain rfl : d = above := depth
    simp only [Grammar.bracketed, Bool.and_eq_true] at bracketed
    by_cases room : d < most
    · obtain ⟨c₁, stops, rest⟩ := ih lg bracketed.2 rfl room deep
      exact ⟨c₁, .nested room stops, rest⟩
    · obtain rfl : d = most := Nat.le_antisymm allowed (Nat.le_of_not_lt room)
      obtain ⟨head, opens, -⟩ := hg.head_of_leads bracketed.1
      obtain ⟨k, us, rfl, level⟩ := hg.eq_node lg
      have first : (tokensOf us).head? = some (tape c.index) := by simpa [tokensOf] using head
      exact ⟨c.peek, .tooDeep room, hg.upto.index, .here level first, opens⟩
  | call _ ih =>
    obtain rfl := levelled_call.mp levelled
    obtain ⟨c₁, stops, rest⟩ := ih (levelled_ofRule _) (bracketed_ofRule _) depth allowed deep
    exact ⟨c₁, stops.call, rest⟩

/-! ## What stops without a limit -/

/-- Reading stops in this way, or it stops because of the limit no later. -/
def Breaks (tape : Nat → PlacedToken) (limit d : Nat) (g : Grammar) (c : Cursor) (fault : Fault)
    (c' : Cursor) : Prop :=
  Stops tape limit d g c fault c' ∨
    ∃ c'', Stops tape limit d g c .tooDeep c'' ∧ c''.index ≤ c'.index

theorem Breaks.imp {d' : Nat} {g' : Grammar} {c₁ : Cursor} (h : Breaks tape limit d g c fault c')
    (f : ∀ fault c'', Stops tape limit d g c fault c'' → Stops tape limit d' g' c₁ fault c'') :
    Breaks tape limit d' g' c₁ fault c' := by
  rcases h with stops | ⟨c'', stops, le⟩
  · exact .inl (f _ _ stops)
  · exact .inr ⟨c'', f _ _ stops, le⟩

/-- What stops because of a token still does when only `most` levels are allowed, unless it is
stopped by the limit no later. -/
theorem Stops.limited (h : Stops tape limit d g c fault c') (levelled : g.levelled entered = true)
    (bracketed : g.bracketed = true) (depth : d = above + entered.toNat) (allowed : d ≤ most)
    (token : fault ≠ .tooDeep) : Breaks tape most d g c fault c' := by
  induction h generalizing above entered with
  | token refused => exact .inl (.token refused)
  | separator refused => exact .inl (.separator refused)
  | fail => exact .inl .fail
  | first _ ih =>
    obtain ⟨rfl, lg, -⟩ := levelled_seq.mp levelled
    simp only [Grammar.bracketed, Bool.and_eq_true] at bracketed
    exact (ih lg bracketed.1 depth allowed token).imp fun _ _ => .first
  | @second d g h c c' c'' ts fault hg hh ih =>
    obtain ⟨rfl, lg, lh⟩ := levelled_seq.mp levelled
    simp only [Grammar.bracketed, Bool.and_eq_true] at bracketed
    rcases Nat.lt_or_ge most (above + nestingOf ts) with deep | room
    · obtain ⟨c₁, stops, le, -⟩ := hg.exceeds lg bracketed.1 depth allowed deep
      exact .inr ⟨c₁, .first stops, Nat.le_trans le hh.upto.index⟩
    · have reads := hg.within lg depth room
      exact (ih lh bracketed.2 depth allowed token).imp fun _ _ => .second reads
  | yes passed _ ih =>
    obtain ⟨rfl, lg, -⟩ := levelled_choice.mp levelled
    simp only [Grammar.bracketed, Bool.and_eq_true] at bracketed
    exact (ih lg bracketed.1 depth allowed token).imp fun _ _ => .yes passed
  | no failed _ ih =>
    obtain ⟨rfl, -, lh⟩ := levelled_choice.mp levelled
    simp only [Grammar.bracketed, Bool.and_eq_true] at bracketed
    exact (ih lh bracketed.2 depth allowed token).imp fun _ _ => .no failed
  | item passed _ ih =>
    obtain ⟨rfl, lg⟩ := levelled_many.mp levelled
    exact (ih lg bracketed depth allowed token).imp fun _ _ => .item passed
  | @again d test g c c' c'' ts fault passed hg hm ih =>
    obtain ⟨rfl, lg⟩ := levelled_many.mp levelled
    rcases Nat.lt_or_ge most (above + nestingOf ts) with deep | room
    · obtain ⟨c₁, stops, le, -⟩ := hg.exceeds lg bracketed depth allowed deep
      exact .inr ⟨c₁, .item passed stops, Nat.le_trans le hm.upto.index⟩
    · have reads := hg.within lg depth room
      exact (ih levelled bracketed depth allowed token).imp fun _ _ => .again passed reads
  | node _ ih =>
    obtain ⟨-, lg⟩ := levelled_node.mp levelled
    exact (ih lg bracketed (Nat.add_zero _).symm allowed token).imp fun _ _ => .node
  | tooDeep _ => exact absurd rfl token
  | @nested d g c c' fault _ hg ih =>
    obtain ⟨rfl, lg⟩ := levelled_nested.mp levelled
    obtain rfl : d = above := depth
    simp only [Grammar.bracketed, Bool.and_eq_true] at bracketed
    by_cases room : d < most
    · exact (ih lg bracketed.2 rfl room token).imp fun _ _ => .nested room
    · exact .inr ⟨_, .tooDeep room, hg.upto.index⟩
  | call _ ih =>
    obtain rfl := levelled_call.mp levelled
    exact (ih (levelled_ofRule _) (bracketed_ofRule _) depth allowed token).imp fun _ _ => .call

/-- What has been read has taken a token for each level that is open. -/
theorem Reads.le_index (h : Reads tape limit d g c ts c')
    (taken : d ≤ c.index + g.leads.toNat) : d ≤ c'.index := by
  cases leads : g.leads with
  | true =>
    have forward := (h.head_of_leads leads).2.2
    rw [leads, Bool.toNat_true] at taken
    omega
  | false =>
    rw [leads] at taken
    exact Nat.le_trans taken h.upto.index

/-- Each level that is open has taken a token, unless it has just been counted. So a limit is not
reached before as many tokens have been taken. -/
theorem Stops.le_of_tooDeep (h : Stops tape limit d g c fault c') (deep : fault = .tooDeep)
    (bracketed : g.bracketed = true) (taken : d ≤ c.index + g.leads.toNat) :
    limit ≤ c'.index := by
  induction h with
  | token _ => cases deep
  | separator _ => cases deep
  | fail => cases deep
  | first _ ih =>
    simp only [Grammar.bracketed, Bool.and_eq_true] at bracketed
    exact ih deep bracketed.1 taken
  | second hg _ ih =>
    simp only [Grammar.bracketed, Bool.and_eq_true] at bracketed
    exact ih deep bracketed.2 (Nat.le_add_right_of_le (hg.le_index taken))
  | yes _ _ ih =>
    simp only [Grammar.bracketed, Bool.and_eq_true] at bracketed
    exact ih deep bracketed.1 (Nat.le_add_right_of_le (by simpa [Grammar.leads] using taken))
  | no _ _ ih =>
    simp only [Grammar.bracketed, Bool.and_eq_true] at bracketed
    exact ih deep bracketed.2 (Nat.le_add_right_of_le (by simpa [Grammar.leads] using taken))
  | item _ _ ih =>
    exact ih deep bracketed (Nat.le_add_right_of_le (by simpa [Grammar.leads] using taken))
  | @again d test g c c' c'' ts fault _ hg _ ih =>
    have forward : c.index ≤ c'.index := by simpa using hg.upto.index
    exact ih deep bracketed (Nat.le_trans taken (Nat.add_le_add_right forward _))
  | node _ ih => exact ih deep bracketed taken
  | tooDeep full => exact Nat.le_trans (Nat.le_of_not_lt full) taken
  | nested _ _ ih =>
    simp only [Grammar.bracketed, Bool.and_eq_true] at bracketed
    refine ih deep bracketed.2 ?_
    rw [bracketed.1]
    exact Nat.succ_le_succ taken
  | call _ ih => exact ih deep (bracketed_ofRule _) (Nat.le_add_right_of_le taken)

end Grammar

end GraphQL
