import GraphQL.Proofs.Reading.Completeness
import GraphQL.Proofs.Reading.Completion
import GraphQL.Proofs.Reading.Moved
import GraphQL.Proofs.Reading.Tidy

/-!
# What may follow

A grammar is read up to a token that it cannot go on with, and it makes no difference which token
that is. This is not so for every grammar: it may look at a token, decide against an optional part,
and find out later that another token would have led to the same place. For the grammars that pass
`greedy` an optional part that could be last is always announced by its first token, and every token
that announces it does begin it.

Results:
1. `begins_of_takes`: a token that begins a text of an expression.
2. `greedy_ofRule`, `greedy_executableDefinition`, `greedy_typeSystemDefinition`: the definitions of
   the language pass the check.
3. `Reads.replaced`: what stands behind a text can be replaced by anything it does not go on with.
4. `Reads.stops_behind`: a row of such texts is read up to what stops behind it.
5. `not_begins_of_decides`: the tokens that a grammar decides on at its end go on with none of its
   texts.
-/

namespace GraphQL

namespace Ebnf

/-- Every token that is like `t` begins a text of the expression. -/
def takes (t : Terminal) : Ebnf → Bool
  | terminal u | hidden u => t.implies u
  | seq e f => e.takes t && f.productive true
  | alt e f => e.takes t || f.takes t
  | node _ e => e.takes t
  | empty | never | star _ | ref _ => false

theorem begins_of_takes {t : Terminal} {x : PlacedToken} (accepted : t.accepts x.token = true)
    {e : Ebnf} (he : e.takes t = true) : e.Begins [x] := by
  induction e with
  | terminal u => exact (Derives.terminal (Terminal.accepts_of_implies he accepted)).begins
  | hidden u => exact (Derives.hidden (Terminal.accepts_of_implies he accepted)).begins
  | seq e f ihe _ =>
    simp only [takes, Bool.and_eq_true] at he
    exact (ihe he.1).seq_left (begins_of_productive he.2)
  | alt e f ihe ihf =>
    simp only [takes, Bool.or_eq_true] at he
    rcases he with he | hf
    · exact (ihe he).mono fun _ ts h => ⟨ts, h.left⟩
    · exact (ihf hf).mono fun _ ts h => ⟨ts, h.right⟩
  | node k e ih => exact (ih he).mono fun _ _ h => ⟨_, h.node⟩
  | empty => cases he
  | never => cases he
  | star _ _ => cases he
  | ref _ => cases he

end Ebnf

/-- Every row of tokens stands at the start of a tape, with any token behind it. -/
theorem exists_tape (xs : List PlacedToken) (y : PlacedToken) :
    ∃ tape : Nat → PlacedToken, (∀ i, tape i = xs[i]?.getD y) ∧
      ∀ n, n ≤ xs.length → slice tape 0 n = xs.take n := by
  refine ⟨fun i => xs[i]?.getD y, fun _ => rfl, fun n hn => ?_⟩
  refine List.ext_getElem (by simp [hn]) fun i hi hi' => ?_
  have inside : i < xs.length := by
    rw [length_slice] at hi
    omega
  simp [slice, inside]

namespace Lookahead

/-- The test looks at one token only. -/
def single : Lookahead → Bool
  | next _ | nextNot _ => true
  | nextTwo _ _ => false

/-- Every token that passes the test begins a text of the expression. -/
def announces (test : Lookahead) (e : Ebnf) : Bool :=
  match test with
  | next t => e.takes t
  | nextNot _ | nextTwo _ _ => false

variable {test : Lookahead}

/-- A test for one token depends on that token alone. -/
theorem glance_of_single (tape tape' : Nat → PlacedToken) (single : test.single = true)
    (c : Cursor) : test.glance tape' c = test.glance tape c ∧
      ((tape' c.index).token = (tape c.index).token →
        test.passes tape' c.index = test.passes tape c.index) := by
  cases test with
  | nextTwo t u => cases single
  | _ => exact ⟨rfl, fun same => by simp only [passes, same]⟩

theorem single_of_announces {e : Ebnf} (h : test.announces e = true) : test.single = true := by
  cases test with
  | next t => rfl
  | _ => cases h

theorem begins_of_announces {tape : Nat → PlacedToken} {e : Ebnf} (h : test.announces e = true)
    {i : Nat} (passed : test.passes tape i = true) : e.Begins [tape i] := by
  cases test with
  | next t => exact Ebnf.begins_of_takes passed h
  | _ => cases h

theorem tidy_glance_of_single (tape : Nat → PlacedToken) (single : test.single = true)
    {c : Cursor} (tidy : c.seen ≤ c.index + 1) :
    (test.glance tape c).seen ≤ (test.glance tape c).index + 1 := by
  rw [index_glance]
  cases test with
  | nextTwo t u => cases single
  | _ => exact Nat.max_le.mpr ⟨tidy, Nat.le_refl _⟩

end Lookahead

namespace Grammar

/-- A grammar that is read up to a token that it cannot go on with is read in the same way up to any
other such token. -/
def greedy : Grammar → Bool
  | done | token _ | separator _ | fail _ | call _ => true
  | seq g h => g.tidies none = some none && h.greedy && (h.toEbnf.consumes || g.greedy)
  | choice test g h =>
    g.toEbnf.consumes && g.greedy && h.greedy &&
      (test.announces g.toEbnf || (test.single && h.toEbnf.consumes))
  | many test g =>
    g.tidies none = some none && g.toEbnf.consumes && g.greedy && test.announces g.toEbnf
  | node _ g | nested g => g.greedy

theorem greedy_ofRule (r : Rule) : (ofRule r).greedy = true := by
  cases r with
  | value constant => cases constant <;> decide +kernel
  | _ => decide +kernel

theorem greedy_executableDefinition : executableDefinition.greedy = true := by decide +kernel

theorem greedy_typeSystemDefinition : typeSystemDefinition.greedy = true := by decide +kernel

variable {tape tape' : Nat → PlacedToken} {limit d : Nat} {g : Grammar} {c c' : Cursor}
  {ts : List Tree}

/-- One text of a row: the cursors before and behind it look at the next token at most. -/
theorem Reads.round_tidy {test : Lookahead} (h : Reads tape limit d g (test.glance tape c) ts c')
    (single : test.single = true) (tidies : g.tidies none = some none)
    (consumes : g.toEbnf.consumes = true) (tidy : c.seen ≤ c.index + 1) :
    (test.glance tape c).seen ≤ c.index + 1 ∧ c'.seen ≤ c'.index + 1 ∧ c.index < c'.index ∧
      g.toEbnf.Derives (slice tape c.index c'.index) ts := by
  have before := Lookahead.tidy_glance_of_single tape single tidy
  have behind : c'.seen ≤ c'.index + 1 := h.tidy tidies before
  have forward := h.index_lt consumes
  have derives := h.derives
  rw [Lookahead.index_glance] at before forward derives
  exact ⟨before, behind, forward, derives⟩

/-- A text is read again on a tape that is the same up to `n`, if it is where it ends at `n`. -/
theorem Reads.copied_or {n : Nat} (h : Reads tape limit d g c ts c') (within : c'.index ≤ n)
    (tidy : c'.seen ≤ c'.index + 1) (same : ∀ i, i < n → tape' i = tape i)
    (last : c'.index = n → Reads tape' limit d g c ts c') : Reads tape' limit d g c ts c' := by
  rcases Nat.lt_or_eq_of_le within with inside | ends
  · exact h.copied same (by omega)
  · exact last ends

/-- What stands behind a text that has been read can be replaced by anything that the text does not
go on with. -/
theorem Reads.replaced (h : Reads tape limit d g c ts c') (greedy : g.greedy = true)
    (tidy : c.seen ≤ c.index + 1) (same : ∀ i, i < c'.index → tape' i = tape i)
    (closed : ¬ g.toEbnf.Begins (slice tape c.index c'.index ++ [tape' c'.index])) :
    Reads tape' limit d g c ts c' := by
  induction h with
  | done => exact .done
  | @token d t c accepted =>
    have here := same c.index (Nat.lt_succ_self _)
    rw [← here] at accepted ⊢
    exact .token accepted
  | @separator d t c accepted =>
    have here := same c.index (Nat.lt_succ_self _)
    exact .separator (here ▸ accepted)
  | @seq d g h c c₁ c₂ ts us hg hh ihg ihh =>
    simp only [Grammar.greedy, Bool.and_eq_true, Bool.or_eq_true, decide_eq_true_eq] at greedy
    obtain ⟨⟨tidies, second⟩, last⟩ := greedy
    have between : c₁.seen ≤ c₁.index + 1 := hg.tidy tidies tidy
    rw [← slice_append tape hg.upto.index hh.upto.index, List.append_assoc] at closed
    refine .seq (hg.copied_or hh.upto.index between same fun ends => ?_)
      (ihh second between same fun begins => closed (.seq_right hg.derives begins))
    -- the second part is empty, so the first one is what is not gone on with
    have first := last.resolve_left fun consumes => absurd (hh.index_lt consumes) (by omega)
    have nothing := hh.derives
    rw [← ends, slice_self] at nothing closed
    exact ihg first tidy (ends ▸ same) fun begins => closed (.seq_left begins nothing.begins)
  | @yes d test g h c c' ts passed hg ih =>
    simp only [Grammar.greedy, Bool.and_eq_true, Bool.or_eq_true] at greedy
    obtain ⟨⟨⟨consumes, first⟩, -⟩, test'⟩ := greedy
    have single := test'.elim Lookahead.single_of_announces And.left
    obtain ⟨looked, passes⟩ := Lookahead.glance_of_single tape tape' single c
    have inside := hg.index_lt consumes
    rw [Lookahead.index_glance] at inside ih
    refine .yes ((passes (by rw [same _ inside])).trans passed) (looked ▸ ih first ?_ same ?_)
    · simpa using Lookahead.tidy_glance_of_single tape single tidy
    · exact fun begins => closed (begins.mono fun _ ts h => ⟨ts, Ebnf.derives_or.mpr (.inl h)⟩)
  | @no d test g h c c' ts failed hh ih =>
    simp only [Grammar.greedy, Bool.and_eq_true, Bool.or_eq_true] at greedy
    obtain ⟨⟨⟨-, -⟩, second⟩, test'⟩ := greedy
    have single := test'.elim Lookahead.single_of_announces And.left
    obtain ⟨looked, passes⟩ := Lookahead.glance_of_single tape tape' single c
    have upto := hh.upto.index
    rw [Lookahead.index_glance] at upto ih
    have failed' : test.passes tape' c.index = false := by
      rcases Nat.lt_or_eq_of_le upto with inside | ends
      · exact (passes (by rw [same _ inside])).trans failed
      · -- nothing has been read, so a token that passes would begin the other branch
        rcases test' with announces | ⟨-, consumes⟩
        · refine Bool.eq_false_iff.mpr fun passed => closed ?_
          rw [← ends, slice_self, List.nil_append]
          exact (Lookahead.begins_of_announces announces passed).mono
            fun _ ts h => ⟨ts, Ebnf.derives_or.mpr (.inl h)⟩
        · have inside := hh.index_lt consumes
          rw [Lookahead.index_glance] at inside
          omega
    refine .no failed' (looked ▸ ih second ?_ same ?_)
    · simpa using Lookahead.tidy_glance_of_single tape single tidy
    · exact fun begins => closed (begins.mono fun _ ts h => ⟨ts, Ebnf.derives_or.mpr (.inr h)⟩)
  | @ends d test g c failed =>
    simp only [Grammar.greedy, Bool.and_eq_true] at greedy
    obtain ⟨-, announces⟩ := greedy
    obtain ⟨looked, -⟩ :=
      Lookahead.glance_of_single tape tape' (Lookahead.single_of_announces announces) c
    rw [Lookahead.index_glance, slice_self, List.nil_append] at closed
    rw [← looked]
    refine .ends (Bool.eq_false_iff.mpr fun passed => closed ?_)
    exact (Lookahead.begins_of_announces announces passed).item
  | @again d test g c c₁ c₂ ts us passed hg hm ihg ihm =>
    have whole := greedy
    simp only [Grammar.greedy, Bool.and_eq_true, decide_eq_true_eq] at greedy
    obtain ⟨⟨⟨tidies, consumes⟩, item⟩, announces⟩ := greedy
    have single := Lookahead.single_of_announces announces
    obtain ⟨looked, passes⟩ := Lookahead.glance_of_single tape tape' single c
    obtain ⟨tidy', between, forward, derives⟩ := hg.round_tidy single tidies consumes tidy
    have onward := hm.upto.index
    rw [Lookahead.index_glance] at ihg
    rw [← slice_append tape (Nat.le_of_lt forward) onward, List.append_assoc] at closed
    refine .again ((passes (by rw [same _ (by omega)])).trans passed)
      (looked ▸ hg.copied_or onward between same fun ends => ?_)
      (ihm whole between same fun begins => closed (.again derives begins))
    rw [← ends, slice_self, List.nil_append] at closed
    exact ihg item tidy' (ends ▸ same) fun begins => closed begins.item
  | node _ ih =>
    exact (ih greedy tidy same fun begins => closed (begins.mono fun _ _ h => ⟨_, h.node⟩)).node
  | nested room _ ih => exact .nested room (ih greedy tidy same closed)
  | @call d r c c' ts _ ih =>
    refine .call (ih (greedy_ofRule r) tidy same fun begins => closed ?_)
    rw [toEbnf_ofRule] at begins
    exact begins.mono fun _ ts h => ⟨ts, h.ref⟩

/-- A row of texts that is read up to its end is read on every tape that has something behind it
with which the last text does not go on. What stops there stops there behind the row as well. -/
theorem Reads.stops_behind {test : Lookahead} {fault : Fault} {last : Cursor}
    (h : Reads tape limit d (many test g) c ts c') (single : test.single = true)
    (tidies : g.tidies none = some none) (consumes : g.toEbnf.consumes = true)
    (greedy : g.greedy = true) (ordered : c.Ordered) (tidy : c.seen ≤ c.index + 1)
    (same : ∀ i, i < c'.index → tape' i = tape i)
    (closed : ∀ i us vs, c.index ≤ i → i < c'.index →
      (Ebnf.star g.toEbnf).Derives (slice tape c.index i) us →
      g.toEbnf.Derives (slice tape i c'.index) vs →
      ¬ g.toEbnf.Begins (slice tape i c'.index ++ [tape' c'.index]))
    (behind : ∀ s, c'.index ≤ s → s ≤ c'.index + 1 →
      Stops tape' limit d (many test g) ⟨c'.index, s⟩ fault last) :
    Stops tape' limit d (many test g) c fault last := by
  generalize hm : many test g = m at h
  induction h with
  | @ends d test' _ c failed =>
    obtain ⟨rfl, rfl⟩ := many.inj hm
    rw [Lookahead.index_glance] at behind
    exact hm ▸ behind c.seen ordered tidy
  | @again d test' _ c c₁ c₂ ts us passed hg rest _ ih =>
    obtain ⟨rfl, rfl⟩ := many.inj hm
    obtain ⟨looked, passes⟩ := Lookahead.glance_of_single tape tape' single c
    obtain ⟨tidy', between, forward, derives⟩ := hg.round_tidy single tidies consumes tidy
    have ordered' := hg.upto.ordered ((Lookahead.upto_glance tape test c).ordered ordered)
    have onward := rest.upto.index
    have stops : Stops tape' limit d (many test g) c₁ fault last := by
      refine ih ordered' between same (fun i us vs hi hlast hus hvs => ?_) behind rfl
      have longer := derives.starCons hus
      rw [slice_append tape (Nat.le_of_lt forward) hi] at longer
      exact closed i _ vs (by omega) hlast longer hvs
    have item : Reads tape' limit d g (test.glance tape' c) ts c₁ := by
      rw [looked]
      refine hg.copied_or onward between same fun ends => ?_
      -- this is the last text
      have nothing : (Ebnf.star g.toEbnf).Derives (slice tape c.index c.index) [] := by
        rw [slice_self]
        exact .starNil
      rw [← ends] at closed same
      refine hg.replaced greedy (by rwa [Lookahead.index_glance]) same ?_
      rw [Lookahead.index_glance]
      exact closed c.index [] ts (Nat.le_refl _) forward nothing derives
    exact .again ((passes (by rw [same _ (by omega)])).trans passed) item stops
  | _ => cases hm

/-- A text that a grammar describes goes on with no token that the grammar expects behind it. -/
theorem not_begins_of_decides {k : List Opening} (decides : g.decides k = true)
    (bracketed : g.bracketed = true) {xs : List PlacedToken} (h : g.toEbnf.Derives xs ts)
    {y : PlacedToken}
    (expected : ∀ (tape : Nat → PlacedToken) (i : Nat), tape i = y → Opening.SomeFits tape i k) :
    ¬ g.toEbnf.Begins (xs ++ [y]) := by
  rintro ⟨ws, us, -, longer⟩
  rw [List.append_assoc, List.singleton_append] at longer
  obtain ⟨whole, split⟩ : ∃ whole, whole = xs ++ y :: Ebnf.written ws := ⟨_, rfl⟩
  rw [← split] at longer
  -- both texts can be read on a tape that starts with the longer one, but there is one way to read
  obtain ⟨tape, tokens, row⟩ := exists_tape whole y
  have length : xs.length < whole.length := by simp [split]
  have short : slice tape 0 xs.length = xs := by
    rw [row _ (Nat.le_of_lt length), split, List.take_left]
  have all : slice tape 0 whole.length = whole := by rw [row _ (Nat.le_refl _), List.take_length]
  have next : tape xs.length = y := by simp [tokens, split]
  have behind : tape whole.length = y := by simp [tokens]
  have fewer : levels xs ≤ levels whole := by
    rw [split, levels_append]
    exact Nat.le_add_right _ _
  rw [← short] at h
  rw [← all] at longer
  have affords : 0 + levels (slice tape 0 xs.length) ≤ levels whole := by
    rwa [short, Nat.zero_add]
  have affords' : 0 + levels (slice tape 0 whole.length) ≤ levels whole := by
    rw [all]
    exact Nat.le_of_eq (Nat.zero_add _)
  obtain ⟨c', reads, ends⟩ := reads_of_derives (c := ⟨0, 0⟩) decides bracketed (Nat.zero_le _) h
    (expected tape _ next) affords
  obtain ⟨c'', reads', ends'⟩ := reads_of_derives (c := ⟨0, 0⟩) decides bracketed (Nat.zero_le _)
    longer (expected tape _ behind) affords'
  obtain ⟨-, rfl⟩ := reads.unique reads'
  omega

end Grammar

end GraphQL
