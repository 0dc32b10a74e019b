import GraphQL.Proofs.Reading.Adequacy
import GraphQL.Proofs.Reading.Calls
import GraphQL.Proofs.Reading.Depth

/-!
# Constructs inside one another

Reading a grammar comes down to reading its parts, and so on to the parts of these. On the way down
a grammar gets smaller until a construct is called by its name, and then a token is taken before one
is called again. So no construct stands inside itself without a token in between, and every round of
a repetition takes one.

Results:
1. `Enters.descends`: one step down takes a token or leads to a smaller grammar.
2. `Within.descends`: any number of steps does.
3. `At.takes_of_within`: from a construct to the same one inside it a token is taken.
4. `At.round`: a round of a repetition takes a token, or it is the last one.
-/

namespace GraphQL

namespace Grammar

/-- How many grammars a grammar is made of. -/
def size : Grammar → Nat
  | done | token _ | separator _ | fail _ | call _ => 1
  | seq g h | choice _ g h => g.size + h.size + 1
  | many _ g | node _ g | nested g => g.size + 1

/-- The grammar `g` is lower than `h`: it calls no construct by name without a token in front, which
`h` does, or else it is just smaller. -/
def Below (g h : Grammar) : Prop :=
  (h.guarded = false ∧ g.guarded = true) ∨
    ((h.guarded = true → g.guarded = true) ∧ g.size < h.size)

variable {f g h : Grammar}

theorem Below.trans (hfg : Below f g) (hgh : Below g h) : Below f h := by
  rcases hfg with ⟨opened, closed⟩ | ⟨keeps, smaller⟩
  · rcases hgh with ⟨-, closed'⟩ | ⟨keeps', -⟩
    · exact absurd (opened.symm.trans closed') Bool.noConfusion
    · refine .inl ⟨?_, closed⟩
      refine Bool.eq_false_iff.mpr fun guarded => ?_
      exact absurd (opened.symm.trans (keeps' guarded)) Bool.noConfusion
  · rcases hgh with ⟨opened, closed⟩ | ⟨keeps', smaller'⟩
    · exact .inl ⟨opened, keeps closed⟩
    · exact .inr ⟨keeps ∘ keeps', Nat.lt_trans smaller smaller'⟩

theorem below_first : Below g (.seq g h) := by
  refine .inr ⟨fun guarded => ?_, by rw [size]; omega⟩
  simp only [Grammar.guarded, Bool.and_eq_true] at guarded
  exact guarded.1

theorem below_second (empty : g.toEbnf.consumes = false) : Below h (.seq g h) := by
  refine .inr ⟨fun guarded => ?_, by rw [size]; omega⟩
  simp only [Grammar.guarded, empty, Bool.false_or, Bool.and_eq_true] at guarded
  exact guarded.2

theorem below_choice {test : Lookahead} :
    Below g (.choice test g h) ∧ Below h (.choice test g h) := by
  refine ⟨.inr ⟨fun guarded => ?_, by rw [size]; omega⟩,
    .inr ⟨fun guarded => ?_, by rw [size]; omega⟩⟩ <;>
  simp only [Grammar.guarded, Bool.and_eq_true] at guarded
  · exact guarded.1
  · exact guarded.2

theorem below_many {test : Lookahead} : Below g (.many test g) := .inr ⟨id, Nat.lt_succ_self _⟩

theorem below_node {k : NodeKind} : Below g (.node k g) := .inr ⟨id, Nat.lt_succ_self _⟩

theorem below_nested : Below g (.nested g) := .inr ⟨id, Nat.lt_succ_self _⟩

theorem below_call (r : Rule) : Below (.ofRule r) (.call r) := .inl ⟨rfl, guarded_ofRule r⟩

/-- The grammars are the same, or each of them calls a construct by its name. -/
def Alike (g h : Grammar) : Prop := g = h ∨ ∃ r r', g = .call r ∧ h = .call r'

theorem Alike.not_below (alike : Alike g h) : ¬ Below g h := by
  have same : g.guarded = h.guarded ∧ g.size = h.size := by
    rcases alike with rfl | ⟨r, r', rfl, rfl⟩
    · exact ⟨rfl, rfl⟩
    · exact ⟨rfl, rfl⟩
  rintro (⟨opened, closed⟩ | ⟨-, smaller⟩)
  · exact absurd (opened.symm.trans (same.1.symm.trans closed)) Bool.noConfusion
  · exact Nat.ne_of_lt smaller same.2

end Grammar

namespace Parser

open Grammar (Room Below Stops)

/-- A grammar that the parser reads, the state in which it begins to, and how deep constructs may
be inside one another from there. -/
structure Point where
  levels : Nat
  grammar : Grammar
  state : ParserState

variable {limit bound : Nat}

/-- What the parser comes to at a point. -/
def Point.result (limit bound : Nat) (p : Point) : EStateM.Result Halt ParserState (List Tree) :=
  ofGrammar limit bound (ofRule limit bound p.levels) p.grammar p.state

/-- `Enters limit bound p q`: to read at `p` the parser reads at `q`. There is one rule for each way
in which the parser goes on with a part of the grammar; `again` is for what is left of a repetition
after one round. -/
inductive Enters (limit bound : Nat) : Point → Point → Prop
  | first {n : Nat} {g h : Grammar} {s : ParserState} :
      Enters limit bound ⟨n, .seq g h, s⟩ ⟨n, g, s⟩
  | second {n : Nat} {g h : Grammar} {s s' : ParserState} {ts : List Tree} :
      Point.result limit bound ⟨n, g, s⟩ = .ok ts s' →
      Enters limit bound ⟨n, .seq g h, s⟩ ⟨n, h, s'⟩
  | yes {n : Nat} {test : Lookahead} {g h : Grammar} {s s' : ParserState} :
      ahead test s = .ok true s' → Enters limit bound ⟨n, .choice test g h, s⟩ ⟨n, g, s'⟩
  | no {n : Nat} {test : Lookahead} {g h : Grammar} {s s' : ParserState} :
      ahead test s = .ok false s' → Enters limit bound ⟨n, .choice test g h, s⟩ ⟨n, h, s'⟩
  | item {n : Nat} {test : Lookahead} {g : Grammar} {s s' : ParserState} :
      ahead test s = .ok true s' → Enters limit bound ⟨n, .many test g, s⟩ ⟨n, g, s'⟩
  | again {n : Nat} {test : Lookahead} {g : Grammar} {s s' s'' : ParserState} {ts : List Tree} :
      ahead test s = .ok true s' → Point.result limit bound ⟨n, g, s'⟩ = .ok ts s'' →
      Enters limit bound ⟨n, .many test g, s⟩ ⟨n, .many test g, s''⟩
  | node {n : Nat} {k : NodeKind} {g : Grammar} {s : ParserState} :
      Enters limit bound ⟨n, .node k g, s⟩ ⟨n, g, s⟩
  | nested {n : Nat} {g : Grammar} {s s' : ParserState} :
      enter limit s = .ok () s' → Enters limit bound ⟨n, .nested g, s⟩ ⟨n, g, s'⟩
  | call {n : Nat} {r : Rule} {s : ParserState} :
      Enters limit bound ⟨n + 1, .call r, s⟩ ⟨n, .ofRule r, s⟩

/-- `Within limit bound p q`: the parser reads at `q` while it reads at `p`. -/
def Within (limit bound : Nat) : Point → Point → Prop := Relation.TransGen (Enters limit bound)

/-- The point is at the place `c` along the lexer, with `d` levels open, and the bounds that the
parser is handed there are large enough. -/
structure Point.At (last : Nat) (l : Lexer File) (p : Point) (c : Cursor) (d : Nat) : Prop where
  state : p.state = .along l c d
  ordered : c.Ordered
  inside : c.index ≤ last
  steady : p.grammar.steady = true
  room : Room last p.levels c p.grammar

/-- Behind what it has read the parser goes on with another grammar. -/
theorem Point.At.behind {tape : Nat → PlacedToken} {last : Nat} {l : Lexer File} {p : Point}
    {c c' : Cursor} {d : Nat} (hp : p.At last l c d) (heof : (tape last).token.kind = .eof)
    {ts : List Tree} (reads : p.grammar.Reads tape limit d c ts c') {g : Grammar}
    (steady : g.steady = true) (room : Room last p.levels c' g) :
    Point.At last l ⟨p.levels, g, .along l c' d⟩ c' d where
  state := rfl
  ordered := reads.upto.ordered hp.ordered
  inside := reads.index_le heof hp.steady hp.inside
  steady := steady
  room := room

/-- From the point `p` at the place `c` the parser comes down to the point `q` at the place `c'`. -/
structure Descends (tape : Nat → PlacedToken) (limit : Nat) (p : Point) (c : Cursor) (d : Nat)
    (q : Point) (c' : Cursor) (d' : Nat) : Prop where
  forward : c.index ≤ c'.index
  /-- A token has been taken, or the grammar is lower. -/
  progress : c.index < c'.index ∨ Below q.grammar p.grammar
  /-- Where the part stops, the whole does. -/
  stops : ∀ fault c'', Stops tape limit d' q.grammar c' fault c'' →
    Stops tape limit d p.grammar c fault c''

theorem Descends.trans {tape : Nat → PlacedToken} {p q r : Point} {c c' c'' : Cursor}
    {d d' d'' : Nat} (h : Descends tape limit p c d q c' d')
    (h' : Descends tape limit q c' d' r c'' d'') : Descends tape limit p c d r c'' d'' where
  forward := Nat.le_trans h.forward h'.forward
  progress := by
    rcases h.progress with taken | lower
    · exact .inl (Nat.lt_of_lt_of_le taken h'.forward)
    · rcases h'.progress with taken | lower'
      · exact .inl (Nat.lt_of_le_of_lt h.forward taken)
      · exact .inr (lower'.trans lower)
  stops := fun fault c h'' => h.stops fault c (h'.stops fault c h'')

section Points

variable {tape : Nat → PlacedToken} {last : Nat} {l : Lexer File}
  (same : ∀ n, tape n = (l.nth n).placed l.lines.base)
include same

theorem passes_of_ahead {test : Lookahead} {c : Cursor} {d : Nat} (ordered : c.Ordered) {b : Bool}
    {s : ParserState} (h : ahead test (.along l c d) = .ok b s) :
    test.passes tape c.index = b ∧ s = .along l (test.glance tape c) d := by
  have token (n : Nat) : (tape n).token = (l.nth n).token := by
    rw [same n]
    rfl
  obtain ⟨⟩ := h.symm.trans (ahead_along l d token ordered test)
  exact ⟨rfl, rfl⟩

/-- A test does not take the parser away from where it is. -/
theorem Point.At.tested {p : Point} {c : Cursor} {d : Nat} (hp : p.At last l c d)
    {test : Lookahead} {b : Bool} {s : ParserState} (h : ahead test p.state = .ok b s) {g : Grammar}
    (steady : g.steady = true) (room : Room last p.levels c g) :
    test.passes tape c.index = b ∧
      Point.At last l ⟨p.levels, g, s⟩ (test.glance tape c) d := by
  rw [hp.state] at h
  obtain ⟨passed, rfl⟩ := passes_of_ahead same hp.ordered h
  have glanced := Lookahead.upto_glance tape test c
  exact ⟨passed,
    { state := rfl
      ordered := glanced.ordered hp.ordered
      inside := Nat.le_trans (Nat.le_of_eq (Lookahead.index_glance tape test c)) hp.inside
      steady := steady
      room := room.mono (Nat.le_refl last) glanced.index }⟩

variable (fits : ∀ n, (l.nth n).stop ≤ l.lines.size)
  (heof : (tape last).token.kind = .eof)
  (enough : last < bound)
include fits heof enough

/-- At a point the parser follows the grammar. -/
theorem Point.At.follows {p : Point} {c : Cursor} {d : Nat} (hp : p.At last l c d) (limit : Nat) :
    (∃ ts c', p.grammar.Reads tape limit d c ts c' ∧
      p.result limit bound = .ok ts (.along l c' d)) ∨
    ∃ fault c' e, Stops tape limit d p.grammar c fault c' ∧ fault.ReportedAt limit l c' e ∧
      p.result limit bound = .error (.rejected e) (.along l c' d) := by
  rw [Point.result, hp.state]
  exact follows_ofGrammar same fits heof enough (follows_ofRule same fits heof enough p.levels)
    hp.steady hp.ordered hp.inside hp.room

theorem Point.At.reads_of_result {p : Point} {c : Cursor} {d : Nat} (hp : p.At last l c d)
    {ts : List Tree} {s : ParserState} (ok : p.result limit bound = .ok ts s) :
    ∃ c', p.grammar.Reads tape limit d c ts c' ∧ s = .along l c' d := by
  rcases hp.follows same fits heof enough limit with
    ⟨us, c', reads, run⟩ | ⟨fault, c', e, -, -, run⟩
  · obtain ⟨⟩ := ok.symm.trans run
    exact ⟨c', reads, rfl⟩
  · cases ok.symm.trans run

/-- One step down takes a token or leads to a lower grammar. -/
theorem Enters.descends {p q : Point} (h : Enters limit bound p q) {c : Cursor} {d : Nat}
    (hp : p.At last l c d) :
    ∃ c' d', q.At last l c' d' ∧ Descends tape limit p c d q c' d' := by
  have ⟨state, ordered, inside, steady, room⟩ := hp
  cases h with
  | @first n g h s =>
    simp only [Grammar.steady, Bool.and_eq_true] at steady
    exact ⟨c, d, ⟨state, ordered, inside, steady.1, room.first⟩,
      ⟨Nat.le_refl _, .inr Grammar.below_first, fun _ _ => .first⟩⟩
  | @second n g h s s' ts ok =>
    simp only [Grammar.steady, Bool.and_eq_true] at steady
    have part : Point.At last l ⟨n, g, s⟩ c d := ⟨state, ordered, inside, steady.1, room.first⟩
    obtain ⟨c', reads, rfl⟩ := part.reads_of_result same fits heof enough ok
    have progress : c.index < c'.index ∨ Below h (.seq g h) := by
      cases consumes : g.toEbnf.consumes with
      | true => exact .inl (reads.index_lt consumes)
      | false => exact .inr (Grammar.below_second consumes)
    exact ⟨c', d, part.behind heof reads steady.2 (room.second reads.upto.index reads.index_lt),
      ⟨reads.upto.index, progress, fun _ _ => .second reads⟩⟩
  | @yes n test g h s s' tested =>
    simp only [Grammar.steady, Bool.and_eq_true] at steady
    obtain ⟨passed, hq⟩ := hp.tested same tested steady.1 room.branches.1
    exact ⟨_, d, hq,
      ⟨(Lookahead.upto_glance tape test c).index, .inr Grammar.below_choice.1,
        fun _ _ => .yes passed⟩⟩
  | @no n test g h s s' tested =>
    simp only [Grammar.steady, Bool.and_eq_true] at steady
    obtain ⟨failed, hq⟩ := hp.tested same tested steady.2 room.branches.2
    exact ⟨_, d, hq,
      ⟨(Lookahead.upto_glance tape test c).index, .inr Grammar.below_choice.2,
        fun _ _ => .no failed⟩⟩
  | @item n test g s s' tested =>
    simp only [Grammar.steady, Bool.and_eq_true] at steady
    have inner : Room last n c g := room
    obtain ⟨passed, hq⟩ := hp.tested same tested steady.2 inner
    exact ⟨_, d, hq,
      ⟨(Lookahead.upto_glance tape test c).index, .inr Grammar.below_many,
        fun _ _ => .item passed⟩⟩
  | @again n test g s s' s'' ts tested ok =>
    have parts := steady
    simp only [Grammar.steady, Bool.and_eq_true] at parts
    have inner : Room last n c g := room
    obtain ⟨passed, part⟩ := hp.tested same tested parts.2 inner
    obtain ⟨c', reads, rfl⟩ := part.reads_of_result same fits heof enough ok
    have forward : c.index < c'.index := by simpa using reads.index_lt parts.1
    exact ⟨c', d,
      part.behind heof reads steady (room.mono (Nat.le_refl last) (Nat.le_of_lt forward)),
      ⟨Nat.le_of_lt forward, .inl forward, fun _ _ => .again passed reads⟩⟩
  | node =>
    exact ⟨c, d, ⟨state, ordered, inside, steady, room⟩,
      ⟨Nat.le_refl _, .inr Grammar.below_node, fun _ _ => .node⟩⟩
  | @nested n g s s' entered =>
    obtain rfl : s = .along l c d := state
    by_cases deep : d < limit
    · obtain ⟨⟩ := entered.symm.trans (enter_along deep)
      exact ⟨c, d + 1, ⟨rfl, ordered, inside, steady, room⟩,
        ⟨Nat.le_refl _, .inr Grammar.below_nested, fun _ _ => .nested deep⟩⟩
    · obtain ⟨e, s, refused, -⟩ := enter_of_not_lt (s := .along l c d) deep
      cases entered.symm.trans refused
  | @call n r s =>
    -- a construct that is called has a token in front of every call that it makes
    have least : last < c.index + (n + 1) := room.resolve_right fun h => Bool.noConfusion h.2
    exact ⟨c, d, ⟨state, ordered, inside, Grammar.steady_ofRule r,
        .inr ⟨Nat.le_of_lt_succ least, Grammar.guarded_ofRule r⟩⟩,
      ⟨Nat.le_refl _, .inr (Grammar.below_call r), fun _ _ => .call⟩⟩

/-- The same holds of any number of steps. -/
theorem Within.descends {p q : Point} (h : Within limit bound p q) {c : Cursor} {d : Nat}
    (hp : p.At last l c d) :
    ∃ c' d', q.At last l c' d' ∧ Descends tape limit p c d q c' d' := by
  induction h with
  | single step => exact step.descends same fits heof enough hp
  | tail _ step ih =>
    obtain ⟨c', d', hq, down⟩ := ih
    obtain ⟨c'', d'', hr, down'⟩ := step.descends same fits heof enough hq
    exact ⟨c'', d'', hr, down.trans down'⟩

/-- From a construct to one of the same kind inside it a token is taken. -/
theorem Point.At.takes_of_within
    (before : ∀ i, i < last → (l.nth i).token.kind ≠ .eof) {p q : Point} {c : Cursor} {d : Nat}
    (hp : p.At last l c d) (h : Within limit bound p q)
    (alike : q.grammar.Alike p.grammar) : p.state.stream.Takes q.state.stream := by
  obtain ⟨c', d', hq, down⟩ := h.descends same fits heof enough hp
  have forward := down.progress.resolve_right alike.not_below
  rw [hp.state, hq.state]
  exact TokenStream.takes_along l hp.ordered hq.ordered forward fun i hi =>
    before i (Nat.lt_of_lt_of_le hi hq.inside)

/-- A round of a repetition takes a token, or the repetition stops where the round does. -/
theorem Point.At.round (before : ∀ i, i < last → (l.nth i).token.kind ≠ .eof) {p : Point}
    {c : Cursor} {d : Nat} (hp : p.At last l c d) {test : Lookahead} {item : Grammar}
    (loop : p.grammar = .many test item) {s : ParserState}
    (tested : ahead test p.state = .ok true s) :
    (∃ ts s', Point.result limit bound ⟨p.levels, item, s⟩ = .ok ts s' ∧
      s.stream.Takes s'.stream) ∨
    ∃ fault c' e s', Point.result limit bound ⟨p.levels, item, s⟩ = .error (.rejected e) s' ∧
      fault.ReportedAt limit l c' e ∧ Stops tape limit d p.grammar c fault c' := by
  obtain ⟨n, g, s₀⟩ := p
  obtain rfl : g = .many test item := loop
  have steady := hp.steady
  simp only [Grammar.steady, Bool.and_eq_true] at steady
  have room : Room last n c item := hp.room
  obtain ⟨passed, part⟩ := hp.tested same tested steady.2 room
  rcases part.follows same fits heof enough limit with
    ⟨ts, c', reads, run⟩ | ⟨fault, c', e, stops, reported, run⟩
  · refine .inl ⟨ts, _, run, ?_⟩
    obtain rfl : s = .along l (test.glance tape c) d := part.state
    have behind := reads.index_le heof steady.2 part.inside
    exact TokenStream.takes_along l part.ordered (reads.upto.ordered part.ordered)
      (reads.index_lt steady.1) fun i hi => before i (Nat.lt_of_lt_of_le hi behind)
  · exact .inr ⟨fault, c', e, _, run, reported, .item passed stops⟩

end Points

end Parser

end GraphQL
