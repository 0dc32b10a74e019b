import GraphQL.Proofs.Lexing.Joining
import GraphQL.Proofs.Parsing.Rows

/-!
# Definitions and their neighbours

What a definition comes to does not depend on the definitions around it. Two texts one below the
other have the definitions of both, and the piece of a text that one definition takes has this
definition. An error in the second of two texts is the same error as many lines further down, with
one exception: some definitions of schemas have no closing bracket, and a text that starts with more
of such a definition is no text on its own but can be the rest of the one above.

Results:
1. `goesOn_kinds`: which tokens a definition can go on with.
2. `reads_join`, `stops_join`: what is read of joined texts.
3. `not_stops_of_goesOn`: a definition that goes on leaves no error in its place.
4. `exists_piece`: the piece of text that a definition takes.
5. `definitions_independent`: definitions are independent of their neighbours.
-/

namespace GraphQL

/-- The same error as many bytes and lines further on. -/
def ParseError.lower (bytes lines : Nat) : ParseError → ParseError
  | unexpectedToken p expected found => .unexpectedToken (p.lower bytes lines) expected found
  | nestingTooDeep p limit => .nestingTooDeep (p.lower bytes lines) limit

theorem Fault.error_lower {limit : Nat} (fault : Fault) (p : Position) (t : Token)
    (bytes lines : Nat) :
    fault.error limit (p.lower bytes lines) t = (fault.error limit p t).lower bytes lines := by
  cases fault <;> rfl

/-! ## Definitions that go on -/

namespace SourceKind

/-- The text `b` starts with a token that the last definition of `a` can go on with. -/
def GoesOn (kind : SourceKind) (a b : String) : Prop :=
  ∃ front last ds d y, textTokens a = front ++ last ∧ kind.grammar.toEbnf.Derives front ds ∧
    kind.definition.toEbnf.Derives last [d] ∧ (textTokens b).head? = some y ∧
    kind.definition.toEbnf.Begins (last ++ [y])

variable (kind : SourceKind)

/-- The tokens that no definition of the kind can go on with. -/
def strangers : SourceKind → List Opening
  | document => [.any]
  | schema =>
    Opening.ofKinds [.illegal, .eof, .bang, .dollar, .parenClose, .spread, .colon, .equals,
      .bracketOpen, .bracketClose, .braceOpen, .braceClose, .name, .int, .float, .string]

theorem decides_definition : kind.definition.decides kind.strangers = true := by
  cases kind <;> decide +kernel

/-- A definition of a document goes on with nothing, and one of a schema with nothing but more
directives, their arguments or one more member or location. -/
theorem goesOn_kinds {a b : String} (h : kind.GoesOn a b) :
    kind = schema ∧ ∃ y, (textTokens b).head? = some y ∧
      y.token.kind ∈ [TokenKind.atSign, .parenOpen, .pipe] := by
  obtain ⟨front, last, ds, d, y, -, -, derives, first, begins⟩ := h
  have known (fits : ∀ (tape : Nat → PlacedToken) (i : Nat), tape i = y →
      Opening.SomeFits tape i kind.strangers) : False :=
    Grammar.not_begins_of_decides kind.decides_definition kind.bracketed_definition derives fits
      begins
  cases kind with
  | document => exact (known fun _ _ _ => Opening.someFits_any).elim
  | schema =>
    refine ⟨rfl, y, first, Classical.byContradiction fun other => known ?_⟩
    rintro tape i rfl
    refine ⟨{ first := some (.kind (tape i).token.kind) }, ?_, ?_, nofun⟩
    · cases hk : (tape i).token.kind <;> simp_all [strangers, Opening.ofKinds]
    · rintro _ ⟨⟩
      exact Terminal.accepts_kind.mpr rfl

end SourceKind

section Neighbours

variable {kind : SourceKind} {source a b : String} {limit base : Nat} {ts us : List Tree}
  {c c' : Cursor}

/-! ## Joined texts -/

/-- A text that is read has no malformed tokens. -/
theorem wellFormed_of_reads (h : kind.grammar.Reads (tape source base) limit 0 ⟨0, 0⟩ ts c') :
    WellFormed source := by
  have derives := h.derives
  rw [reads_ends kind h] at derives
  intro n hn
  exact derives.legal kind.legal_grammar (tape source base n)
    (mem_slice.mpr ⟨n, Nat.zero_le n, hn, rfl⟩)

theorem slice_join_left (legal : WellFormed a) (positive : 0 < base) :
    slice (tape (a ++ "\n" ++ b) base) 0 (tokenCount a) =
      slice (tape a base) 0 (tokenCount a) := by
  refine List.map_congr_left fun n hn => ?_
  rw [List.mem_range'_1] at hn
  exact tape_join_left legal positive (by omega)

/-- The tokens of joined texts are those of the first one and those of the second one, moved. -/
theorem slice_join (legal : WellFormed a) (positive : 0 < base) :
    slice (tape (a ++ "\n" ++ b) base) 0 (tokenCount (a ++ "\n" ++ b)) =
      slice (tape a base) 0 (tokenCount a) ++
        (slice (tape b base) 0 (tokenCount b)).map
          (·.shift ((a.utf8ByteSize + 1 : Nat) : Int)) := by
  have second : slice (tape (a ++ "\n" ++ b) base) (tokenCount a) (tokenCount a + tokenCount b) =
      (slice (tape b base) 0 (tokenCount b)).map (·.shift ((a.utf8ByteSize + 1 : Nat) : Int)) :=
    slice_shift fun n _ => tape_join_right legal positive n
  rw [tokenCount_join legal, ← slice_append _ (Nat.zero_le _) (Nat.le_add_right _ _),
    slice_join_left legal positive, second]

/-- What is read of two texts is read of the joined text. -/
theorem reads_join (positive : 0 < base)
    (ha : kind.grammar.Reads (tape a base) limit 0 ⟨0, 0⟩ ts c)
    (hb : kind.grammar.Reads (tape b base) limit 0 ⟨0, 0⟩ us c') :
    ∃ c'', kind.grammar.Reads (tape (a ++ "\n" ++ b) base) limit 0 ⟨0, 0⟩
      (ts ++ us.map (Tree.shift ((a.utf8ByteSize + 1 : Nat) : Int))) c'' := by
  have first := ha.derives
  have second := hb.derives.shift ((a.utf8ByteSize + 1 : Nat) : Int)
  rw [reads_ends kind ha, kind.toEbnf_grammar] at first
  rw [reads_ends kind hb, kind.toEbnf_grammar] at second
  have both := first.star_append second
  rw [← slice_join (wellFormed_of_reads ha) positive, ← kind.toEbnf_grammar] at both
  refine exists_reads (kind_tape_tokenCount _ base) both ?_
  rw [Tree.nestingOf_append, ← Tree.shiftOf_eq_map, Tree.nestingOf_shiftOf]
  exact Nat.max_le.mpr ⟨nestingOf_le_of_reads ha, nestingOf_le_of_reads hb⟩

/-- The first text has the definitions `us` and the definition `d`, which goes on with the first
token of the second text. -/
theorem goesOn_of_begins {i : Nat} (inside : i ≤ tokenCount a) (nonempty : 0 < tokenCount b)
    (front : (Ebnf.star kind.definition.toEbnf).Derives (slice (tape a base) 0 i) us) {d : Tree}
    (last : kind.definition.toEbnf.Derives (slice (tape a base) i (tokenCount a)) [d])
    {y : PlacedToken} (same : y.bare = (tape b base 0).bare)
    (begins : kind.definition.toEbnf.Begins (slice (tape a base) i (tokenCount a) ++ [y])) :
    kind.GoesOn a b := by
  have split : textTokens a = (slice (tape a base) 0 i).map PlacedToken.bare ++
      (slice (tape a base) i (tokenCount a)).map PlacedToken.bare := by
    rw [textTokens_eq_slice a base, ← List.map_append, slice_append _ (Nat.zero_le i) inside]
  have first := (head?_textTokens_eq_some_iff base).mpr ⟨nonempty, same.symm⟩
  have front' := front.bare
  rw [← kind.toEbnf_grammar] at front'
  have begins' := begins.bare
  rw [List.map_append, List.map_singleton] at begins'
  exact ⟨_, _, _, _, _, split, front', by simpa using last.bare, first, begins'⟩

/-- Where the second of two texts stops the joined text stops too, unless the last definition of the
first text goes on. -/
theorem stops_join (positive : 0 < base)
    (ha : kind.grammar.Reads (tape a base) limit 0 ⟨0, 0⟩ ts c) {fault : Fault}
    (hb : kind.grammar.Stops (tape b base) limit 0 ⟨0, 0⟩ fault c') (closed : ¬ kind.GoesOn a b) :
    kind.grammar.Stops (tape (a ++ "\n" ++ b) base) limit 0 ⟨0, 0⟩ fault
      ⟨tokenCount a + c'.index, tokenCount a + c'.index + 1⟩ := by
  have legal := wellFormed_of_reads ha
  have whole := reads_ends kind ha
  have looked := seen_eq_of_stops hb
  have nonempty := tokenCount_pos_of_stops hb
  have right (n : Nat) (_ : n < c'.seen) : tape (a ++ "\n" ++ b) base (n + tokenCount a) =
      (tape b base n).shift ((a.utf8ByteSize + 1 : Nat) : Int) := by
    rw [Nat.add_comm]
    exact tape_join_right legal positive n
  rw [kind.grammar_eq_many] at ha ⊢
  refine ha.stops_behind (by rfl) kind.tidies_definition kind.consumes_definition
    kind.greedy_definition (Nat.le_refl 0) (Nat.zero_le 1)
    (fun n hn => tape_join_left legal positive (whole ▸ hn)) ?_ ?_
  · intro i us vs _ inside hus hvs begins
    obtain ⟨k, -, ps, rfl⟩ := hvs.exists_node kind.single_definition
    rw [whole] at inside hvs begins
    have next := right 0 (by omega)
    rw [Nat.zero_add] at next
    have same : (tape (a ++ "\n" ++ b) base (tokenCount a)).bare = (tape b base 0).bare := by
      rw [next, PlacedToken.bare_shift]
    exact closed (goesOn_of_begins (Nat.le_of_lt inside) nonempty hus hvs same begins)
  · intro s hs hs'
    have moved := hb.moved right s (Nat.le_refl _)
    have place : Cursor.moved (tokenCount a) s ⟨0, 0⟩ = ⟨c.index, s⟩ := by
      simp only [Cursor.moved, Cursor.mk.injEq]
      omega
    have place' : c'.moved (tokenCount a) s =
        ⟨tokenCount a + c'.index, tokenCount a + c'.index + 1⟩ := by
      simp only [Cursor.moved, Cursor.mk.injEq]
      omega
    rw [place, place', kind.grammar_eq_many] at moved
    exact moved

/-- If the last definition of a text goes on, the error is not that of the text below. -/
theorem not_stops_of_goesOn (positive : 0 < base)
    (ha : kind.grammar.Reads (tape a base) limit 0 ⟨0, 0⟩ ts c) (goesOn : kind.GoesOn a b)
    {expected : String} (h : kind.grammar.Stops (tape (a ++ "\n" ++ b) base) limit 0 ⟨0, 0⟩
      (.unexpected expected) c') : c'.index ≠ tokenCount a := by
  intro here
  obtain ⟨front, last, ds, d, y, split, derives, -, first, begins⟩ := goesOn
  obtain ⟨-, rfl⟩ := (head?_textTokens_eq_some_iff base).mp first
  have legal := wellFormed_of_reads ha
  have left : slice (tape (a ++ "\n" ++ b) base) 0 (tokenCount a) =
      slice (tape a base) 0 (tokenCount a) := slice_join_left legal positive
  have tokens : (slice (tape (a ++ "\n" ++ b) base) 0 (c'.index + 1)).map PlacedToken.bare =
      front ++ (last ++ [(tape b base 0).bare]) := by
    rw [here, ← slice_append _ (Nat.zero_le _) (Nat.le_succ (tokenCount a)), left, slice_succ,
      List.map_append, ← textTokens_eq_slice, split, List.map_singleton, List.append_assoc,
      ← Nat.add_zero (tokenCount a), tape_join_right legal positive, PlacedToken.bare_shift]
  refine not_begins_of_stops h ?_
  rw [tokens, kind.toEbnf_grammar]
  rw [kind.toEbnf_grammar] at derives
  exact derives.begins_append begins.item

variable (name : Option String) {files : FileSet}

/-- An error in the second of two texts is the same error in the joined text, as many bytes and
lines further on. -/
theorem error?_join (positive : 0 < files.base) (room : files.HasRoom (a ++ "\n" ++ b))
    (ha : kind.grammar.Reads (tape a files.base) limit 0 ⟨0, 0⟩ ts c) {e : ParseError}
    (hb : Outcome.error? (parse kind b name ⟨limit⟩ files) = some e)
    (closed : ¬ kind.GoesOn a b) :
    Outcome.error? (parse kind (a ++ "\n" ++ b) name ⟨limit⟩ files) =
      some (e.lower (a.utf8ByteSize + 1) (a.toList.count '\n' + 1)) := by
  obtain ⟨fault, c', stops⟩ := stops_of_error? name hb
  have nonempty : b ≠ "" := by
    rintro rfl
    exact absurd (tokenCount_pos_of_stops stops) (by decide +kernel)
  rw [error?_of_stops name positive (hasRoom_of_error? name hb) stops] at hb
  rw [error?_of_stops name positive room (stops_join positive ha stops closed),
    ← Option.some.inj hb]
  have displaced := (nth_join (b := b) (wellFormed_of_reads ha)).2 c'.index
  have start := displaced.start
  rw [Nat.add_zero, Nat.add_comm _ (a.utf8ByteSize + 1)] at start
  rw [displaced.token, start, textPlace_join nonempty, Fault.error_lower]

/-- If the last definition of the first text goes on, the error of the second text is not that of
the joined text. -/
theorem not_goesOn_of_error? (positive : 0 < files.base)
    (ha : kind.grammar.Reads (tape a files.base) limit 0 ⟨0, 0⟩ ts c) {e : ParseError}
    (hb : Outcome.error? (parse kind b name ⟨limit⟩ files) = some e)
    (joined : Outcome.error? (parse kind (a ++ "\n" ++ b) name ⟨limit⟩ files) =
      some (e.lower (a.utf8ByteSize + 1) (a.toList.count '\n' + 1))) : ¬ kind.GoesOn a b := by
  intro goesOn
  have room := hasRoom_of_error? name hb
  have room' := hasRoom_of_error? name joined
  obtain ⟨fault, c₁, stops⟩ := stops_of_error? name hb
  obtain ⟨fault', c', stops'⟩ := stops_of_error? name joined
  obtain ⟨rfl, y, first, among⟩ := kind.goesOn_kinds goesOn
  obtain ⟨nonempty, rfl⟩ := (head?_textTokens_eq_some_iff files.base).mp first
  have other : (tape b files.base 0).token.kind ≠ .name := by
    rintro named
    simp [PlacedToken.bare, named] at among
  -- the text below is rejected for its first token, so the joined text would be rejected for it too
  obtain ⟨rfl, rfl⟩ := stops.unique
    (stops_of_kind_ne_name (kind_tape_ne_eof b files.base nonempty) other)
  rw [error?_of_stops name positive room stops] at hb
  rw [error?_of_stops name positive room' stops', ← Option.some.inj hb, Option.some.injEq] at joined
  cases fault' with
  | tooDeep => cases joined
  | unexpected expected =>
    refine not_stops_of_goesOn positive ha goesOn stops' ?_
    have offset : ((Lexer.ofSource (a ++ "\n" ++ b) ({} : LineLog)).nth c'.index).start =
        ((Lexer.ofSource b ({} : LineLog)).nth 0).start + (a.utf8ByteSize + 1) :=
      congrArg (·.position.offset) joined
    have below := ((nth_join (b := b) (wellFormed_of_reads ha)).2 0).start
    refine eq_of_pos_tape_eq (a ++ "\n" ++ b) files.base (index_le_of_stops stops') ?_
      (congrArg (fun n => (⟨files.base + n⟩ : Pos)) (offset.trans below.symm))
    rw [tokenCount_join (wellFormed_of_reads ha)]
    exact Nat.le_add_right _ _

/-! ## Pieces of a text -/

/-- A definition stands on tokens that it is derived from, from the first to the last one. -/
theorem exists_run (h : kind.grammar.Reads (tape source base) limit 0 ⟨0, 0⟩ ts c) {x : Tree}
    (hx : x ∈ ts) :
    ∃ i j, i < j ∧ j ≤ tokenCount source ∧
      kind.definition.toEbnf.Derives (slice (tape source base) i j) [x] ∧
      x.pos = (tape source base i).pos ∧ x.stop = (tape source base (j - 1)).stop := by
  have derives := h.derives
  rw [reads_ends kind h] at derives
  have sized := ending_eq_stop kind derives
  rw [kind.toEbnf_grammar] at derives
  obtain ⟨i, j, -, hij, hj, item⟩ :=
    derives.exists_item kind.single_definition (Nat.zero_le _) hx
  have proper : i < j := by
    refine Nat.lt_of_le_of_ne hij fun he => item.ne_nil kind.consumes_definition ?_
    rw [he, slice_self]
  have sized' : ∀ u ∈ slice (tape source base) i j, u.ending = u.stop := by
    intro u hu
    obtain ⟨n, -, hn, rfl⟩ := mem_slice.mp hu
    exact sized _ (mem_slice.mpr ⟨n, Nat.zero_le n, Nat.lt_of_lt_of_le hn hj, rfl⟩)
  have edge (s : Side) := item.place_eq (kind.keeps_definition s) kind.edged_definition sized'
  obtain ⟨u, first, pos⟩ := edge .front
  obtain ⟨v, last, stop⟩ := edge .back
  obtain rfl : tape source base i = u := Option.some.inj ((head?_slice proper).symm.trans first)
  obtain rfl : tape source base (j - 1) = v :=
    Option.some.inj ((getLast?_slice proper).symm.trans last)
  exact ⟨i, j, proper, hj, item, pos, stop⟩

/-- The piece of text that a definition takes has just this definition, in front of its old place by
as much as the piece was behind the start of the text. -/
theorem exists_piece (positive : 0 < base)
    (h : kind.grammar.Reads (tape source base) limit 0 ⟨0, 0⟩ ts c) {x : Tree} (hx : x ∈ ts) :
    ∃ front text back y, source.toList = front ++ text ++ back ∧
      x.pos.raw = base + byteLength front ∧ x.stop.raw = base + byteLength (front ++ text) ∧
      x = y.shift (byteLength front) ∧
      kind.definition.toEbnf.Derives
        (slice (tape (String.ofList text) base) 0 (tokenCount (String.ofList text))) [y] := by
  obtain ⟨i, j, proper, hj, item, pos, stop⟩ := exists_run h hx
  obtain ⟨front, text, back, split, starts, stops⟩ := exists_text_of_tape source base proper hj
  obtain ⟨count, same⟩ := tape_cut positive (split.trans (List.append_assoc _ _ _)) ⟨proper, hj⟩
    (wellFormed_of_reads h) starts stops
  have moved := slice_shift same
  rw [Nat.add_sub_cancel' (Nat.le_of_lt proper), ← count] at moved
  rw [moved] at item
  obtain ⟨ys, piece, eq⟩ := item.of_shift
  obtain ⟨y, rfl, rfl⟩ := List.map_eq_singleton_iff.mp eq.symm
  exact ⟨front, text, back, y, split, (congrArg Pos.raw pos).trans starts,
    (congrArg Pos.raw stop).trans stops, rfl, piece⟩

/-- A piece of a text for which there is room has room. -/
theorem hasRoom_of_piece (room : files.HasRoom source) {front text back : List Char}
    (split : source.toList = front ++ text ++ back) : files.HasRoom (String.ofList text) := by
  have length := congrArg byteLength split
  rw [byteLength_toList, byteLength_append, byteLength_append] at length
  have inside : (String.ofList text).utf8ByteSize ≤ source.utf8ByteSize := by
    rw [← byteLength_ofList]
    omega
  exact Nat.le_trans (by omega) room

end Neighbours

/-- Definitions are independent of their neighbours, under every limit on nesting and for both kinds
of text. If two texts are accepted, the text that has one below the other is accepted, with the
definitions of both, group by group. If the first one is accepted and the second one is rejected,
the text of both is rejected with the same error, as many bytes and lines further on, just if the
last definition of the first text does not go on with the first token of the second. Definitions of
documents never do, and those of schemas only with three kinds of token. And the piece of an
accepted text that a definition takes is accepted and has just this definition. -/
theorem definitions_independent (kind : SourceKind) (name : Option String) (limit : Nat)
    {files : FileSet} (built : files.Built) :
    (∀ a b pa pb, files.HasRoom (a ++ "\n" ++ b) →
      Outcome.meaning? (parse kind a name ⟨limit⟩ files) = some pa →
      Outcome.meaning? (parse kind b name ⟨limit⟩ files) = some pb →
      ∃ p, Outcome.meaning? (parse kind (a ++ "\n" ++ b) name ⟨limit⟩ files) = some p ∧
        p = kind.ofDefinitions p.definitions ∧
        p.definitions =
          pa.definitions ++ pb.definitions.map (Tree.shift ((a.utf8ByteSize + 1 : Nat) : Int)) ∧
        p.groups = List.zipWith (· ++ ·) pa.groups
          (pb.groups.map (List.map (Tree.shift ((a.utf8ByteSize + 1 : Nat) : Int))))) ∧
    (∀ a b pa e, files.HasRoom (a ++ "\n" ++ b) →
      Outcome.meaning? (parse kind a name ⟨limit⟩ files) = some pa →
      Outcome.error? (parse kind b name ⟨limit⟩ files) = some e →
      (Outcome.error? (parse kind (a ++ "\n" ++ b) name ⟨limit⟩ files) =
        some (e.lower (a.utf8ByteSize + 1) (a.toList.count '\n' + 1)) ↔ ¬ kind.GoesOn a b)) ∧
    (∀ a b, kind.GoesOn a b → kind = .schema ∧ ∃ y, (textTokens b).head? = some y ∧
      y.token.kind ∈ [TokenKind.atSign, .parenOpen, .pipe]) ∧
    ∀ source parsed, Outcome.meaning? (parse kind source name ⟨limit⟩ files) = some parsed →
      ∀ x ∈ parsed.definitions, ∃ front text back y, source.toList = front ++ text ++ back ∧
        x.pos.raw = files.base + byteLength front ∧
        x.stop.raw = files.base + byteLength (front ++ text) ∧
        x = y.shift (byteLength front) ∧
        Outcome.meaning? (parse kind (String.ofList text) name ⟨limit⟩ files) =
          some (kind.ofDefinitions [y]) := by
  have positive := built.ordered.positive
  refine ⟨fun a b pa pb room ha hb => ?_, fun a b pa e room ha hb => ?_,
    fun a b => kind.goesOn_kinds, fun source parsed h x hx => ?_⟩
  · obtain ⟨ts, c, rfl, reads⟩ := reads_of_meaning name ha
    obtain ⟨us, c', rfl, reads'⟩ := reads_of_meaning name hb
    obtain ⟨c'', joined⟩ := reads_join positive reads reads'
    have found := definitions_ofDefinitions joined
    refine ⟨_, meaning?_of_reads name room joined, congrArg kind.ofDefinitions found.symm, ?_, ?_⟩
    · rw [found, definitions_ofDefinitions reads, definitions_ofDefinitions reads']
    · rw [groups_append, groups_shift]
  · obtain ⟨ts, c, rfl, reads⟩ := reads_of_meaning name ha
    exact ⟨not_goesOn_of_error? name positive reads hb, error?_join name positive room reads hb⟩
  · obtain ⟨ts, c, rfl, reads⟩ := reads_of_meaning name h
    have room : files.HasRoom source := by
      obtain ⟨o, ho, -⟩ := Outcome.exists_of_meaning? h
      exact hasRoom_of_parse kind source name files ho
    rw [definitions_ofDefinitions reads] at hx
    obtain ⟨front, text, back, y, split, pos, stop, rfl, piece⟩ := exists_piece positive reads hx
    have whole : kind.grammar.toEbnf.Derives (slice (tape (String.ofList text) files.base) 0
        (tokenCount (String.ofList text))) [y] := by
      rw [kind.toEbnf_grammar]
      simpa using piece.starCons .starNil
    have shallow : Tree.nestingOf [y] ≤ limit := by
      rw [Tree.nestingOf_singleton, ← Tree.nesting_shift (byteLength front)]
      exact Nat.le_trans (Tree.nesting_le_of_mem hx) (nestingOf_le_of_reads reads)
    obtain ⟨c', alone⟩ := exists_reads (kind_tape_tokenCount _ _) whole shallow
    exact ⟨front, text, back, y, split, pos, stop, rfl,
      meaning?_of_reads name (hasRoom_of_piece room split) alone⟩

/-- What is no definition is reported nine bytes and one line further on below a scalar, and a
scalar below a scalar starts nine bytes further on. -/
theorem definitions_independent_scalar :
    FileSet.Built {} ∧ FileSet.HasRoom {} ("scalar S" ++ "\n" ++ "x") ∧
      ¬ SourceKind.schema.GoesOn "scalar S" "x" ∧
      Outcome.error? (parse .schema ("scalar S" ++ "\n" ++ "x") none ⟨0⟩ {}) =
        some (.unexpectedToken ⟨"", 9, 2, 1⟩ ("schema or scalar or type or interface or union " ++
          "or enum or input or extend or directive") "x") ∧
      ∃ p, Outcome.meaning? (parse .schema ("scalar S" ++ "\n" ++ "scalar S") none ⟨0⟩ {}) =
          some p ∧
        p.groups.flatten.map Tree.pos = [⟨1⟩, ⟨10⟩] := by
  let scalar : Tree := .node .scalarDefinition
    [.token ⟨⟨.name, "scalar"⟩, ⟨1⟩, ⟨7⟩⟩, .node .name [.token ⟨⟨.name, "S"⟩, ⟨8⟩, ⟨9⟩⟩]]
  have meaning : Outcome.meaning? (parse .schema "scalar S" none ⟨0⟩ {}) =
      some (.schema { scalars := [scalar], pos := ⟨1⟩, stop := ⟨9⟩ }) := by
    decide +kernel
  have error : Outcome.error? (parse .schema "x" none ⟨0⟩ {}) =
      some (.unexpectedToken ⟨"", 0, 1, 1⟩ ("schema or scalar or type or interface or union " ++
        "or enum or input or extend or directive") "x") := by
    decide +kernel
  have closed : ¬ SourceKind.schema.GoesOn "scalar S" "x" := by
    intro goesOn
    obtain ⟨-, y, first, kind⟩ := SourceKind.schema.goesOn_kinds goesOn
    have name : (textTokens "x").head?.map (·.token.kind) = some .name := by decide +kernel
    rw [first] at name
    obtain named := Option.some.inj name
    simp [named] at kind
  obtain ⟨both, fails, -⟩ := definitions_independent .schema none 0 .empty
  obtain ⟨p, accepted, -, -, groups⟩ :=
    both "scalar S" "scalar S" _ _ (by decide +kernel) meaning meaning
  refine ⟨.empty, by decide +kernel, closed,
    (fails "scalar S" "x" _ _ (by decide +kernel) meaning error).mpr closed, p, accepted, ?_⟩
  rw [groups]
  decide +kernel

/-- A scalar goes on with a directive in the next line, which is no text on its own. -/
theorem scalar_goes_on :
    (Outcome.meaning? (parse .schema "scalar S" none ⟨0⟩ {})).isSome = true ∧
      Outcome.error? (parse .schema "@d" none ⟨0⟩ {}) =
        some (.unexpectedToken ⟨"", 0, 1, 1⟩ ("schema or scalar or type or interface or union " ++
          "or enum or input or extend or directive") "@") ∧
      Outcome.error? (parse .schema ("scalar S" ++ "\n" ++ "@d") none ⟨0⟩ {}) = none ∧
      (Outcome.meaning? (parse .schema ("scalar S" ++ "\n" ++ "@d") none ⟨0⟩ {})).isSome =
        true := by
  decide +kernel

end GraphQL
