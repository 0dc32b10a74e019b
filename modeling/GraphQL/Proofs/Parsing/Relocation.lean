import GraphQL.Proofs.Ebnf.Order
import GraphQL.Proofs.Files.Allocation
import GraphQL.Proofs.Lexing.Formatting
import GraphQL.Proofs.Parsing.Positions
import GraphQL.Proofs.Reading.Moved

/-!
# The place of a file does not matter

Each file of a set has positions of its own, so the tree of a text depends on the files that were
registered before. It depends on nothing else of them than the position that they leave to the file:
all positions are moved by the same number of bytes, "no position" stays what it is, and an error,
which gives its place by name, line and column, does not change at all.

Results:
1. `tape_shift`: the tokens of a text in one file are those in another one, moved.
2. `Parsed.Relocated`: what it means that a tree is another one at another place.
3. `parse_relocates`: a text has the same outcome in every set of files but for the place.
-/

namespace GraphQL

/-- The tokens of a text in a file that starts elsewhere. -/
theorem tape_shift (source : String) {base base' : Nat} (positive : 0 < base) (i : Nat) :
    tape source base' i = (tape source base i).shift ((base' : Int) - base) := by
  have moved (offset : Nat) : (⟨base' + offset⟩ : Pos) =
      (⟨base + offset⟩ : Pos).shift ((base' : Int) - base) := by
    rw [Pos.shift_of_pos (Nat.lt_of_lt_of_le positive (Nat.le_add_right base offset))]
    rw [Pos.mk.injEq]
    show base' + offset = (((base + offset : Nat) : Int) + (base' - base)).toNat
    omega
  simp only [tape, SpannedToken.placed, PlacedToken.shift, ← moved]

namespace Tree

/-- A tree ends at the moved place if its tokens are tokens of the text. -/
theorem stop_shift_of_tape {source : String} {base i j : Nat} (positive : 0 < base) {m : Int}
    (room : 0 ≤ base + m) {t : Tree} (tokens : ∀ x ∈ t.tokens, x ∈ slice (tape source base) i j) :
    (t.shift m).stop = t.stop.shift m := by
  refine t.stop_shift fun x hx => ?_
  obtain ⟨n, -, -, rfl⟩ := mem_slice.mp (tokens x hx)
  have behind : base ≤ (tape source base n).pos.raw := Nat.le_add_right base _
  exact PlacedToken.ending_shift (by omega) (by omega)

end Tree

namespace SourceKind

/-- Moved definitions are the moved document or schema. -/
theorem ofDefinitions_shift (kind : SourceKind) {m : Int} {ds : List Tree}
    (ends : ∀ d ∈ ds, (d.shift m).stop = d.stop.shift m) :
    kind.ofDefinitions (ds.map (Tree.shift m)) = (kind.ofDefinitions ds).shift m := by
  cases kind with
  | document => rfl
  | schema => exact congrArg Parsed.schema (Schema.ofDefinitions_shift ends)

end SourceKind

/-- What a text has been parsed to is `parsed'` where it was `parsed` before, all positions having
been moved by `m`. -/
structure Parsed.Relocated (m : Int) (parsed parsed' : Parsed) : Prop where
  /-- Everything that is stored is the same, apart from the positions, which have moved. -/
  stored : parsed' = parsed.shift m
  /-- So is the syntax tree of the whole text. -/
  tree : parsed'.tree = parsed.tree.shift m
  /-- Each construct starts and ends at the moved place. -/
  places : ∀ u : Tree, u.Inside parsed.tree →
    (u.shift m).pos = u.pos.shift m ∧ (u.shift m).stop = u.stop.shift m
  /-- No position stays no position, and every other one moves by just as much. -/
  exact : ∀ p, parsed.Mentions p → p = .none ∨ ((p.shift m).raw : Int) = p.raw + m

namespace Lexer

/-- The table of lines that a file has after some tokens does not depend on where the file is. -/
theorem lines_after_congr {source : String} {file file' : File} (fresh : file.lines = #[0])
    (fresh' : file'.lines = #[0]) (size : file'.size = file.size) (n : Nat) :
    ((ofSource source file').after n).lines.lines =
      ((ofSource source file).after n).lines.lines := by
  obtain ⟨taken, split, offset, lines⟩ := lines_after source fresh n
  obtain ⟨taken', split', offset', lines'⟩ := lines_after source fresh' n
  obtain ⟨-, same⟩ := samePlace_after (l := ofSource source file) (k := ofSource source file')
    ⟨rfl, rfl⟩ n
  obtain ⟨rfl, -⟩ := append_inj_of_byteLength (split.symm.trans split')
    (offset.symm.trans (same.trans offset'))
  rw [lines, lines', size]

end Lexer

section Relocation

variable {kind : SourceKind} {source : String} (name : Option String) {limit : Nat}
  {files files' : FileSet}

/-- What is reported says where the token is in the text, whatever file the text is. -/
theorem eq_error_of_reportedAt (positive : 0 < files.base) {fault : Fault} {c : Cursor}
    {e : ParseError} (looked : c.index < c.seen)
    (h : fault.ReportedAt limit (Lexer.ofSource source (files.nextFile name source)) c e) :
    e = fault.error limit
      (textPlace source (name.getD "")
        ((Lexer.ofSource source ({} : LineLog)).nth c.index).start)
      ((Lexer.ofSource source ({} : LineLog)).nth c.index).token := by
  have same : (Lexer.ofSource source (files.nextFile name source)).nth c.index =
      (Lexer.ofSource source ({} : LineLog)).nth c.index :=
    Lexer.nth_eq_of_samePlace (l := Lexer.ofSource source (files.nextFile name source))
      (k := Lexer.ofSource source ({} : LineLog)) ⟨rfl, rfl⟩ c.index
  have place := position_of_reportedAt name positive looked h
  obtain ⟨p, -, rfl⟩ := h
  rw [same] at place ⊢
  obtain rfl : p = _ := by
    cases fault <;> exact place
  rfl

/-- The file that is registered for a text has the same name, size and table of lines wherever it
is. -/
theorem registered_alike (n : Nat) :
    let file := ((Lexer.ofSource source (files.nextFile name source)).after n).lines
    let file' := ((Lexer.ofSource source (files'.nextFile name source)).after n).lines
    file'.name = file.name ∧ file'.size = file.size ∧ file'.lines = file.lines := by
  obtain ⟨hn, -, hs⟩ :=
    Lexer.sameRange_after (Lexer.ofSource source (files.nextFile name source)) n
  obtain ⟨hn', -, hs'⟩ :=
    Lexer.sameRange_after (Lexer.ofSource source (files'.nextFile name source)) n
  have fresh : (files.nextFile name source).lines = #[0] := rfl
  have fresh' : (files'.nextFile name source).lines = #[0] := rfl
  exact ⟨hn'.trans hn.symm, hs'.trans hs.symm, Lexer.lines_after_congr fresh fresh' rfl n⟩

/-- What is read in one file is read, moved, in every other one. -/
theorem relocated_of_reads (positive : 0 < files.base) (positive' : 0 < files'.base)
    {ts : List Tree} {c' : Cursor}
    (reads : kind.grammar.Reads (tape source files.base) limit 0 ⟨0, 0⟩ ts c')
    (reads' : kind.grammar.Reads (tape source files'.base) limit 0 ⟨0, 0⟩
      (ts.map (Tree.shift ((files'.base : Int) - files.base))) c') :
    Parsed.Relocated ((files'.base : Int) - files.base) (kind.ofDefinitions ts)
      (kind.ofDefinitions (ts.map (Tree.shift ((files'.base : Int) - files.base)))) := by
  have derives := reads.derives
  rw [reads_ends kind reads] at derives
  have room : (0 : Int) ≤ files.base + ((files'.base : Int) - files.base) := by omega
  have ends {u : Tree} (tokens : u.tokens.Sublist (Tree.tokensOf ts)) :
      (u.shift ((files'.base : Int) - files.base)).stop =
        u.stop.shift ((files'.base : Int) - files.base) :=
    Tree.stop_shift_of_tape positive room
      fun x hx => derives.tokensOf_sublist.subset (tokens.subset hx)
  refine ⟨kind.ofDefinitions_shift fun d hd => ends (Tree.tokens_sublist_of_mem hd), ?_,
    fun u inside => ⟨u.pos_shift, ?_⟩, fun p mentioned => ?_⟩
  · rw [tree_ofDefinitions_of_reads reads, tree_ofDefinitions_of_reads reads', Tree.shift_node]
  · rw [tree_ofDefinitions_of_reads reads] at inside
    exact ends (by simpa using inside.tokens_sublist)
  · have member := mentions_tree_of_reads reads mentioned
    by_cases none : ts = []
    · subst none
      exact .inl (Tree.eq_none_of_mentions member)
    · obtain ⟨offset, -, rfl⟩ := exists_offset_of_mentions ({} : LineLog) reads none member
      rw [Pos.shift_of_pos (Nat.lt_of_lt_of_le positive (Nat.le_add_right _ offset))]
      right
      show ((((files.base + offset : Nat) : Int) + (files'.base - files.base)).toNat : Int) =
        ((files.base + offset : Nat) : Int) + (files'.base - files.base)
      omega

/-- A text has the same outcome in every set of files that can be made and has room for it. Either
it is accepted in both sets, and the second tree is the first one with every position moved by the
distance between the two files, or it is rejected in both, with the same error. The files that are
registered differ in nothing but the positions they own. -/
theorem parse_relocates (kind : SourceKind) (source : String) (name : Option String) (limit : Nat)
    {files files' : FileSet} (built : files.Built) (built' : files'.Built)
    (room : files.HasRoom source) (room' : files'.HasRoom source) :
    ∃ o o', parse kind source name ⟨limit⟩ files = .ok o ∧
      parse kind source name ⟨limit⟩ files' = .ok o' ∧
      ((∃ parsed parsed', o.result = .ok parsed ∧ o'.result = .ok parsed' ∧
          Parsed.Relocated ((files'.base : Int) - files.base) parsed parsed') ∨
        ∃ e, o.result = .error e ∧ o'.result = .error e) ∧
      ∃ file file', o.files = files.push file ∧ o'.files = files'.push file' ∧
        file.base = files.base ∧ file'.base = files'.base ∧
        file'.name = file.name ∧ file'.size = file.size ∧ file'.lines = file.lines := by
  have positive := built.ordered.positive
  have positive' := built'.ordered.positive
  have same (n : Nat) (i : Nat) (_ : i < n) : tape source files'.base (i + 0) =
      (tape source files.base i).shift ((files'.base : Int) - files.base) :=
    tape_shift source positive i
  have bases (s : FileSet) (n : Nat) :=
    (Lexer.sameRange_after (Lexer.ofSource source (s.nextFile name source)) n).2.1
  rcases reads_or_stops kind source limit files.base with ⟨ts, c, reads⟩ | ⟨fault, c, stops⟩
  · have reads' := reads.moved (same c.seen) 0 (Nat.le_refl _)
    rw [Cursor.moved_zero, Cursor.moved_zero] at reads'
    obtain ⟨o, ho, hr, hf⟩ := parse_reads name room reads
    obtain ⟨o', ho', hr', hf'⟩ := parse_reads name room' reads'
    exact ⟨o, o', ho, ho',
      .inl ⟨_, _, hr, hr', relocated_of_reads positive positive' reads reads'⟩,
      _, _, hf, hf', bases files c.seen, bases files' c.seen, registered_alike name c.seen⟩
  · have stops' := stops.moved (same c.seen) 0 (Nat.le_refl _)
    rw [Cursor.moved_zero, Cursor.moved_zero] at stops'
    obtain ⟨o, e, ho, he, hf, reported, -⟩ := parse_stops name room stops
    obtain ⟨o', e', ho', he', hf', reported', -⟩ := parse_stops name room' stops'
    obtain rfl : e = e' :=
      (eq_error_of_reportedAt name positive stops.index_lt_seen reported).trans
        (eq_error_of_reportedAt name positive' stops'.index_lt_seen reported').symm
    exact ⟨o, o', ho, ho', .inr ⟨e, he, he'⟩,
      _, _, hf, hf', bases files c.seen, bases files' c.seen, registered_alike name c.seen⟩

/-- Behind a file of three bytes a scalar starts four positions further on. -/
theorem parse_relocates_scalar :
    FileSet.Built {} ∧ (FileSet.register {} "q.graphql" 3).Built ∧
      FileSet.HasRoom {} "scalar S" ∧ (FileSet.register {} "q.graphql" 3).HasRoom "scalar S" ∧
      ∃ o s, parse .schema "scalar S" none ⟨0⟩ (FileSet.register {} "q.graphql" 3) = .ok o ∧
        o.result = .ok (.schema s) ∧ s.pos = ⟨5⟩ ∧ s.stop = ⟨13⟩ := by
  have built := FileSet.Built.empty.register "q.graphql" 3
  have room : FileSet.HasRoom {} "scalar S" := by decide +kernel
  have room' : (FileSet.register {} "q.graphql" 3).HasRoom "scalar S" := by decide +kernel
  let scalar : Tree := .node .scalarDefinition
    [.token ⟨⟨.name, "scalar"⟩, ⟨1⟩, ⟨7⟩⟩, .node .name [.token ⟨⟨.name, "S"⟩, ⟨8⟩, ⟨9⟩⟩]]
  have meaning : Outcome.meaning? (parse .schema "scalar S" none ⟨0⟩ {}) =
      some (.schema { scalars := [scalar], pos := ⟨1⟩, stop := ⟨9⟩ }) := by
    decide +kernel
  obtain ⟨o₁, ho₁, hr₁⟩ := Outcome.exists_of_meaning? meaning
  obtain ⟨o, o', ho, ho', outcome, -⟩ :=
    parse_relocates .schema "scalar S" none 0 .empty built room room'
  obtain rfl := Except.ok.inj (ho₁.symm.trans ho)
  rcases outcome with ⟨parsed, parsed', hr, hr', relocated⟩ | ⟨e, he, -⟩
  · obtain rfl := Except.ok.inj (hr₁.symm.trans hr)
    exact ⟨.empty, built, room, room', o', _, ho', relocated.stored ▸ hr', by decide +kernel,
      by decide +kernel⟩
  · rw [hr₁] at he
    cases he

end Relocation

end GraphQL
