import GraphQL.Proofs.Ebnf.Renaming
import GraphQL.Proofs.Parsing.Formatting
import GraphQL.Proofs.Parsing.Rows
import GraphQL.Proofs.Parsing.Walk
import Mathlib.Data.List.Nodup

/-!
# Reserved words are names

The words of the language are reserved nowhere: what is a keyword at one place of a text may be a
name at any other place. So if the names of a text that is accepted are replaced by other ones, a
name that occurs twice by the same one both times, the new text is accepted as well, and its tree is
the old one with the new names. The only word that is not free is `on`, which no fragment may be
called.

Results:
1. `mem_nameTokens_iff`: which tokens of a text are names in its tree.
2. `exists_reads_renamed`: a text with other names is read in the same way.
3. `names_replaceable`: it is accepted with the renamed tree.
-/

namespace GraphQL

namespace Tree

/-- The tokens that the names in the tree consist of. -/
def nameTokens (t : Tree) : List PlacedToken :=
  (t.constructs.filter (·.isKind .name)).flatMap tokens

/-- The token with the new name if it is a name in the tree. -/
def respelled (r : String → String) (t : Tree) (x : PlacedToken) : PlacedToken :=
  if x ∈ t.nameTokens then x.respell r else x

variable (r : String → String)

theorem kind_respelled (t : Tree) (x : PlacedToken) :
    (t.respelled r x).token.kind = x.token.kind := by
  unfold respelled
  split <;> rfl

/-- Only the text of the token is new. -/
theorem eq_respelled (t : Tree) (x : PlacedToken) :
    { x with token := (t.respelled r x).token } = t.respelled r x := by
  unfold respelled
  split <;> rfl

theorem nesting_respell (t : Tree) : (t.respell r).nesting = t.nesting := by
  cases t with
  | token x => rw [respell, nesting, nesting]
  | node k ps => rfl

theorem nestingOf_map_respell (ts : List Tree) : nestingOf (ts.map (respell r)) = nestingOf ts := by
  induction ts with
  | nil => rfl
  | cons t ts ih => rw [List.map_cons, nestingOf, nestingOf, nesting_respell, ih]

mutual

/-- New names change nothing about nesting. -/
theorem nesting_rename : ∀ t : Tree, (t.rename r).nesting = t.nesting
  | token x => by rw [rename]
  | node k ps => by
    rw [rename, nesting_node, nesting_node]
    split
    · rw [nestingOf_map_respell]
    · rw [nestingOf_renameOf ps]

theorem nestingOf_renameOf : ∀ ts : List Tree, nestingOf (renameOf r ts) = nestingOf ts
  | [] => by rw [renameOf]
  | t :: ts => by rw [renameOf, nestingOf, nestingOf, nesting_rename t, nestingOf_renameOf ts]

end

theorem filter_isKind_renameOf (k : NodeKind) (ts : List Tree) :
    (renameOf r ts).filter (·.isKind k) = renameOf r (ts.filter (·.isKind k)) := by
  rw [renameOf_eq_map, renameOf_eq_map, List.filter_map]
  simp only [Function.comp_def, isKind_rename]

end Tree

/-- The tree, and the groups of a schema, are those of the first text with every name replaced, up
to positions. -/
structure Parsed.Renamed (r : String → String) (parsed parsed' : Parsed) : Prop where
  tree : parsed'.tree.bare = (parsed.tree.rename r).bare
  groups : parsed'.groups.map Tree.bareOf =
    parsed.groups.map fun group => Tree.bareOf (Tree.renameOf r group)

section Renaming

variable {kind : SourceKind} {source other : String} {limit base base' : Nat}
  {r : String → String} {ts us : List Tree} {c c' : Cursor}

theorem SourceKind.named_grammar (kind : SourceKind) : kind.grammar.toEbnf.named = true := by
  cases kind <;> decide +kernel

theorem SourceKind.fragmented_grammar (kind : SourceKind) :
    kind.grammar.toEbnf.fragmented = true := by
  cases kind <;> decide +kernel

/-- The groups of renamed definitions, and those of definitions without positions. -/
theorem groups_renameOf (ts : List Tree) :
    (kind.ofDefinitions (Tree.renameOf r ts)).groups =
      (kind.ofDefinitions ts).groups.map (Tree.renameOf r) := by
  cases kind with
  | document => rfl
  | schema =>
    simp [SourceKind.ofDefinitions, Parsed.groups, Schema.groups, Schema.ofDefinitions,
      Tree.filter_isKind_renameOf]

theorem groups_bareOf (ts : List Tree) :
    (kind.ofDefinitions (Tree.bareOf ts)).groups =
      (kind.ofDefinitions ts).groups.map Tree.bareOf := by
  cases kind with
  | document => rfl
  | schema =>
    simp [SourceKind.ofDefinitions, Parsed.groups, Schema.groups, Schema.ofDefinitions,
      Tree.bareOf_filter]

/-- The names in a tree are the names in its parts, unless the tree is a name. -/
theorem nameTokens_root (ts : List Tree) :
    (Tree.node kind.root ts).nameTokens =
      (((Tree.preorderOf 1 ts).map (·.2)).filter (·.isKind .name)).flatMap Tree.tokens := by
  have whole : ¬ (Tree.node kind.root ts).isKind .name = true := by
    cases kind <;> exact Bool.noConfusion
  rw [Tree.nameTokens, Tree.constructs, Tree.preorder, List.map_cons,
    List.filter_cons_of_neg whole]

/-- The tokens of a text that are names in its tree are those that are taken for names. -/
theorem mem_nameTokens_iff {zs : List (PlacedToken × Terminal)}
    (tokens : zs.map (·.1) = slice (tape source base) 0 (tokenCount source))
    (assigns : kind.grammar.toEbnf.Assigns zs ts) {z : PlacedToken × Terminal} (hz : z ∈ zs) :
    z.1 ∈ (Tree.node kind.root ts).nameTokens ↔ z.2.isName = true := by
  -- a token occurs only once in a text, so it is taken for one thing only
  have distinct : (zs.map (·.1)).Nodup := by
    have sequence := inSequence_slice source base (i := 0) (Nat.le_refl (tokenCount source))
    rw [tokens]
    refine sequence.apart.imp_of_mem fun {x y} hx _ apart same => ?_
    have forward := sequence.forward x hx
    rw [← same] at apart
    omega
  rw [nameTokens_root, assigns.names kind.named_grammar, List.mem_map]
  constructor
  · rintro ⟨w, hw, same⟩
    obtain ⟨member, isName⟩ := List.mem_filter.mp hw
    exact List.inj_on_of_nodup_map distinct member hz same ▸ isName
  · exact fun isName => ⟨z, List.mem_filter.mpr ⟨hz, isName⟩, rfl⟩

/-- The tokens of the other text, put where those of the source are. -/
def transcribed (source other : String) (base base' n : Nat) : PlacedToken :=
  { tape source base n with token := (tape other base' n).token }

theorem token_transcribed (source other : String) (base base' n : Nat) :
    (transcribed source other base base' n).token = (tape other base' n).token := rfl

/-- In the other text each token is spelled as what it is taken for in the source says. -/
theorem slice_transcribed {zs : List (PlacedToken × Terminal)}
    (tokens : zs.map (·.1) = slice (tape source base) 0 (tokenCount source))
    (assigns : kind.grammar.toEbnf.Assigns zs ts)
    (same : ∀ n ≤ tokenCount source, (tape other base' n).token =
      ((Tree.node kind.root ts).respelled r (tape source base n)).token) :
    slice (transcribed source other base base') 0 (tokenCount source) =
      zs.map (respellName r) := by
  have spelled : ∀ n ∈ List.range' 0 (tokenCount source), transcribed source other base base' n =
      (Tree.node kind.root ts).respelled r (tape source base n) := fun n hn => by
    have inside : n ≤ tokenCount source := by
      have := (List.mem_range'_1.mp hn).2
      omega
    rw [transcribed, same n inside]
    exact Tree.eq_respelled r _ _
  have names : ∀ z ∈ zs, (Tree.node kind.root ts).respelled r z.1 = respellName r z :=
    fun z hz => by simp only [Tree.respelled, respellName, mem_nameTokens_iff tokens assigns hz]
  calc slice (transcribed source other base base') 0 (tokenCount source)
    _ = (slice (tape source base) 0 (tokenCount source)).map
          ((Tree.node kind.root ts).respelled r) := by
      rw [slice, slice, List.map_map]
      exact List.map_congr_left spelled
    _ = (zs.map (·.1)).map ((Tree.node kind.root ts).respelled r) := by rw [tokens]
    _ = zs.map (respellName r) := by
      rw [List.map_map]
      exact List.map_congr_left names

/-- A text with other names is read in the same way. -/
theorem exists_reads_renamed
    (reads : kind.grammar.Reads (tape source base) limit 0 ⟨0, 0⟩ ts c)
    (allowed : ∀ n, Tree.NamesFragment ts n → r n ≠ "on")
    (same : ∀ n ≤ tokenCount source, (tape other base' n).token =
      ((Tree.node kind.root ts).respelled r (tape source base n)).token) :
    ∃ us c', kind.grammar.Reads (tape other base') limit 0 ⟨0, 0⟩ us c' ∧
      Tree.bareOf us = Tree.bareOf (Tree.renameOf r ts) := by
  have derives := reads.derives
  rw [reads_ends kind reads] at derives
  obtain ⟨zs, tokens, assigns⟩ := derives.exists_roles
  have renamed := assigns.renamed (r := r) kind.named_grammar fun z hz name =>
    allowed _ (assigns.fragments.1 kind.fragmented_grammar z hz name)
  rw [← slice_transcribed tokens assigns same] at renamed
  have eof : (transcribed source other base base' (tokenCount source)).token.kind = .eof := by
    rw [token_transcribed, same _ (Nat.le_refl _), Tree.kind_respelled, kind_tape_tokenCount]
  have shallow : Tree.nestingOf (Tree.renameOf r ts) ≤ limit := by
    rw [Tree.nestingOf_renameOf]
    exact nestingOf_le_of_reads reads
  obtain ⟨c', reads'⟩ := exists_reads eof renamed shallow
  obtain ⟨us, reads'', bare⟩ := reads'.transfer
    (fun i _ => (token_transcribed source other base base' i).symm) (Nat.le_refl _)
  exact ⟨us, c', reads'', bare⟩

/-- What is read in the same way but for the names means the same but for the names. -/
theorem renamed_of_reads
    (reads : kind.grammar.Reads (tape source base) limit 0 ⟨0, 0⟩ ts c)
    (reads' : kind.grammar.Reads (tape other base') limit 0 ⟨0, 0⟩ us c')
    (bare : Tree.bareOf us = Tree.bareOf (Tree.renameOf r ts)) :
    (kind.ofDefinitions ts).Renamed r (kind.ofDefinitions us) := by
  constructor
  · have whole : kind.root ≠ .name := by cases kind <;> exact nofun
    rw [tree_ofDefinitions_of_reads reads, tree_ofDefinitions_of_reads reads', Tree.rename,
      if_neg whole, Tree.bare_node, Tree.bare_node, bare]
  · rw [← groups_bareOf, bare, groups_bareOf, groups_renameOf, List.map_map]
    rfl

/-- If a text is accepted, so is every text under the same limit that has the same tokens but for
the names in the tree of the first one, each of which is replaced by the one that `r` has for it.
The tree of the new text is then the first tree with every name replaced, up to positions. The new
names may be any names, reserved words too, but no fragment, and no reference to one, may get the
name `on`. -/
theorem names_replaceable (kind : SourceKind) (source other : String) (name name' : Option String)
    (limit : Nat) {files files' : FileSet} {o : Outcome ParseError Parsed}
    (ho : parse kind source name ⟨limit⟩ files = .ok o) {parsed : Parsed}
    (hr : o.result = .ok parsed) (r : String → String)
    (allowed : ∀ u ∈ parsed.tree.constructs, u.isFragment = true →
      ∀ n, u.name? = some n → r n ≠ "on")
    (room : files'.HasRoom other)
    (same : (sourceTokens other).map (·.token) =
      (sourceTokens source).map fun t => (parsed.tree.respelled r (t.placed files.base)).token) :
    ∃ o' parsed', parse kind other name' ⟨limit⟩ files' = .ok o' ∧ o'.result = .ok parsed' ∧
      parsed.Renamed r parsed' := by
  obtain ⟨ts, c, rfl, reads⟩ := reads_of_parse name ho hr
  rw [tree_ofDefinitions_of_reads reads] at allowed same
  have count : tokenCount other = tokenCount source := by
    have length := congrArg List.length same
    rw [sourceTokens_eq_map other ({} : LineLog),
      sourceTokens_eq_map source ({} : LineLog)] at length
    simpa using length
  have spelled (n : Nat) (hn : n ≤ tokenCount source) : (tape other files'.base n).token =
      ((Tree.node kind.root ts).respelled r (tape source files.base n)).token := by
    have nth := congrArg (·[n]?) same
    simp only [List.getElem?_map, getElem?_sourceTokens ({} : LineLog) hn,
      getElem?_sourceTokens ({} : LineLog) (count ▸ hn)] at nth
    exact Option.some.inj nth
  have free (n : String) (names : Tree.NamesFragment ts n) : r n ≠ "on" := by
    obtain ⟨t, ht, u, inside, fragment, hn⟩ := names
    cases u with
    | token x => cases fragment
    | node k ps =>
      exact allowed _ (Tree.mem_constructs_of_inside (.part ht inside) 0) fragment n hn
  obtain ⟨us, c', reads', bare⟩ := exists_reads_renamed reads free spelled
  obtain ⟨o', ho', hr', -⟩ := parse_reads name' room reads'
  exact ⟨o', _, ho', hr', renamed_of_reads reads reads' bare⟩

/-- A fragment, its type and its field may all be called `query`. -/
theorem names_replaceable_query :
    ∃ (o' : Outcome ParseError Parsed) (parsed' : Parsed),
      parse .document "fragment query on query \x7b ...query query \x7d" none ⟨1⟩ {} = .ok o' ∧
      o'.result = .ok parsed' ∧
      ∃ o parsed, parse .document "fragment f on T \x7b ...f a \x7d" none ⟨1⟩ {} = .ok o ∧
        o.result = .ok parsed ∧ parsed.Renamed (fun _ => "query") parsed' := by
  have tokens :
      (Outcome.meaning? (parse .document "fragment f on T \x7b ...f a \x7d" none ⟨1⟩ {})).map
        (fun parsed => (sourceTokens "fragment f on T \x7b ...f a \x7d").map fun t =>
          (parsed.tree.respelled (fun _ => "query") (t.placed 1)).token) =
      some ((sourceTokens "fragment query on query \x7b ...query query \x7d").map (·.token)) := by
    decide +kernel
  obtain ⟨parsed, meaning, same⟩ := Option.map_eq_some_iff.mp tokens
  obtain ⟨o, ho, hr⟩ := Outcome.exists_of_meaning? meaning
  have allowed : ∀ u ∈ parsed.tree.constructs, u.isFragment = true →
      ∀ n, u.name? = some n → "query" ≠ "on" := fun _ _ _ _ _ => by decide
  have room : FileSet.HasRoom {} "fragment query on query \x7b ...query query \x7d" := by
    decide +kernel
  obtain ⟨o', parsed', ho', hr', renamed⟩ := names_replaceable .document
    "fragment f on T \x7b ...f a \x7d" "fragment query on query \x7b ...query query \x7d"
    none none 1 ho hr (fun _ => "query") allowed room same.symm
  exact ⟨o', parsed', ho', hr', o, parsed, ho, hr, renamed⟩

end Renaming

end GraphQL
