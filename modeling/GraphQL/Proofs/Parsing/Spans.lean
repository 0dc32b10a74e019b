import GraphQL.Proofs.Lexing.Slices
import GraphQL.Proofs.Parsing.Language
import GraphQL.Tree.View

/-!
# Exact spans

Every construct in the tree of a text says where in the text it stands, reckoning by the rule of its
kind from parts that it has and tokens that it keeps. What it says is exact: it starts with the
first token that its production was applied to and ends with the last one, and each of its tokens
has the place of the very token of the text that it is.

Results:
1. `MadeFrom.spans`: a construct that is made from tokens of the text spans them.
2. `spans_exact`: every construct of a text spans tokens of it.
-/

namespace GraphQL

/-- The construct `t` consists of the tokens from `i` up to but not including `j` of a text whose
positions start at `base`, in the language of the expression `g`. -/
structure Tree.Spans (source : String) (base : Nat) (g : Ebnf) (t : Tree) (i j : Nat) : Prop where
  /-- There is at least one token, and they are all in front of the end of the text. -/
  range : i < j ∧ j ≤ tokenCount source
  /-- A production for constructs of this kind describes just these tokens. -/
  production : ∃ k body ps, t = .node k ps ∧ Ebnf.Occurs (.node k body) g ∧
    body.Derives (slice (tape source base) i j) ps
  /-- The tokens in the tree are some of them, in their order and with their positions. -/
  leaves : t.tokens.Sublist (slice (tape source base) i j)
  /-- A punctuation mark has the position of a token of its class. -/
  marks : ∀ c p, t.mark? c = some p →
    ∃ n, i ≤ n ∧ n < j ∧ (tape source base n).token.kind = c ∧ p = (tape source base n).pos
  /-- A keyword has the position of a token that spells it. -/
  keywords : ∀ w p, t.keyword? w = some p →
    ∃ n, i ≤ n ∧ n < j ∧ (tape source base n).token.isKeyword w = true ∧
      p = (tape source base n).pos
  /-- It starts where the first of them does. -/
  pos : t.pos = ⟨base + ((Lexer.ofSource source ({} : LineLog)).nth i).start⟩
  /-- It ends where the last of them does. -/
  stop : t.stop = ⟨base + ((Lexer.ofSource source ({} : LineLog)).nth (j - 1)).stop⟩
  pos_lt_stop : t.pos.raw < t.stop.raw
  /-- The text between the two positions starts with the lexeme of the first token and ends with the
  lexeme of the last one. -/
  text : ∃ front text back, source.toList = front ++ text ++ back ∧
    t.pos.raw = base + byteLength front ∧ t.stop.raw = base + byteLength (front ++ text) ∧
    (∃ raw more, text = raw ++ more ∧ IsLexeme raw (tape source base i).token) ∧
    ∃ most raw, text = most ++ raw ∧ IsLexeme raw (tape source base (j - 1)).token

/-- A token that is directly a part of a construct is one of its tokens. -/
theorem Tree.mem_tokens_of_token? {t : Tree} {test : Token → Bool} {x : PlacedToken}
    (h : t.token? test = some x) : x ∈ t.tokens ∧ test x.token = true := by
  obtain ⟨u, hu, hx⟩ := List.exists_of_findSome?_eq_some h
  cases t with
  | token y => cases hu
  | node k ps =>
    cases u with
    | node l qs => cases hx
    | token y =>
      have tested : test y.token = true ∧ y = x := by simpa using hx
      obtain ⟨tested, rfl⟩ := tested
      refine ⟨?_, tested⟩
      obtain ⟨before, after, rfl⟩ := List.append_of_mem hu
      simp [Tree.tokensOf_append, Tree.tokensOf]

/-- A construct that is made from tokens of the text spans them. -/
theorem Ebnf.MadeFrom.spans {source : String} {base : Nat} {g : Ebnf} {t : Tree}
    {before run after : List PlacedToken} (made : MadeFrom g t run)
    (whole : slice (tape source base) 0 (tokenCount source) = before ++ run ++ after) :
    ∃ i j, Tree.Spans source base g t i j := by
  -- the run is cut out of the tokens of the text
  obtain ⟨j, -, hj, front, -⟩ := slice_eq_append (Nat.zero_le _) whole
  obtain ⟨i, -, hij, -, rfl⟩ := slice_eq_append (Nat.zero_le _) front
  obtain ⟨x, first, pos⟩ := made.edge .front
  obtain ⟨y, last, stop⟩ := made.edge .back
  have proper : i < j := by
    refine Nat.lt_of_le_of_ne hij fun he => ?_
    rw [he, slice_self] at first
    cases first
  obtain rfl : x = tape source base i := Option.some.inj (first.symm.trans (head?_slice proper))
  obtain rfl : y = tape source base (j - 1) :=
    Option.some.inj (last.symm.trans (getLast?_slice proper))
  obtain ⟨front, text, split, start, finish, opens, closes⟩ :=
    Lexer.text_of_run (Lexer.ofSource source ({} : LineLog)) proper
      fun n hn => kind_nth_ne_eof source ({} : LineLog) (by omega)
  have leaf {x : PlacedToken} (hx : x ∈ t.tokens) :
      ∃ n, i ≤ n ∧ n < j ∧ tape source base n = x := mem_slice.mp (made.leaves.subset hx)
  refine ⟨i, j, ⟨proper, hj⟩, made.production, made.leaves, fun c p hp => ?_, fun w p hp => ?_, pos,
    stop, ?_, front, text, _, split, ?_, ?_, opens, closes⟩
  · obtain ⟨x, hx, rfl⟩ := Option.map_eq_some_iff.mp hp
    obtain ⟨member, kind⟩ := Tree.mem_tokens_of_token? hx
    obtain ⟨n, hin, hnj, rfl⟩ := leaf member
    exact ⟨n, hin, hnj, of_decide_eq_true kind, rfl⟩
  · obtain ⟨x, hx, rfl⟩ := Option.map_eq_some_iff.mp hp
    obtain ⟨member, keyword⟩ := Tree.mem_tokens_of_token? hx
    obtain ⟨n, hin, hnj, rfl⟩ := leaf member
    exact ⟨n, hin, hnj, keyword, rfl⟩
  · change (t.place .front).raw < (t.place .back).raw
    rw [pos, stop]
    exact Nat.add_lt_add_left (Nat.lt_of_lt_of_le (Lexer.start_lt_stop_read (kind_nth_ne_eof source
      ({} : LineLog) (by omega))) (Lexer.stop_nth_mono _ (by omega))) base
  · change (t.place .front).raw = _
    rw [pos]
    exact congrArg (base + ·) (start.trans (Nat.zero_add _))
  · change (t.place .back).raw = _
    rw [stop]
    exact congrArg (base + ·) (finish.trans (Nat.zero_add _))

/-- A schema starts with its first definition and ends with its last one. -/
theorem Schema.edges_ofDefinitions {e : Ebnf} {xs : List PlacedToken} {ts : List Tree}
    (check : ∀ s, e.edgedAt .schema s = true) (h : e.Derives xs ts) :
    (ofDefinitions ts).pos = (Tree.node .schema ts).pos ∧
      (ofDefinitions ts).stop = (Tree.node .schema ts).stop := by
  constructor
  · cases ts with
    | nil => rfl
    | cons t ts => exact (h.pos_node (check .front)).symm
  · rcases List.eq_nil_or_concat ts with rfl | ⟨ts, t, rfl⟩
    · rfl
    · rw [List.concat_eq_append] at h ⊢
      rw [h.stop_node (check .back), ofDefinitions, List.getLast?_concat]
      rfl

section Spans

variable {source : String} {limit : Nat} {files : FileSet}

/-- Every construct of what has been read spans tokens of the text, if anything has been read. -/
theorem exists_spans_of_ne_nil {base : Nat} {e : Ebnf} {root : NodeKind} {ts : List Tree}
    (h : e.Derives (slice (tape source base) 0 (tokenCount source)) ts)
    (check : ∀ s, e.keeps s = true ∧ e.edgedAt root s = true) (edged : e.edged = true)
    (sized : ∀ x ∈ slice (tape source base) 0 (tokenCount source), x.ending = x.stop)
    {k : NodeKind} {ps : List Tree} (inside : Tree.Inside (.node k ps) (.node root ts))
    (nonempty : ts ≠ []) : ∃ i j, Tree.Spans source base (.node root e) (.node k ps) i j := by
  cases inside with
  | here =>
    have made : Ebnf.MadeFrom (.node root e) (.node root ts)
        (slice (tape source base) 0 (tokenCount source)) := by
      refine ⟨⟨root, e, ts, rfl, .here, h⟩, ?_, fun s => ?_⟩
      · simpa using h.tokensOf_sublist
      · obtain ⟨x, hx, place⟩ := h.exact_node (check s).2 nonempty (h.exact edged sized)
        rw [Tree.tokens_node, h.edge?_tokensOf (check s).1] at hx
        exact ⟨x, hx, place⟩
    have whole : slice (tape source base) 0 (tokenCount source) =
        [] ++ slice (tape source base) 0 (tokenCount source) ++ [] := by simp
    exact made.spans whole
  | part hu inside =>
    obtain ⟨before, run, after, whole, made⟩ := h.constructs (g := .node root e) edged
      (fun occurs => occurs.body) sized hu inside
    exact made.spans whole

/-- Every construct of what has been read spans tokens of the text, apart from an empty root. -/
theorem exists_spans {base : Nat} {e : Ebnf} {root : NodeKind} {ts : List Tree}
    (h : e.Derives (slice (tape source base) 0 (tokenCount source)) ts)
    (check : ∀ s, e.keeps s = true ∧ e.edgedAt root s = true) (edged : e.edged = true)
    (sized : ∀ x ∈ slice (tape source base) 0 (tokenCount source), x.ending = x.stop)
    {k : NodeKind} {ps : List Tree} (inside : Tree.Inside (.node k ps) (.node root ts))
    (filled : Tree.node k ps ≠ .node root []) :
    ∃ i j, Tree.Spans source base (.node root e) (.node k ps) i j := by
  refine exists_spans_of_ne_nil h check edged sized inside ?_
  rintro rfl
  cases inside with
  | here => exact filled rfl
  | part hu _ => cases hu

/-- The language of a kind of source. -/
def SourceKind.language : SourceKind → Ebnf
  | document => .document
  | schema => .schema

/-- The kind of the construct that a whole text is. -/
def SourceKind.root : SourceKind → NodeKind
  | document => .document
  | schema => .schema

theorem SourceKind.language_eq (kind : SourceKind) :
    kind.language = .node kind.root kind.grammar.toEbnf := by
  cases kind with
  | document => exact Grammar.toEbnf_executableDocument.symm
  | schema => exact Grammar.toEbnf_typeSystemDocument.symm

/-- The definitions that have been read are the parts of the tree. -/
theorem tree_ofDefinitions_of_reads {kind : SourceKind} {base : Nat} {ts : List Tree} {c' : Cursor}
    (reads : kind.grammar.Reads (tape source base) limit 0 ⟨0, 0⟩ ts c') :
    (kind.ofDefinitions ts).tree = .node kind.root ts := by
  cases kind with
  | document => rfl
  | schema =>
    rw [SourceKind.ofDefinitions, Parsed.tree, Schema.tree, definitions_of_reads source _ reads]
    rfl

/-- The landmarks of a whole text lead to its first and its last definition. -/
theorem SourceKind.keeps_grammar (kind : SourceKind) (s : Side) :
    kind.grammar.toEbnf.keeps s = true ∧ kind.grammar.toEbnf.edgedAt kind.root s = true := by
  cases kind <;> cases s <;> decide +kernel

theorem SourceKind.edged_grammar (kind : SourceKind) : kind.grammar.toEbnf.edged = true := by
  cases kind <;> decide +kernel

/-- In the tree of a text that is accepted every construct stands exactly where it says, apart from
an empty document or schema, which stands nowhere. A schema starts and ends where its tree does. -/
theorem spans_exact (kind : SourceKind) (name : Option String) (options : ParserOptions)
    {o : Outcome ParseError Parsed}
    (ho : parse kind source name options files = .ok o) {parsed : Parsed}
    (hr : o.result = .ok parsed) :
    (∀ s, parsed = .schema s → s.pos = parsed.tree.pos ∧ s.stop = parsed.tree.stop) ∧
    ∀ k ps, Tree.Inside (.node k ps) parsed.tree → Tree.node k ps ≠ .node kind.root [] →
      ∃ i j, Tree.Spans source files.base kind.language (.node k ps) i j := by
  obtain ⟨ts, c', rfl, reads⟩ := reads_of_parse name ho hr
  have derives := reads.derives
  rw [reads_ends kind reads] at derives
  have spans (k : NodeKind) (ps : List Tree)
      (inside : Tree.Inside (.node k ps) (.node kind.root ts))
      (filled : Tree.node k ps ≠ .node kind.root []) :
      ∃ i j, Tree.Spans source files.base kind.language (.node k ps) i j := by
    rw [kind.language_eq]
    exact exists_spans derives kind.keeps_grammar kind.edged_grammar (ending_eq_stop kind derives)
      inside filled
  cases kind with
  | document => exact ⟨nofun, spans⟩
  | schema =>
    rw [SourceKind.ofDefinitions, Parsed.tree, Schema.tree, definitions_of_reads source _ reads]
    refine ⟨?_, spans⟩
    rintro _ ⟨⟩
    exact Schema.edges_ofDefinitions (fun s => (SourceKind.schema.keeps_grammar s).2) derives

/-- The name of a scalar stands behind a blank and a comma, which belong to no construct. -/
theorem spans_exact_scalar :
    ∃ i j, Tree.Spans "scalar ,S" 1 Ebnf.schema
      (.node .name [.token ⟨⟨.name, "S"⟩, ⟨9⟩, ⟨10⟩⟩]) i j := by
  let definition : Tree := .node .scalarDefinition
    [.token ⟨⟨.name, "scalar"⟩, ⟨1⟩, ⟨7⟩⟩, .node .name [.token ⟨⟨.name, "S"⟩, ⟨9⟩, ⟨10⟩⟩]]
  have meaning : Outcome.meaning? (parse .schema "scalar ,S" none ⟨0⟩ {}) =
      some (SourceKind.ofDefinitions [definition] .schema) := by
    decide +kernel
  have tree :
      (SourceKind.ofDefinitions [definition] .schema).tree = .node .schema [definition] := by
    decide +kernel
  obtain ⟨o, ho, hr⟩ := Outcome.exists_of_meaning? meaning
  refine (spans_exact .schema none ⟨0⟩ ho hr).2 .name _ ?_ (by decide)
  rw [tree]
  exact .part (List.mem_singleton_self _)
    (.part (List.mem_cons_of_mem _ (List.mem_singleton_self _)) .here)

end Spans

end GraphQL
