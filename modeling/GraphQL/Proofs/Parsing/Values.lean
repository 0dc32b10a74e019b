import GraphQL.Proofs.Ebnf.Checks
import GraphQL.Proofs.Lexing.Numerals
import GraphQL.Proofs.Parsing.Walk

/-!
# The literals of a tree

Every construct of a tree has been made by a production of the language from tokens of the text. A
literal is made from one token, an integer, a float or a string, and keeps its text. What the
literal is worth can be told from that text: an integer literal has the integer that it denotes as
its value if 64 bits can hold it, and both kinds of number have a nearest double, however long they
are.

Results:
1. `exists_production`: the production and the tokens that a construct is made from.
2. `exists_literal`: the token that a literal is made from.
3. `literal_values`: the values of the literals of a tree.
-/

namespace GraphQL

/-- A literal consists of a number or a string. -/
def Ebnf.literalBody (k : NodeKind) (e : Ebnf) : Bool :=
  k ≠ .literalValue || e = .mark .int || e = .mark .float || e = .mark .string

section Values

variable {kind : SourceKind} {source : String} {name : Option String} {options : ParserOptions}
  {files : FileSet} {o : Outcome ParseError Parsed} {parsed : Parsed}

/-- A construct inside the tree of an accepted text is made by a production of the language from
tokens of the text. -/
theorem exists_production (ho : parse kind source name options files = .ok o)
    (hr : o.result = .ok parsed) {k : NodeKind} {ps : List Tree}
    (inside : Tree.Inside (.node k ps) parsed.tree) (inner : k ≠ kind.root) :
    ∃ body run, Ebnf.Occurs (.node k body) kind.language ∧ body.Derives run ps ∧
      ∀ x ∈ run, ∃ t ∈ sourceTokens source, t.placed files.base = x := by
  obtain ⟨ts, c', rfl, reads⟩ := reads_of_parse name ho hr
  have derives := reads.derives
  rw [reads_ends kind reads] at derives
  rw [tree_ofDefinitions_of_reads reads] at inside
  cases inside with
  | here => exact absurd rfl inner
  | part hu inside =>
    obtain ⟨before, run, after, whole, made⟩ := derives.constructs (g := kind.language)
      kind.edged_grammar (fun occurs => kind.language_eq ▸ occurs.body)
      (ending_eq_stop kind derives) hu inside
    obtain ⟨k', body, ps', same, occurs, derived⟩ := made.production
    obtain ⟨rfl, rfl⟩ := Tree.node.inj same
    refine ⟨body, run, occurs, derived, fun x hx => ?_⟩
    have among : x ∈ slice (tape source files.base) 0 (tokenCount source) := by
      rw [whole]
      exact List.mem_append_left _ (List.mem_append_right _ hx)
    obtain ⟨n, -, hn, rfl⟩ := mem_slice.mp among
    refine ⟨(Lexer.ofSource source ({} : LineLog)).nth n, ?_, rfl⟩
    rw [sourceTokens_eq_map source ({} : LineLog)]
    exact List.mem_map_of_mem (List.mem_range.mpr (Nat.lt_succ_of_lt hn))

theorem SourceKind.literalBody_language (kind : SourceKind) {body : Ebnf}
    (occurs : Ebnf.Occurs (.node .literalValue body) kind.language) :
    Ebnf.literalBody .literalValue body = true := by
  have closed : ∀ r ∈ [Rule.selectionSet, .value true, .value false, .type],
      (Ebnf.ofRule r).passes [.selectionSet, .value true, .value false, .type]
        Ebnf.literalBody = true := by
    decide +kernel
  refine occurs.tested closed ?_
  cases kind <;> decide +kernel

/-- A literal is made from one token and keeps the class and the text of it. -/
theorem exists_literal (ho : parse kind source name options files = .ok o)
    (hr : o.result = .ok parsed) {ps : List Tree}
    (inside : Tree.Inside (.node .literalValue ps) parsed.tree) :
    ∃ t x, t ∈ sourceTokens source ∧ ps = [.token (t.placed files.base)] ∧
      (Tree.node .literalValue ps).literal? = some x ∧
      t.token.kind = x.kind.tokenKind ∧ x.text = t.token.text := by
  obtain ⟨body, run, occurs, derived, tokens⟩ :=
    exists_production ho hr inside (by cases kind <;> decide)
  have bodies := kind.literalBody_language occurs
  simp only [Ebnf.literalBody, ne_eq, not_true_eq_false, decide_false, Bool.false_or,
    Bool.or_eq_true, decide_eq_true_eq] at bodies
  obtain ⟨k, rfl⟩ : ∃ k : LiteralKind, body = .mark k.tokenKind := by
    rcases bodies with (rfl | rfl) | rfl
    · exact ⟨.int, rfl⟩
    · exact ⟨.float, rfl⟩
    · exact ⟨.string, rfl⟩
  cases derived with
  | @terminal _ y accepted =>
    obtain ⟨t, ht, rfl⟩ := tokens y (List.mem_singleton_self y)
    have kinds : t.token.kind = k.tokenKind := Terminal.accepts_kind.mp accepted
    have literal : Literal.ofToken? t.token = some ⟨k, t.token.text⟩ := by
      rw [Literal.ofToken?, kinds]
      cases k <;> rfl
    refine ⟨t, ⟨k, t.token.text⟩, ht, rfl, ?_, kinds, rfl⟩
    simp [Tree.literal?, Tree.token?, Tree.parts, SpannedToken.placed, literal]

/-- The literals of an accepted text and their values. Each is made from a token of the text and
keeps what it says. An integer literal denotes one integer, which is its value if a signed number of
64 bits can hold it; otherwise it has no integer value, and neither has a float or a string. There is
a nearest double for every integer and every float, and for no string. -/
theorem literal_values (ho : parse kind source name options files = .ok o)
    (hr : o.result = .ok parsed) (ps : List Tree)
    (inside : Tree.Inside (.node .literalValue ps) parsed.tree) :
    ∃ t x, t ∈ sourceTokens source ∧ ps = [.token (t.placed files.base)] ∧
      (Tree.node .literalValue ps).literal? = some x ∧
      t.token.kind = x.kind.tokenKind ∧ x.text = t.token.text ∧
      (x.kind = .int → ∃ n, Denotes x.text.toList n ∧ (∀ m, Denotes x.text.toList m → m = n) ∧
        ∀ v, x.intValue? = some v ↔ v = n ∧ -2 ^ 63 ≤ n ∧ n ≤ 2 ^ 63 - 1) ∧
      (x.kind ≠ .int → x.intValue? = none) ∧
      (x.floatValue?.isSome = true ↔ x.kind ≠ .string) := by
  obtain ⟨t, x, ht, parts, literal, kinds, text⟩ := exists_literal ho hr inside
  refine ⟨t, x, ht, parts, literal, kinds, text, fun int => ?_, x.intValue?_eq_none, ?_⟩
  · rw [int] at kinds
    obtain ⟨n, denotes⟩ := (numeral_of_mem ht (.inl kinds)).2 kinds
    rw [← text] at denotes
    exact ⟨n, denotes, fun m hm => hm.unique denotes, x.intValue?_eq_some_iff int denotes⟩
  · refine x.isSome_floatValue?_iff fun other => ?_
    rw [text]
    refine (numeral_of_mem ht ?_).1
    rw [kinds]
    cases hk : x.kind with
    | int => exact .inl rfl
    | float => exact .inr rfl
    | string => exact absurd hk other

end Values

/-- The least integer of 64 bits, the one below it, and a string of digits. -/
theorem literal_values_bounds :
    ∃ o parsed least below digits,
      parse .document "\x7b a(b:[-9223372036854775808 -9223372036854775809 \"7\"])\x7d" none
        ⟨2⟩ {} = .ok o ∧ o.result = .ok parsed ∧
      (parsed.tree.constructs.filter (·.isKind .literalValue)).map Tree.literal? =
        [some least, some below, some digits] ∧
      least.intValue? = some (-2 ^ 63) ∧ below.intValue? = none ∧
      below.floatValue?.isSome = true ∧ digits.intValue? = none ∧ digits.floatValue? = none := by
  have found : (Outcome.meaning? (parse .document
      "\x7b a(b:[-9223372036854775808 -9223372036854775809 \"7\"])\x7d" none ⟨2⟩ {})).map
        (fun p => p.tree.constructs.filter (·.isKind .literalValue)) = some
      [.node .literalValue [.token ⟨⟨.int, "-9223372036854775808"⟩, ⟨8⟩, ⟨28⟩⟩],
        .node .literalValue [.token ⟨⟨.int, "-9223372036854775809"⟩, ⟨29⟩, ⟨49⟩⟩],
        .node .literalValue [.token ⟨⟨.string, "7"⟩, ⟨50⟩, ⟨53⟩⟩]] := by
    decide +kernel
  obtain ⟨parsed, meaning, literals⟩ := Option.map_eq_some_iff.mp found
  obtain ⟨o, ho, hr⟩ := Outcome.exists_of_meaning? meaning
  have values (ps : List Tree) (h : Tree.node .literalValue ps ∈
      parsed.tree.constructs.filter (·.isKind .literalValue)) :=
    literal_values ho hr ps (Tree.inside_of_mem_constructs (List.mem_filter.mp h).1)
  rw [literals] at values
  obtain ⟨-, x, -, -, hx, -, -, integer, -, -⟩ := values _ (.head _)
  obtain ⟨-, y, -, -, hy, -, -, integer', -, float⟩ := values _ (.tail _ (.head _))
  obtain ⟨-, z, -, -, hz, -, -, -, other, float'⟩ := values _ (.tail _ (.tail _ (.head _)))
  obtain rfl : ⟨.int, "-9223372036854775808"⟩ = x := Option.some.inj hx
  obtain rfl : ⟨.int, "-9223372036854775809"⟩ = y := Option.some.inj hy
  obtain rfl : ⟨.string, "7"⟩ = z := Option.some.inj hz
  obtain ⟨n, -, unique, value⟩ := integer rfl
  obtain ⟨m, -, unique', value'⟩ := integer' rfl
  have least : baseTen "9223372036854775808".toList = 2 ^ 63 := by decide +kernel
  have below : baseTen "9223372036854775809".toList = 2 ^ 63 + 1 := by decide +kernel
  have hn := unique (-baseTen "9223372036854775808".toList)
    (.minus (by decide) (List.all_eq_true.mp (by decide)))
  have hm := unique' (-baseTen "9223372036854775809".toList)
    (.minus (by decide) (List.all_eq_true.mp (by decide)))
  refine ⟨o, parsed, _, _, _, ho, hr, congrArg (List.map Tree.literal?) literals,
    (value _).mpr ?_, ?_, float.mpr (by decide), other (by decide), ?_⟩
  · omega
  · refine Option.eq_none_iff_forall_ne_some.mpr fun v hv => ?_
    have := (value' v).mp hv
    omega
  · exact Option.not_isSome_iff_eq_none.mp fun some => absurd rfl (float'.mp some)

end GraphQL
