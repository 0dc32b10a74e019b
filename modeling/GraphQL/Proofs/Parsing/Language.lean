import GraphQL.Proofs.Parsing.Grouping
import GraphQL.Proofs.Parsing.Outcome

/-!
# The languages that are parsed

The parsers accept the languages that the productions define, neither less nor more, and what they
return is the tree of the only derivation of the text. The limit on nesting plays no part as long as
it is not below the number of brackets that open a level.

Results:
1. `document_language`: executable documents.
2. `schema_language`: schema documents. Their definitions are returned in groups and have the order
   of the text again when they are taken in order of position.
-/

namespace GraphQL

/-- A construct that a production describes is of its kind. -/
theorem Ebnf.derives_node_iff {k : NodeKind} {e : Ebnf} {xs : List PlacedToken} {t : Tree} :
    (Ebnf.node k e).Derives xs [t] ↔ ∃ ts, t = .node k ts ∧ e.Derives xs ts := by
  constructor
  · intro h
    cases h with
    | node h => exact ⟨_, rfl, h⟩
  · rintro ⟨ts, rfl, h⟩
    exact h.node

section Language

variable (source : String) (name : Option String) (limit : Nat) (files : FileSet)

/-- A text is accepted as an executable document if and only if its tokens are derivable from the
grammar, and the document is then, up to positions, the tree of every derivation that there is. -/
theorem document_language (room : files.HasRoom source)
    (deep : levels (textTokens source) ≤ limit) :
    ∃ o, Document.parse source name ⟨limit⟩ files = .ok o ∧
      (o.result.isOk = true ↔ ∃ tree, Ebnf.document.Derives (textTokens source) [tree]) ∧
      ∀ doc, o.result = .ok doc → ∀ tree,
        Ebnf.document.Derives (textTokens source) [tree] ↔ tree = doc.tree.bare := by
  obtain ⟨o, ho, accepted, found⟩ := definitions_iff .document name room deep
  simp only [← Grammar.toEbnf_executableDocument, Grammar.toEbnf, Ebnf.derives_node_iff]
  refine ⟨o.map Document.mk, by rw [Document.parse, ho]; rfl, ?_, fun doc hdoc tree => ?_⟩
  · rw [Outcome.map, isOk_map, accepted]
    constructor
    · rintro ⟨us, h⟩
      exact ⟨_, us, rfl, h⟩
    · rintro ⟨_, us, _, h⟩
      exact ⟨us, h⟩
  · obtain ⟨ts, hts, rfl⟩ := exists_of_map_eq_ok hdoc
    have unique := found ts hts
    rw [Document.tree, Tree.bare_node]
    constructor
    · rintro ⟨us, ht, h⟩
      rw [ht, (unique us).mp h]
    · intro ht
      exact ⟨_, ht, (unique _).mpr rfl⟩

/-- A field in a selection set is a document, with one level of nesting. -/
theorem document_language_field :
    FileSet.HasRoom {} "\x7b a \x7d" ∧ levels (textTokens "\x7b a \x7d") ≤ 1 ∧
      ∃ tree, Ebnf.document.Derives (textTokens "\x7b a \x7d") [tree] := by
  have room : FileSet.HasRoom {} "\x7b a \x7d" := by decide +kernel
  have deep : levels (textTokens "\x7b a \x7d") ≤ 1 := by decide +kernel
  obtain ⟨o, ho, accepted, -⟩ := document_language "\x7b a \x7d" none 1 {} room deep
  have parsed : (Document.parse "\x7b a \x7d" none ⟨1⟩ {}).toOption.any (·.result.isOk) = true := by
    decide +kernel
  rw [ho] at parsed
  exact ⟨room, deep, accepted.mp parsed⟩

/-- The definitions of a text are of the nine kinds and start further and further behind. -/
theorem ordered_of_reads {base : Nat} {ts : List Tree} {c' : Cursor}
    (h : Grammar.typeSystemDocument.Reads (tape source base) limit 0 ⟨0, 0⟩ ts c') :
    (∀ t ∈ ts, ∃ k ∈ Schema.kinds, t.isKind k = true) ∧
      ts.Pairwise fun a b => a.pos.raw < b.pos.raw := by
  have derives := h.derives
  rw [reads_ends .schema h] at derives
  have sized := ending_eq_stop .schema derives
  rw [Grammar.typeSystemDocument, Grammar.toEbnf] at derives
  obtain ⟨known, ordered⟩ := derives.ordered (fun _ _ => pos_tape_lt_pos_tape source base) rfl rfl
    rfl (by decide +kernel) (Nat.zero_le _) (Nat.le_refl _) sized
  exact ⟨fun t ht => (known t ht).1, ordered⟩

/-- The definitions of a text come back in the order of the text. -/
theorem definitions_of_reads {base : Nat} {ts : List Tree} {c' : Cursor}
    (h : Grammar.typeSystemDocument.Reads (tape source base) limit 0 ⟨0, 0⟩ ts c') :
    (Schema.ofDefinitions ts).definitions = ts := by
  obtain ⟨known, ordered⟩ := ordered_of_reads source limit h
  exact Schema.definitions_ofDefinitions known ordered

/-- A text is accepted as a schema document if and only if its tokens are derivable from the
grammar, and the definitions of the schema, in order of position, are then, up to positions, those
of every derivation that there is. -/
theorem schema_language (room : files.HasRoom source)
    (deep : levels (textTokens source) ≤ limit) :
    ∃ o, Schema.parse source name ⟨limit⟩ files = .ok o ∧
      (o.result.isOk = true ↔ ∃ tree, Ebnf.schema.Derives (textTokens source) [tree]) ∧
      ∀ schema, o.result = .ok schema → ∀ tree,
        Ebnf.schema.Derives (textTokens source) [tree] ↔ tree = schema.tree.bare := by
  obtain ⟨o, ho, accepted, found⟩ := definitions_iff .schema name room deep
  simp only [← Grammar.toEbnf_typeSystemDocument, Grammar.toEbnf, Ebnf.derives_node_iff]
  refine ⟨o.map Schema.ofDefinitions, by rw [Schema.parse, ho]; rfl, ?_, fun schema hs tree => ?_⟩
  · rw [Outcome.map, isOk_map, accepted]
    constructor
    · rintro ⟨us, h⟩
      exact ⟨_, us, rfl, h⟩
    · rintro ⟨_, us, _, h⟩
      exact ⟨us, h⟩
  · obtain ⟨ts, hts, rfl⟩ := exists_of_map_eq_ok hs
    obtain ⟨c', reads⟩ := reads_of_result name room ho hts
    have unique := found ts hts
    rw [Schema.tree, definitions_of_reads source limit reads, Tree.bare_node]
    constructor
    · rintro ⟨us, ht, h⟩
      rw [ht, (unique us).mp h]
    · intro ht
      exact ⟨_, ht, (unique _).mpr rfl⟩

/-- Two definitions that belong to different groups are a schema document. -/
theorem schema_language_groups :
    FileSet.HasRoom {} "union U = A scalar S" ∧ levels (textTokens "union U = A scalar S") ≤ 0 ∧
      ∃ tree, Ebnf.schema.Derives (textTokens "union U = A scalar S") [tree] := by
  have room : FileSet.HasRoom {} "union U = A scalar S" := by decide +kernel
  have deep : levels (textTokens "union U = A scalar S") ≤ 0 := by decide +kernel
  obtain ⟨o, ho, accepted, -⟩ := schema_language "union U = A scalar S" none 0 {} room deep
  have parsed : (Schema.parse "union U = A scalar S" none ⟨0⟩ {}).toOption.any
      (·.result.isOk) = true := by
    decide +kernel
  rw [ho] at parsed
  exact ⟨room, deep, accepted.mp parsed⟩

end Language

end GraphQL
