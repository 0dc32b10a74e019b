import GraphQL.Proofs.Ebnf.Order
import GraphQL.Proofs.Files.Ownership
import GraphQL.Proofs.Parsing.Spans

/-!
# The definitions of a schema

A schema is filled one definition at a time: each is put behind those of its kind, the first one
leaves its start and each one its end. Nothing is lost by that. The groups together are the
definitions of the text, and the walk, which sorts what the groups have, finds them in the order of
the text.

Results:
1. `ofDefinitions_eq_foldl`: filling the groups one definition at a time gives the groups by kind,
   as long as definitions have positions.
2. `definitions_kept`: what a schema keeps of the definitions of its text.
-/

namespace GraphQL

namespace Schema

/-- One more definition in the group of its kind. -/
def add (s : Schema) (d : Tree) : Schema :=
  match d.kind? with
  | some .schemaDefinition => { s with schemas := s.schemas ++ [d] }
  | some .scalarDefinition => { s with scalars := s.scalars ++ [d] }
  | some .typeDefinition => { s with types := s.types ++ [d] }
  | some .interfaceDefinition => { s with interfaces := s.interfaces ++ [d] }
  | some .unionDefinition => { s with unions := s.unions ++ [d] }
  | some .enumDefinition => { s with enums := s.enums ++ [d] }
  | some .inputObjectDefinition => { s with inputObjects := s.inputObjects ++ [d] }
  | some .extendDefinition => { s with extensions := s.extensions ++ [d] }
  | some .directiveDefinition => { s with directives := s.directives ++ [d] }
  | _ => s

/-- One more definition behind all others: it is added to its group, the schema ends with it, and if
the schema starts nowhere yet it starts with it. -/
def push (s : Schema) (d : Tree) : Schema :=
  { s.add d with pos := if s.pos.isValid then s.pos else d.pos, stop := d.stop }

theorem ofDefinitions_concat {ds : List Tree} (placed : ∀ d ∈ ds, d.pos.isValid = true)
    (d : Tree) : ofDefinitions (ds ++ [d]) = (ofDefinitions ds).push d := by
  have start : (((ds ++ [d]).head?.map Tree.pos).getD .none) =
      if (ofDefinitions ds).pos.isValid then (ofDefinitions ds).pos else d.pos := by
    cases ds with
    | nil => rfl
    | cons c ds =>
      have valid : (ofDefinitions (c :: ds)).pos.isValid = true := placed c List.mem_cons_self
      rw [if_pos valid]
      rfl
  have finish : (((ds ++ [d]).getLast?.map Tree.stop).getD .none) = d.stop := by
    rw [List.getLast?_concat]
    rfl
  unfold push
  rw [← start]
  cases d with
  | token x => simp [ofDefinitions, add, Tree.isKind, Tree.kind?]
  | node k ps => cases k <;> simp [ofDefinitions, add, Tree.isKind, Tree.kind?]

/-- Filling the groups one definition at a time, behind those that are in them already. -/
theorem foldl_push (ds : List Tree) {before : List Tree}
    (placed : ∀ d ∈ before ++ ds, d.pos.isValid = true) :
    ds.foldl push (ofDefinitions before) = ofDefinitions (before ++ ds) := by
  induction ds generalizing before with
  | nil => rw [List.foldl_nil, List.append_nil]
  | cons d ds ih =>
    have already : ∀ c ∈ before, c.pos.isValid = true :=
      fun c hc => placed c (List.mem_append_left _ hc)
    have split : before ++ d :: ds = (before ++ [d]) ++ ds := by simp
    rw [split] at placed
    rw [List.foldl_cons, ← ofDefinitions_concat already, ih placed, split]

/-- Filling the groups one definition at a time gives the groups by kind. -/
theorem ofDefinitions_eq_foldl {ds : List Tree} (placed : ∀ d ∈ ds, d.pos.isValid = true) :
    ofDefinitions ds = ds.foldl push {} := by
  have empty : ofDefinitions [] = {} := rfl
  rw [← empty, foldl_push ds (by simpa using placed), List.nil_append]

/-- The schema keeps just the definitions `xs`, given in source order. -/
structure Keeps (s : Schema) (xs : List Tree) : Prop where
  /-- They have been put into it one after another. -/
  filled : s = xs.foldl push {}
  /-- Each is of one of the nine kinds, in the group of that kind and in no other group. -/
  placed : ∀ x ∈ xs, ∃ k ∈ kinds, x.isKind k = true ∧
    ∀ l g, (l, g) ∈ kinds.zip s.groups → (x ∈ g ↔ l = k)
  /-- Each group has those of its kind in their order, and nothing else. -/
  groups : s.groups = kinds.map fun k => xs.filter (·.isKind k)
  count : s.definitionCount = xs.length
  /-- It starts where the first one does. -/
  pos : s.pos = (xs.head?.map Tree.pos).getD .none
  /-- It ends where the last one does. -/
  stop : s.stop = (xs.getLast?.map Tree.stop).getD .none
  /-- It stands nowhere if and only if there are none. -/
  nowhere : (s.pos = .none ↔ xs = []) ∧ (s.stop = .none ↔ xs = [])
  /-- A walk finds them in their order. -/
  children : s.tree.children = xs

/-- The groups by kind keep all definitions, if these are of the nine kinds, have positions and
start further and further behind. -/
theorem keeps_ofDefinitions {xs : List Tree}
    (known : ∀ x ∈ xs, ∃ k ∈ kinds, x.isKind k = true)
    (placed : ∀ x ∈ xs, x.pos.isValid = true ∧ x.stop.isValid = true)
    (ordered : xs.Pairwise fun x y => x.pos.raw < y.pos.raw) : (ofDefinitions xs).Keeps xs := by
  have valid {p : Pos} (h : p.isValid = true) : p ≠ .none := by
    rintro rfl
    cases h
  refine ⟨ofDefinitions_eq_foldl fun x hx => (placed x hx).1, fun x hx => ?_,
    groups_ofDefinitions xs, ?_, rfl, rfl, ⟨?_, ?_⟩, ?_⟩
  · obtain ⟨k, hk, here⟩ := known x hx
    refine ⟨k, hk, here, fun l g hg => ?_⟩
    rw [groups_ofDefinitions, ← List.map_prod_left_eq_zip, List.mem_map] at hg
    obtain ⟨m, -, hm⟩ := hg
    obtain ⟨rfl, rfl⟩ := Prod.mk.inj hm
    rw [List.mem_filter]
    constructor
    · rintro ⟨-, there⟩
      exact isKind_unique there here
    · rintro rfl
      exact ⟨hx, here⟩
  · rw [definitionCount, groups_ofDefinitions]
    exact (flatten_filter_perm (by decide) known).length_eq
  · cases xs with
    | nil => exact iff_of_true rfl rfl
    | cons x xs =>
      exact iff_of_false (valid (placed x List.mem_cons_self).1) (List.cons_ne_nil x xs)
  · rcases List.eq_nil_or_concat xs with rfl | ⟨xs, x, rfl⟩
    · exact iff_of_true rfl rfl
    · rw [List.concat_eq_append] at placed ⊢
      have last : (ofDefinitions (xs ++ [x])).stop = x.stop := by
        rw [ofDefinitions, List.getLast?_concat]
        rfl
      rw [last]
      exact iff_of_false (valid (placed x (by simp)).2) (by simp)
  · rw [tree, definitions_ofDefinitions known ordered]
    refine List.filter_eq_self.mpr fun x hx => ?_
    obtain ⟨k, -, hk⟩ := known x hx
    rw [of_decide_eq_true hk]
    rfl

end Schema

section Definitions

variable {source : String} {limit : Nat} {base : Nat}

/-- What has been read stands in the text where its tokens do, and these are tokens of the text. -/
theorem sound_of_reads (kind : SourceKind) {ts : List Tree} {c' : Cursor}
    (reads : kind.grammar.Reads (tape source base) limit 0 ⟨0, 0⟩ ts c') :
    (∀ t ∈ ts, t.Sound) ∧
      (Tree.tokensOf ts).Sublist (slice (tape source base) 0 (tokenCount source)) ∧
      InSequence (Tree.tokensOf ts) := by
  have derives := reads.derives
  rw [reads_ends kind reads] at derives
  exact ⟨derives.sound kind.edged_grammar (ending_eq_stop kind derives), derives.tokensOf_sublist,
    (inSequence_slice source base (Nat.le_refl _)).sublist derives.tokensOf_sublist⟩

/-- What has been read has positions, if the text has any. -/
theorem isValid_of_reads (positive : 0 < base) (kind : SourceKind) {ts : List Tree} {c' : Cursor}
    (reads : kind.grammar.Reads (tape source base) limit 0 ⟨0, 0⟩ ts c') :
    ∀ t ∈ ts, t.pos.isValid = true ∧ t.stop.isValid = true := by
  obtain ⟨sound, tokens, sequence⟩ := sound_of_reads kind reads
  intro t ht
  obtain ⟨x, first, pos⟩ := (sound t ht).exists_first
  have ordered := (sound t ht).within (sequence.sublist (Tree.tokens_sublist_of_mem ht)) .here
  have hx := (Tree.tokens_sublist_of_mem ht).subset (List.mem_of_mem_head? first)
  obtain ⟨n, -, -, rfl⟩ := mem_slice.mp (tokens.subset hx)
  have start : 0 < t.pos.raw := by
    rw [pos]
    exact Nat.lt_of_lt_of_le positive (Nat.le_add_right _ _)
  exact ⟨decide_eq_true (Nat.ne_of_gt start),
    decide_eq_true (Nat.ne_of_gt (Nat.lt_trans start ordered.2.1))⟩

/-- The schema of a text that is accepted keeps the definitions that the grammar describes the text
to consist of. They stand in the text one behind the other. -/
theorem definitions_kept (name : Option String) (options : ParserOptions) {files : FileSet}
    (built : files.Built) {o : Outcome ParseError Schema}
    (ho : Schema.parse source name options files = .ok o) {s : Schema} (hs : o.result = .ok s) :
    ∃ xs, Ebnf.schema.Derives (slice (tape source files.base) 0 (tokenCount source))
        [.node .schema xs] ∧
      (xs.Pairwise fun x y => x.stop.raw ≤ y.pos.raw) ∧ s.Keeps xs := by
  have parsing : parse .schema source name options files = .ok (o.map .schema) := by
    rw [parse, ho]
    rfl
  have parsed : (o.map Parsed.schema).result = .ok (.schema s) := by
    rw [Outcome.result_map, hs]
    rfl
  obtain ⟨xs, c', found, reads⟩ := reads_of_parse name parsing parsed
  obtain rfl : s = Schema.ofDefinitions xs := Parsed.schema.inj found
  obtain ⟨sound, -, sequence⟩ := sound_of_reads .schema reads
  obtain ⟨known, ordered⟩ := ordered_of_reads source _ reads
  have derives := reads.derives
  rw [reads_ends .schema reads] at derives
  have placed := isValid_of_reads built.ordered.positive .schema reads
  exact ⟨xs, derives.node, Tree.pairwise_of_sound sound sequence,
    Schema.keeps_ofDefinitions known placed ordered⟩

/-- An extension between two scalars goes into a group of its own, and a walk finds it with them. -/
theorem definitions_kept_mixed :
    FileSet.Built {} ∧
      ∃ o s xs, Schema.parse "scalar A extend type B \x7b b: A \x7d scalar C" none ⟨1⟩ {} = .ok o ∧
        o.result = .ok s ∧ s.Keeps xs ∧ xs.length = 3 ∧ s.tree.children = xs ∧
        s.scalars.length = 2 ∧ s.types = [] ∧ s.extensions.length = 1 := by
  have meaning :
      (Outcome.meaning? (Schema.parse "scalar A extend type B \x7b b: A \x7d scalar C" none ⟨1⟩
        {})).map (fun s => (s.definitionCount, s.scalars.length, s.types, s.extensions.length)) =
        some (3, 2, [], 1) := by
    decide +kernel
  obtain ⟨s, hs, facts⟩ := Option.map_eq_some_iff.mp meaning
  obtain ⟨o, ho, hr⟩ := Outcome.exists_of_meaning? hs
  obtain ⟨xs, -, -, keeps⟩ := definitions_kept none ⟨1⟩ .empty ho hr
  obtain ⟨count, scalars, types, extensions⟩ : s.definitionCount = 3 ∧ s.scalars.length = 2 ∧
      s.types = [] ∧ s.extensions.length = 1 := by
    simpa using facts
  exact ⟨.empty, o, s, xs, ho, hr, keeps, keeps.count ▸ count, keeps.children, scalars, types,
    extensions⟩

end Definitions

end GraphQL
