import GraphQL.Proofs.Parsing.Values
import GraphQL.Proofs.Reading.Calls
import GraphQL.Proofs.Reading.Constancy

/-!
# Constant values

The default of a variable, an argument or an input field mentions no variable, at whatever depth,
and neither do the arguments of a directive in a schema. The parser sees to that by reading these
values in a form of their own. Wherever it stands, this form differs from the one with variables in
nothing but that: it gives the same values, those with a variable apart, and these it rejects at the
first dollar sign.

Results:
1. `SourceKind.endsConstant_language`: where the language asks for a constant value.
2. `along_rebase`: a stream of which tokens have been taken is one from there on.
3. `constant_values`: the values in a tree, and the two forms of values in every state.
-/

namespace GraphQL

/-! ## Constructs with a constant value -/

/-- Where the language asks for constant values: in defaults, and in a schema in arguments, all of
which belong to directives. -/
def SourceKind.asksConstant (kind : SourceKind) (k : NodeKind) : Bool :=
  k = .defaultValue || (kind = .schema && k = .argument)

theorem SourceKind.endsConstant_language (kind : SourceKind) {k : NodeKind} {body : Ebnf}
    (asks : kind.asksConstant k = true) (occurs : Ebnf.Occurs (.node k body) kind.language) :
    body.endsConstant = true := by
  cases kind with
  | document =>
    have closed : ∀ r ∈ [Rule.selectionSet, .value true, .value false, .type],
        (Ebnf.ofRule r).passes [.selectionSet, .value true, .value false, .type]
          (fun k e => !SourceKind.document.asksConstant k || e.endsConstant) = true := by
      decide +kernel
    simpa [asks] using occurs.tested closed (by decide +kernel)
  | schema =>
    have closed : ∀ r ∈ [Rule.value true, .type],
        (Ebnf.ofRule r).passes [.value true, .type]
          (fun k e => !SourceKind.schema.asksConstant k || e.endsConstant) = true := by
      decide +kernel
    simpa [asks] using occurs.tested closed (by decide +kernel)

/-! ## The parser at any place -/

section Places

variable {σ : Type} [LineSink σ]

/-- A stream of which tokens have been taken is a stream from there on. -/
theorem TokenStream.along_rebase (l : Lexer σ) {c : Cursor} (ordered : c.Ordered) :
    along l c = along (l.after c.index) ⟨0, c.seen - c.index⟩ := by
  have seen : c.index + (c.seen - c.index) = c.seen := Nat.add_sub_cancel' ordered
  have held : (List.range' c.index (c.seen - c.index)).map l.nth =
      (List.range' 0 (c.seen - c.index)).map (l.after c.index).nth := by
    rw [← List.range_eq_range', List.range'_eq_map_range, List.map_map]
    exact List.map_congr_left fun n _ => (l.nth_after c.index n).symm
  rw [along, along, Lexer.after_after, seen, held]
  rfl

/-- A punctuator is spelled in one way. -/
theorem text_nth_of_punctuator (l : Lexer σ) (n : Nat) {text : String}
    (h : (l.nth n).token.kind.punctuator? = some text) : (l.nth n).token.text = text := by
  have proper : (l.after n).read.1.token.kind ≠ .eof := by
    intro eof
    rw [Lexer.nth, eof] at h
    cases h
  obtain ⟨gap, raw, -, -, -, c, cs, -, -, token⟩ := Lexer.rest_read proper
  rw [Lexer.nth, token] at h ⊢
  exact Lexeme.text_scan_of_punctuator h

end Places

/-- The two forms of values agree after any tokens of a text. -/
theorem valuesAgree_after (source : String) {file : File} (whole : file.size = source.utf8ByteSize)
    (limit i seen depth : Nat) :
    Parser.ValuesAgree fun constant => Parser.run limit source.length (.call (.value constant))
      (.along ((Lexer.ofSource source file).after i) ⟨0, seen⟩ depth) := by
  obtain ⟨-, base, size⟩ := Lexer.sameRange_after (Lexer.ofSource source file) i
  have nth := Lexer.nth_after (Lexer.ofSource source file) i
  generalize (Lexer.ofSource source file).after i = l at base size nth ⊢
  have same (n : Nat) : tape source file.base (i + n) = (l.nth n).placed l.lines.base := by
    rw [nth, base]
    exact tape_eq_placed source file.base file _
  have fits (n : Nat) : (l.nth n).stop ≤ l.lines.size := by
    rw [nth, size]
    exact (stop_nth_ofSource_le source file _).trans_eq whole.symm
  have last : (tape source file.base (i + (tokenCount source - i))).token.kind = .eof := by
    -- behind the end of the text the end of the text is repeated
    rw [tape, Lexer.nth_of_eof_le (kind_nth_tokenCount source _) (by omega)]
    exact kind_nth_tokenCount source _
  have enough : tokenCount source - i ≤ source.length :=
    Nat.le_trans (Nat.sub_le _ _) (tokenCount_le_length source)
  refine Parser.valuesAgree same fits last enough (fun n dollar => ?_) depth seen
  rw [Token.describe, if_neg (by simp [dollar])]
  exact text_nth_of_punctuator _ _ (by rw [dollar]; rfl)

/-- The parser in a text after any calls to its stream, with any number of levels open. -/
def ParserState.reached (source : String) (file : File) (calls : List TokenStream.Call)
    (depth : Nat) : ParserState :=
  { stream := TokenStream.afterCalls { lexer := Lexer.ofSource source file } calls, depth }

/-- The two forms of values agree wherever the parser stands in a text. -/
theorem valuesAgree_reached (source : String) {file : File}
    (whole : file.size = source.utf8ByteSize) (limit : Nat) (calls : List TokenStream.Call)
    (depth : Nat) :
    Parser.ValuesAgree fun constant => Parser.run limit source.length (.call (.value constant))
      (.reached source file calls depth) := by
  have ordered : Cursor.Ordered ⟨calls.count .consume, TokenStream.needed 0 calls⟩ := by
    obtain ⟨least, -⟩ := TokenStream.needed_bounds 0 calls
    rwa [Nat.zero_add] at least
  rw [ParserState.reached, TokenStream.afterCalls_start, TokenStream.along_rebase _ ordered]
  exact valuesAgree_after source whole limit _ _ depth

/-! ## Constant values -/

/-- Where the language asks for a constant value there is one. In an accepted text, every default
value and, in a schema, every argument has a value that mentions no variable. And wherever the
parser stands in a text and however many levels are open, the two forms of values agree. -/
theorem constant_values (source : String) (name : Option String) (limit : Nat) (files : FileSet) :
    (∀ kind o parsed, parse kind source name ⟨limit⟩ files = .ok o → o.result = .ok parsed →
      ∀ k ps, Tree.Inside (.node k ps) parsed.tree →
        (k = .defaultValue ∨ kind = .schema ∧ k = .argument) →
        ∃ v, (Tree.node k ps).value? = some v ∧ v.isConst = true) ∧
    ∀ calls depth, Parser.ValuesAgree fun constant =>
      Parser.run limit source.length (.call (.value constant))
        (.reached source (files.nextFile name source) calls depth) := by
  refine ⟨fun kind o parsed ho hr k ps inside asks => ?_,
    valuesAgree_reached source rfl limit⟩
  have inner : k ≠ kind.root := by
    rcases asks with rfl | ⟨rfl, rfl⟩
    · cases kind <;> decide
    · decide
  obtain ⟨body, run, occurs, derived, -⟩ := exists_production ho hr inside inner
  have ends := kind.endsConstant_language (by simpa [SourceKind.asksConstant] using asks) occurs
  exact derived.exists_value ends

/-- A number as the default of a variable, and a list with this variable in it. Behind the 14 tokens
in front of it the list is read as a value, and it is rejected as a constant one. -/
theorem constant_values_default :
    ∃ source s o parsed ps v w p s' s'',
      source = "query($a:I=1)\x7bb(c:[\x7bd:$a\x7d])\x7d" ∧
      s = ParserState.reached source (FileSet.nextFile {} none source)
        (List.replicate 14 .consume) 1 ∧
      parse .document source none ⟨3⟩ {} = .ok o ∧ o.result = .ok parsed ∧
      Tree.Inside (.node .defaultValue ps) parsed.tree ∧
      (Tree.node .defaultValue ps).value? = some v ∧ v.isConst = true ∧
      Parser.run 3 source.length (.call (.value false)) s = .ok [w] s' ∧ w.isConst = false ∧
      Parser.run 3 source.length (.call (.value true)) s =
        .error (.rejected (.unexpectedToken p (Grammar.valueStarts true) "$")) s'' := by
  obtain ⟨values, agree⟩ :=
    constant_values "query($a:I=1)\x7bb(c:[\x7bd:$a\x7d])\x7d" none 3 {}
  have accepted : (Outcome.meaning?
      (parse .document "query($a:I=1)\x7bb(c:[\x7bd:$a\x7d])\x7d" none ⟨3⟩ {})).map
        (fun parsed => parsed.tree.constructs.any (·.isKind .defaultValue)) = some true := by
    decide +kernel
  obtain ⟨parsed, meaning, found⟩ := Option.map_eq_some_iff.mp accepted
  obtain ⟨o, ho, hr⟩ := Outcome.exists_of_meaning? meaning
  obtain ⟨d, hd, isDefault⟩ := List.any_eq_true.mp found
  obtain ⟨ps, rfl⟩ : ∃ ps, d = .node .defaultValue ps := by
    cases d with
    | token x => cases isDefault
    | node k ps => exact ⟨ps, by rw [Option.some.inj (of_decide_eq_true isDefault)]⟩
  have inside := Tree.inside_of_mem_constructs hd
  obtain ⟨v, value, const⟩ := values .document o parsed ho hr _ _ inside (.inl rfl)
  have forms := agree (List.replicate 14 .consume) 1
  have mentioned :
      (match Parser.run 3 "query($a:I=1)\x7bb(c:[\x7bd:$a\x7d])\x7d".length (.call (.value false))
        (.reached "query($a:I=1)\x7bb(c:[\x7bd:$a\x7d])\x7d"
          (FileSet.nextFile {} none "query($a:I=1)\x7bb(c:[\x7bd:$a\x7d])\x7d")
          (List.replicate 14 .consume) 1) with
      | .ok ts _ => Tree.allConst ts
      | .error _ _ => true) = false := by
    decide +kernel
  split at mentioned
  · next ts s' read =>
    obtain ⟨w, rfl, -⟩ := forms.const ts s' read
    have mentions : w.isConst = false := by simpa using mentioned
    obtain ⟨-, p, s'', -, rejected, -⟩ := forms.first w s' read mentions
    exact ⟨_, _, o, parsed, ps, v, w, p, s', s'', rfl, rfl, ho, hr, inside, value, const, read,
      mentions, rejected⟩
  · cases mentioned

end GraphQL
