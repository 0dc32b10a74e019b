import GraphQL.Proofs.Lexing.Writing

/-!
# Formatting

Blanks, line ends, commas and comments may be put between the tokens of a text without changing what
the tokens are. They are skipped where they stand, and neither does a token in front of them take
them in, nor does a comment among them take in what stands behind.

Results:
1. `Formatting.span_append`: formatting is skipped, whatever follows.
2. `token_nth_formatted`: in front of a text it does not change the tokens.
3. `map_token_insert`: nor does it behind a well-formed token.
-/

namespace GraphQL

/-- Blanks and comments. Each comment ends with its line. -/
inductive Trivia.Formatting : List Char → Prop
  | nil : Formatting []
  | blank {c : Char} {cs : List Char} :
      isBlank c = true → Formatting cs → Formatting (c :: cs)
  | comment {body cs : List Char} :
      (∀ c ∈ body, isControl c = false) → Formatting cs →
      Formatting ('#' :: (body ++ '\n' :: cs))

/-- The characters `front`, which the text starts with, end at its very start or where a token ends
that is well-formed. -/
def Separable (source : String) (front : List Char) : Prop :=
  front = [] ∨ ∃ t ∈ sourceTokens source,
    t.token.kind ≠ .illegal ∧ t.token.kind ≠ .eof ∧ byteLength front = t.stop

namespace Trivia

/-- A comment goes on to the end of its line, which is skipped too. -/
theorem span_comment {body : List Char} (plain : ∀ c ∈ body, isControl c = false)
    (rest : List Char) :
    span true (body ++ '\n' :: rest) =
      (body ++ '\n' :: (span false rest).1, (span false rest).2) := by
  induction body with
  | nil => rfl
  | cons c body ih =>
    obtain ⟨first, others⟩ := List.forall_mem_cons.mp plain
    simp [span, first, ih others]

/-- Formatting is skipped, whatever follows. -/
theorem Formatting.span_append {cs : List Char} (h : Formatting cs) (rest : List Char) :
    span false (cs ++ rest) = (cs ++ (span false rest).1, (span false rest).2) := by
  induction h with
  | nil => rfl
  | blank blank _ ih => simp [span, blank, ih]
  | @comment body cs plain _ ih =>
    have mark : isBlank '#' = false := rfl
    simp [span, mark, span_comment plain, ih]

theorem Formatting.fresh {cs : List Char} (h : Formatting cs) (nonempty : cs ≠ [])
    (rest : List Char) : Fresh (cs ++ rest) := by
  cases h with
  | nil => exact absurd rfl nonempty
  | blank blank _ =>
    rintro _ ⟨⟩
    simp [starts, blank]
  | comment _ _ =>
    rintro _ ⟨⟩
    rfl

end Trivia

namespace Lexer

variable {σ : Type} [LineSink σ]

/-- Reading behind formatting. -/
theorem read_formatted {l k : Lexer σ} {cs : List Char} (h : Trivia.Formatting cs)
    (hk : k.rest = cs ++ l.rest) :
    k.read.1.token = l.read.1.token ∧ k.read.2.rest = l.read.2.rest := by
  have skipped := h.span_append l.rest
  rcases span_cases l.rest with ⟨trivia, hs⟩ | ⟨trivia, c, ds, hs⟩
  · rw [← hk, hs] at skipped
    rw [read_of_span_eq_nil hs, read_of_span_eq_nil skipped]
    exact ⟨rfl, rfl⟩
  · rw [← hk, hs] at skipped
    rw [read_of_span_eq_cons hs, read_of_span_eq_cons skipped]
    exact ⟨rfl, rfl⟩

/-- Formatting in front of a text does not change the tokens. -/
theorem token_nth_formatted {l k : Lexer σ} {cs : List Char} (h : Trivia.Formatting cs)
    (hk : k.rest = cs ++ l.rest) (n : Nat) : (k.nth n).token = (l.nth n).token := by
  induction n generalizing l k cs with
  | zero => exact (read_formatted h hk).1
  | succ n ih =>
    rw [← nth_read, ← nth_read]
    exact ih .nil (read_formatted h hk).2

/-- Behind a malformed token the text goes on if another token follows. -/
theorem rest_after_ne_nil (l : Lexer σ) {n m : Nat} (h : n < m)
    (text : (l.nth m).token.kind ≠ .eof) : (l.after (n + 1)).rest ≠ [] := by
  intro none
  refine text ?_
  have last : (l.nth (n + 1)).token.kind = .eof := by
    have span : Trivia.span false (l.after (n + 1)).rest = ([], []) := by rw [none]; rfl
    rw [nth, read_of_span_eq_nil span]
    rfl
  rw [nth_of_eof_le last h]
  exact last

end Lexer

theorem eq_nil_of_byteLength {cs : List Char} (h : byteLength cs = 0) : cs = [] := by
  cases cs with
  | nil => rfl
  | cons c cs =>
    have := c.utf8Size_pos
    rw [byteLength_cons] at h
    omega

/-- A text is split at an offset in one way. -/
theorem append_inj_of_byteLength {front front' back back' : List Char}
    (h : front ++ back = front' ++ back') (length : byteLength front = byteLength front') :
    front = front' ∧ back = back' := by
  rcases List.append_eq_append_iff.mp h with ⟨mid, rfl, rfl⟩ | ⟨mid, rfl, rfl⟩
  · rw [byteLength_append] at length
    obtain rfl : mid = [] := eq_nil_of_byteLength (by omega)
    simp
  · rw [byteLength_append] at length
    obtain rfl : mid = [] := eq_nil_of_byteLength (by omega)
    simp

/-! ## The tokens of two texts -/

section Tokens

variable {source other : String}

/-- Texts whose lexers give the same tokens have the same tokens up to the end. -/
theorem map_token_eq_of_nth
    (same : ∀ n, ((Lexer.ofSource other ({} : LineLog)).nth n).token =
      ((Lexer.ofSource source ({} : LineLog)).nth n).token) :
    (sourceTokens other).map (·.token) = (sourceTokens source).map (·.token) := by
  have count : tokenCount other = tokenCount source := by
    refine tokenCount_eq ?_ fun i hi => ?_
    · rw [same]
      exact kind_nth_tokenCount source ({} : LineLog)
    · rw [same]
      exact kind_nth_ne_eof source ({} : LineLog) hi
  rw [sourceTokens_eq_map other ({} : LineLog), sourceTokens_eq_map source ({} : LineLog), count,
    List.map_map, List.map_map]
  exact List.map_congr_left fun n _ => same n

/-- The text up to a well-formed token gives the same tokens up to there when formatting is put in
behind it. -/
theorem exists_after_insert {front inserted back : List Char} (h : Trivia.Formatting inserted)
    (nonempty : inserted ≠ []) {l k : Lexer LineLog} (start : l.offset = 0) {i : Nat}
    (legal : (l.nth i).token.kind ≠ .illegal) (text : (l.nth i).token.kind ≠ .eof)
    (stop : byteLength front = (l.nth i).stop) (split : l.rest = front ++ back)
    (rest : k.rest = front ++ (inserted ++ back)) :
    (∀ n, n < i + 1 → (k.nth n).token = (l.nth n).token) ∧
      (k.after (i + 1)).rest = inserted ++ (l.after (i + 1)).rest := by
  have proper (n : Nat) (hn : n < i + 1) : (l.nth n).token.kind ≠ .eof ∧
      ((l.nth n).token.kind = .illegal → (l.after (n + 1)).rest ≠ []) := by
    refine ⟨fun eof => text ?_, fun illegal => ?_⟩
    · rw [Lexer.nth_of_eof_le eof (Nat.le_of_lt_succ hn)]
      exact eof
    · rcases Nat.lt_or_eq_of_le (Nat.le_of_lt_succ hn) with hn | rfl
      · exact l.rest_after_ne_nil hn text
      · exact absurd illegal legal
  obtain ⟨taken, ht, keep⟩ := l.exists_prefix (i + 1) proper
  -- the text in front of the place is the text that has been taken
  have offset : byteLength taken = (l.nth i).stop := by
    have whole := l.offset_add_bytes_after (i + 1)
    have read : (l.nth i).stop = (l.after (i + 1)).offset := Lexer.stop_read (l.after i)
    rw [ht, start, byteLength_append] at whole
    omega
  obtain ⟨rfl, rfl⟩ :=
    append_inj_of_byteLength (split.symm.trans ht) (stop.trans offset.symm)
  obtain ⟨first, behind⟩ := keep _ k (h.fresh nonempty _) rest
  exact ⟨fun n hn => (first n hn).token, behind⟩

/-- Formatting at the start of a text or behind a well-formed token does not change the tokens. -/
theorem map_token_insert {front inserted back : List Char} (h : Trivia.Formatting inserted)
    (split : source.toList = front ++ back) (separable : Separable source front) :
    (sourceTokens (String.ofList (front ++ (inserted ++ back)))).map (·.token) =
      (sourceTokens source).map (·.token) := by
  refine map_token_eq_of_nth fun n => ?_
  have rest : (Lexer.ofSource (String.ofList (front ++ (inserted ++ back))) ({} : LineLog)).rest =
      front ++ (inserted ++ back) := String.toList_ofList
  have whole : (Lexer.ofSource source ({} : LineLog)).rest = front ++ back := split
  by_cases nonempty : inserted = []
  · subst nonempty
    exact Lexer.token_nth_formatted (l := Lexer.ofSource source ({} : LineLog)) .nil
      (rest.trans whole.symm) n
  rcases separable with rfl | ⟨t, ht, legal, text, stop⟩
  · exact Lexer.token_nth_formatted h (rest.trans (congrArg (inserted ++ ·) whole.symm)) n
  · obtain ⟨i, -, rfl⟩ := exists_nth_of_mem source ({} : LineLog) ht
    obtain ⟨first, behind⟩ := exists_after_insert h nonempty rfl legal text stop whole rest
    rcases Nat.lt_or_ge n (i + 1) with hn | hn
    · exact first n hn
    · obtain ⟨m, rfl⟩ := Nat.exists_eq_add_of_le hn
      rw [← Lexer.nth_after, ← Lexer.nth_after]
      exact Lexer.token_nth_formatted h behind m

/-- Texts with the same tokens up to the end have lexers that give the same tokens. -/
theorem token_nth_of_map_eq {σ : Type} [LineSink σ] (lines lines' : σ)
    (same : (sourceTokens other).map (·.token) = (sourceTokens source).map (·.token)) (n : Nat) :
    ((Lexer.ofSource other lines').nth n).token = ((Lexer.ofSource source lines).nth n).token := by
  rw [sourceTokens_eq_map other lines', sourceTokens_eq_map source lines, List.map_map,
    List.map_map] at same
  have count : tokenCount other = tokenCount source := by
    simpa using congrArg List.length same
  rw [count, List.map_inj_left] at same
  have upTo (i : Nat) (hi : i ≤ tokenCount source) := same i (List.mem_range.mpr (by omega))
  rcases Nat.le_total n (tokenCount source) with hn | hn
  · exact upTo n hn
  · -- behind the end of the text there is the same end again
    rw [Lexer.nth_of_eof_le (count ▸ kind_nth_tokenCount other lines') hn,
      Lexer.nth_of_eof_le (kind_nth_tokenCount source lines) hn]
    exact upTo _ (Nat.le_refl _)

end Tokens

end GraphQL
