import GraphQL.File
import GraphQL.Lexer
import GraphQL.Proofs.Lexing.Scan

/-!
# The sequence of tokens

A lexer that is read again and again gives an infinite sequence of tokens, `nth`, which from some
point on consists of end-of-text tokens only. This module says what one reading does to a lexer and
what follows for the sequence.

Results:
1. `offset_le_start_read`, `start_le_stop_read`, `start_lt_stop_read`: a token starts where the
   lexer stands or behind it, and every token but the end of the text takes at least one byte.
2. `offset_add_bytes_read`: what has been read and what has not add up to the whole text.
3. `exists_first_eof`: the end of the text comes after no more tokens than there are characters.
4. `sourceTokens_eq_map`: the tokens that the iterator gives are those up to the first end.
5. `samePlace_read`: the line sink has no influence on the tokens.
-/

namespace GraphQL

/-- How many bytes the characters take. -/
def byteLength : List Char → Nat
  | [] => 0
  | c :: cs => c.utf8Size + byteLength cs

@[simp] theorem byteLength_nil : byteLength [] = 0 := rfl

@[simp] theorem byteLength_cons (c : Char) (cs : List Char) :
    byteLength (c :: cs) = c.utf8Size + byteLength cs := rfl

@[simp] theorem byteLength_append (cs ds : List Char) :
    byteLength (cs ++ ds) = byteLength cs + byteLength ds := by
  induction cs with
  | nil => simp
  | cons c cs ih => simp [ih, Nat.add_assoc]

theorem byteLength_ofList (cs : List Char) : byteLength cs = (String.ofList cs).utf8ByteSize := by
  induction cs with
  | nil => rw [byteLength_nil, String.ofList_nil, String.utf8ByteSize_empty]
  | cons c cs ih =>
    have split : String.ofList (c :: cs) = String.singleton c ++ String.ofList cs := by
      rw [String.singleton_eq_ofList, ← String.ofList_append]
      rfl
    rw [byteLength_cons, ih, split, String.utf8ByteSize_append, String.utf8ByteSize_singleton]

theorem byteLength_toList (s : String) : byteLength s.toList = s.utf8ByteSize := by
  rw [byteLength_ofList, String.ofList_toList]

namespace Lexer

variable {σ : Type} [LineSink σ]

/-- The lexer after `n` readings. -/
def after (l : Lexer σ) : Nat → Lexer σ
  | 0 => l
  | n + 1 => (l.after n).read.2

/-- The token that is read when `n` tokens have been read before. -/
def nth (l : Lexer σ) (n : Nat) : SpannedToken := (l.after n).read.1

@[simp] theorem after_zero (l : Lexer σ) : l.after 0 = l := rfl

theorem after_succ (l : Lexer σ) (n : Nat) : l.after (n + 1) = (l.after n).read.2 := rfl

theorem after_after (l : Lexer σ) (n m : Nat) : (l.after n).after m = l.after (n + m) := by
  induction m with
  | zero => rfl
  | succ m ih => rw [after_succ, ih, ← Nat.add_assoc, after_succ]

theorem nth_after (l : Lexer σ) (n m : Nat) : (l.after n).nth m = l.nth (n + m) := by
  rw [nth, nth, after_after]

theorem nth_read (l : Lexer σ) (n : Nat) : l.read.2.nth n = l.nth (n + 1) := by
  rw [Nat.add_comm, ← nth_after]
  rfl

/-! ## One reading -/

theorem offset_foldl_step (l : Lexer σ) (cs : List Char) :
    (cs.foldl step l).offset = l.offset + byteLength cs := by
  induction cs generalizing l with
  | nil => rfl
  | cons c cs ih =>
    rw [List.foldl_cons, ih, byteLength_cons, ← Nat.add_assoc]
    rfl

theorem finished_foldl_step (l : Lexer σ) (cs : List Char) :
    (cs.foldl step l).finished = l.finished := by
  induction cs generalizing l with
  | nil => rfl
  | cons c cs ih =>
    rw [List.foldl_cons, ih]
    rfl

@[simp] theorem rest_advance (l : Lexer σ) (cs rest : List Char) :
    (l.advance cs rest).rest = rest := rfl

@[simp] theorem offset_advance (l : Lexer σ) (cs rest : List Char) :
    (l.advance cs rest).offset = l.offset + byteLength cs :=
  offset_foldl_step l cs

@[simp] theorem finished_advance (l : Lexer σ) (cs rest : List Char) :
    (l.advance cs rest).finished = l.finished :=
  finished_foldl_step l cs

theorem foldl_step_with_rest (l : Lexer σ) (cs rest : List Char) :
    cs.foldl step { l with rest := rest } = { cs.foldl step l with rest := rest } := by
  induction cs generalizing l with
  | nil => rfl
  | cons c cs ih => exact ih (l.step c)

theorem advance_advance (l : Lexer σ) (cs ds mid rest : List Char) :
    (l.advance cs mid).advance ds rest = l.advance (cs ++ ds) rest := by
  rw [advance, advance, advance, foldl_step_with_rest, List.foldl_append]

/-- Reading at the end of the text, possibly behind trivia. -/
theorem read_of_span_eq_nil {l : Lexer σ} {trivia : List Char}
    (h : Trivia.span false l.rest = (trivia, [])) :
    l.read = (⟨.eof, l.offset + byteLength trivia, l.offset + byteLength trivia⟩,
      l.advance trivia []) := by
  rw [read, h]
  simp

/-- Reading a lexeme behind trivia. -/
theorem read_of_span_eq_cons {l : Lexer σ} {trivia cs : List Char} {c : Char}
    (h : Trivia.span false l.rest = (trivia, c :: cs)) :
    l.read =
      (⟨⟨(Lexeme.scan c cs).kind, String.ofList (Lexeme.scan c cs).text⟩,
        l.offset + byteLength trivia,
        l.offset + byteLength trivia + byteLength (Lexeme.scan c cs).raw⟩,
      (l.advance trivia (c :: cs)).advance (Lexeme.scan c cs).raw (Lexeme.scan c cs).rest) := by
  rw [read, h]
  simp

/-- Every reading is of one of these two kinds. -/
theorem span_cases (cs : List Char) :
    (∃ trivia, Trivia.span false cs = (trivia, [])) ∨
    ∃ trivia c rest, Trivia.span false cs = (trivia, c :: rest) := by
  obtain ⟨trivia, rest⟩ := Trivia.span false cs
  cases rest with
  | nil => exact .inl ⟨trivia, rfl⟩
  | cons c rest => exact .inr ⟨trivia, c, rest, rfl⟩

theorem span_append_of_eq {cs trivia rest : List Char}
    (h : Trivia.span false cs = (trivia, rest)) : cs = trivia ++ rest := by
  have := Trivia.span_append false cs
  rw [h] at this
  exact this.symm

/-- What one reading takes: a gap, and the lexeme of the token, unless the text ends there. -/
theorem exists_gap_read (l : Lexer σ) :
    ∃ gap raw, Trivia.span false l.rest = (gap, raw ++ l.read.2.rest) ∧
      l.read.2 = l.advance (gap ++ raw) l.read.2.rest ∧
      l.read.1.start = l.offset + byteLength gap ∧
      l.read.1.stop = l.read.1.start + byteLength raw ∧
      ((raw = [] ∧ l.read.2.rest = [] ∧ l.read.1.token = .eof) ∨
        ∃ c cs, raw = (Lexeme.scan c cs).raw ∧ l.read.2.rest = (Lexeme.scan c cs).rest ∧
          l.read.1.token =
            ⟨(Lexeme.scan c cs).kind, String.ofList (Lexeme.scan c cs).text⟩) := by
  rcases span_cases l.rest with ⟨gap, h⟩ | ⟨gap, c, cs, h⟩
  · refine ⟨gap, [], ?_⟩
    rw [read_of_span_eq_nil h, rest_advance, List.append_nil, List.append_nil]
    exact ⟨h, rfl, rfl, rfl, .inl ⟨rfl, rfl, rfl⟩⟩
  · refine ⟨gap, (Lexeme.scan c cs).raw, ?_⟩
    rw [read_of_span_eq_cons h, advance_advance, rest_advance, Lexeme.scan_append]
    exact ⟨h, rfl, rfl, rfl, .inr ⟨c, cs, rfl, rfl, rfl⟩⟩

theorem kind_read_of_span_eq_cons {l : Lexer σ} {trivia cs : List Char} {c : Char}
    (h : Trivia.span false l.rest = (trivia, c :: cs)) : l.read.1.token.kind ≠ .eof := by
  rw [read_of_span_eq_cons h]
  exact Lexeme.kind_scan_ne_eof c cs

theorem offset_le_start_read (l : Lexer σ) : l.offset ≤ l.read.1.start := by
  rcases span_cases l.rest with ⟨trivia, h⟩ | ⟨trivia, c, cs, h⟩
  · simp [read_of_span_eq_nil h]
  · simp [read_of_span_eq_cons h]

theorem start_le_stop_read (l : Lexer σ) : l.read.1.start ≤ l.read.1.stop := by
  rcases span_cases l.rest with ⟨trivia, h⟩ | ⟨trivia, c, cs, h⟩
  · simp [read_of_span_eq_nil h]
  · simp [read_of_span_eq_cons h]

theorem stop_read (l : Lexer σ) : l.read.1.stop = l.read.2.offset := by
  rcases span_cases l.rest with ⟨trivia, h⟩ | ⟨trivia, c, cs, h⟩
  · simp [read_of_span_eq_nil h]
  · simp [read_of_span_eq_cons h]

theorem finished_read (l : Lexer σ) : l.read.2.finished = l.finished := by
  rcases span_cases l.rest with ⟨trivia, h⟩ | ⟨trivia, c, cs, h⟩
  · simp [read_of_span_eq_nil h]
  · simp [read_of_span_eq_cons h]

/-- Every token but the end of the text takes at least one byte. -/
theorem start_lt_stop_read {l : Lexer σ} (h : l.read.1.token.kind ≠ .eof) :
    l.read.1.start < l.read.1.stop := by
  rcases span_cases l.rest with ⟨trivia, hs⟩ | ⟨trivia, c, cs, hs⟩
  · exact absurd (by rw [read_of_span_eq_nil hs]; rfl) h
  · obtain ⟨raw, hraw⟩ := Lexeme.scan_raw c cs
    have := c.utf8Size_pos
    simp only [read_of_span_eq_cons hs, hraw, byteLength_cons]
    omega

/-- What has been read and what has not make up the whole text. -/
theorem offset_add_bytes_read (l : Lexer σ) :
    l.read.2.offset + byteLength l.read.2.rest = l.offset + byteLength l.rest := by
  rcases span_cases l.rest with ⟨trivia, h⟩ | ⟨trivia, c, cs, h⟩
  · have e := span_append_of_eq h
    simp [read_of_span_eq_nil h, e]
  · have e := span_append_of_eq h
    have raw := congrArg byteLength (Lexeme.scan_append c cs)
    rw [byteLength_append] at raw
    simp only [read_of_span_eq_cons h, offset_advance, rest_advance, e, byteLength_append]
    omega

/-- Every token but the end of the text takes a character. -/
theorem length_rest_read_lt {l : Lexer σ} (h : l.read.1.token.kind ≠ .eof) :
    l.read.2.rest.length < l.rest.length := by
  rcases span_cases l.rest with ⟨trivia, hs⟩ | ⟨trivia, c, cs, hs⟩
  · exact absurd (by rw [read_of_span_eq_nil hs]; rfl) h
  · have e := span_append_of_eq hs
    obtain ⟨raw, hraw⟩ := Lexeme.scan_raw c cs
    have := congrArg List.length (Lexeme.scan_append c cs)
    rw [hraw, List.length_append] at this
    rw [read_of_span_eq_cons hs, rest_advance, e, List.length_append]
    simp only [List.length_cons] at this ⊢
    omega

/-- Behind the end of the text there is nothing but the same end again. -/
theorem read_read_of_eof {l : Lexer σ} (h : l.read.1.token.kind = .eof) :
    l.read.1.token = .eof ∧ l.read.2.read = l.read := by
  rcases span_cases l.rest with ⟨trivia, hs⟩ | ⟨trivia, c, cs, hs⟩
  · rw [read_of_span_eq_nil hs]
    refine ⟨rfl, ?_⟩
    have again : Trivia.span false (l.advance trivia []).rest = ([], []) := rfl
    rw [read_of_span_eq_nil again, offset_advance]
    rfl
  · exact absurd h (kind_read_of_span_eq_cons hs)

/-! ## The sequence -/

theorem after_succ_of_eof {l : Lexer σ} {n : Nat} (h : (l.nth n).token.kind = .eof) :
    l.nth (n + 1) = l.nth n ∧ l.after (n + 2) = l.after (n + 1) := by
  have := (read_read_of_eof h).2
  exact ⟨congrArg Prod.fst this, congrArg Prod.snd this⟩

theorem nth_of_eof_le {l : Lexer σ} {n m : Nat} (h : (l.nth n).token.kind = .eof) (hm : n ≤ m) :
    l.nth m = l.nth n := by
  induction hm with
  | refl => rfl
  | step _ ih => rw [(after_succ_of_eof (ih ▸ h)).1, ih]

/-- The end of the text comes after no more tokens than there are characters. -/
theorem exists_first_eof (l : Lexer σ) :
    ∃ n, n ≤ l.rest.length ∧ (l.nth n).token.kind = .eof ∧
      ∀ i, i < n → (l.nth i).token.kind ≠ .eof := by
  by_cases h : l.read.1.token.kind = .eof
  · exact ⟨0, Nat.zero_le _, h, fun i hi => absurd hi (Nat.not_lt_zero i)⟩
  · have shorter := length_rest_read_lt h
    obtain ⟨n, hn, he, hb⟩ := exists_first_eof l.read.2
    have shift := nth_read l
    refine ⟨n + 1, by omega, by rw [← shift]; exact he, fun i hi => ?_⟩
    cases i with
    | zero => exact h
    | succ i =>
      rw [← shift]
      exact hb i (Nat.lt_of_succ_lt_succ hi)
termination_by l.rest.length

theorem start_le_stop_nth (l : Lexer σ) (n : Nat) : (l.nth n).start ≤ (l.nth n).stop :=
  start_le_stop_read (l.after n)

/-- A token ends before any later one starts. -/
theorem stop_nth_le_start_nth (l : Lexer σ) {i j : Nat} (h : i < j) :
    (l.nth i).stop ≤ (l.nth j).start := by
  induction h with
  | refl => exact (stop_read (l.after i)).symm ▸ offset_le_start_read (l.after (i + 1))
  | @step j _ ih =>
    calc (l.nth i).stop ≤ (l.nth j).start := ih
      _ ≤ (l.nth j).stop := l.start_le_stop_nth j
      _ = (l.after (j + 1)).offset := stop_read (l.after j)
      _ ≤ (l.nth (j + 1)).start := offset_le_start_read (l.after (j + 1))

theorem stop_nth_mono (l : Lexer σ) {i j : Nat} (h : i ≤ j) : (l.nth i).stop ≤ (l.nth j).stop := by
  rcases Nat.eq_or_lt_of_le h with rfl | h
  · exact Nat.le_refl _
  · exact Nat.le_trans (stop_nth_le_start_nth l h) (l.start_le_stop_nth j)

theorem offset_add_bytes_after (l : Lexer σ) (n : Nat) :
    (l.after n).offset + byteLength (l.after n).rest = l.offset + byteLength l.rest := by
  induction n with
  | zero => rfl
  | succ n ih => rw [after_succ, offset_add_bytes_read, ih]

/-- Reading moves over the characters that it takes. -/
theorem exists_advance_after (l : Lexer σ) (n : Nat) :
    ∃ taken, l.rest = taken ++ (l.after n).rest ∧
      l.after n = l.advance taken (l.after n).rest := by
  induction n with
  | zero => exact ⟨[], rfl, rfl⟩
  | succ n ih =>
    obtain ⟨before, hb, advanced⟩ := ih
    obtain ⟨gap, raw, span, further, -⟩ := exists_gap_read (l.after n)
    refine ⟨before ++ (gap ++ raw), ?_, ?_⟩
    · rw [hb, span_append_of_eq span, List.append_assoc, List.append_assoc]
      rfl
    · rw [← advance_advance l before (gap ++ raw) (l.after n).rest, ← advanced, after_succ]
      exact further

/-- No token reaches beyond the end of the text. -/
theorem stop_nth_le (l : Lexer σ) (n : Nat) :
    (l.nth n).stop ≤ l.offset + byteLength l.rest := by
  have := offset_add_bytes_after l (n + 1)
  rw [nth, stop_read, ← after_succ]
  omega

/-- The iterator goes on behind every token but the end of the text. -/
theorem next_eq_read {l : Lexer σ} (fresh : l.finished = false)
    (h : l.read.1.token.kind ≠ .eof) : l.next = (some l.read.1, l.read.2) := by
  simp only [next, fresh, Bool.false_eq_true, if_false, h, decide_false, Bool.or_false]

/-- The iterator gives the tokens up to and including the first end of the text. -/
theorem takeNext_eq_map {l : Lexer σ} {n count : Nat} (fresh : l.finished = false)
    (hc : n < count) (he : (l.nth n).token.kind = .eof)
    (hb : ∀ i, i < n → (l.nth i).token.kind ≠ .eof) :
    (takeNext count l).1 = (List.range (n + 1)).map l.nth := by
  induction n generalizing l count with
  | zero =>
    obtain ⟨count, rfl⟩ : ∃ c, count = c + 1 := ⟨count - 1, by omega⟩
    have h0 : l.read.1.token.kind = .eof := he
    -- behind the end of the text the iterator gives nothing
    have done (c : Nat) (k : Lexer σ) (hk : k.finished = true) : (takeNext c k).1 = [] := by
      cases c <;> simp [takeNext, next, hk]
    simp only [takeNext, next, fresh, Bool.false_eq_true, if_false]
    rw [done _ _ (by simp [h0])]
    rfl
  | succ n ih =>
    obtain ⟨count, rfl⟩ : ∃ c, count = c + 1 := ⟨count - 1, by omega⟩
    have h0 : l.read.1.token.kind ≠ .eof := hb 0 (Nat.succ_pos n)
    have shift := nth_read l
    have hrest : (takeNext count l.read.2).1 = (List.range (n + 1)).map l.read.2.nth :=
      ih ((finished_read l).trans fresh) (by omega) (by rw [shift]; exact he)
        (fun i hi => by rw [shift]; exact hb (i + 1) (by omega))
    rw [takeNext, next_eq_read fresh h0]
    simp only [hrest]
    rw [List.range_succ_eq_map (n := n + 1), List.map_cons, List.map_map]
    exact congrArg (l.read.1 :: ·) (List.map_congr_left fun i _ => shift i)

/-! ## The line sink does not matter -/

/-- Two lexers, possibly with different line sinks, stand at the same place of the same text. -/
def SamePlace {τ : Type} (l : Lexer σ) (k : Lexer τ) : Prop :=
  l.rest = k.rest ∧ l.offset = k.offset

theorem samePlace_read {τ : Type} [LineSink τ] {l : Lexer σ} {k : Lexer τ} (h : SamePlace l k) :
    l.read.1 = k.read.1 ∧ SamePlace l.read.2 k.read.2 := by
  obtain ⟨hr, ho⟩ := h
  rcases span_cases l.rest with ⟨trivia, hs⟩ | ⟨trivia, c, cs, hs⟩
  · rw [read_of_span_eq_nil hs, read_of_span_eq_nil (hr ▸ hs)]
    simp [SamePlace, ho]
  · rw [read_of_span_eq_cons hs, read_of_span_eq_cons (hr ▸ hs)]
    simp [SamePlace, ho]

theorem samePlace_after {τ : Type} [LineSink τ] {l : Lexer σ} {k : Lexer τ} (h : SamePlace l k)
    (n : Nat) : SamePlace (l.after n) (k.after n) := by
  induction n with
  | zero => exact h
  | succ n ih => exact (samePlace_read ih).2

theorem nth_eq_of_samePlace {τ : Type} [LineSink τ] {l : Lexer σ} {k : Lexer τ}
    (h : SamePlace l k) (n : Nat) : l.nth n = k.nth n :=
  (samePlace_read (samePlace_after h n)).1

end Lexer

/-! ## The tokens of a text -/

/-- The tokens of a text with their places, the end of the text included. -/
def sourceTokens (source : String) : List SpannedToken :=
  (Lexer.ofSource source ({} : LineLog)).drain.1

/-- How many tokens a text has before its end. -/
def tokenCount (source : String) : Nat := (sourceTokens source).length - 1

section SourceTokens

variable {σ : Type} [LineSink σ] (source : String) (lines : σ)

/-- The tokens of a text are those that any lexer over it reads, up to the end of the text, which
comes after no more tokens than there are characters. -/
theorem sourceTokens_spec :
    sourceTokens source =
        (List.range (tokenCount source + 1)).map (Lexer.ofSource source lines).nth ∧
      tokenCount source ≤ source.length ∧
      ((Lexer.ofSource source lines).nth (tokenCount source)).token.kind = .eof ∧
      ∀ i, i < tokenCount source →
        ((Lexer.ofSource source lines).nth i).token.kind ≠ .eof := by
  obtain ⟨n, hn, he, hb⟩ := Lexer.exists_first_eof (Lexer.ofSource source ({} : LineLog))
  have same (i : Nat) :
      (Lexer.ofSource source ({} : LineLog)).nth i = (Lexer.ofSource source lines).nth i :=
    Lexer.nth_eq_of_samePlace (l := Lexer.ofSource source ({} : LineLog))
      (k := Lexer.ofSource source lines) ⟨rfl, rfl⟩ i
  have h : sourceTokens source =
      (List.range (n + 1)).map (Lexer.ofSource source ({} : LineLog)).nth :=
    Lexer.takeNext_eq_map rfl (Nat.lt_succ_of_le hn) he hb
  have count : tokenCount source = n := by simp [tokenCount, h]
  rw [count, h]
  refine ⟨List.map_congr_left fun i _ => same i, ?_, same n ▸ he, fun i hi => same i ▸ hb i hi⟩
  rw [← String.length_toList]
  exact hn

theorem sourceTokens_eq_map :
    sourceTokens source =
      (List.range (tokenCount source + 1)).map (Lexer.ofSource source lines).nth :=
  (sourceTokens_spec source lines).1

theorem exists_nth_of_mem {t : SpannedToken} (h : t ∈ sourceTokens source) :
    ∃ i, i ≤ tokenCount source ∧ (Lexer.ofSource source lines).nth i = t := by
  rw [sourceTokens_eq_map source lines] at h
  obtain ⟨i, hi, rfl⟩ := List.mem_map.mp h
  exact ⟨i, Nat.le_of_lt_succ (List.mem_range.mp hi), rfl⟩

theorem tokenCount_le_length : tokenCount source ≤ source.length :=
  (sourceTokens_spec source ({} : LineLog)).2.1

theorem kind_nth_tokenCount :
    ((Lexer.ofSource source lines).nth (tokenCount source)).token.kind = .eof :=
  (sourceTokens_spec source lines).2.2.1

theorem kind_nth_ne_eof {i : Nat} (h : i < tokenCount source) :
    ((Lexer.ofSource source lines).nth i).token.kind ≠ .eof :=
  (sourceTokens_spec source lines).2.2.2 i h

/-- The number of tokens is where the end of the text comes first. -/
theorem tokenCount_eq {source : String} {n : Nat}
    (last : ((Lexer.ofSource source ({} : LineLog)).nth n).token.kind = .eof)
    (before : ∀ i, i < n → ((Lexer.ofSource source ({} : LineLog)).nth i).token.kind ≠ .eof) :
    tokenCount source = n := by
  refine Nat.le_antisymm (Nat.le_of_not_lt fun h => ?_) (Nat.le_of_not_lt fun h => ?_)
  · exact kind_nth_ne_eof source ({} : LineLog) h last
  · exact before _ h (kind_nth_tokenCount source ({} : LineLog))

end SourceTokens

end GraphQL
