import GraphQL.Proofs.Lexing.Placement
import GraphQL.Tree.Span

/-!
# The text of a run of tokens

Tokens that stand side by side take a piece of the text, which starts with the lexeme of the first
one and ends with the lexeme of the last one. What the piece has in between is known from the
tokens, apart from trivia.

Results:
1. `rest_read`: the text that one token takes.
2. `text_of_run`, `exists_text_of_tape`: the text that a run of tokens takes.
3. `ending_placed`: a well-formed token ends where it is reckoned to.
-/

namespace GraphQL

/-- The characters `raw` are a lexeme, which is read as the token `t`. It does not start with
trivia. -/
def IsLexeme (raw : List Char) (t : Token) : Prop :=
  ∃ c cs, Trivia.starts c = false ∧ raw = (Lexeme.scan c cs).raw ∧
    t = ⟨(Lexeme.scan c cs).kind, String.ofList (Lexeme.scan c cs).text⟩

/-- What follows trivia does not start with trivia. -/
theorem Trivia.starts_of_span {inComment : Bool} {cs rest : List Char} {c : Char}
    (h : (span inComment cs).2 = c :: rest) : starts c = false := by
  induction cs generalizing inComment with
  | nil => cases h
  | cons d cs ih =>
    simp only [span] at h
    split at h
    · exact ih h
    · split at h
      · exact ih h
      · split at h
        · exact ih h
        · next blank comment =>
          obtain ⟨rfl, -⟩ := List.cons.inj h
          simp [starts, blank, comment]

namespace Lexer

variable {σ : Type} [LineSink σ]

/-- The text that one token takes, and the trivia in front of it. -/
theorem rest_read {l : Lexer σ} (h : l.read.1.token.kind ≠ .eof) :
    ∃ trivia raw, l.rest = trivia ++ raw ++ l.read.2.rest ∧
      l.read.1.start = l.offset + byteLength trivia ∧
      l.read.1.stop = l.read.1.start + byteLength raw ∧ IsLexeme raw l.read.1.token := by
  obtain ⟨gap, raw, span, -, start, stop, ⟨-, -, token⟩ | ⟨c, cs, rfl, rest, token⟩⟩ :=
    l.exists_gap_read
  · exact absurd (congrArg Token.kind token) h
  · refine ⟨gap, _, ?_, start, stop, c, cs, ?_, rfl, token⟩
    · rw [List.append_assoc]
      exact span_append_of_eq span
    · rw [rest, Lexeme.scan_append] at span
      exact Trivia.starts_of_span (congrArg Prod.snd span)

/-- Reading takes characters off the text and counts their bytes. -/
theorem exists_taken_after (l : Lexer σ) (n : Nat) :
    ∃ taken, l.rest = taken ++ (l.after n).rest ∧
      (l.after n).offset = l.offset + byteLength taken := by
  obtain ⟨taken, rest, advanced⟩ := l.exists_advance_after n
  exact ⟨taken, rest, by rw [advanced, offset_advance]⟩

/-- The tokens from `i` up to but not including `j` take a piece of the text that starts with the
lexeme of the first one and ends with the lexeme of the last one. -/
theorem text_of_run (l : Lexer σ) {i j : Nat} (hij : i < j)
    (proper : ∀ n, n < j → (l.nth n).token.kind ≠ .eof) :
    ∃ front text, l.rest = front ++ text ++ (l.after j).rest ∧
      (l.nth i).start = l.offset + byteLength front ∧
      (l.nth (j - 1)).stop = l.offset + byteLength (front ++ text) ∧
      (∃ raw more, text = raw ++ more ∧ IsLexeme raw (l.nth i).token) ∧
      ∃ most raw, text = most ++ raw ∧ IsLexeme raw (l.nth (j - 1)).token := by
  induction hij with
  | refl =>
    obtain ⟨before, hb, ho⟩ := exists_taken_after l i
    obtain ⟨trivia, raw, hr, start, stop, lexeme⟩ := rest_read (proper i (Nat.lt_succ_self i))
    refine ⟨before ++ trivia, raw, ?_, ?_, ?_, ⟨raw, [], by simp, lexeme⟩, [], raw, rfl, lexeme⟩
    · rw [hb, hr]
      simp [after_succ]
    · rw [nth, start, ho, byteLength_append, Nat.add_assoc]
    · rw [Nat.succ_sub_one, nth, stop, start, ho]
      simp [Nat.add_assoc]
  | @step j _ ih =>
    obtain ⟨front, text, hb, start, stop, opens, -⟩ :=
      ih fun n hn => proper n (Nat.lt_succ_of_lt hn)
    obtain ⟨trivia, raw, hr, start', stop', lexeme⟩ := rest_read (proper j (Nat.lt_succ_self j))
    -- the lexer stands where the piece so far ends
    have place : (l.after j).offset = l.offset + byteLength (front ++ text) := by
      have := offset_add_bytes_after l j
      rw [hb, byteLength_append] at this
      omega
    refine ⟨front, text ++ (trivia ++ raw), ?_, start, ?_, ?_, text ++ trivia, raw, ?_, lexeme⟩
    · rw [hb, hr]
      simp [after_succ]
    · rw [Nat.succ_sub_one, nth, stop', start', place]
      simp [Nat.add_assoc]
    · obtain ⟨first, more, rfl, lexeme⟩ := opens
      exact ⟨first, more ++ (trivia ++ raw), by simp, lexeme⟩
    · simp

/-- A well-formed token other than a string takes as many bytes as its text has. -/
theorem stop_eq_start_add (l : Lexer σ) {n : Nat} (proper : (l.nth n).token.kind ≠ .eof)
    (legal : (l.nth n).token.kind ≠ .illegal) (string : (l.nth n).token.kind ≠ .string) :
    (l.nth n).stop = (l.nth n).start + (l.nth n).token.text.utf8ByteSize := by
  obtain ⟨trivia, raw, -, -, stop, c, cs, -, rfl, token⟩ := rest_read proper
  rw [nth, token] at string legal
  rw [nth, stop, token, Lexeme.raw_scan_eq_text string legal, byteLength_ofList]

/-- A well-formed token ends where it is reckoned to. -/
theorem ending_placed (l : Lexer σ) (base : Nat) {n : Nat} (proper : (l.nth n).token.kind ≠ .eof)
    (legal : (l.nth n).token.kind ≠ .illegal) :
    ((l.nth n).placed base).ending = ((l.nth n).placed base).stop := by
  unfold PlacedToken.ending
  split
  · rfl
  · rfl
  · rfl
  · next string =>
    have length := stop_eq_start_add l proper legal string
    have spelling : (l.nth n).token.kind.punctuator?.getD (l.nth n).token.text =
        (l.nth n).token.text := by
      cases hp : (l.nth n).token.kind.punctuator? with
      | none => rfl
      | some text =>
        obtain ⟨trivia, raw, -, -, -, c, cs, -, -, token⟩ := rest_read proper
        rw [nth, token] at hp ⊢
        exact (Lexeme.text_scan_of_punctuator hp).symm
    simp only [SpannedToken.placed, spelling, Pos.advance, length, Nat.add_assoc]

end Lexer

/-- The piece of text that the tokens from `i` up to but not including `j` take. -/
theorem exists_text_of_tape (source : String) (base : Nat) {i j : Nat} (hij : i < j)
    (hj : j ≤ tokenCount source) :
    ∃ front text back, source.toList = front ++ text ++ back ∧
      (tape source base i).pos.raw = base + byteLength front ∧
      (tape source base (j - 1)).stop.raw = base + byteLength (front ++ text) := by
  obtain ⟨front, text, split, start, stop, -, -⟩ :=
    Lexer.text_of_run (Lexer.ofSource source ({} : LineLog)) hij
      fun n hn => kind_nth_ne_eof source ({} : LineLog) (Nat.lt_of_lt_of_le hn hj)
  exact ⟨front, text, _, split, congrArg (base + ·) (start.trans (Nat.zero_add _)),
    congrArg (base + ·) (stop.trans (Nat.zero_add _))⟩

end GraphQL
