import GraphQL.Proofs.Lexing.Numbers
import GraphQL.Proofs.Lexing.Slices

/-!
# The tokens partition the text

The tokens of a text stand side by side, from its start to its end, with nothing but trivia between
them. Each is cut out of the text between two characters, and except for strings its text is what
has been cut out. Only where the input ends in the middle of a token a mark for the missing rest
comes behind it.

Results:
1. `skips_span`: what is skipped is blanks and comments.
2. `text_scan`: what the text of a lexeme is.
3. `next_drain`: the iterator comes to an end.
4. `tokens_partition`: all of this for the tokens of a text.
-/

namespace GraphQL

/-- `Skips gap rest`: the characters `gap`, behind which `rest` follows, are blanks and comments. A
comment goes on to the first control character other than a tab, or to the end of the input. -/
inductive Trivia.Skips : List Char → List Char → Prop
  | nil {rest : List Char} : Skips [] rest
  | blank {c : Char} {gap rest : List Char} :
      isBlank c = true → Skips gap rest → Skips (c :: gap) rest
  | comment {body gap rest : List Char} :
      (∀ c ∈ body, isControl c = false) →
      (∀ c, (gap ++ rest).head? = some c → isControl c = true) →
      Skips gap rest → Skips ('#' :: (body ++ gap)) rest

namespace Lexeme

/-- How the well-formed tokens other than strings are spelled. -/
inductive Spelling : List Char → Prop
  | spread : Spelling ['.', '.', '.']
  | number {cs : List Char} : Number.Legal cs → Spelling cs
  | name {c : Char} {cs : List Char} :
      isNameStart c = true → (∀ d ∈ cs, isNamePart d = true) → Spelling (c :: cs)
  | punctuator {c : Char} : (TokenKind.ofChar? c).isSome = true → Spelling [c]

/-- Behind the characters `raw` the input ends, although they are only the beginning of a
well-formed token. -/
def CutShort (raw rest : List Char) : Prop := rest = [] ∧ ∃ more, Spelling (raw ++ more)

end Lexeme

/-- The characters `cs` are those of the text from byte `start` up to but not including byte `stop`.
Behind them `rest` follows. -/
def Covers (source : String) (start stop : Nat) (cs rest : List Char) : Prop :=
  ∃ front, source.toList = front ++ (cs ++ rest) ∧ byteLength front = start ∧
    start + byteLength cs = stop

/-- Where the last one of the tokens ends, or the start of the text if there is none. -/
def lastStop (ts : List SpannedToken) : Nat := (ts.getLast?.map (·.stop)).getD 0

/-- The tokens are cut out of the text side by side. -/
structure Partition (source : String) (ts : List SpannedToken) : Prop where
  /-- The last token is the end of the text. All others are not, and they are not empty. -/
  ends : ∃ us, ts = us ++ [⟨.eof, source.utf8ByteSize, source.utf8ByteSize⟩] ∧
    ∀ t ∈ us, t.token.kind ≠ .eof ∧ t.start < t.stop
  ordered : ts.Pairwise fun t u => t.stop ≤ u.start
  /-- Each token starts and ends between two characters. -/
  boundaries : ∀ t ∈ ts, String.Pos.Raw.IsValid source ⟨t.start⟩ ∧
    String.Pos.Raw.IsValid source ⟨t.stop⟩
  /-- In front of each token there is trivia, back to the token before it. -/
  gaps : ∀ us t vs, ts = us ++ t :: vs →
    ∃ gap rest, Covers source (lastStop us) t.start gap rest ∧ Trivia.Skips gap rest
  /-- A name is a letter and more letters and digits, as many as there are. -/
  names : ∀ t ∈ ts, t.token.kind = .name →
    ∃ c cs rest, Covers source t.start t.stop (c :: cs) rest ∧ Lexeme.isNameStart c = true ∧
      (∀ d ∈ cs, Lexeme.isNamePart d = true) ∧
      ∀ d, rest.head? = some d → Lexeme.isNamePart d = false
  /-- Except behind a double quote, the text is what the text of the source has there, with a mark
  behind it if it is malformed because the input ends. -/
  texts : ∀ t ∈ ts, ∃ raw rest, Covers source t.start t.stop raw rest ∧
    (raw.head? ≠ some '\"' →
      (t.token.kind = .illegal ∧ Lexeme.CutShort raw rest →
        t.token.text = String.ofList (raw ++ [Lexeme.endMarker])) ∧
      (¬ (t.token.kind = .illegal ∧ Lexeme.CutShort raw rest) →
        t.token.text = String.ofList raw))

/-! ## Trivia -/

namespace Trivia

/-- What is skipped is blanks and comments. In a comment its rest comes first. -/
theorem skips_span (cs : List Char) :
    Skips (span false cs).1 (span false cs).2 ∧
      ∃ body gap, (span true cs).1 = body ++ gap ∧ (∀ c ∈ body, isControl c = false) ∧
        (∀ c, (gap ++ (span true cs).2).head? = some c → isControl c = true) ∧
        Skips gap (span true cs).2 := by
  induction cs with
  | nil => exact ⟨.nil, [], [], rfl, nofun, nofun, .nil⟩
  | cons c cs ih =>
    obtain ⟨outside, body, gap, inside, plain, ends, behind⟩ := ih
    have first : Skips (span false (c :: cs)).1 (span false (c :: cs)).2 := by
      by_cases blank : isBlank c = true
      · simp only [span, Bool.false_and, Bool.false_eq_true, if_false, blank, if_true]
        exact .blank blank outside
      by_cases mark : c = '#'
      · subst mark
        simp only [span, Bool.false_and, Bool.false_eq_true, if_false, blank, if_true, inside]
        exact .comment plain ends behind
      · simp only [span, Bool.false_and, Bool.false_eq_true, if_false, blank, mark]
        exact .nil
    refine ⟨first, ?_⟩
    by_cases control : isControl c = true
    · -- the comment ends here
      have same : span true (c :: cs) = span false (c :: cs) := by simp [span, control]
      rw [same]
      refine ⟨[], _, rfl, nofun, fun d hd => ?_, first⟩
      rw [span_append] at hd
      exact Option.some.inj hd ▸ control
    · have onward : span true (c :: cs) = (c :: (span true cs).1, (span true cs).2) := by
        simp [span, control]
      rw [onward]
      refine ⟨c :: body, gap, congrArg (c :: ·) inside, ?_, ends, behind⟩
      exact List.forall_mem_cons.mpr ⟨Bool.eq_false_iff.mpr control, plain⟩

end Trivia

/-! ## Lexemes -/

namespace Lexeme

theorem isNameStart_of_isDigit {c : Char} (h : Number.isDigit c = true) :
    isNameStart c = false := by
  have digit : '0' ≤ c ∧ c ≤ '9' := by simpa [Number.isDigit] using h
  have line : c ≠ '_' := by
    rintro rfl
    exact absurd digit.2 (by decide)
  have upper : ¬ 'A' ≤ c := fun h => absurd (Char.le_trans h digit.2) (by decide)
  have lower : ¬ 'a' ≤ c := fun h => absurd (Char.le_trans h digit.2) (by decide)
  simp [isNameStart, upper, lower, line]

theorem ofChar?_ne {c : Char} {k : TokenKind} (h : TokenKind.ofChar? c = some k) :
    k ≠ .illegal ∧ k ≠ .name := by
  unfold TokenKind.ofChar? at h
  split at h <;> cases h <;> decide

theorem starts_of_punctuator {c : Char} (h : (TokenKind.ofChar? c).isSome = true) :
    c ≠ '.' ∧ c ≠ '-' ∧ Number.isDigit c = false := by
  unfold TokenKind.ofChar? at h
  split at h
  any_goals decide
  cases h

/-- A number starts with a minus or a digit. -/
theorem starts_of_legal {c : Char} {cs : List Char} (h : Number.Legal (c :: cs)) :
    c = '-' ∨ Number.isDigit c = true := by
  obtain ⟨t, -, reached⟩ := h.reaches
  obtain ⟨s, step, -⟩ := Number.State.reaches_cons.mp reached
  unfold Number.State.next? at step
  by_cases dash : c = '-'
  · exact .inl dash
  by_cases zero : c = '0'
  · exact .inr (zero ▸ by decide)
  · refine .inr (Classical.byContradiction fun other => ?_)
    simp [dash, zero, other] at step

/-- What a spelling is, by its first character. -/
theorem Spelling.cases_head {c : Char} {cs : List Char} (h : Spelling (c :: cs)) :
    (c = '.' ∧ cs = ['.', '.']) ∨
    ((c = '-' ∨ Number.isDigit c = true) ∧ Number.Legal (c :: cs)) ∨
    isNameStart c = true ∨ (TokenKind.ofChar? c).isSome = true := by
  cases h with
  | spread => exact .inl ⟨rfl, rfl⟩
  | number legal => exact .inr (.inl ⟨starts_of_legal legal, legal⟩)
  | name start _ => exact .inr (.inr (.inl start))
  | punctuator mark => exact .inr (.inr (.inr mark))

/-- A spelling that starts with a minus or a digit is a number. -/
theorem Spelling.legal {c : Char} {cs : List Char} (h : Spelling (c :: cs))
    (hc : c = '-' ∨ Number.isDigit c = true) : Number.Legal (c :: cs) := by
  have other : isNameStart c = false := by
    rcases hc with rfl | digit
    · decide
    · exact isNameStart_of_isDigit digit
  rcases h.cases_head with ⟨rfl, -⟩ | ⟨-, legal⟩ | start | mark
  · exact absurd hc (by decide)
  · exact legal
  · rw [other] at start
    cases start
  · obtain ⟨-, dash, digit⟩ := starts_of_punctuator mark
    rcases hc with rfl | hc
    · exact absurd rfl dash
    · rw [digit] at hc
      cases hc

/-- A spelling that starts with a point is an ellipsis. -/
theorem Spelling.spread_of_head {cs : List Char} (h : Spelling ('.' :: cs)) : cs = ['.', '.'] := by
  rcases h.cases_head with ⟨-, rest⟩ | ⟨number, -⟩ | start | mark
  · exact rest
  · exact absurd number (by decide)
  · cases start
  · cases mark

/-- The text of a lexeme shows what it spans, and a mark where the input ends too early. -/
def ShownAs (x : Lexeme) : Prop :=
  (x.kind = .illegal ∧ CutShort x.raw x.rest ∧ x.text = x.raw ++ [endMarker]) ∨
  (¬ (x.kind = .illegal ∧ CutShort x.raw x.rest) ∧ x.text = x.raw)

/-- A malformed lexeme is shown as it should be if what it has read can be completed, but not when
what comes next is put behind it. -/
theorem shownAs_malformed {raw : List Char} (input : List Char)
    (completable : ∃ more, Spelling (raw ++ more))
    (stuck : ∀ c more, input.head? = some c → ¬ Spelling (raw ++ c :: more)) :
    (malformed raw raw input).ShownAs := by
  cases input with
  | nil => exact .inl ⟨rfl, ⟨rfl, completable⟩, rfl⟩
  | cons c rest =>
    refine .inr ⟨?_, rfl⟩
    rintro ⟨-, -, more, spelled⟩
    refine stuck c more rfl ?_
    simpa [malformed] using spelled

theorem shownAs_of_ne_illegal {x : Lexeme} (legal : x.kind ≠ .illegal) (text : x.text = x.raw) :
    x.ShownAs := .inr ⟨fun h => legal h.1, text⟩

theorem shownAs_scanSpread (cs : List Char) : (scanSpread cs).ShownAs := by
  unfold scanSpread
  split
  · exact shownAs_of_ne_illegal nofun rfl
  · next rest other =>
    refine shownAs_malformed rest ⟨['.'], .spread⟩ fun c more hc spelled => ?_
    obtain ⟨rfl, -⟩ := List.cons.inj (List.cons.inj spelled.spread_of_head).2
    obtain ⟨tail, rfl⟩ := List.head?_eq_some_iff.mp hc
    exact other tail rfl
  · next other =>
    refine shownAs_malformed cs ⟨['.', '.'], .spread⟩ fun c more hc spelled => ?_
    obtain ⟨rfl, -⟩ := List.cons.inj spelled.spread_of_head
    obtain ⟨tail, rfl⟩ := List.head?_eq_some_iff.mp hc
    exact other tail rfl

theorem shownAs_numberScan {c : Char} (hc : c = '-' ∨ Number.isDigit c = true) (cs : List Char) :
    (Number.scan (c :: cs)).ShownAs := by
  have reached := Number.run_reaches .start (c :: cs)
  have stuck := Number.next?_head?_run .start (c :: cs)
  obtain ⟨ds, taken⟩ := Number.exists_run_eq_cons hc cs
  obtain ⟨more, legal⟩ := Number.exists_legal_of_reaches reached
  have broken : (malformed (Number.run .start (c :: cs)).1 (Number.run .start (c :: cs)).1
      (Number.run .start (c :: cs)).2.2).ShownAs := by
    refine shownAs_malformed _ ⟨more, .number legal⟩ fun d more hd spelled => ?_
    refine Number.not_legal_of_stuck reached (stuck d hd) more ?_
    rw [taken] at spelled ⊢
    exact spelled.legal hc
  unfold Number.scan
  simp only
  split
  · next k kind =>
    split
    · exact broken
    · refine shownAs_of_ne_illegal ?_ rfl
      rcases Number.kind?_eq_int_or_float kind with rfl | rfl <;> nofun
  · exact broken

/-- A lexeme that is not a string is shown as it should be. -/
theorem shownAs_scan {c : Char} (quote : c ≠ '\"') (cs : List Char) : (scan c cs).ShownAs := by
  rcases scan_cases c cs with ⟨-, h⟩ | ⟨rfl, -⟩ | ⟨hc, h⟩ | ⟨-, h⟩ | ⟨⟨dot, -, number, name⟩, h⟩
  · rw [h]
    exact shownAs_scanSpread cs
  · exact absurd rfl quote
  · rw [h]
    exact shownAs_numberScan hc cs
  · rw [h]
    exact shownAs_of_ne_illegal (by simp [scanName]) rfl
  · rw [h]
    refine .inr ⟨?_, rfl⟩
    rintro ⟨illegal, -, more, spelled⟩
    -- no spelling starts with such a character
    rcases spelled.cases_head with ⟨rfl, -⟩ | ⟨hc, -⟩ | start | mark
    · exact dot rfl
    · exact number hc
    · rw [name] at start
      cases start
    · obtain ⟨k, hk⟩ := Option.isSome_iff_exists.mp mark
      rw [hk] at illegal
      exact (ofChar?_ne hk).1 illegal

/-- A name is a letter and all the letters and digits behind it. -/
theorem scan_eq_name {c : Char} {cs : List Char} (h : (scan c cs).kind = .name) :
    ∃ ds, (scan c cs).raw = c :: ds ∧ isNameStart c = true ∧ (∀ d ∈ ds, isNamePart d = true) ∧
      ∀ d, (scan c cs).rest.head? = some d → isNamePart d = false := by
  rcases scan_cases c cs with ⟨-, hc⟩ | ⟨-, hc⟩ | ⟨-, hc⟩ | ⟨start, hc⟩ | ⟨-, hc⟩
  · rcases scanSpread_cases cs with ⟨rest, -, spread⟩ | ⟨illegal, -⟩
    · rw [hc, spread] at h
      cases h
    · rw [hc, illegal] at h
      cases h
  · rw [hc, StringLiteral.scan, StringLiteral.kind_behind] at h
    rcases StringLiteral.kind_scanFrom .plain cs with kind | kind
    · rw [kind] at h
      cases h
    · rw [kind] at h
      cases h
  · have legal : (Number.scan (c :: cs)).kind ≠ .illegal := by
      rw [← hc, h]
      decide
    obtain ⟨k, kind, -, number⟩ := Number.scan_of_ne_illegal legal
    rw [hc, number] at h
    obtain rfl : k = .name := h
    rcases Number.kind?_eq_int_or_float kind with h | h <;> cases h
  · have part : isNamePart c = true := by simp [isNamePart, start]
    refine ⟨cs.takeWhile isNamePart, ?_, start, List.all_eq_true.mp List.all_takeWhile, ?_⟩
    · rw [hc, scanName, List.takeWhile_cons_of_pos part]
    · rw [hc, scanName, List.dropWhile_cons_of_pos part]
      exact isNamePart_head?_dropWhile cs
  · rw [hc] at h
    cases hk : TokenKind.ofChar? c with
    | none =>
      rw [hk] at h
      cases h
    | some k =>
      rw [hk] at h
      exact absurd h (ofChar?_ne hk).2

end Lexeme

/-! ## Tokens -/

namespace Lexer

variable {σ : Type} [LineSink σ]

/-- Behind all of its tokens the iterator gives nothing any more. -/
theorem next_takeNext {l : Lexer σ} {n count : Nat} (hc : n < count)
    (he : (l.nth n).token.kind = .eof) :
    (takeNext count l).2.next = (none, (takeNext count l).2) := by
  have ended (c : Nat) {k : Lexer σ} (hk : k.finished = true) :
      (takeNext c k).2.next = (none, (takeNext c k).2) := by
    cases c <;> simp [takeNext, next, hk]
  induction count generalizing l n with
  | zero => omega
  | succ count ih =>
    cases fresh : l.finished with
    | true => exact ended (count + 1) fresh
    | false =>
      by_cases last : l.read.1.token.kind = .eof
      · simp only [takeNext, next, fresh, Bool.false_eq_true, if_false]
        exact ended count (by simp [last])
      · cases n with
        | zero => exact absurd he last
        | succ n =>
          rw [takeNext, next_eq_read fresh last]
          exact ih (Nat.lt_of_succ_lt_succ hc) ((nth_read l n).symm ▸ he)

end Lexer

section Tokens

variable {σ : Type} [LineSink σ] (source : String) (lines : σ)

/-- Where a token stands in the text. -/
theorem covers_nth (i : Nat) :
    ∃ gap raw rest,
      Covers source ((Lexer.ofSource source lines).after i).offset
        ((Lexer.ofSource source lines).nth i).start gap (raw ++ rest) ∧
      Covers source ((Lexer.ofSource source lines).nth i).start
        ((Lexer.ofSource source lines).nth i).stop raw rest ∧
      Trivia.Skips gap (raw ++ rest) ∧
      ((raw = [] ∧ rest = [] ∧ ((Lexer.ofSource source lines).nth i).token = .eof) ∨
        ∃ c cs, raw = (Lexeme.scan c cs).raw ∧ rest = (Lexeme.scan c cs).rest ∧
          ((Lexer.ofSource source lines).nth i).token =
            ⟨(Lexeme.scan c cs).kind, String.ofList (Lexeme.scan c cs).text⟩) := by
  obtain ⟨front, whole, offset⟩ := Lexer.exists_taken_after (Lexer.ofSource source lines) i
  obtain ⟨gap, raw, span, -, start, stop, token⟩ :=
    ((Lexer.ofSource source lines).after i).exists_gap_read
  have skips := (Trivia.skips_span ((Lexer.ofSource source lines).after i).rest).1
  rw [span] at skips
  have text : source.toList =
      front ++ (gap ++ (raw ++ ((Lexer.ofSource source lines).after i).read.2.rest)) :=
    whole.trans (congrArg (front ++ ·) (Lexer.span_append_of_eq span))
  have place : byteLength front = ((Lexer.ofSource source lines).after i).offset := by
    rw [offset]
    exact (Nat.zero_add _).symm
  refine ⟨gap, raw, _, ⟨front, text, place, start.symm⟩, ⟨front ++ gap, ?_, ?_, stop.symm⟩, skips,
    token⟩
  · rw [text, List.append_assoc]
  · rw [byteLength_append, place, ← start]
    rfl

end Tokens

theorem isValid_byteLength {source : String} {front back : List Char}
    (h : source.toList = front ++ back) :
    String.Pos.Raw.IsValid source ⟨byteLength front⟩ := by
  refine String.Pos.Raw.isValid_iff_exists_append.mpr
    ⟨String.ofList front, String.ofList back, ?_, ?_⟩
  · rw [← String.ofList_append, ← h, String.ofList_toList]
  · rw [byteLength_ofList]
    rfl

/-- A piece of the text starts and ends between two characters. -/
theorem Covers.isValid {source : String} {start stop : Nat} {cs rest : List Char}
    (h : Covers source start stop cs rest) :
    String.Pos.Raw.IsValid source ⟨start⟩ ∧ String.Pos.Raw.IsValid source ⟨stop⟩ := by
  obtain ⟨front, whole, rfl, rfl⟩ := h
  refine ⟨isValid_byteLength whole, ?_⟩
  rw [← byteLength_append]
  exact isValid_byteLength (whole.trans (List.append_assoc front cs rest).symm)

section Tokens

variable {σ : Type} [LineSink σ] (source : String) (lines : σ)

/-- The tokens in front of token `i` end where the lexer stands. -/
theorem lastStop_map_range (i : Nat) :
    lastStop ((List.range i).map (Lexer.ofSource source lines).nth) =
      ((Lexer.ofSource source lines).after i).offset := by
  cases i with
  | zero => rfl
  | succ i =>
    rw [lastStop, List.range_succ, List.map_append, List.map_singleton, List.getLast?_concat]
    exact Lexer.stop_read ((Lexer.ofSource source lines).after i)

/-- The end of the text is the token that the iterator gives last. -/
theorem nth_tokenCount_eq :
    (Lexer.ofSource source lines).nth (tokenCount source) =
      ⟨.eof, source.utf8ByteSize, source.utf8ByteSize⟩ := by
  have last := kind_nth_tokenCount source lines
  obtain ⟨gap, raw, rest, -, ⟨front, whole, start, stop⟩, -,
    ⟨rfl, rfl, token⟩ | ⟨c, cs, -, -, token⟩⟩ := covers_nth source lines (tokenCount source)
  · have size : byteLength front = source.utf8ByteSize := by
      rw [← byteLength_toList, whole, List.append_nil, List.append_nil]
    rw [size] at start
    rw [← start] at stop
    generalize (Lexer.ofSource source lines).nth (tokenCount source) = t at token start stop
    obtain ⟨x, i, j⟩ := t
    obtain rfl : x = .eof := token
    obtain rfl : source.utf8ByteSize = i := start
    obtain rfl : source.utf8ByteSize = j := stop
    rfl
  · rw [token] at last
    exact absurd last (Lexeme.kind_scan_ne_eof c cs)

/-- In front of a token there is trivia, back to the token before it. -/
theorem gap_of_append {us vs : List SpannedToken} {t : SpannedToken}
    (h : sourceTokens source = us ++ t :: vs) :
    ∃ gap rest, Covers source (lastStop us) t.start gap rest ∧ Trivia.Skips gap rest := by
  rw [sourceTokens_eq_map source ({} : LineLog), List.range_eq_range'] at h
  obtain ⟨is, js, split, rfl, behind⟩ := List.map_eq_append_iff.mp h
  obtain ⟨i, -, rfl, rfl⟩ := List.range'_eq_append_iff.mp split
  obtain ⟨j, ks, first, rfl, -⟩ := List.map_eq_cons_iff.mp behind
  obtain ⟨rfl, -⟩ := List.range'_eq_cons_iff.mp first
  obtain ⟨gap, raw, rest, covers, -, skips, -⟩ := covers_nth source ({} : LineLog) i
  rw [← List.range_eq_range', lastStop_map_range, Nat.mul_one, Nat.zero_add]
  exact ⟨gap, _, covers, skips⟩

/-- What a lexeme is shown as, in the words of the partition. -/
theorem text_of_shownAs {x : Lexeme} (h : x.ShownAs) :
    (x.kind = .illegal ∧ Lexeme.CutShort x.raw x.rest →
      String.ofList x.text = String.ofList (x.raw ++ [Lexeme.endMarker])) ∧
    (¬ (x.kind = .illegal ∧ Lexeme.CutShort x.raw x.rest) →
      String.ofList x.text = String.ofList x.raw) := by
  rcases h with ⟨illegal, short, text⟩ | ⟨whole, text⟩
  · rw [text]
    exact ⟨fun _ => rfl, fun h => absurd ⟨illegal, short⟩ h⟩
  · rw [text]
    exact ⟨fun h => absurd h whole, fun _ => rfl⟩

/-- The tokens of a text are cut out of it side by side. -/
theorem partition_sourceTokens : Partition source (sourceTokens source) where
  ends := by
    refine ⟨(List.range (tokenCount source)).map (Lexer.ofSource source ({} : LineLog)).nth, ?_, ?_⟩
    · rw [sourceTokens_eq_map source ({} : LineLog), List.range_succ, List.map_append,
        List.map_singleton, nth_tokenCount_eq]
    · intro t ht
      obtain ⟨i, hi, rfl⟩ := List.mem_map.mp ht
      have proper := kind_nth_ne_eof source ({} : LineLog) (List.mem_range.mp hi)
      exact ⟨proper, Lexer.start_lt_stop_read proper⟩
  ordered := by
    rw [sourceTokens_eq_map source ({} : LineLog), List.pairwise_map]
    exact List.pairwise_lt_range.imp fun h => Lexer.stop_nth_le_start_nth _ h
  boundaries t ht := by
    obtain ⟨i, -, rfl⟩ := exists_nth_of_mem source ({} : LineLog) ht
    obtain ⟨gap, raw, rest, -, covers, -⟩ := covers_nth source ({} : LineLog) i
    exact covers.isValid
  gaps us t vs split := gap_of_append source split
  names t ht kind := by
    obtain ⟨i, -, rfl⟩ := exists_nth_of_mem source ({} : LineLog) ht
    obtain ⟨gap, raw, rest, -, covers, -, ⟨-, -, token⟩ | ⟨c, cs, rfl, rfl, token⟩⟩ :=
      covers_nth source ({} : LineLog) i
    · rw [token] at kind
      cases kind
    · rw [token] at kind
      obtain ⟨ds, raw, name⟩ := Lexeme.scan_eq_name kind
      exact ⟨c, ds, _, raw ▸ covers, name⟩
  texts t ht := by
    obtain ⟨i, -, rfl⟩ := exists_nth_of_mem source ({} : LineLog) ht
    obtain ⟨gap, raw, rest, -, covers, -, ⟨rfl, -, token⟩ | ⟨c, cs, rfl, rfl, token⟩⟩ :=
      covers_nth source ({} : LineLog) i
    · refine ⟨[], rest, covers, fun _ => ?_⟩
      rw [token]
      exact ⟨fun h => absurd h.1 (by decide), fun _ => rfl⟩
    · refine ⟨_, _, covers, fun quote => ?_⟩
      obtain ⟨raw, first⟩ := Lexeme.scan_raw c cs
      have other : c ≠ '\"' := fun h => quote (by rw [first, h, List.head?_cons])
      rw [token]
      exact text_of_shownAs (Lexeme.shownAs_scan other cs)

/-- The iterator over the tokens of a text comes to an end. The tokens that it has given, whoever is
told of the lines, are cut out of the text side by side with nothing but trivia in between, and
their texts are what they are cut out of. -/
theorem tokens_partition :
    ∃ ts l, (Lexer.ofSource source lines).drain = (ts, l) ∧ l.next = (none, l) ∧
      Partition source ts := by
  have last := kind_nth_tokenCount source lines
  have enough : tokenCount source < source.toList.length + 1 := by
    rw [String.length_toList]
    exact Nat.lt_succ_of_le (tokenCount_le_length source)
  have all : (Lexer.ofSource source lines).drain.1 = sourceTokens source :=
    (Lexer.takeNext_eq_map rfl enough last fun i hi => kind_nth_ne_eof source lines hi).trans
      (sourceTokens_eq_map source lines).symm
  exact ⟨sourceTokens source, (Lexer.ofSource source lines).drain.2, by rw [← all],
    Lexer.next_takeNext enough last, partition_sourceTokens source⟩

end Tokens

end GraphQL
