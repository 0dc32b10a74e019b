import GraphQL.Proofs.Ebnf.Shift
import GraphQL.Proofs.Lexing.Formatting
import GraphQL.Proofs.Lexing.Lines

/-!
# Joining and cutting texts

Two texts with a newline between them have the tokens of the first one and then those of the second
one, as far behind the newline as they were behind the start. The newline keeps the last token of
the first text from going on and ends the comment that it may end with. Likewise the tokens that
stand side by side in a text are those of the piece of text that they take.

Results:
1. `read_skip`, `displaced_nth`: the lexer does not know what it has skipped.
2. `tape_join_left`, `tape_join_right`, `tokenCount_join`: the tokens of joined texts.
3. `tape_cut`, `tokenCount_cut`: the tokens of a piece of text.
4. `textPlace_join`: lines and columns in joined texts.
-/

namespace GraphQL

/-- Trivia that the text ends with is skipped in front of a newline too. -/
theorem Trivia.span_newline_behind {inComment : Bool} {gap : List Char}
    (h : span inComment gap = (gap, [])) (rest : List Char) :
    span inComment (gap ++ '\n' :: rest) =
      (gap ++ '\n' :: (span false rest).1, (span false rest).2) := by
  induction gap generalizing inComment with
  | nil => cases inComment <;> rfl
  | cons c cs ih =>
    rcases span_cons inComment c with ⟨next, onward⟩ | ends
    · rw [onward] at h
      obtain ⟨first, last⟩ := Prod.mk.inj h
      rw [List.cons_append, onward, ih (Prod.ext (List.cons.inj first).2 last)]
      rfl
    · rw [ends] at h
      cases h

/-- Trivia in front of a newline is followed by nothing that goes on with a token. -/
theorem Trivia.fresh_newline_behind {gap : List Char} (h : span false gap = (gap, []))
    (rest : List Char) : Fresh (gap ++ '\n' :: rest) := by
  cases gap with
  | nil =>
    rintro _ ⟨⟩
    rfl
  | cons c cs =>
    rintro _ ⟨⟩
    refine Bool.not_eq_false _ ▸ fun plain => ?_
    rw [span_of_not_starts plain] at h
    cases h

namespace Lexer

variable {σ : Type} [LineSink σ]

/-- Reading is the same from any place in the trivia that it skips at which a comment has ended. -/
theorem read_skip {l : Lexer σ} {front trivia rest : List Char}
    (h : Trivia.span false l.rest = (front ++ trivia, rest))
    (h' : Trivia.span false (trivia ++ rest) = (trivia, rest)) :
    (l.advance front (trivia ++ rest)).read = l.read := by
  have behind : (l.advance front (trivia ++ rest)).rest = trivia ++ rest := rfl
  rw [← behind] at h'
  cases rest with
  | nil =>
    rw [read_of_span_eq_nil h, read_of_span_eq_nil h', advance_advance, offset_advance,
      byteLength_append, Nat.add_assoc]
  | cons c cs =>
    rw [read_of_span_eq_cons h, read_of_span_eq_cons h', advance_advance, advance_advance,
      advance_advance, offset_advance, byteLength_append, Nat.add_assoc, List.append_assoc]

theorem nth_skip {l : Lexer σ} {front trivia rest : List Char}
    (h : Trivia.span false l.rest = (front ++ trivia, rest))
    (h' : Trivia.span false (trivia ++ rest) = (trivia, rest)) (n : Nat) :
    (l.advance front (trivia ++ rest)).nth n = l.nth n := by
  cases n with
  | zero => exact congrArg Prod.fst (read_skip h h')
  | succ n => rw [← nth_read, ← nth_read, read_skip h h']

/-- Reading does not depend on how much has been read before. -/
theorem displaced_read {l k : Lexer σ} (same : k.rest = l.rest) :
    SpannedToken.Displaced l.offset k.offset l.read.1 k.read.1 ∧ k.read.2.rest = l.read.2.rest := by
  rcases span_cases l.rest with ⟨trivia, hs⟩ | ⟨trivia, c, cs, hs⟩
  · rw [read_of_span_eq_nil hs, read_of_span_eq_nil (same ▸ hs)]
    exact ⟨⟨rfl, by simp only; omega, by simp only; omega⟩, rfl⟩
  · rw [read_of_span_eq_cons hs, read_of_span_eq_cons (same ▸ hs)]
    exact ⟨⟨rfl, by simp only; omega, by simp only; omega⟩, rfl⟩

/-- The tokens of what is left of a text do not depend on how much has been read before. -/
theorem displaced_nth {l k : Lexer σ} (same : k.rest = l.rest) (n : Nat) :
    SpannedToken.Displaced l.offset k.offset (l.nth n) (k.nth n) := by
  obtain ⟨first, rest⟩ := displaced_read same
  induction n generalizing l k with
  | zero => exact first
  | succ n ih =>
    rw [← nth_read, ← nth_read]
    obtain ⟨second, rest'⟩ := displaced_read rest
    refine (ih rest second rest').rebase ?_
    rw [← stop_read, ← stop_read]
    exact first.stop

/-- The lexer over two texts with a newline between them reads the tokens of the first one and then
those of the second one. -/
theorem nth_join {l m k : Lexer σ} (text : k.rest = l.rest ++ '\n' :: m.rest) {count : Nat}
    (proper : ∀ n, n < count →
      (l.nth n).token.kind ≠ .eof ∧ (l.nth n).token.kind ≠ .illegal)
    (last : (l.nth count).token.kind = .eof) :
    (∀ n, n < count → SpannedToken.Displaced l.offset k.offset (l.nth n) (k.nth n)) ∧
      ∀ n, SpannedToken.Displaced m.offset (k.offset + byteLength l.rest + 1) (m.nth n)
        (k.nth (count + n)) := by
  obtain ⟨taken, split, keep⟩ := Lexer.exists_prefix l count
    fun n hn => ⟨(proper n hn).1, fun h => absurd h (proper n hn).2⟩
  -- behind the last token of the first text there is trivia alone
  have gap : Trivia.span false (l.after count).rest = ((l.after count).rest, []) := by
    rcases span_cases (l.after count).rest with ⟨trivia, hs⟩ | ⟨trivia, c, cs, hs⟩
    · rw [hs, span_append_of_eq hs, List.append_nil]
    · exact absurd last (kind_read_of_span_eq_cons hs)
  have text' : k.rest = taken ++ ((l.after count).rest ++ '\n' :: m.rest) := by
    rw [text, split, List.append_assoc]
  obtain ⟨first, behind⟩ := keep _ k (Trivia.fresh_newline_behind gap m.rest) text'
  refine ⟨first, fun n => ?_⟩
  -- from there on the lexer might as well have skipped the trivia and the newline already
  have whole := Trivia.span_append false m.rest
  have skip : Trivia.span false (k.after count).rest =
      (((l.after count).rest ++ ['\n']) ++ (Trivia.span false m.rest).1,
        (Trivia.span false m.rest).2) := by
    rw [behind, Trivia.span_newline_behind gap]
    simp
  have skipped := nth_skip skip (by rw [whole]) n
  rw [whole, nth_after] at skipped
  have same : ((k.after count).advance ((l.after count).rest ++ ['\n']) m.rest).rest = m.rest := rfl
  have displaced := displaced_nth same n
  have newline : byteLength ['\n'] = 1 := rfl
  have length := offset_add_bytes_after k count
  rw [skipped, offset_advance, byteLength_append, newline] at displaced
  simp only [behind, text', byteLength_append] at length
  refine displaced.rebase ?_
  rw [split, byteLength_append]
  omega

/-- The lexer over the piece of a text that some tokens take, from where the first one starts to
where the last one ends, reads these tokens and nothing else. -/
theorem nth_cut {l k : Lexer σ} {front text back : List Char}
    (split : l.rest = front ++ (text ++ back)) {i count : Nat}
    (start : (l.nth i).start = l.offset + byteLength front)
    (stop : (l.nth (i + count)).stop = l.offset + byteLength front + byteLength text)
    (proper : ∀ n, n ≤ count →
      (l.nth (i + n)).token.kind ≠ .eof ∧ (l.nth (i + n)).token.kind ≠ .illegal)
    (piece : k.rest = text) :
    (∀ n, n ≤ count → SpannedToken.Displaced (l.offset + byteLength front) k.offset
      (l.nth (i + n)) (k.nth n)) ∧ (k.nth (count + 1)).token.kind = .eof := by
  obtain ⟨trivia, c, cs, hs⟩ :
      ∃ trivia c cs, Trivia.span false (l.after i).rest = (trivia, c :: cs) := by
    rcases span_cases (l.after i).rest with ⟨trivia, hs⟩ | h
    · refine absurd ?_ (proper 0 (Nat.zero_le _)).1
      rw [Nat.add_zero, nth, read_of_span_eq_nil hs]
      rfl
    · exact h
  -- the lexer might as well stand where the first of the tokens starts
  have plain := Trivia.span_of_not_starts
    (Trivia.starts_of_span (congrArg Prod.snd hs)) cs
  have skipped (n : Nat) : ((l.after i).advance trivia (c :: cs)).nth n = l.nth (i + n) := by
    rw [← nth_after]
    have all : Trivia.span false (l.after i).rest = (trivia ++ [], c :: cs) := by
      rw [hs, List.append_nil]
    exact nth_skip all plain n
  have offset : ((l.after i).advance trivia (c :: cs)).offset = l.offset + byteLength front := by
    rw [offset_advance, ← start, nth, read_of_span_eq_cons hs]
  have rest : ((l.after i).advance trivia (c :: cs)).rest = text ++ back := by
    obtain ⟨before, hb, ho⟩ := exists_taken_after l i
    rw [span_append_of_eq hs, ← List.append_assoc] at hb
    refine (append_inj_of_byteLength (hb.symm.trans split) ?_).2
    rw [offset_advance, ho] at offset
    rw [byteLength_append]
    omega
  obtain ⟨taken, ht, keep⟩ := Lexer.exists_prefix ((l.after i).advance trivia (c :: cs)) (count + 1)
    fun n hn => by
      rw [skipped]
      have := proper n (Nat.le_of_lt_succ hn)
      exact ⟨this.1, fun h => absurd h this.2⟩
  have length : byteLength taken = byteLength text := by
    have whole := offset_add_bytes_after ((l.after i).advance trivia (c :: cs)) (count + 1)
    have read : (((l.after i).advance trivia (c :: cs)).nth count).stop =
        (((l.after i).advance trivia (c :: cs)).after (count + 1)).offset := stop_read _
    rw [skipped, stop] at read
    rw [← read, ht, byteLength_append, offset] at whole
    omega
  obtain ⟨rfl, -⟩ := append_inj_of_byteLength (ht.symm.trans rest) length
  have fresh : Fresh [] := fun _ h => absurd h (Option.not_mem_none _)
  obtain ⟨displaced, behind⟩ := keep [] k fresh (by rw [piece, List.append_nil])
  refine ⟨fun n hn => ?_, ?_⟩
  · rw [← skipped, ← offset]
    exact displaced n (Nat.lt_succ_of_le hn)
  · have none : Trivia.span false (k.after (count + 1)).rest = ([], []) := by
      rw [behind]
      rfl
    rw [nth, read_of_span_eq_nil none]
    rfl

end Lexer

/-- Where a token is placed that is as far behind another offset. -/
theorem SpannedToken.Displaced.placed {a b base : Nat} {t u : SpannedToken}
    (h : Displaced a b t u) (positive : 0 < base) :
    u.placed base = (t.placed base).shift ((b : Int) - a) := by
  have moved {m n : Nat} (apart : n + a = m + b) :
      (⟨base + n⟩ : Pos) = (⟨base + m⟩ : Pos).shift ((b : Int) - a) := by
    have behind : 0 < (⟨base + m⟩ : Pos).raw := Nat.lt_of_lt_of_le positive (Nat.le_add_right _ m)
    rw [Pos.shift_of_pos behind, Pos.mk.injEq]
    show base + n = (((base + m : Nat) : Int) + (b - a)).toNat
    omega
  rw [SpannedToken.placed, SpannedToken.placed, PlacedToken.shift, h.token, moved h.start,
    moved h.stop]

/-- The text has no malformed tokens. -/
def WellFormed (source : String) : Prop :=
  ∀ n, n < tokenCount source →
    ((Lexer.ofSource source ({} : LineLog)).nth n).token.kind ≠ .illegal

/-! ## Joining -/

section Join

variable {a b : String} (legal : WellFormed a)

include legal

/-- What the lexer over joined texts reads. -/
theorem nth_join :
    (∀ n, n < tokenCount a → SpannedToken.Displaced 0 0
      ((Lexer.ofSource a ({} : LineLog)).nth n)
      ((Lexer.ofSource (a ++ "\n" ++ b) ({} : LineLog)).nth n)) ∧
    ∀ n, SpannedToken.Displaced 0 (a.utf8ByteSize + 1)
      ((Lexer.ofSource b ({} : LineLog)).nth n)
      ((Lexer.ofSource (a ++ "\n" ++ b) ({} : LineLog)).nth (tokenCount a + n)) := by
  have text : (Lexer.ofSource (a ++ "\n" ++ b) ({} : LineLog)).rest =
      (Lexer.ofSource a ({} : LineLog)).rest ++ '\n' ::
        (Lexer.ofSource b ({} : LineLog)).rest := by
    simp [Lexer.ofSource]
  have joined := Lexer.nth_join text
    (fun n hn => ⟨kind_nth_ne_eof a ({} : LineLog) hn, legal n hn⟩)
    (kind_nth_tokenCount a ({} : LineLog))
  have length : 0 + byteLength (Lexer.ofSource a ({} : LineLog)).rest + 1 =
      a.utf8ByteSize + 1 := by
    rw [Lexer.ofSource, byteLength_toList, Nat.zero_add]
  rw [← length]
  exact joined

theorem tokenCount_join :
    tokenCount (a ++ "\n" ++ b) = tokenCount a + tokenCount b := by
  obtain ⟨first, second⟩ := nth_join (b := b) legal
  refine tokenCount_eq ?_ fun n hn => ?_
  · rw [(second (tokenCount b)).token]
    exact kind_nth_tokenCount b ({} : LineLog)
  · by_cases h : n < tokenCount a
    · rw [(first n h).token]
      exact kind_nth_ne_eof a ({} : LineLog) h
    · obtain ⟨m, rfl⟩ := Nat.exists_eq_add_of_le (Nat.le_of_not_lt h)
      rw [(second m).token]
      exact kind_nth_ne_eof b ({} : LineLog) (by omega)

variable {base : Nat} (positive : 0 < base)

include positive

/-- The tokens of the first text stay where they are. -/
theorem tape_join_left {n : Nat} (h : n < tokenCount a) :
    tape (a ++ "\n" ++ b) base n = tape a base n := by
  have placed := ((nth_join (b := b) legal).1 n h).placed positive
  simpa [tape] using placed

/-- The tokens of the second text come behind them and behind the newline. -/
theorem tape_join_right (n : Nat) :
    tape (a ++ "\n" ++ b) base (tokenCount a + n) =
      (tape b base n).shift ((a.utf8ByteSize + 1 : Nat) : Int) := by
  have placed := ((nth_join (b := b) legal).2 n).placed positive
  simpa [tape] using placed

end Join

/-! ## Cutting -/

/-- The piece of a text that some tokens take has these tokens and no other ones, in front of their
old places by as much as the piece was behind the start of the text. -/
theorem tape_cut {source : String} {base : Nat} (positive : 0 < base)
    {front text back : List Char} (split : source.toList = front ++ (text ++ back)) {i j : Nat}
    (range : i < j ∧ j ≤ tokenCount source) (legal : WellFormed source)
    (start : (tape source base i).pos.raw = base + byteLength front)
    (stop : (tape source base (j - 1)).stop.raw = base + byteLength (front ++ text)) :
    tokenCount (String.ofList text) = j - i ∧
      ∀ n, n < j - i → tape source base (i + n) =
        (tape (String.ofList text) base n).shift (byteLength front) := by
  obtain ⟨count, rfl⟩ : ∃ count, j = i + count + 1 := ⟨j - i - 1, by omega⟩
  have number : i + count + 1 - i = count + 1 := by omega
  have starts : ((Lexer.ofSource source ({} : LineLog)).nth i).start =
      (Lexer.ofSource source ({} : LineLog)).offset + byteLength front :=
    (Nat.add_left_cancel start).trans (Nat.zero_add _).symm
  have stops : ((Lexer.ofSource source ({} : LineLog)).nth (i + count)).stop =
      (Lexer.ofSource source ({} : LineLog)).offset + byteLength front + byteLength text := by
    rw [byteLength_append] at stop
    exact (Nat.add_left_cancel stop).trans (by rw [Lexer.ofSource, Nat.zero_add])
  obtain ⟨displaced, last⟩ := Lexer.nth_cut
    (k := Lexer.ofSource (String.ofList text) ({} : LineLog)) split starts stops
    (fun n hn => ⟨kind_nth_ne_eof source ({} : LineLog) (by omega), legal (i + n) (by omega)⟩)
    String.toList_ofList
  rw [number]
  refine ⟨tokenCount_eq last fun n hn => ?_, fun n hn => ?_⟩
  · rw [(displaced n (Nat.le_of_lt_succ hn)).token]
    exact kind_nth_ne_eof source ({} : LineLog) (by omega)
  · have placed := (displaced n (Nat.le_of_lt_succ hn)).symm.placed positive
    simpa [tape, Lexer.ofSource] using placed

/-! ## Lines -/

theorem lineStarts_add (m n : Nat) (cs : List Char) :
    lineStarts (m + n) cs = (lineStarts n cs).map (m + ·) := by
  induction cs generalizing n with
  | nil => rfl
  | cons c cs ih =>
    simp only [lineStarts, Nat.add_assoc, ih]
    split <;> rfl

theorem length_lineStarts (n : Nat) (cs : List Char) :
    (lineStarts n cs).length = cs.count '\n' := by
  induction cs generalizing n with
  | nil => rfl
  | cons c cs ih =>
    simp only [lineStarts, List.count_cons, beq_iff_eq]
    split <;> simp [ih]

/-- Where the lines of joined texts start, up to an offset in the second one, the first line
apart. -/
theorem newlinesUpTo_join {a b : String} (nonempty : b ≠ "") (offset : Nat) :
    (newlinesUpTo (a ++ "\n" ++ b) (a.utf8ByteSize + 1 + offset)).map (· + 1) =
      lineStarts 0 a.toList ++ (a.utf8ByteSize + 1) ::
        ((newlinesUpTo b offset).map (· + 1)).map (a.utf8ByteSize + 1 + ·) := by
  have positive : 0 < b.utf8ByteSize :=
    Nat.pos_of_ne_zero fun zero => nonempty (String.utf8ByteSize_eq_zero_iff.mp zero)
  have size : (a ++ "\n" ++ b).utf8ByteSize = a.utf8ByteSize + 1 + b.utf8ByteSize := by
    rw [String.utf8ByteSize_append, String.utf8ByteSize_append]
    rfl
  have text : (a ++ "\n" ++ b).toList = a.toList ++ '\n' :: b.toList := by simp
  have newline (n : Nat) (cs : List Char) :
      lineStarts n ('\n' :: cs) = (n + 1) :: lineStarts (n + 1) cs := by
    rw [lineStarts, if_pos rfl]
    rfl
  have first : (lineStarts 0 a.toList).filter (fun s => decide
      (s ≤ a.utf8ByteSize + 1 + offset ∧ s < a.utf8ByteSize + 1 + b.utf8ByteSize)) =
        lineStarts 0 a.toList := by
    refine List.filter_eq_self.mpr fun s hs => ?_
    have bounds := bounds_of_mem_lineStarts hs
    rw [byteLength_toList] at bounds
    simp only [decide_eq_true_eq]
    omega
  have head : decide (a.utf8ByteSize + 1 ≤ a.utf8ByteSize + 1 + offset ∧
      a.utf8ByteSize + 1 < a.utf8ByteSize + 1 + b.utf8ByteSize) = true := by
    simp only [decide_eq_true_eq]
    omega
  have second : lineStarts (a.utf8ByteSize + 1) b.toList =
      (lineStarts 0 b.toList).map (a.utf8ByteSize + 1 + ·) := lineStarts_add _ 0 _
  rw [map_newlinesUpTo, map_newlinesUpTo, text, size, lineStarts_append, byteLength_toList,
    Nat.zero_add, newline, second, List.filter_append, first, List.filter_cons, if_pos head,
    List.filter_map]
  congr 3
  refine List.filter_congr fun s _ => ?_
  simp only [Function.comp_apply, Nat.add_le_add_iff_left, Nat.add_lt_add_iff_left]

/-- The position as many bytes and lines further on, in the same column. -/
def Position.lower (bytes lines : Nat) (p : Position) : Position :=
  { p with offset := p.offset + bytes, line := p.line + lines }

/-- The place of an offset in the second of two joined texts. -/
theorem textPlace_join {a b : String} (nonempty : b ≠ "") (name : String) (offset : Nat) :
    textPlace (a ++ "\n" ++ b) name (a.utf8ByteSize + 1 + offset) =
      (textPlace b name offset).lower (a.utf8ByteSize + 1) (a.toList.count '\n' + 1) := by
  have starts := newlinesUpTo_join (a := a) nonempty offset
  have count : (newlinesUpTo (a ++ "\n" ++ b) (a.utf8ByteSize + 1 + offset)).length =
      (newlinesUpTo b offset).length + a.toList.count '\n' + 1 := by
    have length := congrArg List.length starts
    simp only [List.length_map, List.length_append, List.length_cons, length_lineStarts] at length
    omega
  have last := congrArg (fun starts => starts.getLast?.getD 0) starts
  simp only [List.getLast?_append, List.getLast?_cons, List.getLast?_map] at last
  simp only [textPlace, Position.lower, count, last, Position.mk.injEq, true_and]
  refine ⟨by omega, by omega, ?_⟩
  cases (newlinesUpTo b offset).getLast? with
  | none => simp
  | some n => simp; omega

end GraphQL
