import GraphQL.Proofs.Lexing.Lines
import GraphQL.Proofs.Lexing.Partition

/-!
# What a lexer reports

A lexer can be asked for a token in two ways: `read` answers whenever it is asked, with the end of
the text over and over again, and the iterator's `next` stops answering once it has given the end of
the text. However the two are mixed, every answer is the next token of the text, and the line sink
has been told of just the newlines in front of the place that the lexer has come to. A list and a
file take in what they are told by rules of their own, which come to the same: a file has the start
of the first line besides, and leaves out a line that would start at the end of the text.

Results:
1. `afterCalls_after`, `finished_afterCalls_iff`: where a lexer stands after some calls, what they
   have been answered, and when the iterator has ended.
2. `starts_after`, `file_after`: what a list and a file hold when a text has been read in part.
3. `calls_report`: both together, for every row of calls.
-/

namespace GraphQL

/-- The offsets just past the newline bytes of the text. -/
def newlineEnds (source : String) : List Nat :=
  (newlines source.toByteArray.data.toList).map (· + 1)

namespace Lexer

/-- A way to ask a lexer for a token. -/
inductive Call where
  | read
  | next
  deriving DecidableEq, Repr

section Calls

variable {σ : Type}

/-- The lexer with word on whether the iterator has ended. -/
def setFinished (l : Lexer σ) (b : Bool) : Lexer σ := { l with finished := b }

@[simp] theorem offset_setFinished (l : Lexer σ) (b : Bool) :
    (l.setFinished b).offset = l.offset := rfl

@[simp] theorem lines_setFinished (l : Lexer σ) (b : Bool) :
    (l.setFinished b).lines = l.lines := rfl

@[simp] theorem finished_setFinished (l : Lexer σ) (b : Bool) :
    (l.setFinished b).finished = b := rfl

variable [LineSink σ]

/-- What the lexer answers to a call, and the lexer behind it. -/
def call (l : Lexer σ) : Call → Option SpannedToken × Lexer σ
  | .read => (some l.read.1, l.read.2)
  | .next => l.next

/-- The lexer after some calls. -/
def afterCalls (l : Lexer σ) : List Call → Lexer σ
  | [] => l
  | c :: cs => (l.call c).2.afterCalls cs

/-- What the lexer answers to some calls. -/
def answers (l : Lexer σ) : List Call → List (Option SpannedToken)
  | [] => []
  | c :: cs => (l.call c).1 :: (l.call c).2.answers cs

/-! ## Mixed calls -/

theorem advance_setFinished (l : Lexer σ) (b : Bool) (cs rest : List Char) :
    (l.setFinished b).advance cs rest = (l.advance cs rest).setFinished b := by
  have steps : cs.foldl step (l.setFinished b) = (cs.foldl step l).setFinished b := by
    induction cs generalizing l with
    | nil => rfl
    | cons c cs ih => exact ih (l.step c)
  rw [advance, steps]
  rfl

/-- Reading takes no notice of whether the iterator has ended. -/
theorem read_setFinished (l : Lexer σ) (b : Bool) :
    (l.setFinished b).read = (l.read.1, l.read.2.setFinished b) := by
  rcases span_cases l.rest with ⟨trivia, h⟩ | ⟨trivia, c, cs, h⟩
  · rw [read_of_span_eq_nil h, read_of_span_eq_nil (l := l.setFinished b) h, advance_setFinished,
      offset_setFinished]
  · rw [read_of_span_eq_cons h, read_of_span_eq_cons (l := l.setFinished b) h,
      advance_setFinished, advance_setFinished, offset_setFinished]

theorem next_of_not_finished {l : Lexer σ} (h : l.finished = false) :
    l.next = (some l.read.1, l.read.2.setFinished (l.read.1.token.kind = .eof)) := by
  have going : l.read.2.finished = false := (finished_read l).trans h
  rw [next, h]
  simp [going, setFinished]

theorem next_of_finished {l : Lexer σ} (h : l.finished = true) : l.next = (none, l) := by
  rw [next, if_pos h]

theorem next_eq_none_iff {l : Lexer σ} : l.next.1 = none ↔ l.finished = true := by
  cases h : l.finished with
  | true => simp [next_of_finished h]
  | false => simp [next_of_not_finished h]

/-- One call: the next token of the text, or no answer from an iterator that has ended. -/
theorem call_after (l : Lexer σ) (n : Nat) (b : Bool) (c : Call) :
    ((l.after n).setFinished b).call c = (none, (l.after n).setFinished b) ∨
      ∃ b', ((l.after n).setFinished b).call c =
        (some (l.nth n), (l.after (n + 1)).setFinished b') := by
  have read := read_setFinished (l.after n) b
  cases c with
  | read =>
    refine .inr ⟨b, ?_⟩
    rw [call, read]
    rfl
  | next =>
    cases b with
    | true => exact .inl (next_of_finished rfl)
    | false =>
      refine .inr ⟨(l.nth n).token.kind = .eof, ?_⟩
      rw [call, next_of_not_finished rfl, read]
      rfl

/-- Some calls: as many tokens of the text, one behind the other, as there have been answers. -/
theorem afterCalls_after (l : Lexer σ) (n : Nat) (b : Bool) (calls : List Call) :
    ∃ m b', m ≤ calls.length ∧
      ((l.after n).setFinished b).afterCalls calls = (l.after (n + m)).setFinished b' ∧
      (((l.after n).setFinished b).answers calls).filterMap id =
        (List.range' n m).map l.nth := by
  induction calls generalizing n b with
  | nil => exact ⟨0, b, Nat.le_refl 0, rfl, rfl⟩
  | cons c cs ih =>
    rcases call_after l n b c with silent | ⟨b', answered⟩
    · obtain ⟨m, b'', hm, after, answers⟩ := ih n b
      refine ⟨m, b'', Nat.le_succ_of_le hm, ?_, ?_⟩
      · rw [afterCalls, silent, after]
      · rw [Lexer.answers, silent, List.filterMap_cons_none rfl, answers]
    · obtain ⟨m, b'', hm, after, answers⟩ := ih (n + 1) b'
      refine ⟨m + 1, b'', Nat.succ_le_succ hm, ?_, ?_⟩
      · rw [afterCalls, answered, after, Nat.add_assoc, Nat.add_comm 1 m]
      · rw [Lexer.answers, answered, List.range'_succ, List.map_cons, ← answers]
        rfl

/-- One call ends the iterator if it asks the iterator and is answered with the end of the text. -/
theorem finished_call_iff {l : Lexer σ} {c : Call} :
    (l.call c).2.finished = true ↔ l.finished = true ∨
      c = .next ∧ ∃ t, l.next.1 = some t ∧ t.token.kind = .eof := by
  cases c with
  | read => simp [call, finished_read]
  | next =>
    cases h : l.finished with
    | true => simp [call, next_of_finished h, h]
    | false => simp [call, next_of_not_finished h]

/-- The iterator has ended if one of the calls has ended it. -/
theorem finished_afterCalls_iff {l : Lexer σ} {calls : List Call} :
    (l.afterCalls calls).finished = true ↔ l.finished = true ∨
      ∃ front back, calls = front ++ .next :: back ∧
        ∃ t, (l.afterCalls front).next.1 = some t ∧ t.token.kind = .eof := by
  induction calls generalizing l with
  | nil => simp [afterCalls]
  | cons c cs ih =>
    rw [afterCalls, ih, finished_call_iff, or_assoc]
    refine or_congr_right ⟨?_, ?_⟩
    · rintro (⟨rfl, ended⟩ | ⟨front, back, rfl, ended⟩)
      · exact ⟨[], cs, rfl, ended⟩
      · exact ⟨c :: front, back, rfl, ended⟩
    · rintro ⟨front, back, split, ended⟩
      cases front with
      | nil =>
        obtain ⟨rfl, rfl⟩ := List.cons.inj split
        exact .inl ⟨rfl, ended⟩
      | cons c' front =>
        obtain ⟨rfl, rfl⟩ := List.cons.inj split
        exact .inr ⟨front, back, rfl, ended⟩

/-- The line sink has no part in the answers. -/
theorem answers_eq_of_samePlace {τ : Type} [LineSink τ] {l : Lexer σ} {k : Lexer τ}
    (place : SamePlace l k) (finished : l.finished = k.finished) (calls : List Call) :
    l.answers calls = k.answers calls ∧ SamePlace (l.afterCalls calls) (k.afterCalls calls) := by
  induction calls generalizing l k with
  | nil => exact ⟨rfl, place⟩
  | cons c cs ih =>
    have step : (l.call c).1 = (k.call c).1 ∧ SamePlace (l.call c).2 (k.call c).2 ∧
        (l.call c).2.finished = (k.call c).2.finished := by
      obtain ⟨token, behind⟩ := samePlace_read place
      cases c with
      | read => exact ⟨congrArg some token, behind, by simp [call, finished_read, finished]⟩
      | next =>
        cases h : l.finished with
        | true =>
          rw [call, call, next_of_finished h, next_of_finished (finished ▸ h)]
          exact ⟨rfl, place, finished⟩
        | false =>
          rw [call, call, next_of_not_finished h, next_of_not_finished (finished ▸ h), token]
          exact ⟨rfl, behind, rfl⟩
    obtain ⟨answer, place, finished⟩ := step
    obtain ⟨answers, place⟩ := ih place finished
    exact ⟨by rw [Lexer.answers, Lexer.answers, answer, answers], place⟩

/-- Behind its last answer the iterator stands where the readings of all tokens lead. -/
theorem takeNext_eq_after {l : Lexer σ} {n count : Nat} (fresh : l.finished = false)
    (hc : n < count) (he : (l.nth n).token.kind = .eof)
    (hb : ∀ i, i < n → (l.nth i).token.kind ≠ .eof) :
    (takeNext count l).2 = (l.after (n + 1)).setFinished true := by
  induction n generalizing l count with
  | zero =>
    obtain ⟨count, rfl⟩ : ∃ c, count = c + 1 := ⟨count - 1, by omega⟩
    have last : l.read.1.token.kind = .eof := he
    have done : (takeNext count (l.read.2.setFinished true)).2 = l.read.2.setFinished true := by
      cases count <;> simp [takeNext, next]
    rw [takeNext, next_of_not_finished fresh, decide_eq_true last]
    exact done
  | succ n ih =>
    obtain ⟨count, rfl⟩ : ∃ c, count = c + 1 := ⟨count - 1, by omega⟩
    have shift := nth_read l
    rw [takeNext, next_eq_read fresh (hb 0 (Nat.succ_pos n)), ← Nat.add_comm 1, ← after_after]
    exact ih ((finished_read l).trans fresh) (by omega) (by rw [shift]; exact he) fun i hi => by
      rw [shift]
      exact hb (i + 1) (by omega)

theorem drain_ofSource (source : String) (lines : σ) :
    (ofSource source lines).drain.2 =
      ((ofSource source lines).after (tokenCount source + 1)).setFinished true := by
  have enough : tokenCount source < source.toList.length + 1 := by
    rw [String.length_toList]
    exact Nat.lt_succ_of_le (tokenCount_le_length source)
  exact takeNext_eq_after rfl enough (kind_nth_tokenCount source lines) fun i hi =>
    kind_nth_ne_eof source lines hi

end Calls

end Lexer

/-! ## Line starts -/

section LineStarts

variable (source : String)

theorem lineStarts_toList : lineStarts 0 source.toList = newlineEnds source := by
  rw [lineStarts_eq_map, newlineEnds, data_toByteArray]
  simp only [Nat.zero_add]

theorem pairwise_newlineEnds : (newlineEnds source).Pairwise (· < ·) :=
  lineStarts_toList source ▸ pairwise_lineStarts 0 source.toList

/-- The line starts in a first part of the text are those up to its end. -/
theorem lineStarts_of_append {source : String} {taken rest : List Char}
    (h : source.toList = taken ++ rest) :
    lineStarts 0 taken = (newlineEnds source).filter (· ≤ byteLength taken) := by
  have before : (lineStarts 0 taken).filter (· ≤ byteLength taken) = lineStarts 0 taken := by
    refine List.filter_eq_self.mpr fun s hs => decide_eq_true ?_
    have := (bounds_of_mem_lineStarts hs).2
    omega
  have behind : (lineStarts (0 + byteLength taken) rest).filter (· ≤ byteLength taken) = [] := by
    refine List.filter_eq_nil_iff.mpr fun s hs => ?_
    have := (bounds_of_mem_lineStarts hs).1
    simp only [decide_eq_true_eq]
    omega
  rw [← lineStarts_toList, h, lineStarts_append, List.filter_append, before, behind,
    List.append_nil]

/-- A line would start at the end of the text if a newline ends it. -/
theorem newlineEnds_eq_append :
    newlineEnds source = (newlineEnds source).filter (· < source.utf8ByteSize) ++
      if source.toList.getLast? = some '\n' then [source.utf8ByteSize] else [] := by
  rcases List.eq_nil_or_concat source.toList with none | ⟨front, c, split⟩
  · rw [← lineStarts_toList, none]
    rfl
  · have size : byteLength front + c.utf8Size = source.utf8ByteSize := by
      rw [← byteLength_toList, split, List.concat_eq_append, byteLength_append, byteLength_cons,
        byteLength_nil, Nat.add_zero]
    have positive := c.utf8Size_pos
    have inside : (lineStarts 0 front).filter (· < source.utf8ByteSize) = lineStarts 0 front := by
      refine List.filter_eq_self.mpr fun s hs => decide_eq_true ?_
      have := (bounds_of_mem_lineStarts hs).2
      omega
    rw [← lineStarts_toList, split, List.concat_eq_append, lineStarts_append, List.filter_append,
      inside, List.getLast?_concat, List.append_assoc]
    by_cases newline : c = '\n'
    · simp [lineStarts, newline, ← size]
    · simp [lineStarts, newline]

end LineStarts

/-- A list takes in line starts that are reported in increasing order. -/
theorem LineLog.foldl_addLine {log : LineLog} {starts : List Nat}
    (increasing : starts.Pairwise (· < ·))
    (later : ∀ s ∈ starts, log.starts.back?.all (· < s) = true) :
    starts.foldl addLine log = ⟨log.starts ++ starts.toArray⟩ := by
  induction starts generalizing log with
  | nil => simp
  | cons s starts ih =>
    obtain ⟨first, increasing⟩ := List.pairwise_cons.mp increasing
    have kept : log.addLine s = ⟨log.starts.push s⟩ := if_pos (later s List.mem_cons_self)
    rw [List.foldl_cons, kept, ih increasing (by simpa using first)]
    simp

namespace Lexer

/-- The list of a text that has been read in part holds the line starts that have been reached. -/
theorem starts_after (source : String) (n : Nat) :
    ((ofSource source ({} : LineLog)).after n).lines.starts.toList =
      (newlineEnds source).filter (· ≤ ((ofSource source ({} : LineLog)).after n).offset) := by
  obtain ⟨taken, split, advanced⟩ := exists_advance_after (ofSource source ({} : LineLog)) n
  have offset : ((ofSource source ({} : LineLog)).after n).offset = byteLength taken := by
    rw [advanced, offset_advance]
    exact Nat.zero_add _
  have told : ((ofSource source ({} : LineLog)).after n).lines =
      ⟨#[] ++ (lineStarts 0 taken).toArray⟩ := by
    rw [advanced, lines_advance]
    exact LineLog.foldl_addLine (pairwise_lineStarts 0 taken) fun s _ => rfl
  rw [told, offset, ← lineStarts_of_append split]
  simp

/-- The file of a text that has been read in part has the line starts that have been reached, those
at the end of the text apart. -/
theorem file_after (source : String) {file : File} (fresh : file.lines = #[0]) (n : Nat) :
    ((ofSource source file).after n).lines =
      { file with
        lines := (0 :: (newlineEnds source).filter fun s =>
          s ≤ ((ofSource source file).after n).offset ∧ s < file.size).toArray } := by
  obtain ⟨taken, split, offset, lines⟩ := lines_after source fresh n
  rw [lines, offset, lineStarts_of_append split, List.filter_filter]
  simp [Bool.and_comm]

end Lexer

/-! ## Reports -/

section Reports

variable {σ : Type} [LineSink σ] (source : String) (lines : σ)

/-- The tokens of a text, with its end repeated as often as one likes. -/
theorem sourceTokens_append_replicate (more : Nat) :
    sourceTokens source ++
        List.replicate more ⟨.eof, source.utf8ByteSize, source.utf8ByteSize⟩ =
      (List.range (tokenCount source + 1 + more)).map (Lexer.ofSource source lines).nth := by
  have behind : (List.range more).map
      ((Lexer.ofSource source lines).nth ∘ (tokenCount source + 1 + ·)) =
        List.replicate more ⟨.eof, source.utf8ByteSize, source.utf8ByteSize⟩ := by
    refine List.eq_replicate_iff.mpr ⟨by simp, fun t ht => ?_⟩
    obtain ⟨i, -, rfl⟩ := List.mem_map.mp ht
    rw [Function.comp_apply, ← nth_tokenCount_eq source lines]
    exact Lexer.nth_of_eof_le (kind_nth_tokenCount source lines) (by omega)
  rw [List.range_add, List.map_append, List.map_map, behind, ← sourceTokens_eq_map]

/-- Behind the last token the whole text has been read. -/
theorem after_of_tokenCount_lt {n : Nat} (h : tokenCount source < n) :
    ((Lexer.ofSource source lines).after n).rest = [] ∧
      ((Lexer.ofSource source lines).after n).offset = source.utf8ByteSize := by
  obtain ⟨n, rfl⟩ : ∃ m, n = m + 1 := ⟨n - 1, by omega⟩
  have last : (Lexer.ofSource source lines).nth n =
      ⟨.eof, source.utf8ByteSize, source.utf8ByteSize⟩ := by
    rw [← nth_tokenCount_eq source lines]
    exact Lexer.nth_of_eof_le (kind_nth_tokenCount source lines) (Nat.le_of_lt_succ h)
  rw [Lexer.nth] at last
  rw [Lexer.after_succ, ← Lexer.stop_read, last]
  refine ⟨?_, rfl⟩
  obtain ⟨gap, raw, -, -, -, -, ⟨-, rest, -⟩ | ⟨c, cs, -, -, token⟩⟩ :=
    ((Lexer.ofSource source lines).after n).exists_gap_read
  · exact rest
  · rw [last] at token
    exact absurd (congrArg Token.kind token).symm (Lexeme.kind_scan_ne_eof c cs)

/-- Some calls to a lexer over a text are answered with its first tokens. -/
theorem afterCalls_ofSource (calls : List Lexer.Call) :
    ∃ m b, m ≤ calls.length ∧
      (Lexer.ofSource source lines).afterCalls calls =
        ((Lexer.ofSource source lines).after m).setFinished b ∧
      ((Lexer.ofSource source lines).answers calls).filterMap id =
        (List.range m).map (Lexer.ofSource source lines).nth := by
  obtain ⟨m, b, hm, after, answers⟩ :=
    (Lexer.ofSource source lines).afterCalls_after 0 false calls
  refine ⟨m, b, hm, ?_, ?_⟩
  · rw [Nat.zero_add] at after
    exact after
  · rw [List.range_eq_range']
    exact answers

theorem answers_isPrefix (calls : List Lexer.Call) :
    ((Lexer.ofSource source lines).answers calls).filterMap id <+: sourceTokens source ++
      List.replicate calls.length ⟨.eof, source.utf8ByteSize, source.utf8ByteSize⟩ := by
  obtain ⟨m, b, hm, -, answers⟩ := afterCalls_ofSource source lines calls
  have enough : tokenCount source + 1 + calls.length =
      m + (tokenCount source + 1 + calls.length - m) := by omega
  rw [answers, sourceTokens_append_replicate source lines, enough, List.range_add,
    List.map_append]
  exact List.prefix_append _ _

theorem starts_afterCalls (calls : List Lexer.Call) :
    ((Lexer.ofSource source ({} : LineLog)).afterCalls calls).lines.starts.toList =
      (newlineEnds source).filter
        (· ≤ ((Lexer.ofSource source ({} : LineLog)).afterCalls calls).offset) := by
  obtain ⟨m, b, -, after, -⟩ := afterCalls_ofSource source ({} : LineLog) calls
  rw [after, Lexer.lines_setFinished, Lexer.offset_setFinished]
  exact Lexer.starts_after source m

theorem file_afterCalls {file : File} (fresh : file.lines = #[0]) (calls : List Lexer.Call) :
    ((Lexer.ofSource source file).afterCalls calls).lines =
      { file with
        lines := (0 :: (newlineEnds source).filter fun s =>
          s ≤ ((Lexer.ofSource source file).afterCalls calls).offset ∧
            s < file.size).toArray } := by
  obtain ⟨m, b, -, after, -⟩ := afterCalls_ofSource source file calls
  rw [after, Lexer.lines_setFinished, Lexer.offset_setFinished]
  exact Lexer.file_after source fresh m

/-- Once the end of the text has been given the whole text has been read. -/
theorem offset_afterCalls_of_eof {calls : List Lexer.Call} {t : SpannedToken}
    (given : some t ∈ (Lexer.ofSource source lines).answers calls)
    (eof : t.token.kind = .eof) :
    ((Lexer.ofSource source lines).afterCalls calls).offset = source.utf8ByteSize := by
  obtain ⟨m, b, -, after, answers⟩ := afterCalls_ofSource source lines calls
  have among : t ∈ (List.range m).map (Lexer.ofSource source lines).nth := by
    rw [← answers]
    exact List.mem_filterMap.mpr ⟨some t, given, rfl⟩
  obtain ⟨i, hi, rfl⟩ := List.mem_map.mp among
  have before := List.mem_range.mp hi
  have reached : tokenCount source ≤ i :=
    Nat.le_of_not_lt fun early => kind_nth_ne_eof source lines early eof
  rw [after, Lexer.offset_setFinished]
  exact (after_of_tokenCount_lt source lines (Nat.lt_of_le_of_lt reached before)).2

end Reports

/-- However a lexer is asked for the tokens of a text, by `read` and by the iterator in any mixture:
the answers are the tokens in order, with the end of the text as often as one goes on asking; the
iterator refuses to answer if and only if it has given the end of the text before; a list of line
starts holds just the offsets behind newlines up to where the lexer stands, in increasing order; a
file of the text, which gives the same answers, holds the start of the first line and those of the
offsets that lie inside the text; and when the end of the text has been given the two differ in the
start of the first line and, if the text ends with a newline, in the offset of its end. -/
theorem calls_report (source name : String) (base : Nat) (calls : List Lexer.Call) :
    let file : File := { name, base, size := source.utf8ByteSize }
    let l := Lexer.ofSource source ({} : LineLog)
    let k := Lexer.ofSource source file
    let starts := (l.afterCalls calls).lines.starts.toList
    let table := (k.afterCalls calls).lines.lines.toList
    (l.answers calls).filterMap id <+: sourceTokens source ++
        List.replicate calls.length ⟨.eof, source.utf8ByteSize, source.utf8ByteSize⟩ ∧
      ((l.afterCalls calls).next.1 = none ↔
        ∃ front back, calls = front ++ .next :: back ∧
          ∃ t, (l.afterCalls front).next.1 = some t ∧ t.token.kind = .eof) ∧
      (starts = (newlineEnds source).filter (· ≤ (l.afterCalls calls).offset) ∧
        starts.Pairwise (· < ·)) ∧
      (k.answers calls = l.answers calls ∧
        (k.afterCalls calls).offset = (l.afterCalls calls).offset ∧
        (k.afterCalls calls).lines = { file with lines := table.toArray } ∧
        table = 0 :: starts.filter (· < source.utf8ByteSize)) ∧
      ∀ t, some t ∈ l.answers calls → t.token.kind = .eof →
        (l.afterCalls calls).offset = source.utf8ByteSize ∧
        starts = table.tail ++
          if source.toList.getLast? = some '\n' then [source.utf8ByteSize] else [] := by
  intro file l k starts table
  obtain ⟨sameAnswers, -, sameOffset⟩ : k.answers calls = l.answers calls ∧
      Lexer.SamePlace (k.afterCalls calls) (l.afterCalls calls) :=
    Lexer.answers_eq_of_samePlace (l := k) (k := l) ⟨rfl, rfl⟩ rfl calls
  have told : starts = (newlineEnds source).filter (· ≤ (l.afterCalls calls).offset) :=
    starts_afterCalls source calls
  have filed := file_afterCalls source (show file.lines = #[0] from rfl) calls
  have kept : table = 0 :: starts.filter (· < source.utf8ByteSize) := by
    have lines : table = 0 :: (newlineEnds source).filter fun s =>
        s ≤ (k.afterCalls calls).offset ∧ s < source.utf8ByteSize :=
      congrArg (·.lines.toList) filed
    rw [lines, told, List.filter_filter, sameOffset]
    simp [Bool.and_comm]
  have ended : (l.afterCalls calls).next.1 = none ↔
      ∃ front back, calls = front ++ .next :: back ∧
        ∃ t, (l.afterCalls front).next.1 = some t ∧ t.token.kind = .eof := by
    rw [Lexer.next_eq_none_iff, Lexer.finished_afterCalls_iff]
    exact or_iff_right Bool.noConfusion
  refine ⟨answers_isPrefix source _ calls, ended,
    ⟨told, told ▸ (pairwise_newlineEnds source).filter _⟩,
    ⟨sameAnswers, sameOffset, ?_, kept⟩, ?_⟩
  · change _ = { file with lines := (k.afterCalls calls).lines.lines.toList.toArray }
    rw [Array.toArray_toList, filed]
  · intro t given eof
    have whole : (l.afterCalls calls).offset = source.utf8ByteSize :=
      offset_afterCalls_of_eof source _ given eof
    have all : starts = newlineEnds source := by
      rw [told, whole]
      refine List.filter_eq_self.mpr fun s hs => decide_eq_true ?_
      rw [← lineStarts_toList] at hs
      have := (bounds_of_mem_lineStarts hs).2
      rw [byteLength_toList] at this
      omega
    refine ⟨whole, ?_⟩
    rw [kept, List.tail_cons, all]
    exact newlineEnds_eq_append source

/-- The newlines are at the end of a comment, behind the point of a number and in a string. -/
example :
    let calls : List Lexer.Call := [.next, .read, .next, .next, .next, .read]
    let l := Lexer.ofSource "#\na 1.\n\"x\n" ({} : LineLog)
    let k := Lexer.ofSource "#\na 1.\n\"x\n" ({ name := "", base := 1, size := 10 } : File)
    (l.afterCalls (calls.take 2)).lines.starts = #[2, 7] ∧
      (l.afterCalls calls).lines.starts = #[2, 7, 10] ∧
      (k.afterCalls calls).lines.lines = #[0, 2, 7] ∧
      (l.answers calls).map Option.isSome = [true, true, true, true, false, true] := by
  decide +kernel

end GraphQL
