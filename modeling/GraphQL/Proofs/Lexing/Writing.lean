import GraphQL.Proofs.Lexing.Slices

/-!
# Writing a text

The tokens of a text up to some place do not change when everything behind them is replaced by
something that starts with trivia. So a text can be broken off behind any well-formed token and
continued with tokens of one's own, each on a line of its own.

Results:
1. `exists_prefix`: the text up to some place, with something else behind it.
2. `nth_written`: the tokens of lines that have been written.
3. `exists_continuation`: a text that starts with tokens of another one and goes on as it likes.
-/

namespace GraphQL

/-- The text is empty or starts with trivia. -/
def Fresh (cs : List Char) : Prop := ∀ c, cs.head? = some c → Trivia.starts c = true

/-- A character either is one more of the trivia or ends it, whatever follows. -/
theorem Trivia.span_cons (inComment : Bool) (c : Char) :
    (∃ next, ∀ cs, span inComment (c :: cs) = (c :: (span next cs).1, (span next cs).2)) ∨
      ∀ cs, span inComment (c :: cs) = ([], c :: cs) := by
  by_cases comment : (inComment && !isControl c) = true
  · exact .inl ⟨true, fun cs => by simp only [span, comment, if_true]⟩
  by_cases blank : isBlank c = true
  · exact .inl ⟨false, fun cs => by
      simp only [span, comment, blank, if_true, Bool.false_eq_true, if_false]⟩
  by_cases mark : c = '#'
  · subst mark
    exact .inl ⟨true, fun cs => by
      simp only [span, comment, blank, if_true, Bool.false_eq_true, if_false]⟩
  · exact .inr fun cs => by
      simp only [span, comment, blank, mark, if_false, Bool.false_eq_true]

/-- Trivia ends at the same place when what follows it goes on with the same character. -/
theorem Trivia.span_replace {inComment : Bool} {cs trivia rest : List Char} {c : Char}
    (h : span inComment cs = (trivia, c :: rest)) (new : List Char) :
    span inComment (trivia ++ c :: new) = (trivia, c :: new) := by
  induction cs generalizing inComment trivia with
  | nil => cases h
  | cons d cs ih =>
    rcases span_cons inComment d with ⟨next, onward⟩ | ends
    · rw [onward] at h
      obtain ⟨rfl, hr⟩ := Prod.mk.inj h
      rw [List.cons_append, onward, ih (Prod.ext rfl hr)]
    · rw [ends] at h
      obtain ⟨rfl, hr⟩ := Prod.mk.inj h
      obtain ⟨rfl, -⟩ := List.cons.inj hr
      exact ends new

theorem Trivia.span_of_not_starts {c : Char} (h : starts c = false) (cs : List Char) :
    span false (c :: cs) = ([], c :: cs) := by
  simp only [starts, Bool.or_eq_false_iff, decide_eq_false_iff_not] at h
  simp [span, h]

theorem Trivia.span_newline (cs : List Char) :
    span false ('\n' :: cs) = ('\n' :: (span false cs).1, (span false cs).2) := rfl

/-- The token `u` is `t`, as far behind the offset `b` as `t` is behind the offset `a`. -/
structure SpannedToken.Displaced (a b : Nat) (t u : SpannedToken) : Prop where
  token : u.token = t.token
  start : u.start + a = t.start + b
  stop : u.stop + a = t.stop + b

theorem SpannedToken.Displaced.symm {a b : Nat} {t u : SpannedToken} (h : Displaced a b t u) :
    Displaced b a u t :=
  ⟨h.token.symm, h.start.symm, h.stop.symm⟩

/-- The distance may be taken between any two offsets that are as far apart. -/
theorem SpannedToken.Displaced.rebase {a b a' b' : Nat} {t u : SpannedToken}
    (h : Displaced a' b' t u) (apart : b' + a = a' + b) : Displaced a b t u :=
  ⟨h.token, by have := h.start; omega, by have := h.stop; omega⟩

namespace Lexer

variable {σ : Type} [LineSink σ]

/-- Reading a lexeme with something else behind it. -/
theorem read_replaced {k : Lexer σ} {trivia cs raw new : List Char} {c : Char}
    (hraw : (Lexeme.scan c cs).raw = c :: raw) (ends : (Lexeme.scan c cs).EndsBefore new)
    (hs : Trivia.span false k.rest = (trivia, c :: (raw ++ new))) :
    k.read.1 = ⟨⟨(Lexeme.scan c cs).kind, String.ofList (Lexeme.scan c cs).text⟩,
        k.offset + byteLength trivia,
        k.offset + byteLength trivia + byteLength (Lexeme.scan c cs).raw⟩ ∧
      k.read.2.rest = new := by
  rw [read_of_span_eq_cons hs, Lexeme.scan_replace hraw ends]
  exact ⟨rfl, rfl⟩

theorem after_read (l : Lexer σ) (n : Nat) : l.read.2.after n = l.after (n + 1) := by
  rw [Nat.add_comm, ← after_after]
  rfl

/-- The text up to a place behind some tokens gives these tokens whatever follows, as long as that
starts with trivia and the text does not end behind a malformed token. The tokens stand as far
behind the start of the text as before. -/
theorem exists_prefix (l : Lexer σ) (i : Nat)
    (proper : ∀ n, n < i → (l.nth n).token.kind ≠ .eof ∧
      ((l.nth n).token.kind = .illegal → (l.after (n + 1)).rest ≠ [])) :
    ∃ taken, l.rest = taken ++ (l.after i).rest ∧
      ∀ (new : List Char) (k : Lexer σ), Fresh new → k.rest = taken ++ new →
        (∀ n, n < i → SpannedToken.Displaced l.offset k.offset (l.nth n) (k.nth n)) ∧
          (k.after i).rest = new := by
  induction i generalizing l with
  | zero => exact ⟨[], rfl, fun new k _ hk => ⟨fun n hn => absurd hn (Nat.not_lt_zero n), hk⟩⟩
  | succ i ih =>
    obtain ⟨text, whole⟩ := proper 0 (Nat.succ_pos i)
    rcases span_cases l.rest with ⟨trivia, hs⟩ | ⟨trivia, c, cs, hs⟩
    · exact absurd (by rw [nth, after_zero, read_of_span_eq_nil hs]; rfl) text
    have first : l.read.1 = ⟨⟨(Lexeme.scan c cs).kind, String.ofList (Lexeme.scan c cs).text⟩,
        l.offset + byteLength trivia,
        l.offset + byteLength trivia + byteLength (Lexeme.scan c cs).raw⟩ := by
      rw [read_of_span_eq_cons hs]
    have behind : l.read.2.rest = (Lexeme.scan c cs).rest := by
      rw [read_of_span_eq_cons hs, rest_advance]
    rw [nth, after_zero, first, after_succ, after_zero, behind] at whole
    obtain ⟨raw, hraw⟩ := Lexeme.scan_raw c cs
    obtain ⟨taken, ht, keep⟩ := ih l.read.2 fun n hn => by
      rw [nth_read, after_read]
      exact proper (n + 1) (Nat.succ_lt_succ hn)
    rw [behind, after_read] at ht
    refine ⟨trivia ++ (c :: raw ++ taken), ?_, fun new k fresh hk => ?_⟩
    · rw [span_append_of_eq hs, ← Lexeme.scan_append c cs, hraw, ht]
      simp
    · -- the first lexeme is followed by the same character as before, or by trivia
      have like : ContinuesLike (Lexeme.scan c cs).rest (taken ++ new) := by
        intro a ha
        cases taken with
        | nil => exact .inr (fresh a ha)
        | cons b taken => exact .inl (by rw [ht]; exact ha)
      have span : Trivia.span false k.rest = (trivia, c :: (raw ++ (taken ++ new))) := by
        have := Trivia.span_replace hs (raw ++ (taken ++ new))
        rw [hk]
        simpa using this
      obtain ⟨same, rest⟩ := read_replaced hraw ⟨fun _ => like, whole⟩ span
      have displaced : SpannedToken.Displaced l.offset k.offset l.read.1 k.read.1 := by
        rw [first, same]
        exact ⟨rfl, by simp only; omega, by simp only; omega⟩
      obtain ⟨others, last⟩ := keep new k.read.2 fresh rest
      rw [after_read] at last
      refine ⟨fun n hn => ?_, last⟩
      cases n with
      | zero => exact displaced
      | succ n =>
        rw [← nth_read, ← nth_read]
        refine (others n (Nat.lt_of_succ_lt_succ hn)).rebase ?_
        rw [← stop_read, ← stop_read]
        exact displaced.stop

end Lexer

/-! ## Lines -/

/-- The token is written as `raw`. -/
def Spelled (t : Token) (raw : List Char) : Prop :=
  ∃ c cs, raw = c :: cs ∧ Trivia.starts c = false ∧ t.kind ≠ .illegal ∧
    Lexeme.scan c cs = ⟨t.kind, t.text.toList, raw, []⟩

/-- Tokens with their spellings, each on a line of its own. -/
def writtenLines (ws : List (Token × List Char)) : List Char := ws.flatMap fun w => '\n' :: w.2

theorem fresh_writtenLines (ws : List (Token × List Char)) : Fresh (writtenLines ws) := by
  intro c hc
  cases ws with
  | nil => cases hc
  | cons w ws =>
    obtain rfl : '\n' = c := Option.some.inj hc
    rfl

namespace Lexer

variable {σ : Type} [LineSink σ]

/-- The tokens of lines that have been written are those that were to be written. -/
theorem nth_written {ws : List (Token × List Char)} (spelled : ∀ w ∈ ws, Spelled w.1 w.2)
    (k : Lexer σ) (hk : k.rest = writtenLines ws) :
    (∀ n (h : n < ws.length), (k.nth n).token = ws[n].1) ∧
      (k.nth ws.length).token.kind = .eof := by
  induction ws generalizing k with
  | nil =>
    have hs : Trivia.span false k.rest = ([], []) := by
      rw [hk]
      rfl
    refine ⟨fun n h => absurd h (Nat.not_lt_zero n), ?_⟩
    rw [List.length_nil, nth, after_zero, read_of_span_eq_nil hs]
    rfl
  | cons w ws ih =>
    obtain ⟨c, cs, hw, starts, legal, scan⟩ := spelled w List.mem_cons_self
    have hs : Trivia.span false k.rest = (['\n'], c :: (cs ++ writtenLines ws)) := by
      have text : k.rest = '\n' :: c :: (cs ++ writtenLines ws) := by
        rw [hk, writtenLines, List.flatMap_cons, hw]
        rfl
      rw [text, Trivia.span_newline, Trivia.span_of_not_starts starts]
    have like : ContinuesLike (Lexeme.scan c cs).rest (writtenLines ws) := by
      intro a ha
      exact .inr (fresh_writtenLines ws a ha)
    have ends := Lexeme.endsBefore_of_legal (by rw [scan]; exact legal) like
    obtain ⟨same, rest⟩ := read_replaced (by rw [scan, hw]) ends hs
    obtain ⟨others, last⟩ := ih (fun w hw => spelled w (List.mem_cons_of_mem _ hw)) k.read.2 rest
    refine ⟨fun n h => ?_, ?_⟩
    · cases n with
      | zero =>
        rw [nth, after_zero, same, scan]
        exact congrArg (Token.mk w.1.kind) String.ofList_toList
      | succ n =>
        rw [← nth_read]
        exact others n (Nat.lt_of_succ_lt_succ h)
    · rw [List.length_cons, ← nth_read]
      exact last

end Lexer

/-- A text that starts with tokens of another one, which are well-formed, and goes on with tokens of
one's own. -/
theorem exists_continuation (source : String) {i : Nat} (hi : i ≤ tokenCount source)
    (legal : ∀ n, n < i → (tape source 0 n).token.kind ≠ .illegal)
    {ws : List (Token × List Char)} (spelled : ∀ w ∈ ws, Spelled w.1 w.2) :
    ∃ new : String, tokenCount new = i + ws.length ∧
      (∀ n, n < i → (tape new 0 n).token = (tape source 0 n).token) ∧
      ∀ n (h : n < ws.length), (tape new 0 (i + n)).token = ws[n].1 := by
  obtain ⟨taken, -, keep⟩ := Lexer.exists_prefix (Lexer.ofSource source ({} : LineLog)) i
    fun n hn => ⟨kind_nth_ne_eof source ({} : LineLog) (by omega), fun h => absurd h (legal n hn)⟩
  have rest : (Lexer.ofSource (String.ofList (taken ++ writtenLines ws)) ({} : LineLog)).rest =
      taken ++ writtenLines ws := String.toList_ofList
  obtain ⟨first, behind⟩ := keep _ _ (fresh_writtenLines ws) rest
  obtain ⟨second, last⟩ := Lexer.nth_written spelled _ behind
  simp only [Lexer.nth_after] at second last
  refine ⟨String.ofList (taken ++ writtenLines ws), ?_, fun n hn => (first n hn).token, second⟩
  refine tokenCount_eq last fun n hn => ?_
  by_cases h : n < i
  · rw [(first n h).token]
    exact kind_nth_ne_eof source ({} : LineLog) (by omega)
  · obtain ⟨m, rfl⟩ : ∃ m, n = i + m := ⟨n - i, by omega⟩
    have hm : m < ws.length := by omega
    obtain ⟨c, cs, -, -, -, scan⟩ := spelled ws[m] (List.getElem_mem hm)
    rw [second m hm]
    have := Lexeme.kind_scan_ne_eof c cs
    rwa [scan] at this

end GraphQL
