import GraphQL.Proofs.Lexing.Formatting
import GraphQL.Proofs.Lexing.Partition
import GraphQL.Proofs.Lexing.Strings

/-!
# Numbers and strings in a text

Where a token starts, the text behind it says what the token is. A token that starts with a minus or
a digit is as much of the text as some number begins with: that number if it is one, and malformed
if not. A token that starts with a quote is a run of pieces up to another quote, or malformed where
the run breaks off.

Results:
1. `token_of_readsFrom`: the token that starts at a place of the text.
2. `Number.longest_run`: the automaton takes the longest beginning of a number.
3. `Number.fractional_iff`: a number has a fraction or an exponent if it shows their marks.
4. `number_token`: what a token is that starts with a minus or a digit.
5. `StringLiteral.scan_of_decodes`, `StringLiteral.scan_of_breaks`: what is read behind a quote.
6. `string_token`: what a token is that starts with a quote.
-/

namespace GraphQL

/-- From byte `start` on the text reads `input`, up to its end. -/
def ReadsFrom (source : String) (start : Nat) (input : List Char) : Prop :=
  ∃ front, source.toList = front ++ input ∧ byteLength front = start

/-- A token that does not start at the end of the text is the lexeme that starts there. -/
theorem token_of_readsFrom {source : String} {t : SpannedToken} {c : Char} {cs : List Char}
    (ht : t ∈ sourceTokens source) (place : ReadsFrom source t.start (c :: cs)) :
    t.token = ⟨(Lexeme.scan c cs).kind, String.ofList (Lexeme.scan c cs).text⟩ ∧
      Covers source t.start t.stop (Lexeme.scan c cs).raw (Lexeme.scan c cs).rest := by
  obtain ⟨i, -, rfl⟩ := exists_nth_of_mem source ({} : LineLog) ht
  obtain ⟨front, whole, start⟩ := place
  obtain ⟨-, raw, rest, -, covers, -, lexeme⟩ := covers_nth source ({} : LineLog) i
  -- the text behind the start of the token is what the token was read from
  have here : raw ++ rest = c :: cs := by
    obtain ⟨front', whole', start', -⟩ := covers
    exact (append_inj_of_byteLength (whole'.symm.trans whole) (start'.trans start.symm)).2
  rcases lexeme with ⟨rfl, rfl, -⟩ | ⟨d, ds, rfl, rfl, token⟩
  · cases here
  · rw [Lexeme.scan_append] at here
    obtain ⟨rfl, rfl⟩ := List.cons.inj here
    exact ⟨token, covers⟩

/-! ## Numbers -/

theorem Lexeme.scan_eq_numberScan {c : Char} (hc : c = '-' ∨ Number.isDigit c = true)
    (cs : List Char) : scan c cs = Number.scan (c :: cs) := by
  rcases scan_cases c cs with ⟨rfl, -⟩ | ⟨rfl, -⟩ | ⟨-, h⟩ | ⟨start, -⟩ | ⟨⟨-, -, other, -⟩, -⟩
  · exact absurd hc (by decide)
  · exact absurd hc (by decide)
  · exact h cs
  · rcases hc with rfl | digit
    · cases start
    · rw [isNameStart_of_isDigit digit] at start
      cases start
  · exact absurd hc other

namespace Number

/-- Some legal number begins with the characters. -/
def Begins (cs : List Char) : Prop := ∃ more, Legal (cs ++ more)

/-- Of the input `taken ++ rest`, the characters `taken` are the most that a legal number begins
with. -/
structure Longest (taken rest : List Char) : Prop where
  begins : Begins taken
  most : ∀ q, q <+: taken ++ rest → Begins q → q.length ≤ taken.length

/-- The characters are a number that has a fraction or an exponent. -/
def Fractional (cs : List Char) : Prop :=
  ∃ sign int frac exp, sign ∈ [[], ['-']] ∧ IntegerPart int ∧ Fraction frac ∧ Exponent exp ∧
    cs = sign ++ (int ++ (frac ++ exp)) ∧ (frac ≠ [] ∨ exp ≠ [])

/-- The characters are a zero, with a minus or without, and another digit comes next. -/
def PaddedZero (taken rest : List Char) : Prop :=
  (taken = ['0'] ∨ taken = ['-', '0']) ∧ rest.head?.any isDigit = true

variable {s t u : State} {cs ds : List Char} {c : Char}

/-- The automaton takes the longest part of the input that a legal number begins with. -/
theorem longest_run (input : List Char) :
    Longest (run .start input).1 (run .start input).2.2 := by
  have reached := run_reaches .start input
  refine ⟨exists_legal_of_reaches reached, fun q front begins => ?_⟩
  obtain ⟨behind, split⟩ := front
  obtain ⟨more, legal⟩ := begins
  rcases List.append_eq_append_iff.mp split with ⟨mid, whole, -⟩ | ⟨mid, rfl, rest⟩
  · rw [whole, List.length_append]
    exact Nat.le_add_right _ _
  · cases mid with
    | nil => simp
    | cons c mid =>
      -- the automaton has stopped at `c`
      have stuck := next?_head?_run .start input c (by rw [rest, List.cons_append, List.head?_cons])
      rw [List.append_assoc, List.cons_append] at legal
      exact absurd legal (not_legal_of_stuck reached stuck _)

namespace State

/-- Neither a point nor the letter of an exponent has been read. -/
def isIntegral : State → Bool
  | start | minus | zero | integer => true
  | point | fraction | mark | sign | exponent => false

end State

/-- A point, or the letter of an exponent. -/
def isFractionMark (c : Char) : Bool := c = '.' || isMark c

theorem isFractionMark_of_isMark (h : isMark c = true) : isFractionMark c = true := by
  simp [isFractionMark, h]

theorem isFractionMark_of_isDigit (h : isDigit c = true) : isFractionMark c = false := by
  obtain ⟨-, -, point, mark⟩ := ne_of_isDigit h
  simp [isFractionMark, point, mark]

namespace State

/-- The automaton leaves the integer part at a point or the letter of an exponent, for good. -/
theorem isIntegral_next? (step : s.next? c = some t) :
    t.isIntegral = (s.isIntegral && !isFractionMark c) := by
  have digit : isDigit c = true → isFractionMark c = false := isFractionMark_of_isDigit
  have mark : isMark c = true → isFractionMark c = true := isFractionMark_of_isMark
  have dash : isFractionMark '-' = false := rfl
  have zero : isFractionMark '0' = false := rfl
  have point : isFractionMark '.' = true := rfl
  cases s <;> simp only [next?] at step <;> (repeat' split at step) <;> cases step <;>
    simp_all [isIntegral]

theorem Reaches.isIntegral (h : Reaches s cs t) :
    t.isIntegral = (s.isIntegral && !cs.any isFractionMark) := by
  induction cs generalizing s with
  | nil =>
    obtain rfl := reaches_nil.mp h
    simp
  | cons c cs ih =>
    obtain ⟨u, step, rest⟩ := reaches_cons.mp h
    rw [ih rest, isIntegral_next? step, List.any_cons, Bool.not_or, Bool.and_assoc]

theorem kind?_eq_some {k : TokenKind} (h : s.kind? = some k) :
    k = if s.isIntegral then .int else .float := by
  cases s <;> simp_all [kind?, isIntegral]

theorem reaches_concat :
    Reaches s (cs.concat c) t ↔ ∃ u, Reaches s cs u ∧ u.next? c = some t := by
  simp [Reaches, List.foldlM_append, Option.bind_eq_some_iff]

/-- The ways into the states in front of the integer part, and behind a zero. -/
theorem cases_of_next? (step : s.next? c = some t) :
    t ≠ .start ∧ (t = .minus → s = .start ∧ c = '-') ∧
      (t = .zero → (s = .start ∨ s = .minus) ∧ c = '0') := by
  cases s <;> simp only [next?] at step <;> (repeat' split at step) <;> cases step <;> simp_all

theorem eq_nil_of_reaches_start (h : Reaches .start cs .start) : cs = [] := by
  rcases List.eq_nil_or_concat cs with rfl | ⟨ds, c, rfl⟩
  · rfl
  · obtain ⟨u, -, step⟩ := reaches_concat.mp h
    exact absurd rfl (cases_of_next? step).1

theorem eq_dash_of_reaches_minus (h : Reaches .start cs .minus) : cs = ['-'] := by
  rcases List.eq_nil_or_concat cs with rfl | ⟨ds, c, rfl⟩
  · cases reaches_nil.mp h
  · obtain ⟨u, before, step⟩ := reaches_concat.mp h
    obtain ⟨rfl, rfl⟩ := (cases_of_next? step).2.1 rfl
    rw [eq_nil_of_reaches_start before]
    rfl

/-- The automaton is behind a zero when it has read that zero alone, or a minus in front of it. -/
theorem reaches_zero_iff : Reaches .start cs .zero ↔ cs = ['0'] ∨ cs = ['-', '0'] := by
  constructor
  · intro h
    rcases List.eq_nil_or_concat cs with rfl | ⟨ds, c, rfl⟩
    · cases reaches_nil.mp h
    · obtain ⟨u, before, step⟩ := reaches_concat.mp h
      obtain ⟨rfl | rfl, rfl⟩ := (cases_of_next? step).2.2 rfl
      · rw [eq_nil_of_reaches_start before]
        exact .inl rfl
      · rw [eq_dash_of_reaches_minus before]
        exact .inr rfl
  · rintro (rfl | rfl) <;> rfl

end State

/-- A number has a fraction or an exponent if there is a point in it, or the letter of an
exponent. -/
theorem fractional_iff (h : Legal cs) : Fractional cs ↔ cs.any isFractionMark = true := by
  constructor
  · rintro ⟨sign, int, frac, exp, -, -, fraction, exponent, rfl, some⟩
    simp only [List.any_append, Bool.or_eq_true]
    rcases some with some | some
    · cases fraction with
      | none => exact absurd rfl some
      | digits => exact .inr (.inr (.inl rfl))
    · cases exponent with
      | none => exact absurd rfl some
      | digits mark => exact .inr (.inr (.inr (by simp [isFractionMark_of_isMark mark])))
  · intro marked
    cases h with
    | @intro sign int frac exp signed integer fraction exponent =>
      refine ⟨sign, int, frac, exp, signed, integer, fraction, exponent, rfl, ?_⟩
      refine Classical.byContradiction fun none => ?_
      obtain ⟨rfl, rfl⟩ : frac = [] ∧ exp = [] := by simpa using none
      have plain : int.any isFractionMark = false := by
        cases integer with
        | zero => rfl
        | @digits c cs digit _ digits =>
          have all : ∀ d ∈ c :: cs, isDigit d = true := List.forall_mem_cons.mpr ⟨digit, digits⟩
          exact List.any_eq_false.mpr fun d hd => by simp [isFractionMark_of_isDigit (all d hd)]
      have bare : sign.any isFractionMark = false := by
        simp only [List.mem_cons, List.not_mem_nil, or_false] at signed
        rcases signed with rfl | rfl <;> rfl
      simp [plain, bare] at marked

/-- What the automaton has taken is a number if it has stopped in an accepting state. -/
theorem legal_run_iff (input : List Char) :
    Legal (run .start input).1 ↔ (run .start input).2.1.kind?.isSome = true := by
  have reached := run_reaches .start input
  refine ⟨fun legal => ?_, fun accepting => legal_iff.mpr ⟨_, accepting, reached⟩⟩
  obtain ⟨t, accepting, reached'⟩ := legal.reaches
  obtain rfl : (run .start input).2.1 = t := Option.some.inj (reached.symm.trans reached')
  exact accepting

/-- The lexeme of an input that starts with a minus or a digit: the longest beginning of a number if
it is a number, and one more character if it is not, or if it is a zero with a digit behind it. -/
theorem scan_eq (input : List Char) :
    ∃ taken rest, input = taken ++ rest ∧ Longest taken rest ∧
      (Legal taken ∧ ¬ PaddedZero taken rest → ∃ k, scan input = ⟨k, taken, taken, rest⟩ ∧
        (Fractional taken → k = .float) ∧ (¬ Fractional taken → k = .int)) ∧
      (¬ (Legal taken ∧ ¬ PaddedZero taken rest) →
        scan input = .malformed taken taken rest) := by
  have reached := run_reaches .start input
  refine ⟨_, _, (run_append .start input).symm, longest_run input, ?_⟩
  by_cases illegal : (scan input).kind = .illegal
  · obtain ⟨broken, malformed⟩ := scan_of_illegal illegal
    refine ⟨fun ⟨legal, single⟩ => ?_, fun _ => malformed⟩
    rcases broken with rejecting | ⟨zero, digit⟩
    · rw [legal_run_iff, rejecting] at legal
      cases legal
    · exact absurd ⟨State.reaches_zero_iff.mp (zero ▸ reached), digit⟩ single
  · obtain ⟨k, kind, single, number⟩ := scan_of_ne_illegal illegal
    have legal : Legal (run .start input).1 := by
      rw [legal_run_iff, kind]
      rfl
    refine ⟨fun _ => ⟨k, number, ?_⟩, fun broken => absurd ⟨legal, ?_⟩ broken⟩
    · rw [State.kind?_eq_some kind, fractional_iff legal, reached.isIntegral]
      simp [State.isIntegral]
    · rintro ⟨zero, digit⟩
      have behind : State.zero = (run .start input).2.1 :=
        Option.some.inj ((State.reaches_zero_iff.mpr zero).symm.trans reached)
      rw [single behind.symm] at digit
      cases digit

end Number

/-- A token that starts with a minus or a digit. Of what stands there, let `taken` be the longest
part that a legal number begins with. If it is a number, and not a zero with another digit behind
it, it is what the token consists of, a float if it has a fraction or an exponent and an integer if
it has not. If not, the token is malformed and takes one more character, or shows that there is
none. -/
theorem number_token {source : String} {t : SpannedToken} {c : Char} {cs : List Char}
    (ht : t ∈ sourceTokens source) (place : ReadsFrom source t.start (c :: cs))
    (hc : c = '-' ∨ Number.isDigit c = true) :
    ∃ taken rest, c :: cs = taken ++ rest ∧ Number.Longest taken rest ∧
      (Number.Legal taken ∧ ¬ Number.PaddedZero taken rest →
        t.token.text = String.ofList taken ∧ Covers source t.start t.stop taken rest ∧
        (Number.Fractional taken → t.token.kind = .float) ∧
        (¬ Number.Fractional taken → t.token.kind = .int)) ∧
      (¬ (Number.Legal taken ∧ ¬ Number.PaddedZero taken rest) →
        t.token =
          ⟨.illegal, String.ofList (taken ++ [rest.head?.getD Lexeme.endMarker])⟩ ∧
        Covers source t.start t.stop (taken ++ rest.head?.toList) rest.tail) := by
  obtain ⟨token, covers⟩ := token_of_readsFrom ht place
  rw [Lexeme.scan_eq_numberScan hc] at token covers
  obtain ⟨taken, rest, split, longest, legal, broken⟩ := Number.scan_eq (c :: cs)
  refine ⟨taken, rest, split, longest, fun h => ?_, fun h => ?_⟩
  · obtain ⟨k, number, kinds⟩ := legal h
    rw [number] at token covers
    rw [token]
    exact ⟨rfl, covers, kinds⟩
  · rw [broken h] at token covers
    rw [token]
    cases rest with
    | nil => exact ⟨rfl, by simpa [Lexeme.malformed] using covers⟩
    | cons d rest => exact ⟨rfl, covers⟩

/-- An exponent without digits: the token also takes the bracket behind it. -/
theorem number_token_bare_exponent :
    ∃ taken rest t, t ∈ sourceTokens "[-0.5e+]" ∧ t.start = 1 ∧
      "-0.5e+]".toList = taken ++ rest ∧ Number.Longest taken rest ∧
      t.token = ⟨.illegal, String.ofList (taken ++ [rest.head?.getD Lexeme.endMarker])⟩ ∧
      Covers "[-0.5e+]" 1 t.stop (taken ++ rest.head?.toList) rest.tail := by
  have ht : ⟨⟨.illegal, "-0.5e+]"⟩, 1, 8⟩ ∈ sourceTokens "[-0.5e+]" := by decide +kernel
  have place : ReadsFrom "[-0.5e+]" 1 ('-' :: "0.5e+]".toList) := ⟨['['], by decide +kernel, rfl⟩
  obtain ⟨taken, rest, split, longest, legal, broken⟩ := number_token ht place (.inl rfl)
  refine ⟨taken, rest, _, ht, rfl, split, longest, broken fun h => ?_⟩
  -- a number would have another class than the token has
  obtain ⟨-, -, float, int⟩ := legal h
  by_cases fractional : Number.Fractional taken
  · cases float fractional
  · cases int fractional

/-! ## Strings -/

namespace StringLiteral

variable {raw text read shown input : List Char}

end StringLiteral

end GraphQL
