import GraphQL.Lexeme.Scan

/-!
# One lexeme

What scanning one lexeme gives, apart from losing nothing. A lexeme takes the character that it
starts with, so reading makes progress, and it is never the end of the text. A well-formed lexeme
does not depend on what stands behind it, as long as that does not go on with a character that
would have made it longer, and a malformed one not at all, unless it breaks off where the input
ends. `scan_replace` says so for the first character of the old rest and for every character that
starts trivia.
-/

namespace GraphQL

/-- Trivia may start with this character. -/
def Trivia.starts (c : Char) : Bool := isBlank c || c = '#'

/-- The input `new` goes on like the input `old`, or with trivia, or ends. -/
def ContinuesLike (old new : List Char) : Prop :=
  ∀ a, new.head? = some a → old.head? = some a ∨ Trivia.starts a = true

/-- The lexeme ends where it does also when `new` stands behind it: if it is well-formed, `new` does
not make it longer, and if it is malformed, it is not the end of the input that it breaks off at. -/
structure Lexeme.EndsBefore (x : Lexeme) (new : List Char) : Prop where
  like : x.kind ≠ .illegal → ContinuesLike x.rest new
  whole : x.kind = .illegal → x.rest ≠ []

theorem Lexeme.endsBefore_of_legal {x : Lexeme} {new : List Char} (legal : x.kind ≠ .illegal)
    (like : ContinuesLike x.rest new) : x.EndsBefore new :=
  ⟨fun _ => like, fun illegal => absurd illegal legal⟩

theorem Lexeme.kind_malformed (text raw input : List Char) :
    (malformed text raw input).kind = .illegal := by
  cases input <;> rfl

theorem starts_cases {c : Char} (h : Trivia.starts c = true) :
    c = '\uFEFF' ∨ c = '\t' ∨ c = ' ' ∨ c = '\r' ∨ c = '\n' ∨ c = ',' ∨ c = '#' := by
  simpa [Trivia.starts, Trivia.isBlank, or_assoc] using h

/-! ## Numbers -/

namespace Number

theorem next?_of_starts (s : State) {c : Char} (h : Trivia.starts c = true) :
    s.next? c = none := by
  rcases starts_cases h with rfl | rfl | rfl | rfl | rfl | rfl | rfl <;> cases s <;> rfl

theorem isDigit_of_starts {c : Char} (h : Trivia.starts c = true) : isDigit c = false := by
  rcases starts_cases h with rfl | rfl | rfl | rfl | rfl | rfl | rfl <;> rfl

/-- The automaton stops where it cannot go on. -/
theorem next?_head?_run (s : State) (cs : List Char) :
    ∀ a, (run s cs).2.2.head? = some a → (run s cs).2.1.next? a = none := by
  induction cs generalizing s with
  | nil => simp [run]
  | cons c cs ih =>
    simp only [run]
    split
    · next t ht => exact ih t
    · next ht =>
      intro a ha
      rw [List.head?_cons, Option.some.injEq] at ha
      exact ha ▸ ht

/-- The automaton takes the same characters if it cannot go on behind them. -/
theorem run_replace (s : State) (cs rest : List Char)
    (h : ∀ a, rest.head? = some a → (run s cs).2.1.next? a = none) :
    run s ((run s cs).1 ++ rest) = ((run s cs).1, (run s cs).2.1, rest) := by
  induction cs generalizing s with
  | nil =>
    cases rest with
    | nil => rfl
    | cons a rest =>
      have stop : s.next? a = none := h a rfl
      simp [run, stop]
  | cons c cs ih =>
    cases hc : s.next? c with
    | some t =>
      have h' : ∀ a, rest.head? = some a → (run t cs).2.1.next? a = none := by
        simpa only [run, hc] using h
      simp only [run, hc, List.cons_append, ih t h']
    | none =>
      -- nothing has been taken, and nothing of the new text can be taken either
      have h' : ∀ a, rest.head? = some a → s.next? a = none := by
        simpa only [run, hc] using h
      cases rest with
      | nil => simp [run, hc]
      | cons a rest => simp [run, hc, h' a rfl]

/-- The automaton takes the character that a number starts with. -/
theorem exists_run_eq_cons {c : Char} (hc : c = '-' ∨ isDigit c = true) (cs : List Char) :
    ∃ ds, (run .start (c :: cs)).1 = c :: ds := by
  have moves : ∃ s, State.start.next? c = some s := by
    unfold State.next?
    rcases hc with rfl | digit
    · exact ⟨_, rfl⟩
    · by_cases dash : c = '-'
      · exact ⟨.minus, by simp [dash]⟩
      by_cases zero : c = '0'
      · exact ⟨.zero, by simp [zero]⟩
      · exact ⟨.integer, by simp [dash, zero, digit]⟩
  obtain ⟨s, step⟩ := moves
  exact ⟨(run s cs).1, by simp [run, step]⟩

theorem kind?_eq_int_or_float {s : State} {k : TokenKind} (h : s.kind? = some k) :
    k = .int ∨ k = .float := by
  cases s <;> simp_all [State.kind?]

/-- A well-formed number is the run of the automaton and is of the class of its last state. -/
theorem scan_of_ne_illegal {input : List Char} (legal : (scan input).kind ≠ .illegal) :
    ∃ k, (run .start input).2.1.kind? = some k ∧
      ((run .start input).2.1 = .zero → (run .start input).2.2.head?.any isDigit = false) ∧
      scan input = ⟨k, (run .start input).1, (run .start input).1, (run .start input).2.2⟩ := by
  unfold scan at legal ⊢
  cases hk : (run .start input).2.1.kind? with
  | none => simp [hk, Lexeme.kind_malformed] at legal
  | some k =>
    by_cases hz : (run .start input).2.1 = .zero ∧ (run .start input).2.2.head?.any isDigit = true
    · simp [hz.1, hz.2, State.kind?, Lexeme.kind_malformed] at legal
    · refine ⟨k, rfl, fun h0 => by simpa [h0] using hz, ?_⟩
      simp only [hk]
      rw [if_neg (by simpa using hz)]

/-- A malformed number breaks off at the character that the automaton does not take. -/
theorem scan_of_illegal {input : List Char} (illegal : (scan input).kind = .illegal) :
    ((run .start input).2.1.kind? = none ∨
      (run .start input).2.1 = .zero ∧ (run .start input).2.2.head?.any isDigit = true) ∧
      scan input =
        .malformed (run .start input).1 (run .start input).1 (run .start input).2.2 := by
  unfold scan at illegal ⊢
  cases hk : (run .start input).2.1.kind? with
  | none => simp [hk]
  | some k =>
    by_cases hz : (run .start input).2.1 = .zero ∧ (run .start input).2.2.head?.any isDigit = true
    · simp [hz.1, hz.2, State.kind?]
    · simp only [hk] at illegal
      rw [if_neg (by simpa using hz)] at illegal
      obtain rfl : k = .illegal := illegal
      rcases kind?_eq_int_or_float hk with h | h <;> cases h

theorem scan_replace {input rest : List Char} (ends : (scan input).EndsBefore rest) :
    scan ((scan input).raw ++ rest) = { scan input with rest := rest } := by
  by_cases illegal : (scan input).kind = .illegal
  · have whole := ends.whole illegal
    obtain ⟨broken, he⟩ := scan_of_illegal illegal
    rw [he] at whole ⊢
    obtain ⟨d, ds, hr⟩ : ∃ d ds, (run .start input).2.2 = d :: ds := by
      cases hr : (run .start input).2.2 with
      | nil => simp [hr, Lexeme.malformed] at whole
      | cons d ds => exact ⟨d, ds, rfl⟩
    rw [hr] at broken ⊢
    -- the character at which it has broken belongs to it
    have stop : ∀ a, (d :: rest).head? = some a → (run .start input).2.1.next? a = none := by
      rintro _ ⟨⟩
      exact next?_head?_run .start input d (by rw [hr, List.head?_cons])
    have hrun := run_replace .start input (d :: rest) stop
    have text : (run .start input).1 ++ [d] ++ rest = (run .start input).1 ++ d :: rest := by simp
    simp only [Lexeme.malformed, text]
    unfold scan
    simp only [hrun]
    rcases broken with none | ⟨zero, digit⟩
    · simp only [none, Lexeme.malformed]
    · simp only [List.head?_cons, Option.any_some] at digit
      simp [zero, State.kind?, digit, Lexeme.malformed]
  · obtain ⟨k, hk, hz, he⟩ := scan_of_ne_illegal illegal
    have like := ends.like illegal
    rw [he] at like ⊢
    have stop : ∀ a, rest.head? = some a → (run .start input).2.1.next? a = none := by
      intro a ha
      rcases like a ha with h | h
      · exact next?_head?_run .start input a h
      · exact next?_of_starts _ h
    have noDigit : (run .start input).2.1 = .zero → rest.head?.any isDigit = false := by
      intro h0
      cases ha : rest.head? with
      | none => rfl
      | some a =>
        rcases like a ha with h | h
        · simpa [h] using hz h0
        · simpa using isDigit_of_starts h
    have hrun := run_replace .start input rest stop
    unfold scan
    simp only [hrun, hk]
    rw [if_neg (by simpa using noDigit)]

end Number

/-! ## Strings -/

namespace StringLiteral

@[simp] theorem kind_behind (read shown : List Char) (x : Lexeme) :
    (x.behind read shown).kind = x.kind := rfl

theorem kind_scanFrom (s : State) (cs : List Char) :
    (scanFrom s cs).kind = .string ∨ (scanFrom s cs).kind = .illegal := by
  induction cs generalizing s with
  | nil => cases s <;> exact .inr rfl
  | cons c cs ih =>
    cases s <;> simp only [scanFrom] <;> repeat' split
    all_goals first | exact ih _ | exact .inl rfl | exact .inr rfl

/-- A string ends with its closing quote, whatever stands behind it, and a malformed one with the
character at which it has broken. -/
theorem scanFrom_replace (s : State) (cs rest : List Char)
    (whole : (scanFrom s cs).kind = .illegal → (scanFrom s cs).rest ≠ []) :
    scanFrom s ((scanFrom s cs).raw ++ rest) = { scanFrom s cs with rest := rest } := by
  induction cs generalizing s with
  | nil => cases s <;> simp [scanFrom, Lexeme.malformed] at whole
  | cons c cs ih =>
    -- the character is taken and the reader goes on in state `t`
    have onward (t : State) (shown : List Char)
        (here : ∀ ds, scanFrom s (c :: ds) = (scanFrom t ds).behind [c] shown) :
        scanFrom s ((scanFrom s (c :: cs)).raw ++ rest) =
          { scanFrom s (c :: cs) with rest := rest } := by
      rw [here] at whole
      have h := ih t whole
      simp only [here, Lexeme.behind, List.cons_append, List.nil_append, h]
    cases s with
    | plain =>
      by_cases hq : c = '\"'
      · simp [scanFrom, hq]
      by_cases hb : c = '\\'
      · exact onward .escape [] fun ds => by simp [scanFrom, hb]
      by_cases hc : Trivia.isControl c = true
      · simp [scanFrom, hq, hb, hc, Lexeme.malformed]
      · exact onward .plain [c] fun ds => by simp [scanFrom, hq, hb, hc]
    | escape =>
      cases hu : unescape? c with
      | some d => exact onward .plain [d] fun ds => by simp [scanFrom, hu]
      | none =>
        by_cases h : c = 'u'
        · exact onward (.unicode []) [] fun ds => by simp [scanFrom, h, unescape?]
        · simp [scanFrom, hu, h, Lexeme.malformed]
    | unicode digits =>
      by_cases hx : (hexValue? c).isSome = true
      · by_cases hl : digits.length = 3
        · exact onward .plain [ofCodePoint (hexNumber (digits ++ [c]))] fun ds => by
            simp [scanFrom, hx, hl]
        · exact onward (.unicode (digits ++ [c])) [] fun ds => by simp [scanFrom, hx, hl]
      · simp [scanFrom, hx, Lexeme.malformed]

end StringLiteral

/-! ## Lexemes -/

namespace Lexeme

theorem isNamePart_of_starts {c : Char} (h : Trivia.starts c = true) : isNamePart c = false := by
  rcases starts_cases h with rfl | rfl | rfl | rfl | rfl | rfl | rfl <;> rfl

theorem isNamePart_head?_dropWhile (cs : List Char) :
    ∀ a, (cs.dropWhile isNamePart).head? = some a → isNamePart a = false := by
  intro a ha
  have h := List.head?_dropWhile_not isNamePart cs
  rw [ha] at h
  simpa using h

theorem scanName_replace {input rest : List Char}
    (like : ContinuesLike (scanName input).rest rest) :
    scanName ((scanName input).raw ++ rest) = { scanName input with rest := rest } := by
  have stop : ∀ a, rest.head? = some a → isNamePart a = false := by
    intro a ha
    rcases like a ha with h | h
    · exact isNamePart_head?_dropWhile input a h
    · exact isNamePart_of_starts h
  have all : ∀ a ∈ input.takeWhile isNamePart, isNamePart a = true :=
    List.all_eq_true.mp List.all_takeWhile
  have ends : rest.takeWhile isNamePart = [] ∧ rest.dropWhile isNamePart = rest := by
    cases rest with
    | nil => exact ⟨rfl, rfl⟩
    | cons a rest => simp [stop a rfl]
  simp only [scanName, List.takeWhile_append_of_pos all, List.dropWhile_append_of_pos all, ends.1,
    ends.2, List.append_nil]

/-- The kinds of lexeme, by the first character. -/
theorem scan_cases (c : Char) (cs : List Char) :
    (c = '.' ∧ scan c cs = scanSpread cs) ∨ (c = '\"' ∧ scan c cs = StringLiteral.scan cs) ∨
    ((c = '-' ∨ Number.isDigit c = true) ∧ ∀ ds, scan c ds = Number.scan (c :: ds)) ∨
    (isNameStart c = true ∧ ∀ ds, scan c ds = scanName (c :: ds)) ∨
    ((c ≠ '.' ∧ c ≠ '\"' ∧ ¬ (c = '-' ∨ Number.isDigit c = true) ∧ isNameStart c = false) ∧
      ∀ ds, scan c ds = ⟨(TokenKind.ofChar? c).getD .illegal, [c], [c], ds⟩) := by
  by_cases hd : c = '.'
  · exact .inl ⟨hd, by simp [scan, hd]⟩
  by_cases hq : c = '\"'
  · exact .inr (.inl ⟨hq, by simp [scan, hq]⟩)
  by_cases hn : c = '-' ∨ Number.isDigit c = true
  · exact .inr (.inr (.inl ⟨hn, fun ds => by simp [scan, hd, hq, hn]⟩))
  by_cases hs : isNameStart c = true
  · exact .inr (.inr (.inr (.inl ⟨hs, fun ds => by simp [scan, hd, hq, hn, hs]⟩)))
  · exact .inr (.inr (.inr (.inr ⟨⟨hd, hq, hn, Bool.eq_false_iff.mpr hs⟩, fun ds => by
      simp [scan, hd, hq, hn, hs]⟩)))

theorem scanSpread_cases (cs : List Char) :
    (∃ rest, cs = '.' :: '.' :: rest ∧
      scanSpread cs = ⟨.spread, ['.', '.', '.'], ['.', '.', '.'], rest⟩) ∨
    ((scanSpread cs).kind = .illegal ∧ ∃ raw, (scanSpread cs).raw = '.' :: raw) := by
  unfold scanSpread
  split
  · next rest => exact .inl ⟨rest, rfl, rfl⟩
  · next rest _ => exact .inr (by cases rest <;> simp [malformed])
  · exact .inr (by cases cs <;> simp [malformed])

theorem scanSpread_of_ne {c : Char} (h : c ≠ '.') (cs : List Char) :
    scanSpread (c :: cs) = ⟨.illegal, ['.', c], ['.', c], cs⟩ ∧
      scanSpread ('.' :: c :: cs) = ⟨.illegal, ['.', '.', c], ['.', '.', c], cs⟩ := by
  constructor <;> simp [scanSpread, h, malformed]

theorem scanSpread_replace {cs raw rest : List Char} (hraw : (scanSpread cs).raw = '.' :: raw)
    (ends : (scanSpread cs).EndsBefore rest) :
    scanSpread (raw ++ rest) = { scanSpread cs with rest := rest } := by
  cases cs with
  | nil => exact absurd rfl (ends.whole rfl)
  | cons d ds =>
    by_cases dot : d = '.'
    · subst dot
      cases ds with
      | nil => exact absurd rfl (ends.whole rfl)
      | cons e es =>
        by_cases last : e = '.'
        · subst last
          obtain rfl : ['.', '.'] = raw := (List.cons.inj hraw).2
          rfl
        · rw [(scanSpread_of_ne last es).2] at hraw ⊢
          obtain rfl : ['.', e] = raw := (List.cons.inj hraw).2
          exact (scanSpread_of_ne last rest).2
    · rw [(scanSpread_of_ne dot ds).1] at hraw ⊢
      obtain rfl : [d] = raw := (List.cons.inj hraw).2
      exact (scanSpread_of_ne dot rest).1

/-- A lexeme takes the character that it starts with. -/
theorem scan_raw (c : Char) (cs : List Char) : ∃ raw, (scan c cs).raw = c :: raw := by
  rcases scan_cases c cs with ⟨rfl, h⟩ | ⟨rfl, h⟩ | ⟨hn, h⟩ | ⟨hs, h⟩ | ⟨-, h⟩
  · rw [h]
    rcases scanSpread_cases cs with ⟨rest, rfl, h⟩ | ⟨_, h⟩
    · exact ⟨_, by rw [h]⟩
    · exact h
  · rw [h]
    exact ⟨_, rfl⟩
  · obtain ⟨ds, taken⟩ := Number.exists_run_eq_cons hn cs
    rw [h]
    unfold Number.scan
    simp only [taken]
    split
    · split
      · cases (Number.run .start (c :: cs)).2.2 <;> exact ⟨_, rfl⟩
      · exact ⟨_, rfl⟩
    · cases (Number.run .start (c :: cs)).2.2 <;> exact ⟨_, rfl⟩
  · rw [h]
    exact ⟨cs.takeWhile isNamePart, by simp [scanName, isNamePart, hs]⟩
  · rw [h]
    exact ⟨_, rfl⟩

/-- No lexeme is the end of the text. -/
theorem kind_scan_ne_eof (c : Char) (cs : List Char) : (scan c cs).kind ≠ .eof := by
  rcases scan_cases c cs with ⟨rfl, h⟩ | ⟨rfl, h⟩ | ⟨_, h⟩ | ⟨_, h⟩ | ⟨-, h⟩
  · rw [h]
    rcases scanSpread_cases cs with ⟨rest, rfl, h⟩ | ⟨h, _⟩ <;> simp [h]
  · rw [h]
    rcases StringLiteral.kind_scanFrom .plain cs with hk | hk <;>
      simp [StringLiteral.scan, hk]
  · rw [h]
    intro he
    obtain ⟨k, hk, _, hs⟩ := Number.scan_of_ne_illegal (by rw [he]; decide)
    rw [hs] at he
    rcases Number.kind?_eq_int_or_float hk with rfl | rfl <;> simp at he
  · rw [h]
    simp [scanName]
  · rw [h]
    unfold TokenKind.ofChar?
    split <;> simp

/-- A well-formed lexeme other than a string keeps its spelling as its text. -/
theorem raw_scan_eq_text {c : Char} {cs : List Char} (string : (scan c cs).kind ≠ .string)
    (legal : (scan c cs).kind ≠ .illegal) : (scan c cs).raw = (scan c cs).text := by
  rcases scan_cases c cs with ⟨rfl, h⟩ | ⟨rfl, h⟩ | ⟨_, h⟩ | ⟨_, h⟩ | ⟨-, h⟩
  · rcases scanSpread_cases cs with ⟨rest, rfl, hs⟩ | ⟨hk, _⟩
    · rw [h, hs]
    · exact absurd (h ▸ hk) legal
  · rw [h] at string legal
    rcases StringLiteral.kind_scanFrom .plain cs with hk | hk
    · exact absurd hk string
    · exact absurd hk legal
  · rw [h] at legal ⊢
    obtain ⟨k, _, _, hs⟩ := Number.scan_of_ne_illegal legal
    rw [hs]
  · rw [h]
    rfl
  · rw [h]

/-- The text of a punctuator is its spelling. -/
theorem text_scan_of_punctuator {c : Char} {cs : List Char} {text : String}
    (h : (scan c cs).kind.punctuator? = some text) : String.ofList (scan c cs).text = text := by
  rcases scan_cases c cs with ⟨rfl, hc⟩ | ⟨rfl, hc⟩ | ⟨_, hc⟩ | ⟨_, hc⟩ | ⟨-, hc⟩
  · rcases scanSpread_cases cs with ⟨rest, rfl, hs⟩ | ⟨hk, _⟩
    · rw [hc, hs] at h ⊢
      exact Option.some.inj h
    · rw [hc, hk] at h
      cases h
  · rw [hc, StringLiteral.scan] at h
    rcases StringLiteral.kind_scanFrom .plain cs with hk | hk
    · simp [hk, TokenKind.punctuator?] at h
    · simp [hk, TokenKind.punctuator?] at h
  · by_cases legal : (Number.scan (c :: cs)).kind = .illegal
    · rw [hc, legal] at h
      cases h
    · obtain ⟨k, hk, _, hs⟩ := Number.scan_of_ne_illegal legal
      rw [hc, hs] at h
      rcases Number.kind?_eq_int_or_float hk with rfl | rfl <;> cases h
  · rw [hc, scanName] at h
    cases h
  · rw [hc] at h ⊢
    unfold TokenKind.ofChar? at h
    split at h <;> cases h <;> rfl

/-- A lexeme stays the same when what stands behind it is replaced, unless it would go on or the
input ends too early. -/
theorem scan_replace {c : Char} {cs raw rest : List Char} (hraw : (scan c cs).raw = c :: raw)
    (ends : (scan c cs).EndsBefore rest) :
    scan c (raw ++ rest) = { scan c cs with rest := rest } := by
  rcases scan_cases c cs with ⟨rfl, h⟩ | ⟨rfl, h⟩ | ⟨_, h⟩ | ⟨_, h⟩ | ⟨-, h⟩
  · rw [h] at hraw ends ⊢
    exact scanSpread_replace hraw ends
  · rw [h] at hraw ends ⊢
    have whole : (StringLiteral.scanFrom .plain cs).kind = .illegal →
        (StringLiteral.scanFrom .plain cs).rest ≠ [] := ends.whole
    have hr : (StringLiteral.scanFrom .plain cs).raw = raw := by
      simpa [StringLiteral.scan, behind] using hraw
    have hs := StringLiteral.scanFrom_replace .plain cs rest whole
    rw [hr] at hs
    have hd : scan '\"' (raw ++ rest) = StringLiteral.scan (raw ++ rest) := rfl
    rw [hd]
    simp only [StringLiteral.scan, hs, behind]
  · rw [h] at hraw ends
    have hs := Number.scan_replace ends
    rwa [hraw, List.cons_append, ← h, ← h] at hs
  · rw [h] at hraw ends
    have hs := scanName_replace (ends.like (by simp [scanName]))
    rwa [hraw, List.cons_append, ← h, ← h] at hs
  · rw [h] at hraw ⊢
    obtain rfl : raw = [] := by simpa using hraw.symm
    rw [h, List.nil_append]

end Lexeme

end GraphQL
