import GraphQL.Proofs.Lexing.Scan

/-!
# The language of numbers

Numbers as they are written, part by part, without the automaton that reads them. The automaton
accepts exactly these, and whatever it has taken is the beginning of one.

Results:
1. `legal_iff`: the automaton accepts the legal numbers.
2. `exists_legal_of_reaches`: what the automaton has taken can be continued to a legal number.
3. `run_reaches`, `run_append_of_reaches`: the run of the automaton, character by character.
-/

namespace GraphQL.Number

/-- A zero, or digits that do not start with a zero. -/
inductive IntegerPart : List Char → Prop
  | zero : IntegerPart ['0']
  | digits {c : Char} {cs : List Char} :
      isDigit c = true → c ≠ '0' → (∀ d ∈ cs, isDigit d = true) → IntegerPart (c :: cs)

/-- Nothing, or a point and digits behind it. -/
inductive Fraction : List Char → Prop
  | none : Fraction []
  | digits {c : Char} {cs : List Char} :
      isDigit c = true → (∀ d ∈ cs, isDigit d = true) → Fraction ('.' :: c :: cs)

/-- Nothing, or the letter of the exponent, a sign or not, and digits. -/
inductive Exponent : List Char → Prop
  | none : Exponent []
  | digits {m c : Char} {sign cs : List Char} :
      isMark m = true → sign ∈ [[], ['+'], ['-']] → isDigit c = true →
      (∀ d ∈ cs, isDigit d = true) → Exponent (m :: (sign ++ c :: cs))

/-- The characters are a number: a minus or not, an integer part, a fraction, an exponent. -/
inductive Legal : List Char → Prop
  | intro (sign : List Char) {int frac exp : List Char} :
      sign ∈ [[], ['-']] → IntegerPart int → Fraction frac → Exponent exp →
      Legal (sign ++ (int ++ (frac ++ exp)))

/-- The automaton takes all of the characters on its way from `s` to `t`. -/
def State.Reaches (s : State) (cs : List Char) (t : State) : Prop :=
  cs.foldlM State.next? s = some t

variable {s t u : State} {cs ds : List Char} {c : Char}

namespace State

theorem reaches_nil : Reaches s [] t ↔ s = t := by
  simp [Reaches]

theorem reaches_cons : Reaches s (c :: cs) t ↔ ∃ u, s.next? c = some u ∧ Reaches u cs t := by
  simp [Reaches, Option.bind_eq_some_iff]

theorem Reaches.append (h : Reaches s cs t) (h' : Reaches t ds u) : Reaches s (cs ++ ds) u := by
  rw [Reaches, List.foldlM_append, show cs.foldlM next? s = some t from h]
  exact h'

end State

/-! ## Runs -/

theorem run_reaches (s : State) (cs : List Char) : s.Reaches (run s cs).1 (run s cs).2.1 := by
  induction cs generalizing s with
  | nil => exact State.reaches_nil.mpr rfl
  | cons c cs ih =>
    simp only [run]
    split
    · next t ht => exact State.reaches_cons.mpr ⟨t, ht, ih t⟩
    · exact State.reaches_nil.mpr rfl

/-- Where the automaton takes all of the characters, it goes on with what follows. -/
theorem run_append_of_reaches (h : s.Reaches cs t) (ds : List Char) :
    run s (cs ++ ds) = (cs ++ (run t ds).1, (run t ds).2) := by
  induction cs generalizing s with
  | nil =>
    obtain rfl := State.reaches_nil.mp h
    rfl
  | cons c cs ih =>
    obtain ⟨u, hu, rest⟩ := State.reaches_cons.mp h
    simp only [List.cons_append, run, hu, ih rest]

/-! ## Legal numbers are accepted -/

theorem reaches_digits (loop : ∀ d, isDigit d = true → s.next? d = some s)
    (digits : ∀ d ∈ cs, isDigit d = true) : s.Reaches cs s := by
  induction cs with
  | nil => exact State.reaches_nil.mpr rfl
  | cons d cs ih =>
    obtain ⟨first, others⟩ := List.forall_mem_cons.mp digits
    exact State.reaches_cons.mpr ⟨s, loop d first, ih others⟩

/-- A digit is none of the other characters that the automaton looks for. -/
theorem ne_of_isDigit (h : isDigit c = true) : c ≠ '-' ∧ c ≠ '+' ∧ c ≠ '.' ∧ isMark c = false := by
  refine ⟨?_, ?_, ?_, Bool.eq_false_iff.mpr fun mark => ?_⟩
  · rintro rfl
    exact absurd h (by decide)
  · rintro rfl
    exact absurd h (by decide)
  · rintro rfl
    exact absurd h (by decide)
  · simp only [isMark, Bool.or_eq_true, decide_eq_true_eq] at mark
    rcases mark with rfl | rfl
    · exact absurd h (by decide)
    · exact absurd h (by decide)

theorem IntegerPart.reaches (h : IntegerPart cs) :
    ∃ t, (t = .zero ∨ t = .integer) ∧ State.Reaches .start cs t ∧ State.Reaches .minus cs t := by
  cases h with
  | zero => exact ⟨.zero, .inl rfl, rfl, rfl⟩
  | @digits c cs digit nonzero digits =>
    have others : State.Reaches .integer cs .integer :=
      reaches_digits (fun d hd => by simp [State.next?, hd]) digits
    have dash := (ne_of_isDigit digit).1
    refine ⟨.integer, .inr rfl, ?_, ?_⟩
    · exact State.reaches_cons.mpr ⟨.integer, by simp [State.next?, digit, nonzero, dash], others⟩
    · exact State.reaches_cons.mpr ⟨.integer, by simp [State.next?, digit, nonzero], others⟩

theorem Fraction.reaches (h : Fraction cs) (hs : s = .zero ∨ s = .integer) :
    ∃ t, (t = .zero ∨ t = .integer ∨ t = .fraction) ∧ s.Reaches cs t := by
  cases h with
  | none => exact ⟨s, hs.imp_right .inl, rfl⟩
  | @digits c cs digit digits =>
    have others : State.Reaches .fraction cs .fraction :=
      reaches_digits (fun d hd => by simp [State.next?, hd]) digits
    have behind : State.Reaches .point (c :: cs) .fraction :=
      State.reaches_cons.mpr ⟨.fraction, by simp [State.next?, digit], others⟩
    refine ⟨.fraction, .inr (.inr rfl), State.reaches_cons.mpr ⟨.point, ?_, behind⟩⟩
    rcases hs with rfl | rfl <;> rfl

theorem Exponent.reaches (h : Exponent cs) (hs : s = .zero ∨ s = .integer ∨ s = .fraction) :
    ∃ t, t.kind?.isSome = true ∧ s.Reaches cs t := by
  cases h with
  | none =>
    refine ⟨s, ?_, rfl⟩
    rcases hs with rfl | rfl | rfl <;> rfl
  | @digits m c sign cs mark signed digit digits =>
    have others : State.Reaches .exponent cs .exponent :=
      reaches_digits (fun d hd => by simp [State.next?, hd]) digits
    obtain ⟨dash, plus, -⟩ := ne_of_isDigit digit
    have behind : State.Reaches .mark (sign ++ c :: cs) .exponent := by
      simp only [List.mem_cons, List.not_mem_nil, or_false] at signed
      rcases signed with rfl | rfl | rfl
      · exact State.reaches_cons.mpr ⟨.exponent, by simp [State.next?, digit, dash, plus], others⟩
      · exact State.reaches_cons.mpr ⟨.sign, rfl,
          State.reaches_cons.mpr ⟨.exponent, by simp [State.next?, digit], others⟩⟩
      · exact State.reaches_cons.mpr ⟨.sign, rfl,
          State.reaches_cons.mpr ⟨.exponent, by simp [State.next?, digit], others⟩⟩
    have letter : s.next? m = some .mark := by
      simp only [isMark, Bool.or_eq_true, decide_eq_true_eq] at mark
      rcases mark with rfl | rfl <;> rcases hs with rfl | rfl | rfl <;> rfl
    exact ⟨.exponent, rfl, State.reaches_cons.mpr ⟨.mark, letter, behind⟩⟩

theorem Legal.reaches (h : Legal cs) : ∃ t, t.kind?.isSome = true ∧ State.Reaches .start cs t := by
  cases h with
  | @intro sign int frac exp signed integer fraction exponent =>
    obtain ⟨t, ht, bare, signed'⟩ := integer.reaches
    obtain ⟨u, hu, point⟩ := fraction.reaches ht
    obtain ⟨v, hv, mark⟩ := exponent.reaches hu
    refine ⟨v, hv, ?_⟩
    simp only [List.mem_cons, List.not_mem_nil, or_false] at signed
    rcases signed with rfl | rfl
    · exact bare.append (point.append mark)
    · exact State.reaches_cons.mpr ⟨.minus, rfl, signed'.append (point.append mark)⟩

/-! ## What is accepted is legal -/

/-- What makes a legal number of the characters that lead to the state. -/
def State.Completes : State → List Char → Prop
  | start, cs => Legal cs
  | minus, cs => ∃ int frac exp, IntegerPart int ∧ Fraction frac ∧ Exponent exp ∧
      cs = int ++ (frac ++ exp)
  | zero, cs => ∃ frac exp, Fraction frac ∧ Exponent exp ∧ cs = frac ++ exp
  | integer, cs => ∃ ds frac exp, (∀ d ∈ ds, isDigit d = true) ∧ Fraction frac ∧ Exponent exp ∧
      cs = ds ++ (frac ++ exp)
  | point, cs => ∃ c ds exp, isDigit c = true ∧ (∀ d ∈ ds, isDigit d = true) ∧ Exponent exp ∧
      cs = c :: (ds ++ exp)
  | fraction, cs => ∃ ds exp, (∀ d ∈ ds, isDigit d = true) ∧ Exponent exp ∧ cs = ds ++ exp
  | mark, cs => ∃ sign c ds, sign ∈ [[], ['+'], ['-']] ∧ isDigit c = true ∧
      (∀ d ∈ ds, isDigit d = true) ∧ cs = sign ++ c :: ds
  | sign, cs => ∃ c ds, isDigit c = true ∧ (∀ d ∈ ds, isDigit d = true) ∧ cs = c :: ds
  | exponent, cs => ∀ d ∈ cs, isDigit d = true

namespace State

theorem completes_nil (accepting : s.kind?.isSome = true) : s.Completes [] := by
  have none : ∀ d ∈ ([] : List Char), isDigit d = true := nofun
  cases s with
  | zero => exact ⟨[], [], .none, .none, rfl⟩
  | integer => exact ⟨[], [], [], none, .none, .none, rfl⟩
  | fraction => exact ⟨[], [], none, .none, rfl⟩
  | exponent => exact none
  | start | minus | point | mark | sign => cases accepting

theorem completes_cons (step : s.next? c = some t) (h : t.Completes cs) :
    s.Completes (c :: cs) := by
  cases s with
  | start =>
    simp only [next?] at step
    split at step
    · next dash =>
      obtain rfl := Option.some.inj step
      obtain ⟨int, frac, exp, integer, fraction, exponent, rfl⟩ := h
      exact dash ▸ .intro ['-'] (by decide) integer fraction exponent
    split at step
    · next zero =>
      obtain rfl := Option.some.inj step
      obtain ⟨frac, exp, fraction, exponent, rfl⟩ := h
      exact zero ▸ .intro [] (by decide) .zero fraction exponent
    split at step
    · next nonzero digit =>
      obtain rfl := Option.some.inj step
      obtain ⟨ds, frac, exp, digits, fraction, exponent, rfl⟩ := h
      exact .intro [] (by decide) (.digits digit nonzero digits) fraction exponent
    · cases step
  | minus =>
    simp only [next?] at step
    split at step
    · next zero =>
      obtain rfl := Option.some.inj step
      obtain ⟨frac, exp, fraction, exponent, rfl⟩ := h
      exact ⟨['0'], frac, exp, .zero, fraction, exponent, zero ▸ rfl⟩
    split at step
    · next nonzero digit =>
      obtain rfl := Option.some.inj step
      obtain ⟨ds, frac, exp, digits, fraction, exponent, rfl⟩ := h
      exact ⟨c :: ds, frac, exp, .digits digit nonzero digits, fraction, exponent, rfl⟩
    · cases step
  | zero =>
    simp only [next?] at step
    split at step
    · next point =>
      obtain rfl := Option.some.inj step
      obtain ⟨d, ds, exp, digit, digits, exponent, rfl⟩ := h
      exact ⟨'.' :: d :: ds, exp, .digits digit digits, exponent, point ▸ rfl⟩
    split at step
    · next mark =>
      obtain rfl := Option.some.inj step
      obtain ⟨sign, d, ds, signed, digit, digits, rfl⟩ := h
      exact ⟨[], _, .none, .digits mark signed digit digits, rfl⟩
    · cases step
  | integer =>
    simp only [next?] at step
    split at step
    · next digit =>
      obtain rfl := Option.some.inj step
      obtain ⟨ds, frac, exp, digits, fraction, exponent, rfl⟩ := h
      exact ⟨c :: ds, frac, exp, List.forall_mem_cons.mpr ⟨digit, digits⟩, fraction, exponent, rfl⟩
    split at step
    · next point =>
      obtain rfl := Option.some.inj step
      obtain ⟨d, ds, exp, digit, digits, exponent, rfl⟩ := h
      exact ⟨[], '.' :: d :: ds, exp, nofun, .digits digit digits, exponent, point ▸ rfl⟩
    split at step
    · next mark =>
      obtain rfl := Option.some.inj step
      obtain ⟨sign, d, ds, signed, digit, digits, rfl⟩ := h
      exact ⟨[], [], _, nofun, .none, .digits mark signed digit digits, rfl⟩
    · cases step
  | point =>
    simp only [next?] at step
    split at step
    · next digit =>
      obtain rfl := Option.some.inj step
      obtain ⟨ds, exp, digits, exponent, rfl⟩ := h
      exact ⟨c, ds, exp, digit, digits, exponent, rfl⟩
    · cases step
  | fraction =>
    simp only [next?] at step
    split at step
    · next digit =>
      obtain rfl := Option.some.inj step
      obtain ⟨ds, exp, digits, exponent, rfl⟩ := h
      exact ⟨c :: ds, exp, List.forall_mem_cons.mpr ⟨digit, digits⟩, exponent, rfl⟩
    split at step
    · next mark =>
      obtain rfl := Option.some.inj step
      obtain ⟨sign, d, ds, signed, digit, digits, rfl⟩ := h
      exact ⟨[], _, nofun, .digits mark signed digit digits, rfl⟩
    · cases step
  | mark =>
    simp only [next?] at step
    split at step
    · next signed =>
      obtain rfl := Option.some.inj step
      obtain ⟨d, ds, digit, digits, rfl⟩ := h
      simp only [Bool.or_eq_true, decide_eq_true_eq] at signed
      exact ⟨[c], d, ds, by rcases signed with rfl | rfl <;> decide, digit, digits, rfl⟩
    split at step
    · next digit =>
      obtain rfl := Option.some.inj step
      exact ⟨[], c, cs, by decide, digit, h, rfl⟩
    · cases step
  | sign =>
    simp only [next?] at step
    split at step
    · next digit =>
      obtain rfl := Option.some.inj step
      exact ⟨c, cs, digit, h, rfl⟩
    · cases step
  | exponent =>
    simp only [next?] at step
    split at step
    · next digit =>
      obtain rfl := Option.some.inj step
      exact List.forall_mem_cons.mpr ⟨digit, h⟩
    · cases step

theorem Reaches.completes (h : Reaches s cs t) (accepting : t.kind?.isSome = true) :
    s.Completes cs := by
  induction cs generalizing s with
  | nil =>
    obtain rfl := reaches_nil.mp h
    exact completes_nil accepting
  | cons c cs ih =>
    obtain ⟨u, step, rest⟩ := reaches_cons.mp h
    exact completes_cons step (ih rest)

end State

/-- The automaton accepts the legal numbers and nothing else. -/
theorem legal_iff : Legal cs ↔ ∃ t, t.kind?.isSome = true ∧ State.Reaches .start cs t :=
  ⟨Legal.reaches, fun ⟨_, accepting, h⟩ => h.completes accepting⟩

/-- What the automaton has taken can be continued to a legal number. -/
theorem exists_legal_of_reaches (h : State.Reaches .start cs t) : ∃ more, Legal (cs ++ more) := by
  have onward : ∃ more u, u.kind?.isSome = true ∧ t.Reaches more u := by
    cases t with
    | start => exact ⟨['0'], .zero, rfl, rfl⟩
    | minus => exact ⟨['0'], .zero, rfl, rfl⟩
    | zero => exact ⟨[], .zero, rfl, rfl⟩
    | integer => exact ⟨[], .integer, rfl, rfl⟩
    | point => exact ⟨['0'], .fraction, rfl, rfl⟩
    | fraction => exact ⟨[], .fraction, rfl, rfl⟩
    | mark => exact ⟨['0'], .exponent, rfl, rfl⟩
    | sign => exact ⟨['0'], .exponent, rfl, rfl⟩
    | exponent => exact ⟨[], .exponent, rfl, rfl⟩
  obtain ⟨more, u, accepting, rest⟩ := onward
  exact ⟨more, legal_iff.mpr ⟨u, accepting, h.append rest⟩⟩

/-- What the automaton cannot go on with is the beginning of no legal number. -/
theorem not_legal_of_stuck (h : State.Reaches .start cs t) (stuck : t.next? c = none)
    (more : List Char) : ¬ Legal (cs ++ c :: more) := by
  intro legal
  obtain ⟨u, accepting, reached⟩ := legal.reaches
  have whole := run_append_of_reaches reached []
  rw [List.append_nil, run_append_of_reaches h] at whole
  simp [run, stuck] at whole

end GraphQL.Number
