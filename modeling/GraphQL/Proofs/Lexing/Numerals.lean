import GraphQL.Literal
import GraphQL.Proofs.Lexing.Literals
import Mathlib.Data.Nat.Digits.Defs

/-!
# What number tokens denote

The lexer and the reader of numbers have a grammar of their own each. The texts that the lexer makes
number tokens of are among those that denote a number: the text of an integer is a row of digits,
with a minus or without, and denotes an integer in base ten; the text of any number, however long,
denotes a decimal number, and so there is a nearest double.

Results:
1. `Decimal.digitsValue_eq`: the value of a row of digits in base ten.
2. `Decimal.integer?_eq_some_iff`, `Denotes.unique`: which integer a text denotes.
3. `Decimal.isSome_ofText?`: every legal number denotes a decimal number.
4. `Lexeme.numeral_of_kind`: what the text of a number token is.
5. `Literal.intValue?_eq_some_iff`, `Literal.isSome_floatValue?`: the values of a literal.
-/

namespace GraphQL

/-- The digit that a character is. -/
def digitOf (c : Char) : Nat := c.toNat - '0'.toNat

/-- The number that a row of digits is in base ten. The last digit counts least. -/
def baseTen (ds : List Char) : Nat := Nat.ofDigits 10 (ds.reverse.map digitOf)

/-- The characters are digits, behind a minus or not, and denote the integer in base ten. -/
inductive Denotes : List Char → Int → Prop
  | plain {ds : List Char} : ds ≠ [] → (∀ d ∈ ds, Number.isDigit d = true) →
      Denotes ds (baseTen ds)
  | minus {ds : List Char} : ds ≠ [] → (∀ d ∈ ds, Number.isDigit d = true) →
      Denotes ('-' :: ds) (-baseTen ds)

namespace Decimal

open Number

variable {cs ds : List Char} {c : Char}

/-! ## Integers -/

theorem digitsValue_eq (ds : List Char) : digitsValue ds = baseTen ds := by
  rw [baseTen, Nat.ofDigits_eq_foldr, List.foldr_map, List.foldr_reverse, digitsValue]
  congr 1
  funext n c
  exact Nat.add_comm _ _

theorem natural?_of_digits (nonempty : ds ≠ []) (digits : ∀ d ∈ ds, isDigit d = true) :
    natural? ds = some (digitsValue ds) :=
  if_pos ⟨nonempty, List.all_eq_true.mpr digits⟩

theorem takeSign_of_digits (nonempty : ds ≠ []) (digits : ∀ d ∈ ds, isDigit d = true)
    (cs : List Char) : takeSign (ds ++ cs) = (false, ds ++ cs) := by
  cases ds with
  | nil => exact absurd rfl nonempty
  | cons c ds =>
    obtain ⟨dash, plus, -⟩ := ne_of_isDigit (digits c List.mem_cons_self)
    simp only [List.cons_append]
    unfold takeSign
    split
    · next h => exact absurd (List.cons.inj h).1 dash
    · next h => exact absurd (List.cons.inj h).1 plus
    · rfl

/-- Digits behind a sign, or behind none, denote an integer. -/
theorem isSome_integer? {sign : List Char} (signed : sign ∈ [[], ['+'], ['-']])
    (nonempty : ds ≠ []) (digits : ∀ d ∈ ds, isDigit d = true) :
    (integer? (sign ++ ds)).isSome = true := by
  have natural := natural?_of_digits nonempty digits
  simp only [List.mem_cons, List.not_mem_nil, or_false] at signed
  rcases signed with rfl | rfl | rfl
  · have bare := takeSign_of_digits nonempty digits []
    rw [List.append_nil] at bare
    simp [integer?, bare, natural]
  · simp [integer?, takeSign, natural]
  · simp [integer?, takeSign, natural]

/-- A text that denotes an integer is read as this integer. -/
theorem integer?_of_denotes {n : Int} (h : Denotes cs n) : integer? cs = some n := by
  cases h with
  | plain nonempty digits =>
    have bare := takeSign_of_digits nonempty digits []
    rw [List.append_nil] at bare
    simp [integer?, bare, natural?_of_digits nonempty digits, digitsValue_eq]
  | minus nonempty digits =>
    simp [integer?, takeSign, natural?_of_digits nonempty digits, digitsValue_eq]

end Decimal

/-- A text denotes no more than one integer. -/
theorem Denotes.unique {cs : List Char} {m n : Int} (hm : Denotes cs m) (hn : Denotes cs n) :
    m = n :=
  Option.some.inj ((Decimal.integer?_of_denotes hm).symm.trans (Decimal.integer?_of_denotes hn))

namespace Decimal

open Number

variable {cs ds frac exp : List Char} {c : Char}

/-! ## Decimal numbers -/

theorem isSome_exponent? (h : Exponent cs) : (exponent? cs).isSome = true := by
  cases h with
  | none => rfl
  | @digits m c sign cs mark signed digit digits =>
    have read : (integer? (sign ++ c :: cs)).isSome = true :=
      isSome_integer? (by simpa using signed) (List.cons_ne_nil _ _)
        (List.forall_mem_cons.mpr ⟨digit, digits⟩)
    rw [exponent?, if_pos mark, read]

/-- An exponent starts with a letter. -/
theorem starts_of_exponent (h : Exponent cs) :
    cs.takeWhile isDigit = [] ∧ takeFraction cs = ([], cs) := by
  cases h with
  | none => exact ⟨rfl, rfl⟩
  | @digits m c sign cs mark signed digit digits =>
    simp only [isMark, Bool.or_eq_true, decide_eq_true_eq] at mark
    rcases mark with rfl | rfl <;> exact ⟨rfl, rfl⟩

/-- Digits are taken up to what does not start with one. -/
theorem span_of_digits (digits : ∀ d ∈ ds, isDigit d = true) (other : cs.takeWhile isDigit = []) :
    (ds ++ cs).takeWhile isDigit = ds ∧ (ds ++ cs).dropWhile isDigit = cs := by
  have behind : cs.dropWhile isDigit = cs := by
    conv => rhs; rw [← List.takeWhile_append_dropWhile (p := isDigit) (l := cs), other]
    rfl
  rw [List.takeWhile_append_of_pos digits, List.dropWhile_append_of_pos digits, other, behind,
    List.append_nil]
  exact ⟨rfl, rfl⟩

theorem takeFraction_append (fraction : Fraction frac) (exponent : Exponent exp) :
    (frac ++ exp).takeWhile isDigit = [] ∧ takeFraction (frac ++ exp) = (frac.tail, exp) := by
  obtain ⟨start, none⟩ := starts_of_exponent exponent
  cases fraction with
  | none => exact ⟨start, none⟩
  | @digits c cs digit digits =>
    obtain ⟨taken, rest⟩ := span_of_digits (List.forall_mem_cons.mpr ⟨digit, digits⟩) start
    exact ⟨rfl, Prod.ext taken rest⟩

theorem digits_of_integerPart (h : IntegerPart cs) :
    cs ≠ [] ∧ ∀ d ∈ cs, isDigit d = true := by
  cases h with
  | zero => exact ⟨List.cons_ne_nil _ _, List.forall_mem_singleton.mpr rfl⟩
  | digits digit _ digits =>
    exact ⟨List.cons_ne_nil _ _, List.forall_mem_cons.mpr ⟨digit, digits⟩⟩

/-- Every number of the language, however long it is, denotes a decimal number. -/
theorem isSome_ofText? (h : Legal cs) : (ofText? cs).isSome = true := by
  cases h with
  | @intro sign int frac exp signed integer fraction exponent =>
    obtain ⟨nonempty, digits⟩ := digits_of_integerPart integer
    obtain ⟨start, split⟩ := takeFraction_append fraction exponent
    obtain ⟨whole, rest⟩ := span_of_digits digits start
    have bare : ∃ negative, takeSign (sign ++ (int ++ (frac ++ exp))) =
        (negative, int ++ (frac ++ exp)) := by
      simp only [List.mem_cons, List.not_mem_nil, or_false] at signed
      rcases signed with rfl | rfl
      · exact ⟨false, takeSign_of_digits nonempty digits _⟩
      · exact ⟨true, rfl⟩
    obtain ⟨negative, bare⟩ := bare
    simp [ofText?, bare, whole, rest, split, nonempty, isSome_exponent? exponent]

end Decimal

/-! ## Number tokens -/

/-- A number without a fraction and an exponent denotes an integer. -/
theorem Number.Legal.exists_denotes {cs : List Char} (h : Legal cs) (integral : ¬ Fractional cs) :
    ∃ n, Denotes cs n := by
  cases h with
  | @intro sign int frac exp signed integer fraction exponent =>
    obtain ⟨rfl, rfl⟩ : frac = [] ∧ exp = [] := by
      refine Classical.byContradiction fun some => integral ?_
      exact ⟨sign, int, frac, exp, signed, integer, fraction, exponent, rfl,
        Classical.not_and_iff_not_or_not.mp some⟩
    obtain ⟨nonempty, digits⟩ := Decimal.digits_of_integerPart integer
    simp only [List.append_nil]
    simp only [List.mem_cons, List.not_mem_nil, or_false] at signed
    rcases signed with rfl | rfl
    · exact ⟨_, .plain nonempty digits⟩
    · exact ⟨_, .minus nonempty digits⟩

/-- The text of a number token is a legal number, one without a fraction and an exponent if the
token is an integer. -/
theorem Lexeme.numeral_of_kind {c : Char} {cs : List Char}
    (h : (scan c cs).kind = .int ∨ (scan c cs).kind = .float) :
    Number.Legal (scan c cs).text ∧
      ((scan c cs).kind = .int → ¬ Number.Fractional (scan c cs).text) := by
  rcases scan_cases c cs with ⟨-, hc⟩ | ⟨-, hc⟩ | ⟨-, hc⟩ | ⟨-, hc⟩ | ⟨-, hc⟩
  · rcases scanSpread_cases cs with ⟨rest, -, spread⟩ | ⟨illegal, -⟩
    · simp [hc, spread] at h
    · simp [hc, illegal] at h
  · rcases StringLiteral.kind_scanFrom .plain cs with kind | kind
    · simp [hc, StringLiteral.scan, StringLiteral.kind_behind, kind] at h
    · simp [hc, StringLiteral.scan, StringLiteral.kind_behind, kind] at h
  · obtain ⟨taken, rest, -, -, number, broken⟩ := Number.scan_eq (c :: cs)
    rw [hc] at h ⊢
    by_cases legal : Number.Legal taken ∧ ¬ Number.PaddedZero taken rest
    · obtain ⟨k, scanned, float, -⟩ := number legal
      rw [scanned]
      refine ⟨legal.1, fun int fractional => ?_⟩
      cases int.symm.trans (float fractional)
    · simp [broken legal, kind_malformed] at h
  · simp [hc, scanName] at h
  · rw [hc] at h
    cases hk : TokenKind.ofChar? c with
    | none => simp [hk] at h
    | some k =>
      unfold TokenKind.ofChar? at hk
      split at hk <;> cases hk <;> simp [TokenKind.ofChar?] at h

/-- What the text of a number token of a source is. -/
theorem numeral_of_mem {source : String} {t : SpannedToken} (ht : t ∈ sourceTokens source)
    (h : t.token.kind = .int ∨ t.token.kind = .float) :
    Number.Legal t.token.text.toList ∧
      (t.token.kind = .int → ∃ n, Denotes t.token.text.toList n) := by
  obtain ⟨i, -, rfl⟩ := exists_nth_of_mem source ({} : LineLog) ht
  obtain ⟨gap, raw, rest, -, -, -, ⟨-, -, token⟩ | ⟨c, cs, -, -, token⟩⟩ :=
    covers_nth source ({} : LineLog) i
  · simp [token, Token.eof] at h
  · rw [token] at h ⊢
    obtain ⟨legal, integral⟩ := Lexeme.numeral_of_kind h
    rw [String.toList_ofList]
    exact ⟨legal, fun int => legal.exists_denotes (integral int)⟩

/-! ## Values of literals -/

namespace Literal

variable {x : Literal}

/-- An integer literal has the integer that it denotes as its value, if 64 bits can hold it. -/
theorem intValue?_eq_some_iff (int : x.kind = .int) {n : Int} (h : Denotes x.text.toList n)
    (v : Int) : x.intValue? = some v ↔ v = n ∧ -2 ^ 63 ≤ n ∧ n ≤ 2 ^ 63 - 1 := by
  rw [intValue?, int, Decimal.integer?_of_denotes h]
  simp only [Option.filter_some, Option.ite_none_right_eq_some, Bool.and_eq_true,
    decide_eq_true_eq, Option.some.injEq]
  omega

theorem intValue?_eq_none (other : x.kind ≠ .int) : x.intValue? = none := by
  cases hk : x.kind with
  | int => exact absurd hk other
  | float | string => simp [intValue?, hk]

/-- A number has a nearest double, and a string has none. -/
theorem isSome_floatValue?_iff (legal : x.kind ≠ .string → Number.Legal x.text.toList) :
    x.floatValue?.isSome = true ↔ x.kind ≠ .string := by
  have number (other : x.kind ≠ .string) :
      (((Decimal.ofText? x.text.toList).map Decimal.toFloat).or
        (namedFloat? x.text.toList)).isSome = true := by
    simp [Option.isSome_or, Decimal.isSome_ofText? (legal other)]
  cases hk : x.kind with
  | int | float => simpa [floatValue?, hk] using number (by simp [hk])
  | string => simp [floatValue?, hk]

end Literal

end GraphQL
