import GraphQL.Proofs.Files.Growth
import GraphQL.Proofs.Lexing.Lines

/-!
# The table of lines

A file may be told of any offsets in any order. It takes those that lie behind the last line start
and inside the text, so the table stays in order, and an offset that it has been told of once means
nothing to it any more. By such a table every offset of the text has one line and one column, and
both say where the offset is.

Results:
1. `Tabled.addLine`: the table stays in order.
2. `foldl_addLine_eq_self`: what a file has been told of before changes nothing.
3. `Tabled.exists_line`: which line an offset is on.
4. `FileSet.lines_resolve`: offsets, positions and lines of a file that has been told of any offsets.
-/

namespace GraphQL

namespace File

/-- The table of lines is in order: the first line starts with the text, each line starts behind the
one before it, and all but the first start inside the text. -/
def Tabled (f : File) : Prop :=
  ∃ starts, f.lines.toList = 0 :: starts ∧ (0 :: starts).Pairwise (· < ·) ∧ ∀ s ∈ starts, s < f.size

/-- No line can start at the offset any more: the last line does not start in front of it, or it does
not lie inside the text. -/
def Past (f : File) (offset : Nat) : Prop := offset ≤ f.lines.back?.getD 0 ∨ f.size ≤ offset

variable {f : File}

/-- In a row that increases the last entry is the greatest. -/
theorem le_getLast? {starts : List Nat} (increasing : starts.Pairwise (· < ·)) {s : Nat}
    (hs : s ∈ starts) : s ≤ starts.getLast?.getD 0 := by
  rcases List.eq_nil_or_concat starts with rfl | ⟨front, last, rfl⟩
  · cases hs
  · rw [List.concat_eq_append] at increasing hs ⊢
    rw [List.getLast?_concat, Option.getD_some]
    rcases List.mem_append.mp hs with hs | hs
    · exact Nat.le_of_lt ((List.pairwise_append.mp increasing).2.2 s hs last List.mem_cons_self)
    · exact Nat.le_of_eq (List.mem_singleton.mp hs)

/-! ## Telling a file of lines -/

theorem addLine_cases (f : File) (offset : Nat) :
    (f.Past offset ∧ f.addLine offset = f) ∨
      (f.lines.back?.getD 0 < offset ∧ offset < f.size ∧
        f.addLine offset = { f with lines := f.lines.push offset }) := by
  unfold addLine Past
  split
  · next new => exact .inr ⟨new.1, new.2, rfl⟩
  · next old => exact .inl ⟨by omega, rfl⟩

theorem addLine_eq_self {offset : Nat} (past : f.Past offset) : f.addLine offset = f := by
  rcases addLine_cases f offset with ⟨-, same⟩ | ⟨later, inside, -⟩
  · exact same
  · unfold Past at past
    omega

theorem past_addLine (f : File) (offset : Nat) : (f.addLine offset).Past offset := by
  rcases addLine_cases f offset with ⟨past, same⟩ | ⟨-, -, new⟩
  · rwa [same]
  · rw [new]
    exact .inl (by simp)

theorem Past.addLine {offset : Nat} (past : f.Past offset) (other : Nat) :
    (f.addLine other).Past offset := by
  rcases addLine_cases f other with ⟨-, same⟩ | ⟨later, -, new⟩
  · rwa [same]
  · rw [new]
    refine past.imp (fun h => ?_) id
    simpa using Nat.le_of_lt (Nat.lt_of_le_of_lt h later)

theorem Past.foldl_addLine {offset : Nat} (past : f.Past offset) (offsets : List Nat) :
    (offsets.foldl File.addLine f).Past offset := by
  induction offsets generalizing f with
  | nil => exact past
  | cons other offsets ih => exact ih (past.addLine other)

/-- A file has done with every offset that it has been told of. -/
theorem past_foldl_addLine (f : File) {offsets : List Nat} {offset : Nat}
    (h : offset ∈ offsets) : (offsets.foldl File.addLine f).Past offset := by
  obtain ⟨before, behind, rfl⟩ := List.append_of_mem h
  rw [List.foldl_append, List.foldl_cons]
  exact (past_addLine _ offset).foldl_addLine behind

theorem foldl_addLine_eq_self {offsets : List Nat} (past : ∀ o ∈ offsets, f.Past o) :
    offsets.foldl File.addLine f = f := by
  induction offsets with
  | nil => rfl
  | cons offset offsets ih =>
    obtain ⟨first, others⟩ := List.forall_mem_cons.mp past
    rw [List.foldl_cons, addLine_eq_self first, ih others]

/-- A file that has just been registered has one line. -/
theorem tabled_of_fresh (fresh : f.lines = #[0]) : f.Tabled :=
  ⟨[], by rw [fresh], List.pairwise_singleton _ _, nofun⟩

theorem Tabled.addLine (h : f.Tabled) (offset : Nat) : (f.addLine offset).Tabled := by
  rcases addLine_cases f offset with ⟨-, same⟩ | ⟨later, inside, new⟩
  · rwa [same]
  · obtain ⟨starts, table, increasing, below⟩ := h
    rw [new]
    refine ⟨starts ++ [offset], ?_, ?_, ?_⟩
    · rw [Array.toList_push, table, List.cons_append]
    · rw [← List.cons_append]
      refine List.pairwise_append.mpr ⟨increasing, List.pairwise_singleton _ _, fun s hs o ho => ?_⟩
      rw [← Array.getLast?_toList, table] at later
      exact List.mem_singleton.mp ho ▸ Nat.lt_of_le_of_lt (le_getLast? increasing hs) later
    · intro s hs
      rcases List.mem_append.mp hs with hs | hs
      · exact below s hs
      · exact List.mem_singleton.mp hs ▸ inside

theorem Tabled.foldl_addLine (h : f.Tabled) (offsets : List Nat) :
    (offsets.foldl File.addLine f).Tabled := by
  induction offsets generalizing f with
  | nil => exact h
  | cons offset offsets ih => exact ih (h.addLine offset)

/-! ## Looking an offset up -/

/-- The line of an offset has been reached. It starts at the offset or in front of it, and no line
starts in between. -/
theorem Tabled.exists_line (h : f.Tabled) (offset : Nat) :
    ∃ start, 1 ≤ f.lineOf offset ∧ f.lineStart? (f.lineOf offset) = some start ∧ start ≤ offset ∧
      ∀ s ∈ f.lines, s ≤ offset → s ≤ start := by
  obtain ⟨starts, table, increasing, -⟩ := h
  have later := (List.pairwise_cons.mp increasing).2
  obtain ⟨start, found, le⟩ := exists_lineStart table later offset
  refine ⟨start, by rw [lineOf_eq table]; omega, found, le, fun s hs before => ?_⟩
  rw [lineStart?_lineOf table later, Option.some.injEq] at found
  rw [← found]
  rw [← Array.mem_toList_iff, table] at hs
  rcases List.mem_cons.mp hs with rfl | hs
  · exact Nat.zero_le _
  · exact le_getLast? (later.filter _) (List.mem_filter.mpr ⟨hs, by simpa using before⟩)

theorem lineOf_mono (f : File) {a b : Nat} (h : a ≤ b) : f.lineOf a ≤ f.lineOf b := by
  unfold lineOf
  rw [← Array.countP_toList, ← Array.countP_toList]
  refine List.countP_mono_left fun s _ hs => ?_
  simp only [decide_eq_true_eq] at hs ⊢
  omega

/-- An offset further on has a later line, or the same line and a later column. -/
theorem Tabled.locate_lt (h : f.Tabled) {a b : Nat} (lt : a < b) :
    (f.locate a).line < (f.locate b).line ∨
      (f.locate a).line = (f.locate b).line ∧ (f.locate a).column < (f.locate b).column := by
  rcases Nat.lt_or_eq_of_le (f.lineOf_mono (Nat.le_of_lt lt)) with line | same
  · exact .inl line
  · obtain ⟨start, -, found, before, -⟩ := h.exists_line a
    refine .inr ⟨same, ?_⟩
    simp only [locate, ← same, found, Option.getD_some]
    omega

theorem pos_eq_error_iff (f : File) (offset : Nat) :
    (∃ v, f.pos offset = .error v) ↔ f.size < offset := by
  unfold pos
  split
  · next inside => exact iff_of_false nofun (Nat.not_lt_of_le inside)
  · next outside => exact iff_of_true ⟨_, rfl⟩ (Nat.lt_of_not_le outside)

theorem offset_eq_error_iff (f : File) (p : Pos) :
    (∃ v, f.offset p = .error v) ↔ f.contains p = false := by
  unfold offset
  split
  · next owned => exact iff_of_false nofun (by rw [owned]; decide)
  · next foreign => exact iff_of_true ⟨_, rfl⟩ (Bool.eq_false_iff.mpr foreign)

theorem position_eq_error_iff (f : File) {p : Pos} (valid : p.isValid = true) :
    (∃ v, f.position p = .error v) ↔ f.contains p = false := by
  rw [← offset_eq_error_iff, position, if_pos valid]
  cases f.offset p with
  | ok o => refine iff_of_false ?_ ?_ <;> (rintro ⟨v, h⟩; cases h)
  | error v => exact iff_of_true ⟨_, rfl⟩ ⟨_, rfl⟩

/-- The positions that a file owns are those of its offsets. -/
theorem contains_iff_exists_pos (f : File) (p : Pos) :
    f.contains p = true ↔ ∃ o, o ≤ f.size ∧ f.pos o = .ok p := by
  rw [contains_iff]
  constructor
  · rintro ⟨low, high⟩
    refine ⟨p.raw - f.base, by omega, ?_⟩
    rw [pos, if_pos (by omega), Nat.add_sub_cancel' low]
  · rintro ⟨o, inside, found⟩
    rw [pos, if_pos inside] at found
    obtain rfl := Except.ok.inj found
    exact ⟨Nat.le_add_right _ _, Nat.add_le_add_left inside _⟩

/-- An offset of the text has a position, which resolves to the offset, its line and its column, if
the file does not own the position that stands for none. -/
theorem resolves (nonzero : 0 < f.base) {o : Nat} (inside : o ≤ f.size) :
    f.pos o = .ok ⟨f.base + o⟩ ∧ f.offset ⟨f.base + o⟩ = .ok o ∧
      f.position ⟨f.base + o⟩ = .ok (f.locate o) := by
  refine ⟨pos_of_sameRange (.refl f) inside, ?_, position_base_add inside (by omega)⟩
  rw [offset, if_pos (contains_base_add inside)]
  exact congrArg Except.ok (Nat.add_sub_cancel_left f.base o)

end File

/-- Whatever offsets a file is told of after it has been registered, its table of lines is in order,
and telling it again changes nothing. Every offset up to its size has a position, which resolves to
the offset, and to a line and a column: the line starts at the offset or in front of it, with no
other line start in between, and the column counts from there. So places are in the order of their
offsets. The operations refuse only offsets behind the size and positions that are not those of an
offset of the file. -/
theorem FileSet.lines_resolve {s s' : FileSet} {name : String} {size : Nat} {f₀ : File}
    (built : s.Built) (added : s.addFile name size = .ok (f₀, s')) (offsets : List Nat) :
    let f := offsets.foldl File.addLine f₀
    (∃ starts, f.lines.toList = 0 :: starts ∧ (0 :: starts).Pairwise (· < ·) ∧
      ∀ x ∈ starts, x < size) ∧
    (∀ again : List Nat, (∀ o ∈ again, o ∈ offsets) → again.foldl File.addLine f = f) ∧
    (∃ place : Nat → Position,
      (∀ o, o ≤ size → ∃ p start, f.pos o = .ok p ∧ f.offset p = .ok o ∧
        f.position p = .ok (place o) ∧ 1 ≤ (place o).line ∧
        f.lineStart? (place o).line = some start ∧ start ≤ o ∧
        (∀ x ∈ f.lines, ¬ (start < x ∧ x ≤ o)) ∧ start + (place o).column = o + 1) ∧
      ∀ a b, a < b → b ≤ size →
        (place a).line < (place b).line ∨
          (place a).line = (place b).line ∧ (place a).column < (place b).column) ∧
    (∀ o, (∃ v, f.pos o = .error v) ↔ size < o) ∧
    ∀ p : Pos, (f.contains p = true ↔ ∃ o, o ≤ size ∧ f.pos o = .ok p) ∧
      ((∃ v, f.offset p = .error v) ↔ f.contains p = false) ∧
      (p.isValid = true → ((∃ v, f.position p = .error v) ↔ f.contains p = false)) := by
  intro f
  obtain ⟨registered, -⟩ := addFile_eq_ok added
  obtain ⟨-, base, size_eq⟩ : f₀.SameRange f := sameRange_foldl_addLine f₀ offsets
  have nonzero : 0 < f.base := by
    rw [base, registered]
    exact built.ordered.positive
  have size_eq : f.size = size := by
    rw [size_eq, registered]
  have tabled : f.Tabled := (File.tabled_of_fresh (by rw [registered])).foldl_addLine offsets
  rw [← size_eq]
  refine ⟨tabled, fun again known => ?_,
    ⟨f.locate, fun o inside => ?_, fun a b lt _ => tabled.locate_lt lt⟩, f.pos_eq_error_iff,
    fun p => ⟨f.contains_iff_exists_pos p, f.offset_eq_error_iff p, f.position_eq_error_iff⟩⟩
  · exact File.foldl_addLine_eq_self fun o ho => File.past_foldl_addLine f₀ (known o ho)
  · obtain ⟨pos, offset, position⟩ := File.resolves nonzero inside
    obtain ⟨start, first, found, before, between⟩ := tabled.exists_line o
    refine ⟨_, start, pos, offset, position, first, found, before, fun x hx inBetween => ?_, ?_⟩
    · exact Nat.not_lt_of_le (between x hx inBetween.2) inBetween.1
    · simp only [File.locate, found, Option.getD_some]
      omega

/-- Told of 3, 1, 7 and 3 again, a file of five bytes has two lines, and the end of its text is on the
second one. Told of 7 and 1 once more it stays what it is. -/
theorem FileSet.lines_resolve_unordered :
    ∃ f₀ s', ({} : FileSet).addFile "a" 5 = .ok (f₀, s') ∧
      ([3, 1, 7, 3].foldl File.addLine f₀).lines = #[0, 3] ∧
      [7, 1].foldl File.addLine ([3, 1, 7, 3].foldl File.addLine f₀) =
        [3, 1, 7, 3].foldl File.addLine f₀ ∧
      ∃ p q, ([3, 1, 7, 3].foldl File.addLine f₀).pos 5 = .ok p ∧
        ([3, 1, 7, 3].foldl File.addLine f₀).position p = .ok q ∧ 1 ≤ q.line := by
  have added : ({} : FileSet).addFile "a" 5 =
      .ok (⟨"a", 1, 5, #[0]⟩, ⟨7, #[⟨"a", 1, 5, #[0]⟩]⟩) := rfl
  obtain ⟨-, again, ⟨place, inside, -⟩, -⟩ := lines_resolve .empty added [3, 1, 7, 3]
  obtain ⟨p, start, pos, -, position, first, -⟩ := inside 5 (Nat.le_refl 5)
  exact ⟨_, _, added, by decide, again [7, 1] (by decide), p, _, pos, position, first⟩

end GraphQL
