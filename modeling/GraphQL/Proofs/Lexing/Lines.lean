import GraphQL.Proofs.Lexing.Placement

/-!
# Line starts

A lexer reports the offset just past every newline that it reads, each once and in increasing order.
The file of a text keeps those that lie inside the text, so at any moment its table of lines is
that of the text as far as it has been read. An offset that has been read already is placed on the
same line by this table and by the one of the whole text: `textPlace` says which line that is,
counting the newline bytes of the text.

Results:
1. `lineStarts_eq_map`: the line starts are the places just past the newline bytes.
2. `lines_advance`, `File.foldl_addLine`: a sink is told of the line starts that are read, and a
   file keeps those that lie inside it.
3. `locate_after`: an offset that has been read is on the line that the text says.
-/

namespace GraphQL

/-- The offsets just past the newlines of the characters, the first of which has the given
offset. -/
def lineStarts (offset : Nat) : List Char → List Nat
  | [] => []
  | c :: cs =>
    if c = '\n' then (offset + c.utf8Size) :: lineStarts (offset + c.utf8Size) cs
    else lineStarts (offset + c.utf8Size) cs

/-- The indices of the newlines in a row of bytes. -/
def newlines (bytes : List UInt8) : List Nat :=
  (List.range bytes.length).filter fun j => bytes[j]? = some 0x0A

/-- The indices of the newline bytes of the text behind which a line starts that is not beyond the
offset. Behind a newline that ends the text no line starts. -/
def newlinesUpTo (source : String) (offset : Nat) : List Nat :=
  (newlines source.toByteArray.data.toList).filter fun j =>
    j + 1 ≤ offset ∧ j + 1 < source.utf8ByteSize

/-- The place of an offset in a text, by the newline bytes in front of it. -/
def textPlace (source name : String) (offset : Nat) : Position :=
  { fileName := name
    offset := offset
    line := 1 + (newlinesUpTo source offset).length
    column := offset - ((newlinesUpTo source offset).getLast?.map (· + 1)).getD 0 + 1 }

/-! ## Newlines -/

theorem lineStarts_append (n : Nat) (cs ds : List Char) :
    lineStarts n (cs ++ ds) = lineStarts n cs ++ lineStarts (n + byteLength cs) ds := by
  induction cs generalizing n with
  | nil => simp [lineStarts]
  | cons c cs ih =>
    simp only [List.cons_append, lineStarts, ih, byteLength_cons, Nat.add_assoc]
    split <;> rfl

theorem bounds_of_mem_lineStarts {n s : Nat} {cs : List Char} (h : s ∈ lineStarts n cs) :
    n < s ∧ s ≤ n + byteLength cs := by
  induction cs generalizing n with
  | nil => cases h
  | cons c cs ih =>
    have positive := c.utf8Size_pos
    have behind (h : s ∈ lineStarts (n + c.utf8Size) cs) :
        n < s ∧ s ≤ n + byteLength (c :: cs) := by
      have := ih h
      rw [byteLength_cons]
      omega
    simp only [lineStarts] at h
    split at h
    · rcases List.mem_cons.mp h with rfl | h
      · rw [byteLength_cons]
        omega
      · exact behind h
    · exact behind h

theorem pairwise_lineStarts (n : Nat) (cs : List Char) : (lineStarts n cs).Pairwise (· < ·) := by
  induction cs generalizing n with
  | nil => exact .nil
  | cons c cs ih =>
    simp only [lineStarts]
    split
    · exact List.pairwise_cons.mpr ⟨fun s hs => (bounds_of_mem_lineStarts hs).1, ih _⟩
    · exact ih _

/-- Only the encoding of the newline has a newline byte: the bytes of a character that takes more
than one are all above `0x7F`. -/
theorem newline_mem_utf8EncodeChar {c : Char} :
    (0x0A : UInt8) ∈ String.utf8EncodeChar c ↔ c = '\n' := by
  constructor
  · intro h
    have high {n : Nat} {bs : List UInt8} (low : 0x80 ≤ n) (fits : n < 0x100)
        (others : (0x0A : UInt8) ∉ bs) : (0x0A : UInt8) ∉ UInt8.ofNat n :: bs := by
      refine List.not_mem_cons_of_ne_of_not_mem (fun e => ?_) others
      have := congrArg UInt8.toNat e
      rw [UInt8.toNat_ofNat', Nat.mod_eq_of_lt fits,
        show (0x0A : UInt8).toNat = 10 from rfl] at this
      omega
    simp only [String.utf8EncodeChar] at h
    split at h
    · have byte := congrArg UInt8.toNat (List.mem_singleton.mp h)
      rw [UInt8.toNat_ofNat', Nat.mod_eq_of_lt (by omega)] at byte
      exact Char.ext (UInt32.toNat_inj.mp byte.symm)
    · refine absurd h ?_
      split
      · exact high (by omega) (by omega) <| high (by omega) (by omega) List.not_mem_nil
      split
      · exact high (by omega) (by omega) <| high (by omega) (by omega) <|
          high (by omega) (by omega) List.not_mem_nil
      · exact high (by omega) (by omega) <| high (by omega) (by omega) <|
          high (by omega) (by omega) <| high (by omega) (by omega) List.not_mem_nil
  · rintro rfl
    decide

theorem newlines_append (as bs : List UInt8) :
    newlines (as ++ bs) = newlines as ++ (newlines bs).map (as.length + ·) := by
  have first : (List.range as.length).filter (fun j => (as ++ bs)[j]? = some 0x0A) =
      newlines as := by
    refine List.filter_congr fun j hj => ?_
    rw [List.getElem?_append_left (List.mem_range.mp hj)]
  have second : (List.range bs.length).filter
      ((fun j => decide ((as ++ bs)[j]? = some 0x0A)) ∘ (as.length + ·)) = newlines bs := by
    refine List.filter_congr fun j _ => ?_
    rw [Function.comp_apply, List.getElem?_append_right (Nat.le_add_right _ _),
      Nat.add_sub_cancel_left]
  rw [newlines, List.length_append, List.range_add, List.filter_append, List.filter_map, first,
    second]

theorem newlines_utf8EncodeChar (c : Char) :
    newlines (String.utf8EncodeChar c) = if c = '\n' then [0] else [] := by
  split
  · next h =>
    subst h
    decide
  · next h =>
    refine List.filter_eq_nil_iff.mpr fun j _ found => h ?_
    exact newline_mem_utf8EncodeChar.mp (List.mem_of_getElem? (of_decide_eq_true found))

/-- The line starts are the places just past the newline bytes. -/
theorem lineStarts_eq_map (n : Nat) (cs : List Char) :
    lineStarts n cs = (newlines (cs.flatMap String.utf8EncodeChar)).map (n + · + 1) := by
  induction cs generalizing n with
  | nil => rfl
  | cons c cs ih =>
    rw [List.flatMap_cons, newlines_append, List.map_append, List.map_map, lineStarts, ih,
      newlines_utf8EncodeChar, String.length_utf8EncodeChar]
    have shift : (fun j => n + c.utf8Size + j + 1) = (n + · + 1) ∘ (c.utf8Size + ·) := by
      funext j
      simp only [Function.comp_apply, Nat.add_assoc]
    rw [shift]
    split
    · next h =>
      subst h
      rfl
    · rfl

theorem data_toByteArray (source : String) :
    source.toByteArray.data.toList = source.toList.flatMap String.utf8EncodeChar := by
  conv => lhs; rw [← String.ofList_toList (s := source)]
  rw [String.toByteArray_ofList, List.utf8Encode, List.data_toByteArray]

/-- Where the lines start up to an offset, the first one apart. -/
theorem map_newlinesUpTo (source : String) (offset : Nat) :
    (newlinesUpTo source offset).map (· + 1) =
      (lineStarts 0 source.toList).filter fun s => s ≤ offset ∧ s < source.utf8ByteSize := by
  rw [lineStarts_eq_map, List.filter_map, newlinesUpTo, data_toByteArray]
  simp only [Nat.zero_add]
  rfl

/-! ## Files -/

namespace File

/-- A file keeps the line starts that lie inside it, if they are reported in increasing order. -/
theorem foldl_addLine {f : File} {starts : List Nat} (increasing : starts.Pairwise (· < ·))
    (later : ∀ s ∈ starts, f.lines.back?.getD 0 < s) :
    starts.foldl addLine f =
      { f with lines := f.lines ++ (starts.filter (· < f.size)).toArray } := by
  induction starts generalizing f with
  | nil => simp
  | cons s starts ih =>
    obtain ⟨first, increasing⟩ := List.pairwise_cons.mp increasing
    have beyond := later s List.mem_cons_self
    rw [List.foldl_cons]
    by_cases inside : s < f.size
    · have kept : f.addLine s = { f with lines := f.lines.push s } := if_pos ⟨beyond, inside⟩
      rw [kept, ih increasing (by simpa using first)]
      simp [inside]
    · have left : f.addLine s = f := if_neg fun h => inside h.2
      rw [left, ih increasing fun s hs => later s (List.mem_cons_of_mem _ hs)]
      simp [inside]

/-- In a row that increases, the entries up to a bound come first. -/
theorem filter_le_isPrefix {starts : List Nat} (increasing : starts.Pairwise (· < ·))
    (bound : Nat) : starts.filter (· ≤ bound) <+: starts := by
  induction starts with
  | nil => exact List.prefix_rfl
  | cons s starts ih =>
    obtain ⟨first, increasing⟩ := List.pairwise_cons.mp increasing
    by_cases h : s ≤ bound
    · rw [List.filter_cons_of_pos (by simpa using h)]
      exact List.cons_prefix_cons.mpr ⟨rfl, ih increasing⟩
    · have none : (s :: starts).filter (· ≤ bound) = [] := by
        refine List.filter_eq_nil_iff.mpr fun t ht => ?_
        rcases List.mem_cons.mp ht with rfl | ht
        · simpa using h
        · have := first t ht
          simp only [decide_eq_true_eq]
          omega
      rw [none]
      exact List.nil_prefix

section Table

variable {f : File} {starts : List Nat} (table : f.lines.toList = 0 :: starts)
include table

theorem lineOf_eq (offset : Nat) : f.lineOf offset = 1 + (starts.filter (· ≤ offset)).length := by
  rw [lineOf, ← Array.countP_toList, table, List.countP_cons_of_pos (by simp),
    List.countP_eq_length_filter, Nat.add_comm]

variable (increasing : starts.Pairwise (· < ·))
include increasing

/-- The line starts up to the offset come first in the table, so the last of them has the number of
the line. -/
theorem lineStart?_lineOf (offset : Nat) :
    f.lineStart? (f.lineOf offset) =
      some ((starts.filter (· ≤ offset)).getLast?.getD 0) := by
  obtain ⟨others, split⟩ := filter_le_isPrefix increasing offset
  have whole : 0 :: starts = (0 :: starts.filter (· ≤ offset)) ++ others := by
    rw [List.cons_append, split]
  rw [lineOf_eq table, lineStart?, if_neg (by omega), ← Array.getElem?_toList, table, whole,
    Nat.add_sub_cancel_left, ← List.getLast?_cons, List.getLast?_eq_getElem?, List.length_cons,
    Nat.add_sub_cancel]
  exact List.getElem?_append_left (by rw [List.length_cons]; omega)

/-- The line of an offset starts at the offset or in front of it. -/
theorem exists_lineStart (offset : Nat) :
    ∃ start, f.lineStart? (f.lineOf offset) = some start ∧ start ≤ offset := by
  refine ⟨_, lineStart?_lineOf table increasing offset, ?_⟩
  cases h : (starts.filter (· ≤ offset)).getLast? with
  | none => exact Nat.zero_le offset
  | some start => exact of_decide_eq_true (List.mem_filter.mp (List.mem_of_getLast? h)).2

/-- The line and the column of an offset by a table that is in increasing order. -/
theorem locate_eq (offset : Nat) :
    f.locate offset =
      { fileName := f.name
        offset := offset
        line := 1 + (starts.filter (· ≤ offset)).length
        column := offset - (starts.filter (· ≤ offset)).getLast?.getD 0 + 1 } := by
  rw [locate, lineStart?_lineOf table increasing, lineOf_eq table]
  rfl

end Table

end File

/-! ## Reading -/

namespace Lexer

variable {σ : Type} [LineSink σ]

/-- The sink is told of the line starts among the characters. -/
theorem lines_advance (l : Lexer σ) (cs rest : List Char) :
    (l.advance cs rest).lines = (lineStarts l.offset cs).foldl LineSink.addLine l.lines := by
  change (cs.foldl step l).lines = _
  induction cs generalizing l with
  | nil => rfl
  | cons c cs ih =>
    rw [List.foldl_cons, ih]
    by_cases h : c = '\n' <;> simp [step, lineStarts, h]

/-- The file of a text that has been read in part has the lines that have been reached. -/
theorem lines_after (source : String) {file : File} (fresh : file.lines = #[0]) (n : Nat) :
    ∃ taken, source.toList = taken ++ ((ofSource source file).after n).rest ∧
      ((ofSource source file).after n).offset = byteLength taken ∧
      ((ofSource source file).after n).lines =
        { file with
          lines := #[0] ++ ((lineStarts 0 taken).filter (· < file.size)).toArray } := by
  obtain ⟨taken, rest, advanced⟩ := exists_advance_after (ofSource source file) n
  refine ⟨taken, rest, ?_, ?_⟩
  · rw [advanced, offset_advance]
    exact Nat.zero_add _
  · rw [advanced, lines_advance, ← fresh]
    refine File.foldl_addLine (pairwise_lineStarts 0 taken) fun s hs => ?_
    have last : file.lines.back?.getD 0 = 0 := by
      rw [fresh]
      rfl
    exact Nat.lt_of_le_of_lt (Nat.le_of_eq last) (bounds_of_mem_lineStarts hs).1

/-- Every offset has a line that the file knows of. -/
theorem exists_lineStart_after (source : String) {file : File} (fresh : file.lines = #[0])
    (n offset : Nat) :
    ∃ start, ((ofSource source file).after n).lines.lineStart?
      (((ofSource source file).after n).lines.lineOf offset) = some start ∧ start ≤ offset := by
  obtain ⟨taken, -, -, lines⟩ := lines_after source fresh n
  have increasing : ((lineStarts 0 taken).filter (· < file.size)).Pairwise (· < ·) :=
    (pairwise_lineStarts 0 taken).filter _
  exact File.exists_lineStart (by rw [lines]; simp) increasing offset

/-- An offset that has been read is placed where the text says, although the table of lines goes no
further than the lexer. -/
theorem locate_after (source : String) {file : File} (fresh : file.lines = #[0])
    (size : file.size = source.utf8ByteSize) {n offset : Nat}
    (reached : offset ≤ ((ofSource source file).after n).offset) :
    ((ofSource source file).after n).lines.locate offset = textPlace source file.name offset := by
  obtain ⟨taken, split, read, lines⟩ := lines_after source fresh n
  have increasing : ((lineStarts 0 taken).filter (· < file.size)).Pairwise (· < ·) :=
    (pairwise_lineStarts 0 taken).filter _
  -- the lines behind the lexer do not start at the offset or in front of it
  have upTo : ((lineStarts 0 taken).filter (· < file.size)).filter (· ≤ offset) =
      (newlinesUpTo source offset).map (· + 1) := by
    have behind : (lineStarts (0 + byteLength taken)
        ((ofSource source file).after n).rest).filter
          (fun s => decide (s ≤ offset ∧ s < source.utf8ByteSize)) = [] := by
      refine List.filter_eq_nil_iff.mpr fun s hs => ?_
      have := (bounds_of_mem_lineStarts hs).1
      simp only [decide_eq_true_eq]
      omega
    rw [map_newlinesUpTo, split, lineStarts_append, List.filter_append, behind, List.append_nil,
      List.filter_filter, size]
    exact List.filter_congr fun s _ => by simp
  rw [File.locate_eq (by rw [lines]; simp) increasing, upTo, lines, textPlace, List.length_map,
    List.getLast?_map]

end Lexer

end GraphQL
