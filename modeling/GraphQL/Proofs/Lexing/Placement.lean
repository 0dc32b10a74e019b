import GraphQL.Proofs.Lexing.Sequence
import GraphQL.Tree.Basic

/-!
# The tokens of a file

A lexer over the text of a file reports its line starts to the file, which changes nothing but the
table of lines. So the file still owns every offset that the lexer comes to, and the tokens have
positions.

Results:
1. `sameRange_after`: the range of positions that the file owns stays as it is.
2. `pos_of_sameRange`, `position_of_sameRange`: an offset inside the text has a position, and the
   position resolves to that offset.
3. `pos_tape_lt_stop_tape`, `stop_tape_le_pos_tape`: the positions of the tokens increase.
-/

namespace GraphQL

namespace File

/-- The files agree on everything but their lines. -/
def SameRange (f g : File) : Prop := g.name = f.name ∧ g.base = f.base ∧ g.size = f.size

theorem SameRange.refl (f : File) : SameRange f f := ⟨rfl, rfl, rfl⟩

theorem SameRange.trans {f g h : File} (hfg : SameRange f g) (hgh : SameRange g h) :
    SameRange f h :=
  ⟨hgh.1.trans hfg.1, hgh.2.1.trans hfg.2.1, hgh.2.2.trans hfg.2.2⟩

theorem sameRange_addLine (f : File) (offset : Nat) : SameRange f (f.addLine offset) := by
  unfold addLine
  split <;> exact ⟨rfl, rfl, rfl⟩

theorem pos_of_sameRange {f g : File} (same : SameRange f g) {offset : Nat}
    (inside : offset ≤ f.size) : g.pos offset = .ok ⟨f.base + offset⟩ := by
  obtain ⟨-, hb, hs⟩ := same
  rw [pos, if_pos (hs ▸ inside), hb]

theorem contains_base_add {f : File} {offset : Nat} (inside : offset ≤ f.size) :
    f.contains ⟨f.base + offset⟩ = true := by
  simp only [contains, Bool.and_eq_true, decide_eq_true_eq]
  omega

/-- A position that the file owns resolves to its line and column. -/
theorem position_base_add {f : File} {offset : Nat} (inside : offset ≤ f.size)
    (valid : f.base + offset ≠ 0) : f.position ⟨f.base + offset⟩ = .ok (f.locate offset) := by
  have found : f.offset ⟨f.base + offset⟩ = .ok offset := by
    rw [File.offset, if_pos (contains_base_add inside)]
    exact congrArg Except.ok (Nat.add_sub_cancel_left f.base offset)
  have isValid : (Pos.mk (f.base + offset)).isValid = true := decide_eq_true valid
  rw [position, if_pos isValid, found]
  rfl

/-- A position resolves to the offset that it was made from. -/
theorem position_of_sameRange {f g : File} (same : SameRange f g) {offset : Nat}
    (inside : offset ≤ f.size) :
    ∃ p, g.position ⟨f.base + offset⟩ = .ok p ∧ p.offset = offset := by
  obtain ⟨-, hb, hs⟩ := same
  rw [← hs] at inside
  rw [← hb]
  by_cases valid : g.base + offset = 0
  · refine ⟨{}, by simp [position, Pos.isValid, valid], ?_⟩
    show 0 = offset
    omega
  · exact ⟨g.locate offset, position_base_add inside valid, rfl⟩

end File

namespace Lexer

theorem sameRange_foldl_step (l : Lexer File) (cs : List Char) :
    l.lines.SameRange (cs.foldl step l).lines := by
  induction cs generalizing l with
  | nil => exact .refl _
  | cons c cs ih =>
    refine File.SameRange.trans ?_ (ih (l.step c))
    simp only [step]
    split
    · exact File.sameRange_addLine _ _
    · exact .refl _

theorem sameRange_read (l : Lexer File) : l.lines.SameRange l.read.2.lines := by
  rcases span_cases l.rest with ⟨trivia, h⟩ | ⟨trivia, c, cs, h⟩
  · rw [read_of_span_eq_nil h]
    exact sameRange_foldl_step l trivia
  · rw [read_of_span_eq_cons h]
    exact (sameRange_foldl_step l trivia).trans
      (sameRange_foldl_step (l.advance trivia (c :: cs)) (Lexeme.scan c cs).raw)

theorem sameRange_after (l : Lexer File) (n : Nat) : l.lines.SameRange (l.after n).lines := by
  induction n with
  | zero => exact .refl _
  | succ n ih => exact ih.trans (sameRange_read (l.after n))

end Lexer

/-- The token at its positions in a file that starts at `base`. -/
def SpannedToken.placed (base : Nat) (t : SpannedToken) : PlacedToken :=
  ⟨t.token, ⟨base + t.start⟩, ⟨base + t.stop⟩⟩

/-- The tokens of a text at their positions in a file that starts at `base`. Behind the end of the
text the last token is repeated. -/
def tape (source : String) (base n : Nat) : PlacedToken :=
  ((Lexer.ofSource source ({} : LineLog)).nth n).placed base

section Tape

variable (source : String) (base : Nat)

theorem tape_eq_placed {σ : Type} [LineSink σ] (lines : σ) (n : Nat) :
    tape source base n = ((Lexer.ofSource source lines).nth n).placed base := by
  rw [tape, Lexer.nth_eq_of_samePlace (l := Lexer.ofSource source ({} : LineLog))
    (k := Lexer.ofSource source lines) ⟨rfl, rfl⟩ n]

/-- All tokens lie inside the text. -/
theorem stop_nth_ofSource_le {σ : Type} [LineSink σ] (lines : σ) (n : Nat) :
    ((Lexer.ofSource source lines).nth n).stop ≤ source.utf8ByteSize := by
  have h := Lexer.stop_nth_le (Lexer.ofSource source lines) n
  simp only [Lexer.ofSource, byteLength_toList, Nat.zero_add] at h
  exact h

theorem kind_tape_tokenCount : (tape source base (tokenCount source)).token.kind = .eof :=
  kind_nth_tokenCount source ({} : LineLog)

theorem kind_tape_ne_eof {i : Nat} (h : i < tokenCount source) :
    (tape source base i).token.kind ≠ .eof :=
  kind_nth_ne_eof source ({} : LineLog) h

theorem pos_tape_lt_stop_tape {i : Nat} (h : i < tokenCount source) :
    (tape source base i).pos.raw < (tape source base i).stop.raw :=
  Nat.add_lt_add_left (Lexer.start_lt_stop_read (kind_nth_ne_eof source ({} : LineLog) h)) base

theorem stop_tape_le_pos_tape {i j : Nat} (h : i < j) :
    (tape source base i).stop.raw ≤ (tape source base j).pos.raw :=
  Nat.add_le_add_left (Lexer.stop_nth_le_start_nth _ h) base

theorem pos_tape_lt_pos_tape {i j : Nat} (h : i < j) (hj : j ≤ tokenCount source) :
    (tape source base i).pos.raw < (tape source base j).pos.raw :=
  Nat.lt_of_lt_of_le (pos_tape_lt_stop_tape source base (Nat.lt_of_lt_of_le h hj))
    (stop_tape_le_pos_tape source base h)

/-- No two tokens start at the same place. -/
theorem eq_of_pos_tape_eq {i j : Nat} (hi : i ≤ tokenCount source) (hj : j ≤ tokenCount source)
    (same : (tape source base i).pos = (tape source base j).pos) : i = j := by
  rcases Nat.lt_trichotomy i j with lt | eq | gt
  · exact absurd (congrArg Pos.raw same) (Nat.ne_of_lt (pos_tape_lt_pos_tape source base lt hj))
  · exact eq
  · exact absurd (congrArg Pos.raw same) (Nat.ne_of_gt (pos_tape_lt_pos_tape source base gt hi))

end Tape

end GraphQL
