import GraphQL.FileSet
import GraphQL.Proofs.Lexing.Placement

/-!
# Who owns a position

A set of files is made by registering files and by telling the file registered last of its line
starts. In every set that is made like this the positions of a file follow those of the file before
it, and none of them is the position that belongs to no file. So a position of the last file
resolves through the set to what the file itself says.

Results:
1. `Built.ordered`: the files of a set are in the order of their positions.
2. `position?_push`: a position of the last file resolves through that file.
-/

namespace GraphQL

namespace FileSet

/-- The sets of files that can be made. -/
inductive Built : FileSet → Prop
  | empty : Built {}
  | addFile {s s' : FileSet} {name : String} {size : Nat} {f : File} :
      Built s → s.addFile name size = .ok (f, s') → Built s'
  | addLine {s : FileSet} (offset : Nat) : Built s → Built (s.modifyLast (·.addLine offset))

/-- The files start in front of the positions that are left, and position zero is not one of
them. -/
structure Ordered (s : FileSet) : Prop where
  positive : 0 < s.base
  below : ∀ f ∈ s.files, f.base < s.base

/-- The set with one more file behind the others. -/
def push (s : FileSet) (f : File) : FileSet :=
  { base := s.base + f.size + 1, files := s.files.push f }

theorem addFile_eq_ok {s s' : FileSet} {name : String} {size : Nat} {f : File}
    (h : s.addFile name size = .ok (f, s')) :
    f = { name := name, base := s.base, size := size } ∧ s' = s.push f := by
  unfold addFile at h
  split at h
  · obtain ⟨rfl, rfl⟩ := Prod.mk.inj (Except.ok.inj h)
    exact ⟨rfl, rfl⟩
  · cases h

/-- Line starts do not change which positions a file owns. -/
theorem exists_base_of_mem_modifyLast {s : FileSet} {offset : Nat} {f : File}
    (h : f ∈ (s.modifyLast (·.addLine offset)).files) : ∃ g ∈ s.files, f.base = g.base := by
  obtain ⟨i, hi, rfl⟩ := Array.mem_iff_getElem.mp h
  have hi' : i < s.files.size := by simpa [modifyLast] using hi
  refine ⟨s.files[i], Array.getElem_mem hi', ?_⟩
  simp only [modifyLast, Array.getElem_modify]
  split
  · exact (File.sameRange_addLine s.files[i] offset).2.1
  · rfl

theorem Built.ordered {s : FileSet} (h : Built s) : s.Ordered := by
  induction h with
  | empty => exact ⟨Nat.zero_lt_one, fun f hf => absurd hf (Array.not_mem_empty f)⟩
  | @addFile s s' name size f _ added ih =>
    obtain ⟨rfl, rfl⟩ := addFile_eq_ok added
    refine ⟨Nat.succ_pos _, fun g hg => ?_⟩
    have room : s.base < s.base + size + 1 := by omega
    rcases Array.mem_push.mp hg with hg | rfl
    · exact Nat.lt_trans (ih.below g hg) room
    · exact room
  | addLine offset _ ih =>
    refine ⟨ih.positive, fun f hf => ?_⟩
    obtain ⟨g, hg, same⟩ := exists_base_of_mem_modifyLast hf
    exact same ▸ ih.below g hg

/-- Changing the file that has been registered last. -/
theorem modifyLast_push (s : FileSet) {f : File} (change : File → File)
    (size : (change f).size = f.size) : (s.push f).modifyLast change = s.push (change f) := by
  have files : (s.push f).files.modify ((s.push f).files.size - 1) change =
      s.files.push (change f) := by
    refine Array.ext (by simp [push]) fun i hi hi' => ?_
    simp only [push, Array.size_push, Nat.add_sub_cancel] at hi' ⊢
    rw [Array.getElem_modify, Array.getElem_push, Array.getElem_push]
    rcases Nat.lt_or_ge i s.files.size with h | h
    · simp [h, Nat.ne_of_gt h]
    · obtain rfl : i = s.files.size := by omega
      simp
  rw [modifyLast, files, push, push, size]

/-- A file that has been registered may be told of many line starts. -/
theorem Built.addLines {s : FileSet} {f : File} (h : Built (s.push f)) (starts : List Nat) :
    Built (s.push (starts.foldl File.addLine f)) := by
  induction starts generalizing f with
  | nil => exact h
  | cons offset starts ih =>
    have told := h.addLine offset
    rw [modifyLast_push s (·.addLine offset) (File.sameRange_addLine f offset).2.2] at told
    exact ih told

/-- A position of the last file resolves through that file. -/
theorem position?_push {s : FileSet} (ordered : s.Ordered) {f : File} (first : f.base = s.base)
    {offset : Nat} (inside : offset ≤ f.size) :
    (s.push f).position? ⟨s.base + offset⟩ = some (f.locate offset) := by
  have positive := ordered.positive
  have nonzero : s.base + offset ≠ 0 := by omega
  have valid : (Pos.mk (s.base + offset)).isValid = true := decide_eq_true nonzero
  -- every file of the set starts at the position or in front of it
  have count : (s.files.push f).countP (·.base ≤ s.base + offset) = s.files.size + 1 := by
    rw [Array.countP_push_of_pos (by simp [first]), Nat.add_right_cancel_iff, Array.countP_eq_size]
    intro g hg
    have := ordered.below g hg
    simp only [decide_eq_true_eq]
    omega
  rw [← first] at nonzero valid count ⊢
  have found : (s.push f).file? ⟨f.base + offset⟩ = some f := by
    simp only [push, file?, valid, if_true, count, Array.getElem?_push_size, Option.filter_some,
      File.contains_base_add inside]
  rw [position?, found, Option.bind_some, File.position_base_add inside nonzero]
  rfl

end FileSet

end GraphQL
