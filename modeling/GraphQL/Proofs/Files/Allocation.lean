import GraphQL.Proofs.Files.Ownership

/-!
# How positions are given out

A set of files gives out the positions from one on without leaving any out and without giving any
out twice: the first file starts at one, and every other file starts just behind the position that
the file before it has for its end. So each position in front of the next free one belongs to one
file, which is found by counting the files that start at the position or in front of it.

Results:
1. `Built.consecutive`: the files of a set stand side by side.
2. `Consecutive.owner`: each position in front of the next free one has one owner.
3. `positions_allocated`: what a row of registrations comes to, of which some may be refused.
-/

namespace GraphQL

/-- The files stand side by side from the position `first` on, and `next` is the first position
behind them. -/
def File.Consecutive (next : Nat) : Nat → List File → Prop
  | first, [] => next = first
  | first, f :: fs => f.base = first ∧ Consecutive next (f.base + f.size + 1) fs

namespace File

theorem contains_iff {f : File} {p : Pos} :
    f.contains p = true ↔ f.base ≤ p.raw ∧ p.raw ≤ f.base + f.size := by
  rw [contains, Bool.and_eq_true, decide_eq_true_eq, decide_eq_true_eq]

variable {next first : Nat} {f : File} {fs : List File}

/-- One more file is put behind the others. -/
theorem Consecutive.concat (h : Consecutive f.base first fs) :
    Consecutive (f.base + f.size + 1) first (fs ++ [f]) := by
  induction fs generalizing first with
  | nil => exact ⟨h, rfl⟩
  | cons g fs ih => exact ⟨h.1, ih h.2⟩

/-- Only where the files start and how long they are plays a part. -/
theorem Consecutive.congr {gs : List File} (h : Consecutive next first fs)
    (same : gs.map (fun g => (g.base, g.size)) = fs.map fun f => (f.base, f.size)) :
    Consecutive next first gs := by
  induction fs generalizing first gs with
  | nil =>
    obtain rfl := List.map_eq_nil_iff.mp same
    exact h
  | cons f fs ih =>
    obtain ⟨g, gs, rfl, range, others⟩ := List.map_eq_cons_iff.mp same
    obtain ⟨base, size⟩ := Prod.mk.inj range
    refine ⟨base.trans h.1, ?_⟩
    rw [base, size]
    exact ih h.2 others

theorem Consecutive.bounds (h : Consecutive next first fs) :
    first ≤ next ∧ ∀ g ∈ fs, first ≤ g.base ∧ g.base + g.size < next := by
  induction fs generalizing first with
  | nil => exact ⟨Nat.le_of_eq h.symm, nofun⟩
  | cons f fs ih =>
    obtain ⟨rfl, rest⟩ := h
    obtain ⟨room, others⟩ := ih rest
    refine ⟨by omega, List.forall_mem_cons.mpr ⟨by omega, fun g hg => ?_⟩⟩
    have := others g hg
    omega

theorem Consecutive.base_of_getElem?_zero (h : Consecutive next first fs) (hf : fs[0]? = some f) :
    f.base = first := by
  cases fs with
  | nil => cases hf
  | cons g fs =>
    obtain rfl : g = f := Option.some.inj hf
    exact h.1

theorem Consecutive.base_of_getElem?_succ {g : File} (h : Consecutive next first fs) {i : Nat}
    (hf : fs[i]? = some f) (hg : fs[i + 1]? = some g) : g.base = f.base + f.size + 1 := by
  induction fs generalizing first i with
  | nil => cases hf
  | cons x fs ih =>
    cases i with
    | zero =>
      obtain rfl : x = f := Option.some.inj hf
      exact h.2.base_of_getElem?_zero hg
    | succ i => exact ih h.2 hf hg

theorem Consecutive.next_of_getLast? (h : Consecutive next first fs) (hf : fs.getLast? = some f) :
    next = f.base + f.size + 1 := by
  obtain ⟨front, rfl⟩ := List.getLast?_eq_some_iff.mp hf
  induction front generalizing first with
  | nil => exact h.2
  | cons g front ih => exact ih h.2 (by simp)

/-- Each position in front of the next free one has an owner. The files before it end in front of
the position, and those after it start behind it. -/
theorem Consecutive.owner (h : Consecutive next first fs) {p : Nat} (low : first ≤ p)
    (high : p < next) :
    ∃ front f back, fs = front ++ f :: back ∧ f.contains ⟨p⟩ = true ∧
      (∀ g ∈ front, g.base + g.size < p) ∧ ∀ g ∈ back, p < g.base := by
  induction fs generalizing first with
  | nil =>
    have none : next = first := h
    omega
  | cons f fs ih =>
    obtain ⟨rfl, rest⟩ := h
    rcases Nat.lt_or_ge (f.base + f.size) p with behind | inside
    · obtain ⟨front, g, back, rfl, owns, before, after⟩ := ih rest behind
      exact ⟨f :: front, g, back, rfl, owns, List.forall_mem_cons.mpr ⟨behind, before⟩, after⟩
    · refine ⟨[], f, fs, rfl, contains_iff.mpr ⟨low, inside⟩, nofun, fun g hg => ?_⟩
      have := (rest.bounds.2 g hg).1
      omega

end File

namespace FileSet

variable {s : FileSet}

/-- The files of a set stand side by side from one on, and there are no more positions than a
position may have. -/
theorem Built.consecutive (h : Built s) :
    File.Consecutive s.base 1 s.files.toList ∧ s.base ≤ maxPos := by
  induction h with
  | empty => exact ⟨rfl, by decide⟩
  | @addFile s s' name size f _ added ih =>
    have fits : s.base + size + 1 ≤ maxPos := by
      refine Classical.byContradiction fun full => ?_
      rw [FileSet.addFile, if_neg full] at added
      cases added
    obtain ⟨rfl, rfl⟩ := addFile_eq_ok added
    refine ⟨?_, fits⟩
    rw [push, Array.toList_push]
    exact File.Consecutive.concat (f := { name := name, base := s.base, size := size }) ih.1
  | @addLine s offset _ ih =>
    refine ⟨ih.1.congr (List.ext_getElem (by simp [modifyLast]) fun i hi hi' => ?_), ih.2⟩
    have inside : i < s.files.size := by simpa using hi'
    simp only [modifyLast, List.getElem_map, Array.getElem_toList, Array.getElem_modify]
    split
    · obtain ⟨-, base, size⟩ := File.sameRange_addLine s.files[i] offset
      rw [base, size]
    · rfl

/-- A position is owned by the file that contains it, if the files stand side by side. -/
theorem file?_of_split {p : Pos} (valid : p.isValid = true) {front back : List File} {f : File}
    (files : s.files.toList = front ++ f :: back) (owns : f.contains p = true)
    (before : ∀ g ∈ front, g.base + g.size < p.raw) (after : ∀ g ∈ back, p.raw < g.base) :
    s.file? p = some f := by
  have owned : f.base ≤ p.raw := (File.contains_iff.mp owns).1
  -- the files up to the owner are those that are counted
  have count : s.files.countP (·.base ≤ p.raw) = front.length + 1 := by
    have all : front.countP (·.base ≤ p.raw) = front.length := by
      refine List.countP_eq_length.mpr fun g hg => decide_eq_true ?_
      have := before g hg
      omega
    have none : back.countP (·.base ≤ p.raw) = 0 := by
      refine List.countP_eq_zero.mpr fun g hg => ?_
      have := after g hg
      simp only [decide_eq_true_eq]
      omega
    rw [← Array.countP_toList, files, List.countP_append, List.countP_cons_of_pos (by simpa),
      all, none]
  have found : s.files[front.length]? = some f := by
    rw [← Array.getElem?_toList, files, List.getElem?_append_right (Nat.le_refl _), Nat.sub_self]
    rfl
  rw [file?, if_pos valid, count]
  simp only [found, Option.filter_some, owns, if_true]

theorem contains_of_file? {p : Pos} {f : File} (h : s.file? p = some f) :
    p.isValid = true ∧ f ∈ s.files ∧ f.contains p = true := by
  unfold file? at h
  split at h
  · next valid =>
    split at h
    · cases h
    · obtain ⟨found, owns⟩ := Option.filter_eq_some_iff.mp h
      exact ⟨valid, Array.mem_of_getElem? found, owns⟩
  · cases h

/-- The positions that have an owner are those from one on up to the next free one. The owner is
the only file that contains the position. -/
theorem Built.file? (built : Built s) (p : Pos) :
    ((s.file? p).isSome = true ↔ 1 ≤ p.raw ∧ p.raw < s.base) ∧
      ∀ f, s.file? p = some f →
        ∃ i, s.files[i]? = some f ∧ ∀ (j : Nat) g, s.files[j]? = some g →
          (g.contains p = true ↔ j = i) := by
  have consecutive := built.consecutive.1
  have inside {f : File} (h : s.file? p = some f) : 1 ≤ p.raw ∧ p.raw < s.base := by
    obtain ⟨-, member, owns⟩ := contains_of_file? h
    have := consecutive.bounds.2 f (Array.mem_toList_iff.mpr member)
    have := File.contains_iff.mp owns
    omega
  have owner (hp : 1 ≤ p.raw ∧ p.raw < s.base) :
      ∃ f i, s.file? p = some f ∧ s.files[i]? = some f ∧ ∀ (j : Nat) g, s.files[j]? = some g →
        (g.contains p = true ↔ j = i) := by
    obtain ⟨front, f, back, files, owns, before, after⟩ := consecutive.owner hp.1 hp.2
    have valid : p.isValid = true := decide_eq_true (by omega)
    refine ⟨f, front.length, file?_of_split valid files owns before after, ?_, fun j g hg => ?_⟩
    · rw [← Array.getElem?_toList, files, List.getElem?_append_right (Nat.le_refl _), Nat.sub_self]
      rfl
    rw [← Array.getElem?_toList, files] at hg
    rcases Nat.lt_trichotomy j front.length with earlier | rfl | later
    · rw [List.getElem?_append_left earlier] at hg
      have := before g (List.mem_of_getElem? hg)
      refine iff_of_false (fun h => ?_) (Nat.ne_of_lt earlier)
      have := File.contains_iff.mp h
      omega
    · rw [List.getElem?_append_right (Nat.le_refl _), Nat.sub_self] at hg
      obtain rfl : f = g := Option.some.inj hg
      exact iff_of_true owns rfl
    · obtain ⟨k, rfl⟩ : ∃ k, j = front.length + (k + 1) := ⟨j - front.length - 1, by omega⟩
      rw [List.getElem?_append_right (Nat.le_add_right _ _), Nat.add_sub_cancel_left] at hg
      have := after g (List.mem_of_getElem? (l := back) hg)
      refine iff_of_false (fun h => ?_) (Nat.ne_of_gt later)
      have := File.contains_iff.mp h
      omega
  refine ⟨⟨fun h => ?_, fun hp => ?_⟩, fun f h => ?_⟩
  · obtain ⟨f, h⟩ := Option.isSome_iff_exists.mp h
    exact inside h
  · obtain ⟨f, i, h, -⟩ := owner hp
    rw [h]
    rfl
  · obtain ⟨g, i, h', found, unique⟩ := owner (inside h)
    obtain rfl : f = g := Option.some.inj (h.symm.trans h')
    exact ⟨i, found, unique⟩

/-- The positions that resolve are those that have an owner. -/
theorem position?_isSome (p : Pos) : (s.position? p).isSome = (s.file? p).isSome := by
  unfold position?
  cases h : s.file? p with
  | none => rfl
  | some f =>
    obtain ⟨valid, -, owns⟩ := contains_of_file? h
    rw [Option.bind_some, File.position, if_pos valid, File.offset, if_pos owns]
    rfl

/-! ## Rows of registrations -/

/-- The set after a file has been registered, or the same set if that is refused. -/
def register (s : FileSet) (name : String) (size : Nat) : FileSet :=
  match s.addFile name size with
  | .ok (_, s') => s'
  | .error _ => s

/-- The set after files of the given names and sizes have been registered one after another. -/
def registerAll (s : FileSet) (files : List (String × Nat)) : FileSet :=
  files.foldl (fun s (name, size) => s.register name size) s

theorem registerAll_concat (files : List (String × Nat)) (name : String) (size : Nat) :
    s.registerAll (files ++ [(name, size)]) = (s.registerAll files).register name size := by
  rw [registerAll, List.foldl_append]
  rfl

theorem Built.register (built : Built s) (name : String) (size : Nat) :
    Built (s.register name size) := by
  unfold FileSet.register
  split
  · next added => exact built.addFile added
  · exact built

theorem Built.registerAll (built : Built s) (files : List (String × Nat)) :
    Built (s.registerAll files) := by
  induction files generalizing s with
  | nil => exact built
  | cons file files ih => exact ih (built.register file.1 file.2)

/-- A registration is refused if there are not enough positions left, and changes nothing then. -/
theorem register_cases (s : FileSet) (name : String) (size : Nat) :
    (maxPos < s.base + size + 1 ∧ s.addFile name size = .error (.positionOverflow name) ∧
      s.register name size = s) ∨
    (s.base + size + 1 ≤ maxPos ∧
      s.addFile name size =
        .ok ({ name := name, base := s.base, size := size }, s.register name size) ∧
      s.register name size = s.push { name := name, base := s.base, size := size }) := by
  unfold FileSet.register
  rcases Nat.lt_or_ge maxPos (s.base + size + 1) with full | fits
  · have refused : s.addFile name size = .error (.positionOverflow name) :=
      if_neg (Nat.not_le_of_lt full)
    exact .inl ⟨full, refused, by rw [refused]⟩
  · have added : s.addFile name size = .ok ({ name := name, base := s.base, size := size },
        s.push { name := name, base := s.base, size := size }) := if_pos fits
    exact .inr ⟨fits, by rw [added], by rw [added]⟩

/-- Whatever files are registered, and however many of them are refused, the positions are given out
side by side from one on, as far as there are any. A registration is refused just if it would need
more, and then changes nothing. So a position has an owner if it is in front of the next free one
and is not zero, no other file contains it, and these are the positions that resolve. -/
theorem positions_allocated (files : List (String × Nat)) :
    let s : FileSet := registerAll {} files
    (∀ f, s.files[0]? = some f → f.base = 1) ∧
    (∀ (i : Nat) f g, s.files[i]? = some f → s.files[i + 1]? = some g →
      g.base = f.base + f.size + 1) ∧
    s.base = (s.files.back?.map fun f => f.base + f.size + 1).getD 1 ∧ s.base ≤ maxPos ∧
    (∀ name size,
      ((∃ v, s.addFile name size = .error v) ↔ maxPos < s.base + size + 1) ∧
      ((∃ v, s.addFile name size = .error v) → registerAll {} (files ++ [(name, size)]) = s) ∧
      ∀ f s', s.addFile name size = .ok (f, s') →
        f.name = name ∧ f.size = size ∧ s'.files = s.files.push f ∧
          registerAll {} (files ++ [(name, size)]) = s') ∧
    ∀ p : Pos,
      ((s.file? p).isSome = true ↔ 1 ≤ p.raw ∧ p.raw < s.base) ∧
      (∀ f, s.file? p = some f →
        ∃ i, s.files[i]? = some f ∧ ∀ (j : Nat) g, s.files[j]? = some g →
          (g.contains p = true ↔ j = i)) ∧
      ((s.position? p).isSome = true ↔ 1 ≤ p.raw ∧ p.raw < s.base) := by
  intro s
  have built : Built s := Built.empty.registerAll files
  obtain ⟨consecutive, most⟩ := built.consecutive
  refine ⟨fun f hf => ?_, fun i f g hf hg => ?_, ?_, most, fun name size => ?_, fun p => ?_⟩
  · rw [← Array.getElem?_toList] at hf
    exact consecutive.base_of_getElem?_zero hf
  · rw [← Array.getElem?_toList] at hf hg
    exact consecutive.base_of_getElem?_succ hf hg
  · rw [← Array.getLast?_toList]
    cases last : s.files.toList.getLast? with
    | none =>
      rw [List.getLast?_eq_none_iff] at last
      rw [last] at consecutive
      exact consecutive
    | some f => exact consecutive.next_of_getLast? last
  · rw [registerAll_concat]
    rcases register_cases s name size with ⟨full, refused, same⟩ | ⟨fits, added, new⟩
    · rw [refused]
      exact ⟨iff_of_true ⟨_, rfl⟩ full, fun _ => same, nofun⟩
    · rw [added]
      refine ⟨iff_of_false nofun (Nat.not_lt_of_le fits), nofun, ?_⟩
      rintro f s' ⟨⟩
      exact ⟨rfl, rfl, by rw [new]; rfl, rfl⟩
  · obtain ⟨owned, unique⟩ := built.file? p
    exact ⟨owned, unique, by rw [position?_isSome, owned]⟩

end FileSet

end GraphQL
