import GraphQL.Proofs.Files.Allocation

/-!
# Sets of files only grow

Files are put behind the files that are there, and the positions that they own are behind all
positions that have been given out. So whatever a position has been resolved to, it will be resolved
to for as long as the set lives.

Results:
1. `GrowsTo.file?`: positions that have been given out keep their owners.
2. `GrowsTo.position?`: what a position resolves to does not change.
-/

namespace GraphQL

namespace FileSet

/-- The second set has the files of the first one, as they were, and behind them only files with
positions that the first one has not given out. -/
structure GrowsTo (s s' : FileSet) : Prop where
  base : s.base ≤ s'.base
  files : ∃ added : List File,
    s'.files.toList = s.files.toList ++ added ∧ ∀ f ∈ added, s.base ≤ f.base

variable {s s' s'' : FileSet} {f : File} {p : Pos}

theorem GrowsTo.refl (s : FileSet) : s.GrowsTo s :=
  ⟨Nat.le_refl _, [], (List.append_nil _).symm, nofun⟩

theorem GrowsTo.trans (h : s.GrowsTo s') (h' : s'.GrowsTo s'') : s.GrowsTo s'' := by
  obtain ⟨le, added, files, behind⟩ := h
  obtain ⟨le', added', files', behind'⟩ := h'
  refine ⟨Nat.le_trans le le', added ++ added', ?_, fun f hf => ?_⟩
  · rw [files', files, List.append_assoc]
  · rcases List.mem_append.mp hf with hf | hf
    · exact behind f hf
    · exact Nat.le_trans le (behind' f hf)

/-- A set grows by a file that starts at its next position. -/
theorem growsTo_push (first : f.base = s.base) : s.GrowsTo (s.push f) := by
  have le : s.base ≤ s.base + f.size + 1 := by omega
  refine ⟨le, [f], Array.toList_push, fun g hg => ?_⟩
  obtain rfl := List.mem_singleton.mp hg
  exact Nat.le_of_eq first.symm

/-- Telling the file registered last of line starts changes no other file. -/
theorem foldl_addLine_push (s : FileSet) (f : File) (starts : List Nat) :
    starts.foldl (fun s offset => s.modifyLast (·.addLine offset)) (s.push f) =
      s.push (starts.foldl File.addLine f) := by
  induction starts generalizing f with
  | nil => rfl
  | cons offset starts ih =>
    rw [List.foldl_cons, modifyLast_push s (·.addLine offset) (File.sameRange_addLine f offset).2.2,
      ih, List.foldl_cons]

/-- Line starts do not change where the file is in the space of positions. -/
theorem sameRange_foldl_addLine (f : File) (starts : List Nat) :
    f.SameRange (starts.foldl File.addLine f) := by
  induction starts generalizing f with
  | nil => exact .refl f
  | cons offset starts ih => exact (File.sameRange_addLine f offset).trans (ih (f.addLine offset))

/-- Every file stays what it is and where it is. -/
theorem GrowsTo.getElem? (h : s.GrowsTo s') {i : Nat} (hf : s.files[i]? = some f) :
    s'.files[i]? = some f := by
  obtain ⟨-, added, files, -⟩ := h
  rw [← Array.getElem?_toList] at hf ⊢
  rw [files, List.getElem?_append_left (List.getElem?_eq_some_iff.mp hf).1, hf]

/-- A position that has been given out keeps its owner, or has none in the larger set either. -/
theorem GrowsTo.file? (h : s.GrowsTo s') (given : p.raw < s.base) : s'.file? p = s.file? p := by
  obtain ⟨-, added, files, behind⟩ := h
  -- none of the new files starts at the position or in front of it
  have none : added.countP (·.base ≤ p.raw) = 0 := by
    refine List.countP_eq_zero.mpr fun f hf => ?_
    have := behind f hf
    simp only [decide_eq_true_eq]
    omega
  have count : s'.files.countP (·.base ≤ p.raw) = s.files.countP (·.base ≤ p.raw) := by
    rw [← Array.countP_toList, files, List.countP_append, none, Nat.add_zero, Array.countP_toList]
  rw [FileSet.file?, FileSet.file?, count]
  cases hn : s.files.countP (·.base ≤ p.raw) with
  | zero => rfl
  | succ n =>
    have old : n < s.files.toList.length := by
      have : s.files.countP (·.base ≤ p.raw) ≤ s.files.size := Array.countP_le_size
      rw [Array.length_toList]
      omega
    have same : s'.files[n]? = s.files[n]? := by
      rw [← Array.getElem?_toList, ← Array.getElem?_toList, files, List.getElem?_append_left old]
    simp only [same]

/-- What a position resolves to does not change when the set grows. -/
theorem GrowsTo.position? (h : s.GrowsTo s') (built : s.Built) {q : Position}
    (resolved : s.position? p = some q) : s'.position? p = some q := by
  have owned : (s.file? p).isSome = true := by rw [← position?_isSome, resolved]; rfl
  have given := ((built.file? p).1.mp owned).2
  rwa [FileSet.position?, h.file? given]

end FileSet

end GraphQL
