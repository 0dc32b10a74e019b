import GraphQL.Parse
import GraphQL.Proofs.Ebnf.Derivation

/-!
# Trees at another place

A text that stands elsewhere in the space of positions has the same trees, with every position moved
by the same number of bytes. A construct stores no position of its own, so only the tokens move, and
where the construct starts and ends moves with them. The position that belongs to no file does not
move.

Results:
1. `pos_shift`, `stop_shift`: a construct starts and ends at the moved places.
2. `ofDefinitions_shift`: moved definitions are grouped to the moved schema.
3. `Derives.shift`, `Derives.of_shift`: moved tokens derive the moved trees and no other ones.
-/

namespace GraphQL

namespace Pos

/-- The position `n` bytes further on, or further in front. No position stays no position. -/
def shift (n : Int) (p : Pos) : Pos := if p.isValid then ⟨(p.raw + n).toNat⟩ else p

@[simp] theorem shift_none (n : Int) : none.shift n = none := rfl

@[simp] theorem shift_zero (p : Pos) : p.shift 0 = p := by
  simp [shift]

theorem shift_of_pos {n : Int} {p : Pos} (h : 0 < p.raw) : p.shift n = ⟨(p.raw + n).toNat⟩ := by
  have valid : p.isValid = true := decide_eq_true (Nat.ne_of_gt h)
  rw [shift, if_pos valid]

end Pos

namespace PlacedToken

/-- The token `n` bytes further on. -/
def shift (n : Int) (x : PlacedToken) : PlacedToken := ⟨x.token, x.pos.shift n, x.stop.shift n⟩

@[simp] theorem token_shift (n : Int) (x : PlacedToken) : (x.shift n).token = x.token := rfl

@[simp] theorem bare_shift (n : Int) (x : PlacedToken) : (x.shift n).bare = x.bare := rfl

@[simp] theorem shift_zero (x : PlacedToken) : x.shift 0 = x := by
  simp [shift]

/-- A token that stands in a file, in front of the end of the space of positions and still behind
its start when it is moved, ends as many bytes behind its start as before. -/
theorem ending_shift {n : Int} {x : PlacedToken} (here : 0 < x.pos.raw)
    (there : 0 ≤ x.pos.raw + n) : (x.shift n).ending = x.ending.shift n := by
  have behind (k : Nat) : (x.pos.shift n).advance k = (x.pos.advance k).shift n := by
    have here' : 0 < (x.pos.advance k).raw := Nat.lt_of_lt_of_le here (Nat.le_add_right _ k)
    rw [Pos.shift_of_pos here, Pos.shift_of_pos here']
    simp only [Pos.advance, Pos.mk.injEq]
    omega
  simp only [ending, token_shift]
  split
  · rfl
  · rfl
  · rfl
  · exact behind _

end PlacedToken

namespace Tree

mutual

/-- The tree with all its tokens `n` bytes further on. -/
def shift (n : Int) : Tree → Tree
  | token x => token (x.shift n)
  | node k ps => node k (shiftOf n ps)

/-- A row of trees with all their tokens `n` bytes further on. -/
def shiftOf (n : Int) : List Tree → List Tree
  | [] => []
  | t :: ts => t.shift n :: shiftOf n ts

end

variable (n : Int)

theorem shiftOf_eq_map (ts : List Tree) : shiftOf n ts = ts.map (shift n) := by
  induction ts with
  | nil => simp only [shiftOf, List.map_nil]
  | cons t ts ih => simp only [shiftOf, ih, List.map_cons]

@[simp] theorem shift_token (x : PlacedToken) : (token x).shift n = token (x.shift n) := by
  simp only [shift]

@[simp] theorem shift_node (k : NodeKind) (ps : List Tree) :
    (node k ps).shift n = node k (ps.map (shift n)) := by
  simp only [shift, shiftOf_eq_map]

@[simp] theorem kind?_shift (t : Tree) : (t.shift n).kind? = t.kind? := by
  cases t with
  | token x => simp [kind?]
  | node k ps => simp [kind?]

@[simp] theorem isKind_shift (k : NodeKind) (t : Tree) : (t.shift n).isKind k = t.isKind k := by
  rw [isKind, isKind, kind?_shift]

theorem filter_isKind_shift (k : NodeKind) (ts : List Tree) :
    (ts.map (shift n)).filter (·.isKind k) = (ts.filter (·.isKind k)).map (shift n) := by
  rw [List.filter_map]
  congr 1
  exact List.filter_congr fun t _ => t.isKind_shift n k

mutual

theorem tokens_shift : ∀ t : Tree, (t.shift n).tokens = t.tokens.map (·.shift n)
  | token x => by simp
  | node k ps => by rw [shift, tokens_node, tokens_node, tokensOf_shiftOf ps]

theorem tokensOf_shiftOf : ∀ ts : List Tree,
    tokensOf (shiftOf n ts) = (tokensOf ts).map (·.shift n)
  | [] => by simp [shiftOf, tokensOf]
  | t :: ts => by simp [shiftOf, tokensOf, tokens_shift t, tokensOf_shiftOf ts]

end

mutual

theorem shift_zero : ∀ t : Tree, t.shift 0 = t
  | token x => by simp
  | node k ps => by rw [shift, shiftOf_zero ps]

theorem shiftOf_zero : ∀ ts : List Tree, shiftOf 0 ts = ts
  | [] => by simp [shiftOf]
  | t :: ts => by simp [shiftOf, shift_zero t, shiftOf_zero ts]

end

mutual

theorem bare_shift : ∀ t : Tree, (t.shift n).bare = t.bare
  | token x => by simp
  | node k ps => by rw [shift, bare_node, bare_node, bareOf_shiftOf ps]

theorem bareOf_shiftOf : ∀ ts : List Tree, bareOf (shiftOf n ts) = bareOf ts
  | [] => by simp [shiftOf]
  | t :: ts => by simp [shiftOf, bare_shift t, bareOf_shiftOf ts]

end

end Tree

/-! ## Where moved constructs stand -/

namespace Landmark

theorem fits_shift (l : Landmark) (n : Int) (t : Tree) : l.fits (t.shift n) = l.fits t := by
  cases t with
  | token x => cases l <;> simp [fits]
  | node k ps => cases l <;> simp [fits]

/-- Moved parts lead to the moved place. -/
theorem pick_shift (ls : List Landmark) (n : Int) (ps : List (Tree × Pos)) :
    pick ls (ps.map fun p => (p.1.shift n, p.2.shift n)) = (pick ls ps).shift n := by
  have first (l : Landmark) :
      l.first? (ps.map fun p => (p.1.shift n, p.2.shift n)) = (l.first? ps).map (·.shift n) := by
    have fits : ((fun p : Tree × Pos => l.fits p.1) ∘
        fun p : Tree × Pos => (p.1.shift n, p.2.shift n)) = fun p => l.fits p.1 :=
      funext fun p => l.fits_shift n p.1
    rw [first?, first?, List.find?_map, fits, Option.map_map, Option.map_map]
    rfl
  induction ls with
  | nil => rfl
  | cons l ls ih =>
    rw [pick, pick, List.findSome?_cons, List.findSome?_cons, first]
    cases l.first? ps with
    | none => exact ih
    | some p => rfl

end Landmark

namespace Tree

variable {n : Int}

mutual

/-- A moved tree starts at the moved place. -/
theorem pos_shift : ∀ t : Tree, (t.shift n).pos = t.pos.shift n
  | token x => by simp [pos, PlacedToken.shift]
  | node k ps => by rw [shift, pos, pos, starts_shiftOf ps, Landmark.pick_shift]

theorem starts_shiftOf : ∀ ts : List Tree,
    starts (shiftOf n ts) = (starts ts).map fun p => (p.1.shift n, p.2.shift n)
  | [] => by simp [shiftOf, starts]
  | t :: ts => by simp [shiftOf, starts, pos_shift t, starts_shiftOf ts]

end

mutual

/-- A moved tree ends at the moved place if its tokens do. -/
theorem stop_shift : ∀ t : Tree,
    (∀ x ∈ t.tokens, (x.shift n).ending = x.ending.shift n) → (t.shift n).stop = t.stop.shift n
  | token x, ends => by
    rw [shift, stop, stop]
    exact ends x (by simp)
  | node k ps, ends => by
    rw [shift, stop, stop, stops_shiftOf ps (by simpa using ends), ← List.map_reverse,
      Landmark.pick_shift]

theorem stops_shiftOf : ∀ ts : List Tree,
    (∀ x ∈ tokensOf ts, (x.shift n).ending = x.ending.shift n) →
    stops (shiftOf n ts) = (stops ts).map fun p => (p.1.shift n, p.2.shift n)
  | [], _ => by simp [shiftOf, stops]
  | t :: ts, ends => by
    simp only [tokensOf, List.mem_append] at ends
    simp [shiftOf, stops, stop_shift t fun x hx => ends x (.inl hx),
      stops_shiftOf ts fun x hx => ends x (.inr hx)]

end

end Tree

/-! ## Moved texts -/

/-- The document with everything in it `n` bytes further on. -/
def Document.shift (n : Int) (d : Document) : Document := ⟨d.definitions.map (Tree.shift n)⟩

/-- The schema with everything in it `n` bytes further on. -/
def Schema.shift (n : Int) (s : Schema) : Schema where
  schemas := s.schemas.map (Tree.shift n)
  scalars := s.scalars.map (Tree.shift n)
  types := s.types.map (Tree.shift n)
  interfaces := s.interfaces.map (Tree.shift n)
  unions := s.unions.map (Tree.shift n)
  enums := s.enums.map (Tree.shift n)
  inputObjects := s.inputObjects.map (Tree.shift n)
  extensions := s.extensions.map (Tree.shift n)
  directives := s.directives.map (Tree.shift n)
  pos := s.pos.shift n
  stop := s.stop.shift n

/-- What a text of either kind parses to, `n` bytes further on. -/
def Parsed.shift (n : Int) : Parsed → Parsed
  | document d => document (d.shift n)
  | schema s => schema (s.shift n)

namespace Schema

theorem groups_shift (n : Int) (s : Schema) :
    (s.shift n).groups = s.groups.map (·.map (Tree.shift n)) := rfl

/-- Moved definitions are grouped to the moved schema. -/
theorem ofDefinitions_shift {n : Int} {ds : List Tree}
    (ends : ∀ d ∈ ds, (d.shift n).stop = d.stop.shift n) :
    ofDefinitions (ds.map (Tree.shift n)) = (ofDefinitions ds).shift n := by
  have first : (((ds.map (Tree.shift n)).head?.map Tree.pos).getD .none) =
      ((ds.head?.map Tree.pos).getD .none).shift n := by
    cases ds with
    | nil => rfl
    | cons d ds => exact d.pos_shift
  have last : (((ds.map (Tree.shift n)).getLast?.map Tree.stop).getD .none) =
      ((ds.getLast?.map Tree.stop).getD .none).shift n := by
    rw [List.getLast?_map]
    cases h : ds.getLast? with
    | none => rfl
    | some d => exact ends d (List.mem_of_mem_getLast? h)
  simp only [ofDefinitions, shift, Tree.filter_isKind_shift, first, last]

end Schema

/-- Positions play no part in a derivation, so moved tokens derive the moved trees. -/
theorem Ebnf.Derives.shift {e : Ebnf} {xs : List PlacedToken} {ts : List Tree} (n : Int)
    (h : e.Derives xs ts) : e.Derives (xs.map (·.shift n)) (ts.map (Tree.shift n)) := by
  induction h with
  | empty => exact .empty
  | @terminal t x accepted => simpa using Derives.terminal (x := x.shift n) accepted
  | @hidden t x accepted => exact .hidden (x := x.shift n) accepted
  | seq _ _ ihe ihf =>
    rw [List.map_append, List.map_append]
    exact ihe.seq ihf
  | left _ ih => exact ih.left
  | right _ ih => exact ih.right
  | starNil => exact .starNil
  | starCons _ _ ihe ihs =>
    rw [List.map_append, List.map_append]
    exact ihe.starCons ihs
  | node _ ih => simpa using ih.node
  | ref _ ih => exact ih.ref

/-- Moved tokens derive nothing but moved trees. -/
theorem Ebnf.Derives.of_shift {e : Ebnf} {xs : List PlacedToken} {ts : List Tree} {n : Int}
    (h : e.Derives (xs.map (·.shift n)) ts) :
    ∃ us, e.Derives xs us ∧ ts = us.map (Tree.shift n) := by
  generalize hy : xs.map (·.shift n) = ys at h
  induction h generalizing xs with
  | empty =>
    obtain rfl := List.map_eq_nil_iff.mp hy
    exact ⟨[], .empty, rfl⟩
  | terminal accepted =>
    obtain ⟨x, rfl, rfl⟩ := List.map_eq_singleton_iff.mp hy
    exact ⟨[.token x], .terminal accepted, by simp⟩
  | hidden accepted =>
    obtain ⟨x, rfl, rfl⟩ := List.map_eq_singleton_iff.mp hy
    exact ⟨[], .hidden accepted, rfl⟩
  | seq _ _ ihe ihf =>
    obtain ⟨front, back, rfl, hf, hb⟩ := List.map_eq_append_iff.mp hy
    obtain ⟨us, derives, rfl⟩ := ihe hf
    obtain ⟨vs, derives', rfl⟩ := ihf hb
    exact ⟨us ++ vs, derives.seq derives', List.map_append.symm⟩
  | left _ ih =>
    obtain ⟨us, derives, rfl⟩ := ih hy
    exact ⟨us, derives.left, rfl⟩
  | right _ ih =>
    obtain ⟨us, derives, rfl⟩ := ih hy
    exact ⟨us, derives.right, rfl⟩
  | starNil =>
    obtain rfl := List.map_eq_nil_iff.mp hy
    exact ⟨[], .starNil, rfl⟩
  | starCons _ _ ihe ihs =>
    obtain ⟨front, back, rfl, hf, hb⟩ := List.map_eq_append_iff.mp hy
    obtain ⟨us, derives, rfl⟩ := ihe hf
    obtain ⟨vs, derives', rfl⟩ := ihs hb
    exact ⟨us ++ vs, derives.starCons derives', List.map_append.symm⟩
  | @node k _ _ _ _ ih =>
    obtain ⟨us, derives, rfl⟩ := ih hy
    exact ⟨[.node k us], derives.node, by simp⟩
  | ref _ ih =>
    obtain ⟨us, derives, rfl⟩ := ih hy
    exact ⟨us, derives.ref, rfl⟩

/-- Tokens that are the same but for their places are a moved row. -/
theorem slice_shift {tape tape' : Nat → PlacedToken} {n : Int} {i k : Nat}
    (same : ∀ j, j < k → tape' (i + j) = (tape j).shift n) :
    slice tape' i (i + k) = (slice tape 0 k).map (·.shift n) := by
  refine List.ext_getElem (by simp) fun j hj hj' => ?_
  have inside : j < k := by simpa using hj'
  simp [slice, same j inside]

end GraphQL
