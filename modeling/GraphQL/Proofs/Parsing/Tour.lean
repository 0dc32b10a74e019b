import GraphQL.Tree.Walk

/-!
# The calls of a walk

A visitor may answer as it likes, and its answers may depend on all the calls before. Whatever it
does, its calls follow the tree: it enters the constructs in pre-order, except what lies below a
construct at which it did not go on, and it leaves a construct after everything below it and before
anything that follows.

Two constructs of a tree may look alike, so a call is identified by the way to its construct: the
numbers of the children to go to, one after another, from where the walk starts.

Results:
1. `mem_places_iff`, `places_eq_preorder`: the pre-order with the way to each construct.
2. `Tour`: what the calls of a walk look like; `Before.asymm`: their order is one.
3. `walk_tour`: the calls of every walk look like this, and `inspect` makes those on entering.
-/

namespace GraphQL

namespace Tree

/-! ## Constructs with the way to them -/

/-- The same place seen from a construct that has it below its child with the number `n`. -/
def placeBelow (n : Nat) (x : List Nat × Tree) : List Nat × Tree := (n :: x.1, x.2)

mutual

/-- The constructs of a tree in pre-order, each with the way to it. -/
def places : Tree → List (List Nat × Tree)
  | .token _ => []
  | .node k ps => ([], .node k ps) :: placesOf 0 ps

/-- The constructs of a row of trees in pre-order, if the first tree of the row that is a
construct is the child with the number `n`. -/
def placesOf (n : Nat) : List Tree → List (List Nat × Tree)
  | [] => []
  | .token _ :: ts => placesOf n ts
  | .node k ps :: ts => (node k ps).places.map (placeBelow n) ++ placesOf (n + 1) ts

end

/-- The way leads to or below a child whose number is at least `n`. -/
def LeadsPast (n : Nat) (path : List Nat) : Prop := ∃ i q, n ≤ i ∧ path = i :: q

theorem LeadsPast.mono {m n : Nat} (le : m ≤ n) {path : List Nat} (h : LeadsPast n path) :
    LeadsPast m path := by
  obtain ⟨i, q, past, rfl⟩ := h
  exact ⟨i, q, Nat.le_trans le past, rfl⟩

/-- The places of a row are those of its constructs, each with the number of the construct in front
of its way. -/
theorem mem_placesOf_iff {p : List Nat} {u : Tree} : ∀ (n : Nat) (ts : List Tree),
    (p, u) ∈ placesOf n ts ↔
      ∃ i q c, p = (n + i) :: q ∧ (ts.filter (·.kind?.isSome))[i]? = some c ∧ (q, u) ∈ c.places
  | n, [] => by simp [placesOf]
  | n, .token x :: ts => by simpa [placesOf, kind?] using mem_placesOf_iff n ts
  | n, .node k ps :: ts => by
    have filtered : (Tree.node k ps :: ts).filter (·.kind?.isSome) =
        .node k ps :: ts.filter (·.kind?.isSome) := rfl
    rw [placesOf, List.mem_append, mem_placesOf_iff (n + 1) ts, filtered]
    constructor
    · rintro (here | ⟨i, q, c, rfl, found, mem⟩)
      · obtain ⟨⟨q, w⟩, mem, eq⟩ := List.mem_map.mp here
        obtain ⟨rfl, rfl⟩ := Prod.mk.inj eq
        exact ⟨0, q, _, rfl, rfl, mem⟩
      · exact ⟨i + 1, q, c, by rw [Nat.add_assoc, Nat.add_comm 1], by simpa using found, mem⟩
    · rintro ⟨i, q, c, rfl, found, mem⟩
      cases i with
      | zero =>
        obtain rfl := Option.some.inj found
        exact .inl (List.mem_map.mpr ⟨(q, u), mem, rfl⟩)
      | succ i =>
        exact .inr ⟨i, q, c, by rw [Nat.add_assoc, Nat.add_comm 1], by simpa using found, mem⟩

theorem leadsPast_of_mem_placesOf {n : Nat} {ts : List Tree} {x : List Nat × Tree}
    (h : x ∈ placesOf n ts) : LeadsPast n x.1 := by
  obtain ⟨i, q, c, way, -, -⟩ := (mem_placesOf_iff n ts).mp h
  exact ⟨n + i, q, Nat.le_add_right n i, way⟩

/-- The places are all there are: a construct is at the place that its way leads to. -/
theorem mem_places_iff {u : Tree} : ∀ {p : List Nat} {t : Tree},
    (p, u) ∈ t.places ↔ t.descend p = .ok u ∧ u.kind?.isSome
  | [], .token x => by
    simp only [places, List.not_mem_nil, descend, Except.ok.injEq, false_iff, not_and]
    rintro rfl
    simp [kind?]
  | n :: p, .token x => by
    simp [places, descend, children, parts]
  | [], .node k ps => by
    have no : ([], u) ∉ placesOf 0 ps := fun mem => by
      obtain ⟨i, q, -, eq⟩ := leadsPast_of_mem_placesOf mem
      cases eq
    simp only [places, List.mem_cons, no, or_false, Prod.mk.injEq, true_and, descend,
      Except.ok.injEq]
    exact ⟨fun eq => ⟨eq.symm, eq ▸ rfl⟩, fun h => h.1.symm⟩
  | n :: p, .node k ps => by
    have head : (n :: p, u) ≠ ([], .node k ps) := fun eq => by cases eq
    simp only [places, List.mem_cons, head, false_or, mem_placesOf_iff, descend]
    change (∃ i q c, n :: p = (0 + i) :: q ∧ (Tree.node k ps).children[i]? = some c ∧
      (q, u) ∈ c.places) ↔ _
    constructor
    · rintro ⟨i, q, c, eq, found, mem⟩
      obtain ⟨rfl, rfl⟩ := List.cons.inj eq
      rw [Nat.zero_add, found]
      exact mem_places_iff.mp mem
    · rintro ⟨goes, construct⟩
      cases found : (Tree.node k ps).children[n]? with
      | none => rw [found] at goes; cases goes
      | some c =>
        rw [found] at goes
        exact ⟨n, p, c, by rw [Nat.zero_add], found, mem_places_iff.mpr ⟨goes, construct⟩⟩

theorem map_placeBelow_depth (depth n : Nat) (xs : List (List Nat × Tree)) :
    ((xs.map (placeBelow n)).map fun x => (depth + x.1.length, x.2)) =
      xs.map fun x => (depth + 1 + x.1.length, x.2) := by
  rw [List.map_map]
  refine List.map_congr_left fun x _ => ?_
  simp [placeBelow, Nat.add_assoc, Nat.add_comm 1]

mutual

/-- The length of the way is the depth. -/
theorem places_eq_preorder : ∀ (depth : Nat) (t : Tree),
    (t.places.map fun x => (depth + x.1.length, x.2)) = t.preorder depth
  | depth, .token x => by simp [places, preorder]
  | depth, .node k ps => by
    rw [places, preorder, List.map_cons]
    exact congrArg _ (placesOf_eq_preorderOf depth 0 ps)

theorem placesOf_eq_preorderOf : ∀ (depth n : Nat) (ts : List Tree),
    ((placesOf n ts).map fun x => (depth + x.1.length, x.2)) = preorderOf (depth + 1) ts
  | depth, n, [] => by simp [placesOf, preorderOf]
  | depth, n, .token x :: ts => by
    simpa [placesOf, preorderOf, preorder] using placesOf_eq_preorderOf depth n ts
  | depth, n, .node k ps :: ts => by
    rw [placesOf, preorderOf, List.map_append, map_placeBelow_depth,
      places_eq_preorder (depth + 1) (.node k ps), placesOf_eq_preorderOf depth (n + 1) ts]

end

mutual

/-- Ways come in the order of a dictionary, so no two places share one. -/
theorem sorted_places : ∀ t : Tree, (t.places.map (·.1)).Pairwise (· < ·)
  | .token x => by simp [places]
  | .node k ps => by
    rw [places, List.map_cons, List.pairwise_cons]
    refine ⟨fun p mem => ?_, sorted_placesOf 0 ps⟩
    obtain ⟨x, inside, rfl⟩ := List.mem_map.mp mem
    obtain ⟨i, q, -, way⟩ := leadsPast_of_mem_placesOf inside
    rw [way]
    exact List.nil_lt_cons i q

theorem sorted_placesOf : ∀ (n : Nat) (ts : List Tree),
    ((placesOf n ts).map (·.1)).Pairwise (· < ·)
  | n, [] => by simp [placesOf]
  | n, .token x :: ts => by simpa only [placesOf] using sorted_placesOf n ts
  | n, .node k ps :: ts => by
    have inner := List.pairwise_map.mp (sorted_places (.node k ps))
    rw [placesOf, List.map_append, List.pairwise_append, List.map_map]
    refine ⟨List.pairwise_map.mpr (inner.imp fun lt => ?_), sorted_placesOf (n + 1) ts,
      fun p hp q hq => ?_⟩
    · exact List.cons_lt_cons_iff.mpr (.inr ⟨rfl, lt⟩)
    · obtain ⟨x, -, rfl⟩ := List.mem_map.mp hp
      obtain ⟨y, inside, rfl⟩ := List.mem_map.mp hq
      obtain ⟨i, r, past, way⟩ := leadsPast_of_mem_placesOf inside
      rw [way]
      exact List.cons_lt_cons_iff.mpr (.inl past)

end

/-! ## Calls -/

/-- A call to a visitor: the construct it is about, and on entering it the answer, whether to go on
to its children. -/
inductive Call where
  | enter (t : Tree) (goesOn : Bool)
  | leave (t : Tree)
  deriving DecidableEq, Repr

/-- What a call on entering is about, and what it answers. -/
def Call.entered? : Call → Option (Tree × Bool)
  | .enter t goesOn => some (t, goesOn)
  | .leave _ => none

/-- A call and the way to the construct it is about. -/
structure PlacedCall where
  path : List Nat
  call : Call
  deriving DecidableEq, Repr

namespace PlacedCall

/-- The same call seen from a construct that has this one below its child with the number `n`. -/
def below (n : Nat) (c : PlacedCall) : PlacedCall := ⟨n :: c.path, c.call⟩

/-- The place that the call enters. -/
def entered? (c : PlacedCall) : Option (List Nat × Tree) :=
  c.call.entered?.map fun x => (c.path, x.1)

/-- The call enters a construct without going on to what lies below it, as `path` does. -/
def bars (c : PlacedCall) (path : List Nat) : Bool :=
  (c.call.entered?.any fun x => !x.2) && decide (c.path <+: path ∧ c.path ≠ path)

/-- No call bars the way. -/
def clear (calls : List PlacedCall) (path : List Nat) : Bool := !calls.any fun c => c.bars path

/-- The order of calls. A construct is entered before any call below it, it is left after all of
them, and calls below a child come before those below a later one. -/
inductive Before : PlacedCall → PlacedCall → Prop
  | opens {t : Tree} {b : Bool} {i : Nat} {p : List Nat} {c : Call} :
      Before ⟨[], .enter t b⟩ ⟨i :: p, c⟩
  | pairs {t : Tree} {b : Bool} : Before ⟨[], .enter t b⟩ ⟨[], .leave t⟩
  | closes {i : Nat} {p : List Nat} {c : Call} {u : Tree} : Before ⟨i :: p, c⟩ ⟨[], .leave u⟩
  | aside {i j : Nat} {p q : List Nat} {c d : Call} (lt : i < j) : Before ⟨i :: p, c⟩ ⟨j :: q, d⟩
  | inside {i : Nat} {p q : List Nat} {c d : Call} (before : Before ⟨p, c⟩ ⟨q, d⟩) :
      Before ⟨i :: p, c⟩ ⟨i :: q, d⟩

/-- Calls in which every construct that was gone on from is left again, around calls of the same
kind. -/
inductive Bracketed : List PlacedCall → Prop
  | nil : Bracketed []
  | refused {p : List Nat} {t : Tree} {w : List PlacedCall} (rest : Bracketed w) :
      Bracketed (⟨p, .enter t false⟩ :: w)
  | pair {p : List Nat} {t : Tree} {w rest : List PlacedCall} (inner : Bracketed w)
      (after : Bracketed rest) :
      Bracketed (⟨p, .enter t true⟩ :: w ++ ⟨p, .leave t⟩ :: rest)

/-- Of two calls at most one comes before the other. -/
theorem Before.asymm {c d : PlacedCall} (h : Before c d) : ¬ Before d c := by
  induction h with
  | opens => exact fun h' => nomatch h'
  | pairs => exact fun h' => nomatch h'
  | closes => exact fun h' => nomatch h'
  | aside lt =>
    intro h'
    cases h' with
    | aside gt => exact absurd gt (Nat.lt_asymm lt)
    | inside => exact absurd lt (Nat.lt_irrefl _)
  | inside before ih =>
    intro h'
    cases h' with
    | aside lt => exact absurd lt (Nat.lt_irrefl _)
    | inside before' => exact ih before'

theorem Before.opens_of {c : PlacedCall} {n : Nat} (h : LeadsPast n c.path) {t : Tree} {b : Bool} :
    Before ⟨[], .enter t b⟩ c := by
  obtain ⟨path, call⟩ := c
  obtain ⟨i, q, -, rfl⟩ := h
  exact .opens

theorem Before.closes_of {c : PlacedCall} {n : Nat} (h : LeadsPast n c.path) {u : Tree} :
    Before c ⟨[], .leave u⟩ := by
  obtain ⟨path, call⟩ := c
  obtain ⟨i, q, -, rfl⟩ := h
  exact .closes

theorem Before.aside_of (n : Nat) (c : PlacedCall) {d : PlacedCall}
    (h : LeadsPast (n + 1) d.path) : Before (c.below n) d := by
  obtain ⟨path, call⟩ := d
  obtain ⟨i, q, past, rfl⟩ := h
  exact .aside past

theorem Bracketed.append {w w' : List PlacedCall} (h : Bracketed w) (h' : Bracketed w') :
    Bracketed (w ++ w') := by
  induction h with
  | nil => exact h'
  | refused _ ih => exact .refused ih
  | pair inner _ _ ih => simpa using Bracketed.pair inner ih

theorem Bracketed.moved {w : List PlacedCall} (n : Nat) (h : Bracketed w) :
    Bracketed (w.map (PlacedCall.below n)) := by
  induction h with
  | nil => exact .nil
  | refused _ ih => exact .refused ih
  | pair _ _ inner after =>
    rw [List.cons_append, List.map_cons, List.map_append, List.map_cons]
    exact .pair inner after

@[simp] theorem bars_nil (c : PlacedCall) : c.bars [] = false := by
  simp [bars]

@[simp] theorem bars_below (n : Nat) (c : PlacedCall) (p : List Nat) :
    (c.below n).bars (n :: p) = c.bars p := by
  simp [bars, below, List.cons_prefix_cons]

theorem bars_eq_false_of_ne {c : PlacedCall} {i j : Nat} {p q : List Nat} (way : c.path = i :: p)
    (ne : i ≠ j) : c.bars (j :: q) = false := by
  simp [bars, way, List.cons_prefix_cons, ne]

theorem clear_append (calls calls' : List PlacedCall) (p : List Nat) :
    clear (calls ++ calls') p = (clear calls p && clear calls' p) := by
  simp [clear]

theorem clear_below (n : Nat) (calls : List PlacedCall) (p : List Nat) :
    clear (calls.map (below n)) (n :: p) = clear calls p := by
  simp [clear, Function.comp_def]

/-- Calls below other children bar nothing. -/
theorem clear_of_ne {calls : List PlacedCall} {j : Nat} {q : List Nat}
    (ways : ∀ c ∈ calls, ∃ i p, c.path = i :: p ∧ i ≠ j) : clear calls (j :: q) = true := by
  rw [clear, Bool.not_eq_true', List.any_eq_false]
  intro c mem
  obtain ⟨i, p, way, ne⟩ := ways c mem
  simp [bars_eq_false_of_ne way ne]

theorem filterMap_entered?_below (n : Nat) (calls : List PlacedCall) :
    (calls.map (below n)).filterMap entered? =
      (calls.filterMap entered?).map (placeBelow n) := by
  rw [List.filterMap_map, List.map_filterMap]
  congr 1
  funext c
  simp [entered?, below, placeBelow, Function.comp_def]

theorem mem_map_below_iff {n : Nat} {calls : List PlacedCall} {p : List Nat} {c : Call} :
    ⟨p, c⟩ ∈ calls.map (below n) ↔ ∃ q, p = n :: q ∧ ⟨q, c⟩ ∈ calls := by
  constructor
  · intro mem
    obtain ⟨⟨q, d⟩, inside, eq⟩ := List.mem_map.mp mem
    cases eq
    exact ⟨q, rfl, inside⟩
  · rintro ⟨q, rfl, mem⟩
    exact List.mem_map.mpr ⟨_, mem, rfl⟩

end PlacedCall

open PlacedCall

/-! ## Calls that follow the tree -/

/-- The calls follow the `places`. -/
structure Tour (places : List (List Nat × Tree)) (calls : List PlacedCall) : Prop where
  /-- The places are entered in turn, except those below a construct that was not gone on from. -/
  entered : calls.filterMap PlacedCall.entered? = places.filter fun x => clear calls x.1
  /-- Those and only those constructs are left that were gone on from. -/
  left : ∀ p u, ⟨p, .leave u⟩ ∈ calls ↔ ⟨p, .enter u true⟩ ∈ calls
  /-- The calls come in their order. -/
  ordered : calls.Pairwise Before
  /-- The calls come in brackets. -/
  bracketed : Bracketed calls

namespace Tour

variable {places places' : List (List Nat × Tree)} {calls calls' : List PlacedCall}

/-- No call is made twice. -/
theorem nodup (h : Tour places calls) : calls.Nodup :=
  h.ordered.imp fun {c d} before => fun (eq : c = d) => by
    subst eq
    exact before.asymm before

theorem nil : Tour [] [] := ⟨rfl, by simp, .nil, .nil⟩

/-- The calls at a construct that is not gone on from. -/
theorem refused {t : Tree} (ways : ∀ x ∈ places, LeadsPast 0 x.1) :
    Tour (([], t) :: places) [⟨[], .enter t false⟩] where
  entered := by
    have none : places.filter (clear [⟨[], .enter t false⟩] ·.1) = [] := by
      refine List.filter_eq_nil_iff.mpr fun x mem => ?_
      obtain ⟨i, q, -, way⟩ := ways x mem
      simp [clear, bars, Call.entered?, way]
    rw [List.filter_cons_of_pos (by simp [clear]), none]
    rfl
  left p u := by simp
  ordered := List.pairwise_singleton _ _
  bracketed := .refused .nil

/-- The calls at a construct that is gone on from. -/
theorem around {t : Tree} (h : Tour places calls) (ways : ∀ c ∈ calls, LeadsPast 0 c.path) :
    Tour (([], t) :: places) (⟨[], .enter t true⟩ :: calls ++ [⟨[], .leave t⟩]) where
  entered := by
    have opening : ∀ p, PlacedCall.bars ⟨[], .enter t true⟩ p = false := fun p => rfl
    have closing : ∀ p, PlacedCall.bars ⟨[], .leave t⟩ p = false := fun p => rfl
    have first : PlacedCall.entered? ⟨[], .enter t true⟩ = some ([], t) := rfl
    have last : PlacedCall.entered? ⟨[], .leave t⟩ = none := rfl
    simp [clear, opening, closing, first, last, h.entered]
  left p u := by simp [h.left p u, and_comm, or_comm]
  ordered := by
    rw [List.cons_append, List.pairwise_cons, List.pairwise_append]
    refine ⟨fun c mem => ?_, h.ordered, List.pairwise_singleton _ _, fun c mem d last => ?_⟩
    · rcases List.mem_append.mp mem with mem | mem
      · exact .opens_of (ways c mem)
      · rw [List.mem_singleton.mp mem]
        exact .pairs
    · rw [List.mem_singleton.mp last]
      exact .closes_of (ways c mem)
  bracketed := .pair h.bracketed .nil

/-- The calls below a child, and those below the children behind it. -/
theorem append {n : Nat} (h : Tour places calls) (h' : Tour places' calls')
    (ways : ∀ x ∈ places', LeadsPast (n + 1) x.1) (ways' : ∀ c ∈ calls', LeadsPast (n + 1) c.path) :
    Tour (places.map (placeBelow n) ++ places') (calls.map (PlacedCall.below n) ++ calls') where
  entered := by
    have inner : ∀ x ∈ places, clear (calls.map (PlacedCall.below n) ++ calls') (n :: x.1) =
        clear calls x.1 := fun x _ => by
      rw [clear_append, clear_below, clear_of_ne fun c mem => ?_, Bool.and_true]
      obtain ⟨i, q, past, way⟩ := ways' c mem
      exact ⟨i, q, way, Nat.ne_of_gt past⟩
    have outer : ∀ x ∈ places', clear (calls.map (PlacedCall.below n) ++ calls') x.1 =
        clear calls' x.1 := fun x mem => by
      obtain ⟨i, q, past, way⟩ := ways x mem
      rw [clear_append, way, clear_of_ne fun c mem => ?_, Bool.true_and]
      obtain ⟨d, -, rfl⟩ := List.mem_map.mp mem
      exact ⟨n, d.path, rfl, Nat.ne_of_lt past⟩
    rw [List.filterMap_append, filterMap_entered?_below, h.entered, h'.entered, List.filter_append,
      List.filter_map, List.filter_congr outer]
    exact congrArg (List.map _ · ++ _) (List.filter_congr inner).symm
  left p u := by
    simp only [List.mem_append, mem_map_below_iff, h.left, h'.left]
  ordered := by
    refine List.pairwise_append.mpr ⟨?_, h'.ordered, fun c hc d hd => ?_⟩
    · exact List.pairwise_map.mpr (h.ordered.imp .inside)
    · obtain ⟨c, -, rfl⟩ := List.mem_map.mp hc
      exact .aside_of n c (ways' d hd)
  bracketed := (h.bracketed.moved n).append h'.bracketed

end Tour

/-! ## Walks -/

section Logged

variable {σ : Type}

/-- The visitor with a log of the calls to it. -/
def logged (v : Visitor σ) : Visitor (σ × List Call) where
  enter t s := ((v.enter t s.1).1, (v.enter t s.1).2, s.2 ++ [.enter t (v.enter t s.1).1])
  leave t s := (v.leave t s.1, s.2 ++ [.leave t])

mutual

/-- The calls of a walk follow the places of the tree. -/
theorem exists_tour (v : Visitor σ) : ∀ (t : Tree) (s : σ) (log : List Call),
    ∃ calls, t.walk (logged v) (s, log) = (t.walk v s, log ++ calls.map (·.call)) ∧
      Tour t.places calls
  | .token x, s, log => ⟨[], by simp [walk], by simpa [places] using Tour.nil⟩
  | .node k ps, s, log => by
    have ways : ∀ x ∈ placesOf 0 ps, LeadsPast 0 x.1 := fun x => leadsPast_of_mem_placesOf
    obtain ⟨goesOn, s', entered⟩ : ∃ b s', v.enter (.node k ps) s = (b, s') := ⟨_, _, rfl⟩
    have entered' : (logged v).enter (.node k ps) (s, log) =
        (goesOn, s', log ++ [.enter (.node k ps) goesOn]) := by
      simp only [logged, entered]
    rw [walk, walk, places, entered, entered']
    cases goesOn with
    | false => exact ⟨_, rfl, .refused ways⟩
    | true =>
      obtain ⟨calls, eq, tour, ways'⟩ := exists_tour_row v ps 0 s'
        (log ++ [.enter (.node k ps) true])
      refine ⟨_, ?_, tour.around ways'⟩
      simp only [eq]
      simp [logged]

theorem exists_tour_row (v : Visitor σ) : ∀ (ts : List Tree) (n : Nat) (s : σ) (log : List Call),
    ∃ calls, walkParts (logged v) ts (s, log) = (walkParts v ts s, log ++ calls.map (·.call)) ∧
      Tour (placesOf n ts) calls ∧ ∀ c ∈ calls, LeadsPast n c.path
  | [], n, s, log => ⟨[], by simp [walkParts], by simpa [placesOf] using Tour.nil, by simp⟩
  | .token x :: ts, n, s, log => by
    simpa only [walkParts, walk, placesOf] using exists_tour_row v ts n s log
  | .node k ps :: ts, n, s, log => by
    obtain ⟨calls, eq, tour⟩ := exists_tour v (.node k ps) s log
    obtain ⟨calls', eq', tour', ways'⟩ := exists_tour_row v ts (n + 1)
      ((Tree.node k ps).walk v s) (log ++ calls.map (·.call))
    refine ⟨calls.map (PlacedCall.below n) ++ calls', ?_, ?_, fun c mem => ?_⟩
    · rw [walkParts, walkParts, eq, eq']
      simp [PlacedCall.below]
    · rw [placesOf]
      exact tour.append tour' (fun x => leadsPast_of_mem_placesOf) ways'
    · rcases List.mem_append.mp mem with mem | mem
      · obtain ⟨d, -, rfl⟩ := List.mem_map.mp mem
        exact ⟨n, d.path, Nat.le_refl n, rfl⟩
      · exact (ways' c mem).mono (Nat.le_succ n)

end

section Simulation

variable {τ : Type} {v : Visitor σ} {w : Visitor τ} {g : σ → τ}

mutual

/-- A visitor whose calls do the same to the image of the state does the same in a walk. -/
theorem walk_image (enter : ∀ t s, w.enter t (g s) = ((v.enter t s).1, g (v.enter t s).2))
    (leave : ∀ t s, w.leave t (g s) = g (v.leave t s)) :
    ∀ (t : Tree) (s : σ), t.walk w (g s) = g (t.walk v s)
  | .token x, s => by simp only [walk]
  | .node k ps, s => by
    rw [walk, walk, enter]
    obtain ⟨goesOn, s', entered⟩ : ∃ b s', v.enter (.node k ps) s = (b, s') := ⟨_, _, rfl⟩
    rw [entered]
    cases goesOn with
    | false => rfl
    | true =>
      simp only [walkParts_image enter leave ps]
      exact leave _ _

theorem walkParts_image (enter : ∀ t s, w.enter t (g s) = ((v.enter t s).1, g (v.enter t s).2))
    (leave : ∀ t s, w.leave t (g s) = g (v.leave t s)) :
    ∀ (ts : List Tree) (s : σ), walkParts w ts (g s) = g (walkParts v ts s)
  | [], s => by simp only [walkParts]
  | t :: ts, s => by
    rw [walkParts, walkParts, walk_image enter leave t, walkParts_image enter leave ts]

end

end Simulation

/-- The visitor that a closure is wrapped in. -/
def wrapping (f : Tree → σ → Bool × σ) : Visitor σ := ⟨f, fun _ s => s⟩

/-- The closure with a record of what it is called with and what it answers. -/
def noting (f : Tree → σ → Bool × σ) (t : Tree) (s : σ × List (Tree × Bool)) :
    Bool × σ × List (Tree × Bool) :=
  ((f t s.1).1, (f t s.1).2, s.2 ++ [(t, (f t s.1).1)])

/-- A closure is called just as the visitor wrapping it is on entering. -/
theorem inspect_noting (f : Tree → σ → Bool × σ) (t : Tree) (s : σ) :
    t.inspect (noting f) (s, []) =
      (t.inspect f s, (t.walk (logged (wrapping f)) (s, [])).2.filterMap Call.entered?) := by
  have image := walk_image (v := logged (wrapping f)) (w := wrapping (noting f))
    (g := fun x => (x.1, x.2.filterMap Call.entered?)) (fun u x => by
      simp [logged, wrapping, noting, Call.entered?]) (fun u x => by
      simp [logged, wrapping, Call.entered?]) t (s, [])
  obtain ⟨calls, eq, -⟩ := exists_tour (wrapping f) t s []
  rw [eq] at image ⊢
  exact image

/-- Whatever a visitor answers, its calls in a walk follow the tree. Each enters a construct or
leaves one, and with the ways to these constructs the calls on entering are the pre-order less what
lies below a construct that was not gone on from; those and only those that were gone on from are
left, once each, behind all calls below them and before all that follow. A closure passed to
`inspect` is called just as the visitor wrapping it is on entering. -/
theorem walk_tour (v : Visitor σ) (f : Tree → σ → Bool × σ) (t : Tree) (s : σ) :
    (t.places.map fun x => (x.1.length, x.2)) = t.preorder 0 ∧
    (∀ p u, (p, u) ∈ t.places ↔ t.descend p = .ok u ∧ u.kind?.isSome) ∧
    (t.places.map (·.1)).Pairwise (· < ·) ∧
    (∃ calls, t.walk (logged v) (s, []) = (t.walk v s, calls.map (·.call)) ∧
      Tour t.places calls ∧ calls.Nodup) ∧
    t.inspect (noting f) (s, []) =
      (t.inspect f s, (t.walk (logged (wrapping f)) (s, [])).2.filterMap Call.entered?) := by
  obtain ⟨calls, eq, tour⟩ := exists_tour v t s []
  rw [List.nil_append] at eq
  refine ⟨?_, fun p u => mem_places_iff, sorted_places t, ⟨calls, eq, tour, tour.nodup⟩,
    inspect_noting f t s⟩
  simpa using places_eq_preorder 0 t

/-- A visitor that has gone on from two constructs goes on from no other: it enters the last
construct too, but leaves only the first two. -/
example :
    let v : Visitor Nat := ⟨fun _ n => (n < 2, n + 1), fun _ n => n⟩
    let t := node .document [node .field [node .name [node .alias []]], node .field []]
    (t.walk (logged v) (0, [])).2.map (fun c => c.entered?.map (·.2)) =
      [some true, some true, some false, none, some false, none] := by
  decide

end Logged

end Tree

end GraphQL
