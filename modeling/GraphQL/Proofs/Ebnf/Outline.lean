import GraphQL.Proofs.Ebnf.Opening
import GraphQL.Tree.Span

/-!
# The parts of a construct

An outline says what the part of a construct at one of its two sides is like, and what the others
may be like. From a production the outlines of its constructs can be computed. If in each of them
the landmarks of a kind lead to the part at the side, then every construct of that kind starts where
its first part does and ends where its last part does.

Results:
1. `Derives.exists_node`: an expression that is `single` describes one construct at a time.
2. `Derives.exists_outline`: the outlines of an expression cover its trees.
3. `pick_of_leads`: landmarks that pass the check lead to the part at the side.
4. `Derives.pos_node`, `Derives.stop_node`: where a construct starts and ends.
-/

namespace GraphQL

/-- One of the two sides of a row. -/
inductive Side where
  | front | back
  deriving DecidableEq, Repr

namespace Side

/-- What is nearer to the side, of something in a row and something behind it. -/
def outer {α : Type} : Side → Option α → Option α → Option α
  | front, a, b => a.or b
  | back, a, b => b.or a

/-- What stands at the side of a row. -/
def edge? {α : Type} : Side → List α → Option α
  | front, xs => xs.head?
  | back, xs => xs.getLast?

theorem edge?_append {α : Type} (s : Side) (xs ys : List α) :
    s.edge? (xs ++ ys) = s.outer (s.edge? xs) (s.edge? ys) := by
  cases s with
  | front => exact List.head?_append
  | back => exact List.getLast?_append

theorem edge?_singleton {α : Type} (s : Side) (x : α) : s.edge? [x] = some x := by
  cases s <;> rfl

theorem edge?_nil {α : Type} (s : Side) : s.edge? ([] : List α) = none := by
  cases s <;> rfl

theorem edge?_eq_none_iff {α : Type} (s : Side) {xs : List α} : s.edge? xs = none ↔ xs = [] := by
  cases s with
  | front => exact List.head?_eq_none_iff
  | back => exact List.getLast?_eq_none_iff

theorem exists_edge? {α : Type} (s : Side) {xs : List α} (h : xs ≠ []) :
    ∃ x, s.edge? xs = some x := by
  rw [← Option.isSome_iff_exists, ← Option.ne_none_iff_isSome]
  exact fun none => h (s.edge?_eq_none_iff.mp none)

theorem rel_outer {α β : Type} {r : α → β → Prop} (s : Side) {a c : Option α} {b d : Option β}
    (first : Option.Rel r a b) (second : Option.Rel r c d) :
    Option.Rel r (s.outer a c) (s.outer b d) := by
  cases s with
  | front =>
    cases first with
    | some h => exact .some h
    | none => simpa only [outer, Option.none_or] using second
  | back =>
    cases second with
    | some h => exact .some h
    | none => simpa only [outer, Option.none_or] using first

end Side

namespace Ebnf

/-- The kinds of construct that an expression describes, if it is one or chooses between several. -/
def heads : Ebnf → List NodeKind
  | node k _ => [k]
  | alt e f => e.heads ++ f.heads
  | _ => []

/-- The expression describes single constructs. -/
def single : Ebnf → Bool
  | node _ _ => true
  | alt e f => e.single && f.single
  | _ => false

theorem single_ofRule (r : Rule) : (ofRule r).single = true := by
  cases r with
  | value constant => cases constant <;> rfl
  | _ => rfl

theorem Derives.exists_node {e : Ebnf} {xs : List PlacedToken} {ts : List Tree}
    (h : Derives e xs ts) (he : e.single = true) : ∃ k ∈ e.heads, ∃ ps, ts = [.node k ps] := by
  induction h with
  | left _ ih =>
    simp only [single, Bool.and_eq_true] at he
    obtain ⟨k, hk, made⟩ := ih he.1
    exact ⟨k, List.mem_append_left _ hk, made⟩
  | right _ ih =>
    simp only [single, Bool.and_eq_true] at he
    obtain ⟨k, hk, made⟩ := ih he.2
    exact ⟨k, List.mem_append_right _ hk, made⟩
  | @node k e xs ts _ _ => exact ⟨k, List.mem_singleton_self k, ts, rfl⟩
  | _ => cases he

end Ebnf

/-! ## Outlines -/

/-- What a part of a construct may be. -/
inductive Head where
  | token (t : Terminal)
  | construct (k : NodeKind)
  deriving DecidableEq, Repr

/-- The part is like this. -/
def Head.Fits : Head → Tree → Prop
  | token t, .token x => t.accepts x.token = true
  | construct k, .node l _ => k = l
  | token _, .node _ _ | construct _, .token _ => False

/-- The part at a side of a construct, if it has parts, and what its parts may be. -/
structure Outline where
  edge : Option Head := none
  parts : List Head := []
  deriving DecidableEq, Repr

namespace Outline

/-- The parts are as the outline says. -/
structure Fits (s : Side) (o : Outline) (ts : List Tree) : Prop where
  edge : Option.Rel Head.Fits o.edge (s.edge? ts)
  parts : ∀ t ∈ ts, ∃ h ∈ o.parts, h.Fits t

/-- The only part is like `h`. -/
def only (h : Head) : Outline := ⟨some h, [h]⟩

/-- The parts of one outline and then those of another one. -/
def join (s : Side) (o p : Outline) : Outline := ⟨s.outer o.edge p.edge, o.parts ++ p.parts⟩

/-- The parts of any number of things with one of the outlines each. -/
def repeated (os : List Outline) : List Outline :=
  {} :: (os.filterMap (·.edge)).map fun a => ⟨some a, os.flatMap (·.parts)⟩

variable {s : Side} {o p : Outline} {os : List Outline} {ts us : List Tree}

theorem fits_nil : Fits s {} [] := by
  refine ⟨?_, fun _ ht => absurd ht List.not_mem_nil⟩
  rw [Side.edge?_nil]
  exact .none

theorem fits_only {h : Head} {t : Tree} (ht : h.Fits t) : (only h).Fits s [t] := by
  constructor
  · rw [Side.edge?_singleton]
    exact .some ht
  · intro u hu
    obtain rfl := List.mem_singleton.mp hu
    exact ⟨h, List.mem_singleton_self h, ht⟩

theorem Fits.join (ho : o.Fits s ts) (hp : p.Fits s us) : (o.join s p).Fits s (ts ++ us) := by
  constructor
  · rw [Side.edge?_append]
    exact s.rel_outer ho.edge hp.edge
  · intro t ht
    rcases List.mem_append.mp ht with ht | ht
    · obtain ⟨h, hh, fits⟩ := ho.parts t ht
      exact ⟨h, List.mem_append_left _ hh, fits⟩
    · obtain ⟨h, hh, fits⟩ := hp.parts t ht
      exact ⟨h, List.mem_append_right _ hh, fits⟩

/-- What the repetition says about the part at the side and about the others. -/
theorem mem_repeated (hp : p ∈ repeated os) :
    (∀ a, p.edge = some a → a ∈ os.filterMap (·.edge)) ∧
      ∀ h ∈ p.parts, h ∈ os.flatMap (·.parts) := by
  rcases List.mem_cons.mp hp with rfl | hp
  · exact ⟨nofun, nofun⟩
  · obtain ⟨a, ha, rfl⟩ := List.mem_map.mp hp
    refine ⟨?_, fun h hh => hh⟩
    rintro b ⟨⟩
    exact ha

theorem Fits.again (mem : o ∈ os) (ho : o.Fits s ts) (hp : p.Fits s us) (again : p ∈ repeated os) :
    ∃ q ∈ repeated os, q.Fits s (ts ++ us) := by
  obtain ⟨edges, parts⟩ := mem_repeated again
  have whole := ho.join hp
  have known : ∀ h ∈ (o.join s p).parts, h ∈ os.flatMap (·.parts) := by
    intro h hh
    rcases List.mem_append.mp hh with hh | hh
    · exact List.mem_flatMap.mpr ⟨o, mem, hh⟩
    · exact parts h hh
  cases he : (o.join s p).edge with
  | none =>
    -- neither the first item nor the others have parts
    have edge := whole.edge
    rw [he] at edge
    generalize hn : s.edge? (ts ++ us) = side at edge
    cases edge
    refine ⟨{}, List.mem_cons_self, ?_⟩
    rw [s.edge?_eq_none_iff.mp hn]
    exact fits_nil
  | some a =>
    -- the part at the side is that of the first item or that of the others
    have first : a ∈ os.filterMap (·.edge) := by
      have outer : o.edge = some a ∨ p.edge = some a := by
        cases s with
        | front => exact (Option.or_eq_some_iff.mp he).imp_right And.right
        | back => exact ((Option.or_eq_some_iff.mp he).imp_right And.right).symm
      rcases outer with ho | hp
      · exact List.mem_filterMap.mpr ⟨o, mem, ho⟩
      · exact edges a hp
    refine ⟨_, List.mem_cons_of_mem _ (List.mem_map_of_mem first), he ▸ whole.edge, ?_⟩
    intro t ht
    obtain ⟨h, hh, fits⟩ := whole.parts t ht
    exact ⟨h, known h hh, fits⟩

end Outline

namespace Ebnf

/-- The outlines of the rows of trees that the expression describes. -/
def outlines (s : Side) : Ebnf → List Outline
  | empty | hidden _ => [{}]
  | never => []
  | terminal t => [.only (.token t)]
  | seq e f => (e.outlines s).flatMap fun o => (f.outlines s).map (o.join s ·)
  | alt e f => e.outlines s ++ f.outlines s
  | star e => Outline.repeated (e.outlines s)
  | node k _ => [.only (.construct k)]
  | ref r => (ofRule r).heads.map fun k => .only (.construct k)

theorem Derives.exists_outline (s : Side) {e : Ebnf} {xs : List PlacedToken} {ts : List Tree}
    (h : Derives e xs ts) : ∃ o ∈ e.outlines s, o.Fits s ts := by
  induction h with
  | empty => exact ⟨_, List.mem_singleton_self _, Outline.fits_nil⟩
  | terminal accepted => exact ⟨_, List.mem_singleton_self _, Outline.fits_only accepted⟩
  | hidden _ => exact ⟨_, List.mem_singleton_self _, Outline.fits_nil⟩
  | seq _ _ ihe ihf =>
    obtain ⟨o, ho, first⟩ := ihe
    obtain ⟨p, hp, second⟩ := ihf
    exact ⟨_, List.mem_flatMap.mpr ⟨o, ho, List.mem_map_of_mem hp⟩, first.join second⟩
  | left _ ih =>
    obtain ⟨o, ho, fits⟩ := ih
    exact ⟨o, List.mem_append_left _ ho, fits⟩
  | right _ ih =>
    obtain ⟨o, ho, fits⟩ := ih
    exact ⟨o, List.mem_append_right _ ho, fits⟩
  | starNil => exact ⟨_, List.mem_cons_self, Outline.fits_nil⟩
  | starCons _ _ ihe ihs =>
    obtain ⟨o, ho, first⟩ := ihe
    obtain ⟨p, hp, others⟩ := ihs
    exact first.again ho others hp
  | @node k e xs ts _ _ => exact ⟨_, List.mem_singleton_self _, Outline.fits_only rfl⟩
  | @ref r xs ts h _ =>
    obtain ⟨k, hk, ps, rfl⟩ := h.exists_node (single_ofRule r)
    exact ⟨_, List.mem_map_of_mem hk, Outline.fits_only rfl⟩

end Ebnf

/-! ## Landmarks -/

namespace Landmark

/-- Every part that is like the head is such a part. -/
def sure : Landmark → Head → Bool
  | token t, .token u => u.implies t
  | construct ks, .construct k => k ∈ ks
  | token _, .construct _ | construct _, .token _ => false

/-- No part that is like the head is such a part. -/
def never : Landmark → Head → Bool
  | token t, .token u => u.excludes t
  | construct ks, .construct k => k ∉ ks
  | token _, .construct _ | construct _, .token _ => true

variable {l : Landmark} {h : Head} {t : Tree}

theorem fits_of_sure (sure : l.sure h = true) (ht : h.Fits t) : l.fits t = true := by
  cases l <;> cases h <;> cases t <;> try cases ht
  case token.token.token => exact Terminal.accepts_of_implies sure ht
  case construct.construct.node.refl => exact sure
  all_goals cases sure

theorem not_fits_of_never (never : l.never h = true) (ht : h.Fits t) : l.fits t = false := by
  cases l <;> cases h <;> cases t <;> try cases ht
  case token.token.token => exact Terminal.refuses_of_excludes never ht
  case construct.construct.node.refl ks k ps =>
    simpa only [Landmark.never, fits, decide_not, Bool.not_eq_eq_eq_not, Bool.not_true] using never
  all_goals rfl

/-- The landmarks lead to a part that is like `h`, among parts that are like some of `hs`. -/
def leads (h : Head) (hs : List Head) : List Landmark → Bool
  | [] => false
  | l :: ls => l.sure h || (hs.all l.never && leads h hs ls)

/-- Landmarks that lead to the part that comes first pick what is recorded for it. -/
theorem pick_of_leads {hs : List Head} {ls : List Landmark} (check : leads h hs ls = true)
    {p : Pos} {rest : List (Tree × Pos)} (ht : h.Fits t)
    (known : ∀ q ∈ (t, p) :: rest, ∃ a ∈ hs, a.Fits q.1) : pick ls ((t, p) :: rest) = p := by
  rw [pick]
  induction ls with
  | nil => cases check
  | cons l ls ih =>
    simp only [leads, Bool.or_eq_true, Bool.and_eq_true] at check
    rcases check with sure | ⟨never, check⟩
    · have first : l.first? ((t, p) :: rest) = some p := by
        have fits := fits_of_sure sure ht
        simp [first?, fits]
      rw [List.findSome?_cons_of_isSome (by rw [first]; rfl), first]
      rfl
    · -- no part is meant by `l`, so it is left to the other landmarks
      have none : l.first? ((t, p) :: rest) = none := by
        rw [first?, Option.map_eq_none_iff, List.find?_eq_none]
        intro q hq fits
        obtain ⟨a, ha, like⟩ := known q hq
        rw [not_fits_of_never (List.all_eq_true.mp never a ha) like] at fits
        cases fits
      rw [List.findSome?_cons_of_isNone (by rw [none]; rfl)]
      exact ih check

end Landmark

namespace NodeKind

/-- The parts by which a construct of the kind tells where it has the side. -/
def landmarks (k : NodeKind) : Side → List Landmark
  | .front => k.opening
  | .back => k.closing

end NodeKind

namespace Ebnf

/-- The landmarks of the kind lead to the part at the side of every construct that the expression
describes. -/
def edgedAt (k : NodeKind) (e : Ebnf) (s : Side) : Bool :=
  (e.outlines s).all fun o => o.edge.all fun h => Landmark.leads h o.parts (k.landmarks s)

/-- What is picked by the landmarks is what is recorded for the part at the side. -/
theorem Derives.pick_eq {s : Side} {k : NodeKind} {e : Ebnf} (check : e.edgedAt k s = true)
    {xs : List PlacedToken} {ts : List Tree} (h : Derives e xs ts) {t : Tree} {p : Pos}
    {rest : List (Tree × Pos)} (first : s.edge? ts = some t)
    (all : ∀ q ∈ (t, p) :: rest, q.1 ∈ ts) :
    Landmark.pick (k.landmarks s) ((t, p) :: rest) = p := by
  obtain ⟨o, ho, edge, parts⟩ := h.exists_outline s
  rw [first] at edge
  have leads := List.all_eq_true.mp check o ho
  generalize he : o.edge = a at edge leads
  cases edge with
  | some fits => exact Landmark.pick_of_leads leads fits fun q hq => parts q.1 (all q hq)

/-- A construct starts where its first part does. -/
theorem Derives.pos_node {k : NodeKind} {e : Ebnf} (check : e.edgedAt k .front = true)
    {xs : List PlacedToken} {t : Tree} {ts : List Tree} (h : Derives e xs (t :: ts)) :
    (Tree.node k (t :: ts)).pos = t.pos := by
  rw [Tree.pos, Tree.starts, Tree.starts_eq_map]
  refine h.pick_eq (s := .front) check rfl ?_
  intro q hq
  rcases List.mem_cons.mp hq with rfl | hq
  · exact List.mem_cons_self
  · obtain ⟨u, hu, rfl⟩ := List.mem_map.mp hq
    exact List.mem_cons_of_mem _ hu

/-- A construct ends where its last part does. -/
theorem Derives.stop_node {k : NodeKind} {e : Ebnf} (check : e.edgedAt k .back = true)
    {xs : List PlacedToken} {t : Tree} {ts : List Tree} (h : Derives e xs (ts ++ [t])) :
    (Tree.node k (ts ++ [t])).stop = t.stop := by
  rw [Tree.stop, Tree.stops_eq_map, List.map_append, List.reverse_append]
  refine h.pick_eq (s := .back) check List.getLast?_concat ?_
  intro q hq
  rcases List.mem_cons.mp hq with rfl | hq
  · exact List.mem_append_right _ (List.mem_singleton_self t)
  · obtain ⟨u, hu, rfl⟩ := List.mem_map.mp (List.mem_reverse.mp hq)
    exact List.mem_append_left _ hu

end Ebnf

end GraphQL
