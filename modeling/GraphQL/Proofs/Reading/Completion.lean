import GraphQL.Proofs.Lexing.Writing
import GraphQL.Proofs.Reading.Progress

/-!
# Completing what has been read

Where a grammar stops, what it has read so far is the beginning of some text that it describes:
every part that is still missing can be written down. A grammar that stops at its very first token
has not read anything, and then the whole text can be.

Results:
1. `begins_of_productive`: an expression that passes `productive` describes a text that can be
   written down.
2. `Stops.completes`: what has been read when a grammar stops can be completed.
-/

namespace GraphQL

namespace Terminal

/-- A token with its spelling that is as required. -/
def sample : Terminal → Token × List Char
  | kind .name | fragmentName => (⟨.name, "a"⟩, ['a'])
  | kind .int => (⟨.int, "0"⟩, ['0'])
  | kind .float => (⟨.float, "0.0"⟩, ['0', '.', '0'])
  | kind .string => (⟨.string, ""⟩, ['\"', '\"'])
  | kind k => (⟨k, k.display⟩, k.display.toList)
  | keyword k => (⟨.name, k.spelling⟩, k.spelling.toList)
  | operation => (⟨.name, "query"⟩, ['q', 'u', 'e', 'r', 'y'])

theorem spelled_sample {t : Terminal} (h : t.writable = true) :
    Spelled t.sample.1 t.sample.2 ∧ t.accepts t.sample.1 = true := by
  cases t with
  | kind k =>
    cases k with
    | illegal => cases h
    | eof => cases h
    | _ => exact ⟨⟨_, _, rfl, by decide, by decide, by decide +kernel⟩, by decide⟩
  | keyword k =>
    cases k <;> exact ⟨⟨_, _, rfl, by decide, by decide, by decide +kernel⟩, by decide⟩
  | _ => exact ⟨⟨_, _, rfl, by decide, by decide, by decide +kernel⟩, by decide⟩

end Terminal

namespace Ebnf

/-- The tokens that are written down, without places. -/
def written (ws : List (Token × List Char)) : List PlacedToken :=
  ws.map fun w => ⟨w.1, .none, .none⟩

/-- The row of tokens is the beginning of one that the expression describes, and what is missing can
be written down. If the row is empty, that is a whole text of the expression. -/
def Begins (e : Ebnf) (xs : List PlacedToken) : Prop :=
  ∃ ws ts, (∀ w ∈ ws, Spelled w.1 w.2) ∧ e.Derives (xs ++ written ws) ts

/-- Where nothing is missing nothing has to be written down. -/
theorem Derives.begins {e : Ebnf} {xs : List PlacedToken} {ts : List Tree} (h : e.Derives xs ts) :
    e.Begins xs := by
  refine ⟨[], ts, fun w hw => absurd hw List.not_mem_nil, ?_⟩
  rwa [written, List.map_nil, List.append_nil]

/-- What begins a text of one expression begins a text of any expression that describes as much. -/
theorem Begins.mono {e f : Ebnf} {xs : List PlacedToken}
    (sub : ∀ ys ts, e.Derives ys ts → ∃ us, f.Derives ys us) (he : e.Begins xs) : f.Begins xs := by
  obtain ⟨ws, ts, spelled, derives⟩ := he
  obtain ⟨us, derives'⟩ := sub _ ts derives
  exact ⟨ws, us, spelled, derives'⟩

theorem Begins.seq_left {e f : Ebnf} {xs : List PlacedToken} (he : e.Begins xs) (hf : f.Begins []) :
    (Ebnf.seq e f).Begins xs := by
  obtain ⟨ws, ts, spelled, derives⟩ := he
  obtain ⟨vs, us, spelled', derives'⟩ := hf
  refine ⟨ws ++ vs, ts ++ us, ?_, ?_⟩
  · intro w hw
    exact (List.mem_append.mp hw).elim (spelled w) (spelled' w)
  · rw [written, List.map_append, ← List.append_assoc]
    exact derives.seq derives'

theorem Begins.seq_right {e f : Ebnf} {xs ys : List PlacedToken} {ts : List Tree}
    (he : e.Derives xs ts) (hf : f.Begins ys) : (Ebnf.seq e f).Begins (xs ++ ys) := by
  obtain ⟨ws, us, spelled, derives⟩ := hf
  refine ⟨ws, ts ++ us, spelled, ?_⟩
  rw [List.append_assoc]
  exact he.seq derives

theorem Begins.item {e : Ebnf} {xs : List PlacedToken} (he : e.Begins xs) : (star e).Begins xs := by
  refine he.mono fun ys ts h => ⟨ts ++ [], ?_⟩
  have once := h.starCons Derives.starNil
  rwa [List.append_nil] at once

/-- What begins a text of the row begins one behind other texts of the row. -/
theorem Derives.begins_append {e : Ebnf} {xs ys : List PlacedToken} {ts : List Tree}
    (h : (star e).Derives xs ts) (h' : (star e).Begins ys) :
    (star e).Begins (xs ++ ys) := by
  obtain ⟨ws, us, spelled, derives⟩ := h'
  refine ⟨ws, ts ++ us, spelled, ?_⟩
  rw [List.append_assoc]
  exact h.star_append derives

theorem Begins.again {e : Ebnf} {xs ys : List PlacedToken} {ts : List Tree}
    (he : e.Derives xs ts) (hs : (star e).Begins ys) : (star e).Begins (xs ++ ys) := by
  have once := he.starCons Derives.starNil
  rw [List.append_nil] at once
  exact once.begins_append hs

/-- The beginning of a text is one wherever it stands. -/
theorem Begins.bare {e : Ebnf} {xs : List PlacedToken} (h : e.Begins xs) :
    e.Begins (xs.map PlacedToken.bare) := by
  obtain ⟨ws, ts, spelled, derives⟩ := h
  have unplaced : (written ws).map PlacedToken.bare = written ws := by
    rw [written, List.map_map]
    rfl
  have bare := derives.bare
  rw [List.map_append, unplaced] at bare
  exact ⟨ws, Tree.bareOf ts, spelled, bare⟩

/-- A text can be written down, if that is `known` of the recursive constructs. -/
def productive (known : Bool) : Ebnf → Bool
  | empty | star _ => true
  | never => false
  | terminal t | hidden t => t.writable
  | seq e f => e.productive known && f.productive known
  | alt e f => e.productive known || f.productive known
  | node _ e => e.productive known
  | ref _ => known

theorem begins_of_known {known : Bool} (hrule : known = true → ∀ r, (ref r).Begins []) {e : Ebnf}
    (he : e.productive known = true) : e.Begins [] := by
  induction e with
  | empty => exact Derives.empty.begins
  | never => cases he
  | terminal t =>
    obtain ⟨spelled, accepted⟩ := Terminal.spelled_sample he
    refine ⟨[t.sample], _, fun w hw => ?_, .terminal accepted⟩
    exact List.mem_singleton.mp hw ▸ spelled
  | hidden t =>
    obtain ⟨spelled, accepted⟩ := Terminal.spelled_sample he
    refine ⟨[t.sample], _, fun w hw => ?_, .hidden accepted⟩
    exact List.mem_singleton.mp hw ▸ spelled
  | seq e f ihe ihf =>
    simp only [productive, Bool.and_eq_true] at he
    exact (ihe he.1).seq_left (ihf he.2)
  | alt e f ihe ihf =>
    simp only [productive, Bool.or_eq_true] at he
    rcases he with he | hf
    · exact (ihe he).mono fun _ ts h => ⟨ts, h.left⟩
    · exact (ihf hf).mono fun _ ts h => ⟨ts, h.right⟩
  | star e _ => exact Derives.starNil.begins
  | node k e ih => exact (ih he).mono fun _ _ h => ⟨_, h.node⟩
  | ref r => exact hrule he r

/-- Each recursive construct has a text without any such construct inside. -/
theorem begins_ref (r : Rule) : (ref r).Begins [] := by
  have productive : (ofRule r).productive false = true := by
    cases r with
    | value constant => cases constant <;> rfl
    | _ => rfl
  have body := begins_of_known (fun h => Bool.noConfusion h) productive
  exact body.mono fun _ ts h => ⟨ts, h.ref⟩

theorem begins_of_productive {e : Ebnf} (he : e.productive true = true) : e.Begins [] :=
  begins_of_known (fun _ r => begins_ref r) he

end Ebnf

namespace Grammar

/-- Whatever is missing where the grammar stops can be written down. -/
def completable : Grammar → Bool
  | done | token _ | separator _ | fail _ | call _ => true
  | seq g h => g.completable && h.completable && h.toEbnf.productive true
  | choice _ g h => g.completable && h.completable
  | many _ g | node _ g | nested g => g.completable

theorem completable_ofRule (r : Rule) : (ofRule r).completable = true := by
  cases r with
  | value constant => cases constant <;> rfl
  | _ => rfl

theorem completable_executableDocument : executableDocument.completable = true := rfl

theorem completable_typeSystemDocument : typeSystemDocument.completable = true := rfl

variable {tape : Nat → PlacedToken} {limit d : Nat} {g : Grammar} {c c' : Cursor} {fault : Fault}

/-- What has been read when a grammar stops is the beginning of a text that the grammar describes,
unless nothing has been read. -/
theorem Stops.completes (h : Stops tape limit d g c fault c') (hg : g.completable = true) :
    c'.index = c.index ∨ g.toEbnf.Begins (slice tape c.index c'.index) := by
  induction h with
  | token _ => exact .inl rfl
  | separator _ => exact .inl rfl
  | fail => exact .inl rfl
  | tooDeep _ => exact .inl rfl
  | first _ ih =>
    simp only [completable, Bool.and_eq_true] at hg
    exact (ih hg.1.1).imp_right fun begins =>
      begins.seq_left (Ebnf.begins_of_productive hg.2)
  | @second d g h c c' c'' ts fault reads stops ih =>
    simp only [completable, Bool.and_eq_true] at hg
    -- what `g` has read is complete, and only `h` is left to be completed
    right
    rw [← slice_append tape reads.upto.index stops.upto.index]
    refine .seq_right reads.derives ?_
    rcases ih hg.1.2 with none | begins
    · rw [none, slice_self]
      exact Ebnf.begins_of_productive hg.2
    · exact begins
  | yes _ _ ih =>
    simp only [completable, Bool.and_eq_true] at hg
    rw [Lookahead.index_glance] at ih
    refine (ih hg.1).imp_right fun begins => begins.mono fun _ ts h => ⟨ts, ?_⟩
    exact Ebnf.derives_or.mpr (.inl h)
  | no _ _ ih =>
    simp only [completable, Bool.and_eq_true] at hg
    rw [Lookahead.index_glance] at ih
    refine (ih hg.2).imp_right fun begins => begins.mono fun _ ts h => ⟨ts, ?_⟩
    exact Ebnf.derives_or.mpr (.inr h)
  | item _ _ ih =>
    rw [Lookahead.index_glance] at ih
    exact (ih hg).imp_right Ebnf.Begins.item
  | @again d test g c c' c'' ts fault _ reads stops ih =>
    have first : c.index ≤ c'.index := by simpa using reads.upto.index
    have derives := reads.derives
    rw [Lookahead.index_glance] at derives
    -- if nothing of the next item has been read, the repetition can end here
    right
    rw [← slice_append tape first stops.upto.index]
    refine .again derives ?_
    rcases ih hg with none | begins
    · rw [none, slice_self]
      exact Ebnf.Derives.starNil.begins
    · exact begins
  | node _ ih =>
    exact (ih hg).imp_right fun begins => begins.mono fun _ _ h => ⟨_, h.node⟩
  | nested _ _ ih => exact ih hg
  | @call d r c c' fault _ ih =>
    rw [toEbnf_ofRule] at ih
    exact (ih (completable_ofRule r)).imp_right fun begins => begins.mono fun _ ts h => ⟨ts, h.ref⟩

end Grammar

end GraphQL
