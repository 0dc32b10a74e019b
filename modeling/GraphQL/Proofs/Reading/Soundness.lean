import GraphQL.Grammar.TypeSystem
import GraphQL.Proofs.Reading.Relation

/-!
# What is read is derivable

A grammar without its tests, its levels and its messages is an expression in EBNF. For the grammars
of the language these expressions are the productions of the language, and whatever is read by a
grammar is derivable from its expression.

Results:
1. `toEbnf_executableDocument`, `toEbnf_typeSystemDocument`, `toEbnf_ofRule`: the expressions of the
   grammars are the productions.
2. `Reads.derives`: the tokens between the two ends of a reading derive its trees.
-/

namespace GraphQL

namespace Ebnf

/-- Either of two expressions, where one that describes nothing is left out. -/
def or (e : Ebnf) : Ebnf → Ebnf
  | never => e
  | f => alt e f

theorem derives_or {e f : Ebnf} {xs : List PlacedToken} {ts : List Tree} :
    (e.or f).Derives xs ts ↔ e.Derives xs ts ∨ f.Derives xs ts := by
  have alternative : (e.alt f).Derives xs ts ↔ e.Derives xs ts ∨ f.Derives xs ts := by
    constructor
    · intro h
      cases h with
      | left h => exact .inl h
      | right h => exact .inr h
    · rintro (h | h)
      · exact h.left
      · exact h.right
  cases f with
  | never =>
    constructor
    · intro h
      exact .inl h
    · rintro (h | h)
      · exact h
      · cases h
  | _ => exact alternative

end Ebnf

namespace Grammar

/-- The grammar without tests, levels and messages. -/
def toEbnf : Grammar → Ebnf
  | done => .empty
  | token t => .terminal t
  | separator t => .hidden t
  | fail _ => .never
  | seq g h => .seq g.toEbnf h.toEbnf
  | choice _ g h => g.toEbnf.or h.toEbnf
  | many _ g => .star g.toEbnf
  | node k g => .node k g.toEbnf
  | nested g => g.toEbnf
  | call r => .ref r

theorem toEbnf_ofRule (r : Rule) : (ofRule r).toEbnf = Ebnf.ofRule r := by
  cases r with
  | value constant => cases constant <;> rfl
  | _ => rfl

theorem toEbnf_executableDocument :
    (node .document executableDocument).toEbnf = Ebnf.document := rfl

theorem toEbnf_typeSystemDocument :
    (node .schema typeSystemDocument).toEbnf = Ebnf.schema := rfl

variable {tape : Nat → PlacedToken} {limit d : Nat} {g : Grammar} {c c' : Cursor} {ts : List Tree}

theorem Reads.derives (h : Reads tape limit d g c ts c') :
    g.toEbnf.Derives (slice tape c.index c'.index) ts := by
  induction h with
  | done => simpa [toEbnf] using Ebnf.Derives.empty
  | token accepted => simpa [toEbnf, Cursor.take] using Ebnf.Derives.terminal accepted
  | separator accepted => simpa [toEbnf, Cursor.take] using Ebnf.Derives.hidden accepted
  | seq hg hh ihg ihh =>
    rw [← slice_append tape hg.upto.index hh.upto.index]
    exact ihg.seq ihh
  | yes _ _ ih =>
    rw [Lookahead.index_glance] at ih
    exact Ebnf.derives_or.mpr (.inl ih)
  | no _ _ ih =>
    rw [Lookahead.index_glance] at ih
    exact Ebnf.derives_or.mpr (.inr ih)
  | ends _ => simpa [toEbnf] using Ebnf.Derives.starNil
  | @again d test g c c' c'' ts us _ hg hm ihg ihm =>
    have first : c.index ≤ c'.index := by simpa using hg.upto.index
    rw [Lookahead.index_glance] at ihg
    rw [← slice_append tape first hm.upto.index]
    exact ihg.starCons ihm
  | node _ ih => exact ih.node
  | nested _ _ ih => exact ih
  | @call d r c c' ts _ ih =>
    rw [toEbnf_ofRule] at ih
    exact ih.ref

end Grammar

end GraphQL
