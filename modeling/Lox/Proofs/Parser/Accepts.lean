import Lox.Proofs.Parser.StatementComplete

/-!
# The language that is accepted

Tokens are parsed without faults if and only if the grammar derives them. What is then returned is
the tree of the one derivation in which each `else` belongs to the nearest `if`, and no token is
left.
-/

namespace Lox

open Grammar

/-- The grammar with the nearest `if` has the same language as the grammar as written. -/
theorem Grammar.exists_nearestProgram_iff (u : List Token) :
    (∃ p, NearestProgram u p) ↔ ∃ p, Grammar.Program u p := by
  constructor
  · rintro ⟨p, h⟩
    exact ⟨p, h.asWritten⟩
  · rintro ⟨p, h⟩
    exact h.hasNearest

theorem Parsed.ofTokens_of_derives {u : List Token} {p : List (Stmt Unit)}
    (h : NearestProgram u p) : Parsed.ofTokens u = ⟨p, []⟩ := by
  rw [Parsed.ofTokens, Parser.program_of_derives h]

theorem Parsed.derives_of_errors_eq_nil {u : List Token} (h : (Parsed.ofTokens u).errors = []) :
    Parser.bounded Parser.program u = .ok (Parsed.ofTokens u).program [] [] ∧
      NearestProgram u (Parsed.ofTokens u).program := by
  have herrors : (Parser.bounded Parser.program u).errors = [] := by
    rw [← h, Parsed.ofTokens]
    cases Parser.bounded Parser.program u <;> rfl
  obtain ⟨p, rest, hread, rfl, hp⟩ :=
    Parser.reads_program u.length u (Nat.le_refl _) herrors
  have hparsed : Parser.bounded Parser.program u = .ok p [] [] := hread
  rw [Parsed.ofTokens, hparsed]
  exact ⟨rfl, hp⟩

/-- There is no fault exactly in what the grammar derives. In that case every token is consumed, and
the tree is that of the derivation with the nearest `if`, of which there is one. -/
theorem Parsed.accepts_exactly_grammar (u : List Token) :
    ((Parsed.ofTokens u).errors = [] ↔ ∃ p, Grammar.Program u p) ∧
    ((Parsed.ofTokens u).errors = [] →
      Parser.bounded Parser.program u = .ok (Parsed.ofTokens u).program [] []) ∧
    ∀ p, NearestProgram u p ↔
      (Parsed.ofTokens u).errors = [] ∧ (Parsed.ofTokens u).program = p := by
  refine ⟨?_, fun h => (derives_of_errors_eq_nil h).1, fun p => ?_⟩
  · rw [← exists_nearestProgram_iff]
    constructor
    · intro h
      exact ⟨_, (derives_of_errors_eq_nil h).2⟩
    · rintro ⟨p, h⟩
      rw [ofTokens_of_derives h]
  · constructor
    · intro h
      rw [ofTokens_of_derives h]
      exact ⟨rfl, rfl⟩
    · rintro ⟨h, rfl⟩
      exact (derives_of_errors_eq_nil h).2

end Lox
