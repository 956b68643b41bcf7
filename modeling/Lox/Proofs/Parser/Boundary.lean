import Lox.Proofs.Parser.Accepts
import Lox.Proofs.Parser.Recovery

/-!
# Programs one behind the other

A declaration without faults is complete where it ends: no rule looks for more behind it, but for an
`else`. So what follows a program without faults is parsed as if nothing stood in front of it,
whatever faults it has.
-/

namespace Lox

open Grammar Lox.Parser

/-- A declaration that is read keeps what follows as it is. -/
theorem Parsed.ofTokens_of_gives {u v : List Token} {s : Stmt Unit} (h : GivesDeclaration u s)
    (hstop : Stops [.elseWord] v) :
    Parsed.ofTokens (u ++ v) = ⟨s :: (Parsed.ofTokens v).program, (Parsed.ofTokens v).errors⟩ := by
  have hshort : v.length < (u ++ v).length := by
    obtain ⟨first, rest, rfl, -⟩ := h.1
    simp only [List.length_append, List.length_cons]
    omega
  have hne : u ++ v ≠ [] := by
    intro hnil
    rw [hnil] at hshort
    cases hshort
  have hread : declaration (u ++ v) = .ok (some s) v [] :=
    declarationIn_of_gives h (by rw [List.length_append]; omega) hstop
  exact program_of_declaration hne hread hshort

theorem Parsed.ofTokens_of_sequence {u : List Token} {ss : List (Stmt Unit)}
    (h : Sequence GivesDeclaration u ss) {v : List Token} (hstop : Stops [.elseWord] v) :
    Parsed.ofTokens (u ++ v) =
      ⟨ss ++ (Parsed.ofTokens v).program, (Parsed.ofTokens v).errors⟩ := by
  induction h with
  | nil => rfl
  | @cons u w s ss h hothers ih =>
      have hnext : Stops [.elseWord] (w ++ v) :=
        hothers.stops (fun _ _ h => h.1) (by decide) hstop
      rw [List.append_assoc, Parsed.ofTokens_of_gives h hnext, ih]
      rfl

/-- **Parsing splits where a declaration ends.** What follows a program without faults is parsed as
a program of its own, unless it starts with `else`. -/
theorem Parsed.splits_behind_program {p q : List Token} (hp : (Parsed.ofTokens p).errors = [])
    (hq : Stops [.elseWord] q) :
    Parsed.ofTokens (p ++ q) =
      ⟨(Parsed.ofTokens p).program ++ (Parsed.ofTokens q).program, (Parsed.ofTokens q).errors⟩ := by
  have hderived := (Parsed.derives_of_errors_eq_nil hp).2
  exact Parsed.ofTokens_of_sequence (Clause.parses_of_derives hderived) hq

/-- A conditional statement in front of a fault: the fault is that of the second text alone. -/
theorem Parsed.splits_behind_program_if :
    let token (kind : Token.Kind) : Token := ⟨kind, [], .nil, 1⟩
    let p := [token .ifWord, token .leftParen, token .identifier, token .rightParen,
      token .identifier, token .semicolon]
    let q := [token .star, token .semicolon]
    (Parsed.ofTokens p).errors = [] ∧ Stops [.elseWord] q ∧
      Parsed.ofTokens (p ++ q) =
        ⟨(Parsed.ofTokens p).program ++ (Parsed.ofTokens q).program, (Parsed.ofTokens q).errors⟩ ∧
      (Parsed.ofTokens (p ++ q)).errors ≠ [] := by
  intro token p q
  have hp : (Parsed.ofTokens p).errors = [] := by decide
  have hq : Stops [.elseWord] q := stops_cons (by decide) _
  have hfault : (Parsed.ofTokens q).errors ≠ [] := by decide
  refine ⟨hp, hq, Parsed.splits_behind_program hp hq, ?_⟩
  rw [Parsed.splits_behind_program hp hq]
  exact hfault

end Lox
