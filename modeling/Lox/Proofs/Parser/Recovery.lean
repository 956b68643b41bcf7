import Lox.Proofs.Parser.Nesting

/-!
# Recovery makes progress

A fault at which a parser gives up is thrown, and the declaration around it drops at least the token
at fault before it goes on. So the places of thrown faults lie one behind the other, until the input
is at its end; there, all blocks that are still open give up one after the other.
-/

namespace Lox

/-- The number of tokens in front of a fault. -/
def SyntaxError.position (tokens : List Token) (e : SyntaxError) : Nat :=
  tokens.length - e.left.length

/-- The faults at which a parser gave up. -/
def thrown (errors : List SyntaxError) : List SyntaxError :=
  errors.filter fun e => e.cause.isFatal

theorem thrown_append (errors more : List SyntaxError) :
    thrown (errors ++ more) = thrown errors ++ thrown more :=
  List.filter_append ..

theorem thrown_singleton {e : SyntaxError} (h : e.cause.isFatal = true) : thrown [e] = [e] :=
  List.filter_cons_of_pos h

theorem thrown_singleton_eq_nil {e : SyntaxError} (h : e.cause.isFatal = false) :
    thrown [e] = [] := by
  simp [thrown, h]

/-- Starting at `ts`, each place lies behind the one before it, and `rest` behind all. -/
def Descends : List Token → List SyntaxError → List Token → Prop
  | ts, [], rest => rest <:+ ts
  | ts, e :: errors, rest => e.left <:+ ts ∧ Descends e.left.tail errors rest

namespace Descends

variable {ts us rest : List Token} {errors more : List SyntaxError}

theorem mono (h : Descends ts errors rest) (hts : ts <:+ us) : Descends us errors rest := by
  cases errors with
  | nil => exact List.IsSuffix.trans h hts
  | cons e errors => exact ⟨h.1.trans hts, h.2⟩

theorem append (h : Descends ts errors us) (hmore : Descends us more rest) :
    Descends ts (errors ++ more) rest := by
  induction errors generalizing ts with
  | nil => exact hmore.mono h
  | cons e errors ih => exact ⟨h.1, ih h.2⟩

theorem suffix (h : Descends ts errors rest) : rest <:+ ts := by
  induction errors generalizing ts with
  | nil => exact h
  | cons e errors ih =>
      obtain ⟨hleft, hothers⟩ := h
      exact ((ih hothers).trans (List.tail_suffix e.left)).trans hleft

theorem left_suffix (h : Descends ts errors rest) {e : SyntaxError} (he : e ∈ errors) :
    e.left <:+ ts := by
  induction errors generalizing ts with
  | nil => cases he
  | cons first errors ih =>
      obtain ⟨hleft, hothers⟩ := h
      rcases List.mem_cons.mp he with rfl | he
      · exact hleft
      · exact ((ih hothers he).trans (List.tail_suffix first.left)).trans hleft

theorem pairwise (h : Descends ts errors rest) :
    errors.Pairwise fun a b => b.left <:+ a.left.tail := by
  induction errors generalizing ts with
  | nil => exact .nil
  | cons e errors ih => exact .cons (fun b hb => h.2.left_suffix hb) (ih h.2)

end Descends

/-- Thrown faults descend to what is left; a parser that gives up threw the last of them there. -/
def Parse.Descends {α : Type} (ts : List Token) : Parse α → Prop
  | .ok _ rest errors => Lox.Descends ts (thrown errors) rest
  | .failed rest errors => ∃ before cause, errors = before ++ [⟨rest, cause⟩] ∧
      cause.isFatal = true ∧ Lox.Descends ts (thrown before) rest

namespace Parse

variable {α : Type} {ts us rest : List Token} {errors : List SyntaxError}

theorem Descends.mono {r : Parse α} (h : r.Descends ts) (hts : ts <:+ us) : r.Descends us := by
  cases r with
  | ok a rest errors => exact Lox.Descends.mono h hts
  | failed rest errors =>
      obtain ⟨before, cause, rfl, hfatal, hbefore⟩ := h
      exact ⟨before, cause, rfl, hfatal, hbefore.mono hts⟩

theorem Descends.after {r : Parse α} (h : Lox.Descends ts (thrown errors) rest)
    (hr : r.Descends rest) : (r.after errors).Descends ts := by
  cases r with
  | ok a rest' more =>
      have hall := h.append hr
      rwa [← thrown_append] at hall
  | failed rest' more =>
      obtain ⟨before, cause, rfl, hfatal, hbefore⟩ := hr
      have hall := h.append hbefore
      rw [← thrown_append] at hall
      exact ⟨errors ++ before, cause, (List.append_assoc ..).symm, hfatal, hall⟩

end Parse

namespace Parser

/-- Where a parser gave up, the token at fault is dropped before it goes on. -/
theorem descends_resume {ts rest : List Token} {before : List SyntaxError}
    {cause : SyntaxError.Cause} (hfatal : cause.isFatal = true)
    (h : Descends ts (thrown before) rest) :
    Descends ts (thrown (before ++ [⟨rest, cause⟩])) (resume rest) := by
  rw [thrown_append, thrown_singleton hfatal]
  refine h.append ?_
  exact ⟨List.suffix_refl rest, resume_suffix_tail rest⟩

def descending : RecoveryInvariant where
  Holds _ ts _ r := r.Descends ts
  rest h := h.suffix
  fewer _ h := h
  within _ h := h
  nothing _ ts _ _ := List.suffix_refl ts
  taking {_ _ ts _ t _} _ h := h.mono (List.suffix_cons t ts)
  failing _ ts _ cause _ hfatal := ⟨[], cause, rfl, hfatal, List.suffix_refl ts⟩
  reporting left ts cause _ hfatal := by
    show Descends ts (thrown _) ts
    rw [thrown_singleton_eq_nil hfatal]
    exact List.suffix_refl ts
  andThen h hnext := Parse.Descends.after h hnext
  givingUp h := h
  takingAny {_ _ ts _} t _ h := h.mono (List.suffix_cons t ts)
  resuming h := by
    obtain ⟨before, cause, rfl, hfatal, hbefore⟩ := h
    exact descends_resume hfatal hbefore

theorem program_descends (n : Nat) (tokens : List Token) : (program n tokens).Descends tokens :=
  RecoveryInvariant.keeps_program (I := descending) n tokens (List.suffix_refl tokens)

theorem recovering_none {α : Type} {p : Parser α} {ts rest : List Token}
    {errors : List SyntaxError} (h : recovering p ts = .ok none rest errors) :
    ∃ left, p ts = .failed left errors ∧ rest = resume left := by
  unfold recovering at h
  cases hrun : p ts with
  | ok a left more =>
      rw [hrun] at h
      cases h
  | failed left more =>
      rw [hrun] at h
      cases h
      exact ⟨left, rfl, rfl⟩

/-- A declaration that is dropped threw a fault last, and goes on behind the token at fault. -/
theorem declaration_none {ts rest : List Token} {errors : List SyntaxError}
    (h : declaration ts = .ok none rest errors) :
    ∃ before e, errors = before ++ [e] ∧ e.cause.isFatal = true ∧ rest = resume e.left := by
  rw [declaration, declarationIn] at h
  obtain ⟨left, hfailed, rfl⟩ := recovering_none h
  obtain ⟨hstatement, hdeclaration⟩ : descending.Keeps ts 1 (statementIn ts.length) ∧
      descending.Keeps ts 1 (declarationIn ts.length) :=
    RecoveryInvariant.keeps_nested ts.length
  have hkept := RecoveryInvariant.keeps_declarationWith hdeclaration hstatement ts
    (List.suffix_refl ts)
  rw [hfailed] at hkept
  obtain ⟨before, cause, rfl, hfatal, _⟩ := hkept
  exact ⟨before, ⟨left, cause⟩, rfl, hfatal, rfl⟩

/-- What one round of a loop over declarations does at a token. -/
structure Round (t : Token) (ts : List Token) (dropped : Bool) (rest : List Token)
    (errors : List SyntaxError) : Prop where
  advances : rest <:+ ts
  within : ∀ e ∈ errors, e.left <:+ t :: ts
  dropping : dropped = true →
    ∃ before e, errors = before ++ [e] ∧ e.cause.isFatal = true ∧ rest = resume e.left

theorem declaration_round (t : Token) (ts : List Token) :
    ∃ d rest errors, declaration (t :: ts) = .ok d rest errors ∧
      Round t ts d.isNone rest errors := by
  obtain ⟨d, rest, errors, hrun, hrest, herrors⟩ :=
    declaration_advances (List.suffix_refl (t :: ts))
  refine ⟨d, rest, errors, hrun, hrest, herrors, fun hnone => ?_⟩
  obtain rfl : d = none := Option.isNone_iff_eq_none.mp hnone
  exact declaration_none hrun

/-- The rest of a program is parsed as a program of its own. -/
theorem program_of_declaration {ts rest : List Token} {d : Option (Stmt Unit)}
    {errors : List SyntaxError} (hts : ts ≠ []) (h : declaration ts = .ok d rest errors)
    (hrest : rest.length < ts.length) :
    Parsed.ofTokens ts = ⟨d.toList ++ (Parsed.ofTokens rest).program,
      errors ++ (Parsed.ofTokens rest).errors⟩ := by
  obtain ⟨t, us, rfl⟩ := List.exists_cons_of_ne_nil hts
  obtain ⟨p, more, hmore, -⟩ := program_ends us.length (List.suffix_refl rest)
    (Nat.le_of_lt_succ hrest)
  have hown : bounded program rest = .ok p [] more := by
    rw [← suffices_program us.length rest (Nat.le_of_lt_succ hrest), hmore]
  have hall : bounded program (t :: us) = .ok (d.toList ++ p) [] (errors ++ more) := by
    rw [bounded, List.length_cons]
    unfold program
    dsimp only
    rw [bind_apply, h]
    dsimp only
    rw [bind_apply, hmore]
    simp [Parse.after, pure, Parser.pure]
  rw [Parsed.ofTokens, Parsed.ofTokens, hall, hown]

end Parser

open Lox.Parser

theorem position_le_position {tokens : List Token} {a b : SyntaxError}
    (h : b.left <:+ a.left.tail) : a.position tokens ≤ b.position tokens := by
  have hlength := (h.trans (List.tail_suffix a.left)).length_le
  unfold SyntaxError.position
  omega

theorem position_lt_position {tokens : List Token} {a b : SyntaxError}
    (ha : a.left <:+ tokens) (h : b.left <:+ a.left.tail) (hne : a.left ≠ []) :
    a.position tokens < b.position tokens := by
  have htokens := ha.length_le
  have hlength := h.length_le
  have hpos := List.length_pos_iff.mpr hne
  rw [List.length_tail] at hlength
  unfold SyntaxError.position
  omega

/-- **A parse ends, and recovery makes progress.** -/
theorem Parsed.recovery_progresses (tokens : List Token) :
    ∃ p errors, Parser.program tokens.length tokens = .ok p [] errors ∧
      Parsed.ofTokens tokens = ⟨p, errors⟩ ∧ NothingCut ∧
      (∀ e ∈ errors, e.left <:+ tokens ∧ tokens ≠ []) ∧
      (∀ t ts, ∃ d rest more, declaration (t :: ts) = .ok d rest more ∧
        Round t ts d.isNone rest more) ∧
      (thrown errors).Pairwise fun a b => a.position tokens ≤ b.position tokens ∧
        (a.left ≠ [] → a.position tokens < b.position tokens) := by
  obtain ⟨p, errors, hrun, hwithin⟩ :=
    program_ends tokens.length (List.suffix_refl tokens) (Nat.le_refl _)
  have hdescends := program_descends tokens.length tokens
  rw [hrun] at hdescends
  refine ⟨p, errors, hrun, ?_, nothing_cut, fun e he => ⟨hwithin e he, ?_⟩, declaration_round, ?_⟩
  · rw [Parsed.ofTokens, bounded, hrun]
  · rintro rfl
    cases hrun
    cases he
  · refine hdescends.pairwise.imp_of_mem ?_
    intro a b ha _ h
    have hleft := hdescends.left_suffix ha
    exact ⟨position_le_position h, position_lt_position hleft h⟩

end Lox
