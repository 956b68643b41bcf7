import Lox.Proofs.Parser.Invariant

/-!
# Parsers move forwards

Whatever the tokens are, a parser leaves a part of the tokens that it was given, up to their end,
and every fault stands in front of a token of the input or at its end. A parser that succeeds has
taken as many tokens as its rule names. So a declaration takes at least one token, also where it
recovers from a fault, and a program takes all of them.
-/

namespace Lox

variable {α β : Type}

/-- What is left of `ts` ends as `ts` does; if there is a value, at least `taken` tokens are gone,
or all of them. Faults stand within `base`. -/
def Parse.Within (base ts : List Token) (taken : Nat) : Parse α → Prop
  | .ok _ rest errors =>
      rest <:+ ts ∧ rest.length ≤ ts.length - taken ∧ ∀ e ∈ errors, e.left <:+ base
  | .failed rest errors => rest <:+ ts ∧ ∀ e ∈ errors, e.left <:+ base

section Results

variable {base ts rest : List Token} {taken more : Nat} {r : Parse α}

theorem Parse.Within.widen {left : List Token} (hleft : left <:+ base)
    (h : r.Within left ts taken) : r.Within base ts taken := by
  cases r with
  | ok value rest errors => exact ⟨h.1, h.2.1, fun e he => (h.2.2 e he).trans hleft⟩
  | failed rest errors => exact ⟨h.1, fun e he => (h.2 e he).trans hleft⟩

theorem Parse.Within.mono (hle : taken ≤ more) (h : r.Within base ts more) :
    r.Within base ts taken := by
  cases r with
  | ok value rest errors =>
      obtain ⟨hrest, hlength, herrors⟩ := h
      exact ⟨hrest, by omega, herrors⟩
  | failed rest errors => exact h

theorem Parse.Within.trans (hrest : rest <:+ ts) (hlength : rest.length ≤ ts.length - taken)
    (h : r.Within base rest more) : r.Within base ts (taken + more) := by
  cases r with
  | ok value rest' errors =>
      obtain ⟨hrest', hlength', herrors⟩ := h
      exact ⟨hrest'.trans hrest, by omega, herrors⟩
  | failed rest' errors => exact ⟨h.1.trans hrest, h.2⟩

theorem Parse.Within.after {errors : List SyntaxError} (herrors : ∀ e ∈ errors, e.left <:+ base)
    (h : r.Within base ts taken) : (r.after errors).Within base ts taken := by
  cases r with
  | ok value rest more =>
      obtain ⟨hrest, hlength, hmore⟩ := h
      exact ⟨hrest, hlength, List.forall_mem_append.mpr ⟨herrors, hmore⟩⟩
  | failed rest more => exact ⟨h.1, List.forall_mem_append.mpr ⟨herrors, h.2⟩⟩

end Results

namespace Parser

/-- Run on any end of `base`, the parser stays within it and takes at least `taken` tokens if it
succeeds. -/
def Moves (base : List Token) (taken : Nat) (p : Parser α) : Prop :=
  ∀ ts, ts <:+ base → (p ts).Within base ts taken

/-! ### Recovery -/

theorem resumeAfter_suffix (last : Token) (ts : List Token) : resumeAfter last ts <:+ ts := by
  induction ts generalizing last with
  | nil => exact List.suffix_refl []
  | cons t ts ih =>
      rw [resumeAfter]
      split
      · exact List.suffix_refl _
      · exact (ih t).trans (List.suffix_cons t ts)

/-- Recovery drops the token at fault, so it never stays where it is. -/
theorem resume_suffix_tail (ts : List Token) : resume ts <:+ ts.tail := by
  cases ts with
  | nil => exact List.suffix_refl []
  | cons t ts => exact resumeAfter_suffix t ts

/-- To stay within the given tokens is an invariant, also of parsers that recover. -/
def withinTokens : RecoveryInvariant where
  Holds base ts taken r := r.Within base ts taken
  rest h := h.1
  fewer := Parse.Within.mono
  within := Parse.Within.widen
  nothing base ts a _ := ⟨List.suffix_refl ts, Nat.le_refl _, by simp⟩
  taking {_ _ ts taken t _} _ h := by
    rw [Nat.add_comm]
    exact h.trans (List.suffix_cons t ts) (Nat.le_refl ts.length)
  failing base ts taken cause hts _ := ⟨List.suffix_refl ts, by simpa using hts⟩
  reporting left ts cause _ _ := ⟨List.suffix_refl ts, Nat.le_refl _, by simp⟩
  andThen h hnext := (hnext.trans h.1 h.2.1).after h.2.2
  givingUp h := h
  takingAny {_ _ ts taken} t _ h := by
    rw [Nat.add_comm]
    exact h.trans (List.suffix_cons t ts) (Nat.le_refl ts.length)
  resuming {_ base ts rest errors} h := by
    obtain ⟨hrest, herrors⟩ := h
    have hresume := resume_suffix_tail rest
    refine ⟨hresume.trans ((List.tail_suffix rest).trans hrest), ?_, herrors⟩
    have hlength := hresume.length_le
    have hgiven := hrest.length_le
    rw [List.length_tail] at hlength
    omega

section Declarations

variable {base : List Token}

/-- A declaration takes a token, whether it has a fault or not. -/
theorem moves_declarationIn (n : Nat) : Moves base 1 (declarationIn n) :=
  (RecoveryInvariant.keeps_nested (I := withinTokens) n).2

theorem recovering_ok {α : Type} (p : Parser α) (ts : List Token) :
    ∃ a rest errors, recovering p ts = .ok a rest errors := by
  unfold recovering
  cases p ts with
  | ok value rest errors => exact ⟨some value, rest, errors, rfl⟩
  | failed rest errors => exact ⟨none, resume rest, errors, rfl⟩

theorem declarationIn_ok (n : Nat) (ts : List Token) :
    ∃ d rest errors, declarationIn n ts = .ok d rest errors := by
  cases n with
  | zero =>
      rw [declarationIn]
      exact recovering_ok _ ts
  | succ n =>
      rw [declarationIn]
      exact recovering_ok _ ts

/-- A declaration that starts at a token does not give up, and what it leaves is shorter. -/
theorem declarationIn_advances (n : Nat) {t : Token} {ts : List Token} (hts : t :: ts <:+ base) :
    ∃ d rest errors, declarationIn n (t :: ts) = .ok d rest errors ∧ rest <:+ ts ∧
      ∀ e ∈ errors, e.left <:+ base := by
  obtain ⟨d, rest, errors, hrun⟩ := declarationIn_ok n (t :: ts)
  have hwithin := moves_declarationIn n (t :: ts) hts
  rw [hrun] at hwithin
  obtain ⟨hrest, hlength, herrors⟩ := hwithin
  refine ⟨d, rest, errors, hrun, ?_, herrors⟩
  rcases List.suffix_cons_iff.mp hrest with rfl | htail
  · rw [List.length_cons] at hlength
    omega
  · exact htail

theorem declaration_advances {t : Token} {ts : List Token} (hts : t :: ts <:+ base) :
    ∃ d rest errors, Parser.declaration (t :: ts) = .ok d rest errors ∧ rest <:+ ts ∧
      ∀ e ∈ errors, e.left <:+ base :=
  declarationIn_advances _ hts

/-- A program does not give up, and it takes all tokens. -/
theorem program_ends (n : Nat) {ts : List Token} (hts : ts <:+ base) (hn : ts.length ≤ n) :
    ∃ p errors, program n ts = .ok p [] errors ∧ ∀ e ∈ errors, e.left <:+ base := by
  induction n generalizing ts with
  | zero =>
      obtain rfl : ts = [] := List.length_eq_zero_iff.mp (Nat.le_zero.mp hn)
      exact ⟨[], [], rfl, by simp⟩
  | succ n ih =>
      cases ts with
      | nil => exact ⟨[], [], rfl, by simp⟩
      | cons t ts =>
          obtain ⟨first, rest, errors, hfirst, hrest, herrors⟩ := declaration_advances hts
          have hlength := hrest.length_le
          rw [List.length_cons] at hn
          obtain ⟨others, more, hothers, hmore⟩ :=
            ih (hrest.trans ((List.suffix_cons t ts).trans hts)) (by omega)
          refine ⟨first.toList ++ others, errors ++ more, ?_, ?_⟩
          · unfold program
            dsimp only
            rw [bind_apply, hfirst]
            dsimp only
            rw [bind_apply, hothers]
            simp [Parse.after, pure, Parser.pure]
          · exact List.forall_mem_append.mpr ⟨herrors, hmore⟩

end Declarations

end Parser

end Lox
