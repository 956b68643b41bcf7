import Lox.Proofs.Parser.Recovery

/-!
# A broken simple statement costs itself

A parser of expressions takes no semicolon and no brace, and it throws no more than one fault, where
it gives up. So a statement without braces and without inner statements ends no later than at its
semicolon; if it has a fault on the way there, recovery goes on right behind that semicolon.
-/

namespace Lox

variable {α β : Type}

namespace Parser

/-- Kinds of tokens that recovery drops. A statement neither starts nor ends at them. -/
def isInner : Token.Kind → Bool
  | .eof | .semicolon | .leftBrace | .rightBrace | .classWord | .funWord | .varWord | .forWord
  | .ifWord | .whileWord | .printWord | .returnWord => false
  | _ => true

/-- Keywords of statements and declarations that can be written without a brace in them. -/
def leadsSimple : Token.Kind → Bool
  | .classWord | .funWord | .varWord | .whileWord | .printWord | .returnWord => true
  | _ => false

theorem kind_of_leadsSimple {kind : Token.Kind} (h : leadsSimple kind = true) :
    kind = .classWord ∨ kind = .funWord ∨ kind = .varWord ∨ kind = .whileWord ∨
      kind = .printWord ∨ kind = .returnWord := by
  revert h
  cases kind <;> decide

def Inner (u : List Token) : Prop :=
  ∀ t ∈ u, isInner t.kind = true

/-- Text of a simple statement up to its semicolon, with or without faults. -/
inductive SimpleText : List Token → Prop where
  | plain {u : List Token} (h : Inner u) : SimpleText u
  | led {t : Token} {u : List Token} (ht : leadsSimple t.kind = true) (h : Inner u) :
      SimpleText (t :: u)

end Parser

open Lox.Parser

/-! ### Expressions do not end statements -/

/-- Only tokens of expressions stand between `ts` and `rest`. -/
def Passes (ts rest : List Token) : Prop :=
  ∃ u, ts = u ++ rest ∧ ∀ t ∈ u, inExpression t.kind = true

/-- The faults are not thrown, and lie between `base` and `rest`. -/
def Noted (base rest : List Token) (errors : List SyntaxError) : Prop :=
  ∀ e ∈ errors, e.cause.isFatal = false ∧ rest <:+ e.left ∧ e.left <:+ base

theorem Passes.refl (ts : List Token) : Passes ts ts :=
  ⟨[], rfl, by simp⟩

theorem Passes.cons {t : Token} {ts rest : List Token} (ht : inExpression t.kind = true)
    (h : Passes ts rest) : Passes (t :: ts) rest := by
  obtain ⟨u, rfl, hu⟩ := h
  exact ⟨t :: u, rfl, List.forall_mem_cons.mpr ⟨ht, hu⟩⟩

theorem Passes.trans {ts us rest : List Token} (h : Passes ts us) (hrest : Passes us rest) :
    Passes ts rest := by
  obtain ⟨u, rfl, hu⟩ := h
  obtain ⟨w, rfl, hw⟩ := hrest
  exact ⟨u ++ w, (List.append_assoc ..).symm, List.forall_mem_append.mpr ⟨hu, hw⟩⟩

theorem Passes.suffix {ts rest : List Token} (h : Passes ts rest) : rest <:+ ts := by
  obtain ⟨u, rfl, _⟩ := h
  exact List.suffix_append u rest

section Noted

variable {base left rest us : List Token} {errors more : List SyntaxError}

theorem Noted.nil : Noted base rest [] := by
  simp [Noted]

theorem Noted.append (h : Noted base us errors) (hrest : rest <:+ us)
    (hmore : Noted base rest more) : Noted base rest (errors ++ more) := by
  refine List.forall_mem_append.mpr ⟨fun e he => ?_, hmore⟩
  obtain ⟨hcause, hleft, hbase⟩ := h e he
  exact ⟨hcause, hrest.trans hleft, hbase⟩

theorem Noted.within (hleft : left <:+ base) (h : Noted left rest errors) :
    Noted base rest errors := by
  intro e he
  obtain ⟨hcause, hrest, hwithin⟩ := h e he
  exact ⟨hcause, hrest, hwithin.trans hleft⟩

theorem thrown_eq_nil (h : Noted base rest errors) : thrown errors = [] := by
  refine List.filter_eq_nil_iff.mpr fun e he => ?_
  rw [(h e he).1]
  exact Bool.false_ne_true

end Noted

/-- What a parser of expressions does: it passes tokens of expressions, and if it gives up it throws
a fault where it stands. -/
def Parse.Passing (base ts : List Token) : Parse α → Prop
  | .ok _ rest errors => Passes ts rest ∧ Noted base rest errors
  | .failed rest errors => Passes ts rest ∧ ∃ before cause, errors = before ++ [⟨rest, cause⟩] ∧
      cause.isFatal = true ∧ Noted base rest before

namespace Parse

variable {base left ts us rest : List Token} {errors : List SyntaxError} {r : Parse α}

theorem Passing.before (hts : Passes us ts) (h : r.Passing base ts) : r.Passing base us := by
  cases r with
  | ok a rest errors => exact ⟨hts.trans h.1, h.2⟩
  | failed rest errors => exact ⟨hts.trans h.1, h.2⟩

theorem Passing.within (hleft : left <:+ base) (h : r.Passing left ts) : r.Passing base ts := by
  cases r with
  | ok a rest errors => exact ⟨h.1, h.2.within hleft⟩
  | failed rest errors =>
      obtain ⟨hpasses, before, cause, rfl, hfatal, hbefore⟩ := h
      exact ⟨hpasses, before, cause, rfl, hfatal, hbefore.within hleft⟩

theorem Passing.after (hfirst : Noted base ts errors) (h : r.Passing base ts) :
    (r.after errors).Passing base ts := by
  cases r with
  | ok a rest more => exact ⟨h.1, hfirst.append h.1.suffix h.2⟩
  | failed rest more =>
      obtain ⟨hpasses, before, cause, rfl, hfatal, hbefore⟩ := h
      exact ⟨hpasses, errors ++ before, cause, (List.append_assoc ..).symm, hfatal,
        hfirst.append hpasses.suffix hbefore⟩

end Parse

namespace Parser

def passing : Invariant where
  Holds base ts _ r := r.Passing base ts
  rest h := h.1.suffix
  fewer _ h := h
  within := Parse.Passing.within
  nothing _ ts _ _ := ⟨.refl ts, .nil⟩
  taking {_ _ ts _ _ _} ht h := h.before ((Passes.refl ts).cons ht)
  failing _ ts _ cause _ hfatal := ⟨.refl ts, [], cause, rfl, hfatal, .nil⟩
  reporting left ts _ hts hcause := by
    refine ⟨.refl ts, ?_⟩
    rw [Noted, List.forall_mem_singleton]
    exact ⟨hcause, hts, List.suffix_refl left⟩
  andThen h hnext := (hnext.after h.2).before h.1
  givingUp h := h

end Parser

/-! ### Up to the semicolon -/

/-- The semicolon is still to come, behind tokens that recovery would drop. -/
def Before (semicolon : Token) (q rest : List Token) : Prop :=
  ∃ u, rest = u ++ semicolon :: q ∧ Inner u

namespace Before

variable {semicolon : Token} {q ts : List Token}

/-- Up to the semicolon, no statement starts or ends. -/
theorem kind_ne {t : Token} (h : Before semicolon q (t :: ts)) (hend : semicolon.kind = .semicolon)
    {kind : Token.Kind} (hinner : isInner kind = false) (hne : kind ≠ .semicolon) :
    t.kind ≠ kind := by
  rintro rfl
  obtain ⟨u, hts, hu⟩ := h
  cases u with
  | nil =>
      cases hts
      exact hne hend
  | cons first u =>
      cases hts
      rw [hu t List.mem_cons_self] at hinner
      cases hinner

theorem tail {t : Token} (h : Before semicolon q (t :: ts))
    (hend : semicolon.kind = .semicolon) (ht : t.kind ≠ .semicolon) : Before semicolon q ts := by
  obtain ⟨u, hts, hu⟩ := h
  cases u with
  | nil =>
      cases hts
      exact absurd hend ht
  | cons first u =>
      cases hts
      exact ⟨u, rfl, fun t ht => hu t (List.mem_cons_of_mem _ ht)⟩

theorem ends {t : Token} (h : Before semicolon q (t :: ts)) (ht : t.kind = .semicolon) :
    ts = q := by
  obtain ⟨u, hts, hu⟩ := h
  cases u with
  | nil =>
      cases hts
      rfl
  | cons first u =>
      cases hts
      have hinner := hu t List.mem_cons_self
      rw [ht] at hinner
      cases hinner

theorem suffix (h : Before semicolon q ts) : semicolon :: q <:+ ts := by
  obtain ⟨u, rfl, _⟩ := h
  exact List.suffix_append u _

/-- What a parser of expressions passes lies in front of the semicolon. -/
theorem passes {rest : List Token} (hend : semicolon.kind = .semicolon)
    (h : Before semicolon q ts) (hrest : Passes ts rest) :
    Before semicolon q rest := by
  obtain ⟨u, rfl, hu⟩ := hrest
  induction u with
  | nil => exact h
  | cons t u ih =>
      obtain ⟨ht, hothers⟩ := List.forall_mem_cons.mp hu
      have hne : t.kind ≠ .semicolon := by
        intro heq
        rw [heq] at ht
        cases ht
      exact ih hothers (tail h hend hne)

end Before

/-- All faults are at the semicolon or in front of it. -/
def Located (semicolon : Token) (q : List Token) (errors : List SyntaxError) : Prop :=
  ∀ e ∈ errors, semicolon :: q <:+ e.left

/-- A parser that succeeds throws nothing and leaves tokens as `R` says; a parser that gives up does
so in front of the semicolon, with the only fault that it throws. -/
def Parse.Leaves (semicolon : Token) (q : List Token) (R : List Token → Prop) : Parse α → Prop
  | .ok _ rest errors => R rest ∧ thrown errors = [] ∧ Located semicolon q errors
  | .failed rest errors => Before semicolon q rest ∧ (thrown errors).length = 1 ∧
      Located semicolon q errors

namespace Parser

section Semicolon

variable {semicolon : Token} {q ts : List Token} {R S : List Token → Prop}

theorem leaves_bind {p : Parser α} {f : α → Parser β} (h : (p ts).Leaves semicolon q R)
    (hf : ∀ a rest, R rest → (f a rest).Leaves semicolon q S) :
    ((p >>= f) ts).Leaves semicolon q S := by
  rw [bind_apply]
  cases hrun : p ts with
  | ok a rest errors =>
      rw [hrun] at h
      obtain ⟨hrest, hthrown, hlocated⟩ := h
      have hnext := hf a rest hrest
      dsimp only
      cases hrun' : f a rest with
      | ok b rest' more =>
          rw [hrun'] at hnext
          obtain ⟨hrest', hthrown', hlocated'⟩ := hnext
          refine ⟨hrest', ?_, List.forall_mem_append.mpr ⟨hlocated, hlocated'⟩⟩
          rw [thrown_append, hthrown, hthrown']
          rfl
      | failed rest' more =>
          rw [hrun'] at hnext
          obtain ⟨hrest', hthrown', hlocated'⟩ := hnext
          refine ⟨hrest', ?_, List.forall_mem_append.mpr ⟨hlocated, hlocated'⟩⟩
          rw [thrown_append, hthrown]
          exact hthrown'
  | failed rest errors =>
      rw [hrun] at h
      exact h

theorem leaves_pure {a : α} (h : R ts) : ((pure a : Parser α) ts).Leaves semicolon q R :=
  ⟨h, rfl, by simp [Located]⟩

theorem leaves_map {p : Parser α} (f : α → β) (h : (p ts).Leaves semicolon q R) :
    ((f <$> p) ts).Leaves semicolon q R :=
  leaves_bind h fun _ _ => leaves_pure

theorem leaves_fail (h : Before semicolon q ts) {cause : SyntaxError.Cause}
    (hfatal : cause.isFatal = true) : (fail cause ts : Parse α).Leaves semicolon q R := by
  refine ⟨h, by rw [thrown_singleton hfatal, List.length_singleton], ?_⟩
  rw [Located, List.forall_mem_singleton]
  exact h.suffix

theorem leaves_expect (h : Before semicolon q ts) {kind : Token.Kind} {cause : SyntaxError.Cause}
    (hfatal : cause.isFatal = true) (hR : ∀ t rest, ts = t :: rest → t.kind = kind → R rest) :
    (expect kind cause ts).Leaves semicolon q R := by
  cases ts with
  | nil => exact leaves_fail h hfatal
  | cons t ts =>
      rw [expect]
      split
      case isTrue hkind => exact ⟨hR t ts rfl hkind, rfl, by simp [Located]⟩
      case isFalse => exact leaves_fail h hfatal

section Rules

variable (hend : semicolon.kind = .semicolon)

include hend

theorem leaves_of_keeps {p : Parser α} {taken : Nat} (hp : ∀ base, passing.Keeps base taken p)
    (h : Before semicolon q ts) : (p ts).Leaves semicolon q (Before semicolon q) := by
  have hpassing := hp ts ts (List.suffix_refl ts)
  have hlocated {rest : List Token} {errors : List SyntaxError} (hrest : Before semicolon q rest)
      (hnoted : Noted ts rest errors) : Located semicolon q errors :=
    fun e he => hrest.suffix.trans (hnoted e he).2.1
  cases hrun : p ts with
  | ok a rest errors =>
      rw [hrun] at hpassing
      obtain ⟨hpasses, hnoted⟩ := hpassing
      have hrest := Before.passes hend h hpasses
      exact ⟨hrest, thrown_eq_nil hnoted, hlocated hrest hnoted⟩
  | failed rest errors =>
      rw [hrun] at hpassing
      obtain ⟨hpasses, before, cause, rfl, hfatal, hnoted⟩ := hpassing
      have hrest := Before.passes hend h hpasses
      have hgiven : (fail cause rest : Parse α).Leaves semicolon q (Before semicolon q) :=
        leaves_fail hrest hfatal
      obtain ⟨_, hone, hlast⟩ := hgiven
      refine ⟨hrest, ?_, List.forall_mem_append.mpr ⟨hlocated hrest hnoted, hlast⟩⟩
      rw [thrown_append, thrown_eq_nil hnoted]
      exact hone

theorem leaves_token (h : Before semicolon q ts) {kind : Token.Kind} (hkind : kind ≠ .semicolon)
    {cause : SyntaxError.Cause} (hfatal : cause.isFatal = true) :
    (expect kind cause ts).Leaves semicolon q (Before semicolon q) := by
  refine leaves_expect h hfatal ?_
  rintro t rest rfl rfl
  exact h.tail hend hkind

/-- There is no brace up to the semicolon. -/
theorem leaves_brace (h : Before semicolon q ts) {cause : SyntaxError.Cause}
    (hfatal : cause.isFatal = true) :
    (expect .leftBrace cause ts).Leaves semicolon q fun _ => False := by
  refine leaves_expect h hfatal ?_
  rintro t rest rfl hkind
  exact h.kind_ne hend rfl (by decide) hkind

omit hend in
/-- A parser that ends with a semicolon ends with this one. -/
theorem leaves_end (h : Before semicolon q ts) {cause : SyntaxError.Cause}
    (hfatal : cause.isFatal = true) (value : α) :
    ((expect .semicolon cause >>= fun _ => pure value) ts).Leaves semicolon q (· = q) := by
  refine leaves_bind (leaves_expect h hfatal ?_) fun _ _ => leaves_pure
  rintro t rest rfl hkind
  exact h.ends hkind

theorem leaves_accept? (h : Before semicolon q ts) {kinds : List Token.Kind}
    (hkinds : .semicolon ∉ kinds) :
    (accept? kinds ts).Leaves semicolon q (Before semicolon q) := by
  cases ts with
  | nil => exact leaves_pure h
  | cons t ts =>
      rw [accept?]
      split
      case isTrue hkind =>
        have hne : t.kind ≠ .semicolon := by
          intro heq
          rw [heq] at hkind
          exact hkinds hkind
        exact leaves_pure (h.tail hend hne)
      case isFalse => exact leaves_pure h

theorem leaves_expression (h : Before semicolon q ts) :
    (expression ts).Leaves semicolon q (Before semicolon q) :=
  leaves_of_keeps hend (fun _ => Invariant.keeps_expression (I := passing)) h

theorem leaves_expressionStatement (h : Before semicolon q ts) :
    (expressionStatement ts).Leaves semicolon q (· = q) :=
  leaves_bind (leaves_expression hend h) fun _ _ hrest => leaves_end hrest rfl _

theorem leaves_printStatement (h : Before semicolon q ts) :
    (printStatement ts).Leaves semicolon q (· = q) :=
  leaves_bind (leaves_expression hend h) fun _ _ hrest => leaves_end hrest rfl _

theorem leaves_returnStatement (keyword : Token) (h : Before semicolon q ts) :
    (returnStatement keyword ts).Leaves semicolon q (· = q) := by
  have hvalue := leaves_of_keeps hend
    (fun _ => Invariant.keeps_unlessAt (I := passing) .semicolon) h
  exact leaves_bind hvalue fun _ _ hrest => leaves_end hrest rfl _

theorem leaves_variableDeclaration (h : Before semicolon q ts) :
    (variableDeclaration ts).Leaves semicolon q (· = q) := by
  refine leaves_bind (leaves_token hend h (by decide) rfl) fun name rest hrest => ?_
  refine leaves_bind (leaves_accept? hend hrest (by decide)) fun found rest hrest => ?_
  cases found with
  | none => exact leaves_bind (leaves_pure hrest) fun _ _ hrest => leaves_end hrest rfl _
  | some _ =>
      exact leaves_bind (leaves_map some (leaves_expression hend hrest)) fun _ _ hrest =>
        leaves_end hrest rfl _

/-- The body is not a simple statement of its own; it starts behind the keyword. -/
theorem leaves_statement (h : Before semicolon q ts) :
    (statement ts).Leaves semicolon q (· = q) := by
  have hexpression := leaves_expressionStatement hend h
  rw [statement_eq]
  cases ts with
  | nil => exact hexpression
  | cons t ts =>
      unfold statementWith
      dsimp only
      split
      case h_7 => exact hexpression
      all_goals
        rename_i hkind
        exact absurd hkind (h.kind_ne hend rfl (by decide))

theorem leaves_whileStatement (h : Before semicolon q ts) :
    (whileStatement statement ts).Leaves semicolon q (· = q) := by
  refine leaves_bind (leaves_token hend h (by decide) rfl) fun _ rest hrest => ?_
  refine leaves_bind (leaves_expression hend hrest) fun condition rest hrest => ?_
  refine leaves_bind (leaves_token hend hrest (by decide) rfl) fun _ rest hrest => ?_
  exact leaves_bind (leaves_statement hend hrest) fun _ _ hrest => leaves_pure hrest

theorem leaves_functionDecl (role : FunctionRole) (h : Before semicolon q ts) :
    (functionDecl declaration role ts).Leaves semicolon q (· = q) := by
  have hparameters (base : List Token) : passing.Keeps base 1
      (parenthesized (expect .identifier .parameterName) .tooManyParams .paramsEnd) :=
    Invariant.keeps_parenthesized
      (fun _ => (Invariant.keeps_expect rfl rfl).fewer (Nat.zero_le 1)) rfl rfl
  refine leaves_bind (leaves_token hend h (by decide) rfl) fun name rest hrest => ?_
  refine leaves_bind (leaves_token hend hrest (by decide) rfl) fun _ rest hrest => ?_
  refine leaves_bind (leaves_of_keeps hend hparameters hrest) fun listed rest hrest => ?_
  exact leaves_bind (leaves_brace hend hrest rfl) fun _ _ hnone => hnone.elim

theorem leaves_classDeclaration (h : Before semicolon q ts) :
    (classDeclaration declaration ts).Leaves semicolon q (· = q) := by
  have hsuperclass {ts : List Token} (h : Before semicolon q ts) :
      (superclassClause ts).Leaves semicolon q (Before semicolon q) := by
    refine leaves_bind (leaves_accept? hend h (by decide)) fun found rest hrest => ?_
    cases found with
    | none => exact leaves_pure hrest
    | some _ => exact leaves_bind (leaves_token hend hrest (by decide) rfl) fun _ _ hrest =>
        leaves_pure hrest
  refine leaves_bind (leaves_token hend h (by decide) rfl) fun name rest hrest => ?_
  refine leaves_bind (hsuperclass hrest) fun superclass rest hrest => ?_
  exact leaves_bind (leaves_brace hend hrest rfl) fun _ _ hnone => hnone.elim

theorem leaves_declarationWith {b : List Token} (hb : SimpleText b) :
    (declarationWith declaration statement (b ++ semicolon :: q)).Leaves semicolon q (· = q) := by
  cases hb with
  | @plain b hb =>
      have hbefore : Before semicolon q (b ++ semicolon :: q) := ⟨b, rfl, hb⟩
      have hstatement := leaves_statement hend hbefore
      rw [statement_eq] at hstatement
      generalize b ++ semicolon :: q = ts at hbefore hstatement ⊢
      cases ts with
      | nil => exact hstatement
      | cons t ts =>
          unfold declarationWith
          dsimp only
          split
          case h_4 => exact hstatement
          all_goals
            rename_i hkind
            exact absurd hkind (hbefore.kind_ne hend rfl (by decide))
  | @led t b ht hb =>
      have hbefore : Before semicolon q (b ++ semicolon :: q) := ⟨b, rfl, hb⟩
      rw [List.cons_append]
      rcases kind_of_leadsSimple ht with hkind | hkind | hkind | hkind | hkind | hkind <;>
        simp only [declarationWith, statementWith, hkind]
      · exact leaves_classDeclaration hend hbefore
      · exact leaves_map _ (leaves_functionDecl hend .function hbefore)
      · exact leaves_variableDeclaration hend hbefore
      · exact leaves_whileStatement hend hbefore
      · exact leaves_printStatement hend hbefore
      · exact leaves_returnStatement hend t hbefore

/-! ### Recovery goes on behind the semicolon -/

theorem resumeAfter_inner {last : Token} (hlast : last.kind ≠ .semicolon) {u : List Token}
    (hu : Inner u) : resumeAfter last (u ++ semicolon :: q) = q := by
  induction u generalizing last with
  | nil =>
      have hgoes : ¬ (last.kind = .semicolon ∨ startsStatement semicolon.kind = true) := by
        rw [hend]
        exact not_or.mpr ⟨hlast, by decide⟩
      rw [List.nil_append, resumeAfter, if_neg hgoes]
      cases q with
      | nil => rfl
      | cons t q => rw [resumeAfter, if_pos (Or.inl hend)]
  | cons t u ih =>
      obtain ⟨ht, hothers⟩ := List.forall_mem_cons.mp hu
      have hkind : t.kind ≠ .semicolon ∧ startsStatement t.kind = false := by
        revert ht
        cases t.kind <;> decide
      have hgoes : ¬ (last.kind = .semicolon ∨ startsStatement t.kind = true) := by
        rw [hkind.2]
        exact not_or.mpr ⟨hlast, Bool.false_ne_true⟩
      rw [List.cons_append, resumeAfter, if_neg hgoes]
      exact ih hkind.1 hothers

theorem resume_before (h : Before semicolon q ts) : resume ts = q := by
  obtain ⟨u, rfl, hu⟩ := h
  cases u with
  | nil =>
      cases q with
      | nil => rfl
      | cons t q => rw [List.nil_append, resume, resumeAfter, if_pos (Or.inl hend)]
  | cons t u =>
      obtain ⟨ht, hothers⟩ := List.forall_mem_cons.mp hu
      have hkind : t.kind ≠ .semicolon := by
        intro heq
        rw [heq] at ht
        cases ht
      exact resumeAfter_inner hend hkind hothers

/-- A simple statement is kept or dropped, and what follows it is left in both cases. -/
theorem declaration_simple {b : List Token} (hb : SimpleText b) :
    ∃ kept errors, declaration (b ++ semicolon :: q) = .ok kept q errors ∧
      (thrown errors).length = (if kept.isSome then 0 else 1) ∧ Located semicolon q errors := by
  have hleaves := leaves_declarationWith (q := q) hend hb
  rw [declaration_eq]
  unfold recovering
  cases hrun : declarationWith declaration statement (b ++ semicolon :: q) with
  | ok s rest errors =>
      rw [hrun] at hleaves
      obtain ⟨rfl, hthrown, hlocated⟩ := hleaves
      exact ⟨some s, errors, rfl, by rw [hthrown]; rfl, hlocated⟩
  | failed rest errors =>
      rw [hrun] at hleaves
      obtain ⟨hbefore, hthrown, hlocated⟩ := hleaves
      refine ⟨none, errors, ?_, hthrown, hlocated⟩
      dsimp only
      rw [resume_before hend hbefore]

end Rules

end Semicolon

end Parser

/-- **A broken simple statement costs itself.** -/
theorem Parsed.simple_statement_alone {b q : List Token} {semicolon : Token} (hb : SimpleText b)
    (hend : semicolon.kind = .semicolon) :
    ∃ (kept : Option (Stmt Unit)) (errors : List SyntaxError),
      Parsed.ofTokens (b ++ semicolon :: q) =
        ⟨kept.toList ++ (Parsed.ofTokens q).program, errors ++ (Parsed.ofTokens q).errors⟩ ∧
      (thrown errors).length = (if kept.isSome then 0 else 1) ∧ Located semicolon q errors := by
  obtain ⟨kept, errors, hrun, hthrown, hlocated⟩ := declaration_simple (q := q) hend hb
  have hshort : q.length < (b ++ semicolon :: q).length := by
    simp only [List.length_append, List.length_cons]
    omega
  have hne : b ++ semicolon :: q ≠ [] := by simp
  exact ⟨kept, errors, program_of_declaration hne hrun hshort, hthrown, hlocated⟩

/-- The text `print *; print 1;` has a fault in its first statement, which is dropped alone. -/
theorem Parsed.simple_statement_alone_print :
    let print : Token := ⟨.printWord, bytes "print", .nil, 1⟩
    let star : Token := ⟨.star, bytes "*", .nil, 1⟩
    let one : Token := ⟨.number, bytes "1", .nil, 1⟩
    let semicolon : Token := ⟨.semicolon, bytes ";", .nil, 1⟩
    SimpleText [print, star] ∧ semicolon.kind = .semicolon ∧
      ∃ errors, Parsed.ofTokens [print, star, semicolon, print, one, semicolon] =
          ⟨(Parsed.ofTokens [print, one, semicolon]).program, errors⟩ ∧
        (thrown errors).length = 1 := by
  intro print star one semicolon
  have hsimple : SimpleText [print, star] := .led rfl (by simp [Parser.Inner, star, isInner])
  refine ⟨hsimple, rfl, ?_⟩
  have hend : semicolon.kind = .semicolon := rfl
  obtain ⟨kept, errors, hparsed, hthrown, -⟩ :=
    Parsed.simple_statement_alone (q := [print, one, semicolon]) hsimple hend
  have hdropped : kept = none := by
    have hlength := congrArg (fun r => r.program.length) hparsed
    have hall : (Parsed.ofTokens
        ([print, star] ++ semicolon :: [print, one, semicolon])).program.length = 1 := by
      decide
    have hrest : (Parsed.ofTokens [print, one, semicolon]).program.length = 1 := by decide
    simp only [List.length_append, hall, hrest] at hlength
    cases kept with
    | none => rfl
    | some s => simp at hlength
  rw [hdropped] at hparsed hthrown
  have hgood : (Parsed.ofTokens [print, one, semicolon]).errors = [] := by decide
  rw [hgood, List.append_nil] at hparsed
  exact ⟨errors, hparsed, hthrown⟩

end Lox
