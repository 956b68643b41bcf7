import Mathlib.Data.List.Forall2
import Mathlib.Logic.Equiv.Basic
import Lox.Proofs.Renaming.Tree
import Lox.Proofs.Token.Pieces
import Lox.Tree.Sites
import Lox.Tree.Uses

/-!
# Trees that differ in the spelling of names

Two trees of one shape, in which corresponding names are spelled differently. In a bound tree a
variable is respelled in each of its places, and in the marked scopes alone. All that the grammar
sees of it is a tree in which some names are respelled.
-/

namespace Lox

open Resolution

/-! ### Trees that differ in the spelling of names -/

/-- How names may be spelled in another tree: a use by its annotation, a declaration, and a keyword
that is looked up like a name. -/
structure Spelling (ρ : Type) where
  use : List Bool → ρ → Token → Token → Prop
  binder : List Bool → Token → Token → Prop
  word : Token → Prop

section

variable {ρ : Type}

inductive Expr.Respelled (S : Spelling ρ) (marks : List Bool) : Expr ρ → Expr ρ → Prop where
  | assign {name name' : Token} {site : ρ} {value value' : Expr ρ}
      (hname : S.use marks site name name') (hvalue : Respelled S marks value value') :
      Respelled S marks (.assign name site value) (.assign name' site value')
  | binary {left left' : Expr ρ} {operator : Token} {right right' : Expr ρ}
      (hleft : Respelled S marks left left') (hright : Respelled S marks right right') :
      Respelled S marks (.binary left operator right) (.binary left' operator right')
  | call {callee callee' : Expr ρ} {paren : Token} {arguments arguments' : List (Expr ρ)}
      (hcallee : Respelled S marks callee callee')
      (harguments : List.Forall₂ (Respelled S marks) arguments arguments') :
      Respelled S marks (.call callee paren arguments) (.call callee' paren arguments')
  | get {object object' : Expr ρ} {name : Token} (hobject : Respelled S marks object object') :
      Respelled S marks (.get object name) (.get object' name)
  | group {inner inner' : Expr ρ} (hinner : Respelled S marks inner inner') :
      Respelled S marks (.group inner) (.group inner')
  | literal {value : Literal} : Respelled S marks (.literal value) (.literal value)
  | logical {left left' : Expr ρ} {operator : Token} {right right' : Expr ρ}
      (hleft : Respelled S marks left left') (hright : Respelled S marks right right') :
      Respelled S marks (.logical left operator right) (.logical left' operator right')
  | set {object object' : Expr ρ} {name : Token} {value value' : Expr ρ}
      (hobject : Respelled S marks object object') (hvalue : Respelled S marks value value') :
      Respelled S marks (.set object name value) (.set object' name value')
  | super {keyword : Token} {site : ρ} {method : Token} (hkeyword : S.word keyword) :
      Respelled S marks (.super keyword site method) (.super keyword site method)
  | this {keyword : Token} {site : ρ} (hkeyword : S.word keyword) :
      Respelled S marks (.this keyword site) (.this keyword site)
  | unary {operator : Token} {operand operand' : Expr ρ}
      (hoperand : Respelled S marks operand operand') :
      Respelled S marks (.unary operator operand) (.unary operator operand')
  | read {name name' : Token} {site : ρ} (hname : S.use marks site name name') :
      Respelled S marks (.read name site) (.read name' site)

abbrev Expr.RespelledOf (S : Spelling ρ) (marks : List Bool) :
    Option (Expr ρ) → Option (Expr ρ) → Prop :=
  Option.Rel (Expr.Respelled S marks)

inductive RespelledBase (S : Spelling ρ) (marks : List Bool) :
    Option (Token × ρ) → Option (Token × ρ) → Prop where
  | none : RespelledBase S marks none none
  | some {base base' : Token} {site : ρ} (h : S.use marks site base base') :
      RespelledBase S marks (some (base, site)) (some (base', site))

mutual

inductive Stmt.Respelled (S : Spelling ρ) : List Bool → Stmt ρ → Stmt ρ → Prop where
  | block {marks : List Bool} {isMarked : Bool} {body body' : List (Stmt ρ)}
      (hbody : Stmt.RespelledAll S (isMarked :: marks) body body') :
      Stmt.Respelled S marks (.block body) (.block body')
  | class {marks : List Bool} {name : Token} {superclass superclass' : Option (Token × ρ)}
      {methods methods' : List (FunctionDecl ρ)} (hname : S.binder marks name name)
      (hsuperclass : RespelledBase S marks superclass superclass')
      (hmethods : FunctionDecl.RespelledAll S (methodMarks superclass.isSome marks) methods
        methods') :
      Stmt.Respelled S marks (.class name superclass methods) (.class name superclass' methods')
  | expr {marks : List Bool} {e e' : Expr ρ} (h : e.Respelled S marks e') :
      Stmt.Respelled S marks (.expr e) (.expr e')
  | function {marks : List Bool} {decl decl' : FunctionDecl ρ}
      (hname : S.binder marks decl.name decl.name) (h : FunctionDecl.Respelled S marks decl decl') :
      Stmt.Respelled S marks (.function decl) (.function decl')
  | ifThen {marks : List Bool} {condition condition' : Expr ρ} {yes yes' : Stmt ρ}
      (hcondition : condition.Respelled S marks condition')
      (hyes : Stmt.Respelled S marks yes yes') :
      Stmt.Respelled S marks (.ifThen condition yes) (.ifThen condition' yes')
  | ifElse {marks : List Bool} {condition condition' : Expr ρ} {yes yes' no no' : Stmt ρ}
      (hcondition : condition.Respelled S marks condition') (hyes : Stmt.Respelled S marks yes yes')
      (hno : Stmt.Respelled S marks no no') :
      Stmt.Respelled S marks (.ifElse condition yes no) (.ifElse condition' yes' no')
  | print {marks : List Bool} {e e' : Expr ρ} (h : e.Respelled S marks e') :
      Stmt.Respelled S marks (.print e) (.print e')
  | return {marks : List Bool} {keyword : Token} {value value' : Option (Expr ρ)}
      (hvalue : Expr.RespelledOf S marks value value') :
      Stmt.Respelled S marks (.return keyword value) (.return keyword value')
  | var {marks : List Bool} {name name' : Token} {init init' : Option (Expr ρ)}
      (hname : S.binder marks name name') (hinit : Expr.RespelledOf S marks init init') :
      Stmt.Respelled S marks (.var name init) (.var name' init')
  | while {marks : List Bool} {condition condition' : Expr ρ} {body body' : Stmt ρ}
      (hcondition : condition.Respelled S marks condition')
      (hbody : Stmt.Respelled S marks body body') :
      Stmt.Respelled S marks (.while condition body) (.while condition' body')

inductive Stmt.RespelledAll (S : Spelling ρ) :
    List Bool → List (Stmt ρ) → List (Stmt ρ) → Prop where
  | nil {marks : List Bool} : Stmt.RespelledAll S marks [] []
  | cons {marks : List Bool} {s s' : Stmt ρ} {ss ss' : List (Stmt ρ)}
      (h : Stmt.Respelled S marks s s') (hothers : Stmt.RespelledAll S marks ss ss') :
      Stmt.RespelledAll S marks (s :: ss) (s' :: ss')

/-- The marks are those of the scopes around the function; it may mark its own. -/
inductive FunctionDecl.Respelled (S : Spelling ρ) :
    List Bool → FunctionDecl ρ → FunctionDecl ρ → Prop where
  | mk {marks : List Bool} {isMarked : Bool} {name : Token} {params params' : List Token}
      {body body' : List (Stmt ρ)}
      (hparams : List.Forall₂ (S.binder (isMarked :: marks)) params params')
      (hbody : Stmt.RespelledAll S (isMarked :: marks) body body') :
      FunctionDecl.Respelled S marks ⟨name, params, body⟩ ⟨name, params', body'⟩

inductive FunctionDecl.RespelledAll (S : Spelling ρ) :
    List Bool → List (FunctionDecl ρ) → List (FunctionDecl ρ) → Prop where
  | nil {marks : List Bool} : FunctionDecl.RespelledAll S marks [] []
  | cons {marks : List Bool} {d d' : FunctionDecl ρ} {ds ds' : List (FunctionDecl ρ)}
      (h : FunctionDecl.Respelled S marks d d')
      (hothers : FunctionDecl.RespelledAll S marks ds ds') :
      FunctionDecl.RespelledAll S marks (d :: ds) (d' :: ds')

end

end

/-! ### Old and new names -/

theorem ofWord_of_isName {w : Bytes} (h : isName w = true) :
    Token.Kind.ofWord w = .identifier := by
  cases w with
  | nil => cases h
  | cons c s =>
      simp only [isName, Bool.and_eq_true] at h
      exact eq_of_beq h.2

theorem plain_of_isName {w : Bytes} (h : isName w = true) : Plain w := by
  have hword := ofWord_of_isName h
  constructor
  · rintro rfl
    rw [Scan.ofWord_thisName] at hword
    cases hword
  · rintro rfl
    rw [Scan.ofWord_superName] at hword
    cases hword

namespace Renaming

variable (r : Renaming)

/-- What a name of a scope becomes: in a marked scope the two names change places. -/
def name (isMarked : Bool) : Equiv.Perm Bytes :=
  if isMarked then Equiv.swap r.old r.new else Equiv.refl Bytes

variable {r} {t t' : Token} {n : Bytes}

theorem name_of_ne (hold : n ≠ r.old) (hnew : n ≠ r.new) (isMarked : Bool) :
    r.name isMarked n = n := by
  cases isMarked with
  | false => rfl
  | true => exact Equiv.swap_apply_of_ne_of_ne hold hnew

theorem name_thisName (isMarked : Bool) : r.name isMarked thisName = thisName :=
  name_of_ne (plain_of_isName r.isName_old).1.symm (plain_of_isName r.isName_new).1.symm isMarked

theorem name_superName (isMarked : Bool) : r.name isMarked superName = superName :=
  name_of_ne (plain_of_isName r.isName_old).2.symm (plain_of_isName r.isName_new).2.symm isMarked

theorem token_of_ne (h : t.lexeme ≠ r.old) (isMarked : Bool) : r.token isMarked t = t :=
  if_neg fun hmarked => h hmarked.2

theorem token_false (t : Token) : r.token false t = t :=
  if_neg fun hmarked => nomatch hmarked.1

theorem lexeme_token (h : t.lexeme ≠ r.new) (isMarked : Bool) :
    (r.token isMarked t).lexeme = r.name isMarked t.lexeme := by
  cases isMarked with
  | false =>
      rw [token_false]
      rfl
  | true =>
      by_cases hold : t.lexeme = r.old
      · have hnew : r.token true t = { t with lexeme := r.new } := if_pos ⟨rfl, hold⟩
        rw [hnew, hold]
        exact (Equiv.swap_apply_left r.old r.new).symm
      · rw [token_of_ne hold, name_of_ne hold h]

/-- The token stays as it is, or the old name becomes the new one. -/
def Respells (r : Renaming) (t t' : Token) : Prop :=
  t' = t ∨ t.lexeme = r.old ∧ t' = { t with lexeme := r.new }

theorem respells_token (isMarked : Bool) (t : Token) : r.Respells t (r.token isMarked t) := by
  by_cases h : isMarked = true ∧ t.lexeme = r.old
  · exact .inr ⟨h.2, if_pos h⟩
  · exact .inl (if_neg h)

theorem Respells.kind (h : r.Respells t t') : t'.kind = t.kind := by
  rcases h with rfl | ⟨-, rfl⟩ <;> rfl

variable (r)

/-- The spelling of bound trees. The new name does not occur in the first tree. -/
def bound : Spelling Site where
  use marks site t t' := t.lexeme ≠ r.new ∧ t' = r.use marks site t
  binder marks t t' := t.lexeme ≠ r.new ∧ t' = r.binder marks t
  word t := t.lexeme ≠ r.old ∧ t.lexeme ≠ r.new

/-- What remains of it in trees that are not bound. -/
def loose : Spelling Unit where
  use _ _ t t' := r.Respells t t'
  binder _ t t' := r.Respells t t'
  word _ := True

end Renaming

/-! ### Trees without sites -/

abbrev Expr.bare (e : Expr Site) : Expr Unit :=
  e.mapSites fun _ => ()

abbrev Expr.bareAll (es : List (Expr Site)) : List (Expr Unit) :=
  Expr.mapSitesAll (fun _ => ()) es

abbrev Stmt.bare (s : Stmt Site) : Stmt Unit :=
  s.mapSites fun _ => ()

abbrev Stmt.bareAll (ss : List (Stmt Site)) : List (Stmt Unit) :=
  Stmt.mapSitesAll (fun _ => ()) ss

abbrev FunctionDecl.bare (d : FunctionDecl Site) : FunctionDecl Unit :=
  d.mapSites fun _ => ()

abbrev FunctionDecl.bareAll (ds : List (FunctionDecl Site)) : List (FunctionDecl Unit) :=
  FunctionDecl.mapSitesAll (fun _ => ()) ds

section

variable {r : Renaming}

/-- A keyword is spelled in the same way everywhere. -/
theorem Renaming.use_of_word {t : Token} (h : r.bound.word t) (marks : List Bool) (site : Site) :
    r.bound.use marks site t t :=
  ⟨h.2, (Renaming.token_of_ne h.1 _).symm⟩

theorem Renaming.respells_of_bound_use {marks : List Bool} {site : Site} {t t' : Token}
    (h : r.bound.use marks site t t') : r.Respells t t' := by
  obtain ⟨-, rfl⟩ := h
  exact Renaming.respells_token _ t

theorem Renaming.respells_of_bound_binder {marks : List Bool} {t t' : Token}
    (h : r.bound.binder marks t t') : r.Respells t t' := by
  obtain ⟨-, rfl⟩ := h
  exact Renaming.respells_token _ t

mutual

theorem Expr.Respelled.bare {marks : List Bool} {e e' : Expr Site}
    (h : e.Respelled r.bound marks e') : e.bare.Respelled r.loose marks e'.bare := by
  cases h with
  | assign hname hvalue => exact .assign (Renaming.respells_of_bound_use hname) hvalue.bare
  | binary hleft hright => exact .binary hleft.bare hright.bare
  | call hcallee harguments => exact .call hcallee.bare (Expr.Respelled.bareAll harguments)
  | get hobject => exact .get hobject.bare
  | group hinner => exact .group hinner.bare
  | literal => exact .literal
  | logical hleft hright => exact .logical hleft.bare hright.bare
  | set hobject hvalue => exact .set hobject.bare hvalue.bare
  | «super» _ => exact .super trivial
  | this _ => exact .this trivial
  | unary hoperand => exact .unary hoperand.bare
  | read hname => exact .read (Renaming.respells_of_bound_use hname)

theorem Expr.Respelled.bareAll {marks : List Bool} {es es' : List (Expr Site)}
    (h : List.Forall₂ (Expr.Respelled r.bound marks) es es') :
    List.Forall₂ (Expr.Respelled r.loose marks) (Expr.bareAll es) (Expr.bareAll es') := by
  cases h with
  | nil => exact .nil
  | cons h hothers => exact .cons h.bare (Expr.Respelled.bareAll hothers)

end

theorem Expr.RespelledOf.bare {marks : List Bool} {e e' : Option (Expr Site)}
    (h : Expr.RespelledOf r.bound marks e e') :
    Expr.RespelledOf r.loose marks (e.map Expr.bare) (e'.map Expr.bare) := by
  cases h with
  | none => exact .none
  | some h => exact .some h.bare

theorem RespelledBase.isSome_eq {ρ : Type} {S : Spelling ρ} {marks : List Bool}
    {base base' : Option (Token × ρ)} (h : RespelledBase S marks base base') :
    base'.isSome = base.isSome := by
  cases h <;> rfl

mutual

theorem Stmt.Respelled.bare : {marks : List Bool} → {s s' : Stmt Site} →
    s.Respelled r.bound marks s' → s.bare.Respelled r.loose marks s'.bare
  | _, _, _, .block hbody => .block hbody.bare
  | _, _, _, .class _ hsuperclass hmethods => by
      refine .class (.inl rfl) ?_ ?_
      · cases hsuperclass with
        | none => exact .none
        | some h => exact .some (Renaming.respells_of_bound_use h)
      · rw [Option.isSome_map]
        exact hmethods.bare
  | _, _, _, .expr h => .expr h.bare
  | _, _, _, .function _ h => .function (.inl rfl) h.bare
  | _, _, _, .ifThen hcondition hyes => .ifThen hcondition.bare hyes.bare
  | _, _, _, .ifElse hcondition hyes hno => .ifElse hcondition.bare hyes.bare hno.bare
  | _, _, _, .print h => .print h.bare
  | _, _, _, .return hvalue => .return hvalue.bare
  | _, _, _, .var hname hinit => .var (Renaming.respells_of_bound_binder hname) hinit.bare
  | _, _, _, .while hcondition hbody => .while hcondition.bare hbody.bare

theorem Stmt.RespelledAll.bare : {marks : List Bool} → {ss ss' : List (Stmt Site)} →
    Stmt.RespelledAll r.bound marks ss ss' →
    Stmt.RespelledAll r.loose marks (Stmt.bareAll ss) (Stmt.bareAll ss')
  | _, _, _, .nil => .nil
  | _, _, _, .cons h hothers => .cons h.bare hothers.bare

theorem FunctionDecl.Respelled.bare : {marks : List Bool} → {d d' : FunctionDecl Site} →
    d.Respelled r.bound marks d' → d.bare.Respelled r.loose marks d'.bare
  | _, _, _, .mk hparams hbody =>
      .mk (hparams.imp fun _ _ => Renaming.respells_of_bound_binder) hbody.bare

theorem FunctionDecl.RespelledAll.bare : {marks : List Bool} →
    {ds ds' : List (FunctionDecl Site)} → FunctionDecl.RespelledAll r.bound marks ds ds' →
    FunctionDecl.RespelledAll r.loose marks (FunctionDecl.bareAll ds) (FunctionDecl.bareAll ds')
  | _, _, _, .nil => .nil
  | _, _, _, .cons h hothers => .cons h.bare hothers.bare

end

end

/-! ### Uses -/

/-- What a use is and where it is bound. -/
def Use.role {ρ : Type} (u : Use ρ) : Use.Tag × ρ :=
  (u.tag, u.site)

section

variable {ρ : Type} {S : Spelling ρ}

mutual

theorem Expr.Respelled.roles {marks : List Bool} {e e' : Expr ρ} (h : e.Respelled S marks e') :
    e'.uses.map Use.role = e.uses.map Use.role := by
  cases h with
  | assign _ hvalue => simp [Expr.uses, Use.role, hvalue.roles]
  | binary hleft hright => simp [Expr.uses, hleft.roles, hright.roles]
  | call hcallee harguments =>
      simp [Expr.uses, hcallee.roles, Expr.Respelled.rolesAll harguments]
  | get hobject => exact hobject.roles
  | group hinner => exact hinner.roles
  | literal => rfl
  | logical hleft hright => simp [Expr.uses, hleft.roles, hright.roles]
  | set hobject hvalue => simp [Expr.uses, hobject.roles, hvalue.roles]
  | «super» _ => rfl
  | this _ => rfl
  | unary hoperand => exact hoperand.roles
  | read _ => rfl

theorem Expr.Respelled.rolesAll {marks : List Bool} {es es' : List (Expr ρ)}
    (h : List.Forall₂ (Expr.Respelled S marks) es es') :
    (Expr.usesAll es').map Use.role = (Expr.usesAll es).map Use.role := by
  cases h with
  | nil => rfl
  | cons h hothers => simp [Expr.usesAll, h.roles, Expr.Respelled.rolesAll hothers]

end

theorem Expr.RespelledOf.roles {marks : List Bool} {e e' : Option (Expr ρ)}
    (h : Expr.RespelledOf S marks e e') :
    (Expr.usesOf e').map Use.role = (Expr.usesOf e).map Use.role := by
  cases h with
  | none => rfl
  | some h => exact h.roles

theorem RespelledBase.roles {marks : List Bool} {base base' : Option (Token × ρ)}
    (h : RespelledBase S marks base base') :
    (Use.ofSuperclass base').map Use.role = (Use.ofSuperclass base).map Use.role := by
  cases h <;> rfl

mutual

theorem Stmt.Respelled.roles : {marks : List Bool} → {s s' : Stmt ρ} → s.Respelled S marks s' →
    s'.uses.map Use.role = s.uses.map Use.role
  | _, _, _, .block hbody => hbody.roles
  | _, _, _, .class _ hsuperclass hmethods => by
      simp [Stmt.uses, hsuperclass.roles, hmethods.roles]
  | _, _, _, .expr h => h.roles
  | _, _, _, .function _ h => h.roles
  | _, _, _, .ifThen hcondition hyes => by simp [Stmt.uses, hcondition.roles, hyes.roles]
  | _, _, _, .ifElse hcondition hyes hno => by
      simp [Stmt.uses, hcondition.roles, hyes.roles, hno.roles]
  | _, _, _, .print h => h.roles
  | _, _, _, .return hvalue => hvalue.roles
  | _, _, _, .var _ hinit => hinit.roles
  | _, _, _, .while hcondition hbody => by simp [Stmt.uses, hcondition.roles, hbody.roles]

theorem Stmt.RespelledAll.roles : {marks : List Bool} → {ss ss' : List (Stmt ρ)} →
    Stmt.RespelledAll S marks ss ss' →
    (Stmt.usesAll ss').map Use.role = (Stmt.usesAll ss).map Use.role
  | _, _, _, .nil => rfl
  | _, _, _, .cons h hothers => by simp [Stmt.usesAll, h.roles, hothers.roles]

theorem FunctionDecl.Respelled.roles : {marks : List Bool} → {d d' : FunctionDecl ρ} →
    d.Respelled S marks d' → d'.uses.map Use.role = d.uses.map Use.role
  | _, _, _, .mk _ hbody => hbody.roles

theorem FunctionDecl.RespelledAll.roles : {marks : List Bool} → {ds ds' : List (FunctionDecl ρ)} →
    FunctionDecl.RespelledAll S marks ds ds' →
    (FunctionDecl.usesAll ds').map Use.role = (FunctionDecl.usesAll ds).map Use.role
  | _, _, _, .nil => rfl
  | _, _, _, .cons h hothers => by simp [FunctionDecl.usesAll, h.roles, hothers.roles]

end

end

end Lox
