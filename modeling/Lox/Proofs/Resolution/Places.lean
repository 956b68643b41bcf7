import Mathlib.Data.List.Perm.Subperm
import Lox.Proofs.Parser.Linear
import Lox.Proofs.Resolution.SideTable

/-!
# Places of a parsed program

The places of a tree can be told apart by the tokens that they are made out of, since no token is used
twice. A tree whose places are named like that is what the walk is run on, and its table is exact.
-/

namespace Lox

open Resolution

variable {κ : Type}

def Use.mapSite {ρ τ : Type} (f : ρ → τ) (u : Use ρ) : Use τ :=
  ⟨u.tag, u.token, f u.site⟩

abbrev Use.erase (u : Use κ) : Use Unit :=
  u.mapSite fun _ => ()

/-! ### The uses of a tree with other annotations -/

section MapSites

variable {τ : Type} (f : κ → τ)

mutual

theorem Expr.uses_mapSites : (e : Expr κ) → (e.mapSites f).uses = e.uses.map (Use.mapSite f)
  | .assign name place value => congrArg (_ :: ·) value.uses_mapSites
  | .binary left operator right => by
      simp only [Expr.mapSites, Expr.uses, left.uses_mapSites, right.uses_mapSites, List.map_append]
  | .call callee paren arguments => by
      simp only [Expr.mapSites, Expr.uses, callee.uses_mapSites, Expr.usesAll_mapSites arguments,
        List.map_append]
  | .get object name => object.uses_mapSites
  | .group inner => inner.uses_mapSites
  | .literal value => rfl
  | .logical left operator right => by
      simp only [Expr.mapSites, Expr.uses, left.uses_mapSites, right.uses_mapSites, List.map_append]
  | .set object name value => by
      simp only [Expr.mapSites, Expr.uses, object.uses_mapSites, value.uses_mapSites,
        List.map_append]
  | .super keyword place method => rfl
  | .this keyword place => rfl
  | .unary operator operand => operand.uses_mapSites
  | .read name place => rfl

theorem Expr.usesAll_mapSites : (es : List (Expr κ)) →
    Expr.usesAll (Expr.mapSitesAll f es) = (Expr.usesAll es).map (Use.mapSite f)
  | [] => rfl
  | e :: es => by
      simp only [Expr.mapSitesAll, Expr.usesAll, e.uses_mapSites, Expr.usesAll_mapSites es,
        List.map_append]

end

theorem Expr.usesOf_mapSites (e : Option (Expr κ)) :
    Expr.usesOf (e.map (Expr.mapSites f)) = (Expr.usesOf e).map (Use.mapSite f) := by
  cases e with
  | none => rfl
  | some e => exact e.uses_mapSites f

mutual

theorem Stmt.uses_mapSites : (s : Stmt κ) → (s.mapSites f).uses = s.uses.map (Use.mapSite f)
  | .block body => Stmt.usesAll_mapSites body
  | .class name superclass methods => by
      rw [Stmt.mapSites, Stmt.uses, Stmt.uses, FunctionDecl.usesAll_mapSites methods,
        List.map_append]
      cases superclass <;> rfl
  | .expr e => e.uses_mapSites f
  | .function decl => decl.uses_mapSites
  | .ifThen condition thenBranch => by
      simp only [Stmt.mapSites, Stmt.uses, condition.uses_mapSites, thenBranch.uses_mapSites,
        List.map_append]
  | .ifElse condition thenBranch elseBranch => by
      simp only [Stmt.mapSites, Stmt.uses, condition.uses_mapSites, thenBranch.uses_mapSites,
        elseBranch.uses_mapSites, List.map_append]
  | .print e => e.uses_mapSites f
  | .return keyword value => Expr.usesOf_mapSites f value
  | .var name init => Expr.usesOf_mapSites f init
  | .while condition body => by
      simp only [Stmt.mapSites, Stmt.uses, condition.uses_mapSites, body.uses_mapSites,
        List.map_append]

theorem Stmt.usesAll_mapSites : (ss : List (Stmt κ)) →
    Stmt.usesAll (Stmt.mapSitesAll f ss) = (Stmt.usesAll ss).map (Use.mapSite f)
  | [] => rfl
  | s :: ss => by
      simp only [Stmt.mapSitesAll, Stmt.usesAll, s.uses_mapSites, Stmt.usesAll_mapSites ss,
        List.map_append]

theorem FunctionDecl.uses_mapSites : (d : FunctionDecl κ) →
    (d.mapSites f).uses = d.uses.map (Use.mapSite f)
  | ⟨_, _, body⟩ => Stmt.usesAll_mapSites body

theorem FunctionDecl.usesAll_mapSites : (ds : List (FunctionDecl κ)) →
    FunctionDecl.usesAll (FunctionDecl.mapSitesAll f ds) =
      (FunctionDecl.usesAll ds).map (Use.mapSite f)
  | [] => rfl
  | d :: ds => by
      simp only [FunctionDecl.mapSitesAll, FunctionDecl.usesAll, d.uses_mapSites,
        FunctionDecl.usesAll_mapSites ds, List.map_append]

end

end MapSites

/-! ### Trees with given places -/

theorem exists_use_of_erase {us : List (Use κ)} {tag : Use.Tag} {token : Token} {site : Unit}
    (h : us.map Use.erase = [⟨tag, token, site⟩]) : ∃ place, us = [⟨tag, token, place⟩] := by
  obtain ⟨u, rest, rfl, hu, hrest⟩ := List.map_eq_cons_iff.mp h
  obtain rfl := List.map_eq_nil_iff.mp hrest
  obtain ⟨tag', token', place⟩ := u
  cases hu
  exact ⟨place, rfl⟩

mutual

theorem Expr.exists_of_uses : (e : Expr Unit) → (us : List (Use κ)) →
    us.map Use.erase = e.uses → ∃ e' : Expr κ, e'.erase = e ∧ e'.uses = us
  | .assign _ _ value, us, h => by
      obtain ⟨u, rest, rfl, hu, hrest⟩ := List.map_eq_cons_iff.mp h
      obtain ⟨value', rfl, rfl⟩ := value.exists_of_uses rest hrest
      obtain ⟨tag, token, place⟩ := u
      cases hu
      exact ⟨.assign token place value', rfl, rfl⟩
  | .binary left operator right, us, h => by
      obtain ⟨us₁, us₂, rfl, h₁, h₂⟩ := List.map_eq_append_iff.mp h
      obtain ⟨left', rfl, rfl⟩ := left.exists_of_uses us₁ h₁
      obtain ⟨right', rfl, rfl⟩ := right.exists_of_uses us₂ h₂
      exact ⟨.binary left' operator right', rfl, rfl⟩
  | .call callee paren arguments, us, h => by
      obtain ⟨us₁, us₂, rfl, h₁, h₂⟩ := List.map_eq_append_iff.mp h
      obtain ⟨callee', rfl, rfl⟩ := callee.exists_of_uses us₁ h₁
      obtain ⟨arguments', rfl, rfl⟩ := Expr.existsAll_of_uses arguments us₂ h₂
      exact ⟨.call callee' paren arguments', rfl, rfl⟩
  | .get object name, us, h => by
      obtain ⟨object', rfl, rfl⟩ := object.exists_of_uses us h
      exact ⟨.get object' name, rfl, rfl⟩
  | .group inner, us, h => by
      obtain ⟨inner', rfl, rfl⟩ := inner.exists_of_uses us h
      exact ⟨.group inner', rfl, rfl⟩
  | .literal value, us, h => ⟨.literal value, rfl, (List.map_eq_nil_iff.mp h).symm⟩
  | .logical left operator right, us, h => by
      obtain ⟨us₁, us₂, rfl, h₁, h₂⟩ := List.map_eq_append_iff.mp h
      obtain ⟨left', rfl, rfl⟩ := left.exists_of_uses us₁ h₁
      obtain ⟨right', rfl, rfl⟩ := right.exists_of_uses us₂ h₂
      exact ⟨.logical left' operator right', rfl, rfl⟩
  | .set object name value, us, h => by
      obtain ⟨us₁, us₂, rfl, h₁, h₂⟩ := List.map_eq_append_iff.mp h
      obtain ⟨object', rfl, rfl⟩ := object.exists_of_uses us₁ h₁
      obtain ⟨value', rfl, rfl⟩ := value.exists_of_uses us₂ h₂
      exact ⟨.set object' name value', rfl, rfl⟩
  | .super keyword _ method, us, h => by
      obtain ⟨place, rfl⟩ := exists_use_of_erase h
      exact ⟨.super keyword place method, rfl, rfl⟩
  | .this keyword _, us, h => by
      obtain ⟨place, rfl⟩ := exists_use_of_erase h
      exact ⟨.this keyword place, rfl, rfl⟩
  | .unary operator operand, us, h => by
      obtain ⟨operand', rfl, rfl⟩ := operand.exists_of_uses us h
      exact ⟨.unary operator operand', rfl, rfl⟩
  | .read name _, us, h => by
      obtain ⟨place, rfl⟩ := exists_use_of_erase h
      exact ⟨.read name place, rfl, rfl⟩

theorem Expr.existsAll_of_uses : (es : List (Expr Unit)) → (us : List (Use κ)) →
    us.map Use.erase = Expr.usesAll es →
      ∃ es' : List (Expr κ), Expr.eraseAll es' = es ∧ Expr.usesAll es' = us
  | [], us, h => ⟨[], rfl, (List.map_eq_nil_iff.mp h).symm⟩
  | e :: es, us, h => by
      obtain ⟨us₁, us₂, rfl, h₁, h₂⟩ := List.map_eq_append_iff.mp h
      obtain ⟨e', rfl, rfl⟩ := e.exists_of_uses us₁ h₁
      obtain ⟨es', rfl, rfl⟩ := Expr.existsAll_of_uses es us₂ h₂
      exact ⟨e' :: es', rfl, rfl⟩

end

theorem Expr.existsOf_of_uses (e : Option (Expr Unit)) (us : List (Use κ))
    (h : us.map Use.erase = Expr.usesOf e) :
    ∃ e' : Option (Expr κ), e'.map Expr.erase = e ∧ Expr.usesOf e' = us := by
  cases e with
  | none => exact ⟨none, rfl, (List.map_eq_nil_iff.mp h).symm⟩
  | some e =>
      obtain ⟨e', rfl, rfl⟩ := e.exists_of_uses us h
      exact ⟨some e', rfl, rfl⟩

theorem Use.exists_ofSuperclass (superclass : Option (Token × Unit)) (us : List (Use κ))
    (h : us.map Use.erase = Use.ofSuperclass superclass) :
    ∃ superclass' : Option (Token × κ),
      superclass'.map (fun base => (base.1, ())) = superclass ∧ Use.ofSuperclass superclass' = us := by
  cases superclass with
  | none => exact ⟨none, rfl, (List.map_eq_nil_iff.mp h).symm⟩
  | some base =>
      obtain ⟨place, rfl⟩ := exists_use_of_erase h
      exact ⟨some (base.1, place), rfl, rfl⟩

mutual

theorem Stmt.exists_of_uses : (s : Stmt Unit) → (us : List (Use κ)) →
    us.map Use.erase = s.uses → ∃ s' : Stmt κ, s'.erase = s ∧ s'.uses = us
  | .block body, us, h => by
      obtain ⟨body', rfl, rfl⟩ := Stmt.existsAll_of_uses body us h
      exact ⟨.block body', rfl, rfl⟩
  | .class name superclass methods, us, h => by
      obtain ⟨us₁, us₂, rfl, h₁, h₂⟩ := List.map_eq_append_iff.mp h
      obtain ⟨superclass', rfl, rfl⟩ := Use.exists_ofSuperclass superclass us₁ h₁
      obtain ⟨methods', rfl, rfl⟩ := FunctionDecl.existsAll_of_uses methods us₂ h₂
      exact ⟨.class name superclass' methods', rfl, rfl⟩
  | .expr e, us, h => by
      obtain ⟨e', rfl, rfl⟩ := e.exists_of_uses us h
      exact ⟨.expr e', rfl, rfl⟩
  | .function decl, us, h => by
      obtain ⟨decl', rfl, rfl⟩ := decl.exists_of_uses us h
      exact ⟨.function decl', rfl, rfl⟩
  | .ifThen condition thenBranch, us, h => by
      obtain ⟨us₁, us₂, rfl, h₁, h₂⟩ := List.map_eq_append_iff.mp h
      obtain ⟨condition', rfl, rfl⟩ := condition.exists_of_uses us₁ h₁
      obtain ⟨thenBranch', rfl, rfl⟩ := thenBranch.exists_of_uses us₂ h₂
      exact ⟨.ifThen condition' thenBranch', rfl, rfl⟩
  | .ifElse condition thenBranch elseBranch, us, h => by
      obtain ⟨us₁₂, us₃, rfl, h₁₂, h₃⟩ := List.map_eq_append_iff.mp h
      obtain ⟨us₁, us₂, rfl, h₁, h₂⟩ := List.map_eq_append_iff.mp h₁₂
      obtain ⟨condition', rfl, rfl⟩ := condition.exists_of_uses us₁ h₁
      obtain ⟨thenBranch', rfl, rfl⟩ := thenBranch.exists_of_uses us₂ h₂
      obtain ⟨elseBranch', rfl, rfl⟩ := elseBranch.exists_of_uses us₃ h₃
      exact ⟨.ifElse condition' thenBranch' elseBranch', rfl, rfl⟩
  | .print e, us, h => by
      obtain ⟨e', rfl, rfl⟩ := e.exists_of_uses us h
      exact ⟨.print e', rfl, rfl⟩
  | .return keyword value, us, h => by
      obtain ⟨value', rfl, rfl⟩ := Expr.existsOf_of_uses value us h
      exact ⟨.return keyword value', rfl, rfl⟩
  | .var name init, us, h => by
      obtain ⟨init', rfl, rfl⟩ := Expr.existsOf_of_uses init us h
      exact ⟨.var name init', rfl, rfl⟩
  | .while condition body, us, h => by
      obtain ⟨us₁, us₂, rfl, h₁, h₂⟩ := List.map_eq_append_iff.mp h
      obtain ⟨condition', rfl, rfl⟩ := condition.exists_of_uses us₁ h₁
      obtain ⟨body', rfl, rfl⟩ := body.exists_of_uses us₂ h₂
      exact ⟨.while condition' body', rfl, rfl⟩

theorem Stmt.existsAll_of_uses : (ss : List (Stmt Unit)) → (us : List (Use κ)) →
    us.map Use.erase = Stmt.usesAll ss →
      ∃ ss' : List (Stmt κ), Stmt.eraseAll ss' = ss ∧ Stmt.usesAll ss' = us
  | [], us, h => ⟨[], rfl, (List.map_eq_nil_iff.mp h).symm⟩
  | s :: ss, us, h => by
      obtain ⟨us₁, us₂, rfl, h₁, h₂⟩ := List.map_eq_append_iff.mp h
      obtain ⟨s', rfl, rfl⟩ := s.exists_of_uses us₁ h₁
      obtain ⟨ss', rfl, rfl⟩ := Stmt.existsAll_of_uses ss us₂ h₂
      exact ⟨s' :: ss', rfl, rfl⟩

theorem FunctionDecl.exists_of_uses : (d : FunctionDecl Unit) → (us : List (Use κ)) →
    us.map Use.erase = d.uses → ∃ d' : FunctionDecl κ, d'.erase = d ∧ d'.uses = us
  | ⟨name, params, body⟩, us, h => by
      obtain ⟨body', rfl, rfl⟩ := Stmt.existsAll_of_uses body us h
      exact ⟨⟨name, params, body'⟩, rfl, rfl⟩

theorem FunctionDecl.existsAll_of_uses : (ds : List (FunctionDecl Unit)) → (us : List (Use κ)) →
    us.map Use.erase = FunctionDecl.usesAll ds →
      ∃ ds' : List (FunctionDecl κ),
        FunctionDecl.eraseAll ds' = ds ∧ FunctionDecl.usesAll ds' = us
  | [], us, h => ⟨[], rfl, (List.map_eq_nil_iff.mp h).symm⟩
  | d :: ds, us, h => by
      obtain ⟨us₁, us₂, rfl, h₁, h₂⟩ := List.map_eq_append_iff.mp h
      obtain ⟨d', rfl, rfl⟩ := d.exists_of_uses us₁ h₁
      obtain ⟨ds', rfl, rfl⟩ := FunctionDecl.existsAll_of_uses ds us₂ h₂
      exact ⟨d' :: ds', rfl, rfl⟩

end

/-! ### Tokens as places -/

namespace Resolution

/-- The tree that the parser makes out of the tokens, with every place named by the position of the
token that it is made out of. -/
structure Placed (tokens : List Token) (program : List (Stmt Nat)) : Prop where
  erase : Stmt.eraseAll program = (Parsed.ofTokens tokens).program
  token : ∀ u ∈ Stmt.usesAll program, tokens[u.site]? = some u.token
  distinct : ((Stmt.usesAll program).map Use.site).Nodup

theorem exists_positions {kept tokens : List Token} (h : kept.Subperm tokens) :
    ∃ positions : List Nat, positions.Nodup ∧
      List.Forall₂ (fun token i => tokens[i]? = some token) kept positions := by
  obtain ⟨taken, hperm, hsub⟩ := h
  rw [← List.zipIdx_map_fst 0 tokens, List.sublist_map_iff] at hsub
  obtain ⟨chosen, hchosen, rfl⟩ := hsub
  have hat : List.Forall₂ (fun token i => tokens[i]? = some token)
      (chosen.map Prod.fst) (chosen.map Prod.snd) := by
    rw [List.forall₂_map_left_iff, List.forall₂_map_right_iff, List.forall₂_same]
    exact fun entry hentry => List.mem_zipIdx_iff_getElem?.mp (hchosen.subset hentry)
  have hdistinct : (chosen.map Prod.snd).Nodup := by
    have hsnd := hchosen.map Prod.snd
    rw [List.zipIdx_map_snd] at hsnd
    exact hsnd.nodup List.nodup_range'
  obtain ⟨positions, hpositions, hperm'⟩ := List.perm_comp_forall₂ hperm.symm hat
  exact ⟨positions, hperm'.nodup_iff.mpr hdistinct, hpositions⟩

theorem exists_uses_of_forall₂ {P : Token → κ → Prop} {us : List (Use Unit)} {places : List κ}
    (h : List.Forall₂ (fun u place => P u.token place) us places) :
    ∃ placed : List (Use κ), placed.map Use.erase = us ∧ placed.map Use.site = places ∧
      ∀ u ∈ placed, P u.token u.site := by
  induction h with
  | nil => exact ⟨[], rfl, rfl, by simp⟩
  | @cons u place us places hplace _ ih =>
      obtain ⟨placed, rfl, rfl, hplaced⟩ := ih
      exact ⟨⟨u.tag, u.token, place⟩ :: placed, rfl, rfl, List.forall_mem_cons.mpr ⟨hplace, hplaced⟩⟩

theorem exists_placed (tokens : List Token) : ∃ program, Placed tokens program := by
  obtain ⟨positions, hdistinct, hpositions⟩ := exists_positions (Parsed.subperm_tokens tokens)
  rw [List.forall₂_map_left_iff] at hpositions
  obtain ⟨us, hus, rfl, htoken⟩ :=
    exists_uses_of_forall₂ (P := fun token i => tokens[i]? = some token) hpositions
  obtain ⟨program, herase, rfl⟩ := Stmt.existsAll_of_uses _ us hus
  exact ⟨program, herase, htoken, hdistinct⟩

variable {tokens : List Token} {program : List (Stmt Nat)}

theorem Placed.resolve_eq (h : Placed tokens program) :
    resolve (Parsed.ofTokens tokens).program =
      Stmt.mapSitesAll (fun place => (Walker.over program).table.lookup place) program := by
  rw [← h.erase]
  exact Stmt.resolveAll_erase .top program fun v hv => Walker.lookup_table h.distinct hv

theorem Placed.localUses_eq (h : Placed tokens program) :
    localUses (resolve (Parsed.ofTokens tokens).program) = (Walker.over program).table.length := by
  rw [h.resolve_eq, localUses, Stmt.usesAll_mapSites, List.countP_map,
    (Walker.sideTable h.distinct).size]
  rfl

theorem Placed.faults_eq (h : Placed tokens program) :
    (Walker.over program).faults = staticErrors (Parsed.ofTokens tokens).program := by
  rw [Walker.over_eq, ← h.erase]
  rfl

/-- The places of a parsed program can be told apart by their tokens, and then the walk over it leaves
a table with the lexical distance of every use. Binding the program is looking up its uses there, and
checking it finds the reports of the walk. -/
theorem side_table_exact (tokens : List Token) :
    (∃ program, Placed tokens program) ∧
      ∀ program, Placed tokens program →
        SideTable program (Walker.over program) ∧
        resolve (Parsed.ofTokens tokens).program =
          Stmt.mapSitesAll (fun place => (Walker.over program).table.lookup place) program ∧
        localUses (resolve (Parsed.ofTokens tokens).program) =
          (Walker.over program).table.length ∧
        staticErrors (Parsed.ofTokens tokens).program = (Walker.over program).faults := by
  refine ⟨exists_placed tokens, ?_⟩
  intro program h
  exact ⟨Walker.sideTable h.distinct, h.resolve_eq, h.localUses_eq, h.faults_eq.symm⟩

end Resolution

end Lox
