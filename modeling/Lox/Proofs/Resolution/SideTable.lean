import Lox.Proofs.Resolution.Standing

/-!
# The side table

The walk enters each use into a table under its place in the tree. If the places are different, the
table says of every use how far out its name was declared, and binding a tree is looking up its uses.
-/

namespace Lox

open Resolution

variable {κ : Type}

/-! ### Entries of a table -/

namespace Resolution.Walker

/-- The entries that visits make, in their order. -/
def entries (visits : List (Context × Use κ)) : List (κ × Nat) :=
  visits.filterMap fun v => (v.1.siteOf v.2).map fun distance => (v.2.site, distance)

theorem keys_entries_sublist (visits : List (Context × Use κ)) :
    ((entries visits).map Prod.fst).Sublist (visits.map fun v => v.2.site) := by
  induction visits with
  | nil => exact .slnil
  | cons v visits ih =>
      rw [entries, List.filterMap_cons]
      cases v.1.siteOf v.2 with
      | none => exact ih.cons _
      | some distance => exact ih.cons_cons _

theorem length_entries (visits : List (Context × Use κ)) :
    (entries visits).length = visits.countP fun v => (v.1.siteOf v.2).isSome := by
  rw [entries, List.length_filterMap_eq_countP]
  refine List.countP_congr fun v _ => ?_
  rw [Option.isSome_map]

theorem mem_entries {visits : List (Context × Use κ)}
    (hdistinct : (visits.map fun v => v.2.site).Nodup) {v : Context × Use κ} (hv : v ∈ visits)
    (distance : Nat) :
    (v.2.site, distance) ∈ entries visits ↔ v.1.siteOf v.2 = some distance := by
  rw [entries, List.mem_filterMap]
  constructor
  · rintro ⟨other, hother, hentry⟩
    obtain ⟨d, hd, heq⟩ := Option.map_eq_some_iff.mp hentry
    obtain ⟨hsite, rfl⟩ := Prod.mk.inj heq
    rwa [← List.inj_on_of_nodup_map hdistinct hother hv hsite]
  · intro hsite
    exact ⟨v, hv, by rw [hsite, Option.map_some]⟩

variable [DecidableEq κ]

theorem lookup_eq_some_iff {table : List (κ × Nat)} (h : (table.map Prod.fst).Nodup) (place : κ)
    (distance : Nat) : table.lookup place = some distance ↔ (place, distance) ∈ table := by
  induction table with
  | nil => simp
  | cons entry table ih =>
      obtain ⟨other, d⟩ := entry
      rw [List.map_cons, List.nodup_cons] at h
      rw [List.lookup_cons]
      by_cases heq : place = other
      · subst heq
        have hnone : (place, distance) ∉ table := by
          intro hmem
          have hkey : place ∈ table.map Prod.fst := List.mem_map.mpr ⟨_, hmem, rfl⟩
          exact h.1 hkey
        simp [hnone, eq_comm]
      · simp [heq, beq_eq_false_iff_ne.mpr heq, ih h.2]

theorem put_of_fresh {table : List (κ × Nat)} {place : κ} (h : place ∉ table.map Prod.fst)
    (distance : Nat) : put table place distance = (place, distance) :: table := by
  rw [put, List.filter_eq_self.mpr]
  intro entry hentry
  have hne : entry.1 ≠ place := by
    rintro rfl
    exact h (List.mem_map_of_mem hentry)
  exact decide_eq_true hne

/-- Where the places are different, no entry replaces another one. -/
theorem foldl_note {visits : List (Context × Use κ)} {table : List (κ × Nat)}
    (hdistinct : (visits.map fun v => v.2.site).Nodup)
    (hfresh : ∀ v ∈ visits, v.2.site ∉ table.map Prod.fst) :
    visits.foldl note table = (entries visits).reverse ++ table := by
  induction visits generalizing table with
  | nil => rfl
  | cons v visits ih =>
      rw [List.map_cons, List.nodup_cons] at hdistinct
      rw [List.forall_mem_cons] at hfresh
      rw [List.foldl_cons, note, entries, List.filterMap_cons]
      cases v.1.siteOf v.2 with
      | none => exact ih hdistinct.2 hfresh.2
      | some distance =>
          have hlater : ∀ other ∈ visits,
              other.2.site ∉ ((v.2.site, distance) :: table).map Prod.fst := by
            intro other hother hmem
            rcases List.mem_cons.mp hmem with heq | hmem
            · exact hdistinct.1 (List.mem_map.mpr ⟨other, hother, heq⟩)
            · exact hfresh.2 other hother hmem
          dsimp only
          rw [put_of_fresh hfresh.1, ih hdistinct.2 hlater]
          simp [entries]

end Resolution.Walker

/-! ### The table of a program -/

namespace Resolution

/-- What the walk over a program leaves behind. -/
structure SideTable [DecidableEq κ] (program : List (Stmt κ)) (w : Walker κ) : Prop where
  /-- No scope is open any more, and no function or class is around. -/
  closed : w.context = .top
  /-- Every use stands somewhere. -/
  stands : ∀ u ∈ Stmt.usesAll program, ∃ a, Stands .outermost (.body program) a u
  /-- A use has an entry where some scope around it contains its name, and the entry is the number of
  scopes strictly inside the innermost one; `this` has none outside of every class. -/
  entry : ∀ a u, Stands .outermost (.body program) a u → ∀ distance,
    w.table.lookup u.site = some distance ↔
      (u.tag = .this → a.inClass = true) ∧ a.Finds u.token.lexeme distance
  /-- There is one entry for each use that has one, and none for anything else. -/
  nodup : (w.table.map Prod.fst).Nodup
  size : w.table.length =
    (Stmt.usesAll program).countP fun u => (w.table.lookup u.site).isSome
  keys : ∀ place ∈ w.table.map Prod.fst, ∃ u ∈ Stmt.usesAll program, u.site = place

section Table

variable {program : List (Stmt κ)}

theorem nodup_visits (h : ((Stmt.usesAll program).map Use.site).Nodup) :
    ((Stmt.visitsAll .top program).map fun v => v.2.site).Nodup := by
  have hperm := (Stmt.visitsAll_perm .top program).map Use.site
  rw [List.map_map] at hperm
  exact hperm.nodup_iff.mpr h

variable [DecidableEq κ]

theorem Walker.table_over (h : ((Stmt.usesAll program).map Use.site).Nodup) :
    (Walker.over program).table = (entries (Stmt.visitsAll .top program)).reverse := by
  rw [Walker.over_eq]
  change (Stmt.visitsAll .top program).foldl note [] = _
  rw [foldl_note (nodup_visits h) (by simp), List.append_nil]

theorem Walker.nodup_table (h : ((Stmt.usesAll program).map Use.site).Nodup) :
    ((Walker.over program).table.map Prod.fst).Nodup := by
  rw [table_over h, List.map_reverse, List.nodup_reverse]
  exact (keys_entries_sublist _).nodup (nodup_visits h)

theorem Walker.lookup_table (h : ((Stmt.usesAll program).map Use.site).Nodup)
    {v : Context × Use κ} (hv : v ∈ Stmt.visitsAll .top program) :
    (Walker.over program).table.lookup v.2.site = v.1.siteOf v.2 := by
  refine Option.ext fun distance => ?_
  rw [lookup_eq_some_iff (nodup_table h), table_over h, List.mem_reverse]
  exact mem_entries (nodup_visits h) hv distance

theorem Walker.sideTable (h : ((Stmt.usesAll program).map Use.site).Nodup) :
    SideTable program (Walker.over program) where
  closed := by rw [Walker.over_eq, Walker.context_visited]
  stands := by
    intro u hu
    obtain ⟨v, hv, rfl⟩ := List.mem_map.mp ((Stmt.visitsAll_perm .top program).mem_iff.mpr hu)
    obtain ⟨a, -, hstands⟩ := Stmt.stands_of_visitsAll agrees_top program v hv
    exact ⟨a, hstands⟩
  entry := by
    intro a u hstands distance
    obtain ⟨ctx, hagrees, hv⟩ := hstands.exists_visit .none agrees_top
    rw [Walker.lookup_table h hv]
    exact hagrees.siteOf u distance
  nodup := Walker.nodup_table h
  size := by
    have hcount := (Stmt.visitsAll_perm .top program).countP_eq
      fun u => ((Walker.over program).table.lookup u.site).isSome
    rw [← hcount, List.countP_map, Walker.table_over h, List.length_reverse, Walker.length_entries]
    refine List.countP_congr fun v hv => ?_
    rw [← Walker.lookup_table h hv, Walker.table_over h]
    rfl
  keys := by
    intro place hplace
    rw [Walker.table_over h, List.map_reverse, List.mem_reverse] at hplace
    obtain ⟨v, hv, rfl⟩ := List.mem_map.mp ((Walker.keys_entries_sublist _).subset hplace)
    have huse := List.mem_map_of_mem (f := Prod.snd) hv
    exact ⟨v.2, (Stmt.visitsAll_perm .top program).mem_iff.mp huse, rfl⟩

end Table

end Resolution

/-! ### Binding looks up the uses -/

section Binding

variable {ctx : Context} {f : κ → Site}

mutual

theorem Expr.resolve_erase : (e : Expr κ) → (∀ u ∈ e.order, f u.site = ctx.siteOf u) →
    e.erase.resolve ctx = e.mapSites f
  | .assign name place value, h => by
      rw [Expr.order, List.forall_mem_append, List.forall_mem_singleton] at h
      simp only [Expr.mapSites, Expr.resolve, value.resolve_erase h.1, h.2]
      rfl
  | .binary left operator right, h => by
      rw [Expr.order, List.forall_mem_append] at h
      simp only [Expr.mapSites, Expr.resolve, left.resolve_erase h.1, right.resolve_erase h.2]
  | .call callee paren arguments, h => by
      rw [Expr.order, List.forall_mem_append] at h
      simp only [Expr.mapSites, Expr.resolve, callee.resolve_erase h.1,
        Expr.resolveAll_erase arguments h.2]
  | .get object name, h => by
      simp only [Expr.mapSites, Expr.resolve, object.resolve_erase h]
  | .group inner, h => by simp only [Expr.mapSites, Expr.resolve, inner.resolve_erase h]
  | .literal value, _ => rfl
  | .logical left operator right, h => by
      rw [Expr.order, List.forall_mem_append] at h
      simp only [Expr.mapSites, Expr.resolve, left.resolve_erase h.1, right.resolve_erase h.2]
  | .set object name value, h => by
      rw [Expr.order, List.forall_mem_append] at h
      simp only [Expr.mapSites, Expr.resolve, value.resolve_erase h.1, object.resolve_erase h.2]
  | .super keyword place method, h => by
      rw [Expr.order, List.forall_mem_singleton] at h
      simp only [Expr.mapSites, Expr.resolve, h]
      rfl
  | .this keyword place, h => by
      rw [Expr.order, List.forall_mem_singleton] at h
      simp only [Expr.mapSites, Expr.resolve, h]
      rfl
  | .unary operator operand, h => by
      simp only [Expr.mapSites, Expr.resolve, operand.resolve_erase h]
  | .read name place, h => by
      rw [Expr.order, List.forall_mem_singleton] at h
      simp only [Expr.mapSites, Expr.resolve, h]
      rfl

theorem Expr.resolveAll_erase : (es : List (Expr κ)) →
    (∀ u ∈ Expr.orderAll es, f u.site = ctx.siteOf u) →
      Expr.resolveAll ctx (Expr.eraseAll es) = Expr.mapSitesAll f es
  | [], _ => rfl
  | e :: es, h => by
      rw [Expr.orderAll, List.forall_mem_append] at h
      simp only [Expr.mapSitesAll, Expr.resolveAll, e.resolve_erase h.1,
        Expr.resolveAll_erase es h.2]

end

theorem Expr.resolve_erase_visits {e : Expr κ}
    (h : ∀ v ∈ e.visits ctx, f v.2.site = v.1.siteOf v.2) :
    e.erase.resolve ctx = e.mapSites f :=
  e.resolve_erase fun u hu => h (ctx, u) (List.mem_map_of_mem hu)

theorem Expr.resolveOf_erase {e : Option (Expr κ)}
    (h : ∀ v ∈ Expr.visitsOf ctx e, f v.2.site = v.1.siteOf v.2) :
    (e.map Expr.erase).map (Expr.resolve ctx) = e.map (Expr.mapSites f) := by
  cases e with
  | none => rfl
  | some e => exact congrArg some (Expr.resolve_erase_visits h)

end Binding

section Statements

variable {f : κ → Site}

mutual

theorem Stmt.resolve_erase (ctx : Context) : (s : Stmt κ) →
    (∀ v ∈ s.visits ctx, f v.2.site = v.1.siteOf v.2) → s.erase.resolve ctx = s.mapSites f
  | .block body, h => by
      simp only [Stmt.mapSites, Stmt.resolve, Stmt.resolveAll_erase _ body h]
  | .class name superclass methods, h => by
      rw [Stmt.visits, List.forall_mem_append] at h
      have hmethods := FunctionDecl.resolveMethods_erase _ methods h.2
      cases superclass with
      | none => exact congrArg (Stmt.class name none) hmethods
      | some base =>
          obtain ⟨base, place⟩ := base
          have hbase : (ctx.define name).locate base.lexeme = f place :=
            (h.1 _ List.mem_cons_self).symm
          simp only [Stmt.mapSites, Stmt.resolve, Option.map_some, hbase]
          exact congrArg (Stmt.class name (some (base, f place))) hmethods
  | .expr e, h => by simp only [Stmt.mapSites, Stmt.resolve, Expr.resolve_erase_visits h]
  | .function decl, h => by
      simp only [Stmt.mapSites, Stmt.resolve, FunctionDecl.name_mapSites,
        decl.resolve_erase _ _ h]
  | .ifThen condition thenBranch, h => by
      rw [Stmt.visits, List.forall_mem_append] at h
      simp only [Stmt.mapSites, Stmt.resolve, Expr.resolve_erase_visits h.1,
        thenBranch.resolve_erase ctx h.2]
  | .ifElse condition thenBranch elseBranch, h => by
      rw [Stmt.visits, List.forall_mem_append, List.forall_mem_append] at h
      simp only [Stmt.mapSites, Stmt.resolve, after_mapSites, Expr.resolve_erase_visits h.1.1,
        thenBranch.resolve_erase ctx h.1.2, elseBranch.resolve_erase _ h.2]
  | .print e, h => by simp only [Stmt.mapSites, Stmt.resolve, Expr.resolve_erase_visits h]
  | .return keyword value, h => by
      simp only [Stmt.mapSites, Stmt.resolve, Expr.resolveOf_erase h]
  | .var name init, h => by simp only [Stmt.mapSites, Stmt.resolve, Expr.resolveOf_erase h]
  | .while condition body, h => by
      rw [Stmt.visits, List.forall_mem_append] at h
      simp only [Stmt.mapSites, Stmt.resolve, Expr.resolve_erase_visits h.1,
        body.resolve_erase ctx h.2]

theorem Stmt.resolveAll_erase (ctx : Context) : (ss : List (Stmt κ)) →
    (∀ v ∈ Stmt.visitsAll ctx ss, f v.2.site = v.1.siteOf v.2) →
      Stmt.resolveAll ctx (Stmt.eraseAll ss) = Stmt.mapSitesAll f ss
  | [], _ => rfl
  | s :: ss, h => by
      rw [Stmt.visitsAll, List.forall_mem_append] at h
      simp only [Stmt.mapSitesAll, Stmt.resolveAll, after_mapSites, s.resolve_erase ctx h.1,
        Stmt.resolveAll_erase _ ss h.2]

theorem FunctionDecl.resolve_erase (ctx : Context) (kind : FunctionKind) : (d : FunctionDecl κ) →
    (∀ v ∈ d.visits ctx kind, f v.2.site = v.1.siteOf v.2) →
      d.erase.resolve ctx kind = d.mapSites f
  | ⟨name, params, body⟩, h => by
      simp only [FunctionDecl.mapSites, FunctionDecl.resolve, Stmt.resolveAll_erase _ body h]

theorem FunctionDecl.resolveMethods_erase (ctx : Context) : (ds : List (FunctionDecl κ)) →
    (∀ v ∈ FunctionDecl.visitsAll ctx ds, f v.2.site = v.1.siteOf v.2) →
      FunctionDecl.resolveMethods ctx (FunctionDecl.eraseAll ds) = FunctionDecl.mapSitesAll f ds
  | [], _ => rfl
  | d :: ds, h => by
      rw [FunctionDecl.visitsAll, List.forall_mem_append] at h
      simp only [FunctionDecl.mapSitesAll, FunctionDecl.resolveMethods, FunctionDecl.name_mapSites,
        d.resolve_erase _ _ h.1, FunctionDecl.resolveMethods_erase ctx ds h.2]

end

end Statements

end Lox
