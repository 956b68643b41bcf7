import Lox.Proofs.Loop.Equivalence
import Lox.Proofs.Resolution.Erasure
import Lox.Proofs.Session.Trace

/-!
# Loops with clauses in a session

A `for` statement is parsed into a `while` loop behind its initializer, and its names are bound in
that tree. Whenever it is executed, in any step of a session, the tree does what the rule for its
clauses says.
-/

namespace Lox

open Resolution

/-! ### Bodies -/

/-- What is parsed as a statement declares nothing around it. -/
def Grammar.Clause.Staying : (x : Grammar.Clause) → x.Tree → Prop
  | .statement _, s => Stays s
  | _, _ => True

theorem Grammar.Clause.Derives.staying {nearest : Bool} {x : Grammar.Clause} {u : List Token}
    {t : x.Tree} (h : x.Derives nearest u t) : x.Staying t := by
  induction h with
  | exprStmt h =>
      cases h
      exact fun _ => rfl
  | whileStmt _ _ _ _ _ ih => exact fun ctx => ih ctx
  | @forStmt _ _ _ _ _ _ _ _ init condition increment _ body _ _ _ _ _ _ _ _ ih =>
      intro ctx
      cases init <;> cases condition <;> cases increment <;> first | rfl | exact ih ctx
  | ifThen _ _ _ _ _ ih => exact fun ctx => ih ctx
  | ifElse _ _ _ _ _ _ _ _ ihyes ihno =>
      intro ctx
      rw [Context.after, ihyes ctx, ihno ctx]
  | _ => first | exact trivial | exact fun _ => rfl

/-- What is derived from tokens that begin with `for` is a loop with clauses. -/
theorem Grammar.Clause.Derives.loop {nearest dangling : Bool} {keyword : Token} {u : List Token}
    {s : Stmt Unit} (h : Grammar.Clause.Derives nearest (.statement dangling) (keyword :: u) s)
    (hkeyword : keyword.kind = .forWord) :
    ∃ c : ForClauses Unit, s = Parser.forLoop c.init c.condition c.increment c.body ∧
      ∃ w, Grammar.Clause.Derives nearest (.statement dangling) w c.body := by
  have hhead {other : Token} {kind : Token.Kind} {rest : List Token}
      (heq : keyword :: u = other :: rest) (hother : other.kind = kind) : kind = .forWord := by
    rw [← hother, ← (List.cons.inj heq).1, hkeyword]
  generalize hts : keyword :: u = ts at h
  cases h with
  | @forStmt _ _ _ _ _ _ _ w init condition increment _ body _ _ _ _ _ _ _ hbody =>
      exact ⟨⟨init, condition, increment, body⟩,
        (Parser.forLoop_eq_forTree init condition increment body).symm, w, hbody⟩
  | exprStmt h =>
      obtain ⟨other, rest, heq, hstarts⟩ := h.begins
      rw [hhead (hts.trans heq) rfl] at hstarts
      cases hstarts
  | printStmt hother => cases hhead hts hother
  | returnStmt hother => cases hhead hts hother
  | blockStmt hother => cases hhead hts hother
  | whileStmt hother => cases hhead hts hother
  | ifThen hother => cases hhead hts hother
  | ifElse hother => cases hhead hts hother

/-! ### The rule and the tree -/

/-- Started in one state, the rule and the tree end in the same way: if one of them ends, the other
one ends with the same completion or error, and what the two leave is the same but for spare scopes,
which bind nothing. -/
structure EndAlike (V : Context → Place → Prop) (σ : State) (rule tree : Nat → Outcome Completion) :
    Prop where
  of_rule : ∀ n, rule n ≠ .outOfFuel → ∃ m, (rule n).Padded V .same σ σ (tree m)
  of_tree : ∀ n, tree n ≠ .outOfFuel → ∃ m, (rule m).Padded V .same σ σ (tree n)
  unbroken : ∀ n σ', tree n ≠ .broken σ'

theorem Outcome.Padded.ne_outOfFuel {V : Context → Place → Prop} {φ : Placement} {σ σ' : State}
    {α : Type} {o o' : Outcome α} (h : o.Padded V φ σ σ' o') (ho : o ≠ .outOfFuel) :
    o' ≠ .outOfFuel := by
  cases h with
  | outOfFuel => exact ho
  | _ => exact nofun

/-- In the tree the names of body and increment are bound one scope further out, and each round opens
a scope. Nothing of it is seen. -/
theorem ForClauses.endAlike {V : Context → Place → Prop} (hwalked : Walked V) {ctx : Context}
    {c : ForClauses Unit} (hbody : Stays c.body) (hvisit : V ctx (.stmt c.tree)) {σ : State}
    (hσ : σ.Sound V) (hmatches : Matches σ.scopes σ.env ctx.scopes) :
    EndAlike V σ (fun n => (c.resolve ctx).exec n σ) fun n => (c.tree.resolve ctx).exec n σ := by
  have hinside : σ.Inside .same σ ctx ctx := ⟨rfl, .self hmatches⟩
  have hpadded (n : Nat) : ((c.resolve ctx).exec n σ).Padded V .same σ σ
      ((c.resolveTree ctx).execWithin n σ) :=
    exec_padded hwalked n hbody (reached hwalked hbody hvisit) (.self hwalked hσ) hinside
  have htree := resolve_tree ctx hbody
  refine ⟨fun n hn => ⟨n + 10, ?_⟩, fun n hn => ⟨n + 2, ?_⟩, fun n σ' hbroken => ?_⟩
  · rw [htree]
    have hmore := ((c.resolveTree ctx).upTo_tree n σ).resolve_left ((hpadded n).ne_outOfFuel hn)
    rw [← hmore]
    exact hpadded n
  · rw [htree] at hn ⊢
    have hmore := ((c.resolveTree ctx).tree_upTo n σ).resolve_left hn
    rw [hmore]
    exact hpadded (n + 2)
  · have hpre : (soundness V).pre (.exec (c.tree.resolve ctx)) σ :=
      ⟨hσ, ctx, c.tree, hvisit, rfl, hmatches⟩
    have hmeets := (soundness_holds hwalked).run n hpre
    rw [Task.run, hbroken] at hmeets
    exact hmeets

theorem ForClauses.endAlike_of_pre {V : Context → Place → Prop} (hwalked : Walked V)
    (c : ForClauses Unit) (hbody : Stays c.body) {s : Stmt Site} {σ : State}
    (hpre : (soundness V).pre (.exec s) σ)
    (hs : s.erase = Parser.forLoop c.init c.condition c.increment c.body) :
    ∃ ctx, V ctx (.stmt s.erase) ∧ s = s.erase.resolve ctx ∧ Matches σ.scopes σ.env ctx.scopes ∧
      EndAlike V σ (fun n => (c.resolve ctx).exec n σ) fun n => s.exec n σ := by
  obtain ⟨hsound, ctx, node, hvisit, rfl, hmatches⟩ := hpre
  rw [c.forLoop_eq_tree, node.erase_resolve] at hs
  subst hs
  rw [c.tree.erase_resolve]
  exact ⟨ctx, hvisit, rfl, hmatches, c.endAlike hwalked hbody hvisit hsound hmatches⟩

namespace Session

/-- **The tree of a loop preserves its meaning.** Whenever a `for` statement is executed, in any step
of a session, it was visited in a context of which the scopes at hand are instances, and it does what
the rule for its clauses says, provided that its body declares nothing around it. -/
theorem for_follows_rule (clock : List Int) (fuel : Nat) (steps : List Step) {s : Stmt Site}
    {σ : State} (h : (.exec s, σ) ∈ (start clock).trace fuel steps) {c : ForClauses Unit}
    (hbody : Stays c.body)
    (hs : s.erase = Parser.forLoop c.init c.condition c.increment c.body) :
    ∃ ctx, Visited steps ctx (.stmt s.erase) ∧ s = s.erase.resolve ctx ∧
      Matches σ.scopes σ.env ctx.scopes ∧
      EndAlike (Visited steps) σ (fun n => (c.resolve ctx).exec n σ) fun n => s.exec n σ := by
  have hpre := pre_of_trace fuel steps (fun _ hstep => hstep) (sound_start clock _) (.exec s, σ) h
  exact c.endAlike_of_pre (walked_visited steps) hbody hpre hs

/-- A loop over a block, with all three clauses. -/
def countsOverBlock : Task → Bool
  | .exec (.block [.var _ _, .while _ (.block [.block _, .expr _])]) => true
  | _ => false

/-- Functions are made in the body, are kept behind the loop, and all see the one variable. -/
theorem for_follows_rule_closures :
    let steps : List Step :=
      [.run (bytes "var g;for(var i=0;i<2;i=i+1){fun f(){return i;}g=f;}print g();")]
    ∃ s σ, (.exec s, σ) ∈ (start []).trace 40 steps ∧ ∃ c : ForClauses Unit, Stays c.body ∧
      s.erase = Parser.forLoop c.init c.condition c.increment c.body ∧
      ∃ ctx, Visited steps ctx (.stmt s.erase) ∧ s = s.erase.resolve ctx ∧
        Matches σ.scopes σ.env ctx.scopes ∧
        EndAlike (Visited steps) σ (fun n => (c.resolve ctx).exec n σ) fun n => s.exec n σ := by
  intro steps
  have hfound : ((start []).trace 40 steps).any (fun p => countsOverBlock p.1) = true := by
    decide +kernel
  obtain ⟨⟨t, σ⟩, hmem, ht⟩ := List.any_eq_true.mp hfound
  unfold countsOverBlock at ht
  split at ht
  case h_1 name init condition body e heq =>
    obtain rfl : t = _ := heq
    have hbody : Stays (.block (Stmt.eraseAll body)) := fun _ => rfl
    exact ⟨_, σ, hmem, ⟨some (.var name (init.map Expr.erase)), some condition.erase, some e.erase,
      .block (Stmt.eraseAll body)⟩, hbody, rfl, for_follows_rule [] 40 steps hmem hbody rfl⟩
  case h_2 => cases ht

/-- The tree that the grammar gives to a `for` statement is that of its clauses, so it follows their
rule. -/
theorem derived_for_follows_rule (clock : List Int) (fuel : Nat) (steps : List Step)
    {s : Stmt Site} {σ : State} (h : (.exec s, σ) ∈ (start clock).trace fuel steps)
    {nearest dangling : Bool} {keyword : Token} {u : List Token}
    (hderives : Grammar.Clause.Derives nearest (.statement dangling) (keyword :: u) s.erase)
    (hkeyword : keyword.kind = .forWord) :
    ∃ c : ForClauses Unit, s.erase = Parser.forLoop c.init c.condition c.increment c.body ∧
      ∃ ctx, Visited steps ctx (.stmt s.erase) ∧ s = s.erase.resolve ctx ∧
        Matches σ.scopes σ.env ctx.scopes ∧
        EndAlike (Visited steps) σ (fun n => (c.resolve ctx).exec n σ) fun n => s.exec n σ := by
  obtain ⟨c, hs, w, hbody⟩ := hderives.loop hkeyword
  have hpre := pre_of_trace fuel steps (fun _ hstep => hstep) (sound_start clock _) (.exec s, σ) h
  exact ⟨c, hs, c.endAlike_of_pre (walked_visited steps) hbody.staying hpre hs⟩

end Session

end Lox
