import Lox.Proofs.Loop.Scopes
import Lox.Proofs.Soundness.Operators

/-!
# Code in two contexts

The same text, bound twice: in the second context there may be empty scopes more. A name is then
bound to the same scope, at another distance, when the chains of scopes at hand are instances of the
contexts.
-/

namespace Lox

open Resolution

/-- A statement that declares a name around it is none of those that stay. -/
theorem not_stays_of_declares {s : Stmt Unit} {name : Token}
    (h : ∀ ctx : Context, ctx.after s = ctx.define name) : ¬Stays s := by
  intro hstays
  have hsame := (h ⟨.none, .none, [[]]⟩).symm.trans (hstays ⟨.none, .none, [[]]⟩)
  exact nomatch congrArg Context.scopes hsame

/-- Two contexts of one text, and the scopes in which it runs. -/
structure Alongside (φ : Placement) (scopes scopes' : Scopes) (ctx ctx' : Context)
    (id id' : ScopeId) : Prop where
  classKind : ctx'.classKind = ctx.classKind
  scopes : Scopes.Beside φ scopes scopes' ctx.scopes ctx'.scopes id id'

namespace Alongside

variable {φ φ₁ : Placement} {scopes scopes' scopes₁ scopes₁' : Scopes} {ctx ctx' : Context}
  {id id' : ScopeId}

theorem onward (h : Alongside φ scopes scopes' ctx ctx' id id')
    (honward : Scopes.Onward φ scopes scopes' φ₁ scopes₁ scopes₁') :
    Alongside φ₁ scopes₁ scopes₁' ctx ctx' id id' :=
  ⟨h.classKind, h.scopes.onward honward⟩

theorem push (h : Alongside φ scopes scopes' ctx ctx' id id') (frame : Frame)
    (bindings : Bindings Value) :
    Alongside (Function.update φ scopes.next scopes'.next) (scopes.push (some id) bindings)
      (scopes'.push (some id') bindings) (ctx.enter frame) (ctx'.enter frame) scopes.next
      scopes'.next :=
  ⟨h.classKind, h.scopes.push frame bindings⟩

theorem pushSpare (h : Alongside φ scopes scopes' ctx ctx' id id')
    (hpadded : scopes.Padded φ scopes') :
    Alongside φ scopes (scopes'.push (some id') []) ctx (ctx'.enter []) id scopes'.next :=
  ⟨h.classKind, h.scopes.pushSpare hpadded⟩

/-! ### Declarations -/

/-- Names are declared in a scope that stands in both stores. -/
theorem mark (h : Alongside φ scopes scopes' ctx ctx' id id') (hpos : 0 < scopes.next)
    (hid : id' = φ id) (name : Bytes) (ready : Bool) :
    Alongside φ scopes scopes' (ctx.mark name ready) (ctx'.mark name ready) id id' := by
  refine ⟨by rw [classKind_mark, classKind_mark, h.classKind], ?_⟩
  have hscopes := h.scopes
  unfold Context.mark
  rcases hscopes.aligned hpos hid with ⟨hnil, hnil'⟩ | ⟨frame, rest, rest', parent, parent', hcons,
    hcons', hup, hup', hrest⟩
  · rw [hnil, hnil'] at hscopes
    simpa [hnil, hnil'] using hscopes
  · rw [hid]
    simpa [hcons, hcons'] using Scopes.Beside.frame hup hup' hrest

theorem foldl_define (h : Alongside φ scopes scopes' ctx ctx' id id') (hpos : 0 < scopes.next)
    (hid : id' = φ id) (names : List Token) :
    Alongside φ scopes scopes' (names.foldl Context.define ctx) (names.foldl Context.define ctx')
      id id' := by
  induction names generalizing ctx ctx' with
  | nil => exact h
  | cons name names ih => exact ih (h.mark hpos hid name.lexeme true)

theorem after (h : Alongside φ scopes scopes' ctx ctx' id id') (hpos : 0 < scopes.next)
    {s : Stmt Unit} (hfine : Place.FineStmt s) (hid : id' = φ id) :
    Alongside φ scopes scopes' (ctx.after s) (ctx'.after s) id id' := by
  have hstays (hs : Stays s) :
      Alongside φ scopes scopes' (ctx.after s) (ctx'.after s) id id' := by
    rw [hs ctx, hs ctx']
    exact h
  cases s with
  | «class» name base ds => exact h.mark hpos hid name.lexeme true
  | function decl => exact h.mark hpos hid decl.name.lexeme true
  | var name init => exact h.mark hpos hid name.lexeme true
  | ifThen condition thenBranch => exact hstays fun ctx => hfine ctx
  | ifElse condition thenBranch elseBranch =>
      apply hstays
      intro ctx
      rw [Context.after, hfine.1 ctx, hfine.2 ctx]
  | «while» condition body => exact hstays fun ctx => hfine ctx
  | _ => exact hstays fun _ => rfl

/-- The body of a function, in the scope of a call. -/
theorem inFunction (h : Alongside φ scopes scopes' ctx ctx' id id') (kind : FunctionKind)
    (params : List Token) (bindings : Bindings Value) :
    Alongside (Function.update φ scopes.next scopes'.next) (scopes.push (some id) bindings)
      (scopes'.push (some id') bindings) (ctx.inFunction kind params)
      (ctx'.inFunction kind params) scopes.next scopes'.next := by
  have hkind : Alongside φ scopes scopes' { ctx with function := kind }
      { ctx' with function := kind } id id' := ⟨h.classKind, h.scopes⟩
  have hstands : scopes'.next = Function.update φ scopes.next scopes'.next scopes.next := by
    rw [Function.update_self]
  exact (hkind.push [] bindings).foldl_define (by simp) hstands params

/-! ### Uses -/

theorem locate (h : Alongside φ scopes scopes' ctx ctx' id id') (name : Bytes) :
    Scopes.FoundAlike φ scopes scopes' id id' (ctx.locate name) (ctx'.locate name) :=
  h.scopes.find _ rfl

theorem locateThis (h : Alongside φ scopes scopes' ctx ctx' id id') (keyword : Token) :
    Scopes.FoundAlike φ scopes scopes' id id' (ctx.locateThis keyword)
      (ctx'.locateThis keyword) := by
  unfold Context.locateThis
  rw [h.classKind]
  split
  · exact .nowhere
  · exact h.locate keyword.lexeme

end Alongside

/-- The scopes of `this` and, directly around it, of `super` on both chains. -/
structure Receiver (φ : Placement) (scopes scopes' : Scopes) (id id' : ScopeId) (d d' : Nat) :
    Prop where
  this : scopes.FoundAlike φ scopes' id id' (some d) (some d')
  super : scopes.FoundAlike φ scopes' id id' (some (d + 1)) (some (d' + 1))

/-- No spare scope lies between these two. -/
theorem Scopes.Beside.receiver {φ : Placement} {scopes scopes' : Scopes} {outer outer' : List Frame}
    {id id' : ScopeId} (h : Scopes.Beside φ scopes scopes' outer outer' id id') {d' : Nat}
    (hthis : ReadyAt thisName d' outer') (hsuper : ReadyAt superName (d' + 1) outer') :
    ∃ d, ReadyAt superName (d + 1) outer ∧ Receiver φ scopes scopes' id id' d d' := by
  induction h generalizing d' with
  | globals => exact absurd hthis (by simp [ReadyAt])
  | @frame frame outer outer' id parent parent' hup hup' houter ih =>
      have hid := scopes.lt_next_of_parent? hup
      cases d' with
      | zero =>
          cases houter with
          | globals => exact absurd hsuper.2 (by simp [ReadyAt])
          | frame hnext hnext' hrest =>
              have hparent : scopes.FoundAlike φ scopes' parent (φ parent) (some 0) (some 0) :=
                .scope (scopes.lt_next_of_parent? hnext) rfl rfl
              exact ⟨0, hsuper, .scope hid rfl rfl, hparent.up hup hup'⟩
          | spare => exact absurd hsuper.2 (by simp [ReadyAt])
      | succ d' =>
          obtain ⟨d, hready, hreceiver⟩ := ih hthis.2 hsuper.2
          exact ⟨d + 1, ⟨hsuper.1, hready⟩, hreceiver.this.up hup hup', hreceiver.super.up hup hup'⟩
  | @spare outer outer' id id' other hspare hup h ih =>
      cases d' with
      | zero => exact absurd hthis (by simp [ReadyAt])
      | succ d' =>
          obtain ⟨d, hready, hreceiver⟩ := ih hthis.2 hsuper.2
          exact ⟨d, hready, hreceiver.this.upSpare hup, hreceiver.super.upSpare hup⟩

end Lox
