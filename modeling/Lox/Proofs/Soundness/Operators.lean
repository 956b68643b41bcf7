import Lox.Eval.Operators
import Lox.Proofs.Eval.Leaves
import Lox.Proofs.Soundness.State

/-!
# Steps that evaluate nothing further

In a sound state in which the scopes are instances of those around a visited place, each operator,
use of a name and access to a property ends in a sound state, with a valid value or a runtime error.
-/

namespace Lox

open Resolution Eval

variable {T : Task → State → Prop} {V : Reach}

/-- What holds of the state behind a computation, however it ended. -/
structure Follows (V : Reach) (before after : State) : Prop where
  sound : after.Sound V
  grows : before.Grows after
  env : after.env = before.env

theorem State.Sound.follows {σ : State} (h : σ.Sound V) : Follows V σ σ :=
  ⟨h, .refl σ, rfl⟩

theorem Follows.trans {a b c : State} (h : Follows V a b) (h' : Follows V b c) : Follows V a c :=
  ⟨h'.sound, h.grows.trans h'.grows, h'.env.trans h.env⟩

/-- A computation that yields a valid value, unless it ends with a runtime error. -/
def Yields (V : Reach) (σ : State) (o : Outcome Value) : Prop :=
  o.Meets (fun v σ' => Follows V σ σ' ∧ v.Valid σ') fun _ σ' => Follows V σ σ'

theorem yields_ok {σ : State} (h : σ.Sound V) {v : Value} (hv : v.Valid σ) :
    Yields V σ (.ok v σ) :=
  ⟨h.follows, hv⟩

theorem yields_fail {σ : State} (h : σ.Sound V) (token : Token) (cause : RuntimeError.Cause) :
    Yields V σ (fail token cause σ) :=
  h.follows

theorem Literal.valid_value (v : Literal) (σ : State) : v.value.Valid σ := by
  cases v <;> trivial

theorem Operates.yields {σ : State} (h : σ.Sound V) {operator : Token} {o : State → Outcome Value}
    (hoperates : Operates operator o) : Yields V σ (o σ) := by
  obtain ⟨l, hok⟩ | ⟨cause, hfail⟩ := hoperates
  · rw [hok]
    exact yields_ok h (l.valid_value σ)
  · rw [hfail]
    exact yields_fail h _ _

theorem yields_readClock {σ : State} (h : σ.Sound V) : Yields V σ (readClock σ) :=
  ⟨⟨h.tick, σ.grows_tick, σ.env_tick⟩, trivial⟩

/-! ### Uses of names -/

/-- A name that is ready that many frames out is bound in the instance of that frame. -/
theorem Matches.readyAt {scopes : Scopes} {id : ScopeId} {frames : List Frame}
    (h : Matches scopes id frames) {name : Bytes} {d : Nat} (hready : ReadyAt name d frames) :
    ∃ scope v, scopes.ancestor? id d = some scope ∧ scope ≠ State.globals ∧
      scopes.bound? scope name = some v := by
  induction frames generalizing id d with
  | nil => simp [ReadyAt] at hready
  | cons frame outer ih =>
      obtain ⟨hid, hbound, parent, hparent, houter⟩ := h
      cases d with
      | zero =>
          obtain ⟨v, hv⟩ := Option.isSome_iff_exists.mp (hbound name hready)
          exact ⟨id, v, rfl, hid, hv⟩
      | succ d =>
          obtain ⟨scope, v, hscope, hne, hv⟩ := ih houter hready.2
          exact ⟨scope, v, (scopes.ancestor?_succ hparent d).trans hscope, hne, hv⟩

theorem Scopes.getAt?_of_bound? {scopes : Scopes} {id scope : ScopeId} {d : Nat} {name : Bytes}
    {v : Value} (hscope : scopes.ancestor? id d = some scope)
    (hv : scopes.bound? scope name = some v) : scopes.getAt? id d name = some v := by
  simp only [getAt?, hscope, hv, Option.getD_some]

theorem Resolution.Place.Checked.readyAt {ctx : Context} {name : Token} {d : Nat}
    (h : Place.Checked ctx (.expr (.read name ()))) (hd : ctx.locate name.lexeme = some d) :
    ReadyAt name.lexeme d ctx.scopes := by
  refine readyAt_of_locate h.settled (fun hinner => ?_) hd
  have hfaults := h.faultless
  simp [Place.faults, Expr.faults, readFaults, hinner] at hfaults

theorem Resolution.Place.Checked.this {ctx : Context} {keyword : Token}
    (h : Place.Checked ctx (.expr (.this keyword ()))) :
    keyword.lexeme = thisName ∧
      ∃ d, ctx.locateThis keyword = some d ∧ ReadyAt thisName d ctx.scopes := by
  have hname : keyword.lexeme = thisName := h.wellFormed.fine
  have hclass : ctx.classKind ≠ .none := by
    intro hnone
    have hfaults := h.faultless
    simp [Place.faults, Expr.faults, thisFaults, hnone] at hfaults
  obtain ⟨d, hd⟩ := h.coherent.this hclass
  refine ⟨hname, d, ?_, hd⟩
  rw [Context.locateThis, if_neg hclass, hname]
  exact hd.locate

theorem Resolution.Place.Checked.super {ctx : Context} {keyword method : Token}
    (h : Place.Checked ctx (.expr (.super keyword () method))) :
    ∃ d, ctx.locate keyword.lexeme = some (d + 1) ∧ ReadyAt thisName d ctx.scopes ∧
      ReadyAt superName (d + 1) ctx.scopes := by
  have hname : keyword.lexeme = superName := h.wellFormed.fine
  have hclass : ctx.classKind = .derived := by
    have hfaults := h.faultless
    simp only [Place.faults, Expr.faults, superFaults] at hfaults
    split at hfaults
    · cases hfaults
    · cases hfaults
    · assumption
  obtain ⟨d, hthis, hsuper⟩ := h.coherent.super hclass
  refine ⟨d, ?_, hthis, hsuper⟩
  rw [hname]
  exact hsuper.locate

theorem yields_read_ready {σ : State} (h : σ.Sound V) {name : Token} {d : Nat} {frames : List Frame}
    (hmatches : Matches σ.scopes σ.env frames) (hready : ReadyAt name.lexeme d frames) :
    Yields V σ (read name (some d) σ) := by
  obtain ⟨scope, v, hscope, -, hv⟩ := hmatches.readyAt hready
  simp only [Eval.read, Scopes.getAt?_of_bound? hscope hv]
  exact yields_ok h (h.bound scope _ v hv).1

theorem read_global {σ : State} (h : σ.Sound V) (name : Token) :
    read name none σ =
      match σ.scopes.bound? State.globals name.lexeme with
      | some v => .ok v σ
      | none => .error (.undefined name) σ := by
  cases hbound : σ.scopes.bound? State.globals name.lexeme <;>
    simp only [Eval.read, Scopes.get?_of_outermost _ h.outermost, hbound]

theorem assign_global {σ : State} (h : σ.Sound V) (name : Token) (v : Value) :
    assign name none v σ =
      match σ.scopes.bound? State.globals name.lexeme with
      | some _ => .ok v (σ.define State.globals name.lexeme v)
      | none => .error (.undefined name) σ := by
  simp only [assign, assignGlobal, Scopes.assign?_eq_map,
    Scopes.holder?_of_outermost _ h.outermost]
  cases σ.scopes.bound? State.globals name.lexeme <;> rfl

theorem yields_read_global {σ : State} (h : σ.Sound V) (name : Token) :
    Yields V σ (read name none σ) := by
  rw [read_global h]
  cases hbound : σ.scopes.bound? State.globals name.lexeme with
  | some v => exact yields_ok h (h.bound _ _ v hbound).1
  | none => exact h.follows

theorem yields_read {σ : State} (h : σ.Sound V) {ctx : Context} {name : Token}
    (hchecked : Place.Checked ctx (.expr (.read name ())))
    (hmatches : Matches σ.scopes σ.env ctx.scopes) :
    Yields V σ (read name (ctx.locate name.lexeme) σ) := by
  cases hlocate : ctx.locate name.lexeme with
  | none => exact yields_read_global h name
  | some d => exact yields_read_ready h hmatches (hchecked.readyAt hlocate)

theorem yields_this {σ : State} (h : σ.Sound V) {ctx : Context} {keyword : Token}
    (hchecked : Place.Checked ctx (.expr (.this keyword ())))
    (hmatches : Matches σ.scopes σ.env ctx.scopes) :
    Yields V σ (read keyword (ctx.locateThis keyword) σ) := by
  obtain ⟨hname, d, hlocate, hready⟩ := hchecked.this
  rw [hlocate]
  rw [← hname] at hready
  exact yields_read_ready h hmatches hready

theorem Resolution.Context.lt_length_of_locate {ctx : Context} {name : Bytes} {d : Nat}
    (h : ctx.locate name = some d) : d < ctx.scopes.length := by
  obtain ⟨hlt, -⟩ := List.findIdx?_eq_some_iff_getElem.mp h
  exact hlt

/-- The value of an assignment is evaluated first, which moves no scope. -/
theorem Follows.assign_local {σ σ' : State} (h : Follows V σ σ') {ctx : Context} {name : Token}
    (hmatches : Matches σ.scopes σ.env ctx.scopes) {distance : Nat}
    (hlocate : ctx.locate name.lexeme = some distance) {scope : ScopeId}
    (hscope : σ.scopes.ancestor? σ.env distance = some scope) (v : Value) :
    assign name (some distance) v σ' = .ok v (σ'.define scope name.lexeme v) := by
  have hsame : σ'.scopes.ancestor? σ'.env distance = some scope := by
    rw [h.env, hmatches.ancestor?_grows h.grows.scopes (Context.lt_length_of_locate hlocate)]
    exact hscope
  simp only [assign, Scopes.assignAt?_eq_map, hsame]
  rfl

theorem State.Sound.follows_define {σ : State} (h : σ.Sound V) (id : ScopeId) {name : Bytes}
    {v : Value} (hv : v.Valid σ) (hname : Plain name) : Follows V σ (σ.define id name v) :=
  ⟨h.define id hv (hname.admits v), σ.grows_define id name v, rfl⟩

theorem yields_assign {σ : State} (h : σ.Sound V) {ctx : Context} {name : Token}
    (hname : Plain name.lexeme) (hmatches : Matches σ.scopes σ.env ctx.scopes) {v : Value}
    (hv : v.Valid σ) : Yields V σ (assign name (ctx.locate name.lexeme) v σ) := by
  have hdefine (id : ScopeId) : Yields V σ (.ok v (σ.define id name.lexeme v)) :=
    ⟨h.follows_define id hv hname, hv.grows (σ.grows_define id _ v)⟩
  cases hlocate : ctx.locate name.lexeme with
  | none =>
      simp only [assign, assignGlobal]
      split
      case h_1 scopes hscopes =>
        obtain ⟨holder, rfl⟩ := Scopes.exists_of_assign? _ hscopes
        exact hdefine holder
      case h_2 => exact h.follows
  | some d =>
      obtain ⟨scope, hscope, -, -⟩ := hmatches.ancestor (Context.lt_length_of_locate hlocate)
      simp only [assign, Scopes.assignAt?_eq_map, hscope]
      exact hdefine scope

/-! ### Properties and methods -/

theorem yields_boundMethod (hclosed : V.Closed T) {σ : State} (h : σ.Sound V) {f : Function}
    (hf : MethodSound V σ.scopes f) (hbinds : BoundBy T f σ.scopes.next) {receiver : ObjectId}
    (hreceiver : receiver < σ.objects.size) :
    Yields V σ (.ok (σ.boundMethod f receiver).1 (σ.boundMethod f receiver).2) :=
  ⟨⟨h.boundMethod hclosed hf hbinds hreceiver, σ.grows_boundMethod f receiver, rfl⟩,
    σ.valid_boundMethod f receiver⟩

theorem yields_property (hclosed : V.Closed T) {σ : State} (h : σ.Sound V) {id : ObjectId}
    (hid : id < σ.objects.size) (name : Token)
    (hbinds : ∀ f, property id name σ = .ok (σ.boundMethod f id).1 (σ.boundMethod f id).2 →
      BoundBy T f σ.scopes.next) : Yields V σ (property id name σ) := by
  have hobject : σ.objects[id]? = some σ.objects[id] := Array.getElem?_eq_getElem hid
  have hsound := h.objects _ (Array.mem_of_getElem? hobject)
  simp only [property, hobject] at hbinds ⊢
  split
  case h_1 v hv => exact yields_ok h (hsound.2 _ v hv)
  case h_2 hnone =>
    split
    case h_1 f hf =>
      refine yields_boundMethod hclosed h (h.method? hf).1 (hbinds f ?_) hid
      simp only [hnone, hf]
    case h_2 => exact yields_fail h _ _

theorem yields_get (hclosed : V.Closed T) {σ : State} (h : σ.Sound V) {v : Value} (hv : v.Valid σ)
    (name : Token)
    (hbinds : ∀ f receiver, v = .object receiver →
      get v name σ = .ok (σ.boundMethod f receiver).1 (σ.boundMethod f receiver).2 →
      BoundBy T f σ.scopes.next) : Yields V σ (get v name σ) := by
  cases v with
  | object id => exact yields_property hclosed h hv name fun f hget => hbinds f id rfl hget
  | _ => exact yields_fail h _ _

/-- In a method of a derived class `super` is bound to a class, and `this`, one scope further in, to
an instance. -/
theorem State.Sound.super_bound {σ : State} (h : σ.Sound V) {ctx : Context} {keyword method : Token}
    (hchecked : Place.Checked ctx (.expr (.super keyword () method)))
    (hmatches : Matches σ.scopes σ.env ctx.scopes) :
    ∃ d base receiver, ctx.locate keyword.lexeme = some (d + 1) ∧
      σ.scopes.getAt? σ.env (d + 1) superName = some (.class base) ∧
      σ.scopes.getAt? σ.env d thisName = some (.object receiver) ∧
      (Value.object receiver).Valid σ := by
  obtain ⟨d, hlocate, hthis, hsuper⟩ := hchecked.super
  obtain ⟨inner, receiver, hinner, -, hreceiver⟩ := hmatches.readyAt hthis
  obtain ⟨outer, base, houter, -, hbase⟩ := hmatches.readyAt hsuper
  obtain ⟨hvalid, hadmits, -⟩ := h.bound inner thisName receiver hreceiver
  obtain ⟨receiver, rfl⟩ := hadmits rfl
  obtain ⟨-, -, hadmits⟩ := h.bound outer superName base hbase
  obtain ⟨base, rfl⟩ := hadmits rfl
  exact ⟨d, base, receiver, hlocate, Scopes.getAt?_of_bound? houter hbase,
    Scopes.getAt?_of_bound? hinner hreceiver, hvalid⟩

theorem yields_super (hclosed : V.Closed T) {σ : State} (h : σ.Sound V) {ctx : Context}
    {keyword method : Token} (hchecked : Place.Checked ctx (.expr (.super keyword () method)))
    (hmatches : Matches σ.scopes σ.env ctx.scopes)
    (ht : T (.eval (.super keyword (ctx.locate keyword.lexeme) method)) σ) :
    Yields V σ (super (ctx.locate keyword.lexeme) method σ) := by
  obtain ⟨d, base, receiver, hlocate, hbase, hreceiver, hvalid⟩ := h.super_bound hchecked hmatches
  have hbinds (f : Function)
      (hsuper : super (ctx.locate keyword.lexeme) method σ =
        .ok (σ.boundMethod f receiver).1 (σ.boundMethod f receiver).2) :
      BoundBy T f σ.scopes.next :=
    .super ht hsuper
  rw [hlocate] at hbinds ⊢
  simp only [super, Option.getD_some, Nat.add_sub_cancel, hbase, hreceiver] at hbinds ⊢
  split
  case h_1 f hf =>
    refine yields_boundMethod hclosed h (h.method? hf).1 (hbinds f ?_) hvalid
    simp only [hf]
  case h_2 => exact yields_fail h _ _

end Lox
