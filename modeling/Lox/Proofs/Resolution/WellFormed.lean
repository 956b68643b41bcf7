import Lox.Proofs.Resolution.Walk

/-!
# Well-formed places

What the walk may rely on at each place: keywords are spelled as keywords, names are not, and the
branches of a conditional and the body of a loop declare nothing in the scope around them. With it
goes what the walk keeps of its contexts: where `this` and `super` are declared, and that only the
variable whose initializer is visited is not ready yet.
-/

namespace Lox.Resolution

/-- A name that is not a keyword with a scope of its own. -/
def Plain (name : Bytes) : Prop :=
  name ≠ thisName ∧ name ≠ superName

/-- A statement that declares nothing outside of its own scopes. -/
def Stays (s : Stmt Unit) : Prop :=
  ∀ ctx : Context, ctx.after s = ctx

namespace Place

def FineExpr : Expr Unit → Prop
  | .assign name _ _ => Plain name.lexeme
  | .super keyword _ _ => keyword.lexeme = superName
  | .this keyword _ => keyword.lexeme = thisName
  | _ => True

def FineStmt : Stmt Unit → Prop
  | .class name _ _ => Plain name.lexeme
  | .function decl => Plain decl.name.lexeme
  | .ifThen _ thenBranch => Stays thenBranch
  | .ifElse _ thenBranch elseBranch => Stays thenBranch ∧ Stays elseBranch
  | .var name _ => Plain name.lexeme
  | .while _ body => Stays body
  | _ => True

def Fine : Place → Prop
  | .expr e => FineExpr e
  | .stmt s => FineStmt s
  | .function _ d => ∀ param ∈ d.params, Plain param.lexeme
  | _ => True

/-- The place and all that are visited from it are as the walk expects. -/
inductive WellFormed : Context → Place → Prop where
  | mk {ctx : Context} {p : Place} (hfine : p.Fine)
      (hnext : ∀ c ∈ p.next ctx, WellFormed c.1 c.2) : WellFormed ctx p

theorem WellFormed.fine {ctx : Context} {p : Place} (h : WellFormed ctx p) : p.Fine := by
  obtain ⟨hfine, -⟩ := h
  exact hfine

theorem WellFormed.next {ctx : Context} {p : Place} (h : WellFormed ctx p) :
    ∀ c ∈ p.next ctx, WellFormed c.1 c.2 := by
  obtain ⟨-, hnext⟩ := h
  exact hnext

end Place

/-! ### Where names are declared -/

/-- The name is declared that many scopes out, in no scope on the way, and can be read. -/
def ReadyAt (name : Bytes) : Nat → List Frame → Prop
  | _, [] => False
  | 0, frame :: _ => frame.lookup name = some true
  | d + 1, frame :: frames => frame.lookup name = none ∧ ReadyAt name d frames

theorem ReadyAt.findIdx? {name : Bytes} {d : Nat} {frames : List Frame} (h : ReadyAt name d frames) :
    frames.findIdx? (fun frame => (frame.lookup name).isSome) = some d := by
  induction frames generalizing d with
  | nil => exact absurd h (by simp [ReadyAt])
  | cons frame frames ih =>
      cases d with
      | zero =>
          have hframe : frame.lookup name = some true := h
          simp [List.findIdx?_cons, hframe]
      | succ d =>
          obtain ⟨hframe, hframes⟩ := h
          simp [List.findIdx?_cons, hframe, ih hframes]

theorem ReadyAt.locate {name : Bytes} {d : Nat} {ctx : Context} (h : ReadyAt name d ctx.scopes) :
    ctx.locate name = some d :=
  h.findIdx?

/-- No name of the scopes waits for its initializer. -/
def Settled (frames : List Frame) : Prop :=
  ∀ frame ∈ frames, ∀ name, frame.lookup name ≠ some false

theorem readyAt_of_findIdx? {name : Bytes} {d : Nat} {frames : List Frame}
    (h : frames.findIdx? (fun frame => (frame.lookup name).isSome) = some d)
    (hready : ∀ frame, frames[d]? = some frame → frame.lookup name ≠ some false) :
    ReadyAt name d frames := by
  induction frames generalizing d with
  | nil => simp at h
  | cons frame frames ih =>
      rw [List.findIdx?_cons] at h
      cases hlookup : frame.lookup name with
      | some ready =>
          simp only [hlookup, Option.isSome_some, ↓reduceIte, Option.some.injEq] at h
          subst h
          have hne := hready frame rfl
          cases ready with
          | true => exact hlookup
          | false => exact absurd hlookup hne
      | none =>
          simp only [hlookup, Option.isSome_none, Bool.false_eq_true, ↓reduceIte,
            Option.map_eq_some_iff] at h
          obtain ⟨d, hd, rfl⟩ := h
          exact ⟨hlookup, ih hd fun g hg => hready g hg⟩

/-- Of the names around an expression only one of the innermost scope may have to wait. -/
theorem readyAt_of_locate {ctx : Context} (hsettled : Settled ctx.scopes.tail) {name : Bytes}
    (hready : ctx.inner? name ≠ some false) {d : Nat} (hd : ctx.locate name = some d) :
    ReadyAt name d ctx.scopes := by
  refine readyAt_of_findIdx? hd fun frame hframe => ?_
  cases hscopes : ctx.scopes with
  | nil => simp [hscopes] at hframe
  | cons inner outer =>
      rw [hscopes] at hframe hsettled
      cases d with
      | zero =>
          obtain rfl : inner = frame := Option.some.inj hframe
          simpa [Context.inner?, hscopes] using hready
      | succ d => exact hsettled frame (List.mem_of_getElem? hframe) name

/-- Inside a class `this` is declared, and inside a derived class `super` in the scope around it. -/
structure Context.Coherent (ctx : Context) : Prop where
  this : ctx.classKind ≠ .none → ∃ d, ReadyAt thisName d ctx.scopes
  super : ctx.classKind = .derived →
    ∃ d, ReadyAt thisName d ctx.scopes ∧ ReadyAt superName (d + 1) ctx.scopes

/-- Expressions are visited while one variable may wait for its initializer. -/
def Place.Settled (ctx : Context) : Place → Prop
  | .expr _ | .arguments _ => Resolution.Settled ctx.scopes.tail
  | _ => Resolution.Settled ctx.scopes

/-- Functions are methods where they stand in a class, in a scope for `this`. -/
def Place.Housed (ctx : Context) : Place → Prop
  | .function kind d =>
      kind = .function ∨
        kind = Context.methodKind d.name ∧ ∃ outer, ctx.scopes = [(thisName, true)] :: outer
  | .methods _ => ∃ outer, ctx.scopes = [(thisName, true)] :: outer
  | _ => True

/-! ### What the operations on contexts keep -/

theorem readyAt_enter {name : Bytes} {d : Nat} {ctx : Context} (h : ReadyAt name d ctx.scopes) :
    ReadyAt name (d + 1) (ctx.enter []).scopes :=
  ⟨rfl, h⟩

theorem readyAt_mark {name : Bytes} {d : Nat} {ctx : Context} {other : Bytes} (hne : other ≠ name)
    (ready : Bool) (h : ReadyAt name d ctx.scopes) :
    ReadyAt name d (ctx.mark other ready).scopes := by
  have hlookup (frame : Frame) : List.lookup name ((other, ready) :: frame) = frame.lookup name := by
    rw [List.lookup_cons, beq_eq_false_iff_ne.mpr hne.symm]
  unfold Context.mark
  cases hscopes : ctx.scopes with
  | nil =>
      rw [hscopes] at h
      simp [ReadyAt] at h
  | cons frame outer =>
      rw [hscopes] at h
      cases d with
      | zero => exact (hlookup frame).trans h
      | succ d => exact ⟨(hlookup frame).trans h.1, h.2⟩

@[simp]
theorem classKind_mark (ctx : Context) (name : Bytes) (ready : Bool) :
    (ctx.mark name ready).classKind = ctx.classKind := by
  unfold Context.mark
  split <;> rfl

theorem Context.Coherent.enter {ctx : Context} (h : ctx.Coherent) : (ctx.enter []).Coherent where
  this hclass := by
    obtain ⟨d, hd⟩ := h.this hclass
    exact ⟨d + 1, readyAt_enter hd⟩
  super hclass := by
    obtain ⟨d, hthis, hsuper⟩ := h.super hclass
    exact ⟨d + 1, readyAt_enter hthis, readyAt_enter hsuper⟩

theorem Context.Coherent.mark {ctx : Context} (h : ctx.Coherent) {name : Bytes} (hname : Plain name)
    (ready : Bool) : (ctx.mark name ready).Coherent where
  this hclass := by
    rw [classKind_mark] at hclass
    obtain ⟨d, hd⟩ := h.this hclass
    exact ⟨d, readyAt_mark hname.1 ready hd⟩
  super hclass := by
    rw [classKind_mark] at hclass
    obtain ⟨d, hthis, hsuper⟩ := h.super hclass
    exact ⟨d, readyAt_mark hname.1 ready hthis, readyAt_mark hname.2 ready hsuper⟩

theorem Context.Coherent.foldl_define {params : List Token}
    (hparams : ∀ param ∈ params, Plain param.lexeme) {ctx : Context} (h : ctx.Coherent) :
    (params.foldl Context.define ctx).Coherent := by
  induction params generalizing ctx with
  | nil => exact h
  | cons param params ih =>
      rw [List.forall_mem_cons] at hparams
      exact ih hparams.2 (h.mark hparams.1 true)

theorem Context.Coherent.inFunction {ctx : Context} (h : ctx.Coherent) (kind : FunctionKind)
    {params : List Token} (hparams : ∀ param ∈ params, Plain param.lexeme) :
    (ctx.inFunction kind params).Coherent := by
  have hkind : ({ ctx with function := kind } : Context).Coherent := ⟨h.this, h.super⟩
  exact hkind.enter.foldl_define hparams

theorem Context.coherent_inClass (ctx : Context) (derived : Bool) :
    (ctx.inClass derived).Coherent := by
  cases derived with
  | false => exact ⟨fun _ => ⟨0, rfl⟩, fun hclass => nomatch hclass⟩
  | true => exact ⟨fun _ => ⟨0, rfl⟩, fun _ => ⟨0, rfl, rfl, rfl⟩⟩

theorem Settled.cons {frames : List Frame} (h : Settled frames) {frame : Frame}
    (hframe : ∀ name, frame.lookup name ≠ some false) : Settled (frame :: frames) := by
  intro f hf
  rcases List.mem_cons.mp hf with rfl | hf
  · exact hframe
  · exact h f hf

theorem Settled.tail {frames : List Frame} (h : Settled frames) : Settled frames.tail :=
  fun frame hframe => h frame (List.mem_of_mem_tail hframe)

theorem lookup_ready_cons {frame : Frame} (h : ∀ name, frame.lookup name ≠ some false)
    (declared name : Bytes) : List.lookup name ((declared, true) :: frame) ≠ some false := by
  rw [List.lookup_cons]
  split
  · simp
  · exact h name

theorem Settled.define {ctx : Context} (h : Settled ctx.scopes) (name : Token) :
    Settled (ctx.define name).scopes := by
  unfold Context.define Context.mark
  cases hscopes : ctx.scopes with
  | nil => simpa [hscopes] using h
  | cons frame outer =>
      rw [hscopes] at h
      exact Settled.cons (fun f hf => h f (List.mem_cons_of_mem _ hf))
        (lookup_ready_cons (h frame List.mem_cons_self) name.lexeme)

theorem Settled.declare {ctx : Context} (h : Settled ctx.scopes) (name : Token) :
    Settled (ctx.declare name).scopes.tail := by
  unfold Context.declare Context.mark
  cases hscopes : ctx.scopes with
  | nil => simp [hscopes, Resolution.Settled]
  | cons frame outer =>
      rw [hscopes] at h
      exact h.tail

theorem Settled.foldl_define (params : List Token) {ctx : Context} (h : Settled ctx.scopes) :
    Settled (params.foldl Context.define ctx).scopes := by
  induction params generalizing ctx with
  | nil => exact h
  | cons param params ih => exact ih (h.define param)

theorem Settled.inFunction {ctx : Context} (h : Settled ctx.scopes) (kind : FunctionKind)
    (params : List Token) : Settled (ctx.inFunction kind params).scopes :=
  Settled.foldl_define params (h.cons fun _ => by simp)

theorem Settled.inClass {ctx : Context} (h : Settled ctx.scopes) (derived : Bool) :
    Settled (ctx.inClass derived).scopes := by
  have hready (declared name : Bytes) : List.lookup name [(declared, true)] ≠ some false :=
    lookup_ready_cons (fun _ => by simp) declared name
  cases derived with
  | false => exact h.cons (hready thisName)
  | true => exact (h.cons (hready superName)).cons (hready thisName)

/-- Behind a statement at most one more name is declared, and it is ready. -/
theorem after_of_fine {s : Stmt Unit} (h : Place.FineStmt s) (ctx : Context) :
    ctx.after s = ctx ∨ ∃ name : Token, Plain name.lexeme ∧ ctx.after s = ctx.define name := by
  cases s with
  | «class» name base ds => exact .inr ⟨name, h, rfl⟩
  | function decl => exact .inr ⟨decl.name, h, rfl⟩
  | var name init => exact .inr ⟨name, h, rfl⟩
  | ifThen condition thenBranch => exact .inl (h ctx)
  | ifElse condition thenBranch elseBranch =>
      left
      rw [Context.after, h.1 ctx]
      exact h.2 ctx
  | «while» condition body => exact .inl (h ctx)
  | _ => exact .inl rfl

theorem Context.Coherent.after {ctx : Context} (h : ctx.Coherent) {s : Stmt Unit}
    (hs : Place.FineStmt s) : (ctx.after s).Coherent := by
  rcases after_of_fine hs ctx with heq | ⟨name, hname, heq⟩
  · rw [heq]
    exact h
  · rw [heq]
    exact h.mark hname true

theorem Settled.after {ctx : Context} (h : Settled ctx.scopes) {s : Stmt Unit}
    (hs : Place.FineStmt s) : Settled (ctx.after s).scopes := by
  rcases after_of_fine hs ctx with heq | ⟨name, -, heq⟩
  · rw [heq]
    exact h
  · rw [heq]
    exact h.define name

/-! ### Places of a program without faults -/

/-- A place of a program that was accepted, in the context of its visit. -/
structure Place.Checked (ctx : Context) (p : Place) : Prop where
  wellFormed : Place.WellFormed ctx p
  faultless : p.faults ctx = []
  coherent : ctx.Coherent
  settled : p.Settled ctx
  housed : p.Housed ctx

/-- What is kept of the context alone. -/
def Kept (c : Context × Place) : Prop :=
  c.1.Coherent ∧ c.2.Settled c.1

theorem kept_superclass {ctx : Context} (hcoherent : ctx.Coherent)
    (hsettled : Settled ctx.scopes) (base : Option (Token × Unit)) :
    ∀ c ∈ Place.superclass ctx base, Kept c := by
  cases base with
  | none => simp [Place.superclass]
  | some base => simpa [Place.superclass] using ⟨hcoherent, hsettled.tail⟩

theorem kept_expr? {ctx : Context} (hcoherent : ctx.Coherent)
    (hsettled : Settled ctx.scopes.tail) (e : Option (Expr Unit)) :
    ∀ c ∈ Place.expr? ctx e, Kept c := by
  cases e with
  | none => simp [Place.expr?]
  | some e => simpa [Place.expr?] using ⟨hcoherent, hsettled⟩

theorem kept_parts {ctx : Context} {s : Stmt Unit} (hs : Place.FineStmt s)
    (hwell : ∀ c ∈ Place.parts ctx s, c.2.Fine) (hcoherent : ctx.Coherent)
    (hsettled : Settled ctx.scopes) : ∀ c ∈ Place.parts ctx s, Kept c := by
  have hexpr : Settled ctx.scopes.tail := hsettled.tail
  cases s with
  | block body =>
      simpa [Place.parts] using ⟨hcoherent.enter, hsettled.cons fun _ => by simp⟩
  | «class» name base ds =>
      have hdefine : (ctx.define name).Coherent := hcoherent.mark hs true
      simp only [Place.parts, List.forall_mem_append, List.forall_mem_singleton]
      exact ⟨kept_superclass hdefine (hsettled.define name) base,
        Context.coherent_inClass _ _, (hsettled.define name).inClass _⟩
  | function decl =>
      simpa [Place.parts] using ⟨hcoherent.mark hs true, hsettled.define decl.name⟩
  | ifElse condition thenBranch elseBranch =>
      simp only [Place.parts, List.forall_mem_cons] at hwell ⊢
      exact ⟨⟨hcoherent, hexpr⟩, ⟨hcoherent, hsettled⟩,
        ⟨hcoherent.after hwell.2.1, hsettled.after hwell.2.1⟩, by simp⟩
  | «return» keyword value => exact kept_expr? hcoherent hexpr value
  | var name init => exact kept_expr? (hcoherent.mark hs false) (hsettled.declare name) init
  | ifThen condition thenBranch =>
      simpa [Place.parts] using
        (⟨⟨hcoherent, hexpr⟩, hcoherent, hsettled⟩ :
          Kept (ctx, .expr condition) ∧ Kept (ctx, .stmt thenBranch))
  | «while» condition body =>
      simpa [Place.parts] using
        (⟨⟨hcoherent, hexpr⟩, hcoherent, hsettled⟩ :
          Kept (ctx, .expr condition) ∧ Kept (ctx, .stmt body))
  | expr e | print e => simpa [Place.parts] using ⟨hcoherent, hexpr⟩

theorem Place.Checked.kept_next {ctx : Context} {p : Place} (h : Place.Checked ctx p) :
    ∀ c ∈ p.next ctx, Kept c := by
  obtain ⟨hwell, -, hcoherent, hsettled, -⟩ := h
  have hfine : ∀ c ∈ p.next ctx, c.2.Fine := fun c hc => (hwell.next c hc).fine
  cases p with
  | expr e =>
      simp only [Place.next, List.forall_mem_map]
      intro p hp
      refine ⟨hcoherent, ?_⟩
      cases e <;> simp only [Place.operands, List.mem_cons, List.not_mem_nil, or_false] at hp <;>
        first | (subst hp; exact hsettled) | (rcases hp with rfl | rfl <;> exact hsettled)
  | stmt s => exact kept_parts hwell.fine hfine hcoherent hsettled
  | function kind d =>
      simpa [Place.next] using ⟨hcoherent.inFunction kind hwell.fine, hsettled.inFunction kind _⟩
  | arguments es =>
      cases es with
      | nil => simp [Place.next]
      | cons e es =>
          simpa [Place.next] using
            (⟨⟨hcoherent, hsettled⟩, hcoherent, hsettled⟩ :
              Kept (ctx, .expr e) ∧ Kept (ctx, .arguments es))
  | stmts ss =>
      cases ss with
      | nil => simp [Place.next]
      | cons s ss =>
          simp only [Place.next, List.forall_mem_cons] at hfine ⊢
          exact ⟨⟨hcoherent, hsettled⟩, ⟨hcoherent.after hfine.1, hsettled.after hfine.1⟩, by simp⟩
  | methods ds =>
      cases ds with
      | nil => simp [Place.next]
      | cons d ds =>
          simpa [Place.next] using
            (⟨⟨hcoherent, hsettled⟩, hcoherent, hsettled⟩ :
              Kept (ctx, .function (Context.methodKind d.name) d) ∧ Kept (ctx, .methods ds))

theorem housed_superclass (ctx : Context) (base : Option (Token × Unit)) :
    ∀ c ∈ Place.superclass ctx base, c.2.Housed c.1 := by
  cases base <;> simp [Place.superclass, Place.Housed]

theorem housed_expr? (ctx : Context) (e : Option (Expr Unit)) :
    ∀ c ∈ Place.expr? ctx e, c.2.Housed c.1 := by
  cases e <;> simp [Place.expr?, Place.Housed]

theorem housed_parts (ctx : Context) (s : Stmt Unit) :
    ∀ c ∈ Place.parts ctx s, c.2.Housed c.1 := by
  cases s with
  | «class» name base ds =>
      simp only [Place.parts, List.forall_mem_append, List.forall_mem_singleton]
      refine ⟨housed_superclass _ base, ?_⟩
      cases base <;> exact ⟨_, rfl⟩
  | «return» keyword value => exact housed_expr? ctx value
  | var name init => exact housed_expr? _ init
  | _ => simp [Place.parts, Place.Housed]

theorem Place.Housed.next {ctx : Context} {p : Place} (h : p.Housed ctx) :
    ∀ c ∈ p.next ctx, c.2.Housed c.1 := by
  cases p with
  | expr e => cases e <;> simp [Place.next, Place.operands, Place.Housed]
  | arguments es => cases es <;> simp [Place.next, Place.Housed]
  | stmt s => exact housed_parts ctx s
  | stmts ss => cases ss <;> simp [Place.next, Place.Housed]
  | function kind d => simp [Place.next, Place.Housed]
  | methods ds =>
      cases ds with
      | nil => simp [Place.next]
      | cons d ds =>
          simp only [Place.next, List.forall_mem_cons]
          exact ⟨.inr ⟨rfl, h⟩, h, by simp⟩

theorem Place.Checked.next {ctx ctx' : Context} {p p' : Place} (h : Place.Checked ctx p)
    (hp : (ctx', p') ∈ p.next ctx) : Place.Checked ctx' p' where
  wellFormed := h.wellFormed.next _ hp
  faultless := faults_next h.faultless _ hp
  coherent := (h.kept_next _ hp).1
  settled := (h.kept_next _ hp).2
  housed := h.housed.next _ hp

/-- Every place that the walk over an accepted program visits is checked. -/
theorem Visits.checked {program : List (Stmt Unit)} (hwell : Place.WellFormed .top (.stmts program))
    (hfaults : staticErrors program = []) {ctx : Context} {p : Place} (h : Visits program ctx p) :
    Place.Checked ctx p := by
  induction h with
  | start =>
      refine ⟨hwell, hfaults, ⟨fun hclass => absurd rfl hclass, fun hclass => nomatch hclass⟩, ?_,
        trivial⟩
      intro frame hframe
      cases hframe
  | next _ hnext ih => exact ih.next hnext

end Lox.Resolution
