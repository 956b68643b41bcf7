import Lox.Proofs.Resolution.Rules

/-!
# The walk reports what breaks a rule

The context of the walk is what the rules read off the layers around a piece. Redeclarations are
found while names are declared one after another, all others where they stand, so the order of the
reports differs from that of the text.
-/

namespace Lox

open Resolution

namespace Resolution

/-- The context is that of a walk which has come to code within the layers. -/
structure Context.Within (ctx : Context) (layers : List Layer) : Prop where
  function : ctx.function = functionOf layers
  classKind : ctx.classKind = classOf layers
  isLocal : ctx.scopes = [] ↔ layers = []
  settled : Settled ctx.scopes

section Within

variable {ctx : Context} {layers : List Layer}

theorem within_top : Context.top.Within [] :=
  ⟨rfl, rfl, by simp [Context.top], fun _ hframe => nomatch hframe⟩

theorem Context.Within.define (h : ctx.Within layers) (name : Token) :
    (ctx.define name).Within layers where
  function := by
    rw [← h.function, Context.define, Context.mark]
    split <;> rfl
  classKind := by
    rw [← h.classKind]
    exact classKind_mark ctx name.lexeme true
  isLocal := by
    rw [← h.isLocal, Context.define, Context.mark]
    split
    case h_1 hscopes => rfl
    case h_2 hscopes => simp [hscopes]
  settled := h.settled.define name

theorem Context.Within.foldl_define (h : ctx.Within layers) (names : List Token) :
    (names.foldl Context.define ctx).Within layers := by
  induction names generalizing ctx with
  | nil => exact h
  | cons name names ih => exact ih (h.define name)

theorem Context.Within.enter (h : ctx.Within layers) : (ctx.enter []).Within (.block :: layers) where
  function := h.function
  classKind := h.classKind
  isLocal := by simp [Context.enter]
  settled := h.settled.cons fun _ => by simp

/-- The layer of a function of that kind. -/
def Layer.IsFor (layer : Layer) (kind : FunctionKind) : Prop :=
  ∀ layers, functionOf (layer :: layers) = kind ∧ classOf (layer :: layers) = classOf layers

theorem isFor_function : Layer.function.IsFor .function :=
  fun _ => ⟨rfl, rfl⟩

theorem isFor_method (name : Token) : (methodLayer name).IsFor (Context.methodKind name) := by
  intro layers
  by_cases hinit : name.lexeme = initName
  · simp [methodLayer, Context.methodKind, hinit, functionOf, classOf]
  · simp [methodLayer, Context.methodKind, hinit, functionOf, classOf]

theorem Context.Within.inFunction (h : ctx.Within layers) {layer : Layer} {kind : FunctionKind}
    (hlayer : layer.IsFor kind) (params : List Token) :
    (ctx.inFunction kind params).Within (layer :: layers) := by
  obtain ⟨hfunction, hclass⟩ := hlayer layers
  have hempty : (({ ctx with function := kind } : Context).enter []).Within (layer :: layers) := by
    refine ⟨hfunction.symm, h.classKind.trans hclass.symm, ?_, h.settled.cons fun _ => by simp⟩
    simp [Context.enter]
  exact hempty.foldl_define params

theorem Context.Within.inClass (h : ctx.Within layers) (derived : Bool) :
    (ctx.inClass derived).Within (.class derived :: layers) where
  function := by cases derived <;> exact h.function
  classKind := by cases derived <;> rfl
  isLocal := by cases derived <;> simp [Context.inClass, Context.enter]
  settled := h.settled.inClass derived

/-! ### Names declared one after another -/

theorem after_eq_foldl {ρ : Type} (ctx : Context) (s : Stmt ρ) :
    ctx.after s = s.declared.foldl Context.define ctx := by
  fun_induction Context.after ctx s with
  | case5 ctx condition thenBranch ih => exact ih
  | case6 ctx condition thenBranch elseBranch ih ih' =>
      rw [Stmt.declared, List.foldl_append, ← ih]
      exact ih'
  | case10 ctx condition body ih => exact ih
  | _ => rfl

theorem paramFaults_append (ctx : Context) (names others : List Token) :
    paramFaults ctx (names ++ others) =
      paramFaults ctx names ++ paramFaults (names.foldl Context.define ctx) others := by
  induction names generalizing ctx with
  | nil => rfl
  | cons name names ih => simp [paramFaults, ih]

theorem paramFaults_top (h : ctx.scopes = []) (names : List Token) : paramFaults ctx names = [] := by
  induction names generalizing ctx with
  | nil => rfl
  | cons name names ih =>
      have hnone : ctx.inner? name.lexeme = none := by simp [Context.inner?, h]
      have hscopes : (ctx.define name).scopes = [] := by simp [Context.define, Context.mark, h]
      simp [paramFaults, redeclaration, hnone, ih hscopes]

/-- In a scope that has declared the names `seen`. -/
theorem paramFaults_eq_repeated {frame : Frame} {seen : List Bytes}
    (hseen : ∀ name, (frame.lookup name).isSome ↔ name ∈ seen) (names : List Token) :
    paramFaults (ctx.enter frame) names = (repeated seen names).map (⟨·, .redeclared⟩) := by
  induction names generalizing frame seen with
  | nil => rfl
  | cons name names ih =>
      have hdefine : (ctx.enter frame).define name = ctx.enter ((name.lexeme, true) :: frame) := rfl
      have hseen' (other : Bytes) :
          (List.lookup other ((name.lexeme, true) :: frame)).isSome ↔ other ∈ name.lexeme :: seen := by
        rw [List.lookup_cons, List.mem_cons, ← hseen]
        by_cases heq : other = name.lexeme
        · simp [heq]
        · simp [heq, beq_eq_false_iff_ne.mpr heq]
      have hhere : redeclaration (ctx.enter frame) name =
          (if name.lexeme ∈ seen then [name] else []).map (⟨·, .redeclared⟩) := by
        have hmem := hseen name.lexeme
        by_cases hold : name.lexeme ∈ seen
        · rw [if_pos hold]
          exact if_pos (hmem.mpr hold)
        · rw [if_neg hold]
          exact if_neg fun hsome => hold (hmem.mp hsome)
      rw [paramFaults, repeated, List.map_append, hhere, hdefine, ih hseen']

theorem broken_scope (ctx : Context) (layers : List Layer) (names : List Token) :
    broken (layers, .scope names) = paramFaults (ctx.enter []) names :=
  (paramFaults_eq_repeated (by simp) names).symm

end Within

/-! ### Uses -/

/-- The faults of one use in its context. -/
def useFaults (ctx : Context) (u : Use Unit) : List StaticError :=
  match u.tag with
  | .variable => readFaults ctx u.token
  | .assign => []
  | .this => thisFaults ctx u.token
  | .super => superFaults ctx u.token

end Resolution

mutual

theorem Expr.faults_perm_uses (ctx : Context) :
    (e : Expr Unit) → (e.faults ctx).Perm (e.uses.flatMap (useFaults ctx))
  | .assign name site value => by
      simpa [Expr.faults, Expr.uses, useFaults] using value.faults_perm_uses ctx
  | .binary left operator right => by
      rw [Expr.faults, Expr.uses, List.flatMap_append]
      exact (left.faults_perm_uses ctx).append (right.faults_perm_uses ctx)
  | .call callee paren arguments => by
      rw [Expr.faults, Expr.uses, List.flatMap_append]
      exact (callee.faults_perm_uses ctx).append (Expr.faultsAll_perm_uses ctx arguments)
  | .get object name => object.faults_perm_uses ctx
  | .group inner => inner.faults_perm_uses ctx
  | .literal value => .nil
  | .logical left operator right => by
      rw [Expr.faults, Expr.uses, List.flatMap_append]
      exact (left.faults_perm_uses ctx).append (right.faults_perm_uses ctx)
  | .set object name value => by
      -- The value is checked before the object.
      rw [Expr.faults, Expr.uses, List.flatMap_append]
      exact List.perm_append_comm.trans
        ((object.faults_perm_uses ctx).append (value.faults_perm_uses ctx))
  | .super keyword site method => by simp [Expr.faults, Expr.uses, useFaults]
  | .this keyword site => by simp [Expr.faults, Expr.uses, useFaults]
  | .unary operator operand => operand.faults_perm_uses ctx
  | .read name site => by simp [Expr.faults, Expr.uses, useFaults]

theorem Expr.faultsAll_perm_uses (ctx : Context) : (es : List (Expr Unit)) →
    (Expr.faultsAll ctx es).Perm ((Expr.usesAll es).flatMap (useFaults ctx))
  | [] => .nil
  | e :: es => by
      rw [Expr.faultsAll, Expr.usesAll, List.flatMap_append]
      exact (e.faults_perm_uses ctx).append (Expr.faultsAll_perm_uses ctx es)

end

namespace Resolution

section Uses

variable {ctx : Context} {layers : List Layer}

theorem flatMap_broken_pieces (layers : List Layer) (e : Expr Unit) :
    (e.pieces layers).flatMap broken = e.uses.flatMap fun u => broken (layers, .use u) := by
  rw [Expr.pieces, List.flatMap_map]

/-- Apart from reads, the fault of a use depends on the innermost class alone. -/
theorem useFaults_eq (hclass : ctx.classKind = classOf layers) (u : Use Unit) :
    useFaults ctx u =
      broken (layers, .use u) ++ if u.tag = .variable then readFaults ctx u.token else [] := by
  obtain ⟨tag, token, _⟩ := u
  cases tag <;> cases hkind : classOf layers <;>
    simp [useFaults, broken, thisFaults, superFaults, hclass, hkind]

theorem readFaults_of_settled (h : Settled ctx.scopes) (name : Token) : readFaults ctx name = [] := by
  refine if_neg ?_
  unfold Context.inner?
  split
  · simp
  case h_2 frame outer hscopes => exact h frame (by simp [hscopes]) name.lexeme

theorem perm_expr (h : ctx.Within layers) (e : Expr Unit) :
    (e.faults ctx).Perm ((e.pieces layers).flatMap broken) := by
  have huse (u : Use Unit) : useFaults ctx u = broken (layers, .use u) := by
    rw [useFaults_eq h.classKind, readFaults_of_settled h.settled, ite_self, List.append_nil]
  rw [flatMap_broken_pieces, ← funext huse]
  exact e.faults_perm_uses ctx

theorem perm_expr? (h : ctx.Within layers) (e : Option (Expr Unit)) :
    (Expr.faultsOf ctx e).Perm ((Expr.piecesOf layers e).flatMap broken) := by
  cases e with
  | none => exact .nil
  | some e => exact perm_expr h e

/-- While its initializer is checked, the variable alone is not ready. -/
theorem readFaults_declare (h : ctx.Within layers) (name token : Token) :
    readFaults (ctx.declare name) token =
      if layers ≠ [] ∧ token.lexeme = name.lexeme then [⟨token, .readInOwnInitializer⟩] else [] := by
  have hwaits : (ctx.declare name).inner? token.lexeme = some false ↔
      layers ≠ [] ∧ token.lexeme = name.lexeme := by
    rw [ne_eq, ← h.isLocal]
    cases hscopes : ctx.scopes with
    | nil => simp [Context.declare, Context.mark, Context.inner?, hscopes]
    | cons frame outer =>
        have hready := h.settled frame (by simp [hscopes]) token.lexeme
        simp only [Context.declare, Context.mark, Context.inner?, hscopes, List.lookup_cons]
        by_cases heq : token.lexeme = name.lexeme
        · simp [heq]
        · simp [heq, beq_eq_false_iff_ne.mpr heq, hready]
  exact if_congr hwaits rfl rfl

theorem broken_initializer (h : ctx.Within layers) (name : Token) (value : Expr Unit) :
    broken (layers, .initializer name value) = value.uses.flatMap fun u =>
      if u.tag = .variable then readFaults (ctx.declare name) u.token else [] := by
  simp only [readFaults_declare h, broken, ownReads]
  by_cases hlayers : layers = []
  · simp [hlayers]
  · simp only [hlayers, if_false, not_false_eq_true, true_and, ne_eq]
    induction value.uses with
    | nil => rfl
    | cons u us ih =>
        by_cases htag : u.tag = .variable
        · by_cases heq : u.token.lexeme = name.lexeme
          · simp [htag, heq, ih]
          · simp [htag, heq, ih]
        · simp [htag, ih]

theorem perm_initializer (h : ctx.Within layers) (name : Token) (value : Expr Unit) :
    (value.faults (ctx.declare name)).Perm
      (broken (layers, .initializer name value) ++ (value.pieces layers).flatMap broken) := by
  have hclass : (ctx.declare name).classKind = classOf layers :=
    (classKind_mark ctx name.lexeme false).trans h.classKind
  refine (value.faults_perm_uses _).trans ?_
  rw [funext (useFaults_eq hclass), flatMap_broken_pieces, broken_initializer h]
  exact (List.flatMap_append_perm _ _ _).symm.trans List.perm_append_comm

end Uses

/-! ### Statements -/

section Statements

variable {ctx : Context} {layers : List Layer} {α : Type}

theorem perm_interleave (a b c d : List α) : (a ++ b ++ (c ++ d)).Perm (a ++ c ++ (b ++ d)) := by
  rw [List.append_assoc, List.append_assoc]
  refine List.Perm.append_left a ?_
  rw [← List.append_assoc, ← List.append_assoc]
  exact List.Perm.append_right d List.perm_append_comm

theorem returnFaults_eq (h : ctx.Within layers) (keyword : Token) (hasValue : Bool) :
    returnFaults ctx keyword hasValue = broken (layers, .return keyword hasValue) := by
  cases hkind : functionOf layers <;> simp only [returnFaults, broken, h.function, hkind]

theorem superclassFaults_eq (h : ctx.Within layers) (name : Token)
    (superclass : Option (Token × Unit)) :
    superclassFaults ctx name superclass =
      (superclass.toList.map fun base => (layers, Piece.superclass name base.1)).flatMap broken := by
  cases superclass with
  | none => rfl
  | some base => simp [superclassFaults, readFaults_of_settled h.settled, broken]

end Statements

end Resolution

mutual

/-- The faults of a statement are those of its pieces and of the names that it declares. -/
theorem Stmt.faults_perm {ctx : Context} {layers : List Layer} (h : ctx.Within layers) :
    (s : Stmt Unit) →
      (s.faults ctx).Perm ((s.pieces layers).flatMap broken ++ paramFaults ctx s.declared)
  | .block body => by
      have hbody := Stmt.faultsAll_perm h.enter body
      simp only [Stmt.faults, Stmt.pieces, Stmt.declared, paramFaults, List.append_nil,
        List.flatMap_cons, broken_scope ctx]
      exact hbody.trans List.perm_append_comm
  | .class name superclass methods => by
      have hmethods :=
        FunctionDecl.faultsAll_perm ((h.define name).inClass superclass.isSome) methods
      simp only [Stmt.faults, Stmt.pieces, Stmt.declared, paramFaults, List.append_nil,
        List.flatMap_append, superclassFaults_eq (h.define name)]
      rw [List.append_assoc]
      exact List.perm_append_comm.trans ((hmethods.append_left _).append_right _)
  | .expr e => by simpa [Stmt.faults, Stmt.pieces, Stmt.declared, paramFaults] using perm_expr h e
  | .function decl => by
      have hdecl := decl.faults_perm (h.define decl.name) isFor_function
      simp only [Stmt.faults, Stmt.pieces, Stmt.declared, paramFaults, List.append_nil]
      exact List.perm_append_comm.trans (hdecl.append_right _)
  | .ifThen condition thenBranch => by
      have hthen := thenBranch.faults_perm h
      simp only [Stmt.faults, Stmt.pieces, Stmt.declared, List.flatMap_append]
      rw [List.append_assoc]
      exact (perm_expr h condition).append hthen
  | .ifElse condition thenBranch elseBranch => by
      have hthen := thenBranch.faults_perm h
      have hafter : (ctx.after thenBranch).Within layers := by
        rw [after_eq_foldl]
        exact h.foldl_define _
      have helse := elseBranch.faults_perm hafter
      rw [after_eq_foldl] at helse
      simp only [Stmt.faults, Stmt.pieces, Stmt.declared, List.flatMap_append, paramFaults_append,
        after_eq_foldl, List.append_assoc]
      refine (perm_expr h condition).append ((hthen.append helse).trans ?_)
      simpa only [List.append_assoc] using perm_interleave _ _ _ _
  | .print e => by simpa [Stmt.faults, Stmt.pieces, Stmt.declared, paramFaults] using perm_expr h e
  | .return keyword value => by
      simp only [Stmt.faults, Stmt.pieces, Stmt.declared, paramFaults, List.append_nil,
        List.flatMap_cons, returnFaults_eq h]
      exact (perm_expr? h value).append_left _
  | .var name init => by
      have hinit : (Expr.faultsOf (ctx.declare name) init).Perm
          ((Stmt.pieces layers (.var name init)).flatMap broken) := by
        cases init with
        | none => exact .nil
        | some value => simpa [Expr.faultsOf, Stmt.pieces, Expr.piecesOf] using perm_initializer h name value
      simp only [Stmt.faults, Stmt.declared, paramFaults, List.append_nil]
      exact List.perm_append_comm.trans (hinit.append_right _)
  | .while condition body => by
      have hbody := body.faults_perm h
      simp only [Stmt.faults, Stmt.pieces, Stmt.declared, List.flatMap_append]
      rw [List.append_assoc]
      exact (perm_expr h condition).append hbody

theorem Stmt.faultsAll_perm {ctx : Context} {layers : List Layer} (h : ctx.Within layers) :
    (ss : List (Stmt Unit)) → (Stmt.faultsAll ctx ss).Perm
      ((Stmt.piecesAll layers ss).flatMap broken ++ paramFaults ctx (Stmt.declaredAll ss))
  | [] => .nil
  | s :: ss => by
      have hs := s.faults_perm h
      have hafter : (ctx.after s).Within layers := by
        rw [after_eq_foldl]
        exact h.foldl_define _
      have hss := Stmt.faultsAll_perm hafter ss
      rw [after_eq_foldl] at hss
      have hdeclared : Stmt.declaredAll (s :: ss) = s.declared ++ Stmt.declaredAll ss := rfl
      rw [Stmt.faultsAll, Stmt.piecesAll, List.flatMap_append, after_eq_foldl, hdeclared,
        paramFaults_append]
      exact (hs.append hss).trans (perm_interleave _ _ _ _)

theorem FunctionDecl.faults_perm {ctx : Context} {layers : List Layer} (h : ctx.Within layers)
    {layer : Layer} {kind : FunctionKind} (hlayer : layer.IsFor kind) :
    (d : FunctionDecl Unit) → (d.faults ctx kind).Perm ((d.pieces (layer :: layers)).flatMap broken)
  | ⟨name, params, body⟩ => by
      have hbody := Stmt.faultsAll_perm (h.inFunction hlayer params) body
      rw [FunctionDecl.faults, FunctionDecl.pieces, List.flatMap_cons,
        broken_scope { ctx with function := kind }, paramFaults_append, List.append_assoc]
      exact List.Perm.append_left _ (hbody.trans List.perm_append_comm)

theorem FunctionDecl.faultsAll_perm {ctx : Context} {layers : List Layer} (h : ctx.Within layers) :
    (ds : List (FunctionDecl Unit)) → (FunctionDecl.faultsAll ctx ds).Perm
      ((FunctionDecl.piecesAll layers ds).flatMap broken)
  | [] => .nil
  | d :: ds => by
      rw [FunctionDecl.faultsAll, FunctionDecl.piecesAll, List.flatMap_append]
      exact (d.faults_perm h (isFor_method d.name)).append (FunctionDecl.faultsAll_perm h ds)

end

namespace Resolution

theorem staticErrors_perm (program : List (Stmt Unit)) :
    (staticErrors program).Perm (violations program) := by
  have hperm := Stmt.faultsAll_perm within_top program
  rwa [paramFaults_top rfl, List.append_nil] at hperm

/-- A program passes if and only if it keeps every rule. All reports are static, and there is one
for each violation. -/
theorem staticErrors_exact (program : List (Stmt Unit)) :
    (staticErrors program = [] ↔ Rules program) ∧
    (∀ d ∈ (staticErrors program).map StaticError.diagnostic, d.kind = .static) ∧
    (staticErrors program).Perm (violations program) := by
  have hperm := staticErrors_perm program
  refine ⟨?_, fun d hd => ?_, hperm⟩
  · rw [← violations_eq_nil_iff]
    constructor
    · intro hnone
      rw [hnone] at hperm
      exact hperm.symm.eq_nil
    · intro hnone
      rw [hnone] at hperm
      exact hperm.eq_nil
  · obtain ⟨e, -, rfl⟩ := List.mem_map.mp hd
    rfl

end Resolution

end Lox
