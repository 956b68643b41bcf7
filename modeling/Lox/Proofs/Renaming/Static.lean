import Lox.Proofs.Renaming.Respelled
import Lox.Proofs.Resolution.Walk

/-!
# Binding a program with a variable renamed

The walk that binds names meets the new name wherever it met the old one. In the frames of marked
scopes the two names have changed places, so each use is found at the distance at which it was, and
a rule is broken only where it was.
-/

namespace Lox

open Resolution

variable {r : Renaming} {marks : List Bool}

namespace Resolution

/-! ### Frames and contexts -/

structure Frame.Renamed (r : Renaming) (isMarked : Bool) (frame frame' : Frame) : Prop where
  lookup : ∀ n, frame'.lookup (r.name isMarked n) = frame.lookup n
  fresh : frame.lookup r.new = none

theorem Frame.renamed_nil (isMarked : Bool) : Frame.Renamed r isMarked [] [] :=
  ⟨fun _ => rfl, rfl⟩

theorem Frame.Renamed.cons {isMarked : Bool} {frame frame' : Frame}
    (h : Frame.Renamed r isMarked frame frame') {n : Bytes} (hn : n ≠ r.new) (ready : Bool) :
    Frame.Renamed r isMarked ((n, ready) :: frame) ((r.name isMarked n, ready) :: frame') := by
  constructor
  · intro other
    rw [List.lookup_cons, List.lookup_cons]
    by_cases heq : other = n
    · simp [heq]
    · have hne : r.name isMarked other ≠ r.name isMarked n :=
        fun hname => heq ((r.name isMarked).injective hname)
      rw [beq_eq_false_iff_ne.mpr heq, beq_eq_false_iff_ne.mpr hne]
      exact h.lookup other
  · rw [List.lookup_cons, beq_eq_false_iff_ne.mpr hn.symm]
    exact h.fresh

/-- A name that the frame lacks is lacked by the other one, however it is spelled. -/
theorem Frame.Renamed.lookup_eq_none {isMarked : Bool} {frame frame' : Frame}
    (h : Frame.Renamed r isMarked frame frame') {n : Bytes} (hn : n ≠ r.new)
    (hnone : frame.lookup n = none) (other : Bool) : frame'.lookup (r.name other n) = none := by
  by_cases hold : n = r.old
  · subst hold
    have hhere := (h.lookup r.old).trans hnone
    have hnew := (h.lookup r.new).trans h.fresh
    cases isMarked <;> cases other <;> simp_all [Renaming.name]
  · rw [Renaming.name_of_ne hold hn]
    have hlookup := (h.lookup n).trans hnone
    rwa [Renaming.name_of_ne hold hn] at hlookup

inductive RenamedFrames (r : Renaming) : List Bool → List Frame → List Frame → Prop where
  | nil : RenamedFrames r [] [] []
  | cons {isMarked : Bool} {marks : List Bool} {frame frame' : Frame} {outer outer' : List Frame}
      (h : Frame.Renamed r isMarked frame frame') (houter : RenamedFrames r marks outer outer') :
      RenamedFrames r (isMarked :: marks) (frame :: outer) (frame' :: outer')

structure Context.Renamed (r : Renaming) (marks : List Bool) (ctx ctx' : Context) : Prop where
  function : ctx'.function = ctx.function
  classKind : ctx'.classKind = ctx.classKind
  scopes : RenamedFrames r marks ctx.scopes ctx'.scopes

section

variable {ctx ctx' : Context}

theorem Context.renamed_top (r : Renaming) : Context.Renamed r [] .top .top :=
  ⟨rfl, rfl, .nil⟩

theorem Context.Renamed.mark (h : ctx.Renamed r marks ctx') {n n' : Bytes} (hn : n ≠ r.new)
    (hn' : n' = r.name (marked marks (some 0)) n) (ready : Bool) :
    (ctx.mark n ready).Renamed r marks (ctx'.mark n' ready) := by
  obtain ⟨kind, classKind, scopes⟩ := ctx
  obtain ⟨kind', classKind', scopes'⟩ := ctx'
  obtain ⟨hkind, hclassKind, hscopes⟩ := h
  subst hn'
  cases hscopes with
  | nil => exact ⟨hkind, hclassKind, .nil⟩
  | cons hframe houter => exact ⟨hkind, hclassKind, .cons (hframe.cons hn ready) houter⟩

theorem Context.Renamed.define (h : ctx.Renamed r marks ctx') {t t' : Token}
    (ht : r.bound.binder marks t t') : (ctx.define t).Renamed r marks (ctx'.define t') := by
  obtain ⟨hnew, rfl⟩ := ht
  exact h.mark hnew (Renaming.lexeme_token hnew _) true

theorem Context.Renamed.declare (h : ctx.Renamed r marks ctx') {t t' : Token}
    (ht : r.bound.binder marks t t') : (ctx.declare t).Renamed r marks (ctx'.declare t') := by
  obtain ⟨hnew, rfl⟩ := ht
  exact h.mark hnew (Renaming.lexeme_token hnew _) false

theorem Context.Renamed.enter (h : ctx.Renamed r marks ctx') {isMarked : Bool}
    {frame frame' : Frame} (hframe : Frame.Renamed r isMarked frame frame') :
    (ctx.enter frame).Renamed r (isMarked :: marks) (ctx'.enter frame') :=
  ⟨h.function, h.classKind, .cons hframe h.scopes⟩

theorem Context.Renamed.inFunction (h : ctx.Renamed r marks ctx') (kind : FunctionKind)
    {isMarked : Bool} {params params' : List Token}
    (hparams : List.Forall₂ (r.bound.binder (isMarked :: marks)) params params') :
    (ctx.inFunction kind params).Renamed r (isMarked :: marks) (ctx'.inFunction kind params') := by
  have hstart : (({ ctx with function := kind } : Context).enter []).Renamed r (isMarked :: marks)
      (({ ctx' with function := kind } : Context).enter []) :=
    ⟨rfl, h.classKind, .cons (Frame.renamed_nil isMarked) h.scopes⟩
  unfold Context.inFunction
  generalize ({ ctx with function := kind } : Context).enter [] = inner at hstart ⊢
  generalize ({ ctx' with function := kind } : Context).enter [] = inner' at hstart ⊢
  induction hparams generalizing inner inner' with
  | nil => exact hstart
  | cons hparam _ ih => exact ih _ _ (hstart.define hparam)

/-- Keywords are looked up like names, but they cannot be renamed. -/
theorem Frame.renamed_keyword {keyword : Bytes} (hnew : r.new ≠ keyword) :
    Frame.Renamed r false [(keyword, true)] [(keyword, true)] := by
  refine ⟨fun _ => rfl, ?_⟩
  rw [List.lookup_cons, beq_eq_false_iff_ne.mpr hnew]
  rfl

theorem Context.Renamed.inClass (h : ctx.Renamed r marks ctx') (derived : Bool) :
    (ctx.inClass derived).Renamed r (methodMarks derived marks) (ctx'.inClass derived) := by
  obtain ⟨hthis, hsuper⟩ := plain_of_isName r.isName_new
  cases derived with
  | false => exact ⟨h.function, rfl, .cons (Frame.renamed_keyword hthis) h.scopes⟩
  | true =>
      refine ⟨h.function, rfl, .cons (Frame.renamed_keyword hthis) ?_⟩
      exact .cons (Frame.renamed_keyword hsuper) h.scopes

/-! ### Uses -/

/-- The innermost frame knows a use that is spelled for its site as it knew the name. -/
theorem RenamedFrames.lookup_head {isMarked : Bool} {frame frame' : Frame}
    {outer outer' : List Frame}
    (h : RenamedFrames r (isMarked :: marks) (frame :: outer) (frame' :: outer')) {t t' : Token}
    (ht : r.bound.use (isMarked :: marks)
      ((frame :: outer).findIdx? fun frame => (frame.lookup t.lexeme).isSome) t t') :
    frame'.lookup t'.lexeme = frame.lookup t.lexeme := by
  obtain ⟨hnew, rfl⟩ := ht
  cases h with
  | cons hframe houter =>
      rw [Renaming.use, Renaming.lexeme_token hnew]
      cases hlookup : frame.lookup t.lexeme with
      | none => exact hframe.lookup_eq_none hnew hlookup _
      | some ready =>
          rw [List.findIdx?_cons, hlookup, Option.isSome_some, if_pos rfl, ← hlookup]
          exact hframe.lookup t.lexeme

theorem RenamedFrames.findIdx? {frames frames' : List Frame}
    (h : RenamedFrames r marks frames frames') {t t' : Token}
    (ht : r.bound.use marks (frames.findIdx? fun frame => (frame.lookup t.lexeme).isSome) t t') :
    (frames'.findIdx? fun frame => (frame.lookup t'.lexeme).isSome) =
      frames.findIdx? fun frame => (frame.lookup t.lexeme).isSome := by
  induction h with
  | nil => rfl
  | cons hframe houter ih =>
      have hhead := RenamedFrames.lookup_head (.cons hframe houter) ht
      rw [List.findIdx?_cons, List.findIdx?_cons, hhead]
      split
      case isTrue hfound => rfl
      case isFalse hfound =>
        -- The use is bound further out, so its mark is one of the outer ones.
        rw [List.findIdx?_cons, if_neg hfound] at ht
        refine congrArg _ (ih ⟨ht.1, ht.2.trans ?_⟩)
        cases List.findIdx? (fun frame => (List.lookup t.lexeme frame).isSome) _ <;> rfl

theorem Context.Renamed.locate (h : ctx.Renamed r marks ctx') {t t' : Token}
    (ht : r.bound.use marks (ctx.locate t.lexeme) t t') :
    ctx'.locate t'.lexeme = ctx.locate t.lexeme :=
  h.scopes.findIdx? ht

theorem Context.Renamed.inner? (h : ctx.Renamed r marks ctx') {t t' : Token}
    (ht : r.bound.use marks (ctx.locate t.lexeme) t t') :
    ctx'.inner? t'.lexeme = ctx.inner? t.lexeme := by
  obtain ⟨kind, classKind, scopes⟩ := ctx
  obtain ⟨kind', classKind', scopes'⟩ := ctx'
  have hscopes := h.scopes
  cases hscopes with
  | nil => rfl
  | cons hframe houter => exact RenamedFrames.lookup_head (.cons hframe houter) ht

theorem Context.Renamed.locate_word (h : ctx.Renamed r marks ctx') {t : Token}
    (ht : r.bound.word t) : ctx'.locate t.lexeme = ctx.locate t.lexeme :=
  h.locate (Renaming.use_of_word ht marks _)

theorem Context.Renamed.locateThis (h : ctx.Renamed r marks ctx') {t : Token}
    (ht : r.bound.word t) : ctx'.locateThis t = ctx.locateThis t := by
  rw [Context.locateThis, Context.locateThis, h.classKind, h.locate_word ht]

/-- A declaration stands in the innermost frame. -/
theorem Context.Renamed.inner?_binder (h : ctx.Renamed r marks ctx') {t t' : Token}
    (ht : r.bound.binder marks t t') : ctx'.inner? t'.lexeme = ctx.inner? t.lexeme := by
  obtain ⟨kind, classKind, scopes⟩ := ctx
  obtain ⟨kind', classKind', scopes'⟩ := ctx'
  obtain ⟨hnew, rfl⟩ := ht
  have hscopes := h.scopes
  cases hscopes with
  | nil => rfl
  | cons hframe houter =>
      rw [Renaming.binder, Renaming.use, Renaming.lexeme_token hnew]
      exact hframe.lookup t.lexeme

theorem Context.Renamed.redeclaration (h : ctx.Renamed r marks ctx') {t t' : Token}
    (ht : r.bound.binder marks t t') (hnone : redeclaration ctx t = []) :
    redeclaration ctx' t' = [] := by
  unfold Resolution.redeclaration at hnone ⊢
  rw [h.inner?_binder ht]
  split at hnone
  case isTrue => cases hnone
  case isFalse hfresh => exact if_neg hfresh

theorem Context.Renamed.readFaults (h : ctx.Renamed r marks ctx') {t t' : Token}
    (ht : r.bound.use marks (ctx.locate t.lexeme) t t') (hnone : readFaults ctx t = []) :
    readFaults ctx' t' = [] := by
  unfold Resolution.readFaults at hnone ⊢
  rw [h.inner? ht]
  split at hnone
  case isTrue => cases hnone
  case isFalse hready => exact if_neg hready

theorem Context.Renamed.paramFaults (h : ctx.Renamed r marks ctx') {params params' : List Token}
    (hparams : List.Forall₂ (r.bound.binder marks) params params')
    (hnone : paramFaults ctx params = []) : paramFaults ctx' params' = [] := by
  induction hparams generalizing ctx ctx' with
  | nil => rfl
  | cons hparam _ ih =>
      rw [Resolution.paramFaults, List.append_eq_nil_iff] at hnone ⊢
      exact ⟨h.redeclaration hparam hnone.1, ih (h.define hparam) hnone.2⟩

end

end Resolution

/-! ### Expressions -/

section

variable {ctx ctx' : Context}

mutual

/-- The other tree is bound as it stands, in the other context. -/
theorem Expr.resolve_respelled (h : ctx.Renamed r marks ctx') : (e : Expr Unit) →
    {e' : Expr Site} → (e.resolve ctx).Respelled r.bound marks e' → e'.bare.resolve ctx' = e'
  | .assign name site value, e', he => by
      rw [Expr.resolve] at he
      cases he with
      | assign hname hvalue =>
          simp only [Expr.bare, Expr.mapSites, Expr.resolve, h.locate hname]
          rw [Expr.resolve_respelled h value hvalue]
  | .binary left operator right, e', he => by
      rw [Expr.resolve] at he
      cases he with
      | binary hleft hright =>
          simp only [Expr.bare, Expr.mapSites, Expr.resolve]
          rw [Expr.resolve_respelled h left hleft, Expr.resolve_respelled h right hright]
  | .call callee paren arguments, e', he => by
      rw [Expr.resolve] at he
      cases he with
      | call hcallee harguments =>
          simp only [Expr.bare, Expr.mapSites, Expr.resolve]
          rw [Expr.resolve_respelled h callee hcallee,
            Expr.resolveAll_respelled h arguments harguments]
  | .get object name, e', he => by
      rw [Expr.resolve] at he
      cases he with
      | get hobject =>
          simp only [Expr.bare, Expr.mapSites, Expr.resolve]
          rw [Expr.resolve_respelled h object hobject]
  | .group inner, e', he => by
      rw [Expr.resolve] at he
      cases he with
      | group hinner =>
          simp only [Expr.bare, Expr.mapSites, Expr.resolve]
          rw [Expr.resolve_respelled h inner hinner]
  | .literal value, e', he => by
      rw [Expr.resolve] at he
      cases he
      rfl
  | .logical left operator right, e', he => by
      rw [Expr.resolve] at he
      cases he with
      | logical hleft hright =>
          simp only [Expr.bare, Expr.mapSites, Expr.resolve]
          rw [Expr.resolve_respelled h left hleft, Expr.resolve_respelled h right hright]
  | .set object name value, e', he => by
      rw [Expr.resolve] at he
      cases he with
      | set hobject hvalue =>
          simp only [Expr.bare, Expr.mapSites, Expr.resolve]
          rw [Expr.resolve_respelled h object hobject, Expr.resolve_respelled h value hvalue]
  | .super keyword site method, e', he => by
      rw [Expr.resolve] at he
      cases he with
      | «super» hkeyword =>
          simp only [Expr.bare, Expr.mapSites, Expr.resolve, h.locate_word hkeyword]
  | .this keyword site, e', he => by
      rw [Expr.resolve] at he
      cases he with
      | this hkeyword =>
          simp only [Expr.bare, Expr.mapSites, Expr.resolve, h.locateThis hkeyword]
  | .unary operator operand, e', he => by
      rw [Expr.resolve] at he
      cases he with
      | unary hoperand =>
          simp only [Expr.bare, Expr.mapSites, Expr.resolve]
          rw [Expr.resolve_respelled h operand hoperand]
  | .read name site, e', he => by
      rw [Expr.resolve] at he
      cases he with
      | read hname => simp only [Expr.bare, Expr.mapSites, Expr.resolve, h.locate hname]

theorem Expr.resolveAll_respelled (h : ctx.Renamed r marks ctx') : (es : List (Expr Unit)) →
    {es' : List (Expr Site)} →
    List.Forall₂ (Expr.Respelled r.bound marks) (Expr.resolveAll ctx es) es' →
    Expr.resolveAll ctx' (Expr.bareAll es') = es'
  | [], es', hes => by
      cases hes
      rfl
  | e :: es, es', hes => by
      cases hes with
      | cons he hes =>
          simp only [Expr.bareAll, Expr.mapSitesAll, Expr.resolveAll]
          rw [Expr.resolve_respelled h e he, Expr.resolveAll_respelled h es hes]

end

mutual

theorem Expr.faults_respelled (h : ctx.Renamed r marks ctx') : (e : Expr Unit) →
    {e' : Expr Site} → (e.resolve ctx).Respelled r.bound marks e' → e.faults ctx = [] →
    e'.bare.faults ctx' = []
  | .assign name site value, e', he, hnone => by
      rw [Expr.resolve] at he
      cases he with
      | assign hname hvalue =>
          rw [Expr.bare, Expr.mapSites, Expr.faults]
          exact Expr.faults_respelled h value hvalue hnone
  | .binary left operator right, e', he, hnone => by
      rw [Expr.resolve] at he
      rw [Expr.faults, List.append_eq_nil_iff] at hnone
      cases he with
      | binary hleft hright =>
          exact List.append_eq_nil_iff.mpr ⟨Expr.faults_respelled h left hleft hnone.1,
            Expr.faults_respelled h right hright hnone.2⟩
  | .call callee paren arguments, e', he, hnone => by
      rw [Expr.resolve] at he
      rw [Expr.faults, List.append_eq_nil_iff] at hnone
      cases he with
      | call hcallee harguments =>
          exact List.append_eq_nil_iff.mpr ⟨Expr.faults_respelled h callee hcallee hnone.1,
            Expr.faultsAll_respelled h arguments harguments hnone.2⟩
  | .get object name, e', he, hnone => by
      rw [Expr.resolve] at he
      cases he with
      | get hobject =>
          rw [Expr.bare, Expr.mapSites, Expr.faults]
          exact Expr.faults_respelled h object hobject hnone
  | .group inner, e', he, hnone => by
      rw [Expr.resolve] at he
      cases he with
      | group hinner =>
          rw [Expr.bare, Expr.mapSites, Expr.faults]
          exact Expr.faults_respelled h inner hinner hnone
  | .literal value, e', he, hnone => by
      rw [Expr.resolve] at he
      cases he
      rfl
  | .logical left operator right, e', he, hnone => by
      rw [Expr.resolve] at he
      rw [Expr.faults, List.append_eq_nil_iff] at hnone
      cases he with
      | logical hleft hright =>
          exact List.append_eq_nil_iff.mpr ⟨Expr.faults_respelled h left hleft hnone.1,
            Expr.faults_respelled h right hright hnone.2⟩
  | .set object name value, e', he, hnone => by
      rw [Expr.resolve] at he
      rw [Expr.faults, List.append_eq_nil_iff] at hnone
      cases he with
      | set hobject hvalue =>
          exact List.append_eq_nil_iff.mpr ⟨Expr.faults_respelled h value hvalue hnone.1,
            Expr.faults_respelled h object hobject hnone.2⟩
  | .super keyword site method, e', he, hnone => by
      rw [Expr.resolve] at he
      cases he with
      | «super» _ =>
          rw [Expr.faults, superFaults, ← h.classKind] at hnone
          exact hnone
  | .this keyword site, e', he, hnone => by
      rw [Expr.resolve] at he
      cases he with
      | this _ =>
          rw [Expr.faults, thisFaults, ← h.classKind] at hnone
          exact hnone
  | .unary operator operand, e', he, hnone => by
      rw [Expr.resolve] at he
      cases he with
      | unary hoperand =>
          rw [Expr.bare, Expr.mapSites, Expr.faults]
          exact Expr.faults_respelled h operand hoperand hnone
  | .read name site, e', he, hnone => by
      rw [Expr.resolve] at he
      cases he with
      | read hname => exact h.readFaults hname hnone

theorem Expr.faultsAll_respelled (h : ctx.Renamed r marks ctx') : (es : List (Expr Unit)) →
    {es' : List (Expr Site)} →
    List.Forall₂ (Expr.Respelled r.bound marks) (Expr.resolveAll ctx es) es' →
    Expr.faultsAll ctx es = [] → Expr.faultsAll ctx' (Expr.bareAll es') = []
  | [], es', hes, hnone => by
      cases hes
      rfl
  | e :: es, es', hes, hnone => by
      rw [Expr.faultsAll, List.append_eq_nil_iff] at hnone
      cases hes with
      | cons he hes =>
          exact List.append_eq_nil_iff.mpr ⟨Expr.faults_respelled h e he hnone.1,
            Expr.faultsAll_respelled h es hes hnone.2⟩

end

theorem Expr.RespelledOf.isSome_eq {e e' : Option (Expr Site)}
    (h : Expr.RespelledOf r.bound marks e e') : e'.isSome = e.isSome := by
  cases h <;> rfl

theorem Expr.resolveOf_respelled (h : ctx.Renamed r marks ctx') {e : Option (Expr Unit)}
    {e' : Option (Expr Site)}
    (he : Expr.RespelledOf r.bound marks (e.map (Expr.resolve ctx)) e') :
    (e'.map Expr.bare).map (Expr.resolve ctx') = e' := by
  cases e with
  | none =>
      cases he
      rfl
  | some e =>
      cases he with
      | some he => exact congrArg some (Expr.resolve_respelled h e he)

theorem Expr.faultsOf_respelled (h : ctx.Renamed r marks ctx') {e : Option (Expr Unit)}
    {e' : Option (Expr Site)}
    (he : Expr.RespelledOf r.bound marks (e.map (Expr.resolve ctx)) e')
    (hnone : Expr.faultsOf ctx e = []) : Expr.faultsOf ctx' (e'.map Expr.bare) = [] := by
  cases e with
  | none =>
      cases he
      rfl
  | some e =>
      cases he with
      | some he => exact Expr.faults_respelled h e he hnone

/-! ### Statements -/

theorem Resolution.after_resolve (inside ctx : Context) (s : Stmt Unit) :
    ctx.after (s.resolve inside) = ctx.after s := by
  fun_induction Context.after ctx s generalizing inside with
  | case4 ctx decl => cases decl; rfl
  | case5 ctx condition thenBranch ih => exact ih inside
  | case6 ctx condition thenBranch elseBranch ih ih' =>
      rw [Stmt.resolve, Context.after, ih]
      exact ih' _
  | case10 ctx condition body ih => exact ih inside
  | _ => rfl

theorem Resolution.Context.Renamed.after (h : ctx.Renamed r marks ctx') {s s' : Stmt Site}
    (hs : s.Respelled r.bound marks s') : (ctx.after s).Renamed r marks (ctx'.after s') := by
  fun_induction Context.after ctx s generalizing ctx' s' with
  | case2 ctx name superclass methods =>
      cases hs with
      | «class» hname _ _ => exact h.define hname
  | case4 ctx decl =>
      cases hs with
      | function hname hdecl =>
          cases hdecl
          exact h.define hname
  | case5 ctx condition thenBranch ih =>
      cases hs with
      | ifThen _ hyes =>
          rw [Context.after]
          exact ih h hyes
  | case6 ctx condition thenBranch elseBranch ih ih' =>
      cases hs with
      | ifElse _ hyes hno => exact ih' (ih h hyes) hno
  | case9 ctx name init =>
      cases hs with
      | var hname _ => exact h.define hname
  | case10 ctx condition body ih =>
      cases hs with
      | «while» _ hbody =>
          rw [Context.after]
          exact ih h hbody
  | _ =>
      cases hs
      exact h

/-- The context behind a statement, in both walks. -/
theorem Resolution.Context.Renamed.behind (h : ctx.Renamed r marks ctx') {s : Stmt Unit}
    {s' : Stmt Site} (hs : (s.resolve ctx).Respelled r.bound marks s') :
    (ctx.after s).Renamed r marks (ctx'.after s'.bare) := by
  have hafter := h.after hs
  rw [after_resolve] at hafter
  rwa [Stmt.bare, after_mapSites]

theorem Resolution.Context.Renamed.superclass (h : ctx.Renamed r marks ctx')
    {base : Option (Token × Unit)} {base' : Option (Token × Site)}
    (hbase : RespelledBase r.bound marks
      (base.map fun base => (base.1, ctx.locate base.1.lexeme)) base') :
    (base'.map fun base => (base.1, ())).map
      (fun base => (base.1, ctx'.locate base.1.lexeme)) = base' := by
  cases base with
  | none =>
      cases hbase
      rfl
  | some base =>
      cases hbase with
      | some hname => simp [h.locate hname]

theorem Resolution.Context.Renamed.superclassFaults (h : ctx.Renamed r marks ctx') {name : Token}
    (hname : name.lexeme ≠ r.new) {base : Option (Token × Unit)} {base' : Option (Token × Site)}
    (hbase : RespelledBase r.bound marks
      (base.map fun base => (base.1, ctx.locate base.1.lexeme)) base')
    (hnone : superclassFaults ctx name base = []) :
    superclassFaults ctx' name (base'.map fun base => (base.1, ())) = [] := by
  cases base with
  | none =>
      cases hbase
      rfl
  | some base =>
      cases hbase with
      | some huse =>
          rw [Resolution.superclassFaults, List.append_eq_nil_iff] at hnone
          obtain ⟨hitself, hready⟩ := hnone
          refine List.append_eq_nil_iff.mpr ⟨if_neg ?_, h.readFaults huse hready⟩
          intro heq
          rcases Renaming.respells_of_bound_use huse with rfl | ⟨-, rfl⟩
          · rw [if_pos heq] at hitself
            cases hitself
          · exact hname heq.symm

end

theorem FunctionDecl.name_resolve (ctx : Context) (kind : FunctionKind) (d : FunctionDecl Unit) :
    (d.resolve ctx kind).name = d.name := by
  cases d
  rfl

theorem FunctionDecl.Respelled.name_bare {d d' : FunctionDecl Site}
    (h : d.Respelled r.bound marks d') : d'.bare.name = d.name := by
  cases h
  rfl

mutual

theorem Stmt.resolve_respelled {marks : List Bool} {ctx ctx' : Context}
    (h : ctx.Renamed r marks ctx') : (s : Stmt Unit) → {s' : Stmt Site} →
    (s.resolve ctx).Respelled r.bound marks s' → s'.bare.resolve ctx' = s'
  | .block body, s', hs => by
      rw [Stmt.resolve] at hs
      cases hs with
      | block hbody =>
          simp only [Stmt.bare, Stmt.mapSites, Stmt.resolve]
          rw [Stmt.resolveAll_respelled (h.enter (Frame.renamed_nil _)) body hbody]
  | .class name superclass methods, s', hs => by
      rw [Stmt.resolve] at hs
      cases hs with
      | «class» hname hsuperclass hmethods =>
          have hdefined := h.define hname
          rw [Option.isSome_map] at hmethods
          have hsome := hsuperclass.isSome_eq
          rw [Option.isSome_map] at hsome
          simp only [Stmt.bare, Stmt.mapSites, Stmt.resolve, Option.isSome_map, hsome]
          rw [hdefined.superclass hsuperclass,
            FunctionDecl.resolveMethods_respelled (hdefined.inClass _) methods hmethods]
  | .expr e, s', hs => by
      rw [Stmt.resolve] at hs
      cases hs with
      | expr he =>
          simp only [Stmt.bare, Stmt.mapSites, Stmt.resolve]
          rw [Expr.resolve_respelled h e he]
  | .function decl, s', hs => by
      rw [Stmt.resolve] at hs
      cases hs with
      | function hname hdecl =>
          rw [FunctionDecl.name_resolve] at hname
          simp only [Stmt.bare, Stmt.mapSites, Stmt.resolve]
          rw [hdecl.name_bare, FunctionDecl.name_resolve,
            FunctionDecl.resolve_respelled (h.define hname) .function decl hdecl]
  | .ifThen condition thenBranch, s', hs => by
      rw [Stmt.resolve] at hs
      cases hs with
      | ifThen hcondition hyes =>
          simp only [Stmt.bare, Stmt.mapSites, Stmt.resolve]
          rw [Expr.resolve_respelled h condition hcondition,
            Stmt.resolve_respelled h thenBranch hyes]
  | .ifElse condition thenBranch elseBranch, s', hs => by
      rw [Stmt.resolve] at hs
      cases hs with
      | ifElse hcondition hyes hno =>
          simp only [Stmt.bare, Stmt.mapSites, Stmt.resolve]
          rw [Expr.resolve_respelled h condition hcondition,
            Stmt.resolve_respelled h thenBranch hyes,
            Stmt.resolve_respelled (h.behind hyes) elseBranch hno]
  | .print e, s', hs => by
      rw [Stmt.resolve] at hs
      cases hs with
      | print he =>
          simp only [Stmt.bare, Stmt.mapSites, Stmt.resolve]
          rw [Expr.resolve_respelled h e he]
  | .return keyword value, s', hs => by
      rw [Stmt.resolve] at hs
      cases hs with
      | «return» hvalue =>
          simp only [Stmt.bare, Stmt.mapSites, Stmt.resolve]
          rw [Expr.resolveOf_respelled h hvalue]
  | .var name init, s', hs => by
      rw [Stmt.resolve] at hs
      cases hs with
      | var hname hinit =>
          simp only [Stmt.bare, Stmt.mapSites, Stmt.resolve]
          rw [Expr.resolveOf_respelled (h.declare hname) hinit]
  | .while condition body, s', hs => by
      rw [Stmt.resolve] at hs
      cases hs with
      | «while» hcondition hbody =>
          simp only [Stmt.bare, Stmt.mapSites, Stmt.resolve]
          rw [Expr.resolve_respelled h condition hcondition, Stmt.resolve_respelled h body hbody]

theorem Stmt.resolveAll_respelled {marks : List Bool} {ctx ctx' : Context}
    (h : ctx.Renamed r marks ctx') : (ss : List (Stmt Unit)) → {ss' : List (Stmt Site)} →
    Stmt.RespelledAll r.bound marks (Stmt.resolveAll ctx ss) ss' →
    Stmt.resolveAll ctx' (Stmt.bareAll ss') = ss'
  | [], ss', hss => by
      cases hss
      rfl
  | s :: ss, ss', hss => by
      rw [Stmt.resolveAll] at hss
      cases hss with
      | cons hs hss =>
          simp only [Stmt.bareAll, Stmt.mapSitesAll, Stmt.resolveAll]
          rw [Stmt.resolve_respelled h s hs, Stmt.resolveAll_respelled (h.behind hs) ss hss]

theorem FunctionDecl.resolve_respelled {marks : List Bool} {ctx ctx' : Context}
    (h : ctx.Renamed r marks ctx') (kind : FunctionKind) : (d : FunctionDecl Unit) →
    {d' : FunctionDecl Site} → (d.resolve ctx kind).Respelled r.bound marks d' →
    d'.bare.resolve ctx' kind = d'
  | ⟨name, params, body⟩, d', hd => by
      rw [FunctionDecl.resolve] at hd
      cases hd with
      | mk hparams hbody =>
          simp only [FunctionDecl.bare, FunctionDecl.mapSites, FunctionDecl.resolve]
          rw [Stmt.resolveAll_respelled (h.inFunction kind hparams) body hbody]

theorem FunctionDecl.resolveMethods_respelled {marks : List Bool} {ctx ctx' : Context}
    (h : ctx.Renamed r marks ctx') : (ds : List (FunctionDecl Unit)) →
    {ds' : List (FunctionDecl Site)} →
    FunctionDecl.RespelledAll r.bound marks (FunctionDecl.resolveMethods ctx ds) ds' →
    FunctionDecl.resolveMethods ctx' (FunctionDecl.bareAll ds') = ds'
  | [], ds', hds => by
      cases hds
      rfl
  | d :: ds, ds', hds => by
      rw [FunctionDecl.resolveMethods] at hds
      cases hds with
      | cons hd hds =>
          simp only [FunctionDecl.bareAll, FunctionDecl.mapSitesAll, FunctionDecl.resolveMethods]
          rw [hd.name_bare, FunctionDecl.name_resolve, FunctionDecl.resolve_respelled h _ d hd,
            FunctionDecl.resolveMethods_respelled h ds hds]

end

mutual

theorem Stmt.faults_respelled {marks : List Bool} {ctx ctx' : Context}
    (h : ctx.Renamed r marks ctx') : (s : Stmt Unit) → {s' : Stmt Site} →
    (s.resolve ctx).Respelled r.bound marks s' → s.faults ctx = [] → s'.bare.faults ctx' = []
  | .block body, s', hs, hnone => by
      rw [Stmt.resolve] at hs
      cases hs with
      | block hbody =>
          exact Stmt.faultsAll_respelled (h.enter (Frame.renamed_nil _)) body hbody hnone
  | .class name superclass methods, s', hs, hnone => by
      rw [Stmt.resolve] at hs
      simp only [Stmt.faults, List.append_eq_nil_iff] at hnone
      obtain ⟨⟨hfresh, hbase⟩, hinside⟩ := hnone
      cases hs with
      | «class» hname hsuperclass hmethods =>
          have hdefined := h.define hname
          rw [Option.isSome_map] at hmethods
          have hsome := hsuperclass.isSome_eq
          rw [Option.isSome_map] at hsome
          simp only [Stmt.bare, Stmt.mapSites, Stmt.faults, List.append_eq_nil_iff,
            Option.isSome_map, hsome]
          refine ⟨⟨h.redeclaration hname hfresh, ?_⟩, ?_⟩
          · exact hdefined.superclassFaults hname.1 hsuperclass hbase
          · exact FunctionDecl.faultsAll_respelled (hdefined.inClass _) methods hmethods hinside
  | .expr e, s', hs, hnone => by
      rw [Stmt.resolve] at hs
      cases hs with
      | expr he => exact Expr.faults_respelled h e he hnone
  | .function decl, s', hs, hnone => by
      rw [Stmt.resolve] at hs
      simp only [Stmt.faults, List.append_eq_nil_iff] at hnone
      obtain ⟨hfresh, hinside⟩ := hnone
      cases hs with
      | function hname hdecl =>
          rw [FunctionDecl.name_resolve] at hname
          simp only [Stmt.bare, Stmt.mapSites, Stmt.faults, List.append_eq_nil_iff]
          rw [hdecl.name_bare, FunctionDecl.name_resolve]
          exact ⟨h.redeclaration hname hfresh,
            FunctionDecl.faults_respelled (h.define hname) .function decl hdecl hinside⟩
  | .ifThen condition thenBranch, s', hs, hnone => by
      rw [Stmt.resolve] at hs
      rw [Stmt.faults, List.append_eq_nil_iff] at hnone
      cases hs with
      | ifThen hcondition hyes =>
          exact List.append_eq_nil_iff.mpr ⟨Expr.faults_respelled h condition hcondition hnone.1,
            Stmt.faults_respelled h thenBranch hyes hnone.2⟩
  | .ifElse condition thenBranch elseBranch, s', hs, hnone => by
      rw [Stmt.resolve] at hs
      simp only [Stmt.faults, List.append_eq_nil_iff] at hnone
      obtain ⟨⟨hcheck, hthen⟩, helse⟩ := hnone
      cases hs with
      | ifElse hcondition hyes hno =>
          simp only [Stmt.bare, Stmt.mapSites, Stmt.faults, List.append_eq_nil_iff]
          exact ⟨⟨Expr.faults_respelled h condition hcondition hcheck,
            Stmt.faults_respelled h thenBranch hyes hthen⟩,
            Stmt.faults_respelled (h.behind hyes) elseBranch hno helse⟩
  | .print e, s', hs, hnone => by
      rw [Stmt.resolve] at hs
      cases hs with
      | print he => exact Expr.faults_respelled h e he hnone
  | .return keyword value, s', hs, hnone => by
      rw [Stmt.resolve] at hs
      rw [Stmt.faults, List.append_eq_nil_iff] at hnone
      obtain ⟨hplace, hinside⟩ := hnone
      cases hs with
      | «return» hvalue =>
          have hsome := hvalue.isSome_eq
          rw [Option.isSome_map] at hsome
          rw [returnFaults, ← h.function, ← hsome] at hplace
          simp only [Stmt.bare, Stmt.mapSites, Stmt.faults, List.append_eq_nil_iff,
            Option.isSome_map]
          exact ⟨hplace, Expr.faultsOf_respelled h hvalue hinside⟩
  | .var name init, s', hs, hnone => by
      rw [Stmt.resolve] at hs
      rw [Stmt.faults, List.append_eq_nil_iff] at hnone
      cases hs with
      | var hname hinit =>
          exact List.append_eq_nil_iff.mpr ⟨h.redeclaration hname hnone.1,
            Expr.faultsOf_respelled (h.declare hname) hinit hnone.2⟩
  | .while condition body, s', hs, hnone => by
      rw [Stmt.resolve] at hs
      rw [Stmt.faults, List.append_eq_nil_iff] at hnone
      cases hs with
      | «while» hcondition hbody =>
          exact List.append_eq_nil_iff.mpr ⟨Expr.faults_respelled h condition hcondition hnone.1,
            Stmt.faults_respelled h body hbody hnone.2⟩

theorem Stmt.faultsAll_respelled {marks : List Bool} {ctx ctx' : Context}
    (h : ctx.Renamed r marks ctx') : (ss : List (Stmt Unit)) → {ss' : List (Stmt Site)} →
    Stmt.RespelledAll r.bound marks (Stmt.resolveAll ctx ss) ss' → Stmt.faultsAll ctx ss = [] →
    Stmt.faultsAll ctx' (Stmt.bareAll ss') = []
  | [], ss', hss, hnone => by
      cases hss
      rfl
  | s :: ss, ss', hss, hnone => by
      rw [Stmt.resolveAll] at hss
      rw [Stmt.faultsAll, List.append_eq_nil_iff] at hnone
      cases hss with
      | cons hs hss =>
          exact List.append_eq_nil_iff.mpr ⟨Stmt.faults_respelled h s hs hnone.1,
            Stmt.faultsAll_respelled (h.behind hs) ss hss hnone.2⟩

theorem FunctionDecl.faults_respelled {marks : List Bool} {ctx ctx' : Context}
    (h : ctx.Renamed r marks ctx') (kind : FunctionKind) : (d : FunctionDecl Unit) →
    {d' : FunctionDecl Site} → (d.resolve ctx kind).Respelled r.bound marks d' →
    d.faults ctx kind = [] → d'.bare.faults ctx' kind = []
  | ⟨name, params, body⟩, d', hd, hnone => by
      rw [FunctionDecl.resolve] at hd
      rw [FunctionDecl.faults, List.append_eq_nil_iff] at hnone
      cases hd with
      | mk hparams hbody =>
          exact List.append_eq_nil_iff.mpr
            ⟨(h.inFunction kind .nil).paramFaults hparams hnone.1,
              Stmt.faultsAll_respelled (h.inFunction kind hparams) body hbody hnone.2⟩

theorem FunctionDecl.faultsAll_respelled {marks : List Bool} {ctx ctx' : Context}
    (h : ctx.Renamed r marks ctx') : (ds : List (FunctionDecl Unit)) →
    {ds' : List (FunctionDecl Site)} →
    FunctionDecl.RespelledAll r.bound marks (FunctionDecl.resolveMethods ctx ds) ds' →
    FunctionDecl.faultsAll ctx ds = [] →
    FunctionDecl.faultsAll ctx' (FunctionDecl.bareAll ds') = []
  | [], ds', hds, hnone => by
      cases hds
      rfl
  | d :: ds, ds', hds, hnone => by
      rw [FunctionDecl.resolveMethods] at hds
      rw [FunctionDecl.faultsAll, List.append_eq_nil_iff] at hnone
      cases hds with
      | cons hd hds =>
          simp only [FunctionDecl.bareAll, FunctionDecl.mapSitesAll, FunctionDecl.faultsAll,
            List.append_eq_nil_iff]
          rw [hd.name_bare, FunctionDecl.name_resolve]
          exact ⟨FunctionDecl.faults_respelled h _ d hd hnone.1,
            FunctionDecl.faultsAll_respelled h ds hds hnone.2⟩

end

/-! ### The text of a bound tree -/

mutual

theorem Expr.bare_resolve (ctx : Context) : (e : Expr Unit) → (e.resolve ctx).bare = e
  | .assign name site value => by
      simp only [Expr.resolve, Expr.mapSites, Expr.bare_resolve ctx value]
  | .binary left operator right => by
      simp only [Expr.resolve, Expr.mapSites, Expr.bare_resolve ctx left,
        Expr.bare_resolve ctx right]
  | .call callee paren arguments => by
      simp only [Expr.resolve, Expr.mapSites, Expr.bare_resolve ctx callee,
        Expr.bareAll_resolve ctx arguments]
  | .get object name => by simp only [Expr.resolve, Expr.mapSites, Expr.bare_resolve ctx object]
  | .group inner => by simp only [Expr.resolve, Expr.mapSites, Expr.bare_resolve ctx inner]
  | .literal value => rfl
  | .logical left operator right => by
      simp only [Expr.resolve, Expr.mapSites, Expr.bare_resolve ctx left,
        Expr.bare_resolve ctx right]
  | .set object name value => by
      simp only [Expr.resolve, Expr.mapSites, Expr.bare_resolve ctx object,
        Expr.bare_resolve ctx value]
  | .super keyword site method => rfl
  | .this keyword site => rfl
  | .unary operator operand => by
      simp only [Expr.resolve, Expr.mapSites, Expr.bare_resolve ctx operand]
  | .read name site => rfl

theorem Expr.bareAll_resolve (ctx : Context) : (es : List (Expr Unit)) →
    Expr.bareAll (Expr.resolveAll ctx es) = es
  | [] => rfl
  | e :: es => by
      simp only [Expr.resolveAll, Expr.mapSitesAll, Expr.bare_resolve ctx e,
        Expr.bareAll_resolve ctx es]

end

theorem Expr.bareOf_resolve (ctx : Context) (e : Option (Expr Unit)) :
    (e.map (Expr.resolve ctx)).map Expr.bare = e := by
  cases e with
  | none => rfl
  | some e => exact congrArg some (Expr.bare_resolve ctx e)

mutual

theorem Stmt.bare_resolve (ctx : Context) : (s : Stmt Unit) → (s.resolve ctx).bare = s
  | .block body => by simp only [Stmt.resolve, Stmt.mapSites, Stmt.bareAll_resolve _ body]
  | .class name superclass methods => by
      simp only [Stmt.resolve, Stmt.mapSites, Option.map_map, Function.comp_def,
        FunctionDecl.bareAll_resolveMethods _ methods]
      rw [Option.map_id']
  | .expr e => by simp only [Stmt.resolve, Stmt.mapSites, Expr.bare_resolve]
  | .function decl => by
      simp only [Stmt.resolve, Stmt.mapSites, FunctionDecl.bare_resolve _ _ decl]
  | .ifThen condition yes => by
      simp only [Stmt.resolve, Stmt.mapSites, Expr.bare_resolve, Stmt.bare_resolve _ yes]
  | .ifElse condition yes no => by
      simp only [Stmt.resolve, Stmt.mapSites, Expr.bare_resolve, Stmt.bare_resolve _ yes,
        Stmt.bare_resolve _ no]
  | .print e => by simp only [Stmt.resolve, Stmt.mapSites, Expr.bare_resolve]
  | .return keyword value => by
      simp only [Stmt.resolve, Stmt.mapSites, Expr.bareOf_resolve]
  | .var name init => by simp only [Stmt.resolve, Stmt.mapSites, Expr.bareOf_resolve]
  | .while condition body => by
      simp only [Stmt.resolve, Stmt.mapSites, Expr.bare_resolve, Stmt.bare_resolve _ body]

theorem Stmt.bareAll_resolve (ctx : Context) : (ss : List (Stmt Unit)) →
    Stmt.bareAll (Stmt.resolveAll ctx ss) = ss
  | [] => rfl
  | s :: ss => by
      simp only [Stmt.resolveAll, Stmt.mapSitesAll, Stmt.bare_resolve _ s,
        Stmt.bareAll_resolve _ ss]

theorem FunctionDecl.bare_resolve (ctx : Context) (kind : FunctionKind) :
    (d : FunctionDecl Unit) → (d.resolve ctx kind).bare = d
  | ⟨name, params, body⟩ => by
      simp only [FunctionDecl.resolve, FunctionDecl.mapSites, Stmt.bareAll_resolve _ body]

theorem FunctionDecl.bareAll_resolveMethods (ctx : Context) : (ds : List (FunctionDecl Unit)) →
    FunctionDecl.bareAll (FunctionDecl.resolveMethods ctx ds) = ds
  | [] => rfl
  | d :: ds => by
      simp only [FunctionDecl.resolveMethods, FunctionDecl.mapSitesAll,
        FunctionDecl.bare_resolve _ _ d, FunctionDecl.bareAll_resolveMethods _ ds]

end

/-! ### Programs -/

/-- A bound program in other spelling is what the walk makes of its text. -/
theorem resolve_respelled {program : List (Stmt Unit)} {renamed : List (Stmt Site)}
    (h : Stmt.RespelledAll r.bound [] (resolve program) renamed) :
    resolve (Stmt.bareAll renamed) = renamed :=
  Stmt.resolveAll_respelled (Context.renamed_top r) program h

theorem staticErrors_respelled {program : List (Stmt Unit)} {renamed : List (Stmt Site)}
    (h : Stmt.RespelledAll r.bound [] (resolve program) renamed)
    (hnone : staticErrors program = []) : staticErrors (Stmt.bareAll renamed) = [] :=
  Stmt.faultsAll_respelled (Context.renamed_top r) program h hnone

end Lox
