import Lox.Proofs.Lines.Session
import Lox.Proofs.Renaming.Eval
import Lox.Proofs.Renaming.Grammar
import Lox.Proofs.Renaming.Scope
import Lox.Proofs.Renaming.Source

/-!
# Sessions with a variable renamed

A local variable can be renamed in the text of a program: there is a source in which the declaration
and the uses that are bound to it have the new name, and which is otherwise the same. It is accepted
too, its uses are bound at the same distances, and it shows the same.
-/

namespace Lox

variable {r : Renaming}

/-- The diagnostic points at the same place of the source, where the old name may now be the new
one. -/
def Diagnostic.Respelled (r : Renaming) (d d' : Diagnostic) : Prop :=
  d' = d ∨ d.place = .lexeme r.old ∧ d' = { d with place := .lexeme r.new }

structure Report.Respelled (r : Renaming) (a a' : Report) : Prop where
  status : a'.status = a.status
  printed : a'.printed = a.printed
  diagnostics : List.Forall₂ (Diagnostic.Respelled r) a.diagnostics a'.diagnostics

theorem RuntimeError.diagnostic_respelled {t t' : Token} (h : r.Respells t t')
    (cause : RuntimeError.Cause) :
    (RuntimeError.diagnostic ⟨t, cause⟩).Respelled r (RuntimeError.diagnostic ⟨t', cause⟩) := by
  rcases h with rfl | ⟨hold, rfl⟩
  · exact .inl rfl
  · by_cases heof : t.kind = .eof
    · refine .inl ?_
      simp only [RuntimeError.diagnostic, Diagnostic.atToken, Diagnostic.Place.ofToken, heof,
        if_true]
    · refine .inr ?_
      simp only [RuntimeError.diagnostic, Diagnostic.atToken, Diagnostic.Place.ofToken, heof,
        if_false, hold, and_self]

/-! ### Sources -/

/-- A program without static faults that its source derives is accepted. -/
theorem accepted_of_derives {source : Bytes} {program : List (Stmt Unit)}
    (herrors : (Scan.source source).errors = [])
    (hderives : Grammar.NearestProgram (Scan.source source).tokens program)
    (hstatic : staticErrors program = []) :
    Accepted source ∧ (Reading.ofSource source).program = program := by
  have hparsed : (Reading.ofSource source).parsed = ⟨program, []⟩ :=
    Parsed.ofTokens_of_derives hderives
  have hprogram : (Reading.ofSource source).program = program := by
    rw [Reading.program, hparsed]
  refine ⟨⟨?_, ?_⟩, hprogram⟩
  · rw [Reading.diagnostics, hparsed, List.map_nil, List.append_nil, Scan.diagnostics]
    simp only [Reading.ofSource, herrors, List.map_nil]
    rfl
  · rw [hprogram, hstatic]
    rfl

/-- The bound program in other spelling is that of a source in other spelling. -/
theorem Accepted.respelled {source : Bytes} (h : Accepted source) {renamed : List (Stmt Site)}
    (hrenamed : Stmt.RespelledAll r.bound [] (resolve (Reading.ofSource source).program) renamed) :
    ∃ source',
      List.Forall₂ (Scan.Piece.Respelled r) (Scan.pieces source) (Scan.pieces source') ∧
      Accepted source' ∧ resolve (Reading.ofSource source').program = renamed := by
  have hbare := hrenamed.bare
  rw [resolve, Stmt.bareAll_resolve] at hbare
  obtain ⟨u, hu, hderives⟩ := Grammar.Clause.Derives.respelled h.derives hbare
  obtain ⟨source', hscan, hpieces, -⟩ := Scan.onward_respelled h.parsed.1 hu
  have htokens : (Scan.source source').tokens = u := congrArg Scan.tokens hscan
  have herrors : (Scan.source source').errors = [] := congrArg Scan.errors hscan
  rw [← htokens] at hderives
  obtain ⟨haccepted, hprogram⟩ := accepted_of_derives herrors hderives
    (staticErrors_respelled hrenamed h.staticErrors_eq_nil)
  refine ⟨source', hpieces, haccepted, ?_⟩
  rw [hprogram]
  exact resolve_respelled hrenamed

namespace Session

/-! ### Runs -/

theorem parent?_initial (clock : List Int) (id : ScopeId) :
    (State.initial clock).scopes.parent? id = none := by
  have hpush := Scopes.empty.parent?_push none [(State.clockName, .clock)] id
  refine hpush.trans ?_
  split <;> rfl

/-- No scope is marked before anything has run. -/
theorem renamed_initial (r : Renaming) (clock : List Int) :
    (State.initial clock).Renamed r (fun _ => false) (State.initial clock) where
  scopes :=
    { next := rfl
      parent := fun _ => rfl
      bound := fun _ _ => rfl
      older := fun id parent hparent => by
        rw [parent?_initial] at hparent
        cases hparent
      nonempty := Nat.one_pos
      globals := rfl }
  functions := ⟨rfl, fun _ => .none⟩
  classes := ⟨rfl, fun _ => .none⟩
  objects := rfl
  env := rfl
  depth := rfl
  clock := rfl
  printed := rfl

theorem at_initial (clock : List Int) :
    (State.initial clock).scopes.At (fun _ => false) [] (State.initial clock).env :=
  ⟨Nat.one_pos, fun _ _ _ => rfl⟩

theorem settle_respelled {φ : ScopeMarks} {σ : State} {o o' : Outcome Unit}
    (h : o.Renamed r φ σ o') (events events' : List Event) :
    ((Execution.ofOutcome o).bind (settle events)).Both (fun a a' => a.1.Respelled r a'.1)
      ((Execution.ofOutcome o').bind (settle events')) := by
  cases h with
  | ok _ hσ =>
      refine .done ⟨rfl, ?_, .nil⟩
      simp only [Execution.printed, hσ.printed]
  | error ht hprinted =>
      refine .done ⟨rfl, ?_, .cons (RuntimeError.diagnostic_respelled ht _) .nil⟩
      simp only [Execution.printed, hprinted]
  | broken => exact .broken
  | outOfFuel => exact .outOfFuel

/-- A local variable of an accepted source is renamed to a name that does not occur in it. Then some
pieces of the source that are the old name become the new one, so that the program is the renamed
one, and nothing else becomes of it. -/
theorem local_renaming_unseen (r : Renaming) {source : Bytes} (haccepted : Accepted source)
    (hfresh : ∀ t ∈ (Scan.source source).tokens, t.lexeme ≠ r.new) {renamed : List (Stmt Site)}
    (hrenames : RenamesLocal r (resolve (Reading.ofSource source).program) renamed) :
    ∃ source',
      List.Forall₂ (Scan.Piece.Respelled r) (Scan.pieces source) (Scan.pieces source') ∧
      Accepted source' ∧ resolve (Reading.ofSource source').program = renamed ∧
      (Stmt.usesAll renamed).map Use.role =
        (Stmt.usesAll (resolve (Reading.ofSource source).program)).map Use.role ∧
      ∀ clock fuel, ((start clock).run fuel source).Both (fun a a' => a.1.Respelled r a'.1)
        ((start clock).run fuel source') := by
  have hrenamed := respelled_of_renamesLocal haccepted.derives
    (fun t ht => ⟨Scan.spelled_onward 1 source t ht, hfresh t ht⟩) haccepted.staticErrors_eq_nil
    hrenames
  obtain ⟨source', hpieces, haccepted', hprogram⟩ := haccepted.respelled hrenamed
  refine ⟨source', hpieces, haccepted', hprogram, hrenamed.roles, fun clock fuel => ?_⟩
  rw [run_of_accepted haccepted, run_of_accepted haccepted', hprogram]
  exact settle_respelled
    (runAll_renamed fuel (renamed_initial r clock) (at_initial clock) hrenamed) _ _

/-- The program starts with a function that has the parameter. -/
def startsWith (param : Bytes) : List (Stmt Site) → Bool
  | .function decl :: _ => decl.params.any fun t => t.lexeme == param
  | _ => false

/-- A parameter is shadowed in a block of its function, and the error is at a use of it. -/
theorem local_renaming_unseen_parameter :
    let r : Renaming := ⟨bytes "a", bytes "b", by decide, by decide⟩
    let source := bytes "fun f(a){{var a=2;print a;}class B<a{}}f(1);"
    ∃ decl others source', resolve (Reading.ofSource source).program = .function decl :: others ∧
      Accepted source' ∧
      resolve (Reading.ofSource source').program = .function (decl.rename r [true]) :: others ∧
      ∃ a a', (start []).run 16 source = .done a ∧ a.1.status = .runtimeError ∧
        (start []).run 16 source' = .done a' ∧ a.1.Respelled r a'.1 := by
  intro r source
  have haccepted : Accepted source := by
    decide +kernel
  have hfresh : (Scan.source source).tokens.all (fun t => t.lexeme != r.new) = true := by
    decide +kernel
  have hstarts : startsWith r.old (resolve (Reading.ofSource source).program) = true := by
    decide +kernel
  have hends : ((start []).run 16 source).any (fun a => a.1.status = .runtimeError) = true := by
    decide +kernel
  obtain ⟨decl, others, hprogram, hdeclares⟩ : ∃ decl others,
      resolve (Reading.ofSource source).program = .function decl :: others ∧
        DeclaresVariable r.old decl.params decl.body := by
    unfold startsWith at hstarts
    split at hstarts
    case h_1 decl others hprogram =>
      obtain ⟨t, ht, hlexeme⟩ := List.any_eq_true.mp hstarts
      exact ⟨decl, others, hprogram, .inl ⟨t, ht, eq_of_beq hlexeme⟩⟩
    case h_2 => cases hstarts
  have hrenames : RenamesLocal r (resolve (Reading.ofSource source).program)
      (.function (decl.rename r [true]) :: others) :=
    hprogram ▸ .head (.function (.scope hdeclares))
  obtain ⟨source', -, haccepted', hprogram', -, hruns⟩ := local_renaming_unseen r haccepted
    (fun t ht => bne_iff_ne.mp (List.all_eq_true.mp hfresh t ht)) hrenames
  obtain ⟨a, hrun, hstatus⟩ := Ending.any_eq_true.mp hends
  obtain ⟨a', hrun', hreports⟩ := (hruns [] 16).of_done hrun
  exact ⟨decl, others, source', hprogram, haccepted', hprogram', a, a', hrun,
    of_decide_eq_true hstatus, hrun', hreports⟩

end Session

end Lox
