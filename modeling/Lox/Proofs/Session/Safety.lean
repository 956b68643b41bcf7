import Lox.Proofs.Parser.Moves
import Lox.Proofs.Session.Trace

/-!
# Sessions do not break

Whatever the sources of a session are, nothing in it breaks: scanning cuts each source into slices
of itself, parsing stays within the tokens, and evaluation never meets a scope, a value or a number
of arguments that it cannot handle. A program that stops does so with an error at a token.
-/

namespace Lox

open Resolution Eval

/-- The task cannot break. A function is given an argument for each of its parameters, and `super`
finds a class and an instance. -/
def Task.Safe (t : Task) (σ : State) : Prop :=
  (∀ n σ', t.run n σ ≠ .broken σ') ∧
  match t with
  | .invoke f arguments => arguments.length = f.decl.params.length
  | .eval (.super _ site _) =>
      ∃ distance base receiver, site = some (distance + 1) ∧
        σ.scopes.getAt? σ.env (distance + 1) superName = some (.class base) ∧
        σ.scopes.getAt? σ.env distance thisName = some (.object receiver)
  | _ => True

theorem Task.safe_of_pre {V : Context → Place → Prop} (hwalked : Walked V) {t : Task} {σ : State}
    (h : (soundness V).pre t σ) : t.Safe σ := by
  refine ⟨fun n σ' hrun => ?_, ?_⟩
  · have hend := (soundness_holds hwalked).run n h
    rw [hrun] at hend
    exact hend
  · obtain ⟨hsound, hready⟩ := h
    cases t with
    | invoke f arguments => exact hready.2.2.symm
    | eval e =>
        obtain ⟨ctx, node, hvisit, rfl, hmatches⟩ := hready
        cases node with
        | super keyword site method =>
            obtain ⟨d, base, receiver, hlocate, hbase, hreceiver, -⟩ :=
              hsound.super_bound (hwalked.checked hvisit) hmatches
            exact ⟨d, base, receiver, hlocate, hbase, hreceiver⟩
        | _ => trivial
    | _ => trivial

/-- The pieces of a source lie one behind the other and are all of it. Lexemes of tokens are among
them, in order, and a string is what stands between its quotes. -/
def Scan.Slices (source : Bytes) : Prop :=
  (pieces source).flatMap Piece.lexeme = source ∧
  ((Scan.source source).tokens.map Token.lexeme).Sublist ((pieces source).map Piece.lexeme) ∧
  ∀ t ∈ (Scan.source source).tokens, t.kind = .string → Quoted t

theorem Scan.slices (source : Bytes) : Slices source :=
  ⟨flatMap_lexeme_pieces source, lexemes_sublist 1 source, quoted_onward 1 source⟩

/-- All tokens are taken, and every fault stands at one of them or at their end. A declaration that
starts at a token goes on behind it, so there is always a token before the place of recovery. -/
def Parser.StaysWithin (tokens : List Token) : Prop :=
  (∃ p errors, bounded program tokens = .ok p [] errors ∧ ∀ e ∈ errors, e.left <:+ tokens) ∧
  ∀ t ts, t :: ts <:+ tokens → ∃ d rest errors, declaration (t :: ts) = .ok d rest errors ∧
    rest <:+ ts ∧ ∀ e ∈ errors, e.left <:+ tokens

theorem Parser.staysWithin (tokens : List Token) : StaysWithin tokens :=
  ⟨program_ends tokens.length (List.suffix_refl tokens) (Nat.le_refl _),
    fun _ _ hts => declaration_advances hts⟩

namespace Session

theorem diagnostics_of_run {fuel : Nat} {source : Bytes} {session session' : Session}
    {report : Report} (h : session.run fuel source = .done (report, session'))
    (hstatus : report.status = .runtimeError) :
    ∃ e : RuntimeError, report.diagnostics = [e.diagnostic] := by
  cases finishes_of_run h with
  | refused => cases hstatus
  | ended => cases hstatus
  | @stopped _ e => exact ⟨e, rfl⟩

theorem run_of_answer {fuel : Nat} {steps : List Step} {session after : Session}
    {answers : List Answer} (h : session.play fuel steps = .done (answers, after))
    {report : Report} (hreport : .ran report ∈ answers) :
    ∃ source, ∃ before next : Session, before.run fuel source = .done (report, next) := by
  induction steps generalizing session answers with
  | nil =>
      cases h
      cases hreport
  | cons step steps ih =>
      obtain ⟨answer, next, others, hstep, hplay, rfl⟩ := play_cons h
      rcases List.mem_cons.mp hreport with rfl | hother
      · cases step with
        | run source =>
            obtain ⟨⟨found, next⟩, hrun, heq⟩ := Ending.map_eq_done.mp hstep
            cases heq
            exact ⟨source, session, next, hrun⟩
        | parse source => cases hstep
      · exact ih hplay hother

/-- No session breaks, with any sources, for however long it runs. -/
theorem never_breaks (clock : List Int) (fuel : Nat) (steps : List Step) :
    (start clock).play fuel steps ≠ .broken ∧
    (∀ p ∈ (start clock).trace fuel steps, p.1.Safe p.2) ∧
    (∀ answers after, (start clock).play fuel steps = .done (answers, after) →
      ∀ report, Answer.ran report ∈ answers → report.status = .runtimeError →
        ∃ e : RuntimeError, report.diagnostics = [e.diagnostic]) ∧
    (∀ source, Scan.Slices source) ∧ ∀ tokens, Parser.StaysWithin tokens := by
  have hsound := sound_start clock (Visited steps)
  refine ⟨play_ne_broken fuel steps (fun _ hstep => hstep) hsound, fun p hp => ?_, ?_, ?_⟩
  · exact Task.safe_of_pre (walked_visited steps)
      (pre_of_trace fuel steps (fun _ hstep => hstep) hsound p hp)
  · intro answers after hplay report hreport hstatus
    obtain ⟨source, before, next, hrun⟩ := run_of_answer hplay hreport
    exact diagnostics_of_run hrun hstatus
  · exact ⟨Scan.slices, Parser.staysWithin⟩

def isSuper : Task → Bool
  | .eval (.super _ _ _) => true
  | _ => false

def stops : Answer → Bool
  | .ran report => report.status = .runtimeError
  | .parsed _ => false

/-- A method that calls the one of its superclass is called by a later source, which then stops
because it gives too few arguments. -/
theorem never_breaks_super_call :
    let steps : List Step :=
      [.run (bytes "class A{m(x){}}class B<A{m(x){super.m(x);}}"), .run (bytes "B().m(1);B().m();")]
    (∃ p ∈ (start []).trace 14 steps, isSuper p.1 = true ∧ p.1.Safe p.2) ∧
    ∃ answers after report, (start []).play 14 steps = .done (answers, after) ∧
      Answer.ran report ∈ answers ∧ report.status = .runtimeError ∧
        ∃ e : RuntimeError, report.diagnostics = [e.diagnostic] := by
  intro steps
  obtain ⟨-, hsafe, herror, -⟩ := never_breaks [] 14 steps
  constructor
  · have htrace : ((start []).trace 14 steps).any (fun p => isSuper p.1) = true := by
      decide +kernel
    obtain ⟨p, hp, hsuper⟩ := List.any_eq_true.mp htrace
    exact ⟨p, hp, hsuper, hsafe p hp⟩
  · have hstops : ((start []).play 14 steps).any (fun a => a.1.any stops) = true := by
      decide +kernel
    obtain ⟨⟨answers, after⟩, hplay, hany⟩ := Ending.any_eq_true.mp hstops
    obtain ⟨answer, hmem, hstop⟩ := List.any_eq_true.mp hany
    cases answer with
    | ran report =>
        have hstatus := of_decide_eq_true hstop
        exact ⟨answers, after, report, hplay, hmem, hstatus,
          herror answers after hplay report hmem hstatus⟩
    | parsed outline => cases hstop

end Session

end Lox
