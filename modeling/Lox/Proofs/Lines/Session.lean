import Lox.Proofs.Lines.Eval
import Lox.Proofs.Session.Trace

/-!
# Sessions on other lines

Two sessions that differ in lines only show the same: whatever is run in them, they answer with the
same status, the same output and, but for lines, the same diagnostics, and they differ in lines only
after that.
-/

namespace Lox

/-- A diagnostic without its line. -/
def Diagnostic.unlined (d : Diagnostic) : Diagnostic :=
  { d with line := 0 }

/-- What a report shows but for lines. -/
def Report.seen (r : Report) : Status × Bytes × List Diagnostic :=
  (r.status, r.printed, r.diagnostics.map Diagnostic.unlined)

/-- What a run in a session shows but for lines; a source that is only parsed leaves no trace. -/
def Session.Answer.seen : Session.Answer → Option (Status × Bytes × List Diagnostic)
  | .ran report => some report.seen
  | .parsed _ => none

def unlined : Int → Int :=
  fun _ => 0

theorem RuntimeError.diagnostic_unlined (e : RuntimeError) :
    e.diagnostic.unlined = (e.renumber unlined).diagnostic := rfl

namespace Session

/-- The sessions differ in lines only. -/
def Alike (s s' : Session) : Prop :=
  s'.entry.renumber unlined [] = s.entry.renumber unlined []

def output (printed : List Bytes) : Bytes :=
  printed.reverse.flatMap Bytes.line

theorem output_append (printed earlier : List Bytes) :
    output (printed ++ earlier) = output earlier ++ output printed := by
  simp [output]

/-- What two runs show, the second of which has output before it: the same but for lines. -/
def Corresponds (earlier : Bytes) : Report × Session → Report × Session → Prop
  | (r, after), (r', after') =>
      r'.status = r.status ∧ r'.printed = earlier ++ r.printed ∧
        r'.diagnostics.map Diagnostic.unlined = r.diagnostics.map Diagnostic.unlined ∧
        Alike after after'

end Session

/-- The endings are of one kind, with corresponding results. -/
inductive Ending.Both {α β : Type} (R : α → β → Prop) : Ending α → Ending β → Prop where
  | done {a : α} {b : β} (h : R a b) : Both R (.done a) (.done b)
  | broken : Both R .broken .broken
  | outOfFuel : Both R .outOfFuel .outOfFuel

section Endings

variable {α β γ δ : Type} {R : α → β → Prop} {S : γ → δ → Prop} {x : Ending α} {y : Ending β}

theorem Ending.Both.bind (h : x.Both R y) {f : α → Ending γ} {g : β → Ending δ}
    (hfg : ∀ a b, R a b → (f a).Both S (g b)) : (x.bind f).Both S (y.bind g) := by
  cases h with
  | done h => exact hfg _ _ h
  | broken => exact .broken
  | outOfFuel => exact .outOfFuel

theorem Ending.Both.map (h : x.Both R y) {f : α → γ} {g : β → δ}
    (hfg : ∀ a b, R a b → S (f a) (g b)) : (x.map f).Both S (y.map g) := by
  cases h with
  | done h => exact .done (hfg _ _ h)
  | broken => exact .broken
  | outOfFuel => exact .outOfFuel

theorem Ending.Both.of_done (h : x.Both R y) {a : α} (hx : x = .done a) :
    ∃ b, y = .done b ∧ R a b := by
  cases h with
  | done h =>
      cases hx
      exact ⟨_, rfl, h⟩
  | broken => cases hx
  | outOfFuel => cases hx

theorem Ending.Both.of_outOfFuel (h : x.Both R y) (hx : x = .outOfFuel) : y = .outOfFuel := by
  cases h with
  | done h => cases hx
  | broken => cases hx
  | outOfFuel => rfl

theorem Ending.Both.eq {x y : Ending α} (h : x.Both (fun a b => b = a) y) : y = x := by
  cases h with
  | done h => rw [h]
  | broken => rfl
  | outOfFuel => rfl

end Endings

namespace Session

theorem alike_of_renumber {σ σ' : State} {earlier : List Bytes}
    (h : σ'.renumber unlined [] = σ.renumber unlined earlier) : Alike ⟨σ⟩ ⟨σ'⟩ := by
  have hentry (σ : State) (earlier : List Bytes) : (⟨σ⟩ : Session).entry.renumber unlined [] =
      { σ.renumber unlined earlier with printed := [], env := State.globals } := rfl
  rw [Alike, hentry σ earlier, hentry σ' [], h]

theorem output_of_renumber {σ σ' : State} {earlier : List Bytes}
    (h : σ'.renumber unlined [] = σ.renumber unlined earlier) :
    output σ'.printed = output earlier ++ output σ.printed := by
  have hprinted : σ'.printed ++ [] = σ.printed ++ earlier := congrArg State.printed h
  rw [← output_append, ← hprinted, List.append_nil]

theorem settle_corresponds {o o' : Outcome Unit} {earlier : List Bytes}
    (h : o'.renumber unlined [] = o.renumber unlined earlier) (events events' : List Event) :
    ((Execution.ofOutcome o).bind (settle events)).Both (Corresponds (output earlier))
      ((Execution.ofOutcome o').bind (settle events')) := by
  cases o with
  | ok u σ =>
      cases o' with
      | ok u' σ' =>
          have hstate := (Outcome.ok.inj h).2
          exact .done ⟨rfl, output_of_renumber hstate, rfl, alike_of_renumber hstate⟩
      | _ => cases h
  | error e σ =>
      cases o' with
      | error e' σ' =>
          obtain ⟨herror, hstate⟩ := Outcome.error.inj h
          refine .done ⟨rfl, output_of_renumber hstate, ?_, alike_of_renumber hstate⟩
          simp only [List.map_cons, List.map_nil, RuntimeError.diagnostic_unlined, herror]
      | _ => cases h
  | broken σ =>
      cases o' with
      | broken σ' => exact .broken
      | _ => cases h
  | outOfFuel =>
      cases o' with
      | outOfFuel => exact .outOfFuel
      | _ => cases h

theorem Corresponds.seen {r r' : Report} {after after' : Session}
    (h : Corresponds [] (r, after) (r', after')) : r'.seen = r.seen := by
  obtain ⟨hstatus, hprinted, hdiagnostics, -⟩ := h
  rw [Report.seen, hstatus, hprinted, hdiagnostics]
  rfl

theorem Alike.run {s s' : Session} (h : Alike s s') (fuel : Nat) (source : Bytes) :
    (s.run fuel source).Both (Corresponds []) (s'.run fuel source) := by
  by_cases haccepted : Accepted source
  · rw [run_of_accepted haccepted, run_of_accepted haccepted]
    have hruns : (runAll fuel (resolve (Reading.ofSource source).program) s'.entry).renumber
        unlined [] = (runAll fuel (resolve (Reading.ofSource source).program) s.entry).renumber
        unlined [] := by
      rw [← runAll_renumber, ← runAll_renumber, h]
    exact settle_corresponds hruns _ _
  · obtain ⟨diagnostics, events, hrun⟩ := run_of_not_accepted haccepted
    rw [hrun, hrun]
    exact .done ⟨rfl, rfl, rfl, h⟩

theorem Alike.step {s s' : Session} (h : Alike s s') (fuel : Nat) (step : Step) :
    (s.step fuel step).Both (fun a a' => a'.1.seen = a.1.seen ∧ Alike a.2 a'.2)
      (s'.step fuel step) := by
  cases step with
  | parse source => exact .done ⟨rfl, h⟩
  | run source =>
      refine (h.run fuel source).map fun a a' hboth => ?_
      exact ⟨congrArg some hboth.seen, hboth.2.2.2⟩

/-- Sessions that differ in lines only show the same for ever. -/
theorem Alike.play {s s' : Session} (h : Alike s s') (fuel : Nat) (steps : List Step) :
    (s'.play fuel steps).map (·.1.map Answer.seen) =
      (s.play fuel steps).map (·.1.map Answer.seen) := by
  have hboth : (s.play fuel steps).Both
      (fun a a' => a'.1.map Answer.seen = a.1.map Answer.seen) (s'.play fuel steps) := by
    induction steps generalizing s s' with
    | nil => exact .done rfl
    | cons step steps ih =>
        refine (h.step fuel step).bind fun a a' hstep => ?_
        refine (ih hstep.2).map fun b b' hrest => ?_
        simp only [List.map_cons, hstep.1, hrest]
  exact (hboth.map fun _ _ h => h).eq

end Session

end Lox
