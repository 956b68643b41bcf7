import Lox.Proofs.Session.Joined

/-!
# Reports of a session

Each phase of a run finds faults of its own kind only, and the first phase that finds some is the
last. So status, diagnostics and log of a report say the same, and a source that is refused leaves
the session as it was. Steps that are refused, or that only parse, can be left out of a session.
-/

namespace Lox

/-- The phase that an event belongs to, as the log names it. -/
def Event.phase? (e : Event) : Option Bytes :=
  (e.fields.lookup "phase").map Event.Field.bytes

def Report.phases (r : Report) : List Bytes :=
  r.events.filterMap Event.phase?

/-- A phase has found faults of its kind. Nothing has run, and the session is the one from before. -/
structure Report.Refused (r : Report) (kind : Diagnostic.Kind) (before after : Session) : Prop where
  found : r.diagnostics ≠ []
  kind : ∀ d ∈ r.diagnostics, d.kind = kind
  status : r.status = .staticError
  printed : r.printed = []
  unchanged : after = before

/-- What a report shows, by the phase that ends the run. -/
inductive Report.Fits (source : Bytes) (before : Session) : Report → Session → Prop where
  | syntactic {r : Report} {after : Session} (h : r.Refused .syntactic before after)
      (hreading : r.diagnostics = (Reading.ofSource source).diagnostics)
      (hphases : r.phases = [bytes "scan", bytes "parse"]) : Fits source before r after
  | static {r : Report} {after : Session} (h : r.Refused .static before after)
      (hreading : (Reading.ofSource source).diagnostics = [])
      (hstatic : r.diagnostics =
        (staticErrors (Reading.ofSource source).program).map StaticError.diagnostic)
      (hphases : r.phases = [bytes "scan", bytes "parse", bytes "resolve"]) :
      Fits source before r after
  | runtime {r : Report} {after : Session} {d : Diagnostic} (haccepted : Accepted source)
      (hdiagnostics : r.diagnostics = [d]) (hkind : d.kind = .runtime)
      (hstatus : r.status = .runtimeError)
      (hphases : r.phases = [bytes "scan", bytes "parse", bytes "resolve", bytes "interpret"]) :
      Fits source before r after
  | ok {r : Report} {after : Session} (haccepted : Accepted source)
      (hdiagnostics : r.diagnostics = []) (hstatus : r.status = .ok)
      (hphases : r.phases = [bytes "scan", bytes "parse", bytes "resolve", bytes "interpret"]) :
      Fits source before r after

/-! ### Phases find faults of their own kind -/

theorem Reading.kind_of_mem_diagnostics (r : Reading) : ∀ d ∈ r.diagnostics, d.kind = .syntactic := by
  intro d hd
  rcases List.mem_append.mp hd with hscan | hparse
  · obtain ⟨e, -, rfl⟩ := List.mem_map.mp hscan
    rfl
  · obtain ⟨e, -, rfl⟩ := List.mem_map.mp hparse
    rfl

theorem StaticError.kind_of_mem_diagnostics (errors : List StaticError) :
    ∀ d ∈ errors.map StaticError.diagnostic, d.kind = .static := by
  intro d hd
  obtain ⟨e, -, rfl⟩ := List.mem_map.mp hd
  rfl

/-- Faults of a kind other than runtime errors forbid to go on. -/
theorem Diagnostic.hasErrors_eq_true_iff {ds : List Diagnostic} {kind : Diagnostic.Kind}
    (hkind : ∀ d ∈ ds, d.kind = kind) (hne : kind ≠ .runtime) :
    Diagnostic.hasErrors ds = true ↔ ds ≠ [] := by
  cases ds with
  | nil => simp [hasErrors]
  | cons d ds =>
      have hd : d.kind = kind := hkind d List.mem_cons_self
      simp [hasErrors, isRuntime, hd, hne]

theorem Diagnostic.eq_nil_of_hasErrors {ds : List Diagnostic} {kind : Diagnostic.Kind}
    (hkind : ∀ d ∈ ds, d.kind = kind) (hne : kind ≠ .runtime)
    (h : ¬Diagnostic.hasErrors ds = true) : ds = [] :=
  Classical.not_not.mp fun hds => h ((hasErrors_eq_true_iff hkind hne).mpr hds)

namespace Session

section Reports

variable {fuel : Nat} {source : Bytes} {session after : Session} {report : Report}

theorem fits_of_not_accepted (haccepted : ¬Accepted source)
    (h : session.run fuel source = .done (report, after)) : report.Fits source session after := by
  have hsyntactic := (Reading.ofSource source).kind_of_mem_diagnostics
  have hstatic := StaticError.kind_of_mem_diagnostics (staticErrors (Reading.ofSource source).program)
  rw [run] at h
  dsimp only at h
  split at h
  case isTrue hreading =>
    cases h
    have hfound := (Diagnostic.hasErrors_eq_true_iff hsyntactic (by decide)).mp hreading
    exact .syntactic ⟨hfound, hsyntactic, rfl, rfl, rfl⟩ rfl rfl
  case isFalse hreading =>
    have hnone := Diagnostic.eq_nil_of_hasErrors hsyntactic (by decide) hreading
    split at h
    case isTrue herrors =>
      cases h
      have hfound := (Diagnostic.hasErrors_eq_true_iff hstatic (by decide)).mp herrors
      exact .static ⟨hfound, hstatic, rfl, rfl, rfl⟩ hnone rfl rfl
    case isFalse herrors =>
      exact absurd ⟨Bool.eq_false_iff.mpr hreading, Bool.eq_false_iff.mpr herrors⟩ haccepted

/-- Diagnostics, status and log of a run say the same. -/
theorem fits_of_run (h : session.run fuel source = .done (report, after)) :
    report.Fits source session after := by
  cases finishes_of_run h with
  | refused haccepted => exact fits_of_not_accepted haccepted h
  | ended haccepted => exact .ok haccepted rfl rfl rfl
  | stopped haccepted => exact .runtime haccepted rfl rfl rfl rfl

/-- A source is refused for what it is, whatever the session. -/
theorem not_accepted_of_status (h : session.run fuel source = .done (report, after))
    (hstatus : report.status = .staticError) : ¬Accepted source := by
  cases finishes_of_run h with
  | refused haccepted => exact haccepted
  | ended => cases hstatus
  | stopped => cases hstatus

end Reports

/-! ### Steps that leave no trace -/

/-- The step only parses, or it runs a source that fails statically. -/
def Step.Idle : Step → Prop
  | .parse _ => True
  | .run source => ∃ fuel session report after, Session.run fuel source session = .done (report, after) ∧
      report.status = .staticError

theorem step_of_idle {step : Step} (h : step.Idle) (fuel : Nat) (session : Session) :
    ∃ answer, session.step fuel step = .done (answer, session) := by
  cases step with
  | parse source => exact ⟨_, rfl⟩
  | run source =>
      obtain ⟨n, other, report, after, hrun, hstatus⟩ := h
      obtain ⟨diagnostics, events, hrefused⟩ :=
        run_of_not_accepted (not_accepted_of_status hrun hstatus)
      refine ⟨.ran (refused diagnostics events), ?_⟩
      rw [Session.step, hrefused]
      rfl

/-- A session in which only the marked steps are taken. The others leave no trace, so it gives the
answers of the marked ones. -/
theorem play_marked (fuel : Nat) (session : Session) (plan : List (Step × Bool))
    (hidle : ∀ p ∈ plan, p.2 = false → p.1.Idle) :
    session.play fuel ((plan.filter Prod.snd).map Prod.fst) =
      (session.play fuel (plan.map Prod.fst)).map fun (answers, after) =>
        (((answers.zip plan).filter (·.2.2)).map Prod.fst, after) := by
  induction plan generalizing session with
  | nil => rfl
  | cons p plan ih =>
      obtain ⟨step, marked⟩ := p
      rw [List.forall_mem_cons] at hidle
      cases marked with
      | false =>
          obtain ⟨answer, hstep⟩ := step_of_idle (hidle.1 rfl) fuel session
          rw [List.filter_cons_of_neg (by simp), ih session hidle.2, List.map_cons, play, hstep]
          simp only [Ending.bind]
          cases session.play fuel (plan.map Prod.fst) <;> rfl
      | true =>
          rw [List.filter_cons_of_pos rfl, List.map_cons, List.map_cons, play, play]
          cases session.step fuel step with
          | done result =>
              obtain ⟨answer, session'⟩ := result
              simp only [Ending.bind, ih session' hidle.2]
              cases session'.play fuel (plan.map Prod.fst) <;> rfl
          | broken => rfl
          | outOfFuel => rfl

theorem run_ne_broken_of_reachable {clock : List Int} {n : Nat} {steps : List Step}
    {answers : List Answer} {session : Session}
    (hreach : (start clock).play n steps = .done (answers, session)) (fuel : Nat) (source : Bytes) :
    session.run fuel source ≠ .broken := by
  have hsound : session.state.Sound (Visited (steps ++ [.run source])) :=
    sound_play n steps (fun _ hstep => List.mem_append_left _ hstep) (sound_start clock _) hreach
  exact run_ne_broken hsound (by simp)

/-- Status, diagnostics, log and state of a run fit together, and steps that leave no trace can be
left out of a session. In a session that can be reached, a run that does not end goes on forever. -/
theorem reports_fit (session : Session) (fuel : Nat) :
    (∀ source report after, session.run fuel source = .done (report, after) →
      report.Fits source session after ∧
        report.errorText = report.diagnostics.flatMap fun d => d.text ++ [Bytes.lineFeed]) ∧
    (∀ clock n steps answers, (start clock).play n steps = .done (answers, session) →
      ∀ source, session.run fuel source ≠ .broken) ∧
    ∀ plan : List (Step × Bool), (∀ p ∈ plan, p.2 = false → p.1.Idle) →
      session.play fuel ((plan.filter Prod.snd).map Prod.fst) =
        (session.play fuel (plan.map Prod.fst)).map fun (answers, after) =>
          (((answers.zip plan).filter (·.2.2)).map Prod.fst, after) := by
  refine ⟨fun source report after hrun => ⟨fits_of_run hrun, rfl⟩, ?_, fun plan hidle => ?_⟩
  · intro clock n steps answers hreach source
    exact run_ne_broken_of_reachable hreach fuel source
  · exact play_marked fuel session plan hidle

/-- Between two runs stand one that only parses and one that is refused; the last one stops. -/
theorem reports_fit_between :
    let first := bytes "var a=1;"
    let last := bytes "print a;print b;"
    let plan : List (Step × Bool) :=
      [(.run first, true), (.parse (bytes "print"), false), (.run (bytes "return;"), false),
        (.run last, true)]
    (∀ p ∈ plan, p.2 = false → p.1.Idle) ∧
    (start []).play 9 [.run first, .run last] =
      ((start []).play 9 (plan.map Prod.fst)).map (fun (answers, after) =>
        (((answers.zip plan).filter (·.2.2)).map Prod.fst, after)) ∧
    ∃ (session after : Session) (report : Report), session.run 9 last = .done (report, after) ∧
      report.status = .runtimeError ∧ report.Fits last session after := by
  intro first last plan
  have hidle : ∀ p ∈ plan, p.2 = false → p.1.Idle := by
    have hrefused : ((start []).run 9 (bytes "return;")).any
        (fun a => a.1.status = .staticError) = true := by
      decide +kernel
    obtain ⟨⟨report, after⟩, hrun, hstatus⟩ := Ending.any_eq_true.mp hrefused
    have hreturn : (Step.run (bytes "return;")).Idle :=
      ⟨9, start [], report, after, hrun, of_decide_eq_true hstatus⟩
    simpa [plan, Step.Idle] using hreturn
  refine ⟨hidle, (reports_fit (start []) 9).2.2 plan hidle, ?_⟩
  have hstops : ((start []).run 9 first).any (fun a =>
      (a.2.run 9 last).any fun b => b.1.status = .runtimeError) = true := by
    decide +kernel
  obtain ⟨⟨earlier, session⟩, -, hlast⟩ := Ending.any_eq_true.mp hstops
  obtain ⟨⟨report, after⟩, hrun, hstatus⟩ := Ending.any_eq_true.mp hlast
  exact ⟨session, after, report, hrun, of_decide_eq_true hstatus,
    ((reports_fit session 9).1 last report after hrun).1⟩

end Session

end Lox
