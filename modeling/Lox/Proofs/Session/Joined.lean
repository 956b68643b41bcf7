import Lox.Proofs.Eval.Fuel
import Lox.Proofs.Lines.Grammar
import Lox.Proofs.Lines.Session
import Lox.Proofs.Token.Newline

/-!
# One source behind another

A source that runs to its end and a source behind it, run one after the other, do the same as one
source that holds both on consecutive lines. The two are scanned, parsed, checked and bound on their
own, and nothing but the state goes from the first to the second.
-/

namespace Lox

open Resolution

/-! ### Programs one behind another -/

theorem resolve_append (p q : List (Stmt Unit)) : resolve (p ++ q) = resolve p ++ resolve q := by
  unfold resolve
  induction p with
  | nil => rfl
  | cons s ss ih => rw [List.cons_append, Stmt.resolveAll, Stmt.resolveAll, after_top, ih]; rfl

theorem staticErrors_append (p q : List (Stmt Unit)) :
    staticErrors (p ++ q) = staticErrors p ++ staticErrors q := by
  unfold staticErrors
  induction p with
  | nil => rfl
  | cons s ss ih =>
      rw [List.cons_append, Stmt.faultsAll, Stmt.faultsAll, after_top, ih, List.append_assoc]

theorem runAll_append (n : Nat) (ss others : List (Stmt Site)) (σ : State) :
    runAll n (ss ++ others) σ = (runAll n ss σ).bind fun _ σ => runAll n others σ := by
  induction ss generalizing σ with
  | nil => rfl
  | cons s ss ih =>
      rw [List.cons_append, runAll, runAll]
      cases Stmt.exec n s σ with
      | ok c σ' => exact ih σ'
      | error e σ' => rfl
      | broken σ' => rfl
      | outOfFuel => rfl

/-! ### Sources on consecutive lines -/

/-- Two sources on consecutive lines. -/
def joined (first second : Bytes) : Bytes :=
  first ++ 10 :: second

/-- By how much the lines of the second source are moved. -/
def lineShift (first : Bytes) : Int :=
  (Scan.source first).endLine

section Sources

variable {first second : Bytes}

theorem Accepted.scan_joined (hfirst : Accepted first) (second : Bytes) :
    Scan.source (joined first second) =
      (Scan.source first).followedBy ((Scan.source second).renumber (· + lineShift first)) := by
  refine Scan.source_newline first second fun e he => ?_
  rw [hfirst.parsed.1] at he
  cases he

theorem Accepted.parsed_joined (hfirst : Accepted first) (hsecond : Accepted second) :
    (Reading.ofSource (joined first second)).parsed =
      ⟨(Reading.ofSource first).program ++
        Stmt.renumberAll (· + lineShift first) (Reading.ofSource second).program, []⟩ := by
  have hmoved := Parsed.ofTokens_renumber (· + lineShift first) hsecond.parsed.2
  have happend := Parsed.ofTokens_append hfirst.parsed.2 (congrArg Parsed.errors hmoved)
  rw [hmoved] at happend
  rw [Reading.ofSource, hfirst.scan_joined]
  exact happend

/-- The names of both sources are bound as they are bound in each of them. -/
theorem Accepted.resolve_joined (hfirst : Accepted first) (hsecond : Accepted second) :
    resolve (Reading.ofSource (joined first second)).program =
      resolve (Reading.ofSource first).program ++
        Stmt.renumberAll (· + lineShift first) (resolve (Reading.ofSource second).program) := by
  rw [Reading.program, hfirst.parsed_joined hsecond, resolve_append, resolve_renumber]

theorem Accepted.joined (hfirst : Accepted first) (hsecond : Accepted second) :
    Accepted (joined first second) := by
  have hscan : (Scan.source (Lox.joined first second)).errors = [] := by
    rw [hfirst.scan_joined, Scan.followedBy, hfirst.parsed.1, Scan.renumber, hsecond.parsed.1]
    rfl
  have hstatic : staticErrors (Reading.ofSource (Lox.joined first second)).program = [] := by
    rw [Reading.program, hfirst.parsed_joined hsecond, staticErrors_append, staticErrors_renumber,
      hfirst.staticErrors_eq_nil, hsecond.staticErrors_eq_nil]
    rfl
  constructor
  · have hdiagnostics : (Reading.ofSource (Lox.joined first second)).diagnostics = [] := by
      rw [Reading.diagnostics, hfirst.parsed_joined hsecond, Scan.diagnostics]
      simp only [Reading.ofSource, hscan, List.map_nil, List.append_nil]
    rw [hdiagnostics]
    rfl
  · rw [hstatic]
    rfl

/-- Without lines, the second program is the same whether it stands alone or behind the first. -/
theorem Accepted.unlined_joined (hsecond : Accepted second) (k : Int) :
    Stmt.renumberAll unlined (Stmt.renumberAll (· + k) (Reading.ofSource second).program) =
      Stmt.renumberAll unlined (Reading.ofSource second).program := by
  have hmoved := Parsed.ofTokens_renumber (· + k) hsecond.parsed.2
  have hboth := Parsed.ofTokens_renumber unlined (congrArg Parsed.errors hmoved)
  rw [hmoved, List.map_map] at hboth
  exact congrArg Parsed.program (hboth.symm.trans (Parsed.ofTokens_renumber unlined hsecond.parsed.2))

end Sources

/-! ### Runs -/

theorem runAll_ok_mono {n₀ n : Nat} (hle : n₀ ≤ n) {ss : List (Stmt Site)} {σ σ₁ : State}
    (h : runAll n₀ ss σ = .ok () σ₁) : runAll n ss σ = .ok () σ₁ := by
  rcases runAll_upTo hle ss σ with hout | heq
  · rw [h] at hout
    cases hout
  · exact heq.symm.trans h

theorem runAll_eq_or_outOfFuel {n₀ : Nat} {ss : List (Stmt Site)} {σ σ₁ : State}
    (h : runAll n₀ ss σ = .ok () σ₁) (n : Nat) :
    runAll n ss σ = .ok () σ₁ ∨ runAll n ss σ = .outOfFuel := by
  rcases Nat.le_total n n₀ with hle | hle
  · rcases runAll_upTo hle ss σ with hout | heq
    · exact .inr hout
    · exact .inl (heq.trans h)
  · exact .inl (runAll_ok_mono hle h)

namespace Session

/-- A run without an error: the source was accepted, and its program ran to its end. -/
theorem run_ok {n : Nat} {source : Bytes} {session after : Session} {report : Report}
    (h : session.run n source = .done (report, after)) (hok : report.status = .ok) :
    Accepted source ∧ report.diagnostics = [] ∧ report.printed = output after.state.printed ∧
      runAll n (resolve (Reading.ofSource source).program) session.entry = .ok () after.state := by
  cases finishes_of_run h with
  | refused => cases hok
  | ended haccepted hend => exact ⟨haccepted, rfl, rfl, hend⟩
  | stopped => cases hok

theorem run_mono {n m : Nat} (hle : n ≤ m) {source : Bytes} {session : Session}
    (h : session.run n source ≠ .outOfFuel) :
    session.run m source = session.run n source := by
  by_cases haccepted : Accepted source
  · rw [run_of_accepted haccepted] at h ⊢
    rw [run_of_accepted haccepted]
    rcases runAll_upTo hle (resolve (Reading.ofSource source).program) session.entry with
      hout | heq
    · rw [hout] at h
      exact absurd rfl h
    · rw [heq]
  · obtain ⟨diagnostics, events, hrun⟩ := run_of_not_accepted haccepted
    rw [hrun, hrun]

section Joined

variable {first second : Bytes} {session mid : Session}

/-- Where the first source has ended, the second one runs alike on its own and behind it. -/
theorem run_joined (hfirst : Accepted first) (hsecond : Accepted second) {n : Nat}
    (hrun : runAll n (resolve (Reading.ofSource first).program) session.entry =
      .ok () mid.state)
    (henv : mid.state.env = State.globals) :
    (mid.run n second).Both (Corresponds (output mid.state.printed))
      (session.run n (joined first second)) := by
  rw [run_of_accepted hsecond, run_of_accepted (hfirst.joined hsecond),
    hfirst.resolve_joined hsecond, runAll_append, hrun]
  refine settle_corresponds ?_ _ _
  -- Both programs are the same without lines, and so are the states in which they start.
  have hprogram : Stmt.renumberAll unlined
      (Stmt.renumberAll (· + lineShift first) (resolve (Reading.ofSource second).program)) =
        Stmt.renumberAll unlined (resolve (Reading.ofSource second).program) := by
    rw [← resolve_renumber, ← resolve_renumber, hsecond.unlined_joined, resolve_renumber]
  have hstate : mid.state.renumber unlined [] =
      mid.entry.renumber unlined mid.state.printed := by
    rw [entry, ← henv]
    simp only [State.renumber, List.append_nil, List.nil_append]
  rw [← runAll_renumber, ← hprogram, ← hstate, runAll_renumber]
  rfl

theorem run_joined_outOfFuel (hfirst : Accepted first) (hsecond : Accepted second) {n : Nat}
    (hrun : runAll n (resolve (Reading.ofSource first).program) session.entry = .outOfFuel) :
    session.run n (joined first second) = .outOfFuel := by
  rw [run_of_accepted (hfirst.joined hsecond), hfirst.resolve_joined hsecond, runAll_append, hrun]
  rfl

end Joined

section Reachable

variable {clock : List Int} {fuel n₀ : Nat} {steps : List Step} {answers : List Answer}
  {session mid : Session} {first second : Bytes} {report : Report}

theorem sound_of_reachable (hreach : (start clock).play fuel steps = .done (answers, session))
    (hfirst : session.run n₀ first = .done (report, mid)) (hok : report.status = .ok)
    (second : Bytes) :
    mid.state.env = State.globals ∧
      mid.state.Sound (Visited (steps ++ [.run first, .run second])) := by
  obtain ⟨haccepted, -, -, hrun⟩ := run_ok hfirst hok
  have hsession : session.state.Sound (Visited (steps ++ [.run first, .run second])) :=
    sound_play fuel steps (fun _ hstep => List.mem_append_left _ hstep) (sound_start clock _) hreach
  have hhosts := hosts_visited (steps ++ [.run first, .run second])
  obtain ⟨hmeets, -⟩ := hhosts.meets_program n₀ (hhosts.start (by simp) haccepted)
    (entry_sound hsession) rfl fun _ _ => trivial
  rw [resolve] at hrun
  rw [hrun] at hmeets
  exact ⟨hmeets.env, hmeets.sound⟩

theorem run_ne_broken {n : Nat} {all : List Step} (h : mid.state.Sound (Visited all))
    (hmem : Step.run second ∈ all) : mid.run n second ≠ .broken := by
  intro hbroken
  refine (sound_step n h hmem).1 ?_
  rw [step, hbroken]
  rfl

/-- A source that has run without an error, and a source behind it that is accepted, do the same one
after the other and joined by a line feed, in every session that can be reached. -/
theorem session_joined (hreach : (start clock).play fuel steps = .done (answers, session))
    (hfirst : session.run n₀ first = .done (report, mid)) (hok : report.status = .ok)
    (hsecond : Accepted second) :
    resolve (Reading.ofSource (joined first second)).program =
      resolve (Reading.ofSource first).program ++
        Stmt.renumberAll (· + lineShift first) (resolve (Reading.ofSource second).program) ∧
    ((∀ n, mid.run n second = .outOfFuel ∧ session.run n (joined first second) = .outOfFuel) ∨
      ∃ n r after r' after', mid.run n second = .done (r, after) ∧
        session.run n (joined first second) = .done (r', after') ∧
        r'.status = r.status ∧ r'.printed = report.printed ++ r.printed ∧
        r'.diagnostics.map Diagnostic.unlined =
          (report.diagnostics ++ r.diagnostics).map Diagnostic.unlined ∧
        ∀ m more, (after'.play m more).map (·.1.map Answer.seen) =
          (after.play m more).map (·.1.map Answer.seen)) := by
  obtain ⟨haccepted, hdiagnostics, hprinted, hrun⟩ := run_ok hfirst hok
  obtain ⟨henv, hsound⟩ := sound_of_reachable hreach hfirst hok second
  refine ⟨haccepted.resolve_joined hsecond, ?_⟩
  by_cases hdiverges : ∀ n, mid.run n second = .outOfFuel
  · refine .inl fun n => ⟨hdiverges n, ?_⟩
    rcases runAll_eq_or_outOfFuel hrun n with hended | hout
    · exact (run_joined haccepted hsecond hended henv).of_outOfFuel (hdiverges n)
    · exact run_joined_outOfFuel haccepted hsecond hout
  · obtain ⟨n₁, hn₁⟩ := Classical.not_forall.mp hdiverges
    -- Fuel that is enough for both sources.
    have hended := runAll_ok_mono (Nat.le_max_left n₀ n₁) hrun
    have hboth := run_joined haccepted hsecond hended henv
    have hsame := run_mono (Nat.le_max_right n₀ n₁) hn₁
    cases hend : mid.run (max n₀ n₁) second with
    | done result =>
        obtain ⟨r, after⟩ := result
        obtain ⟨⟨r', after'⟩, hjoined, hstatus, houtput, hlines, halike⟩ := hboth.of_done hend
        refine .inr ⟨max n₀ n₁, r, after, r', after', hend, hjoined, hstatus, ?_, ?_, halike.play⟩
        · rw [houtput, hprinted]
        · rw [hlines, hdiagnostics, List.nil_append]
    | broken => exact absurd hend (run_ne_broken hsound (by simp))
    | outOfFuel => exact absurd (hsame.symm.trans hend) hn₁

end Reachable

/-- A function of the first source is called by the second one, which then stops because it gives
too many arguments. -/
theorem session_joined_closure :
    let first := bytes "var a=1;fun f(){print a;}f();"
    let second := bytes "a=2;f();f(1);"
    ∃ report mid n r after r' after', (start []).run 12 first = .done (report, mid) ∧
      report.status = .ok ∧ Accepted second ∧ mid.run n second = .done (r, after) ∧
      (start []).run n (joined first second) = .done (r', after') ∧ r'.status = r.status ∧
      r'.printed = report.printed ++ r.printed := by
  intro first second
  have hends : ((start []).run 12 first).any (fun a => a.1.status = .ok &&
      (a.2.run 12 second).any fun b => b.1.status = .runtimeError) = true := by
    decide +kernel
  have haccepted : Accepted second := by
    decide +kernel
  obtain ⟨⟨report, mid⟩, hfirst, hboth⟩ := Ending.any_eq_true.mp hends
  obtain ⟨hok, hstops⟩ := Bool.and_eq_true_iff.mp hboth
  obtain ⟨b, hsecond, -⟩ := Ending.any_eq_true.mp hstops
  have hreach : (start []).play 0 [] = .done ([], start []) := rfl
  obtain ⟨-, hdiverges | hends⟩ :=
    session_joined hreach hfirst (of_decide_eq_true hok) haccepted
  · have hout := (hdiverges 12).1
    rw [hsecond] at hout
    cases hout
  · obtain ⟨n, r, after, r', after', hrun, hjoined, hstatus, hprinted, -⟩ := hends
    exact ⟨report, mid, n, r, after, r', after', hfirst, of_decide_eq_true hok, haccepted, hrun,
      hjoined, hstatus, hprinted⟩

end Session

end Lox
