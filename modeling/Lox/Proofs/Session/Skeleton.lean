import Lox.Proofs.Heap.Skeleton
import Lox.Proofs.Lines.Session
import Lox.Proofs.Session.Receivers

/-!
# The skeleton in a session

Over all states that a session comes to, within a run and between runs, chains of scopes and of classes
end, and what makes them up stays as it was made. A name that is declared again, and a class that is
derived from an earlier one of its own name, make something new beside the old. What the session has
printed is only added to.
-/

namespace Lox

open Resolution Eval

namespace Session

variable {V : Context → Place → Prop}

def Answer.printed : Answer → Bytes
  | .ran report => report.printed
  | .parsed _ => []

/-- A state that a session comes to, with all that was printed up to it. -/
structure Snapshot where
  state : State
  shown : Bytes

/-- The history of a session in which something was shown before. -/
def snapshots (fuel : Nat) (shown : Bytes) (session : Session) : List Step → List Snapshot
  | [] => [⟨session.state, shown⟩]
  | step :: steps =>
      ⟨session.state, shown⟩ ::
        ((session.passed fuel step).map (fun σ => ⟨σ, shown ++ output σ.printed⟩) ++
          match session.step fuel step with
          | .done (answer, session') => session'.snapshots fuel (shown ++ answer.printed) steps
          | _ => [])

theorem state_snapshots (fuel : Nat) (shown : Bytes) (session : Session) (steps : List Step) :
    (session.snapshots fuel shown steps).map Snapshot.state = session.history fuel steps := by
  induction steps generalizing session shown with
  | nil => rfl
  | cons step steps ih =>
      have hpassed : ((session.passed fuel step).map fun σ =>
          (⟨σ, shown ++ output σ.printed⟩ : Snapshot)).map Snapshot.state =
            session.passed fuel step := by
        rw [List.map_map]
        exact List.map_id _
      rw [snapshots, history, List.map_cons, List.map_append, hpassed]
      cases session.step fuel step with
      | done result =>
          obtain ⟨answer, session'⟩ := result
          simp only [ih]
      | broken => rfl
      | outOfFuel => rfl

/-- The last state of a session comes with what its steps have answered. -/
theorem getLast?_snapshots {fuel : Nat} {session after : Session} {steps : List Step}
    {answers : List Answer} (shown : Bytes)
    (hplay : session.play fuel steps = .done (answers, after)) :
    (session.snapshots fuel shown steps).getLast? =
      some ⟨after.state, shown ++ answers.flatMap Answer.printed⟩ := by
  induction steps generalizing session shown answers with
  | nil =>
      cases hplay
      simp [snapshots]
  | cons step steps ih =>
      obtain ⟨answer, next, others, hstep, hothers, rfl⟩ := play_cons hplay
      have hlast := ih (shown ++ answer.printed) hothers
      simp only [snapshots, hstep]
      rw [List.getLast?_cons, List.getLast?_append, hlast, List.flatMap_cons, ← List.append_assoc]
      rfl

/-! ### What is shown -/

theorem prefix_output {printed later : List Bytes} (h : printed <:+ later) :
    output printed <+: output later := by
  obtain ⟨newer, rfl⟩ := h
  rw [output_append]
  exact List.prefix_append _ _

theorem printed_of_step {fuel : Nat} {session session' : Session} {source : Bytes}
    (haccepted : Accepted source) {answer : Answer}
    (hdone : session.step fuel (.run source) = .done (answer, session')) :
    answer.printed = output session'.state.printed := by
  obtain ⟨report, rfl, hfinishes⟩ := finishes_of_step hdone
  cases hfinishes with
  | refused hrefused => exact absurd haccepted hrefused
  | ended => rfl
  | stopped => rfl

/-- States are built from statements, and each shows what the ones before it show and more. -/
structure Shows (V : Context → Place → Prop) (shown : Bytes) (snapshots : List Snapshot) :
    Prop where
  built : ∀ p ∈ snapshots, p.state.Built V
  since : ∀ p ∈ snapshots, shown <+: p.shown
  pairwise : snapshots.Pairwise fun p q => p.shown <+: q.shown

theorem Shows.cons {shown : Bytes} {σ : State} {later : List Snapshot} (hbuilt : σ.Built V)
    (h : Shows V shown later) : Shows V shown (⟨σ, shown⟩ :: later) where
  built := List.forall_mem_cons.mpr ⟨hbuilt, h.built⟩
  since := List.forall_mem_cons.mpr ⟨List.prefix_rfl, h.since⟩
  pairwise := List.pairwise_cons.mpr ⟨h.since, h.pairwise⟩

theorem Shows.append {shown more : Bytes} {first later : List Snapshot} (h : Shows V shown first)
    (hmore : shown <+: more) (hfirst : ∀ p ∈ first, p.shown <+: more)
    (hlater : Shows V more later) : Shows V shown (first ++ later) where
  built := List.forall_mem_append.mpr ⟨h.built, hlater.built⟩
  since := List.forall_mem_append.mpr
    ⟨h.since, fun p hp => hmore.trans (hlater.since p hp)⟩
  pairwise := List.pairwise_append.mpr
    ⟨h.pairwise, hlater.pairwise, fun p hp q hq => (hfirst p hp).trans (hlater.since q hq)⟩

/-- The states of a step print a beginning of what the step answers. -/
theorem building_passed (fuel : Nat) {all : List Step} {session : Session}
    (hbuilt : session.state.Built (Visited all)) (h : session.state.Sound (Visited all))
    {step : Step} (hstep : step ∈ all) :
    ∃ (before : State) (o : Outcome Unit),
      (building (Visited all)).Orderly before o (session.passed fuel step) ∧
      ∀ answer session', session.step fuel step = .done (answer, session') →
        session'.state.Built (Visited all) ∧
        ∀ τ ∈ session.passed fuel step, output τ.printed <+: answer.printed := by
  rcases runs_or_idle step with ⟨source, rfl, haccepted⟩ | hidle
  · have hentry : session.entry.Built (Visited all) := hbuilt.of_eq rfl rfl
    have hrun := building_holds.orderly_runHistory (walked_visited all) fuel (I := fun _ => True)
      (fun _ _ _ => trivial) (fun _ _ _ => trivial) ⟨source, hstep, haccepted, .start⟩
      (entry_sound h) rfl hentry trivial
    have horderly := hrun.cons building_holds List.suffix_rfl hentry
    rw [passed, if_pos haccepted]
    refine ⟨session.entry, _, horderly, fun answer session' hdone => ?_⟩
    have hend := state?_of_step haccepted hdone
    refine ⟨(horderly.leaves _ hend).2, fun τ hτ => ?_⟩
    rw [printed_of_step haccepted hdone]
    exact prefix_output (horderly.upTo τ hτ _ hend)
  · rw [passed_of_idle hidle]
    refine ⟨session.state, .ok () session.state,
      Conduct.orderly_nil (Outcome.leaves_ok.mpr ⟨List.suffix_rfl, hbuilt⟩), ?_⟩
    intro answer session' hdone
    rw [state_of_idle_step hidle hdone]
    exact ⟨hbuilt, by simp⟩

theorem shows_snapshots (fuel : Nat) {all : List Step} (steps : List Step)
    (hsub : ∀ step ∈ steps, step ∈ all) {session : Session}
    (hbuilt : session.state.Built (Visited all)) (h : session.state.Sound (Visited all))
    (shown : Bytes) : Shows (Visited all) shown (session.snapshots fuel shown steps) := by
  induction steps generalizing session shown with
  | nil => exact Shows.cons hbuilt ⟨by simp, by simp, .nil⟩
  | cons step steps ih =>
      rw [List.forall_mem_cons] at hsub
      obtain ⟨before, o, horderly, hdone⟩ := building_passed fuel hbuilt h hsub.1
      -- The states of a run hold only its own lines; what was shown before stands in front of them.
      have hpassed : Shows (Visited all) shown
          ((session.passed fuel step).map fun σ => ⟨σ, shown ++ output σ.printed⟩) := by
        refine ⟨?_, ?_, List.pairwise_map.mpr (horderly.pairwise.imp fun hprinted => ?_)⟩
        · exact List.forall_mem_map.mpr fun τ hτ => (horderly.since τ hτ).2
        · exact List.forall_mem_map.mpr fun τ _ => List.prefix_append _ _
        · exact (List.prefix_append_right_inj shown).mpr (prefix_output hprinted)
      refine Shows.cons hbuilt ?_
      cases hend : session.step fuel step with
      | done result =>
          obtain ⟨answer, session'⟩ := result
          obtain ⟨hbuilt', hprinted⟩ := hdone answer session' hend
          refine hpassed.append (List.prefix_append shown answer.printed) ?_
            (ih hsub.2 hbuilt' ((sound_step fuel h hsub.1).2 answer session' hend) _)
          refine List.forall_mem_map.mpr fun τ hτ => ?_
          exact (List.prefix_append_right_inj shown).mpr (hprinted τ hτ)
      | broken => simpa using hpassed
      | outOfFuel => simpa using hpassed

theorem built_start (clock : List Int) : (start clock).state.Built V where
  rooted id hid _ := Nat.lt_one_iff.mp hid
  classes c hc := by simp [start, State.initial] at hc

/-! ### The skeleton -/

/-- In every state of every session chains of scopes and classes end and are what look-ups follow; from
each state on to the later ones scopes keep their parents and names, functions and classes stay as
they are, and instances keep their classes and fields; and what is shown is only added to, up to all
that the steps have answered. -/
theorem skeleton_stays (clock : List Int) (fuel : Nat) (steps : List Step) :
    (∀ p ∈ (start clock).snapshots fuel [] steps, p.state.Grounded (Visited steps)) ∧
    ((start clock).snapshots fuel [] steps).Pairwise (fun p q =>
      p.state.Extends q.state ∧ p.shown <+: q.shown) ∧
    ∀ answers after, (start clock).play fuel steps = .done (answers, after) →
      ((start clock).snapshots fuel [] steps).getLast? =
        some ⟨after.state, answers.flatMap Answer.printed⟩ := by
  have hsound := sound_start clock (Visited steps)
  have horderly := orderly_history fuel steps (fun _ hstep => hstep) (homely_start clock) hsound
  have hshows := shows_snapshots fuel steps (fun _ hstep => hstep) (built_start clock) hsound []
  have hstates := state_snapshots fuel [] (start clock) steps
  rw [← hstates] at horderly
  refine ⟨fun p hp => ?_, ?_, fun answers after => getLast?_snapshots []⟩
  · have hheap := (horderly.since p.state (List.mem_map_of_mem hp)).2
    exact (hshows.built p hp).grounded hheap
  · exact (List.pairwise_map.mp horderly.pairwise).and hshows.pairwise

/-- A class is derived from an earlier one of its own name and declares a method twice. -/
theorem skeleton_stays_rebound :
    let steps : List Step :=
      [.run (bytes "class A{m(){}}"), .run (bytes "var B=A;class A<B{m(){}m(){print 1;}}"),
        .run (bytes "A().m();")]
    ∃ answers after, (start []).play 14 steps = .done (answers, after) ∧
      after.state.className 1 = after.state.className 0 ∧ after.state.superclass? 1 = some 0 ∧
      ((start []).snapshots 14 [] steps).getLast? = some ⟨after.state, bytes "1\n"⟩ ∧
      after.state.Grounded (Visited steps) := by
  intro steps
  obtain ⟨hgrounded, -, hlast⟩ := skeleton_stays [] 14 steps
  have hany : ((start []).play 14 steps).any (fun result =>
      result.2.state.className 1 == result.2.state.className 0 &&
        result.2.state.superclass? 1 == some 0 &&
        result.1.flatMap Answer.printed == bytes "1\n") = true := by
    decide +kernel
  obtain ⟨⟨answers, after⟩, hplay, hrebound⟩ := Ending.any_eq_true.mp hany
  simp only [Bool.and_eq_true, beq_iff_eq] at hrebound
  obtain ⟨⟨hname, hsuper⟩, hprinted⟩ := hrebound
  have hend := hlast answers after hplay
  rw [hprinted] at hend
  exact ⟨answers, after, hplay, hname, hsuper, hend, hgrounded _ (List.mem_of_getLast? hend)⟩

end Session

end Lox
