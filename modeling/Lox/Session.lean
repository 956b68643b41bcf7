import Lox.Eval
import Lox.Resolution.Bind
import Lox.Resolution.Check
import Lox.Session.Event
import Lox.Token.Scan
import Lox.Tree.Grammar.Statement
import Lox.Tree.Sites
import Lox.Tree.Uses

/-!
Sessions: sources that run one after another on the same globals. A source with a syntactic or static
error does not run at all; one with a runtime error keeps what it did before.
-/

namespace Lox

/-- A source with its tokens and statements. -/
structure Reading where
  scan : Scan
  parsed : Parsed

namespace Reading

def ofSource (source : Bytes) : Reading :=
  let scan := Scan.source source
  ⟨scan, .ofTokens scan.tokens⟩

def program (r : Reading) : List (Stmt Unit) :=
  r.parsed.program

def diagnostics (r : Reading) : List Diagnostic :=
  r.scan.diagnostics ++ r.parsed.errors.map (SyntaxError.diagnostic r.scan.endLine)

def events (r : Reading) : List Event :=
  [.scanned r.scan.listing.length, .parsed r.program.length r.diagnostics.length]

end Reading

/-- A result, unless the computation broke or ran out of fuel. -/
inductive Ending (α : Type) where
  | done (value : α)
  | broken
  | outOfFuel

def Ending.map {α β : Type} (f : α → β) : Ending α → Ending β
  | .done value => .done (f value)
  | .broken => .broken
  | .outOfFuel => .outOfFuel

/-- Goes on with a result. -/
def Ending.bind {α β : Type} (ending : Ending α) (f : α → Ending β) : Ending β :=
  match ending with
  | .done value => f value
  | .broken => .broken
  | .outOfFuel => .outOfFuel

/-- Why a program stops before its end. A program without static errors does not break. -/
inductive Halt where
  | error (e : RuntimeError)
  | broken

/-- A program that was run, to its end or up to a halt. -/
structure Execution where
  halt : Option Halt
  state : State

/-- Printed lines in the order of printing. -/
def Execution.printed (x : Execution) : Bytes :=
  x.state.printed.reverse.flatMap Bytes.line

def Execution.ofOutcome : Outcome Unit → Ending Execution
  | .ok _ σ => .done ⟨none, σ⟩
  | .error e σ => .done ⟨some (.error e), σ⟩
  | .broken σ => .done ⟨some .broken, σ⟩
  | .outOfFuel => .outOfFuel

/-- Runs a program from a state, which keeps no earlier output. -/
def execute (fuel : Nat) (program : List (Stmt Site)) (σ : State) : Ending Execution :=
  Execution.ofOutcome (interpret fuel program { σ with printed := [] })

/-- What can be seen of a source without running it: its statements, if it has no fault. -/
structure Outline where
  program : Option (List (Stmt Unit))
  diagnostics : List Diagnostic
  events : List Event

def Outline.ofSource (source : Bytes) : Outline :=
  let reading := Reading.ofSource source
  { program := if Diagnostic.hasErrors reading.diagnostics then none else some reading.program
    diagnostics := reading.diagnostics
    events := reading.events }

def Outline.errorText (o : Outline) : Bytes :=
  Diagnostic.report o.diagnostics

/-- What a source shows that is run in a session. -/
structure Report where
  status : Status
  printed : Bytes
  diagnostics : List Diagnostic
  events : List Event

/-- The diagnostics as the user sees them. -/
def Report.errorText (r : Report) : Bytes :=
  Diagnostic.report r.diagnostics

structure Session where
  state : State

namespace Session

def start (clock : List Int) : Session :=
  ⟨.initial clock⟩

/-- A source that is refused before it runs. -/
def refused (diagnostics : List Diagnostic) (events : List Event) : Report :=
  ⟨.staticError, [], diagnostics, events⟩

/-- What a source shows that has run, and the session behind it. -/
def settle (events : List Event) (x : Execution) : Ending (Report × Session) :=
  match x.halt with
  | none => .done (⟨.ok, x.printed, [], events ++ [.executed]⟩, ⟨x.state⟩)
  | some (.error e) =>
      .done (⟨.runtimeError, x.printed, [e.diagnostic], events ++ [.stopped e.token.line]⟩, ⟨x.state⟩)
  | some .broken => .broken

def run (fuel : Nat) (source : Bytes) (session : Session) : Ending (Report × Session) :=
  let reading := Reading.ofSource source
  if Diagnostic.hasErrors reading.diagnostics then
    .done (refused reading.diagnostics reading.events, session)
  else
    let program := resolve reading.program
    let diagnostics := (staticErrors reading.program).map StaticError.diagnostic
    let events := reading.events ++ [.resolved (localUses program) diagnostics.length]
    if Diagnostic.hasErrors diagnostics then
      .done (refused diagnostics events, session)
    else
      (execute fuel program session.state).bind (settle events)

/-- A step reads a source, and may run it. -/
inductive Step where
  | run (source : Bytes)
  | parse (source : Bytes)

inductive Answer where
  | ran (report : Report)
  | parsed (outline : Outline)

def step (fuel : Nat) (session : Session) : Step → Ending (Answer × Session)
  | .run source => (session.run fuel source).map fun (report, session) => (.ran report, session)
  | .parse source => .done (.parsed (.ofSource source), session)

/-- Takes one step after another. -/
def play (fuel : Nat) (session : Session) : List Step → Ending (List Answer × Session)
  | [] => .done ([], session)
  | step :: steps =>
      (session.step fuel step).bind fun (answer, session) =>
        (session.play fuel steps).map fun (answers, session) => (answer :: answers, session)

end Session

/-- A program that was run whatever its faults; it may break. -/
structure Forced where
  diagnostics : List Diagnostic
  execution : Execution

namespace Forced

def ofProgram (fuel : Nat) (program : List (Stmt Unit)) (σ : State) : Ending Forced :=
  (execute fuel (resolve program) σ).map fun x =>
    ⟨(staticErrors program).map StaticError.diagnostic, x⟩

def ofSource (fuel : Nat) (source : Bytes) (σ : State) : Ending Forced :=
  let reading := Reading.ofSource source
  (ofProgram fuel reading.program σ).map fun forced =>
    { forced with diagnostics := reading.diagnostics ++ forced.diagnostics }

/-- Runs one source after another from the state that the one before leaves, until one breaks. -/
def play (fuel : Nat) (σ : State) : List Bytes → Ending (List Forced)
  | [] => .done []
  | source :: sources =>
      (ofSource fuel source σ).bind fun forced =>
        match forced.execution.halt with
        | some .broken => .broken
        | _ => (play fuel forced.execution.state sources).map (forced :: ·)

/-- Runs a program without binding its names first. -/
def ofUnbound (fuel : Nat) (program : List (Stmt Unit)) (σ : State) : Ending Forced :=
  (execute fuel (unbound program) σ).map fun x => ⟨[], x⟩

end Forced

end Lox
