import Lox.Session
import Lox.Shell.Flags
import Lox.Shell.Log
import Lox.Shell.Painter
import Lox.Shell.Path
import Lox.Shell.Prompt
import Lox.Shell.SettingsFile
import Lox.Tree.Dump

/-!
The command: it runs a script, dumps its tree, or answers at a prompt.
-/

namespace Lox

/-- What the command finds when it starts. -/
structure Surroundings where
  directory : Bytes
  home : Option Bytes
  read : Reader
  terminal : Bool
  time : Bytes
  clock : List Int

namespace Settings

inductive Fault where
  | unreadable (e : ReadError)
  | malformed (path : Bytes)
  | unknownLevel (path level : Bytes)
  deriving DecidableEq, Repr

def Fault.message : Fault → Bytes
  | .unreadable e => bytes "read config: " ++ e.message
  | .malformed path => bytes "parse config " ++ path ++ bytes ": yaml: malformed document"
  | .unknownLevel path level =>
      bytes "config " ++ path ++ bytes ": not a valid logrus Level: " ++ quoted level

/-- Settings without a file. -/
def initial (home : Option Bytes) : Settings :=
  { logLevel := bytes "warning"
    prompt := bytes "> "
    historyFile := match home with
      | some home => Path.within home (bytes ".lox_history")
      | none => []
    color := none }

/-- The file that is read when no other is named. -/
def defaultPath (home : Option Bytes) : Bytes :=
  match home with
  | some home => Path.within home (bytes ".loxrc.yml")
  | none => []

/-- Settings from the document of a file. -/
def ofFile (home : Option Bytes) (path document : Bytes) : Except Fault Settings :=
  match ofDocument? document with
  | none => .error (.malformed path)
  | some found =>
      let settings := (initial home).merge found
      match LogLevel.ofName? settings.logLevel with
      | some _ => .ok settings
      | none => .error (.unknownLevel path settings.logLevel)

/-- Settings from a file. Without a name there is none, and a file that nobody named may be missing. -/
def load (read : Reader) (home : Option Bytes) (path : Bytes) (explicit : Bool) :
    Except Fault Settings :=
  if path.isEmpty then
    .ok (initial home)
  else
    match read path with
    | .ok document => ofFile home path document
    | .error e =>
        if e.reason = .missing ∧ !explicit then .ok (initial home) else .error (.unreadable e)

end Settings

/-- What the command leaves behind. -/
structure Transcript where
  exitCode : Nat
  out : Bytes
  err : Bytes
  deriving DecidableEq, Repr

namespace Command

def usageCode : Nat := 64

def inputCode : Nat := 74

/-- The lines that a level shows of some events. -/
def logged (level : LogLevel) (time : Bytes) (events : List Event) : Bytes :=
  if level.showsEvents then events.flatMap (Log.line time) else []

/-- A file of settings that the flags name, or the default one. -/
def settingsPath (home : Option Bytes) (flags : Flags) : Bytes × Bool :=
  if flags.configPath.isEmpty then (Settings.defaultPath home, false) else (flags.configPath, true)

def dumpScript (level : LogLevel) (world : Surroundings) (path source : Bytes) : Transcript :=
  let outline := Outline.ofSource source
  { exitCode := match outline.program with
      | some _ => Status.ok.exitCode
      | none => Status.staticError.exitCode
    out := match outline.program with
      | some program => dump program
      | none => []
    err := logged level world.time (.runningScript path :: outline.events) ++
      outline.errorText }

def runScript (fuel : Nat) (level : LogLevel) (world : Surroundings) (path source : Bytes) :
    Ending Transcript :=
  ((Session.start world.clock).run fuel source).map fun (report, _) =>
    { exitCode := report.status.exitCode
      out := report.printed
      err := logged level world.time (.runningScript path :: report.events) ++
        report.errorText }

def script (fuel : Nat) (flags : Flags) (level : LogLevel) (world : Surroundings) (name : Bytes) :
    Ending Transcript :=
  let path := Path.absolute world.directory name
  match world.read path with
  | .error e =>
      .done ⟨inputCode, [], Bytes.line (bytes "cannot read " ++ name ++ bytes ": " ++ e.message)⟩
  | .ok source =>
      if flags.dumpTree then .done (dumpScript level world path source)
      else runScript fuel level world path source

def banner : Bytes :=
  Bytes.line (bytes "lox, Ctrl+D to quit")

/-- A prompt in use: the lines gathered so far and the session that runs them. -/
structure Dialogue where
  prompt : Prompt
  session : Session

def Dialogue.start (world : Surroundings) : Dialogue :=
  ⟨.empty, .start world.clock⟩

/-- Runs a source and says what it shows. -/
def answer (fuel : Nat) (level : LogLevel) (paints : Bool) (time source : Bytes)
    (session : Session) : Ending (Bytes × Bytes × Session) :=
  (session.run fuel source).map fun (report, session) =>
    (report.printed,
      logged level time report.events ++
        report.diagnostics.flatMap (fun d => Painter.paint paints (Bytes.line d.text)) ++
        logged level time [.lineDone report.status],
      session)

/-- What the prompt shows for one input. -/
def Dialogue.step (fuel : Nat) (level : LogLevel) (paints : Bool) (time : Bytes) (d : Dialogue)
    (input : Prompt.Input) : Ending (Bytes × Bytes × Dialogue) :=
  let (prompt, source) := d.prompt.feed input
  match source with
  | none => .done ([], [], { d with prompt })
  | some source =>
      if Prompt.isBlankSource source then
        .done ([], [], { d with prompt })
      else
        (answer fuel level paints time source d.session).map fun (out, err, session) =>
          (out, err, ⟨prompt, session⟩)

/-- What the prompt shows for all inputs up to their end. -/
def converse (fuel : Nat) (level : LogLevel) (paints : Bool) (time : Bytes) :
    Dialogue → List Prompt.Input → Ending (Bytes × Bytes)
  | _, [] => .done ([Bytes.lineFeed], [])
  | d, input :: inputs =>
      (d.step fuel level paints time input).bind fun (out, err, d) =>
        (converse fuel level paints time d inputs).map fun (outs, errs) => (out ++ outs, err ++ errs)

def prompt (fuel : Nat) (settings : Settings) (level : LogLevel) (world : Surroundings)
    (typed : Bytes) : Ending Transcript :=
  (converse fuel level (Painter.isOn settings.paints world.terminal) world.time (.start world)
    (Prompt.inputs typed)).map fun (out, err) => ⟨0, banner ++ out, err⟩

/-- An invocation that is refused, with its complaint and the usage. -/
def refused (complaint : Bytes) : Transcript :=
  ⟨usageCode, [], complaint⟩

/-- What the arguments ask for. -/
inductive Request where
  | refused (transcript : Transcript)
  | prompt (settings : Settings) (level : LogLevel)
  | script (flags : Flags) (level : LogLevel) (name : Bytes)

def request (arguments : List Bytes) (world : Surroundings) : Request :=
  match Flags.parse arguments with
  | .error e => .refused (refused ((e.message?.map Bytes.line).getD [] ++ Flags.usage))
  | .ok flags =>
      if 1 < flags.operands.length then
        .refused (refused Flags.usage)
      else
        let (path, explicit) := settingsPath world.home flags
        match Settings.load world.read world.home path explicit with
        | .error fault => .refused (refused (Bytes.line fault.message))
        | .ok settings =>
            let level := settings.level flags.verbose
            match flags.operands with
            | [] => .prompt settings level
            | name :: _ => .script flags level name

/-- The files that a command with the given arguments reads. -/
def paths (arguments : List Bytes) (home : Option Bytes) (directory : Bytes) : List Bytes :=
  match Flags.parse arguments with
  | .error _ => []
  | .ok flags => (settingsPath home flags).1 :: flags.operands.map (Path.absolute directory)

/-- Runs the command with the given arguments and everything that is typed. -/
def run (fuel : Nat) (arguments : List Bytes) (world : Surroundings) (typed : Bytes) :
    Ending Transcript :=
  match request arguments world with
  | .refused transcript => .done transcript
  | .prompt settings level => prompt fuel settings level world typed
  | .script flags level name => script fuel flags level world name

end Command

end Lox
