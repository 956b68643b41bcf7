import Lox.Shell.Command
import Lox.Shell.Timestamp
import Std.Time.DateTime.Timestamp

/-!
The command line: reads files and the keyboard, and writes what the command says.
-/

namespace Lox.Terminal

/-- A bound on the depth of evaluation that no machine reaches. -/
def fuel : Nat := 4611686018427387904

def toArray (s : Bytes) : ByteArray :=
  ⟨s.toArray⟩

def put (stream : IO.FS.Stream) (s : Bytes) : IO Unit := do
  stream.write (toArray s)
  stream.flush

def readFile (path : Bytes) : IO (Except ReadError Bytes) := do
  try
    let content ← IO.FS.readBinFile ((String.fromUTF8? (toArray path)).getD "")
    return .ok content.data.toList
  catch e =>
    match e with
    | .noFileOrDirectory .. => return .error ⟨path, .missing⟩
    | _ => return .error ⟨path, .directory⟩

def readFiles (paths : List Bytes) : IO Reader := do
  let contents ← paths.mapM fun path => return (path, ← readFile path)
  return fun path => (contents.lookup path).getD (.error ⟨path, .missing⟩)

def nanoseconds : IO Int := do
  return (← Std.Time.Timestamp.now).toNanosecondsSinceUnixEpoch.toInt

def surroundings (arguments : List Bytes) : IO Surroundings := do
  let home := ((← IO.getEnv "HOME").map bytes).filter (!·.isEmpty)
  let directory := bytes (← IO.currentDir).toString
  let read ← readFiles (Command.paths arguments home directory)
  let now ← nanoseconds
  return {
    directory := directory
    home := home
    read := read
    terminal := ← (← IO.getStderr).isTty
    time := Timestamp.text (now / 1000000000)
    clock := [now] }

/-- Reports a transcript and yields its exit code. -/
def finish : Ending Transcript → IO UInt32
  | .done transcript => do
      put (← IO.getStdout) transcript.out
      put (← IO.getStderr) transcript.err
      return transcript.exitCode.toUInt32
  | _ => return 1

/-- Answers inputs one by one. -/
def answerAll (level : LogLevel) (paints : Bool) :
    Command.Dialogue → List Prompt.Input → IO (Option Command.Dialogue)
  | d, [] => return some d
  | d, input :: inputs => do
      let now ← nanoseconds
      let d := { d with session.state.clock := [now] }
      match d.step fuel level paints (Timestamp.text (now / 1000000000)) input with
      | .done (out, err, d) =>
          put (← IO.getStdout) out
          put (← IO.getStderr) err
          answerAll level paints d inputs
      | _ => return none

/-- Reads and answers until the input ends or the user quits. -/
partial def converse (settings : Settings) (level : LogLevel) (paints shows : Bool)
    (d : Command.Dialogue) (line : Bytes) : IO UInt32 := do
  if shows then
    put (← IO.getStdout) (d.prompt.mark settings.prompt)
  let typed ← (← IO.getStdin).read 65536
  let all := line ++ typed.data.toList
  let text := Prompt.untilQuit true all
  let ended := typed.isEmpty || text.length < all.length
  let (inputs, rest) := if ended then (Prompt.inputs text, []) else Prompt.typed [] text
  match ← answerAll level paints d inputs with
  | none => return 1
  | some d =>
      if ended then
        put (← IO.getStdout) [Bytes.lineFeed]
        return 0
      else
        converse settings level paints shows d rest

end Lox.Terminal

open Lox Lox.Terminal

def main (arguments : List String) : IO UInt32 := do
  let arguments := arguments.map bytes
  let world ← surroundings arguments
  match Command.request arguments world with
  | .prompt settings level =>
      put (← IO.getStdout) Command.banner
      let paints := Painter.isOn settings.paints world.terminal
      converse settings level paints (← (← IO.getStdin).isTty) (.start world) []
  | _ => finish (Command.run fuel arguments world [])
