import Retrace.CommandLine.Run
/-!
# The program

Reads the files that a command names, runs the command and prints what came of it. A replay takes its
time: it sleeps until the next alarm of playback, and prints the lines of events as they happen.
-/

namespace Retrace.CommandLine

/-- Why the system could not read a file. The code that tells a path through a file from a directory
may come negated. -/
def failureOf (e : IO.Error) : FileFailure :=
  match e with
  | .noFileOrDirectory .. => .notFound
  | .permissionDenied .. => .permissionDenied
  | .inappropriateType _ code _ => if code = 20 ∨ code + 20 = 0 then .notDirectory else .isDirectory
  | e => .other (toString e)

/-- Reads a file. -/
def readText (path : String) : IO File := do
  try
    let bytes ← IO.FS.readBinFile path
    match String.fromUTF8? bytes with
    | some text => return ⟨path, .ok text⟩
    | none => return ⟨path, .error .notUtf8⟩
  catch e => return ⟨path, .error (failureOf e)⟩

/-- Reads the configuration file that was asked for, or else the one in the home directory if it is
there. -/
def readConfig (config : Option String) : IO (Option File) := do
  match config with
  | some path => some <$> readText path
  | none =>
    match ← IO.getEnv "HOME" with
    | none => return none
    | some home =>
      let file ← readText (home ++ "/.rewind.toml")
      match file.text with
      | .error .notFound => return none
      | .error .notDirectory => return none
      | _ => return some file

/-- Prints the lines of the events so far and gives the first failure. -/
def printEvents (options : ReplayOptions) (events : Array Event) (seen : Option SessionFailure) :
    IO (Option SessionFailure) := do
  let mut seen := seen
  for e in events do
    if let some line := eventLine? options e then IO.println line
    seen := seen <|> eventFailure? e
  return seen

/-- Plays a session in real time until its loop has ended. -/
partial def playOut (options : ReplayOptions) (s : Session) (seen : Option SessionFailure) :
    IO (Session × Option SessionFailure) := do
  let (s, events) := s.drain
  let seen ← printEvents options events seen
  if s.playback.awaitable.all fun run => !s.playback.hasLoop run then return (s, seen)
  match s.playback.next with
  | .now m => playOut options ⟨s.playback.move Execution.workload m⟩ seen
  | .at time =>
    IO.sleep (time - s.playback.clock).toUInt32
    playOut options ⟨s.playback.elapseTo time⟩ seen
  | .never => return (s, seen)

/-- Replays a trace in real time. -/
def replayInTime (configFile : Option File) (trace : File) (options : ReplayOptions) : IO Outcome := do
  match prepare configFile trace options with
  | .error chain => return ⟨"", chain⟩
  | .ok s =>
    let start ← IO.monoNanosNow
    let (s, failure) ← playOut options s none
    let finish ← IO.monoNanosNow
    return conclude options s failure (if s.execution.started then finish - start else 0)

/-- Prints what came of a command and gives the exit code. -/
def finish (o : Outcome) : IO UInt32 := do
  IO.print o.output
  IO.eprint (failureText o.failure)
  return o.code.toUInt32

/-- Does what was asked for. -/
def serve : Request → IO UInt32
  | .showVersion => do
    IO.println versionText
    return 0
  | .showHelp => do
    IO.println helpText
    return 0
  | .run _ (.inspect trace) => do finish (inspect (← readText trace))
  | .run config (.replay trace options) => do
    let configFile ← readConfig config
    finish (← replayInTime configFile (← readText trace) options)

end Retrace.CommandLine

def main (args : List String) : IO UInt32 := do
  match Retrace.CommandLine.parse (← IO.getEnv "REWIND_CONFIG") args with
  | .ok request => Retrace.CommandLine.serve request
  | .error e =>
    IO.eprintln ("error: " ++ e.message)
    return 2
