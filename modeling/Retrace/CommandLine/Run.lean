import Retrace.CommandLine.Arguments
import Retrace.CommandLine.Report
import Retrace.Config.File
/-!
# Running a command

A command gets its files already read and gives what it prints and, if it fails, a chain of messages,
the outermost first. A replay prepares a session (`prepare`), plays it to its end and reports
(`conclude`); between the two, time passes, and whoever waits for it prints a line for each event
(`eventLine?`).
-/

namespace Retrace.CommandLine

/-- What came of a command. -/
structure Outcome where
  /-- What was printed. -/
  output : String
  /-- What is said of the failure, nothing if there was none. -/
  failure : List String
deriving DecidableEq, Repr

def Outcome.code (o : Outcome) : Nat := if o.failure.isEmpty then 0 else 1

/-- The lines of a cause: `label` stands before the first of them, and the others are indented as
far. -/
def causeLines (label : String) (message : String) : List String :=
  let indent := String.ofList (List.replicate label.length ' ')
  match message.splitOn "\n" with
  | [] => []
  | first :: rest => (label ++ first) :: rest.map (indent ++ ·)

/-- A chain of messages as text. Causes are numbered if there are several. -/
def failureText : List String → String
  | [] => ""
  | [message] => "Error: " ++ message ++ "\n"
  | [message, cause] =>
    "\n".intercalate (["Error: " ++ message, "", "Caused by:"] ++ causeLines "    " cause) ++ "\n"
  | message :: causes =>
    let numbered := causes.zipIdx.flatMap fun (cause, i) =>
      causeLines (alignRight 4 (decimalText i) ++ ": ") cause
    "\n".intercalate (["Error: " ++ message, "", "Caused by:"] ++ numbered) ++ "\n"

/-- What is said of a trace file that cannot be read. -/
def unreadableTrace (path : String) (e : FileFailure) : List String :=
  ["Failed to read trace file " ++ path, e.message]

/-- The configuration for a replay: that of the file, if there is one, changed by the options. -/
def ReplayOptions.configure (options : ReplayOptions) (c : Config) : Config :=
  let c := options.speed.elim c c.withSpeed
  let c := if options.turbo then c.withTurbo true else c
  options.maxHistory.elim c c.withMaxHistory

/-- A session with the trace of a replay, started unless the trace is blank. -/
def prepare (configFile : Option File) (trace : File) (options : ReplayOptions) :
    Except (List String) Session := do
  let config ← match configFile with
    | none => .ok Config.standard
    | some file => (Config.load file).mapError ConfigFileFailure.chain
  let source ← trace.text.mapError (unreadableTrace trace.path)
  let s ← (Session.new? (options.configure config)).mapError
    fun e => ["Failed to create session", e.message]
  match (s.setSource source).1.start with
  | (s, .ok _) => .ok s
  | (_, .error e) => .error [e.message]

/-- Whether a line is printed for each step. -/
def ReplayOptions.printsSteps (options : ReplayOptions) : Bool := !options.quiet && !options.json

/-- The line printed for an event. -/
def eventLine? (options : ReplayOptions) : Event → Option String
  | .snapshot s => if options.printsSteps then some (stepLine s) else none
  | _ => none

/-- The failure that an event tells of. -/
def eventFailure? : Event → Option SessionFailure
  | .failed e => some e
  | _ => none

/-- The end of a replay: the report, and the first failure that was seen. -/
def conclude (options : ReplayOptions) (s : Session) (failure : Option SessionFailure)
    (nanoseconds : Nat) : Outcome :=
  let r := Report.ofSession s failure nanoseconds
  ⟨if options.json then r.tree.pretty ++ "\n" else r.text,
    failure.elim [] fun e => ["Replay halted", e.message]⟩

/-- Replays a trace without taking real time. -/
def replay (configFile : Option File) (trace : File) (options : ReplayOptions) : Outcome :=
  match prepare configFile trace options with
  | .error chain => ⟨"", chain⟩
  | .ok s =>
    let (s, events) := (s.await none).1.drain
    let steps := String.join ((events.toList.filterMap (eventLine? options)).map (· ++ "\n"))
    let report := conclude options s (events.toList.findSome? eventFailure?) 0
    ⟨steps ++ report.output, report.failure⟩

/-- Checks a trace and gives its size. -/
def inspect (trace : File) : Outcome :=
  match trace.text with
  | .error e => ⟨"", unreadableTrace trace.path e⟩
  | .ok source =>
    match Trace.read source with
    | .error e => ⟨"", ["Invalid trace file " ++ trace.path, e.message]⟩
    | .ok t =>
      let errors := t.entries.foldl (fun n e => if e.error.isSome then n + 1 else n) 0
      let lines := [
        "Trace: " ++ trace.path,
        "  micro-steps: " ++ decimalText t.entries.size,
        "  lines:       " ++ decimalText t.lineCount,
        "  max depth:   " ++ decimalText t.maxDepth]
        ++ (if 0 < errors then ["  errors:      " ++ decimalText errors] else [])
      ⟨String.join (lines.map (· ++ "\n")), []⟩

end Retrace.CommandLine
