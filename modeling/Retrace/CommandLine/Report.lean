import Retrace.Session.Basic
import Retrace.CallTree.Render
import Retrace.CallTree.Document
/-!
# Reports of a replay

A replay prints a line for every snapshot (`stepLine`), and at its end a report: the call tree and the
counters, as text or as a JSON document. The measured time is given in nanoseconds.
-/

namespace Retrace.CommandLine

open Json (Tree)

/-- A text with blanks before it, at least as long as `width`. -/
def alignRight (width : Nat) (text : String) : String :=
  String.ofList (List.replicate (width - text.length) ' ') ++ text

/-- The line printed for a snapshot. -/
def stepLine (s : Snapshot) : String :=
  "step " ++ alignRight 6 (decimalText s.position.stepNumber)
    ++ "  line " ++ alignRight 4 (s.position.line.elim "-" decimalText)
    ++ "  depth " ++ alignRight 3 (decimalText s.depth)
    ++ "  " ++ s.innermostFrame?.elim "" Frame.functionName

/-- What is reported of a replay. -/
structure Report where
  forest : List CallTree
  counters : Counters
  /-- The number of snapshots retained. -/
  snapshots : Nat
  /-- What stopped the replay. -/
  failure : Option SessionFailure
  /-- The time from the start of the run to its end. -/
  nanoseconds : Nat

namespace Report

/-- The report of a session, in which the given failure was seen first. -/
def ofSession (s : Session) (failure : Option SessionFailure) (nanoseconds : Nat) : Report :=
  ⟨s.forest, s.execution.counters, s.execution.history.size, failure, nanoseconds⟩

/-- Milliseconds with one place. -/
def timeText (nanoseconds : Nat) : String :=
  let tenths := (nanoseconds + 50000) / 100000
  decimalText (tenths / 10) ++ "." ++ decimalText (tenths % 10)

/-- Milliseconds as a JSON number. -/
def timeTree (nanoseconds : Nat) : Tree :=
  match Binary64.ofRatio false nanoseconds 1000000 with
  | some x => .number (Json.doubleLiteral x)
  | none => .null

/-- The lines of a text, without the ends of the lines. -/
def lines (text : String) : List String :=
  let dropReturn (s : String) : String :=
    match s.toList.reverse with
    | '\r' :: rest => String.ofList rest.reverse
    | _ => s
  let parts := text.splitOn "\n"
  (if parts.getLast? = some "" then parts.dropLast else parts).map dropReturn

def text (r : Report) : String :=
  let tree :=
    if r.forest.isEmpty then ["  (no function calls)"]
    else (lines (CallTree.render r.forest)).map ("  " ++ ·)
  let metrics := [
    "  steps:           " ++ decimalText r.counters.totalSteps,
    "  function calls:  " ++ decimalText r.counters.functionCalls,
    "  max stack depth: " ++ decimalText r.counters.maxStackDepth,
    "  snapshots:       " ++ decimalText r.snapshots,
    "  time:            " ++ timeText r.nanoseconds ++ " ms"]
  String.join <|
    (["", "Call tree:"] ++ tree ++ ["", "Metrics:"] ++ metrics).map (· ++ "\n")

/-- The report as a document; the failure is left out if there is none. -/
def tree (r : Report) : Tree :=
  .record <|
    [("call_tree", CallTree.forestTree r.forest),
      ("metrics", .record [
        ("execution_time_ms", timeTree r.nanoseconds),
        ("total_steps", .nat r.counters.totalSteps),
        ("function_calls", .nat r.counters.functionCalls),
        ("max_stack_depth", .nat r.counters.maxStackDepth)]),
      ("snapshots", .nat r.snapshots)]
      ++ (match r.failure with | some e => [("error", .text e.message)] | none => [])

end Report

end Retrace.CommandLine
