import Retrace.Decimal.Digits
/-!
# Failures

A `RunFailure` is what goes wrong inside a replayed program, a `SessionFailure` what a session tells
its user. Each has its wording here and nowhere else. A session words every limit as a runtime
failure.
-/

namespace Retrace

/-- What a replayed program can fail with. -/
inductive RunFailure where
  /-- The source was rejected. -/
  | load (detail : String)
  /-- The program raised an error. -/
  | runtime (message : String)
  /-- More steps were asked for than allowed. -/
  | stepLimit (steps : Nat)
  /-- The call stack grew deeper than allowed. -/
  | stackLimit (frames : Nat)
deriving DecidableEq, Repr

namespace RunFailure

/-- The wording of a failure of the program. -/
def message : RunFailure → String
  | load detail => "syntax error: " ++ detail
  | runtime message => "runtime error: " ++ message
  | stepLimit steps => "execution limit exceeded (" ++ decimalText steps ++ " steps)"
  | stackLimit frames => "stack size limit exceeded (" ++ decimalText frames ++ " frames)"

end RunFailure

/-- What a session can fail with. -/
inductive SessionFailure where
  /-- The source did not load. -/
  | load (detail : String)
  /-- The program failed while it ran. -/
  | runtime (message : String)
  /-- The session was given an invalid configuration. -/
  | config (detail : String)
  /-- The source was to be changed during a run. -/
  | sourceLocked
deriving DecidableEq, Repr

namespace SessionFailure

/-- The wording of a failure of the session. -/
def message : SessionFailure → String
  | load detail => "failed to load source: " ++ detail
  | runtime message => "runtime error: " ++ message
  | config detail => "invalid configuration: " ++ detail
  | sourceLocked => "source is read-only while execution is in progress"

/-- Whether observers are told of the failure. -/
def isReportable : SessionFailure → Bool
  | load _ => true
  | runtime _ => true
  | config _ => false
  | sourceLocked => false

/-- How a session words a failure of the program. -/
def ofRun : RunFailure → SessionFailure
  | .load detail => load detail
  | .runtime message => runtime message
  | .stepLimit steps => runtime (RunFailure.stepLimit steps).message
  | .stackLimit frames => runtime (RunFailure.stackLimit frames).message

end SessionFailure

end Retrace
