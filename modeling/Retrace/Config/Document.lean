import Retrace.Config.Basic
import Retrace.Toml.Reader
/-!
# Configuration files

A configuration is written in TOML as four tables, one for each part. `Config.toml` writes every
field; `Config.ofToml?` reads any of them and takes the rest from the standard configuration. Keys
and tables it does not know are ignored, a known key with a value of the wrong type is refused.

A part may also be given as an array of its fields in their order.
-/

namespace Retrace

open Toml (Value)

/-- A field of a part of the configuration. -/
inductive Setting where
  | number (n : Nat)
  | switch (on : Bool)
deriving DecidableEq, Repr

/-- A setting as a TOML value. -/
def Setting.text : Setting → String
  | number n => decimalText n
  | switch true => "true"
  | switch false => "false"

/-- A part of the configuration, as a named table. -/
structure ConfigSection where
  name : String
  settings : List (String × Setting)

/-- The lines of a section: its header and one line for each field. -/
def ConfigSection.text (s : ConfigSection) : String :=
  "[" ++ s.name ++ "]\n"
    ++ String.join (s.settings.map fun (key, setting) => key ++ " = " ++ setting.text ++ "\n")

/-- The fields of a section that a document gives, by name. -/
abbrev GivenFields := List (String × Value)

namespace GivenFields

/-- The fields with the given names in a value that stands for a section: by name in a table, by
position in an array, and none of them in a date. -/
def ofValue? (names : List String) : Value → Option GivenFields
  | .table members => some members
  | .array items => some (names.zip items)
  | .dateTime _ => some []
  | _ => none

/-- The fields of a section of a document, none if the section is missing. -/
def ofSection? (document : List (String × Value)) (name : String) (names : List String) :
    Option GivenFields :=
  match document.lookup name with
  | none => some []
  | some v => ofValue? names v

/-- A number of 64 bits. -/
def number (given : GivenFields) (name : String) (default : Nat) : Option Nat :=
  match given.lookup name with
  | none => some default
  | some (.integer n) => if 0 ≤ n ∧ n < (1 <<< 64 : Nat) then some n.toNat else none
  | some _ => none

/-- A truth value. -/
def switch (given : GivenFields) (name : String) (default : Bool) : Option Bool :=
  match given.lookup name with
  | none => some default
  | some (.boolean b) => some b
  | some _ => none

end GivenFields

namespace Config

/-- The parts of a configuration, in the order they are written. -/
def sections (c : Config) : List ConfigSection := [
  ⟨"history", [
    ("max_history", .number c.history.maxHistory),
    ("checkpoint_interval", .number c.history.checkpointInterval)]⟩,
  ⟨"playback", [
    ("speed_ms", .number c.playback.speedMs),
    ("min_delay_ms", .number c.playback.minDelayMs),
    ("max_delay_ms", .number c.playback.maxDelayMs),
    ("pause_poll_ms", .number c.playback.pausePollMs),
    ("turbo", .switch c.playback.turbo)]⟩,
  ⟨"execution", [
    ("max_micro_steps", .number c.maxMicroSteps)]⟩,
  ⟨"interpreter", [
    ("max_steps", .number c.player.maxSteps),
    ("max_stack_size", .number c.player.maxStackSize)]⟩]

/-- A configuration as a document, a blank line between its parts. -/
def toml (c : Config) : String := "\n".intercalate (c.sections.map ConfigSection.text)

/-- The configuration that the tables of a document give. -/
def ofTables? (document : List (String × Value)) : Option Config := do
  let d := standard
  let h ← GivenFields.ofSection? document "history" ["max_history", "checkpoint_interval"]
  let maxHistory ← h.number "max_history" d.history.maxHistory
  let checkpointInterval ← h.number "checkpoint_interval" d.history.checkpointInterval
  let p ← GivenFields.ofSection? document "playback"
    ["speed_ms", "min_delay_ms", "max_delay_ms", "pause_poll_ms", "turbo"]
  let speedMs ← p.number "speed_ms" d.playback.speedMs
  let minDelayMs ← p.number "min_delay_ms" d.playback.minDelayMs
  let maxDelayMs ← p.number "max_delay_ms" d.playback.maxDelayMs
  let pausePollMs ← p.number "pause_poll_ms" d.playback.pausePollMs
  let turbo ← p.switch "turbo" d.playback.turbo
  let e ← GivenFields.ofSection? document "execution" ["max_micro_steps"]
  let maxMicroSteps ← e.number "max_micro_steps" d.maxMicroSteps
  let i ← GivenFields.ofSection? document "interpreter" ["max_steps", "max_stack_size"]
  let maxSteps ← i.number "max_steps" d.player.maxSteps
  let maxStackSize ← i.number "max_stack_size" d.player.maxStackSize
  some ⟨⟨maxHistory, checkpointInterval⟩, ⟨speedMs, minDelayMs, maxDelayMs, pausePollMs, turbo⟩,
    maxMicroSteps, ⟨maxSteps, maxStackSize⟩⟩

/-- The configuration that a document gives, valid or not. -/
def ofToml? (text : String) : Option Config := (Toml.parse? text).bind ofTables?

end Config

/-- What can be wrong with a configuration document. -/
inductive ConfigFailure where
  /-- It is not TOML, or a field has a value of the wrong type. -/
  | malformed
  | invalid (v : ConfigViolation)
deriving DecidableEq, Repr

def ConfigFailure.message : ConfigFailure → String
  | malformed => "Failed to parse config file as TOML"
  | invalid v => v.message

/-- Reads a configuration and checks it. -/
def Config.read (text : String) : Except ConfigFailure Config :=
  match Config.ofToml? text with
  | none => .error .malformed
  | some c =>
    match c.violation? with
    | some v => .error (.invalid v)
    | none => .ok c

end Retrace
