import Retrace.Decimal.Digits
/-!
# Command-line arguments

The arguments name a command, `replay` or `inspect`, with a trace file and options. They are read from
left to right (`parse`), and the first fault ends the reading. An option may be given once, except
that `--config` may stand before and after the command, where the latter wins. After `--` everything
is a file name.

The path of the configuration may also come from the environment, for which the arguments leave
nothing to be said unless they give no path.
-/

namespace Retrace.CommandLine

/-- What a replay is asked to do. -/
structure ReplayOptions where
  /-- The delay between two steps, if it is not the configured one. -/
  speed : Option Nat
  turbo : Bool
  /-- The most snapshots retained, if it is not the configured number. -/
  maxHistory : Option Nat
  /-- Whether steps are not printed. -/
  quiet : Bool
  /-- Whether the report is a JSON document. -/
  json : Bool
deriving DecidableEq, Repr

/-- A command, with the path of a trace file. -/
inductive Command where
  | replay (trace : String) (options : ReplayOptions)
  | inspect (trace : String)
deriving DecidableEq, Repr

/-- What the arguments ask for. -/
inductive Request where
  /-- A command, with the path of a configuration file. -/
  | run (config : Option String) (command : Command)
  | showVersion
  | showHelp
deriving DecidableEq, Repr

/-- What can be wrong with arguments. -/
inductive UsageError where
  | noCommand
  | unknownCommand (name : String)
  | unknownOption (name : String)
  | missingValue (name : String)
  | unexpectedValue (name : String)
  | invalidValue (name value : String)
  | repeated (name : String)
  | unexpectedArgument (text : String)
  | missingTrace
deriving DecidableEq, Repr

def UsageError.message : UsageError → String
  | noCommand => "a command is missing: replay or inspect"
  | unknownCommand name => "unknown command: " ++ name
  | unknownOption name => "unknown option: " ++ name
  | missingValue name => "a value is missing for --" ++ name
  | unexpectedValue name => "--" ++ name ++ " takes no value"
  | invalidValue name value => "invalid value for --" ++ name ++ ": " ++ value
  | repeated name => "--" ++ name ++ " is given more than once"
  | unexpectedArgument text => "unexpected argument: " ++ text
  | missingTrace => "the trace file is missing"

/-- The forms of an argument. -/
inductive Shape where
  /-- Two hyphens, after which everything is a file name. -/
  | terminator
  /-- A long option, perhaps with a value after an equals sign. -/
  | long (name : String) (value : Option String)
  /-- Short options, one letter each. -/
  | short (letters : List Char)
  /-- Anything else; a lone hyphen too. -/
  | plain
deriving DecidableEq, Repr

def Shape.of (arg : String) : Shape :=
  match arg.toList with
  | ['-', '-'] => .terminator
  | '-' :: '-' :: rest =>
    match rest.span (· != '=') with
    | (name, '=' :: value) => .long (String.ofList name) (some (String.ofList value))
    | (name, _) => .long (String.ofList name) none
  | '-' :: c :: rest => .short (c :: rest)
  | _ => .plain

/-- Reads a number of 64 bits, with a plus sign or without. -/
def number? (text : String) : Option Nat :=
  let unsigned := match text.toList with
    | '+' :: rest => rest
    | s => s
  match takeDigits unsigned with
  | (d :: ds, []) => if ofDigits (d :: ds) < 1 <<< 64 then some (ofDigits (d :: ds)) else none
  | _ => none

/-- What was read of the arguments of a command. -/
structure Given where
  config : Option String
  speed : Option Nat
  turbo : Bool
  maxHistory : Option Nat
  quiet : Bool
  json : Bool
  trace : Option String
deriving DecidableEq, Repr

namespace Given

/-- Nothing read yet. -/
def nothing : Given := ⟨none, none, false, none, false, false, none⟩

/-- Sets an option with a value, which may be given once and has to be a valid one. -/
def set (g : Given) (name value : String) : Except UsageError Given :=
  if name = "config" then
    if g.config.isSome then .error (.repeated name)
    else if value.isEmpty then .error (.invalidValue name value)
    else .ok { g with config := some value }
  else if name = "speed" then
    if g.speed.isSome then .error (.repeated name)
    else
      match number? value with
      | some n => .ok { g with speed := some n }
      | none => .error (.invalidValue name value)
  else if name = "max-history" then
    if g.maxHistory.isSome then .error (.repeated name)
    else
      match number? value with
      | some n => .ok { g with maxHistory := some n }
      | none => .error (.invalidValue name value)
  else .error (.unknownOption name)

/-- Sets an option without a value, which may be given once. -/
def switchOn (g : Given) (name : String) : Except UsageError Given :=
  if name = "turbo" then if g.turbo then .error (.repeated name) else .ok { g with turbo := true }
  else if name = "quiet" then if g.quiet then .error (.repeated name) else .ok { g with quiet := true }
  else if name = "json" then if g.json then .error (.repeated name) else .ok { g with json := true }
  else .error (.unknownOption name)

/-- Takes a file name; a command has one. -/
def take (g : Given) (text : String) : Except UsageError Given :=
  if g.trace.isSome then .error (.unexpectedArgument text)
  else if text.isEmpty then .error (.invalidValue "trace" text)
  else .ok { g with trace := some text }

end Given

/-- The options of a command besides `--help`. -/
structure Grammar where
  /-- Those with a value. -/
  valued : List String
  /-- Those without. -/
  switches : List String
  /-- The letters that stand for some of the latter. -/
  letters : List (Char × String)

/-- The options of `replay`. -/
def Grammar.replay : Grammar :=
  ⟨["config", "speed", "max-history"], ["turbo", "quiet", "json"], [('q', "quiet")]⟩

/-- The options of `inspect`. -/
def Grammar.inspect : Grammar := ⟨["config"], [], []⟩

/-- Reads short options; nothing if one of them asks for help. -/
def readLetters (grammar : Grammar) : Given → List Char → Except UsageError (Option Given)
  | g, [] => .ok (some g)
  | _, 'h' :: _ => .ok none
  | g, c :: rest =>
    match grammar.letters.lookup c with
    | none => .error (.unknownOption (String.ofList ['-', c]))
    | some name => do
      let g ← g.switchOn name
      readLetters grammar g rest

def readNames : Given → List String → Except UsageError (Option Given)
  | g, [] => .ok (some g)
  | g, text :: rest => do
    let g ← g.take text
    readNames g rest

/-- Reads the arguments of a command; nothing if they ask for help. -/
def readCommand (grammar : Grammar) : Given → List String → Except UsageError (Option Given)
  | g, [] => .ok (some g)
  | g, arg :: rest =>
    match Shape.of arg with
    | .terminator => readNames g rest
    | .plain => do
      let g ← g.take arg
      readCommand grammar g rest
    | .short letters => do
      match ← readLetters grammar g letters with
      | none => .ok none
      | some g => readCommand grammar g rest
    | .long name (some value) =>
      if grammar.valued.contains name then do
        let g ← g.set name value
        readCommand grammar g rest
      else .error (.unexpectedValue name)
    | .long name none =>
      if name = "help" then .ok none
      else if grammar.switches.contains name then do
        let g ← g.switchOn name
        readCommand grammar g rest
      else if grammar.valued.contains name then
        match rest with
        | [] => .error (.missingValue name)
        | value :: rest =>
          if Shape.of value = .plain then do
            let g ← g.set name value
            readCommand grammar g rest
          else .error (.missingValue name)
      else .error (.unknownOption name)

/-- The path of the configuration: given after the command, or before it, or by the environment, whose
path is looked at unless both others are there. -/
def chooseConfig (environment before after : Option String) : Except UsageError (Option String) :=
  match before, after, environment with
  | some _, some path, _ => .ok (some path)
  | before, after, some path =>
    if path.isEmpty then .error (.invalidValue "config" path)
    else .ok (some (after.getD (before.getD path)))
  | before, after, none => .ok (after <|> before)

/-- Makes a request of a command and what was read of its arguments. -/
def Given.request (environment before : Option String) (g : Given) (command : String → Command) :
    Except UsageError Request :=
  match g.trace with
  | none => .error .missingTrace
  | some trace => do
    let config ← chooseConfig environment before g.config
    .ok (.run config (command trace))

def parseCommand (environment before : Option String) (name : String) (args : List String) :
    Except UsageError Request :=
  if name = "replay" then do
    match ← readCommand .replay .nothing args with
    | none => .ok .showHelp
    | some g =>
      g.request environment before
        (.replay · ⟨g.speed, g.turbo, g.maxHistory, g.quiet, g.json⟩)
  else if name = "inspect" then do
    match ← readCommand .inspect .nothing args with
    | none => .ok .showHelp
    | some g => g.request environment before .inspect
  else if name = "help" then .ok .showHelp
  else .error (.unknownCommand name)

/-- Reads the arguments up to the command; `before` is the path of the configuration given so far. -/
def parseFrom (environment : Option String) :
    (before : Option String) → List String → Except UsageError Request
  | _, [] => .error .noCommand
  | before, arg :: rest =>
    match Shape.of arg with
    | .plain => parseCommand environment before arg rest
    | .terminator => .error .noCommand
    | .short ('V' :: _) => .ok .showVersion
    | .short ('h' :: _) => .ok .showHelp
    | .short _ => .error (.unknownOption arg)
    | .long name (some value) =>
      if name = "config" then do
        let g ← { Given.nothing with config := before }.set name value
        parseFrom environment g.config rest
      else if name = "version" || name = "help" then .error (.unexpectedValue name)
      else .error (.unknownOption name)
    | .long name none =>
      if name = "version" then .ok .showVersion
      else if name = "help" then .ok .showHelp
      else if name = "config" then
        match rest with
        | [] => .error (.missingValue name)
        | value :: rest =>
          if Shape.of value = .plain then do
            let g ← { Given.nothing with config := before }.set name value
            parseFrom environment g.config rest
          else .error (.missingValue name)
      else .error (.unknownOption name)

def parse (environment : Option String) (args : List String) : Except UsageError Request :=
  parseFrom environment none args

/-- What is printed for `--version`. -/
def versionText : String := "rewind 0.0.2"

/-- What is printed for `--help`. -/
def helpText : String :=
  "Step through recorded executions and inspect their call trees\n\n"
    ++ "Usage: rewind [--config FILE] replay TRACE [--speed MS] [--turbo] [--max-history N]\n"
    ++ "                              [-q|--quiet] [--json]\n"
    ++ "       rewind [--config FILE] inspect TRACE\n"
    ++ "       rewind --version"

end Retrace.CommandLine
