import Retrace.Config.Document
import Retrace.File
/-!
# Configurations in files

What is said of a file that cannot be read or holds no valid configuration is a chain of messages,
the outermost first, each one caused by the next.
-/

namespace Retrace

/-- What is said of a document that is not TOML. -/
def malformedToml : String := "malformed TOML document"

/-- What can be wrong with a configuration file. -/
inductive ConfigFileFailure where
  | unreadable (path : String) (cause : FileFailure)
  | rejected (cause : ConfigFailure)
deriving DecidableEq, Repr

/-- The chain of messages for a failure. -/
def ConfigFileFailure.chain : ConfigFileFailure → List String
  | unreadable path cause => ["Failed to read config file " ++ path, cause.message]
  | rejected .malformed => [ConfigFailure.malformed.message, malformedToml]
  | rejected (.invalid v) => [v.message]

def Config.load (file : File) : Except ConfigFileFailure Config :=
  match file.text with
  | .error e => .error (.unreadable file.path e)
  | .ok text => (Config.read text).mapError .rejected

end Retrace
