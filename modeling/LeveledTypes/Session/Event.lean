import LeveledTypes.Digest.Basic
import LeveledTypes.Error
import LeveledTypes.Files.Path

/-!
# Events

What a session reports while it works, each with its severity and wording.
-/
namespace LeveledTypes

/-- How much an event matters. -/
inductive Severity where
  | error
  | warn
  | info
  | debug
deriving DecidableEq

namespace Severity

def render : Severity → String
  | .error => "ERROR"
  | .warn => "WARN"
  | .info => "INFO"
  | .debug => "DEBUG"

/-- The severities that are shown at a verbosity. -/
def shownAt (verbosity : Nat) : Severity → Bool
  | .error | .warn => true
  | .info => verbosity ≥ 1
  | .debug => verbosity ≥ 2

end Severity

/-- How the check of a module has ended. -/
inductive ModuleStatus where
  /-- Elaborated in this session. -/
  | checked
  /-- Taken from a valid cache entry. -/
  | cached
  | failed
  /-- Not elaborated, because a module it imports failed. -/
  | unreachable
deriving DecidableEq, Inhabited

namespace ModuleStatus

def render : ModuleStatus → String
  | .checked => "Checked"
  | .cached => "Cached"
  | .failed => "Failed"
  | .unreachable => "Unreachable"

def isOk (s : ModuleStatus) : Bool := s = .checked ∨ s = .cached

end ModuleStatus

/-- What is noted while modules are checked. -/
inductive Event where
  | declChecked (name : String)
  | declFailed (name : String) (e : Error)
  | moduleCached (name : String)
  | moduleElaborating (name : String)
  | moduleChecked (name : String)
  /-- Elaboration of a module ended with a number of errors. -/
  | moduleErrors (name : String) (count : Nat)
  | moduleRefused (name : String)
  | moduleUnreachable (name : String)
  | preludeErrors (name : String) (count : Nat)
  | preludeWarning (name : String) (w : Warning)
  | preludeWritten (count : Nat)
  | entryStale (name : String)
  | entryUnreadable (path : FilePath) (reason : String)
  | entryForeign (path : FilePath) (name : String)
  | entryCorrupt (path : FilePath) (e : Error)
  | entryStored (name : String) (digest : Digest)
  | entryNotStored (name : String) (e : Error)
  | moduleOutcome (name : String) (status : ModuleStatus)
  | commandFailed (e : Error)

namespace Event

/-- How much each kind of events matters. -/
def severity : Event → Severity
  | .declChecked _ | .declFailed _ _ | .entryStale _ => .debug
  | .moduleCached _ | .moduleElaborating _ | .moduleChecked _ | .moduleErrors _ _ | .moduleRefused _
  | .moduleUnreachable _ | .preludeWritten _ | .entryStored _ _ => .info
  | .preludeErrors _ _ | .preludeWarning _ _ | .entryUnreadable _ _ | .entryForeign _
    _ | .entryCorrupt _ _
  | .entryNotStored _ _ => .warn
  | .moduleOutcome _ s => if s.isOk then .info else .error
  | .commandFailed _ => .error

/-- The text of an event. -/
def message : Event → String
  | .declChecked n => "checked " ++ n
  | .declFailed n e => n ++ " failed: " ++ e.message
  | .moduleCached n => n ++ ": cached"
  | .moduleElaborating n => n ++ ": elaborating"
  | .moduleChecked n => n ++ ": checked"
  | .moduleErrors n k | .preludeErrors n k => n ++ ": " ++ toString k ++ " errors"
  | .moduleRefused n => n ++ ": failed before elaboration"
  | .moduleUnreachable n => n ++ ": unreachable"
  | .preludeWarning n w => n ++ ": " ++ w.message
  | .preludeWritten k => "prelude written (" ++ toString k ++ " definitions)"
  | .entryStale n => n ++ ": stale cache entry"
  | .entryUnreadable p r => "cannot read " ++ p.text ++ ": " ++ r
  | .entryForeign p n => p.text ++ " holds module " ++ n
  | .entryCorrupt p e => p.text ++ ": " ++ e.message
  | .entryStored n d => "stored " ++ n ++ " (" ++ d.toHex ++ ")"
  | .entryNotStored n e => "cannot cache " ++ n ++ ": " ++ e.message
  | .moduleOutcome n s => n ++ ": " ++ s.render
  | .commandFailed e => e.message

end Event

end LeveledTypes
