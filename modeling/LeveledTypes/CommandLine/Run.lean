import LeveledTypes.CommandLine.Arguments
import LeveledTypes.Session.Check

/-!
# Running commands

What the commands do to a disk, and what they report: an exit code, the errors and warnings of the
modules, and the events that are shown at the verbosity asked for.
-/
namespace LeveledTypes.CommandLine

/-- An error or a warning in a file. -/
inductive Diagnostic where
  | error (path : FilePath) (e : Error)
  | warning (path : FilePath) (w : Warning)

namespace Diagnostic

def headline : Diagnostic → String
  | .error _ e => "Error: " ++ e.message
  | .warning _ w => "Warning: " ++ w.message

/-- The place that is blamed, if there is one. -/
def place : Diagnostic → String
  | .error p e => p.text ++ (e.span?.map fun s => ":" ++ s.render).getD ""
  | .warning p w => p.text ++ ":" ++ w.span.render

def ofReport (r : ModuleReport) : List Diagnostic :=
  r.warnings.map (.warning r.source.path) ++ r.errors.map (.error r.source.path)

end Diagnostic

/-- What a command leaves behind. -/
structure Outcome where
  exitCode : Nat
  /-- What is asked for and printed. -/
  output : String := ""
  /-- What is wrong with the command line. -/
  complaint : Option UsageError := none
  diagnostics : List Diagnostic := []
  events : List Event := []
  disk : Disk

def usageText : String :=
  "Usage: leveled-types [-v]... <COMMAND>\n\n" ++
  "Commands:\n" ++
  "  check [PATH]    Check every module under a directory\n" ++
  "  prelude [OUT]   Check the prelude and write its cache entry\n" ++
  "  clean [DIR]     Remove a cache directory\n" ++
  "  help            Print this text\n\n" ++
  "Options of check:\n" ++
  "  --cache-dir <DIR>      Where checked modules are cached\n" ++
  "  --no-cache             Check everything without reading or writing the cache\n" ++
  "  -j, --jobs <N>         Worker threads\n" ++
  "  --instance-depth <N>   The deepest nesting of instance search\n"

def versionText : String := "leveled-types 0.1.0\n"

/-- Checks all modules below a directory, and reports them one by one. -/
def checkCommand (path : FilePath) : Work (Bool × List Diagnostic) := do
  match ← Work.checkDirectory path with
  | .error e => return (false, [.error path e])
  | .ok reports =>
    Work.noteAll (reports.map fun r => .moduleOutcome r.name r.status)
    let warnings := (← Work.session).preludeWarnings.map (.warning Prelude.source.path)
    return (reports.all (·.isOk), warnings ++ reports.flatMap Diagnostic.ofReport)

/-- Checks the prelude and writes its entry. -/
def preludeCommand : Work (Bool × List Diagnostic) := do
  let r ← Prelude.load
  if r.isOk then Work.note (.preludeWritten r.names.length)
  return (r.isOk, Diagnostic.ofReport r)

/-- Removes the directory of the cache. -/
def cleanCommand (dir : FilePath) : Work (Bool × List Diagnostic) := do
  if ← Work.clean dir then return (true, [])
  Work.note (.commandFailed .io)
  return (false, [])

namespace Command

/-- The settings of the session that performs a command. -/
def settings : Command → Settings
  | .check _ cacheDir depth => 
    { cacheDir, limits := { instanceDepth := depth.getD ({} : Limits).instanceDepth } }
  | .prelude dir => { cacheDir := some dir, usePreludeCache := false }
  | .clean _ => {}

def perform : Command → Work (Bool × List Diagnostic)
  | .check path _ _ => checkCommand path
  | .prelude _ => preludeCommand
  | .clean dir => cleanCommand dir

end Command

/-- Runs a command line on a disk. -/
def run (args : List String) (disk : Disk) : Outcome :=
  match read args with
  | .error .help => { exitCode := 0, output := usageText, disk }
  | .error .version => { exitCode := 0, output := versionText, disk }
  | .error (.usage e) => { exitCode := 2, complaint := some e, disk }
  | .ok r =>
    let ((ok, diagnostics), w) :=
      r.command.perform.run { session := { settings := r.command.settings }, disk }
    { exitCode := if ok then 0 else 1
      diagnostics
      events := w.log.reverse.filter fun e => e.severity.shownAt r.verbosity
      disk := w.disk }

end LeveledTypes.CommandLine
