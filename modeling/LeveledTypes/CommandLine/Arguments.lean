import LeveledTypes.Files.Path

/-!
# Command line arguments

A command line names a command, which is followed by its own options and at most one path. Arguments
are read from left to right: the first one that asks for help, asks for the version or is wrong
decides. An option is written with two dashes, some also by a letter behind one dash, and letters
can be put together. A value stands behind an equals sign, right behind the letter, or in the next
argument, if that does not look like an option. Two dashes alone end the options.
-/
namespace LeveledTypes.CommandLine

/-- The options that a command line may have. -/
inductive OptionName where
  | help
  | version
  | verbose
  | cacheDir
  | noCache
  | jobs
  | instanceDepth
deriving DecidableEq

namespace OptionName

def long : OptionName → String
  | .help => "help"
  | .version => "version"
  | .verbose => "verbose"
  | .cacheDir => "cache-dir"
  | .noCache => "no-cache"
  | .jobs => "jobs"
  | .instanceDepth => "instance-depth"

def short? : OptionName → Option Char
  | .help => some 'h'
  | .version => some 'V'
  | .verbose => some 'v'
  | .jobs => some 'j'
  | _ => none

def takesValue : OptionName → Bool
  | .cacheDir | .jobs | .instanceDepth => true
  | _ => false

end OptionName

/-- What is wrong with a command line. -/
inductive UsageError where
  | missingCommand
  | unknownCommand (s : String)
  | unexpected (argument : String)
  | missingValue (o : OptionName)
  | invalidValue (what value : String)
  | repeated (o : OptionName)

/-- The text of what is wrong with a command line. -/
def UsageError.message : UsageError → String
  | .missingCommand => "a command is required"
  | .unknownCommand s => "unrecognized command '" ++ s ++ "'"
  | .unexpected s => "unexpected argument '" ++ s ++ "'"
  | .missingValue o => "a value is required for '--" ++ o.long ++ "'"
  | .invalidValue w v => "invalid value '" ++ v ++ "' for '" ++ w ++ "'"
  | .repeated o => "the argument '--" ++ o.long ++ "' cannot be used multiple times"

/-- Why reading stops before all arguments are read. -/
inductive Stop where
  | help
  | version
  | usage (e : UsageError)

/-- What has been read of a command line. -/
structure Given where
  verbosity : Nat := 0
  /-- The options given, with their values. -/
  options : List (OptionName × String) := []
  path : Option String := none

/-- The number that digits stand for, if it fits into a machine word. A plus sign may stand in
front. -/
def number? (s : String) : Option Nat :=
  let digits := match s.toList with
    | '+' :: cs => cs
    | cs => cs
  if digits.isEmpty || !digits.all Char.isDigit then none
  else
    let n := digits.foldl (fun n c => 10 * n + (c.toNat - '0'.toNat)) 0
    if n ≤ 0xFFFFFFFFFFFFFFFF then some n else none

namespace Given

def value? (g : Given) (o : OptionName) : Option String := g.options.lookup o

def number? (g : Given) (o : OptionName) : Option Nat := (g.value? o).bind CommandLine.number?

/-- Whether a text can be the value of an option. -/
def accepts (o : OptionName) (value : String) : Bool :=
  match o with
  | .jobs | .instanceDepth => (CommandLine.number? value).isSome
  | _ => value ≠ ""

/-- Takes an option with its value, which must be given once and be of the right form. -/
def addValue (g : Given) (o : OptionName) (value : String) : Except Stop Given :=
  if (g.value? o).isSome then .error (.usage (.repeated o))
  else if accepts o value then .ok { g with options := (o, value) :: g.options }
  else .error (.usage (.invalidValue o.long value))

/-- Adds an option without a value. -/
def addFlag (g : Given) : OptionName → Except Stop Given
  | .help => .error .help
  | .version => .error .version
  | .verbose => .ok { g with verbosity := g.verbosity + 1 }
  | o =>
    if (g.value? o).isSome then .error (.usage (.repeated o)) else .ok
      { g with options := (o, "") :: g.options }

/-- Takes an argument that is no option. -/
def addPath (g : Given) (s : String) : Except Stop Given :=
  if g.path.isSome then .error (.usage (.unexpected s))
  else if s = "" then .error (.usage (.invalidValue "path" s))
  else .ok { g with path := some s }

/-- Adds options that are given by letters. An option at the end may still need its value. -/
def addLetters (allowed : List OptionName) :
    List Char → Given → Except Stop (Given × Option OptionName)
  | [], g => .ok (g, none)
  | c :: cs, g =>
    match allowed.find? fun o => o.short? = some c with
    | none => .error (.usage (.unexpected ("-" ++ c.toString)))
    | some o =>
      if o.takesValue then
        match cs with
        | [] => .ok (g, some o)
        | '=' :: cs => do return (← g.addValue o (String.ofList cs), none)
        | cs => do return (← g.addValue o (String.ofList cs), none)
      else do addLetters allowed cs (← g.addFlag o)

/-- Adds an option that is given by its name, and maybe its value. It may still need its value. -/
def addLong (allowed : List OptionName) (s : String) (g : Given) :
    Except Stop (Given × Option OptionName) :=
  let cs := s.toList
  let name := String.ofList (cs.takeWhile (· ≠ '='))
  let value := match cs.dropWhile (· ≠ '=') with
    | _ :: v => some (String.ofList v)
    | [] => none
  match allowed.find? fun o => o.long = name with
  | none => .error (.usage (.unexpected ("--" ++ name)))
  | some o =>
    match o.takesValue, value with
    | true, some v => do return (← g.addValue o v, none)
    | true, none => .ok (g, some o)
    | false, none => do return (← g.addFlag o, none)
    | false, some v => .error (.usage (.invalidValue o.long v))

/-- Adds an argument that looks like an option, if it does. -/
def addOption? (allowed : List OptionName) (s : String) (g : Given) :
    Option (Except Stop (Given × Option OptionName)) :=
  match s.toList with
  | '-' :: '-' :: cs => some (addLong allowed (String.ofList cs) g)
  | '-' :: c :: cs => some (addLetters allowed (c :: cs) g)
  | _ => none

end Given

/-- Whether an argument looks like an option. -/
def isOption (s : String) : Bool := s.startsWith "-" && s ≠ "-"

/-- Reads the options up to the first other argument; gives the arguments from there on. -/
def readOptions (allowed : List OptionName) :
    List String → Given → Except Stop (Given × List String)
  | [], g => .ok (g, [])
  | s :: ss, g =>
    match Given.addOption? allowed s g with
    | none => .ok (g, s :: ss)
    | some r => do
      let (g, open?) ← r
      match open?, ss with
      | none, ss => readOptions allowed ss g
      | some o, [] => .error (.usage (.missingValue o))
      | some o, v :: ss =>
        if isOption v then .error (.usage (.missingValue o))
          else readOptions allowed ss (← g.addValue o v)

/-- Reads options and at most one path. -/
def readArguments (allowed : List OptionName) : List String → Given → Except Stop Given
  | [], g => .ok g
  | "--" :: ss, g => ss.foldlM Given.addPath g
  | s :: ss, g =>
    match Given.addOption? allowed s g with
    | none => do readArguments allowed ss (← g.addPath s)
    | some r => do
      let (g, open?) ← r
      match open?, ss with
      | none, ss => readArguments allowed ss g
      | some o, [] => .error (.usage (.missingValue o))
      | some o, v :: ss =>
        if isOption v then .error (.usage (.missingValue o))
          else readArguments allowed ss (← g.addValue o v)

/-- What the command line asks for. -/
inductive Command where
  | check (path : FilePath) (cacheDir : Option FilePath) (instanceDepth : Option Nat)
  | prelude (dir : FilePath)
  | clean (dir : FilePath)
deriving DecidableEq

/-- What a command line asks for. -/
structure Request where
  verbosity : Nat
  command : Command

def defaultCacheDir : String := ".vclang-cache"

/-- The command of a name with its arguments. -/
def readCommand (name : String) (ss : List String) : Except Stop (Given × Command) := do
  let pathOr (g : Given) (s : String) : FilePath := ⟨g.path.getD s⟩
  match name with
  | "check" =>
    let g ← readArguments [.verbose, .help, .cacheDir, .noCache, .jobs, .instanceDepth] ss {}
    let path := pathOr g "."
    let dir := match g.value? .cacheDir with
      | some d => ⟨d⟩
      | none => path.join ⟨defaultCacheDir⟩
    return (g, .check path (if (g.value? .noCache).isSome then none else some dir)
      (g.number? .instanceDepth))
  | "prelude" =>
    let g ← readArguments [.verbose, .help] ss {}
    return (g, .prelude (pathOr g defaultCacheDir))
  | "clean" =>
    let g ← readArguments [.verbose, .help] ss {}
    return (g, .clean (pathOr g defaultCacheDir))
  | "help" =>
    match ss with
    | [] => .error .help
    | [s] => .error (if ["check", "prelude", "clean", "help"].contains s then .help else .usage
      (.unknownCommand s))
    | _ :: s :: _ => .error (.usage (.unknownCommand s))
  | name => .error (.usage (.unknownCommand name))

/-- Reads a command line. Verbosity behind the command counts, or else that in front of it. -/
def read (ss : List String) : Except Stop Request := do
  let (outer, rest) ← readOptions [.verbose, .help, .version] ss {}
  match rest with
  | [] => .error (.usage .missingCommand)
  | name :: ss =>
    let (g, command) ← readCommand name ss
    return ⟨if g.verbosity = 0 then outer.verbosity else g.verbosity, command⟩

end LeveledTypes.CommandLine
