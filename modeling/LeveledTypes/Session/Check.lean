import LeveledTypes.ModuleGraph
import LeveledTypes.Session.Basic

/-!
# Checking modules

The modules of a set are checked in waves, each after all modules it imports. A module that cannot
be read or imports an unknown module is refused; one that imports a module without an outcome is
unreachable. What was known of other modules than the prelude is forgotten before.
-/
namespace LeveledTypes.Work

/-- Forgets all modules but the prelude, with the definitions they brought. -/
def forget : Work Unit :=
  modifySession fun s =>
    let others := s.modules.toList.filter fun (n, _) => n ≠ Primitive.preludeName
    { s with
      registry := others.foldl (fun r (_, k) => r.eraseAll k.names) s.registry
      modules := s.modules.filter fun n _ => n = Primitive.preludeName }

/-- A source on its way: the module, if it can be read, what is wrong with it, and the modules it
imports. -/
structure Pending where
  source : Source
  module : Option Surface.Module
  errors : List Error
  deps : List Nat
deriving Inhabited

/-- Reads a source. No module may have the name of the prelude. -/
def readSource (s : Source) : Except Error Surface.Module :=
  if s.name = Primitive.preludeName then .error (.located (.duplicateName s.name) default)
  else Surface.Module.read s.name s.text

/-- The modules of a call in their order, each with what it imports and what is wrong with it before
it is checked. -/
def units (sources : List Source) : List Pending :=
  let parsed := sources.map fun s => (s, readSource s)
  let imports := parsed.map fun (s, m) =>
    (s.name, match m with
      | .ok m => m.imports
      | .error _ => [])
  (parsed.zip (ModuleGraph.edges imports)).map fun ((s, m), e) =>
    let deps := match e with
      | .ok deps => deps
      | .error _ => []
    let wrong := match e with
      | .ok _ => []
      | .error errors => errors
    match m with
    | .ok m => ⟨s, some m, wrong, deps⟩
    | .error err => ⟨s, none, err :: wrong, deps⟩

/-- The modules that a module sees, first the prelude and then its imports, with what is known of
them; or the first of them that has no outcome. -/
def knownDeps (modules : Std.HashMap String KnownModule) :
    List String → Except String (List (String × KnownModule))
  | [] => .ok []
  | n :: ns =>
    match modules[n]? with
    | none => .error n
    | some k => do return (n, k) :: (← knownDeps modules ns)

/-- Checks a module whose dependencies are finished. -/
def checkModule (u : Pending) (m : Surface.Module) (imports : List String) : Work ModuleReport := do
  let name := u.source.name
  match knownDeps (← session).modules (Primitive.preludeName :: imports) with
  | .error missing =>
    let span := ((m.imports.find? fun i => i.module = missing).map (·.span)).getD default
    note (.moduleUnreachable name)
    return { source := u.source, status := .unreachable, errors :=
      [.located (.dependencyFailed name missing) span] }
  | .ok known =>
    let deps : List Dependency :=
      (known.map fun (n, k) => (n, k.digest)).mergeSort fun a b => decide (a.1 ≤ b.1)
    let digest := Digest.withDeps u.source.text.toUTF8 (deps.map (·.2))
    let register (ds : List Definition) : Work Unit :=
      modifySession fun s => { s with registry := s.registry.insertAll ds }
    match ← validEntry name digest deps with
    | some e =>
      note (.moduleCached name)
      register e.definitions
      return { source := u.source, status := .cached, digest := some digest, names :=
        e.definitions.map (·.name) }
    | none =>
      note (.moduleElaborating name)
      let s ← session
      let out := elaborateModule s.registry s.settings.limits u.source.text m
        (known.flatMap (·.2.names))
      noteAll out.events
      if !out.errors.isEmpty then
        note (.moduleErrors name out.errors.length)
        return { source := u.source, status := .failed, warnings :=
          out.warnings, errors := out.errors }
      storeEntry ⟨name, digest, deps, out.definitions⟩
      register out.definitions
      note (.moduleChecked name)
      return {
        source := u.source
        status := .checked
        digest := some digest
        names := out.definitions.map (·.name)
        warnings := out.warnings }

/-- Checks the modules of a wave that were not refused, in order. They can be imported only after
the wave. -/
def checkWave (us : List Pending) (wave : List Nat) : Work (List (Nat × ModuleReport)) := do
  let reports ← wave.filterMapM fun i => do
    match us[i]? with
    | none => return none
    | some u =>
      match u.module, u.errors with
      | some m, [] =>
        return some (i, ← checkModule u m (u.deps.filterMap fun d => (us[d]?).map (·.source.name)))
      | _, _ => return none
  for (_, r) in reports do
    match r.digest with
    | some digest =>
      if r.isOk then modifySession fun s =>
        { s with modules := s.modules.insert r.name ⟨digest, r.names⟩ }
    | none => pure ()
  return reports

/-- Checks a set of modules. The reports are in the order of the sources. A cycle of imports fails
the whole set. -/
def checkSources (sources : List Source) : Work (Except Error (List ModuleReport)) := do
  match ← Prelude.ensure with
  | some e => return .error e
  | none =>
    forget
    let us := units sources
    for u in us do
      if !u.errors.isEmpty then note (.moduleRefused u.source.name)
    match ModuleGraph.waves (us.map (·.deps)) (us.map (·.source.name)) with
    | .error e => return .error e
    | .ok waves =>
      let reports := (← waves.mapM (checkWave us)).flatten
      return .ok (us.zipIdx.map fun (u, i) =>
        (reports.lookup i).getD { source := u.source, status := .failed, errors := u.errors })

/-- Checks the modules below a directory. -/
def checkDirectory (root : FilePath) : Work (Except Error (List ModuleReport)) := do
  match Source.discover (← get).disk root with
  | .error e => return .error e
  | .ok sources => checkSources sources

end LeveledTypes.Work
