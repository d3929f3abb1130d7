import LeveledTypes.Archive.Fits
import LeveledTypes.Prelude
import LeveledTypes.Primitive
import LeveledTypes.Session.Module
import LeveledTypes.Session.Source
import LeveledTypes.Surface.Reader

/-!
# Sessions

A session holds the registry of all definitions, what is known of the modules that were checked
last, and the place of the cache, if there is one. It works on a disk and keeps a log of events. The
prelude is checked before anything else; it stays when the other modules are replaced.
-/
namespace LeveledTypes

/-- What a session is started with. -/
structure Settings where
  limits : Limits := {}
  cacheDir : Option FilePath := none
  /-- Whether the prelude may be taken from the cache. -/
  usePreludeCache : Bool := true
deriving Inhabited

/-- A module that others can import: its digest and the names it brings. -/
structure KnownModule where
  digest : Digest
  names : List GlobalName
deriving Inhabited

/-- What a session knows between calls. -/
structure Session where
  settings : Settings := {}
  registry : Registry := {}
  modules : Std.HashMap String KnownModule := {}
  /-- The warnings from checking the prelude on behalf of other modules. -/
  preludeWarnings : List Warning := []
deriving Inhabited

/-- What a call tells about one module. -/
structure ModuleReport where
  source : Source
  status : ModuleStatus
  digest : Option Digest := none
  names : List GlobalName := []
  warnings : List Warning := []
  errors : List Error := []
deriving Inhabited

def ModuleReport.name (r : ModuleReport) : String := r.source.name

def ModuleReport.isOk (r : ModuleReport) : Bool := r.status.isOk

/-- A session at work. -/
structure Workspace where
  session : Session := {}
  disk : Disk := {}
  /-- The events so far, the latest first. -/
  log : List Event := []
deriving Inhabited

abbrev Work := StateM Workspace

namespace Work

def note (e : Event) : Work Unit := modify fun w => { w with log := e :: w.log }

def noteAll (es : List Event) : Work Unit := modify fun w => { w with log := es.reverse ++ w.log }

def session : Work Session := return (← get).session

def modifySession (f : Session → Session) : Work Unit :=
  modify fun w => { w with session := f w.session }

def cacheExtension : String := "vcc"

/-- The file of the entry of a module. -/
def entryPath (dir : FilePath) (module : String) : FilePath :=
  dir.join ⟨module ++ "." ++ cacheExtension⟩

/-- The file in which an entry is made before it takes its place. -/
def draftPath (path : FilePath) : FilePath :=
  match path.names.getLast? with
  | some name =>
    let parent := String.ofList (path.text.toList.take (path.text.length - name.length))
    ⟨parent ++ FilePath.withExtension name (cacheExtension ++ ".tmp")⟩
  | none => path

/-- The stored entry of a module. A file that is missing, unreadable or of another module counts as
none. -/
def loadEntry (dir : FilePath) (module : String) : Work (Option CacheEntry) := do
  let path := entryPath dir module
  match (← get).disk.read path with
  | .error .notFound => return none
  | .error f =>
    note (.entryUnreadable path f.message)
    return none
  | .ok content =>
    match CacheEntry.decode content.toList with
    | .error c =>
      note (.entryCorrupt path (.corruptEntry c))
      return none
    | .ok e =>
      if e.module = module then return some e
      note (.entryForeign path e.module)
      return none

/-- Makes the draft of an entry and puts it into its place; gives the disk also if there is a
fault. -/
def placeEntry (d : Disk) (dir : FilePath) (e : CacheEntry) : Except Error Unit × Disk :=
  let path := entryPath dir e.module
  let draft := draftPath path
  match d.createDirAll dir with
  | .error _ => (.error .io, d)
  | .ok d =>
    match e.encode? with
    | none => (.error (.corruptEntry .damaged), d)
    | some bytes =>
      match d.write draft ⟨bytes.toArray⟩ with
      | .error _ => (.error .io, d)
      | .ok d =>
        match d.rename draft path with
        | .error _ => (.error .io, d)
        | .ok d => (.ok (), d)

/-- Stores an entry, if there is a cache. A failure costs no more than checking the module again. -/
def storeEntry (e : CacheEntry) : Work Unit := do
  match (← session).settings.cacheDir with
  | none => return
  | some dir =>
    let (outcome, disk) := placeEntry (← get).disk dir e
    modify fun w => { w with disk }
    match outcome with
    | .ok () => note (.entryStored e.module e.digest)
    | .error err => note (.entryNotStored e.module err)

/-- The stored entry of a module, if it is valid. -/
def validEntry (module : String) (digest : Digest) (deps : List Dependency) :
    Work (Option CacheEntry) := do
  match (← session).settings.cacheDir with
  | none => return none
  | some dir =>
    match ← loadEntry dir module with
    | none => return none
    | some e =>
      if e.isValid digest deps then return some e
      note (.entryStale module)
      return none

/-- Removes the directory of a cache with all that is in it; tells whether it is gone. -/
def clean (dir : FilePath) : Work Bool := do
  let (outcome, disk) := (← get).disk.removeDirAll dir
  modify fun w => { w with disk }
  return match outcome with
    | .ok () | .error .notFound => true
    | .error _ => false

/-- Registers the definitions of a module that others may import from now on. -/
def adopt (source : Source) (digest : Digest) (ds : List Definition) (status : ModuleStatus) :
    Work ModuleReport := do
  let names := ds.map (·.name)
  modifySession fun s =>
    { s with registry := s.registry.insertAll ds, modules :=
      s.modules.insert source.name ⟨digest, names⟩ }
  return { source, status, digest := some digest, names }

end Work

namespace Prelude

def source : Source := .ofText Primitive.preludeName text

/-- The digest of the prelude covers its text and the primitives. -/
def digest : Digest := .withDeps text.toUTF8 [.ofDefinitions Primitive.definitions]

/-- Checks the prelude: the primitives, then its text. -/
def elaborate : Work ModuleReport := do
  Work.modifySession fun s => { s with registry := s.registry.insertAll Primitive.definitions }
  match Surface.Module.read source.name text with
  | .error e => return { source, status := .failed, errors := [e] }
  | .ok m =>
    let s ← Work.session
    let out := elaborateModule s.registry s.settings.limits text m
      (Primitive.definitions.map (·.name))
    Work.noteAll out.events
    if !out.errors.isEmpty then
      Work.note (.preludeErrors source.name out.errors.length)
      return { source, status := .failed, warnings := out.warnings, errors := out.errors }
    let all := Primitive.definitions ++ out.definitions
    Work.storeEntry ⟨source.name, digest, [], all⟩
    Work.note (.moduleChecked source.name)
    return { ← Work.adopt source digest all .checked with warnings := out.warnings }

/-- Brings the prelude into the session, from the cache if that is allowed. -/
def load : Work ModuleReport := do
  let entry ← if (← Work.session).settings.usePreludeCache then
      Work.validEntry source.name digest [] else pure none
  match entry with
  | some e =>
    Work.note (.moduleCached source.name)
    Work.adopt source digest e.definitions .cached
  | none => elaborate

/-- Brings the prelude into the session, unless it is there. Its warnings are kept, and its first
error is given. -/
def ensure : Work (Option Error) := do
  if (← Work.session).modules.contains source.name then return none
  let r ← load
  Work.noteAll (r.warnings.map (.preludeWarning source.name))
  Work.modifySession fun s => { s with preludeWarnings := r.warnings }
  return r.errors.head?

end Prelude

end LeveledTypes
