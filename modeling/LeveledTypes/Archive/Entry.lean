import LeveledTypes.Archive.Term
import LeveledTypes.Definition
import LeveledTypes.Digest.Blake3
import LeveledTypes.Error

/-!
# Entries of the cache

What is stored of a checked module: its name, the digest of its text and of what it imports, the
imported modules with their digests, and its definitions. A stored entry starts with four marker
bytes and the version of the format; bytes behind the entry are ignored. An entry is valid for a
module whose digest and imports are the ones it was made with.
-/
namespace LeveledTypes

namespace Codec

def span : Codec Span :=
  ((long.pair long).pair (long.pair long)).imap (fun ((l, c), (a, b)) => some ⟨l, c, a, b⟩) fun s =>
    ((s.line, s.column), (s.start, s.stop))

def digest : Codec Digest := (raw 32).imap Digest.ofList? fun d => d.bytes.toList

def primitive : Codec Primitive :=
  choice [.nat, .zero, .succ, .natRec, .interval, .left, .right, .path, .pathLam, .at]

def classField : Codec ClassField :=
  ((globalName.pair term).pair ((option term).pair (option globalName))).imap
    (fun ((n, t), (d, s)) => some ⟨n, t, d, s⟩) fun f =>
    ((f.name, f.type), (f.default, f.superclass))

/-- A word for the kind of the body, and its parts. -/
def body : Codec Body where
  encode
    | .func b k => word.encode 0 ++ term.encode b ++ (option long).encode k
    | .data cs => word.encode 1 ++ (list globalName).encode cs
    | .constructor d i n ps =>
      word.encode 2 ++ globalName.encode d ++ long.encode i ++ long.encode n ++
        (option (list term)).encode ps
    | .cls fs ss => word.encode 3 ++ (list classField).encode fs ++ (list globalName).encode ss
    | .field c i => word.encode 4 ++ globalName.encode c ++ long.encode i
    | .inst c b => word.encode 5 ++ globalName.encode c ++ term.encode b
    | .primitive p => word.encode 6 ++ primitive.encode p
    | .pending => word.encode 7
  decode bs := do
    let (tag, bs) ← word.decode bs
    match tag with
    | 0 =>
      let (b, bs) ← term.decode bs
      let (k, bs) ← (option long).decode bs
      return (.func b k, bs)
    | 1 =>
      let (cs, bs) ← (list globalName).decode bs
      return (.data cs, bs)
    | 2 =>
      let (d, bs) ← globalName.decode bs
      let (i, bs) ← long.decode bs
      let (n, bs) ← long.decode bs
      let (ps, bs) ← (option (list term)).decode bs
      return (.constructor d i n ps, bs)
    | 3 =>
      let (fs, bs) ← (list classField).decode bs
      let (ss, bs) ← (list globalName).decode bs
      return (.cls fs ss, bs)
    | 4 =>
      let (c, bs) ← globalName.decode bs
      let (i, bs) ← long.decode bs
      return (.field c i, bs)
    | 5 =>
      let (c, bs) ← globalName.decode bs
      let (b, bs) ← term.decode bs
      return (.inst c b, bs)
    | 6 =>
      let (p, bs) ← primitive.decode bs
      return (.primitive p, bs)
    | 7 => return (.pending, bs)
    | _ => none

/-- The parts of a definition in their order. The names of variables are kept, the variables are
not. -/
def definition : Codec Definition where
  encode d :=
    span.encode d.span ++ globalName.encode d.name ++
      (list param).encode d.tele ++ term.encode d.type ++
      body.encode d.body ++ (list globalName).encode d.deps ++ digest.encode d.digest
  decode bs := do
    let (span, bs) ← span.decode bs
    let (name, bs) ← globalName.decode bs
    let (tele, bs) ← (list param).decode bs
    let (type, bs) ← term.decode bs
    let (body, bs) ← body.decode bs
    let (deps, bs) ← (list globalName).decode bs
    let (digest, bs) ← digest.decode bs
    return ({ span, name, tele, type, body, deps, digest }, bs)

end Codec

/-- The digest of definitions as they are stored. -/
def Digest.ofDefinitions (ds : List Definition) : Digest :=
  Blake3.digest ⟨((Codec.list Codec.definition).encode ds).toArray⟩

/-- A module and the digest it had. -/
abbrev Dependency := String × Digest

/-- What is stored of a module that has been checked. -/
structure CacheEntry where
  module : String
  /-- Covers the text of the module and the digests of its dependencies. -/
  digest : Digest
  deps : List Dependency
  definitions : List Definition
deriving Inhabited

namespace CacheEntry

def marker : Bytes := [0x56, 0x43, 0x4c, 0x43]

def formatVersion : Nat := 2

/-- The parts of an entry behind its header. -/
def codec : Codec CacheEntry where
  encode e :=
    Codec.text.encode e.module ++ Codec.digest.encode e.digest ++
      (Codec.list (Codec.text.pair Codec.digest)).encode e.deps ++
      (Codec.list Codec.definition).encode e.definitions
  decode bs := do
    let (module, bs) ← Codec.text.decode bs
    let (digest, bs) ← Codec.digest.decode bs
    let (deps, bs) ← (Codec.list (Codec.text.pair Codec.digest)).decode bs
    let (definitions, bs) ← (Codec.list Codec.definition).decode bs
    return (⟨module, digest, deps, definitions⟩, bs)

def encode (e : CacheEntry) : Bytes := marker ++ Codec.word.encode formatVersion ++ codec.encode e

/-- Reads an entry. The bytes have to start with the header; what stands behind the entry is not
looked at. -/
def decode (bs : Bytes) : Except Corruption CacheEntry :=
  match Codec.takeBytes 4 bs with
  | none => .error .badMagic
  | some (start, rest) =>
    match Codec.word.decode rest with
    | none => .error .badMagic
    | some (version, rest) =>
      if start ≠ marker then .error .badMagic
      else if version ≠ formatVersion then .error (.badVersion version formatVersion)
      else
        match codec.decode rest with
        | some (e, _) => .ok e
        | none => .error .damaged

/-- Whether an entry still describes a module with the given digest and dependencies. -/
def isValid (e : CacheEntry) (digest : Digest) (deps : List Dependency) : Bool :=
  e.digest = digest ∧ e.deps = deps

end CacheEntry

end LeveledTypes
