import LeveledTypes.Archive.Codec
import LeveledTypes.Term.Binders

/-!
# Terms as bytes

A term is the number of its form, followed by its parts in order. Of the variable of a binder only
the name is kept.
-/
namespace LeveledTypes.Codec

def levelVar : Codec LevelVar where
  encode
    | .param => word.encode 0
    | .hole m => word.encode 1 ++ long.encode m
  decode bs := do
    let (tag, bs) ← word.decode bs
    match tag with
    | 0 => return (.param, bs)
    | 1 =>
      let (m, bs) ← long.decode bs
      return (.hole m, bs)
    | _ => none

/-- A word for the form of the level, and its numbers. -/
def level : Codec Level where
  encode
    | .const n => word.encode 0 ++ word.encode n
    | .var v add floor => word.encode 1 ++ levelVar.encode v ++ word.encode add ++ word.encode floor
    | .top => word.encode 2
  decode bs := do
    let (tag, bs) ← word.decode bs
    match tag with
    | 0 =>
      let (n, bs) ← word.decode bs
      return (.const n, bs)
    | 1 =>
      let (v, bs) ← levelVar.decode bs
      let (add, bs) ← word.decode bs
      let (floor, bs) ← word.decode bs
      return (.var v add floor, bs)
    | 2 => return (.top, bs)
    | _ => none

def universes : Codec Universe :=
  (level.pair level).imap (fun (p, h) => some ⟨p, h⟩) fun u => (u.p, u.h)

def binderInfo : Codec BinderInfo := choice [.explicit, .implicit, .inst]

def binder : Codec Binder := (text.pair binderInfo).imap (fun (s, i) => some (.named s i)) fun x =>
    (x.var.name, x.info)

def side : Codec Side := choice [.fst, .snd]

def branchHead : Codec BranchHead where
  encode
    | .con c => word.encode 0 ++ globalName.encode c
    | .zero => word.encode 1
    | .succ => word.encode 2
  decode bs := do
    let (tag, bs) ← word.decode bs
    match tag with
    | 0 =>
      let (c, bs) ← globalName.decode bs
      return (.con c, bs)
    | 1 => return (.zero, bs)
    | 2 => return (.succ, bs)
    | _ => none

mutual

/-- A word for the form of the term, and its parts. -/
def encodeTerm : Term → Bytes
  | .univ u => word.encode 0 ++ universes.encode u
  | .var i => word.encode 1 ++ long.encode i
  | .ref n u => word.encode 2 ++ globalName.encode n ++ universes.encode u
  | .hole m => word.encode 3 ++ long.encode m
  | .lam x a b => word.encode 4 ++ binder.encode x ++ encodeTerm a ++ encodeTerm b
  | .pi x a b => word.encode 5 ++ binder.encode x ++ encodeTerm a ++ encodeTerm b
  | .app f a => word.encode 6 ++ encodeTerm f ++ encodeTerm a
  | .letIn x t a b => word.encode 7 ++ binder.encode x ++ encodeTerm t ++
    encodeTerm a ++ encodeTerm b
  | .sigma x a b => word.encode 8 ++ binder.encode x ++ encodeTerm a ++ encodeTerm b
  | .pair a b => word.encode 9 ++ encodeTerm a ++ encodeTerm b
  | .proj a s => word.encode 10 ++ encodeTerm a ++ side.encode s
  | .data n u ps => word.encode 11 ++ globalName.encode n ++ universes.encode u ++
    long.encode ps.length ++ encodeTerms ps
  | .con n u ps xs =>
    word.encode 12 ++ globalName.encode n ++ universes.encode u ++ long.encode ps.length ++
      encodeTerms ps ++ long.encode xs.length ++ encodeTerms xs
  | .case a m bs => word.encode 13 ++ encodeTerm a ++ encodeTerm m ++ long.encode bs.length ++
    encodeBranches bs
  | .record n u ps => word.encode 14 ++ globalName.encode n ++ universes.encode u ++
    long.encode ps.length ++ encodeTerms ps
  | .new n u ps xs =>
    word.encode 15 ++ globalName.encode n ++ universes.encode u ++ long.encode ps.length ++
      encodeTerms ps ++ long.encode xs.length ++ encodeTerms xs
  | .field a n i => word.encode 16 ++ encodeTerm a ++ globalName.encode n ++ long.encode i
  | .nat => word.encode 17
  | .zero => word.encode 18
  | .succ a => word.encode 19 ++ encodeTerm a
  | .natRec m z s n => word.encode 20 ++ encodeTerm m ++ encodeTerm z ++
    encodeTerm s ++ encodeTerm n
  | .interval => word.encode 21
  | .left => word.encode 22
  | .right => word.encode 23
  | .path a x y => word.encode 24 ++ encodeTerm a ++ encodeTerm x ++ encodeTerm y
  | .pathLam f => word.encode 25 ++ encodeTerm f
  | .at l r p i => word.encode 26 ++ encodeTerm l ++ encodeTerm r ++ encodeTerm p ++ encodeTerm i

def encodeTerms : List Term → Bytes
  | [] => []
  | t :: ts => encodeTerm t ++ encodeTerms ts

def encodeBranches : List (Branch Term) → Bytes
  | [] => []
  | ⟨h, ns, b⟩ :: bs => branchHead.encode h ++ (list text).encode ns ++ encodeTerm b ++
    encodeBranches bs

end

/-- Reads a term, given how to read its subterms. -/
def decodeTermWith (term : Bytes → Option (Term × Bytes)) (bs : Bytes) : Option (Term × Bytes) := do
  let terms (bs : Bytes) : Option (List Term × Bytes) := do
    let (n, bs) ← long.decode bs
    decodeMany term n bs
  let binding (make : Binder → Term → Term → Term) (bs : Bytes) : Option (Term × Bytes) := do
    let (x, bs) ← binder.decode bs
    let (a, bs) ← term bs
    let (b, bs) ← term bs
    return (make x a b, bs)
  let family (make : GlobalName → Universe → List Term → Term) (bs : Bytes) :
      Option (Term × Bytes) := do
    let (n, bs) ← globalName.decode bs
    let (u, bs) ← universes.decode bs
    let (ps, bs) ← terms bs
    return (make n u ps, bs)
  let member (make : GlobalName → Universe → List Term → List Term → Term) (bs : Bytes) :
      Option (Term × Bytes) := do
    let (n, bs) ← globalName.decode bs
    let (u, bs) ← universes.decode bs
    let (ps, bs) ← terms bs
    let (xs, bs) ← terms bs
    return (make n u ps xs, bs)
  let branch (bs : Bytes) : Option (Branch Term × Bytes) := do
    let (h, bs) ← branchHead.decode bs
    let (ns, bs) ← (list text).decode bs
    let (b, bs) ← term bs
    return (⟨h, ns, b⟩, bs)
  let (tag, bs) ← word.decode bs
  match tag with
  | 0 =>
    let (u, bs) ← universes.decode bs
    return (.univ u, bs)
  | 1 =>
    let (i, bs) ← long.decode bs
    return (.var i, bs)
  | 2 =>
    let (n, bs) ← globalName.decode bs
    let (u, bs) ← universes.decode bs
    return (.ref n u, bs)
  | 3 =>
    let (m, bs) ← long.decode bs
    return (.hole m, bs)
  | 4 => binding .lam bs
  | 5 => binding .pi bs
  | 6 =>
    let (f, bs) ← term bs
    let (a, bs) ← term bs
    return (.app f a, bs)
  | 7 =>
    let (x, bs) ← binder.decode bs
    let (t, bs) ← term bs
    let (a, bs) ← term bs
    let (b, bs) ← term bs
    return (.letIn x t a b, bs)
  | 8 => binding .sigma bs
  | 9 =>
    let (a, bs) ← term bs
    let (b, bs) ← term bs
    return (.pair a b, bs)
  | 10 =>
    let (a, bs) ← term bs
    let (s, bs) ← side.decode bs
    return (.proj a s, bs)
  | 11 => family .data bs
  | 12 => member .con bs
  | 13 =>
    let (a, bs) ← term bs
    let (m, bs) ← term bs
    let (n, bs) ← long.decode bs
    let (branches, bs) ← decodeMany branch n bs
    return (.case a m branches, bs)
  | 14 => family .record bs
  | 15 => member .new bs
  | 16 =>
    let (a, bs) ← term bs
    let (n, bs) ← globalName.decode bs
    let (i, bs) ← long.decode bs
    return (.field a n i, bs)
  | 17 => return (.nat, bs)
  | 18 => return (.zero, bs)
  | 19 =>
    let (a, bs) ← term bs
    return (.succ a, bs)
  | 20 =>
    let (m, bs) ← term bs
    let (z, bs) ← term bs
    let (s, bs) ← term bs
    let (n, bs) ← term bs
    return (.natRec m z s n, bs)
  | 21 => return (.interval, bs)
  | 22 => return (.left, bs)
  | 23 => return (.right, bs)
  | 24 =>
    let (a, bs) ← term bs
    let (x, bs) ← term bs
    let (y, bs) ← term bs
    return (.path a x y, bs)
  | 25 =>
    let (f, bs) ← term bs
    return (.pathLam f, bs)
  | 26 =>
    let (l, bs) ← term bs
    let (r, bs) ← term bs
    let (p, bs) ← term bs
    let (i, bs) ← term bs
    return (.at l r p i, bs)
  | _ => none

/-- Reads a term of at most the given depth. -/
def decodeTermGas : Nat → Bytes → Option (Term × Bytes)
  | 0, _ => none
  | gas + 1, bs => decodeTermWith (decodeTermGas gas) bs

/-- Terms. The bytes that are there bound the depth of what can be read. -/
def term : Codec Term where
  encode := encodeTerm
  decode bs := decodeTermGas (bs.length + 1) bs

def param : Codec (Param Term) :=
  (binder.pair term).imap (fun (x, t) => some { x with type := t }) fun p => (p.toBinder, p.type)

end LeveledTypes.Codec
