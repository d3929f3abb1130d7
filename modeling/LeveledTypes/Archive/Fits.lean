import LeveledTypes.Archive.Entry
import LeveledTypes.Term.Substitution

/-!
# What fits the format

Variants and levels are stored as words; indices, offsets and lengths as long numbers. A value fits
the format if none of its numbers is too large for its width. An entry that does not fit cannot be
encoded.
-/
namespace LeveledTypes

namespace Codec

/-- The values of a list fit, and their number does. -/
def AllFit (P : α → Prop) (as : List α) : Prop := as.length < UInt64.size ∧ ∀ a ∈ as, P a

instance (P : α → Prop) [DecidablePred P] (as : List α) : Decidable (AllFit P as) :=
  instDecidableAnd

end Codec

open Codec (AllFit)

def Level.Fits : Level → Prop
  | .const n => n < UInt32.size
  | .var v add floor => (∀ m, v = .hole m → m < UInt64.size) ∧ add < UInt32.size ∧
    floor < UInt32.size
  | .top => True

def Universe.Fits (u : Universe) : Prop := u.p.Fits ∧ u.h.Fits

def GlobalName.Fits (n : GlobalName) : Prop := n.text.utf8ByteSize < UInt64.size

def Binder.Fits (x : Binder) : Prop := x.var.name.utf8ByteSize < UInt64.size

instance : (v : LevelVar) → Decidable (∀ m, v = .hole m → m < UInt64.size)
  | .param => isTrue nofun
  | .hole m => decidable_of_iff (m < UInt64.size) ⟨fun h _ hm => LevelVar.hole.inj hm ▸ h,
    fun h => h m rfl⟩

instance : (l : Level) → Decidable l.Fits
  | .const n => inferInstanceAs (Decidable (n < UInt32.size))
  | .var v add floor =>
    inferInstanceAs (Decidable ((∀ m, v = .hole m → m < UInt64.size) ∧ add < UInt32.size ∧
      floor < UInt32.size))
  | .top => isTrue trivial

instance (u : Universe) : Decidable u.Fits := instDecidableAnd

instance (n : GlobalName) : Decidable n.Fits :=
  inferInstanceAs (Decidable (n.text.utf8ByteSize < UInt64.size))

instance (x : Binder) : Decidable x.Fits :=
  inferInstanceAs (Decidable (x.var.name.utf8ByteSize < UInt64.size))

instance : (h : BranchHead) → Decidable (∀ c, h = .con c → c.Fits)
  | .con c => decidable_of_iff c.Fits ⟨fun h _ hc => BranchHead.con.inj hc ▸ h, fun h => h c rfl⟩
  | .zero | .succ => isTrue nofun

namespace Term

/-- The numbers, the names and the lengths at the root of a term fit. -/
def RootFits : Term → Prop
  | .univ u => u.Fits
  | .var i | .hole i => i < UInt64.size
  | .ref n u => n.Fits ∧ u.Fits
  | .lam x _ _ | .pi x _ _ | .sigma x _ _ | .letIn x _ _ _ => x.Fits
  | .data n u ps | .record n u ps => n.Fits ∧ u.Fits ∧ ps.length < UInt64.size
  | .con n u ps xs | .new n u ps xs => n.Fits ∧ u.Fits ∧ ps.length < UInt64.size ∧
    xs.length < UInt64.size
  | .case _ _ bs =>
    bs.length < UInt64.size ∧
      ∀ b ∈ bs, (∀ c, b.head = .con c → c.Fits) ∧
        AllFit (String.utf8ByteSize · < UInt64.size) b.names
  | .field _ n i => n.Fits ∧ i < UInt64.size
  | _ => True

instance : (t : Term) → Decidable t.RootFits
  | .univ u => inferInstanceAs (Decidable u.Fits)
  | .var i | .hole i => inferInstanceAs (Decidable (i < UInt64.size))
  | .ref n u => inferInstanceAs (Decidable (n.Fits ∧ u.Fits))
  | .lam x _ _ | .pi x _ _ | .sigma x _ _ | .letIn x _ _ _ => inferInstanceAs (Decidable x.Fits)
  | .data n u ps | .record n u ps =>
    inferInstanceAs (Decidable (n.Fits ∧ u.Fits ∧ ps.length < UInt64.size))
  | .con n u ps xs | .new n u ps xs =>
    inferInstanceAs (Decidable (n.Fits ∧ u.Fits ∧ ps.length < UInt64.size ∧
      xs.length < UInt64.size))
  | .case _ _ bs => inferInstanceAs (Decidable (bs.length < UInt64.size ∧
      ∀ b ∈ bs, (∀ c, b.head = .con c → c.Fits) ∧
        AllFit (String.utf8ByteSize · < UInt64.size) b.names))
  | .field _ n i => inferInstanceAs (Decidable (n.Fits ∧ i < UInt64.size))
  | .app _ _ | .pair _ _ | .proj _ _ | .nat | .zero | .succ _ | .natRec _ _ _
    _ | .interval | .left | .right
  | .path _ _ _ | .pathLam _ | .at _ _ _ _ => isTrue trivial

/-- All numbers in a term fit. -/
def Fits (t : Term) : Prop := ∀ s ∈ t.subterms, s.RootFits

/-- One fold tests all subterms. -/
instance (t : Term) : Decidable t.Fits :=
  decidable_of_iff (t.fold (fun fits s => fits && decide s.RootFits) true = true) <| by
    have hfold := fold_hom (f := fun ts s => ts ++ [s]) (g :=
      fun fits s => fits && decide s.RootFits)
      (fun ts => ts.all fun s => decide s.RootFits) (fun ts s => by simp) [] t
    rw [List.all_nil] at hfold
    rw [← hfold, List.all_eq_true]
    exact forall₂_congr fun s _ => decide_eq_true_iff

end Term

def Span.Fits (s : Span) : Prop := (s.line < UInt64.size ∧ s.column < UInt64.size) ∧
    s.start < UInt64.size ∧ s.stop < UInt64.size

def Param.Fits (p : Param Term) : Prop := p.toBinder.Fits ∧ p.type.Fits

def ClassField.Fits (f : ClassField) : Prop :=
  (f.name.Fits ∧ f.type.Fits) ∧ (∀ t ∈ f.default, t.Fits) ∧ ∀ c ∈ f.superclass, c.Fits

def Body.Fits : Body → Prop
  | .func b k => b.Fits ∧ ∀ n ∈ k, n < UInt64.size
  | .data cs => AllFit GlobalName.Fits cs
  | .constructor d i n ps => d.Fits ∧ i < UInt64.size ∧ n < UInt64.size ∧
    ∀ ts ∈ ps, AllFit Term.Fits ts
  | .cls fs ss => AllFit ClassField.Fits fs ∧ AllFit GlobalName.Fits ss
  | .field c i => c.Fits ∧ i < UInt64.size
  | .inst c b => c.Fits ∧ b.Fits
  | .primitive _ | .pending => True

/-- The numbers in a definition fit the format of the archive. -/
structure Definition.Fits (d : Definition) : Prop where
  span : d.span.Fits
  name : d.name.Fits
  tele : AllFit Param.Fits d.tele
  type : d.type.Fits
  body : d.body.Fits
  deps : AllFit GlobalName.Fits d.deps

instance (s : Span) : Decidable s.Fits := instDecidableAnd

instance (p : Param Term) : Decidable p.Fits := instDecidableAnd

instance (f : ClassField) : Decidable f.Fits := instDecidableAnd

instance : (b : Body) → Decidable b.Fits
  | .func b k => inferInstanceAs (Decidable (b.Fits ∧ ∀ n ∈ k, n < UInt64.size))
  | .data cs => inferInstanceAs (Decidable (AllFit GlobalName.Fits cs))
  | .constructor d i n ps =>
    inferInstanceAs (Decidable (d.Fits ∧ i < UInt64.size ∧ n < UInt64.size ∧
      ∀ ts ∈ ps, AllFit Term.Fits ts))
  | .cls fs ss => inferInstanceAs
    (Decidable (AllFit ClassField.Fits fs ∧ AllFit GlobalName.Fits ss))
  | .field c i => inferInstanceAs (Decidable (c.Fits ∧ i < UInt64.size))
  | .inst c b => inferInstanceAs (Decidable (c.Fits ∧ b.Fits))
  | .primitive _ | .pending => isTrue trivial

instance (d : Definition) : Decidable d.Fits :=
  decidable_of_iff (d.span.Fits ∧ d.name.Fits ∧ AllFit Param.Fits d.tele ∧
    d.type.Fits ∧ d.body.Fits ∧ AllFit GlobalName.Fits d.deps)
    ⟨fun ⟨span, name, tele, type, body, deps⟩ => ⟨span, name, tele, type, body, deps⟩,
      fun h => ⟨h.span, h.name, h.tele, h.type, h.body, h.deps⟩⟩

namespace CacheEntry

/-- The numbers in an entry fit the format, those of its definitions apart. -/
def HeaderFits (e : CacheEntry) : Prop :=
  e.module.utf8ByteSize < UInt64.size ∧
    AllFit (fun p : Dependency => p.1.utf8ByteSize < UInt64.size) e.deps

/-- The numbers in an entry fit the format. -/
def Fits (e : CacheEntry) : Prop := e.HeaderFits ∧ AllFit Definition.Fits e.definitions

instance (e : CacheEntry) : Decidable e.HeaderFits := instDecidableAnd

instance (e : CacheEntry) : Decidable e.Fits := instDecidableAnd

/-- The encoding of an entry. It fails if a number is too large for its width. -/
def encode? (e : CacheEntry) : Option Bytes := if e.Fits then some e.encode else none

end CacheEntry

end LeveledTypes
