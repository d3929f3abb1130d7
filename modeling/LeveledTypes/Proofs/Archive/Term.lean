import LeveledTypes.Proofs.Archive.Codec
import LeveledTypes.Proofs.Term.Subterms

/-!
# What is kept of a stored term

A term fits the format if its numbers do: levels and their numbers are words, indices and lengths
are long numbers. Of such a term everything is read back but the identities of its binders.
-/
namespace LeveledTypes

namespace Term

theorem fits_iff {t : Term} : t.Fits ↔ t.RootFits ∧ ∀ p ∈ t.parts, p.2.Fits := by
  simp only [Fits, subterms_eq t, List.mem_cons, List.mem_flatMap, forall_eq_or_imp]
  exact and_congr_right fun _ =>
    ⟨fun h p hp s hs => h s ⟨p, hp, hs⟩, fun h s ⟨p, hp, hs⟩ => h p hp s hs⟩

@[simp] theorem nameOnlyAll_eq_map (ts : List Term) : nameOnlyAll ts = ts.map nameOnly := by
  induction ts with
  | nil => rfl
  | cons t ts ih => rw [nameOnlyAll, ih, List.map_cons]

@[simp] theorem nameOnlyBranches_eq_map (bs : List (Branch Term)) :
    nameOnlyBranches bs = bs.map fun b => { b with body := b.body.nameOnly } := by
  induction bs with
  | nil => rfl
  | cons b bs ih => rw [nameOnlyBranches, ih, List.map_cons]

end Term

namespace Codec

@[simp] theorem decode_word {n : ℕ} (h : n < 2 ^ 32) (rest : Bytes) :
    word.decode (word.encode n ++ rest) = some (n, rest) := faithful_word.reads n h rest

theorem faithful_globalName : Faithful globalName GlobalName.Fits id :=
  faithful_text.imap fun _ h => ⟨h, rfl⟩

theorem faithful_levelVar : Faithful levelVar (fun v => ∀ m, v = .hole m → m < UInt64.size) id where
  reads v hv rest := by
    cases v with
    | param => simp [levelVar]
    | hole m => simp [levelVar, faithful_long.reads m (hv m rfl) _]
  extends_self := faithful_word.extends_self.bind fun tag => by
    match tag with
    | 0 => exact .pure
    | 1 => exact faithful_long.extends_self.bind fun _ => .pure
    | _ + 2 => exact .none

/-- A level is a word that tells its kind, and the numbers of that kind. -/
theorem faithful_level : Faithful level Level.Fits id where
  reads l hl rest := by
    cases l with
    | const n => simp [level, faithful_word.reads n hl _]
    | var v add floor =>
      obtain ⟨hv, hadd, hfloor⟩ := hl
      simp [level, faithful_levelVar.reads v hv _, faithful_word.reads add hadd _,
        faithful_word.reads floor hfloor _]
    | top => simp [level]
  extends_self := faithful_word.extends_self.bind fun tag => by
    match tag with
    | 0 => exact faithful_word.extends_self.bind fun _ => .pure
    | 1 =>
      exact faithful_levelVar.extends_self.bind fun _ =>
        faithful_word.extends_self.bind fun _ => faithful_word.extends_self.bind fun _ => .pure
    | 2 => exact .pure
    | _ + 3 => exact .none

theorem faithful_universes : Faithful universes Universe.Fits id :=
  (faithful_level.pair faithful_level).imap fun _ h => ⟨h, rfl⟩

theorem faithful_binderInfo : Faithful binderInfo (fun _ => True) id :=
  faithful_choice (fun i => by cases i <;> simp) (by decide)

theorem faithful_binder : Faithful binder Binder.Fits Binder.nameOnly :=
  (faithful_text.pair faithful_binderInfo).imap fun _ h => ⟨⟨h, trivial⟩, rfl⟩

theorem faithful_side : Faithful side (fun _ => True) id :=
  faithful_choice (fun s => by cases s <;> simp) (by decide)

theorem faithful_branchHead : Faithful branchHead (fun h => ∀ c, h = .con c → c.Fits) id where
  reads h hh rest := by
    cases h with
    | con c => simp [branchHead, faithful_globalName.reads c (hh c rfl) _]
    | zero => simp [branchHead]
    | succ => simp [branchHead]
  extends_self := faithful_word.extends_self.bind fun tag => by
    match tag with
    | 0 => exact faithful_globalName.extends_self.bind fun _ => .pure
    | 1 => exact .pure
    | 2 => exact .pure
    | _ + 3 => exact .none

section Terms

-- Their equations are made once, before the lemmas that rewrite with them.
attribute [local simp] encodeTerm Term.nameOnly

theorem encodeTerms_eq_flatMap (ts : List Term) : encodeTerms ts = ts.flatMap encodeTerm := by
  induction ts with
  | nil => rfl
  | cons t ts ih => rw [encodeTerms, ih, List.flatMap_cons]

def encodeBranch (b : Branch Term) : Bytes :=
  branchHead.encode b.head ++ (list text).encode b.names ++ encodeTerm b.body

theorem encodeBranches_eq_flatMap (bs : List (Branch Term)) :
    encodeBranches bs = bs.flatMap encodeBranch := by
  induction bs with
  | nil => rfl
  | cons b bs ih => rw [encodeBranches, ih, List.flatMap_cons, encodeBranch]

theorem length_word (n : ℕ) : (word.encode n).length = 4 := length_lowBytes 4 n

/-- A part takes fewer bytes than the whole, which begins with the number of its form. -/
theorem length_encodeTerm_lt {t : Term} {p : ℕ × Term} (hp : p ∈ t.parts) :
    (encodeTerm p.2).length < (encodeTerm t).length := by
  have hmem {s : Term} {ts : List Term} (hs : s ∈ ts) :
      (encodeTerm s).length ≤ (encodeTerms ts).length := by
    rw [encodeTerms_eq_flatMap, List.length_flatMap]
    exact List.le_sum_of_mem (List.mem_map_of_mem hs)
  have hbranch {b : Branch Term} {bs : List (Branch Term)} (hb : b ∈ bs) :
      (encodeTerm b.body).length ≤ (encodeBranches bs).length := by
    rw [encodeBranches_eq_flatMap, List.length_flatMap]
    refine le_trans ?_ (List.le_sum_of_mem (List.mem_map_of_mem hb))
    rw [encodeBranch, List.length_append]
    omega
  cases t <;> simp only [Term.parts, List.mem_cons, List.mem_append, List.mem_map, List.not_mem_nil,
    or_false] at hp
  case data n u ps | record n u ps =>
    obtain ⟨s, hs, rfl⟩ := hp
    have hs := hmem hs
    simp only [encodeTerm, List.length_append, length_word]
    omega
  case con n u ps xs | new n u ps xs =>
    obtain ⟨s, hs, rfl⟩ | ⟨s, hs, rfl⟩ := hp <;> have hs := hmem hs <;>
      simp only [encodeTerm, List.length_append, length_word] <;> omega
  case case a m bs =>
    obtain rfl | rfl | ⟨b, hb, rfl⟩ := hp
    case inr.inr =>
      have hb := hbranch hb
      simp only [encodeTerm, List.length_append, length_word]
      omega
    all_goals simp only [encodeTerm, List.length_append, length_word]; omega
  all_goals
    rcases hp with rfl | rfl | rfl | rfl <;> simp only
      [encodeTerm, List.length_append, length_word] <;> omega

/-- Reads a number of terms, given how to read one. -/
def decodeTerms (term : Bytes → Option (Term × Bytes)) (bs : Bytes) :
    Option (List Term × Bytes) := do
  let (n, bs) ← long.decode bs
  decodeMany term n bs

variable {term term' : Bytes → Option (Term × Bytes)}

theorem reads_decodeTerms {ts : List Term} (hlength : ts.length < UInt64.size)
    (hts : ∀ s ∈ ts, Reads term (encodeTerm s) s.nameOnly) :
    Reads (decodeTerms term) (long.encode ts.length ++ encodeTerms ts) (ts.map Term.nameOnly) := by
  rw [encodeTerms_eq_flatMap]
  exact (faithful_long.reads _ hlength).bind (reads_decodeMany hts)

/-- Reads a branch, given how to read its body. -/
def decodeBranch (term : Bytes → Option (Term × Bytes)) (bs : Bytes) :
    Option (Branch Term × Bytes) := do
  let (h, bs) ← branchHead.decode bs
  let (ns, bs) ← (list text).decode bs
  let (b, bs) ← term bs
  return (⟨h, ns, b⟩, bs)

theorem reads_decodeBranch {b : Branch Term} (hhead : ∀ c, b.head = .con c → c.Fits)
    (hnames : AllFit (String.utf8ByteSize · < UInt64.size) b.names)
    (hbody : Reads term (encodeTerm b.body) b.body.nameOnly) :
    Reads (decodeBranch term) (encodeBranch b) { b with body := b.body.nameOnly } := by
  intro rest
  simp [decodeBranch, encodeBranch, faithful_branchHead.reads b.head hhead _,
    faithful_text.list.reads b.names hnames _, hbody _]

/-- A term is read back if its parts are. -/
theorem reads_decodeTermWith {t : Term} (ht : t.RootFits)
    (hparts : ∀ p ∈ t.parts, Reads term (encodeTerm p.2) p.2.nameOnly) :
    Reads (decodeTermWith term) (encodeTerm t) t.nameOnly := by
  have hword {n : ℕ} (hn : n < UInt32.size) (rest : Bytes) := faithful_word.reads n hn rest
  have hterms {ts : List Term} (hlength : ts.length < UInt64.size)
      (hts : ∀ s ∈ ts, (0, s) ∈ t.parts) (rest : Bytes) :
      decodeTerms term (long.encode ts.length ++ (encodeTerms ts ++ rest)) =
        some (ts.map Term.nameOnly, rest) := by
    rw [← List.append_assoc]
    exact reads_decodeTerms hlength (fun s hs => hparts _ (hts s hs)) rest
  intro rest
  cases t with
  | univ u =>
    simp only [encodeTerm, List.append_assoc]
    exact bind_of_some (hword (by norm_num) _) (bind_of_some (faithful_universes.reads u ht _) rfl)
  | var i | hole i =>
    simp only [encodeTerm, List.append_assoc]
    exact bind_of_some (hword (by norm_num) _) (bind_of_some (faithful_long.reads i ht _) rfl)
  | ref n u =>
    simp only [encodeTerm, List.append_assoc]
    exact bind_of_some (hword (by norm_num) _) (bind_of_some (faithful_globalName.reads n ht.1 _)
      (bind_of_some (faithful_universes.reads u ht.2 _) rfl))
  | lam x a b | pi x a b | sigma x a b =>
    simp only [Term.parts, List.forall_mem_cons] at hparts
    simp only [encodeTerm, List.append_assoc]
    exact bind_of_some (hword (by norm_num) _) (bind_of_some (faithful_binder.reads x ht _)
      (bind_of_some (hparts.1 _) (bind_of_some (hparts.2.1 _) rfl)))
  | app a b | pair a b =>
    simp only [Term.parts, List.forall_mem_cons] at hparts
    simp only [encodeTerm, List.append_assoc]
    exact bind_of_some (hword (by norm_num) _)
      (bind_of_some (hparts.1 _) (bind_of_some (hparts.2.1 _) rfl))
  | letIn x t a b =>
    simp only [Term.parts, List.forall_mem_cons] at hparts
    simp only [encodeTerm, List.append_assoc]
    exact bind_of_some (hword (by norm_num) _) (bind_of_some (faithful_binder.reads x ht _)
      (bind_of_some (hparts.1 _) (bind_of_some (hparts.2.1 _) (bind_of_some (hparts.2.2.1 _) rfl))))
  | proj a s =>
    simp only [Term.parts, List.forall_mem_cons] at hparts
    simp only [encodeTerm, List.append_assoc]
    exact bind_of_some (hword (by norm_num) _) (bind_of_some (hparts.1 _)
      (bind_of_some (faithful_side.reads s trivial _) rfl))
  | data n u ps | record n u ps =>
    obtain ⟨hn, hu, hps⟩ := ht
    simp only [encodeTerm, List.append_assoc, Term.nameOnly, Term.nameOnlyAll_eq_map]
    exact bind_of_some (hword (by norm_num) _) (bind_of_some (faithful_globalName.reads n hn _)
      (bind_of_some (faithful_universes.reads u hu _)
        (bind_of_some (hterms hps (by simp [Term.parts]) _) rfl)))
  | con n u ps xs | new n u ps xs =>
    obtain ⟨hn, hu, hps, hxs⟩ := ht
    simp only [encodeTerm, List.append_assoc, Term.nameOnly, Term.nameOnlyAll_eq_map]
    exact bind_of_some (hword (by norm_num) _) (bind_of_some (faithful_globalName.reads n hn _)
      (bind_of_some (faithful_universes.reads u hu _)
        (bind_of_some (hterms hps (by simp +contextual [Term.parts]) _)
        (bind_of_some (hterms hxs (by simp +contextual [Term.parts]) _) rfl))))
  | case a m bs =>
    have hbranches : Reads (decodeMany (decodeBranch term) bs.length) (encodeBranches bs)
        (bs.map fun b => { b with body := b.body.nameOnly }) := by
      rw [encodeBranches_eq_flatMap]
      exact reads_decodeMany fun b hb =>
        reads_decodeBranch (ht.2 b hb).1 (ht.2 b hb).2
          (hparts (b.arity, b.body) (by simp [Term.parts]; grind))
    simp only [Term.parts, List.forall_mem_cons] at hparts
    simp only [encodeTerm, List.append_assoc, Term.nameOnly, Term.nameOnlyBranches_eq_map]
    exact bind_of_some (hword (by norm_num) _)
      (bind_of_some (hparts.1 _) (bind_of_some (hparts.2.1 _)
      (bind_of_some (faithful_long.reads _ ht.1 _) (bind_of_some (hbranches _) rfl))))
  | field a n i =>
    simp only [Term.parts, List.forall_mem_cons] at hparts
    simp only [encodeTerm, List.append_assoc]
    exact bind_of_some (hword (by norm_num) _) (bind_of_some (hparts.1 _)
      (bind_of_some (faithful_globalName.reads n ht.1 _)
        (bind_of_some (faithful_long.reads i ht.2 _) rfl)))
  | nat | zero | interval | left | right => exact bind_of_some (hword (by norm_num) _) rfl
  | succ a | pathLam a =>
    simp only [Term.parts, List.forall_mem_cons] at hparts
    simp only [encodeTerm, List.append_assoc]
    exact bind_of_some (hword (by norm_num) _) (bind_of_some (hparts.1 _) rfl)
  | path a b c =>
    simp only [Term.parts, List.forall_mem_cons] at hparts
    simp only [encodeTerm, List.append_assoc]
    exact bind_of_some (hword (by norm_num) _)
      (bind_of_some (hparts.1 _) (bind_of_some (hparts.2.1 _) (bind_of_some (hparts.2.2.1 _) rfl)))
  | natRec a b c d | «at» a b c d =>
    simp only [Term.parts, List.forall_mem_cons] at hparts
    simp only [encodeTerm, List.append_assoc]
    exact bind_of_some (hword (by norm_num) _)
      (bind_of_some (hparts.1 _) (bind_of_some (hparts.2.1 _)
      (bind_of_some (hparts.2.2.1 _) (bind_of_some (hparts.2.2.2.1 _) rfl))))

/-- The encoding of a term is longer than the term is deep, so that its length is enough gas. -/
theorem reads_decodeTermGas {t : Term} (ht : t.Fits) {gas : ℕ}
    (hgas : (encodeTerm t).length < gas) : Reads (decodeTermGas gas) (encodeTerm t) t.nameOnly := by
  induction t using Term.induct_parts generalizing gas with
  | step t ih =>
    obtain ⟨hroot, hparts⟩ := Term.fits_iff.mp ht
    cases gas with
    | zero => omega
    | succ gas =>
      refine reads_decodeTermWith hroot fun p hp => ih p hp (hparts p hp) ?_
      have hlt := length_encodeTerm_lt hp
      omega

/-- A better way to read the parts is a better way to read the whole. -/
theorem extends_decodeTermWith (h : Extends term term') :
    Extends (decodeTermWith term) (decodeTermWith term') := by
  have hterms : Extends (decodeTerms term) (decodeTerms term') :=
    faithful_long.extends_self.bind fun n => h.decodeMany n
  have hbranch : Extends (decodeBranch term) (decodeBranch term') :=
    faithful_branchHead.extends_self.bind fun _ =>
      faithful_text.list.extends_self.bind fun _ => h.bind fun _ => .pure
  refine faithful_word.extends_self.bind fun tag => ?_
  match tag with
  | 0 => exact faithful_universes.extends_self.bind fun _ => .pure
  | 1 | 3 => exact faithful_long.extends_self.bind fun _ => .pure
  | 2 =>
    exact faithful_globalName.extends_self.bind fun _ =>
      faithful_universes.extends_self.bind fun _ => .pure
  | 4 | 5 | 8 =>
    exact faithful_binder.extends_self.bind fun _ => h.bind fun _ => h.bind fun _ => .pure
  | 6 | 9 => exact h.bind fun _ => h.bind fun _ => .pure
  | 7 =>
    exact faithful_binder.extends_self.bind fun _ => h.bind fun _ => h.bind fun _ =>
      h.bind fun _ => .pure
  | 10 => exact h.bind fun _ => faithful_side.extends_self.bind fun _ => .pure
  | 11 | 14 =>
    exact faithful_globalName.extends_self.bind fun _ =>
      faithful_universes.extends_self.bind fun _ =>
      hterms.bind fun _ => .pure
  | 12 | 15 =>
    exact faithful_globalName.extends_self.bind fun _ =>
      faithful_universes.extends_self.bind fun _ =>
      hterms.bind fun _ => hterms.bind fun _ => .pure
  | 13 =>
    exact h.bind fun _ => h.bind fun _ => faithful_long.extends_self.bind fun n =>
      (hbranch.decodeMany n).bind fun _ => .pure
  | 16 =>
    exact h.bind fun _ => faithful_globalName.extends_self.bind fun _ =>
      faithful_long.extends_self.bind fun _ => .pure
  | 17 | 18 | 21 | 22 | 23 => exact .pure
  | 19 | 25 => exact h.bind fun _ => .pure
  | 20 | 26 => exact h.bind fun _ => h.bind fun _ => h.bind fun _ => h.bind fun _ => .pure
  | 24 => exact h.bind fun _ => h.bind fun _ => h.bind fun _ => .pure
  | _ + 27 => exact .none

theorem extends_decodeTermGas {n m : ℕ} (hle : n ≤ m) :
    Extends (decodeTermGas n) (decodeTermGas m) := by
  induction n generalizing m with
  | zero => exact .none
  | succ n ih =>
    cases m with
    | zero => omega
    | succ m => exact extends_decodeTermWith (ih (by omega))

theorem faithful_term : Faithful Codec.term Term.Fits Term.nameOnly where
  reads t ht rest := reads_decodeTermGas ht (by simp [Codec.term]) rest
  extends_self bs t rest more h := extends_decodeTermGas (by simp) bs t rest more h

end Terms

end Codec

end LeveledTypes
