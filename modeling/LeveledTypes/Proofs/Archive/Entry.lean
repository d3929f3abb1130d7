import LeveledTypes.Proofs.Archive.Term

/-!
# What is kept of a stored entry

Definitions and entries whose numbers fit the format are read back, with the names of their binders
in place of the binders' variables. No entry can be read from a strict part of its encoding.
-/
namespace LeveledTypes

open Codec (AllFit)

/-- Leaves nothing of the variable of a parameter and of those in its type but their names. -/
def Param.nameOnly (p : Param Term) : Param Term :=
  { p.toBinder.nameOnly with type := p.type.nameOnly }

/-- Leaves nothing of the variables in the terms of a field but their names. -/
def ClassField.nameOnly (f : ClassField) : ClassField :=
  { f with type := f.type.nameOnly, default := f.default.map Term.nameOnly }

namespace Codec

theorem faithful_span : Faithful span Span.Fits id :=
  ((faithful_long.pair faithful_long).pair (faithful_long.pair faithful_long)).imap
    fun _ h => ⟨h, rfl⟩

theorem faithful_digest : Faithful digest (fun _ => True) id :=
  (faithful_raw 32).imap fun d _ => by
    obtain ⟨⟨bytes, hsize⟩⟩ := d
    simp [Digest.ofList?, hsize]

theorem faithful_primitive : Faithful primitive (fun _ => True) id :=
  faithful_choice (fun p => by cases p <;> simp) (by decide)

theorem faithful_param : Faithful param Param.Fits Param.nameOnly :=
  (faithful_binder.pair faithful_term).imap fun _ h => ⟨h, rfl⟩

theorem faithful_names : Faithful (list globalName) (AllFit GlobalName.Fits) id := by
  simpa using faithful_globalName.list

theorem faithful_classField : Faithful classField ClassField.Fits ClassField.nameOnly :=
  ((faithful_globalName.pair faithful_term).pair
    (faithful_term.option.pair faithful_globalName.option)).imap
    fun f h => ⟨h, by simp [ClassField.nameOnly]⟩

/-- One case for each kind of body. Terms lose the places of their variables, everything else is
read as it was written. -/
theorem faithful_body : Faithful body Body.Fits (Body.mapTerms Term.nameOnly) where
  reads b hb rest := by
    have hword {n : ℕ} (hn : n < UInt32.size) (rest : Bytes) := faithful_word.reads n hn rest
    cases b with
    | func b k =>
      simp only [body, List.append_assoc]
      exact bind_of_some (hword (by norm_num) _)
        (bind_of_some (Faithful.reads faithful_term b hb.1 _)
        (bind_of_some (faithful_long.option.reads k hb.2 _) (by simp [Body.mapTerms])))
    | data cs =>
      simp only [body, List.append_assoc]
      exact bind_of_some (hword (by norm_num) _)
        (bind_of_some (Faithful.reads faithful_names cs hb _) rfl)
    | constructor d i n ps =>
      obtain ⟨hd, hi, hn, hps⟩ := hb
      simp only [body, List.append_assoc]
      exact bind_of_some (hword (by norm_num) _)
        (bind_of_some (Faithful.reads faithful_globalName d hd _)
        (bind_of_some (faithful_long.reads i hi _) (bind_of_some (faithful_long.reads n hn _)
          (bind_of_some (faithful_term.list.option.reads ps hps _) rfl))))
    | cls fs ss =>
      simp only [body, List.append_assoc]
      exact bind_of_some (hword (by norm_num) _)
        (bind_of_some ((Faithful.list faithful_classField).reads fs hb.1 _)
        (bind_of_some (Faithful.reads faithful_names ss hb.2 _) rfl))
    | field c i =>
      simp only [body, List.append_assoc]
      exact bind_of_some (hword (by norm_num) _)
        (bind_of_some (Faithful.reads faithful_globalName c hb.1 _)
        (bind_of_some (faithful_long.reads i hb.2 _) rfl))
    | inst c b =>
      simp only [body, List.append_assoc]
      exact bind_of_some (hword (by norm_num) _)
        (bind_of_some (Faithful.reads faithful_globalName c hb.1 _)
        (bind_of_some (Faithful.reads faithful_term b hb.2 _) rfl))
    | primitive p =>
      simp only [body, List.append_assoc]
      exact bind_of_some (hword (by norm_num) _)
        (bind_of_some (Faithful.reads faithful_primitive p trivial _) rfl)
    | pending => exact bind_of_some (hword (by norm_num) _) rfl
  extends_self := faithful_word.extends_self.bind fun tag => by
    match tag with
    | 0 =>
      exact faithful_term.extends_self.bind fun _ =>
        faithful_long.option.extends_self.bind fun _ => .pure
    | 1 => exact faithful_names.extends_self.bind fun _ => .pure
    | 2 =>
      exact faithful_globalName.extends_self.bind fun _ => faithful_long.extends_self.bind fun _ =>
        faithful_long.extends_self.bind fun _ =>
          faithful_term.list.option.extends_self.bind fun _ => .pure
    | 3 =>
      exact faithful_classField.list.extends_self.bind fun _ =>
        faithful_names.extends_self.bind fun _ => .pure
    | 4 =>
      exact faithful_globalName.extends_self.bind fun _ =>
        faithful_long.extends_self.bind fun _ => .pure
    | 5 =>
      exact faithful_globalName.extends_self.bind fun _ =>
        faithful_term.extends_self.bind fun _ => .pure
    | 6 => exact faithful_primitive.extends_self.bind fun _ => .pure
    | 7 => exact .pure
    | _ + 8 => exact .none

/-- A definition is written field by field, so that its codec reads one field after the other. -/
theorem faithful_definition : Faithful definition Definition.Fits Definition.nameOnly where
  reads d hd rest := by
    simp only [definition, List.append_assoc]
    exact bind_of_some (Faithful.reads faithful_span _ hd.span _)
      (bind_of_some (Faithful.reads faithful_globalName _ hd.name _)
      (bind_of_some ((Faithful.list faithful_param).reads _ hd.tele _)
        (bind_of_some (Faithful.reads faithful_term _ hd.type _)
        (bind_of_some (Faithful.reads faithful_body _ hd.body _)
          (bind_of_some (Faithful.reads faithful_names _ hd.deps _)
          (bind_of_some (Faithful.reads faithful_digest _ trivial _) rfl))))))
  extends_self := faithful_span.extends_self.bind fun _ =>
    faithful_globalName.extends_self.bind fun _ =>
    faithful_param.list.extends_self.bind fun _ => faithful_term.extends_self.bind fun _ =>
    faithful_body.extends_self.bind fun _ => faithful_names.extends_self.bind fun _ =>
    faithful_digest.extends_self.bind fun _ => .pure

theorem faithful_deps :
    Faithful (list (text.pair digest))
      (AllFit fun p : Dependency => p.1.utf8ByteSize < UInt64.size) id := by
  simpa using (faithful_text.pair faithful_digest).list

end Codec

namespace CacheEntry

/-- Leaves nothing of the variables of binders but their names. -/
def nameOnly (e : CacheEntry) : CacheEntry :=
  { e with definitions := e.definitions.map Definition.nameOnly }

open Codec

/-- What is read back of an entry is the entry without the variables of its binders. -/
theorem faithful_codec : Faithful codec Fits nameOnly where
  reads e he rest := by
    obtain ⟨⟨hmodule, hdeps⟩, hdefs⟩ := he
    simp only [codec, List.append_assoc]
    exact bind_of_some (Faithful.reads faithful_text _ hmodule _)
      (bind_of_some (Faithful.reads faithful_digest _ trivial _)
      (bind_of_some (Faithful.reads faithful_deps _ hdeps _)
        (bind_of_some ((Faithful.list faithful_definition).reads _ hdefs _) rfl)))
  extends_self := faithful_text.extends_self.bind fun _ =>
    faithful_digest.extends_self.bind fun _ =>
    faithful_deps.extends_self.bind fun _ =>
      faithful_definition.list.extends_self.bind fun _ => .pure

/-- The bytes that all entries start with. -/
def header : Bytes := marker ++ word.encode formatVersion

/-- Past the marker and the version an entry is read by its codec. -/
theorem decode_header_append (bs : Bytes) :
    decode (header ++ bs) = match codec.decode bs with
      | some (e, _) => .ok e
      | none => .error .damaged := by
  have hmarker : takeBytes 4 (marker ++ (word.encode formatVersion ++ bs)) =
      some (marker, word.encode formatVersion ++ bs) :=
    reads_takeBytes (n := 4) rfl _
  simp only [decode, header, List.append_assoc, hmarker,
    decode_word (show formatVersion < 2 ^ 32 by decide)]
  rfl

theorem encode_eq (e : CacheEntry) : e.encode = header ++ codec.encode e := rfl

theorem decode_encode {e : CacheEntry} (he : e.Fits) : decode e.encode = .ok e.nameOnly := by
  have hread := Faithful.reads faithful_codec e he []
  rw [List.append_nil] at hread
  rw [encode_eq, decode_header_append, hread]

/-- What can be encoded fits, so that it is read back. -/
theorem encode?_eq_some {e : CacheEntry} {bs : Bytes} :
    e.encode? = some bs ↔ e.Fits ∧ e.encode = bs := by
  rw [encode?, Option.ite_none_right_eq_some, Option.some.injEq]

theorem decode_of_length_lt {bs : Bytes} (h : bs.length < 8) : decode bs = .error .badMagic := by
  have hword (cs : Bytes) (hcs : cs.length < 4) : word.decode cs = none := by
    simp [word, nat, takeBytes, Nat.not_le.mpr hcs]
  by_cases hlength : 4 ≤ bs.length
  · have hrest : (bs.drop 4).length < 4 := by rw [List.length_drop]; omega
    simp [decode, takeBytes, hlength, hword _ hrest]
  · simp [decode, takeBytes, hlength]

/-- No entry is read from a part of its encoding; the error tells whether the header was there. -/
theorem decode_of_prefix {e : CacheEntry} (he : e.Fits) {p : Bytes} (hp : p <+: e.encode)
    (hne : p ≠ e.encode) : decode p = .error (if p.length < 8 then .badMagic else .damaged) := by
  split
  case isTrue h => exact decode_of_length_lt h
  case isFalse h =>
    rw [encode_eq] at hp hne
    obtain ⟨bs, rfl⟩ : header <+: p := by
      refine List.prefix_of_prefix_length_le (List.prefix_append _ _) hp ?_
      rw [show header.length = 8 from rfl]
      omega
    have hextends : Extends codec.decode codec.decode := Faithful.extends_self faithful_codec
    have hreads := Faithful.reads faithful_codec e he
    have hbs : codec.decode bs = none := Extends.eq_none_of_prefix hextends hreads
      ((List.prefix_append_right_inj _).mp hp) fun h => hne (by rw [h])
    rw [decode_header_append, hbs]

/-- An entry is read back from its encoding up to the variables of its binders, and from no strict
part of it. -/
theorem decode_encode_and_not_of_prefix {e : CacheEntry} (he : e.Fits) :
    decode e.encode = .ok e.nameOnly ∧ ∀ p, p <+: e.encode → p ≠ e.encode →
    ∃ c, decode p = .error c :=
  ⟨decode_encode he, fun _ hp hne => ⟨_, decode_of_prefix he hp hne⟩⟩

/-- An entry whose one definition is a function that binds a variable of a text. -/
def identity (x : Variable) : CacheEntry where
  module := "m"
  digest := default
  deps := [("base", default)]
  definitions := [{
    span := ⟨1, 1, 0, 32⟩
    name := ⟨"m::identity"⟩
    tele := []
    type := .pi (.named "n") .nat .nat
    body := .func (.lam ⟨x, .explicit⟩ .nat (.var 0)) none }]

/-- An entry with the identity on numbers, whose binder stands for a variable of its own, which is
not stored. -/
theorem decode_encode_and_not_of_prefix_identity :
    (identity ⟨"n", 7⟩).Fits ∧ decode (identity ⟨"n", 7⟩).encode = .ok (identity ⟨"n", 0⟩) ∧
      ∀ p, p <+: (identity ⟨"n", 7⟩).encode → p ≠ (identity ⟨"n", 7⟩).encode →
        ∃ c, decode p = .error c := by
  have hfits : (identity ⟨"n", 7⟩).Fits := by decide
  exact ⟨hfits, decode_encode_and_not_of_prefix hfits⟩

end CacheEntry

end LeveledTypes
