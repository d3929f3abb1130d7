import LeveledTypes.Proofs.Archive.Canonical
import LeveledTypes.Proofs.Archive.Entry

/-!
# Damaged files

The format has no checksum: a file that is read as an entry of the same module, with the digest and
the dependencies that are asked for, is used. Such a file begins with the heading that the stored
entry has, followed by the complete encoding of the definitions that are used. So it is used
unnoticed only if its damage turns the bytes of the definitions into those of other definitions; any
other damage makes a file that is not used.
-/
namespace LeveledTypes

namespace Codec

theorem canonical_span : Canonical [] span.decode span.encode :=
  canonical_imap (canonical_pair (canonical_pair canonical_long canonical_long)
    (canonical_pair canonical_long canonical_long)) fun a s h => by
      obtain rfl := Option.some.inj h
      rfl

theorem canonical_digest : Canonical [] digest.decode digest.encode :=
  canonical_imap (canonical_raw 32) fun bs d h => by
    unfold Digest.ofList? at h
    split at h
    case isFalse => simp at h
    case isTrue =>
      obtain rfl := Option.some.inj h
      simp

theorem canonical_primitive : Canonical [] primitive.decode primitive.encode :=
  canonical_choice (by decide)

theorem canonical_names : Canonical [] (list globalName).decode (list globalName).encode :=
  canonical_list canonical_globalName

theorem canonical_classField : Canonical [] classField.decode classField.encode :=
  canonical_imap (canonical_pair (canonical_pair canonical_globalName canonical_term)
    (canonical_pair (canonical_option canonical_term) (canonical_option canonical_globalName)))
      fun a f h => by
      obtain rfl := Option.some.inj h
      rfl

/-- One case for each kind of body; the word in front tells them apart. -/
theorem canonical_body : Canonical [] body.decode body.encode :=
  canonical_word.bind fun tag => by
    match tag with
    | 0 =>
      exact canonical_term.bind fun _ => (canonical_option canonical_long).bind fun _ => .pure rfl
    | 1 => exact canonical_names.bind fun _ => .pure rfl
    | 2 =>
      exact canonical_globalName.bind fun _ => canonical_long.bind fun _ =>
        canonical_long.bind fun _ =>
        (canonical_option (canonical_list canonical_term)).bind fun _ => .pure rfl
    | 3 =>
      exact (canonical_list canonical_classField).bind fun _ =>
        canonical_names.bind fun _ => .pure rfl
    | 4 => exact canonical_globalName.bind fun _ => canonical_long.bind fun _ => .pure rfl
    | 5 => exact canonical_globalName.bind fun _ => canonical_term.bind fun _ => .pure rfl
    | 6 => exact canonical_primitive.bind fun _ => .pure rfl
    | 7 => exact .pure rfl
    | _ + 8 => exact .none

theorem canonical_definition : Canonical [] definition.decode definition.encode :=
  canonical_span.bind fun _ => canonical_globalName.bind fun _ =>
    (canonical_list canonical_param).bind fun _ =>
    canonical_term.bind fun _ => canonical_body.bind fun _ => canonical_names.bind fun _ =>
    canonical_digest.bind fun _ => .pure rfl

end Codec

namespace CacheEntry

open Codec

theorem canonical_codec : Canonical [] codec.decode codec.encode :=
  canonical_text.bind fun _ => canonical_digest.bind fun _ =>
    (canonical_list (canonical_pair canonical_text canonical_digest)).bind fun _ =>
    (canonical_list canonical_definition).bind fun _ => .pure rfl

/-- The bytes of an entry in front of its definitions. -/
def heading (e : CacheEntry) : Bytes :=
  header ++
    (text.encode e.module ++ Codec.digest.encode e.digest ++
      (list (text.pair Codec.digest)).encode e.deps)

theorem encode_eq_heading_append (e : CacheEntry) :
    e.encode = e.heading ++ (list definition).encode e.definitions := by
  simp only [encode_eq, heading, codec, List.append_assoc]

/-- What is decoded starts with the header. The rest of the bytes may go on behind the entry, since
decoding does not ask that all bytes are used. -/
theorem read_of_decode {e : CacheEntry} {bs : Bytes} (h : decode bs = .ok e) :
    ∃ cs rest, bs = header ++ cs ∧ codec.decode cs = some (e, rest) := by
  unfold decode at h
  split at h
  case h_1 => simp at h
  case h_2 start behind hstart =>
    split at h
    case h_1 => simp at h
    case h_2 version cs hversion =>
      split_ifs at h with hmarker hformat
      obtain rfl : start = marker := not_not.mp hmarker
      obtain rfl : version = formatVersion := not_not.mp hformat
      split at h
      case h_2 => simp at h
      case h_1 e' rest hread =>
        obtain rfl := Except.ok.inj h
        have hbs : bs = marker ++ behind := (takeBytes_eq_some hstart).2
        have hbehind : behind = word.encode formatVersion ++ cs := canonical_word _ _ _ hversion
        exact ⟨cs, rest, by rw [hbs, hbehind, header, List.append_assoc], hread⟩

/-- Only its own encoding is read as an entry. -/
theorem encode_prefix_of_decode {e : CacheEntry} {bs : Bytes} (h : decode bs = .ok e) :
    e.encode <+: bs := by
  obtain ⟨cs, rest, rfl, hread⟩ := read_of_decode h
  have hcs : cs = codec.encode e ++ rest := canonical_codec _ _ _ hread
  exact ⟨rest, by rw [hcs, encode_eq, List.append_assoc]⟩

/-- What stands behind an entry is ignored. -/
theorem decode_encode_append {e : CacheEntry} (he : e.Fits) (rest : Bytes) :
    decode (e.encode ++ rest) = .ok e.nameOnly := by
  rw [encode_eq, List.append_assoc, decode_header_append, faithful_codec.reads e he rest]

theorem encode_nameOnly {e : CacheEntry} (he : e.Fits) : e.nameOnly.encode = e.encode := by
  have hread := faithful_codec.reads e he []
  have hcanonical : codec.encode e ++ [] = codec.encode e.nameOnly ++ [] :=
    canonical_codec _ _ _ hread
  rw [encode_eq, encode_eq, ← List.append_cancel_right hcanonical]

/-- A file that is used in place of an entry has the heading of the entry, then all bytes of the
definitions that are used. These are those of the entry, up to the variables of binders, if and only
if the bytes of the entry are undamaged. -/
theorem heading_of_decode {e e' : CacheEntry} {bs : Bytes} (he : e.Fits) (h : decode bs = .ok e')
    (hmodule : e'.module = e.module) (hvalid : e'.isValid e.digest e.deps) :
    e' = { e with definitions := e'.definitions } ∧
      e.heading ++ (list definition).encode e'.definitions <+: bs ∧
      (e' = e.nameOnly ↔ e.encode <+: bs) := by
  obtain ⟨hdigest, hdeps⟩ : e'.digest = e.digest ∧ e'.deps = e.deps := by
    simpa [isValid] using hvalid
  have heq : e' = { e with definitions := e'.definitions } := by rw [← hmodule, ← hdigest, ← hdeps]
  have hprefix := encode_prefix_of_decode h
  refine ⟨heq, ?_, ?_, ?_⟩
  · have hheading : e'.heading = e.heading := by rw [heq]; rfl
    rwa [← hheading, ← encode_eq_heading_append]
  · rintro rfl
    rwa [encode_nameOnly he] at hprefix
  · rintro ⟨rest, rfl⟩
    exact Except.ok.inj (h.symm.trans (decode_encode_append he rest))

/-- A function that gives one of its two arguments. -/
def argument (i : ℕ) : Definition where
  span := ⟨1, 1, 0, 35⟩
  name := ⟨"m::argument"⟩
  tele := []
  type := .pi (.named "x") .nat (.pi (.named "y") .nat .nat)
  body := .func (.lam (.named "x") .nat (.lam (.named "y") .nat (.var i))) none

/-- An entry with that function as its one definition. -/
def projection (i : ℕ) : CacheEntry where
  module := "m"
  digest := default
  deps := []
  definitions := [argument i]

theorem fits_projection : (projection 0).Fits ∧ (projection 1).Fits := by decide

theorem decode_encode_projection : decode (projection 0).encode = .ok (projection 0) :=
  decode_encode fits_projection.1

/-- The function `\lam x y => x` is stored where `\lam x y => y` was to be: the entry is decoded and
valid, with the other definition. -/
theorem heading_of_decode_projection :
    (projection 1).Fits ∧ decode (projection 0).encode = .ok (projection 0) ∧
      (projection 0).module = (projection 1).module ∧
      (projection 0).isValid (projection 1).digest (projection 1).deps ∧
      projection 0 = { projection 1 with definitions := (projection 0).definitions } ∧
      (projection 1).heading ++ (list definition).encode (projection 0).definitions <+:
      (projection 0).encode ∧
      (projection 0 = (projection 1).nameOnly ↔
        (projection 1).encode <+: (projection 0).encode) := by
  have hfits : (projection 1).Fits := fits_projection.2
  have hread := decode_encode_projection
  have hvalid : (projection 0).isValid (projection 1).digest (projection 1).deps := by decide
  exact ⟨hfits, hread, rfl, hvalid, heading_of_decode hfits hread rfl hvalid⟩

/-- The encodings of the entries differ only in the eight bytes of the index. -/
theorem encode_projection :
    ∃ front behind, ∀ i, (projection i).encode = front ++ (long.encode i ++ behind) := by
  let d := argument 0
  refine ⟨(projection 0).heading ++
    (long.encode 1 ++ (span.encode d.span ++ globalName.encode d.name ++
      (list param).encode d.tele ++ Codec.term.encode d.type ++
      (word.encode 0 ++ (word.encode 4 ++ binder.encode (.named "x") ++
    encodeTerm .nat ++ (word.encode 4 ++ binder.encode (.named "y") ++ encodeTerm .nat ++
      word.encode 1))))),
    (option long).encode none ++
    ((list globalName).encode d.deps ++ Codec.digest.encode d.digest), fun i => ?_⟩
  have hterm : Codec.term.encode (.lam (.named "x") .nat (.lam (.named "y") .nat (.var i))) =
      word.encode 4 ++ binder.encode (.named "x") ++ encodeTerm .nat ++
        (word.encode 4 ++ binder.encode (.named "y") ++ encodeTerm .nat ++
          (word.encode 1 ++ long.encode i)) := rfl
  rw [encode_eq_heading_append]
  simp only [projection, argument, list, definition, body, hterm, List.flatMap_cons,
    List.flatMap_nil, List.append_nil, List.append_assoc, List.length_singleton, d]
  rfl

/-- A byte of a file is changed, and the function that is read from it gives the other argument. -/
theorem changed_of_decode_projection : ∃ front behind e,
    (projection 1).encode = front ++ 1 :: behind ∧ decode (front ++ 0 :: behind) = .ok e ∧
      e.module = (projection 1).module ∧ e.isValid (projection 1).digest (projection 1).deps ∧
      e ≠ projection 1 := by
  obtain ⟨front, behind, hencode⟩ := encode_projection
  have hone : long.encode 1 = 1 :: [0, 0, 0, 0, 0, 0, 0] := by decide
  have hzero : long.encode 0 = 0 :: [0, 0, 0, 0, 0, 0, 0] := by decide
  refine ⟨front, [0, 0, 0, 0, 0, 0, 0] ++ behind, projection 0, ?_, ?_, rfl,
    by decide, by simp [projection, argument]⟩
  · rw [hencode, hone, List.cons_append]
  · rw [← List.cons_append, ← hzero, ← hencode, decode_encode_projection]

end CacheEntry

end LeveledTypes
