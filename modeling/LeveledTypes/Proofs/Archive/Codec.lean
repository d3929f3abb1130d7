import LeveledTypes.Archive.Fits
import Mathlib.Tactic

/-!
# What codecs read

A codec is faithful to the values that fit its format if it reads, in front of any bytes, what it
wrote, and if bytes that are added behind never change what it reads. The second half makes every
encoding self-delimiting: a codec that reads a part of an encoding would read that part of the whole
one too.
-/
namespace LeveledTypes.Codec

variable {α β : Type}

/-- The bytes are read as the value in front of any others. -/
def Reads (decode : Bytes → Option (α × Bytes)) (bs : Bytes) (a : α) : Prop :=
  ∀ rest, decode (bs ++ rest) = some (a, rest)

/-- The second way to read finds in front of more bytes what the first one finds. -/
def Extends (decode decode' : Bytes → Option (α × Bytes)) : Prop :=
  ∀ bs a rest more, decode bs = some (a, rest) → decode' (bs ++ more) = some (a, rest ++ more)

/-- A codec keeps of each value that fits the format what `kept` says. -/
structure Faithful (c : Codec α) (Fits : α → Prop) (kept : α → α) : Prop where
  reads : ∀ a, Fits a → Reads c.decode (c.encode a) (kept a)
  extends_self : Extends c.decode c.decode

section Steps
variable {d d' : Bytes → Option (α × Bytes)} {f : α → Bytes → Option (β × Bytes)} {a : α}
  {b : β} {bs cs : Bytes}

/-- One part is read, then what follows it. -/
theorem bind_of_some {k : α × Bytes → Option β} {rest : Bytes} {r : Option β}
    (h : d bs = some (a, rest)) (hk : k (a, rest) = r) : d bs >>= k = r := by
  rw [h]
  exact hk

theorem Reads.bind (h : Reads d bs a) (hf : ∀ rest, f a (cs ++ rest) = some (b, rest)) :
    Reads (fun bs => do let (a, bs) ← d bs; f a bs) (bs ++ cs) b := by
  intro rest
  simp only [List.append_assoc, h (cs ++ rest)]
  exact hf rest

theorem Extends.bind {k k' : α × Bytes → Option (β × Bytes)} (h : Extends d d')
    (hk : ∀ a, Extends (fun bs => k (a, bs)) fun bs => k' (a, bs)) :
    Extends (fun bs => d bs >>= k) fun bs => d' bs >>= k' := by
  intro bs b rest more hr
  obtain ⟨⟨a, cs⟩, ha, hb⟩ := Option.bind_eq_some_iff.mp hr
  exact Option.bind_eq_some_iff.mpr ⟨(a, cs ++ more), h _ _ _ _ ha, hk a _ _ _ _ hb⟩

theorem Extends.pure : Extends (fun bs => Option.some (a, bs)) (fun bs => Option.some (a, bs)) := by
  rintro bs b rest more ⟨⟩
  rfl

theorem Extends.attempt (o : Option α) :
    Extends (fun bs => do return (← o, bs)) (fun bs => do return (← o, bs)) := by
  cases o with
  | none => exact fun _ _ _ _ h => nomatch h
  | some a => exact .pure

theorem Extends.none : Extends (fun _ => (Option.none : Option (α × Bytes))) d := by
  rintro bs b rest more ⟨⟩

/-- What is read of a part of some bytes leaves a rest of all of them. -/
theorem Extends.eq_none_of_prefix (h : Extends d d) (hr : Reads d bs a) {p : Bytes} (hp : p <+: bs)
    (hne : p ≠ bs) : d p = Option.none := by
  obtain ⟨more, rfl⟩ := hp
  by_contra hsome
  obtain ⟨⟨b, rest⟩, hb⟩ := Option.ne_none_iff_exists'.mp hsome
  have hwhole : d (p ++ more) = some (a, []) := by simpa using hr []
  have hrest : rest ++ more = [] := by
    have := (h p b rest more hb).symm.trans hwhole
    simp_all
  exact hne (by rw [(List.append_eq_nil_iff.mp hrest).2, List.append_nil])

end Steps

section Numbers

@[simp] theorem length_lowBytes (w n : ℕ) : (lowBytes w n).length = w := by
  induction w generalizing n with
  | zero => rfl
  | succ w ih => simp [lowBytes, ih]

theorem ofLowBytes_lowBytes {w n : ℕ} (h : n < 256 ^ w) : ofLowBytes (lowBytes w n) = n := by
  induction w generalizing n with
  | zero =>
    have hzero : n = 0 := by simpa using h
    simp [lowBytes, ofLowBytes, hzero]
  | succ w ih =>
    have hdiv : n / 256 < 256 ^ w := Nat.div_lt_of_lt_mul (by rwa [pow_succ'] at h)
    simp only [lowBytes, ofLowBytes, ih hdiv, UInt8.toNat_ofNat']
    omega

theorem reads_takeBytes {n : ℕ} {bs : Bytes} (h : bs.length = n) : Reads (takeBytes n) bs bs := by
  subst h
  intro rest
  simp [takeBytes]

theorem extends_takeBytes (n : ℕ) : Extends (takeBytes n) (takeBytes n) := by
  intro bs a rest more h
  unfold takeBytes at h ⊢
  split at h
  case isFalse => simp at h
  case isTrue hle =>
    obtain ⟨rfl, rfl⟩ : bs.take n = a ∧ bs.drop n = rest := by simpa using h
    simp [List.take_append_of_le_length hle, List.drop_append_of_le_length hle,
      Nat.le_add_right_of_le hle]

theorem faithful_nat (w : ℕ) : Faithful (nat w) (· < 256 ^ w) id where
  reads n hn := by
    intro rest
    refine bind_of_some (reads_takeBytes (length_lowBytes w n) rest) ?_
    simp only [ofLowBytes_lowBytes hn]
    rfl
  extends_self := (extends_takeBytes w).bind fun _ => .pure

theorem faithful_word : Faithful word (· < UInt32.size) id := faithful_nat 4

theorem faithful_long : Faithful long (· < UInt64.size) id := faithful_nat 8

theorem faithful_raw (n : ℕ) : Faithful (raw n) (·.length = n) id where
  reads _ h := reads_takeBytes h
  extends_self := extends_takeBytes n

end Numbers

section Combinators
variable {c : Codec α} {d : Codec β} {P : α → Prop} {Q : β → Prop} {f : α → α} {g : β → β}

theorem Faithful.imap {forth : α → Option β} {back : β → α} (hc : Faithful c P f)
    (hreads : ∀ b, Q b → P (back b) ∧ forth (f (back b)) = some (g b)) :
    Faithful (c.imap forth back) Q g where
  reads b hb rest := by
    obtain ⟨hfits, hforth⟩ := hreads b hb
    simp [Codec.imap, hc.reads _ hfits rest, hforth]
  extends_self := hc.extends_self.bind fun a => .attempt (forth a)

theorem Faithful.pair (hc : Faithful c P f) (hd : Faithful d Q g) :
    Faithful (c.pair d) (fun p => P p.1 ∧ Q p.2) (Prod.map f g) where
  reads p hp rest := by
    simp [Codec.pair, hc.reads _ hp.1 _, hd.reads _ hp.2 _]
    rfl
  extends_self := hc.extends_self.bind fun _ => hd.extends_self.bind fun _ => .pure

theorem reads_decodeMany {dec : Bytes → Option (α × Bytes)} {enc : α → Bytes} {as : List α}
    (h : ∀ a ∈ as, Reads dec (enc a) (f a)) :
    Reads (decodeMany dec as.length) (as.flatMap enc) (as.map f) := by
  induction as with
  | nil => exact fun _ => rfl
  | cons a as ih =>
    obtain ⟨ha, has⟩ := List.forall_mem_cons.mp h
    intro rest
    simp [decodeMany, ha _, ih has rest]

theorem Extends.decodeMany {dec dec' : Bytes → Option (α × Bytes)} (h : Extends dec dec') (n : ℕ) :
    Extends (decodeMany dec n) (decodeMany dec' n) := by
  induction n with
  | zero => exact .pure
  | succ n ih => exact h.bind fun _ => ih.bind fun _ => .pure

theorem Faithful.list (hc : Faithful c P f) : Faithful (list c) (AllFit P) (List.map f) where
  reads _ h := (faithful_long.reads _ h.1).bind (reads_decodeMany fun a ha => hc.reads a (h.2 a ha))
  extends_self := faithful_long.extends_self.bind fun n => hc.extends_self.decodeMany n

/-- A word in front tells whether there is a value. The word has a fixed width, so that added bytes
cannot change which case is read. -/
theorem Faithful.option (hc : Faithful c P f) :
    Faithful (option c) (fun o => ∀ a ∈ o, P a) (Option.map f) where
  reads o h := by
    cases o with
    | none => exact fun _ => rfl
    | some a =>
      intro rest
      change ((c.decode (c.encode a ++ rest)).bind fun p => some (some p.1, p.2)) = _
      rw [hc.reads a (h a rfl) rest]
      rfl
  extends_self := by
    intro bs o rest more h
    cases bs with
    | nil => cases h
    | cons b bs =>
      by_cases hzero : b = 0
      · subst hzero
        cases h
        rfl
      · by_cases hone : b = 1
        · subst hone
          have hsome : Extends (fun bs => c.decode bs >>= fun p => some (some p.1, p.2))
              (fun bs => c.decode bs >>= fun p => some (some p.1, p.2)) :=
                hc.extends_self.bind fun a => .pure (a := some a)
          exact hsome bs o rest more h
        · simp [Codec.option, hzero, hone] at h

theorem faithful_choice [DecidableEq α] [Inhabited α] {values : List α} (hvalues : ∀ a, a ∈ values)
    (hlength : values.length < UInt32.size) : Faithful (choice values) (fun _ => True) id :=
  faithful_word.imap fun a _ => by
    obtain ⟨i, hi⟩ : ∃ i, values.idxOf? a = some i := by
      refine Option.ne_none_iff_exists'.mp fun hnone => ?_
      exact List.idxOf?_eq_none_iff.mp hnone (hvalues a)
    obtain ⟨hlt, ha, -⟩ := List.idxOf?_eq_some_iff.mp hi
    simp only [hi, Option.getD_some]
    exact ⟨by omega, by simp [ha, hlt]⟩

end Combinators

section Texts

/-- The loop that lists the bytes of an array collects them in reverse, from a place on. -/
theorem toListLoop_eq (bs : ByteArray) (i : ℕ) (acc : List UInt8) :
    ByteArray.toList.loop bs i acc = acc.reverse ++ bs.data.toList.drop i := by
  fun_induction ByteArray.toList.loop bs i acc with
  | case1 i acc h ih =>
    have hi : i < bs.data.toList.length := by simpa using h
    have hget : bs.get! i = bs.data.toList[i] := by
      rw [ByteArray.get!, getElem!_pos bs.data i h, Array.getElem_toList]
    rw [ih, List.drop_eq_getElem_cons hi, hget]
    simp
  | case2 i acc h =>
    have hdrop : bs.data.toList.drop i = [] :=
      List.drop_of_length_le (by simpa using Nat.not_lt.mp h)
    simp [hdrop]

theorem toList_eq (bs : ByteArray) : bs.toList = bs.data.toList := by
  rw [ByteArray.toList, toListLoop_eq]
  simp

theorem fromUTF8?_toByteArray (s : String) :
    String.fromUTF8? ⟨s.toByteArray.toList.toArray⟩ = some s := by
  rw [toList_eq, Array.toArray_toList]
  exact dif_pos s.isValidUTF8

theorem faithful_text : Faithful text (·.utf8ByteSize < UInt64.size) id where
  reads s hs rest := by
    have hlength : s.toByteArray.toList.length = s.utf8ByteSize := by
      rw [toList_eq, Array.length_toList]
      rfl
    simp [text, faithful_long.reads _ hs _, reads_takeBytes hlength rest, fromUTF8?_toByteArray]
  extends_self := faithful_long.extends_self.bind fun n => (extends_takeBytes n).bind fun b =>
    .attempt (String.fromUTF8? ⟨b.toArray⟩)

end Texts

end LeveledTypes.Codec
