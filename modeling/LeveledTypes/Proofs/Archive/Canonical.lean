import LeveledTypes.Proofs.Archive.Term

/-!
# What is read is what is written

Each codec reads a value from no other bytes than those that it writes for the value. So the bytes
in front of a rest are known from what has been read of them: whoever changes a stored value leaves
the encoding of another one.
-/
namespace LeveledTypes.Codec

variable {α β : Type}

/-- The bytes that are read, behind others that have been read before, are what is written. -/
def Canonical (before : Bytes) (decode : Bytes → Option (α × Bytes)) (encode : α → Bytes) : Prop :=
  ∀ bs a rest, decode bs = some (a, rest) → before ++ bs = encode a ++ rest

section Steps
variable {before : Bytes} {d : Bytes → Option (α × Bytes)} {enc : α → Bytes} {encode : β → Bytes}

theorem Canonical.bind {k : α × Bytes → Option (β × Bytes)} (h : Canonical [] d enc)
    (hk : ∀ a, Canonical (before ++ enc a) (fun bs => k (a, bs)) encode) :
    Canonical before (fun bs => d bs >>= k) encode := by
  intro bs b rest hr
  obtain ⟨⟨a, cs⟩, ha, hb⟩ := Option.bind_eq_some_iff.mp hr
  have hbs : bs = enc a ++ cs := h bs a cs ha
  rw [hbs, ← List.append_assoc]
  exact hk a cs b rest hb

theorem Canonical.pure {b : β} (h : encode b = before) :
    Canonical before (fun bs => some (b, bs)) encode := by
  rintro bs b' rest ⟨⟩
  rw [h]

theorem Canonical.attempt {o : Option β} (h : ∀ b, o = some b → encode b = before) :
    Canonical before (fun bs => do return (← o, bs)) encode := by
  cases o with
  | none => exact fun _ _ _ h => nomatch h
  | some b => exact .pure (h b rfl)

theorem Canonical.none : Canonical before (fun _ => Option.none) encode := by
  rintro bs b rest ⟨⟩

end Steps

section Numbers

theorem lowBytes_ofLowBytes (bs : Bytes) : lowBytes bs.length (ofLowBytes bs) = bs := by
  induction bs with
  | nil => rfl
  | cons b bs ih =>
    have hb := b.toNat_lt
    have hmod : (b.toNat + 256 * ofLowBytes bs) % 256 = b.toNat := by omega
    have hdiv : (b.toNat + 256 * ofLowBytes bs) / 256 = ofLowBytes bs := by omega
    rw [List.length_cons, ofLowBytes, lowBytes, hmod, hdiv, ih, UInt8.ofNat_toNat]

theorem takeBytes_eq_some {n : ℕ} {bs b rest : Bytes} (h : takeBytes n bs = some (b, rest)) :
    b.length = n ∧ bs = b ++ rest := by
  unfold takeBytes at h
  split at h
  case isFalse => simp at h
  case isTrue hle =>
    obtain ⟨rfl, rfl⟩ : bs.take n = b ∧ bs.drop n = rest := by simpa using h
    exact ⟨List.length_take_of_le hle, (List.take_append_drop n bs).symm⟩

theorem canonical_raw (n : ℕ) : Canonical [] (raw n).decode (raw n).encode :=
  fun _ _ _ h => (takeBytes_eq_some h).2

theorem canonical_nat (w : ℕ) : Canonical [] (nat w).decode (nat w).encode := by
  intro bs n rest h
  obtain ⟨⟨b, cs⟩, hb, hn⟩ := Option.bind_eq_some_iff.mp h
  obtain ⟨rfl, rfl⟩ : ofLowBytes b = n ∧ cs = rest := by simpa using hn
  obtain ⟨rfl, rfl⟩ := takeBytes_eq_some hb
  exact congrArg (· ++ cs) (lowBytes_ofLowBytes b).symm

theorem canonical_word : Canonical [] word.decode word.encode := canonical_nat 4

theorem canonical_long : Canonical [] long.decode long.encode := canonical_nat 8

end Numbers

section Combinators
variable {c : Codec α} {d : Codec β} {before : Bytes}

theorem canonical_imap {forth : α → Option β} {back : β → α} (hc : Canonical [] c.decode c.encode)
    (hback : ∀ a b, forth a = some b → back b = a) :
    Canonical [] (c.imap forth back).decode (c.imap forth back).encode :=
  hc.bind fun a => .attempt fun b hb => congrArg c.encode (hback a b hb)

theorem canonical_pair (hc : Canonical [] c.decode c.encode) (hd : Canonical [] d.decode d.encode) :
    Canonical [] (c.pair d).decode (c.pair d).encode :=
  hc.bind fun _ => hd.bind fun _ => .pure rfl

/-- As many values are read as have been asked for. -/
theorem canonical_decodeMany {dec : Bytes → Option (α × Bytes)} {enc : α → Bytes}
    (h : Canonical [] dec enc) (n : ℕ) :
    Canonical (before ++ long.encode n) (decodeMany dec n) fun as => before ++
      long.encode as.length ++ as.flatMap enc := by
  have hmany {n : ℕ} {bs rest : Bytes} {as : List α} (has : decodeMany dec n bs = some (as, rest)) :
      as.length = n ∧ bs = as.flatMap enc ++ rest := by
    induction n generalizing bs as with
    | zero =>
      obtain ⟨rfl, rfl⟩ : [] = as ∧ bs = rest := by simpa [decodeMany] using has
      exact ⟨rfl, rfl⟩
    | succ n ih =>
      obtain ⟨⟨a, cs⟩, ha, has⟩ := Option.bind_eq_some_iff.mp has
      obtain ⟨⟨as', rest'⟩, has', heq⟩ := Option.bind_eq_some_iff.mp has
      obtain ⟨rfl, rfl⟩ : a :: as' = as ∧ rest' = rest := by simpa using heq
      obtain ⟨hlength, rfl⟩ := ih has'
      have hbs : bs = enc a ++ _ := h bs a _ ha
      exact ⟨by rw [List.length_cons, hlength], by rw [hbs, List.flatMap_cons, List.append_assoc]⟩
  intro bs as rest has
  obtain ⟨rfl, rfl⟩ := hmany has
  simp only [List.append_assoc]

theorem canonical_list (hc : Canonical [] c.decode c.encode) :
    Canonical [] (list c).decode (list c).encode :=
  canonical_long.bind fun n => canonical_decodeMany hc n

/-- A value that may be missing is canonical if the value is: its word is zero or one, and nothing
else is read. -/
theorem canonical_option (hc : Canonical [] c.decode c.encode) :
    Canonical [] (option c).decode (option c).encode := by
  intro bs o rest h
  obtain _ | ⟨b, bs⟩ := bs
  · cases h
  · by_cases hzero : b = 0
    · subst hzero
      cases h
      rfl
    · by_cases hone : b = 1
      · subst hone
        have hsome : Canonical [1] (fun bs => c.decode bs >>= fun p => some (some p.1, p.2))
            (option c).encode :=
          hc.bind fun a => .pure (b := some a) rfl
        exact hsome bs o rest h
      · simp [option, hzero, hone] at h

theorem canonical_choice [DecidableEq α] [Inhabited α] {values : List α} (hvalues : values.Nodup) :
    Canonical [] (choice values).decode (choice values).encode :=
  canonical_imap canonical_word fun i a hi => by
    obtain ⟨hlt, rfl⟩ := List.getElem?_eq_some_iff.mp hi
    rw [List.idxOf?_eq_some_iff.mpr ⟨hlt, rfl, fun j hj heq => hj.ne ?_⟩, Option.getD_some]
    exact hvalues.getElem_inj_iff.mp heq

end Combinators

section Texts

/-- A text is its length and its bytes, and only bytes that are UTF-8 are read, so that the text
determines them. -/
theorem canonical_text : Canonical [] text.decode text.encode := by
  refine canonical_long.bind fun n => ?_
  intro bs s rest h
  obtain ⟨⟨b, cs⟩, hb, hs⟩ := Option.bind_eq_some_iff.mp h
  obtain ⟨s', hs', heq⟩ := Option.bind_eq_some_iff.mp hs
  obtain ⟨rfl, rfl⟩ : s' = s ∧ cs = rest := by simpa using heq
  obtain ⟨rfl, rfl⟩ := takeBytes_eq_some hb
  have hbytes : s'.toByteArray = ⟨b.toArray⟩ := by
    unfold String.fromUTF8? at hs'
    split at hs'
    case isFalse => simp at hs'
    case isTrue => obtain rfl := Option.some.inj hs'; rfl
  have hlist : s'.toUTF8.toList = b := by
    rw [toList_eq, String.toUTF8, hbytes]
  have hsize : s'.utf8ByteSize = b.length := by
    rw [← hlist, toList_eq]
    rfl
  simp only [text, hlist, hsize, List.nil_append, List.append_assoc]

theorem canonical_globalName : Canonical [] globalName.decode globalName.encode :=
  canonical_imap canonical_text fun s n h => by
    obtain rfl := Option.some.inj h
    rfl

end Texts

section Parts

theorem canonical_levelVar : Canonical [] levelVar.decode levelVar.encode :=
  canonical_word.bind fun tag => by
    match tag with
    | 0 => exact .pure rfl
    | 1 => exact canonical_long.bind fun _ => .pure rfl
    | _ + 2 => exact .none

theorem canonical_level : Canonical [] level.decode level.encode :=
  canonical_word.bind fun tag => by
    match tag with
    | 0 => exact canonical_word.bind fun _ => .pure rfl
    | 1 =>
      exact canonical_levelVar.bind fun _ => canonical_word.bind fun _ =>
        canonical_word.bind fun _ => .pure rfl
    | 2 => exact .pure rfl
    | _ + 3 => exact .none

theorem canonical_universes : Canonical [] universes.decode universes.encode :=
  canonical_imap (canonical_pair canonical_level canonical_level) fun a u h => by
    obtain rfl := Option.some.inj h
    rfl

theorem canonical_binder : Canonical [] binder.decode binder.encode :=
  canonical_imap (canonical_pair canonical_text (canonical_choice (by decide))) fun a x h => by
    obtain rfl := Option.some.inj h
    rfl

theorem canonical_side : Canonical [] side.decode side.encode := canonical_choice (by decide)

theorem canonical_branchHead : Canonical [] branchHead.decode branchHead.encode :=
  canonical_word.bind fun tag => by
    match tag with
    | 0 => exact canonical_globalName.bind fun _ => .pure rfl
    | 1 => exact .pure rfl
    | 2 => exact .pure rfl
    | _ + 3 => exact .none

end Parts

section Terms
variable {term : Bytes → Option (Term × Bytes)} {before : Bytes}

theorem canonical_decodeTerms (h : Canonical [] term encodeTerm) :
    Canonical [] (decodeTerms term) fun ts => long.encode ts.length ++ encodeTerms ts := by
  simp only [encodeTerms_eq_flatMap]
  exact canonical_long.bind fun n => canonical_decodeMany h n

theorem canonical_decodeBranch (h : Canonical [] term encodeTerm) :
    Canonical [] (decodeBranch term) encodeBranch :=
  canonical_branchHead.bind fun _ => (canonical_list canonical_text).bind fun _ =>
    h.bind fun _ => .pure rfl

theorem canonical_decodeBranches (h : Canonical [] term encodeTerm) :
    Canonical [] (fun bs => long.decode bs >>= fun p => decodeMany (decodeBranch term) p.1 p.2)
      fun bs => long.encode bs.length ++ encodeBranches bs := by
  simp only [encodeBranches_eq_flatMap]
  exact canonical_long.bind fun n => canonical_decodeMany (canonical_decodeBranch h) n

/-- If the parts of a term are read from nothing but their encodings, so is the term. -/
theorem canonical_decodeTermWith (h : Canonical [] term encodeTerm) :
    Canonical [] (decodeTermWith term) encodeTerm := by
  refine canonical_word.bind fun tag => ?_
  match tag with
  | 0 => exact canonical_universes.bind fun _ => .pure rfl
  | 1 | 3 => exact canonical_long.bind fun _ => .pure rfl
  | 2 => exact canonical_globalName.bind fun _ => canonical_universes.bind fun _ => .pure rfl
  | 4 | 5 | 8 => exact canonical_binder.bind fun _ => h.bind fun _ => h.bind fun _ => .pure rfl
  | 6 | 9 => exact h.bind fun _ => h.bind fun _ => .pure rfl
  | 7 =>
    exact canonical_binder.bind fun _ => h.bind fun _ => h.bind fun _ => h.bind fun _ => .pure rfl
  | 10 => exact h.bind fun _ => canonical_side.bind fun _ => .pure rfl
  | 11 | 14 =>
    exact canonical_globalName.bind fun _ => canonical_universes.bind fun _ =>
      (canonical_decodeTerms h).bind fun _ => .pure (by simp [encodeTerm])
  | 12 | 15 =>
    exact canonical_globalName.bind fun _ => canonical_universes.bind fun _ =>
      (canonical_decodeTerms h).bind fun _ => (canonical_decodeTerms h).bind fun _ => .pure
        (by simp [encodeTerm])
  | 13 =>
    refine h.bind fun a => h.bind fun m => ?_
    have hcase : Canonical (word.encode 13 ++ encodeTerm a ++ encodeTerm m)
        (fun bs => (long.decode bs >>= fun p => decodeMany (decodeBranch term) p.1 p.2) >>= fun p =>
          some (Term.case a m p.1, p.2)) encodeTerm :=
      (canonical_decodeBranches h).bind fun branches => .pure (b := Term.case a m branches)
        (by simp [encodeTerm])
    simp only [bind_assoc] at hcase
    exact hcase
  | 16 =>
    exact h.bind fun _ => canonical_globalName.bind fun _ => canonical_long.bind fun _ => .pure rfl
  | 17 | 18 | 21 | 22 | 23 => exact .pure rfl
  | 19 | 25 => exact h.bind fun _ => .pure rfl
  | 20 | 26 => exact h.bind fun _ => h.bind fun _ => h.bind fun _ => h.bind fun _ => .pure rfl
  | 24 => exact h.bind fun _ => h.bind fun _ => h.bind fun _ => .pure rfl
  | _ + 27 => exact .none

theorem canonical_decodeTermGas (gas : ℕ) : Canonical [] (decodeTermGas gas) encodeTerm := by
  induction gas with
  | zero => exact .none
  | succ gas ih => exact canonical_decodeTermWith ih

theorem canonical_term : Canonical [] Codec.term.decode Codec.term.encode :=
  fun bs => canonical_decodeTermGas _ bs

theorem canonical_param : Canonical [] param.decode param.encode :=
  canonical_imap (canonical_pair canonical_binder canonical_term) fun a p h => by
    obtain rfl := Option.some.inj h
    rfl

end Terms

end LeveledTypes.Codec
