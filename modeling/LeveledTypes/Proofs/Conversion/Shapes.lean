import LeveledTypes.Proofs.Conversion.Solving

/-!
# Comparing weak head normal forms

Weak head normal forms whose parts are convertible are convertible themselves, up to eta.
-/
namespace LeveledTypes.Converter
variable {S : Signature} {c : Converter} {L : Locals} {K : Convert Unit → (Solution → Prop) → Prop}
  {conv : ℕ → Comparison → Term → Term → Convert Unit} (hK : Calculus S c K)
  (hconv : ∀ (k : ℕ) (cmp : Comparison) (a b : Term), a.Over S ⊤ → b.Over S ⊤ →
    K (conv k cmp a b) fun M => Related S c.env M cmp (L.under k) a b)

include hK hconv

/-- Lists of arguments are compared one by one and must be of the same length. -/
theorem compares_all {xs ys : List Term} (hxs : ∀ x ∈ xs, x.Over S ⊤) (hys : ∀ y ∈ ys, y.Over S ⊤) :
    K (c.all (conv 0 .eq) xs ys) fun M => xs.length = ys.length ∧
      ∀ p ∈ xs.zip ys, Conv S c.env M L p.1 p.2 := by
  unfold all
  split
  case isTrue => exact hK.throw
  case isFalse h =>
    refine hK.mono (hK.forM fun p hp => hconv 0 .eq p.1 p.2 ?_ ?_) fun M hM => ⟨not_not.mp h, hM⟩
    · exact hxs _ (List.of_mem_zip hp).1
    · exact hys _ (List.of_mem_zip hp).2

/-- Two weak head normal forms neither of which is an introduction form. -/
theorem compares_rigid {cmp : Comparison} {l r : Term} (hl : l.Over S ⊤) (hr : r.Over S ⊤) :
    K (c.rigid conv cmp l r) fun M => Related S c.env M cmp L l r := by
  unfold rigid
  extract_lets eq
  split
  case h_1 u v => exact hK.mono (hK.addUniverse hl hr) fun M => Related.univ
  case h_2 m u k v =>
    split
    case isTrue h =>
      subst h
      exact hK.mono (hK.addUniverse hl.2 hr.2) fun M hM => Conv.related (.ref hM) cmp
    case isFalse => exact hK.throw
  case h_3 x a b y d e =>
    split
    case isTrue h =>
      exact hK.mono (hK.seq (hconv 0 .eq a d hl.1 hr.1) (hconv 1 cmp b e hl.2 hr.2)) fun M
        ⟨ha, hb⟩ => .pi h ha hb
    case isFalse => exact hK.throw
  case h_4 x a b y d e =>
    exact hK.mono (hK.seq (hconv 0 cmp a d hl.1 hr.1) (hconv 1 cmp b e hl.2 hr.2)) fun M
      ⟨ha, hb⟩ => .sigma ha hb
  case h_5 m u ps k v qs =>
    rw [Term.Over, Term.overAll_iff] at hl hr
    split
    case isTrue h =>
      subst h
      exact hK.mono (hK.seq (hK.addUniverse hl.1 hr.1) (compares_all hK hconv hl.2 hr.2)) fun M
        ⟨hu, hlen, hps⟩ =>
        .data hu hlen hps
    case isFalse => exact hK.throw
  case h_6 m u ps k v qs =>
    rw [Term.Over, Term.overAll_iff] at hl hr
    split
    case isTrue h =>
      subst h
      exact hK.mono (hK.seq (hK.addUniverse hl.1 hr.1) (compares_all hK hconv hl.2 hr.2)) fun M
        ⟨hu, hlen, hps⟩ =>
        .record hu hlen hps
    case isFalse => exact hK.throw
  case h_7 m u ps xs k v qs ys =>
    split
    case isTrue h =>
      subst h
      have hxs := Term.overAll_iff.mp hl.2.2.2
      have hys := Term.overAll_iff.mp hr.2.2.2
      exact hK.mono (compares_all hK hconv hxs hys) fun M ⟨hlen, hargs⟩ => Conv.related
        (.con hlen hargs) cmp
    case isFalse => exact hK.throw
  case h_8 a b => exact hK.mono (hconv 0 .eq a b hl hr) fun M h => Conv.related (.succ h) cmp
  case h_9 a s b t =>
    split
    case isTrue h =>
      subst h
      exact hK.mono (hconv 0 .eq a b hl hr) fun M h => Conv.related (.proj h) cmp
    case isFalse => exact hK.throw
  case h_10 a m i b k j =>
    split
    case isTrue h =>
      obtain ⟨rfl, rfl⟩ := h
      exact hK.mono (hconv 0 .eq a b hl hr) fun M h => Conv.related (.field h) cmp
    case isFalse => exact hK.throw
  case h_11 a x y b u v =>
    have ⟨ha, hx, hy⟩ := hl
    have ⟨hb, hu, hv⟩ := hr
    refine hK.mono (hK.seq (hconv 0 .eq a b ha hb)
      (hK.seq (hconv 0 .eq x u hx hu) (hconv 0 .eq y v hy hv))) ?_
    exact fun M ⟨ha, hx, hy⟩ => Conv.related (.path ha hx hy) cmp
  case h_12 l r p i l' r' q j =>
    obtain ⟨hpaths, -, -, hp, hi⟩ := hl
    obtain ⟨-, -, -, hq, hj⟩ := hr
    refine hK.mono (hK.seq (hconv 0 .eq p q hp hq) (hconv 0 .eq i j hi hj)) fun M ⟨hp, hi⟩ => ?_
    exact Conv.related ((Conv.ends hpaths).trans (.point (.refl l') (.refl r') hp hi)) cmp
  case h_13 m z s k m' y t k' =>
    have ⟨_, hz, hs, hk⟩ := hl
    have ⟨_, hy, ht, hk'⟩ := hr
    refine hK.mono (hK.seq (hconv 0 .eq k k' hk hk')
      (hK.seq (hconv 0 .eq z y hz hy) (hconv 0 .eq s t hs ht))) ?_
    exact fun M ⟨hk, hz, hs⟩ => Conv.related (.natRec hz hs hk) cmp
  case h_14 a m bs b m' ds =>
    rw [Term.Over, Term.overBranches_iff] at hl hr
    obtain ⟨-, ha, -, hbs⟩ := hl
    obtain ⟨-, hb, -, hds⟩ := hr
    split
    case isTrue hlen =>
      refine hK.mono (hK.seq (hconv 0 .eq a b ha hb)
        (hK.forM (R := fun p M => (p.1.head = p.2.head ∧ p.1.arity = p.2.arity) ∧
        Conv S c.env M (L.under p.1.arity) p.1.body p.2.body) fun p hp => ?_)) fun M ⟨ha, hbs⟩ => ?_
      · dsimp only
        split
        case isTrue => exact hK.throw
        case isFalse h =>
          obtain ⟨hhead, harity⟩ : p.1.head = p.2.head ∧ p.1.arity = p.2.arity := by simpa using h
          have hx := hbs p.1 (List.of_mem_zip hp).1
          have hy := hds p.2 (List.of_mem_zip hp).2
          refine hK.mono (hconv p.1.arity .eq p.1.body p.2.body (by simpa using hx)
            (by simpa using hy)) fun M h => ?_
          exact ⟨⟨hhead, harity⟩, h⟩
      · exact Conv.related (.case ha hlen (fun p hp => (hbs p hp).1) fun p hp => (hbs p hp).2) cmp
    case isFalse => exact hK.throw
  case h_15 f a g b =>
    refine hK.mono (hK.seq (hconv 0 .eq f g hl.1 hr.1) (hconv 0 .eq a b hl.2 hr.2))
      fun M ⟨hf, ha⟩ => ?_
    exact Conv.related (.app hf ha) cmp
  case h_16 => exact hK.throw

/-- The fields of an instance are compared with those of a term. -/
theorem compares_fields {m : GlobalName} {u : Universe} {ps fs : List Term} {r : Term}
    (hl : (Term.new m u ps fs).Over S ⊤) (hr : r.Over S ⊤) :
    K (fs.zipIdx.forM fun (f, i) => conv 0 .eq f (.field r m i)) fun M =>
      Conv S c.env M L (.new m u ps fs) r := by
  obtain ⟨hrecord, -, -, hfs⟩ := hl
  rw [Term.overAll_iff] at hfs
  refine hK.mono (hK.forM fun p hp => hconv 0 .eq p.1 (.field r m p.2)
    (hfs _ (List.fst_mem_of_mem_zipIdx hp)) hr) ?_
  exact fun M h => .of_fields hrecord h

theorem compares_fields_right {m : GlobalName} {u : Universe} {ps gs : List Term} {l : Term}
    (hl : l.Over S ⊤) (hr : (Term.new m u ps gs).Over S ⊤) :
    K (gs.zipIdx.forM fun (g, i) => conv 0 .eq (.field l m i) g) fun M =>
      Conv S c.env M L l (.new m u ps gs) := by
  obtain ⟨hrecord, -, -, hgs⟩ := hr
  rw [Term.overAll_iff] at hgs
  refine hK.mono (hK.forM fun p hp => hconv 0 .eq (.field l m p.2) p.1 hl
    (hgs _ (List.fst_mem_of_mem_zipIdx hp))) ?_
  exact fun M h => .symm (.of_fields hrecord fun p hp => (h p hp).symm)

/-- Two weak head normal forms up to eta. -/
theorem compares_shapes {cmp : Comparison} {l r : Term} (hl : l.Over S ⊤) (hr : r.Over S ⊤) :
    K (c.shapes conv cmp l r) fun M => Related S c.env M cmp L l r := by
  have hetaApp {t : Term} (ht : t.Over S ⊤) : (etaApp t).Over S ⊤ :=
    ⟨ht.lift 1, ENat.natCast_lt_top _⟩
  have hetaPoint {f p : Term} (hpaths : S.paths) (hf : f.Over S ⊤) (hp : p.Over S ⊤) :
      (etaPoint f p).Over S ⊤ :=
    ⟨hpaths, ⟨hf.lift 1, trivial⟩, ⟨hf.lift 1, trivial⟩, hp.lift 1, ENat.natCast_lt_top _⟩
  unfold shapes
  extract_lets eq recordLeft
  split
  case h_1 x d a y e b =>
    exact hK.mono (hconv 1 .eq a b hl.2 hr.2) fun M h => Conv.related (.lam h) cmp
  case h_2 x d a _ =>
    refine hK.mono (hconv 1 .eq a (etaApp r) hl.2 (hetaApp hr)) fun M h => ?_
    exact Conv.related (Conv.trans (.lam h) (.symm (.etaFun (x := x) (a := d)))) cmp
  case h_3 x d b _ =>
    refine hK.mono (hconv 1 .eq (etaApp l) b (hetaApp hl) hr.2) fun M h => ?_
    exact Conv.related (Conv.trans (.etaFun (x := x) (a := d)) (.lam h)) cmp
  case h_4 a b x y =>
    refine hK.mono (hK.seq (hconv 0 .eq a x hl.1 hr.1) (hconv 0 .eq b y hl.2 hr.2))
      fun M ⟨ha, hb⟩ => ?_
    exact Conv.related (.pair ha hb) cmp
  case h_5 a b _ _ =>
    refine hK.mono (hK.seq (hconv 0 .eq a (.proj r .fst) hl.1 hr)
      (hconv 0 .eq b (.proj r .snd) hl.2 hr)) fun M ⟨ha, hb⟩ => ?_
    exact Conv.related (.trans (.pair ha hb) (.symm .etaPair)) cmp
  case h_6 x y _ _ =>
    refine hK.mono (hK.seq (hconv 0 .eq (.proj l .fst) x hl hr.1)
      (hconv 0 .eq (.proj l .snd) y hl hr.2)) fun M ⟨ha, hb⟩ => ?_
    exact Conv.related (.trans .etaPair (.pair ha hb)) cmp
  case h_7 m u ps fs k v qs gs =>
    split
    case isTrue h =>
      obtain ⟨rfl, -⟩ := h
      have hfs := Term.overAll_iff.mp hl.2.2.2
      have hgs := Term.overAll_iff.mp hr.2.2.2
      exact hK.mono (compares_all hK hconv hfs hgs) fun M ⟨hlen, h⟩ => Conv.related
        (.new hlen h) cmp
    case isFalse => exact hK.mono (compares_fields hK hconv hl hr) fun M h => Conv.related h cmp
  case h_8 m u ps fs _ _ _ =>
    exact hK.mono (compares_fields hK hconv hl hr) fun M h => Conv.related h cmp
  case h_9 m u ps gs _ _ _ =>
    exact hK.mono (compares_fields_right hK hconv hl hr) fun M h => Conv.related h cmp
  case h_10 f g =>
    exact hK.mono (hconv 0 .eq f g hl.2 hr.2) fun M h => Conv.related (.pathLam h) cmp
  case h_11 f _ _ _ _ =>
    obtain ⟨hpaths, hf⟩ := hl
    refine hK.mono (hconv 1 .eq (etaApp f) (etaPoint f r) (hetaApp hf)
      (hetaPoint hpaths hf hr)) fun M h => ?_
    exact Conv.related (.etaPath hpaths h) cmp
  case h_12 g _ _ _ _ =>
    obtain ⟨hpaths, hg⟩ := hr
    refine hK.mono (hconv 1 .eq (etaPoint g l) (etaApp g) (hetaPoint hpaths hg hl)
      (hetaApp hg)) fun M h => ?_
    exact Conv.related (.symm (.etaPath hpaths h.symm)) cmp
  case h_13 => exact compares_rigid hK hconv hl hr

end LeveledTypes.Converter
