import LeveledTypes.Elaboration.Declaration
import LeveledTypes.Proofs.Matched
import LeveledTypes.Proofs.Reduction.Round
import LeveledTypes.Proofs.Reduction.Unfolding
import LeveledTypes.Proofs.Reduction.Whnf
import LeveledTypes.Proofs.Term.Mentions

/-!
# Reduction and recorded dependencies

Reduction looks up only globals that it meets, and all that it meets are mentioned by what it starts
from or by a definition of a global that it has met before. The recorded dependencies say what a
definition mentions, so that the definitions that can be reached through them settle every result.
-/
namespace LeveledTypes

variable {G : GlobalName → Prop}

namespace Definition

/-- The definitions introduce the same global, with the same type and the same body. -/
structure SameContent (d d' : Definition) : Prop where
  name : d'.name = d.name
  tele : d'.tele = d.tele
  type : d'.type = d.type
  body : d'.body = d.body

theorem SameContent.refl (d : Definition) : SameContent d d := ⟨rfl, rfl, rfl, rfl⟩

end Definition

namespace Environment

/-- Every definition stands under its name and has its dependencies recorded. -/
def Collected (env : Environment) : Prop := ∀ n d, env.get? n = some d → d.name = n ∧
    d.deps = d.mentioned

/-- The globals that are reached from some by going through recorded dependencies. -/
inductive Reaches (env : Environment) (roots : GlobalName → Prop) : GlobalName → Prop
  | root {n : GlobalName} : roots n → Reaches env roots n
  | dep {n m : GlobalName} {d : Definition} : Reaches env roots n → env.get? n = some d →
    m ∈ d.deps → Reaches env roots m

/-- Where dependencies are recorded, a definition that is reached mentions only globals that are
reached. -/
theorem Collected.reaches {env : Environment} (henv : env.Collected) {roots : GlobalName → Prop}
    {n m : GlobalName} {d : Definition} (hn : env.Reaches roots n) (hd : env.get? n = some d)
    (hm : d.Mentions m) : env.Reaches roots m := by
  obtain ⟨hname, hdeps⟩ := henv n d hd
  by_cases h : m = n
  · exact h ▸ hn
  · refine .dep hn hd ?_
    rw [hdeps, Definition.mem_mentioned, hname]
    exact ⟨h, hm⟩

end Environment

/-- Elaboration leaves no definition without its dependencies. -/
theorem deps_of_mem_sealGroup {env : Environment} {source : String} {ds : List Definition}
    {d : Definition} (hd : d ∈ sealGroup env source ds) : d.deps = d.mentioned := by
  simp only [sealGroup, List.map_map, List.mem_map] at hd
  obtain ⟨d, -, rfl⟩ := hd
  rfl

/-- What is remembered mentions only globals that satisfy a test. -/
def Memo.NamesIn (G : GlobalName → Prop) (memo : Memo) : Prop :=
  ∀ k v : Term, memo[k]? = some v → v.NamesIn G

theorem Memo.namesIn_empty : Memo.NamesIn G {} := by
  intro k v h
  simp at h

theorem Memo.NamesIn.insert {memo : Memo} (h : memo.NamesIn G) {k v : Term} (hv : v.NamesIn G) :
    Memo.NamesIn G (memo.insert k v) := by
  intro k' v' hk'
  rw [Std.HashMap.getElem?_insert] at hk'
  split at hk'
  · exact Option.some.inj hk' ▸ hv
  · exact h k' v' hk'

namespace Reducer

/-- The globals that the context mentions in values of variables and in solutions of holes. -/
def Mentions (r : Reducer) (n : GlobalName) : Prop :=
  (∃ v, some v ∈ r.locals ∧ v.Mentions n) ∨ ∃ m t, r.store.solution? m = some t ∧ t.Mentions n

/-- Two contexts with the same definitions of some globals, which mention no others, as the values
of variables and the solutions of holes do. -/
structure AlikeOn (G : GlobalName → Prop) (r r' : Reducer) : Prop where
  env : ∀ n, G n → Option.Rel Definition.SameContent (r.env.get? n) (r'.env.get? n)
  store : r'.store = r.store
  locals : r'.locals = r.locals
  closed : ∀ n d, G n → r.env.get? n = some d → ∀ m, d.body.Mentions m → G m
  context : ∀ n, r.Mentions n → G n

namespace AlikeOn
variable {r r' : Reducer}

theorem get? (h : AlikeOn G r r') {n : GlobalName} (hn : G n) :
    (r.env.get? n = none ∧ r'.env.get? n = none) ∨
    ∃ d d', r.env.get? n = some d ∧ r'.env.get? n = some d' ∧ d.SameContent d' := by
  have hrel := h.env n hn
  cases hd : r.env.get? n <;> cases hd' : r'.env.get? n <;> rw [hd, hd'] at hrel <;> cases hrel
  · exact .inl ⟨rfl, rfl⟩
  · exact .inr ⟨_, _, rfl, rfl, ‹_›⟩

theorem localValue? (h : AlikeOn G r r') (depth i : ℕ) :
    r'.localValue? depth i = r.localValue? depth i := by
  rw [Reducer.localValue?, Reducer.localValue?, h.locals]

theorem value (h : AlikeOn G r r') {v : Term} (hv : some v ∈ r.locals) : v.NamesIn G :=
  fun n hn => h.context n (.inl ⟨v, hv, hn⟩)

theorem solution (h : AlikeOn G r r') {m : ℕ} {t : Term} (ht : r.store.solution? m = some t) :
    t.NamesIn G :=
  fun n hn => h.context n (.inr ⟨m, t, ht, hn⟩)

end AlikeOn

/-- The same state, in which what is remembered mentions only globals that satisfy a test. -/
def SameState (G : GlobalName → Prop) (s s' : ReductionState) : Prop := s = s' ∧ s.memo.NamesIn G

/-- The same runs, which return terms that mention only globals that satisfy a test. -/
abbrev SameRuns (G : GlobalName → Prop) (x y : Reduce Term) : Prop :=
  Matched some (SameState G) (fun t t' => t = t' ∧ t.NamesIn G) x y

/-- Runs that are the same step by step end in the same state with the same result. -/
theorem eq_of_sameRuns {x y : Reduce Term} (h : SameRuns G x y) {s : ReductionState}
    (hs : s.memo.NamesIn G) : y s = x s := by
  have hend := h s s ⟨rfl, hs⟩
  generalize x s = a, y s = b at hend
  cases hend with
  | ok h hst =>
    obtain ⟨rfl, -⟩ := h
    obtain ⟨rfl, -⟩ := hst
    rfl
  | error h hst =>
    obtain rfl := Option.some.inj h
    obtain ⟨rfl, -⟩ := hst
    rfl
  | left h => cases h
  | right h => cases h

theorem matched_step : Matched some (SameState G) Eq step step := by
  rintro s _ ⟨rfl, hs⟩
  unfold step
  cases s.fuel with
  | zero => exact .error rfl ⟨rfl, hs⟩
  | succ fuel => exact .ok rfl ⟨rfl, hs⟩

/-- Unfoldings of a function are the same if the reductions of its body are. -/
theorem matched_unfold {whnf whnf' : Term → Reduce Term} {c : GlobalName} {u : Universe}
    {body : Term} {args : List Term}
    (hw : SameRuns G (whnf ((body.substLevels u).substAll args))
      (whnf' ((body.substLevels u).substAll args))) :
    Matched some (SameState G) (fun o o' => o = o' ∧ ∀ t ∈ o, t.NamesIn G)
      (unfold whnf c u body args) (unfold whnf' c u body args) := by
  rintro s _ ⟨rfl, hs⟩
  by_cases hk : (((Term.ref c u).apps args).isClosed && !((Term.ref c u).apps args).hasHole) =
    true →
      s.memo[(Term.ref c u).apps args]? = none
  · rw [unfold_of_unknown rfl hk, unfold_of_unknown rfl hk]
    refine Matched.bind (Matched.bind matched_step fun _ _ _ => hw) ?_ s s ⟨rfl, hs⟩
    rintro t _ ⟨rfl, ht⟩ s _ ⟨rfl, hs⟩
    rw [conclude_eq]
    refine .ok ⟨rfl, fun v hv => (mem_unblocked?_iff.mp hv).2 ▸ ht⟩ ⟨rfl, ?_⟩
    split
    case isTrue => exact hs.insert ht
    case isFalse => exact hs
  · push Not at hk
    obtain ⟨hkey, hk⟩ := hk
    obtain ⟨t, ht⟩ := Option.ne_none_iff_exists'.mp hk
    rw [unfold_of_known rfl hkey ht, unfold_of_known rfl hkey ht]
    refine .ok ⟨rfl, ?_⟩ ⟨rfl, hs⟩
    rintro v ⟨⟩
    exact hs _ _ ht

/-- The term that a call is for. -/
def Call.term : Call → Term
  | .whnf _ t | .nf _ t => t

/-- Rounds that are the same as long as what comes back mentions only globals that satisfy a test;
then they mention no others themselves. -/
inductive Round.SameOn (G : GlobalName → Prop) : Round → Round → Prop
  | ret {t : Term} : t.NamesIn G → SameOn G (.ret t) (.ret t)
  | step {k k' : Round} : SameOn G k k' → SameOn G (.step k) (.step k')
  | call {c : Call} {k k' : Term → Round} : c.term.NamesIn G →
    (∀ v, v.NamesIn G → SameOn G (k v) (k' v)) →
      SameOn G (.call c k) (.call c k')
  | unfold {depth : ℕ} {c : GlobalName} {u : Universe} {body : Term} {args : List Term}
    {k k' : Option Term → Round} :
      body.NamesIn G → (∀ a ∈ args, a.NamesIn G) →
      (∀ o, (∀ t ∈ o, t.NamesIn G) → SameOn G (k o) (k' o)) →
      SameOn G (.unfold depth c u body args k) (.unfold depth c u body args k')

namespace Round
variable {r r' : Reducer} {depth : ℕ} {t : Term} {args : List Term}

theorem sameOn_whnf (ht : t.NamesIn G) : SameOn G (whnf depth t) (whnf depth t) :=
  .call ht fun _ hv => .ret hv

/-- Rounds that are the same run alike, if the calls that they make do. -/
theorem SameOn.sameRuns {ρ ρ' : Round} (h : SameOn G ρ ρ') {f f' : Call → Reduce Term}
    (hf : ∀ c : Call, c.term.NamesIn G → SameRuns G (f c) (f' c)) :
    SameRuns G (ρ.run f) (ρ'.run f') := by
  induction h with
  | ret ht => exact .pure ⟨rfl, ht⟩
  | step _ ih => exact .bind matched_step fun _ _ _ => ih
  | call hc _ ih =>
    refine .bind (hf _ hc) ?_
    rintro v _ ⟨rfl, hv⟩
    exact ih v hv
  | unfold hbody hargs _ ih =>
    refine .bind (matched_unfold (hf _ ((hbody.substLevels _).substAll hargs))) ?_
    rintro o _ ⟨rfl, ho⟩
    exact ih o ho

theorem namesIn_canonical (p : Primitive) (hargs : ∀ a ∈ args, a.NamesIn G) :
    (canonical p args).NamesIn G := by
  have harg (i : ℕ) : (args[i]?.getD .zero).NamesIn G := by
    cases h : args[i]? with
    | none => exact fun _ => False.elim
    | some a => exact hargs a (List.mem_of_getElem? h)
  cases p <;> exact Term.namesIn_iff.mpr (by simp [canonical, Term.rootNames, Term.parts, harg])

/-- The arguments of a constructor value mention what the value mentions. -/
theorem namesIn_constructor? {head : BranchHead} (ht : t.NamesIn G)
    (h : constructor? t = some (head, args)) : ∀ a ∈ args, a.NamesIn G := by
  unfold constructor? at h
  split at h
  case h_1 =>
    obtain ⟨rfl, rfl⟩ := Prod.mk.inj (Option.some.inj h)
    exact fun a ha => ht.part (p := (0, a)) (by simp [Term.parts, ha])
  case h_2 =>
    obtain ⟨rfl, rfl⟩ := Prod.mk.inj (Option.some.inj h)
    exact List.forall_mem_nil _
  case h_3 a =>
    obtain ⟨rfl, rfl⟩ := Prod.mk.inj (Option.some.inj h)
    simpa using ht.part (p := (0, a)) (by simp [Term.parts])
  case h_4 => contradiction

section Head
variable (hr : AlikeOn G r r')

include hr

/-- Unfolding looks up a global that is among those on which the environments are the same, and what
it unfolds to names such globals only. -/
theorem sameOn_delta {c : GlobalName} {u : Universe} (hc : G c) (hargs : ∀ a ∈ args, a.NamesIn G) :
    SameOn G (delta r depth c u args) (delta r' depth c u args) := by
  have hfolded {as : List Term} (has : ∀ a ∈ as, a.NamesIn G) :
      ((Term.ref c u).apps as).NamesIn G :=
    Term.namesIn_apps.mpr ⟨Term.namesIn_ref.mpr hc, has⟩
  unfold delta
  obtain ⟨hd, hd'⟩ | ⟨d, d', hd, hd', hsame⟩ := hr.get? hc
  · rw [hd, hd']
    exact .ret (hfolded hargs)
  · have hbody := hr.closed c d hc hd
    simp only [hd, hd', hsame.tele, hsame.body]
    split
    case isTrue => exact .ret (hfolded hargs)
    case isFalse =>
      have hparams : ∀ a ∈ args.take d.tele.length, a.NamesIn G :=
        fun a ha => hargs a (List.mem_of_mem_take ha)
      have hrest : ∀ a ∈ args.drop d.tele.length, a.NamesIn G :=
        fun a ha => hargs a (List.mem_of_mem_drop ha)
      generalize args.take d.tele.length = params at *
      generalize args.drop d.tele.length = rest at *
      have hnext {t : Term} (ht : t.NamesIn G) :
          SameOn G (whnf depth (t.apps rest)) (whnf depth (t.apps rest)) :=
        sameOn_whnf (Term.namesIn_apps.mpr ⟨ht, hrest⟩)
      have hblocked : SameOn G (.ret (((Term.ref c u).apps params).apps rest))
          (.ret (((Term.ref c u).apps params).apps rest)) :=
        .ret (Term.namesIn_apps.mpr ⟨hfolded hparams, hrest⟩)
      -- A canonical form mentions the global itself, a projection the class of the accessor.
      cases hb : d.body with
      | primitive p => exact hnext (namesIn_canonical p hparams)
      | func body decreasing =>
        rw [hb] at hbody
        refine .unfold hbody hparams fun o ho => ?_
        cases o with
        | none => exact hblocked
        | some t => exact hnext (ho t rfl)
      | data cs | cls fs ss =>
        refine hnext (Term.namesIn_iff.mpr ⟨List.forall_mem_singleton.mpr hc, ?_⟩)
        simpa [Term.parts] using hparams
      | constructor k i ps qs =>
        refine hnext (Term.namesIn_iff.mpr ⟨List.forall_mem_singleton.mpr hc, fun q hq => ?_⟩)
        rw [Term.parts, List.mem_append, List.mem_map, List.mem_map] at hq
        obtain ⟨a, ha, rfl⟩ | ⟨a, ha, rfl⟩ := hq
        · exact hparams a (List.mem_of_mem_take ha)
        · exact hparams a (List.mem_of_mem_drop ha)
      | field k i =>
        rw [hb] at hbody
        simp only
        split
        case h_1 a ha =>
          refine hnext (Term.namesIn_iff.mpr ⟨List.forall_mem_singleton.mpr (hbody k rfl), ?_⟩)
          simpa [Term.parts] using hparams a (List.mem_of_getLast? ha)
        case h_2 => exact .ret (hfolded hparams)
      | inst k body =>
        rw [hb] at hbody
        have hover : body.NamesIn G := hbody
        exact .step (hnext ((hover.substLevels u).substAll hparams))
      | pending => exact hblocked

/-- A spine with a global at its root unfolds, one with an abstraction there substitutes, and any
other is put together again. -/
theorem sameOn_spine {head : Term} (hhead : head.NamesIn G) (hargs : ∀ a ∈ args, a.NamesIn G) :
    SameOn G (spine r depth head args) (spine r' depth head args) := by
  have hret : (head.apps args).NamesIn G := Term.namesIn_apps.mpr ⟨hhead, hargs⟩
  unfold spine
  rw [hr.store]
  split
  case h_1 x d b a args =>
    obtain ⟨ha, hargs⟩ := List.forall_mem_cons.mp hargs
    have hb := hhead.part (p := (1, b)) (by simp [Term.parts])
    exact .step (sameOn_whnf (Term.namesIn_apps.mpr ⟨Term.NamesIn.subst hb ha, hargs⟩))
  case h_2 m =>
    split
    case h_1 t ht => exact sameOn_whnf (Term.namesIn_apps.mpr ⟨hr.solution ht, hargs⟩)
    case h_2 => exact .ret hret
  case h_3 c u => exact sameOn_delta hr (Term.namesIn_ref.mp hhead) hargs
  case h_4 => exact .ret hret

omit hr in
/-- A path applied to a point mentions what it is made of. -/
theorem sameOn_along {l x p i : Term} (ht : (Term.at l x p i).NamesIn G) :
    SameOn G (along depth l x p i) (along depth l x p i) := by
  obtain ⟨hl, hx, hp, hi⟩ := by simpa [Term.parts] using (Term.namesIn_iff.mp ht).2
  refine .call hp fun q hq => ?_
  split
  case h_1 f =>
    have hf := hq.part (p := (0, f)) (by simp [Term.parts])
    have happ : (Term.app f i).NamesIn G :=
      Term.namesIn_iff.mpr (by simpa [Term.rootNames, Term.parts] using ⟨hf, hi⟩)
    exact .step (sameOn_whnf happ)
  case h_2 =>
    exact .ret (Term.namesIn_iff.mpr (by simpa [Term.rootNames, Term.parts] using ⟨hl, hx, hq, hi⟩))

/-- The rounds of head reduction are the same in both contexts. -/
theorem sameOn_head (ht : t.NamesIn G) : SameOn G (head r depth t) (head r' depth t) := by
  obtain ⟨hroot, hp⟩ := Term.namesIn_iff.mp ht
  cases t with
  | var i =>
    simp only [head, hr.localValue?]
    cases hi : r.localValue? depth i with
    | none => exact .ret ht
    | some v =>
      obtain ⟨w, hw, rfl⟩ := localValue?_eq_some hi
      exact sameOn_whnf ((hr.value (Locals.mem_under.mp (List.mem_of_getElem? hw))).lift (i + 1))
  | hole m =>
    simp only [head, hr.store]
    cases hm : r.store.solution? m with
    | none => exact .ret ht
    | some s => exact sameOn_whnf (hr.solution hm)
  | ref c u => exact sameOn_delta hr (Term.namesIn_ref.mp ht) (List.forall_mem_nil _)
  | app f a => exact .call ht.spine.1 fun v hv => sameOn_spine hr hv ht.spine.2
  | letIn x s a b =>
    obtain ⟨-, ha, hb⟩ := by simpa [Term.parts] using hp
    exact .step (sameOn_whnf (Term.NamesIn.subst hb ha))
  | proj a side =>
    have ha : a.NamesIn G := by simpa [Term.parts] using hp
    refine .call ha fun v hv => ?_
    split
    case h_1 x y =>
      refine .step (sameOn_whnf ?_)
      cases side with
      | fst => exact hv.part (p := (0, x)) (by simp [Term.parts])
      | snd => exact hv.part (p := (0, y)) (by simp [Term.parts])
    case h_2 => exact .ret (Term.namesIn_iff.mpr (by simpa [Term.rootNames, Term.parts] using hv))
  | field a c i =>
    have ha : a.NamesIn G := by simpa [Term.parts] using hp
    refine .call ha fun v hv => ?_
    have hstuck : (Term.field v c i).NamesIn G :=
      Term.namesIn_iff.mpr ⟨hroot, by simpa [Term.parts] using hv⟩
    split
    case h_1 n u ps fs =>
      split
      case h_1 f hf =>
        have hmem := List.mem_of_getElem? hf
        exact .step (sameOn_whnf (hv.part (p := (0, f)) (by simp [Term.parts, hmem])))
      case h_2 => exact .ret hstuck
    case h_2 => exact .ret hstuck
  | case a m bs =>
    obtain ⟨ha, hm, hbs⟩ := by simpa [Term.parts] using hp
    refine .call ha fun v hv => ?_
    have hstuck : (Term.case v m bs).NamesIn G :=
      Term.namesIn_iff.mpr ⟨hroot, by simpa [Term.parts] using ⟨hv, hm, hbs⟩⟩
    split
    case h_1 hd xs hcon =>
      split
      case h_1 b hb =>
        have hbody : b.body.NamesIn G := hbs b (List.mem_of_find?_eq_some hb)
        exact .step (sameOn_whnf (hbody.substAll (namesIn_constructor? hv hcon)))
      case h_2 => exact .ret hstuck
    case h_2 => exact .ret hstuck
  | natRec m z s n =>
    obtain ⟨hm, hz, hs, hn⟩ := by simpa [Term.parts] using hp
    refine .call hn fun v hv => ?_
    have hrec {k : Term} (hk : k.NamesIn G) : (Term.natRec m z s k).NamesIn G :=
      Term.namesIn_iff.mpr (by simpa [Term.rootNames, Term.parts] using ⟨hm, hz, hs, hk⟩)
    split
    case h_1 => exact .step (sameOn_whnf hz)
    case h_2 k =>
      have hk : k.NamesIn G := hv.part (p := (0, k)) (by simp [Term.parts])
      exact .step (sameOn_whnf (Term.namesIn_apps.mpr ⟨hs, by simpa using ⟨hk, hrec hk⟩⟩))
    case h_3 => exact .ret (hrec hv)
  | «at» l x p i =>
    obtain ⟨hl, hx, hpath, hi⟩ := by simpa [Term.parts] using hp
    refine .call hi fun v hv => ?_
    split
    case h_1 => exact sameOn_whnf hl
    case h_2 => exact sameOn_whnf hx
    case h_3 =>
      exact sameOn_along (Term.namesIn_iff.mpr
        (by simpa [Term.rootNames, Term.parts] using ⟨hl, hx, hpath, hv⟩))
  | _ => exact .ret ht

end Head

section Parts

theorem sameOn_nf {next : Term → Round} (ht : t.NamesIn G) (hnext : ∀ v, v.NamesIn G →
    SameOn G (next v) (next v)) :
    SameOn G (.call (.nf depth t) next) (.call (.nf depth t) next) := .call ht hnext

theorem sameOn_spineHead {next : Term → Round} (ht : t.NamesIn G)
    (hnext : ∀ v, v.NamesIn G → SameOn G (next v) (next v)) :
    SameOn G (spineHead depth t next) (spineHead depth t next) := by
  induction t generalizing next with
  | app f a ihf iha =>
    obtain ⟨hf, ha⟩ := by simpa [Term.parts] using (Term.namesIn_iff.mp ht).2
    refine ihf hf fun f' hf' => sameOn_nf ha fun a' ha' => hnext _ (Term.namesIn_iff.mpr ?_)
    simpa [Term.rootNames, Term.parts] using ⟨hf', ha'⟩
  | ref c u => exact hnext _ ht
  | _ => exact sameOn_nf ht hnext

theorem sameOn_all {ts : List Term} {next : List Term → Round} (hts : ∀ t ∈ ts, t.NamesIn G)
    (hnext : ∀ vs : List Term, (∀ v ∈ vs, v.NamesIn G) → SameOn G (next vs) (next vs)) :
    SameOn G (all depth next ts) (all depth next ts) := by
  induction ts generalizing next with
  | nil => exact hnext [] (List.forall_mem_nil _)
  | cons t ts ih =>
    obtain ⟨ht, hts⟩ := List.forall_mem_cons.mp hts
    exact sameOn_nf ht fun v hv => ih hts fun vs hvs => hnext (v :: vs)
      (List.forall_mem_cons.mpr ⟨hv, hvs⟩)

/-- The heads of the branches stay. -/
theorem sameOn_branches {bs : List (Branch Term)} {next : List (Branch Term) → Round}
    (hbs : ∀ b ∈ bs, b.body.NamesIn G)
    (hnext : ∀ ds : List (Branch Term), ds.map (·.head) = bs.map (·.head) →
      (∀ d ∈ ds, d.body.NamesIn G) → SameOn G (next ds) (next ds)) :
    SameOn G (branches depth next bs) (branches depth next bs) := by
  induction bs generalizing next with
  | nil => exact hnext [] rfl (List.forall_mem_nil _)
  | cons b bs ih =>
    obtain ⟨hb, hbs⟩ := List.forall_mem_cons.mp hbs
    refine sameOn_nf hb fun v hv => ih hbs fun ds hheads hds => hnext _ ?_
      (List.forall_mem_cons.mpr ⟨hv, hds⟩)
    exact congrArg (b.head :: ·) hheads

/-- The normal form has the same names at its root, and parts that are normal forms of the parts. -/
theorem sameOn_parts (ht : t.NamesIn G) : SameOn G (parts depth t) (parts depth t) := by
  obtain ⟨hroot, hp⟩ := Term.namesIn_iff.mp ht
  have hret {v : Term} (hnames : v.rootNames = t.rootNames) (hv : ∀ p ∈ v.parts, p.2.NamesIn G) :
      SameOn G (.ret v) (.ret v) :=
    .ret (Term.namesIn_iff.mpr ⟨hnames ▸ hroot, hv⟩)
  cases t with
  | lam x a b | pi x a b | sigma x a b | pair a b =>
    obtain ⟨ha, hb⟩ := by simpa [Term.parts] using hp
    refine sameOn_nf ha fun a' ha' => sameOn_nf hb fun b' hb' => hret rfl ?_
    simpa [Term.parts] using ⟨ha', hb'⟩
  | app f a =>
    obtain ⟨hf, ha⟩ := by simpa [Term.parts] using hp
    refine sameOn_spineHead hf fun f' hf' => sameOn_nf ha fun a' ha' => hret rfl ?_
    simpa [Term.parts] using ⟨hf', ha'⟩
  | proj a | field a | succ a | pathLam a =>
    have ha : a.NamesIn G := by simpa [Term.parts] using hp
    refine sameOn_nf ha fun a' ha' => hret rfl ?_
    simpa [Term.parts] using ha'
  | data c u ps | record c u ps =>
    have hps : ∀ t ∈ ps, t.NamesIn G := by simpa [Term.parts] using hp
    refine sameOn_all hps fun qs hqs => hret rfl ?_
    simpa [Term.parts] using hqs
  | con c u ps xs | new c u ps xs =>
    have hps : ∀ t ∈ ps, t.NamesIn G := fun t ht => hp (0, t) (by simp [Term.parts, ht])
    have hxs : ∀ t ∈ xs, t.NamesIn G := fun t ht => hp (0, t) (by simp [Term.parts, ht])
    refine sameOn_all hps fun qs hqs => sameOn_all hxs fun ys hys => hret rfl fun q hq => ?_
    rw [Term.parts, List.mem_append, List.mem_map, List.mem_map] at hq
    obtain ⟨a, ha, rfl⟩ | ⟨a, ha, rfl⟩ := hq
    · exact hqs a ha
    · exact hys a ha
  | case a m bs =>
    obtain ⟨ha, hm, hbs⟩ := by simpa [Term.parts] using hp
    refine sameOn_nf ha fun a' ha' => sameOn_nf hm fun m' hm' =>
      sameOn_branches hbs fun ds hheads hds => hret ?_ ?_
    · have hnames := congrArg (List.filterMap BranchHead.global?) hheads
      rwa [List.filterMap_map, List.filterMap_map] at hnames
    · simpa [Term.parts] using ⟨ha', hm', hds⟩
  | natRec a b c d | «at» a b c d =>
    obtain ⟨ha, hb, hc, hd⟩ := by simpa [Term.parts] using hp
    refine sameOn_nf ha fun a' ha' => sameOn_nf hb fun b' hb' => sameOn_nf hc fun c' hc' =>
      sameOn_nf hd fun d' hd' =>
      hret rfl ?_
    simpa [Term.parts] using ⟨ha', hb', hc', hd'⟩
  | path a x y =>
    obtain ⟨ha, hx, hy⟩ := by simpa [Term.parts] using hp
    refine sameOn_nf ha fun a' ha' => sameOn_nf hx fun x' hx' =>
      sameOn_nf hy fun y' hy' => hret rfl ?_
    simpa [Term.parts] using ⟨ha', hx', hy'⟩
  | _ => exact .ret ht

end Parts

end Round

variable {r r' : Reducer} {depth : ℕ} {t : Term}

theorem AlikeOn.sameRuns (h : AlikeOn G r r') (gas : ℕ) {c : Call} (hc : c.term.NamesIn G) :
    SameRuns G (r.run gas c) (r'.run gas c) := by
  induction gas generalizing c with
  | zero => exact .throw rfl
  | succ gas ih =>
    refine Round.SameOn.sameRuns ?_ fun c hc => ih hc
    cases c with
    | whnf depth t => exact Round.sameOn_head h hc
    | nf depth t => exact .call hc fun v hv => Round.sameOn_parts hv

/-- The globals that are reached from a term and its context settle the reduction of the term. -/
theorem alikeOn_reaches (henv : r.env.Collected) (hstore : r'.store = r.store)
    (hlocals : r'.locals = r.locals)
    (hsame : ∀ n, r.env.Reaches (fun n => t.Mentions n ∨ r.Mentions n) n →
      Option.Rel Definition.SameContent (r.env.get? n) (r'.env.get? n)) :
    AlikeOn (r.env.Reaches fun n => t.Mentions n ∨ r.Mentions n) r r' where
  env := hsame
  store := hstore
  locals := hlocals
  closed _ _ hn hd _ hm := henv.reaches hn hd (.inr (.inr hm))
  context _ hn := .root (.inr hn)

/-- The recorded dependencies of a definition are the other globals that its type and its body
mention, in order and each once. Over environments with recorded dependencies that define everything
alike that can be reached, through these, from what a term and its context mention, the term is
reduced alike: the results or errors are the same, and so are the fuel that is left and what is
remembered. -/
theorem recordedDeps_settle_reduction :
    (∀ d : Definition, (d.withDeps.deps.Pairwise fun a b => a.text < b.text) ∧
      ∀ n, n ∈ d.withDeps.deps ↔ n ≠ d.name ∧ d.Mentions n) ∧
    ∀ (r r' : Reducer) (t : Term), r.env.Collected → r'.store = r.store → r'.locals = r.locals →
      (∀ n, r.env.Reaches (fun n => t.Mentions n ∨ r.Mentions n) n →
        Option.Rel Definition.SameContent (r.env.get? n) (r'.env.get? n)) →
      ∀ depth fuel, r'.whnf depth t ⟨fuel, {}⟩ = r.whnf depth t ⟨fuel, {}⟩ ∧
        r'.nf depth t ⟨fuel, {}⟩ = r.nf depth t ⟨fuel, {}⟩ := by
  refine ⟨fun d => ⟨d.pairwise_mentioned, fun n => Definition.mem_mentioned⟩, ?_⟩
  intro r r' t henv hstore hlocals hsame depth fuel
  have halike := alikeOn_reaches henv hstore hlocals hsame
  have ht : t.NamesIn (r.env.Reaches fun n => t.Mentions n ∨ r.Mentions n) :=
    fun n hn => .root (.inl hn)
  have hrun (c : Call) (hc : c.term = t) :
      r'.run unboundedGas c ⟨fuel, {}⟩ = r.run unboundedGas c ⟨fuel, {}⟩ :=
    eq_of_sameRuns (halike.sameRuns unboundedGas (hc ▸ ht)) Memo.namesIn_empty
  rw [whnf, whnf, nf, nf, ← run_whnf, ← run_whnf, ← run_nf, ← run_nf]
  exact ⟨hrun (.whnf depth t) rfl, hrun (.nf depth t) rfl⟩

section Unreached

/-- A function without parameters. -/
def constant (name : String) (body : Term) : Definition :=
  Definition.withDeps
    { span := default, name := ⟨name⟩, tele := [], type := .nat, body := .func body none }

/-- Three functions, the first of which refers to the second one. -/
def threeConstants (last : Term) : Environment :=
  ⟨({} : Registry).insertAll [constant "a" (.succ (.ref ⟨"b"⟩ .params)), constant "b" .zero,
    constant "c" last], {}⟩

theorem get?_threeConstants (last : Term) (n : GlobalName) : (threeConstants last).get? n =
    if n = ⟨"c"⟩ then some (constant "c" last) else if n = ⟨"b"⟩ then some (constant "b" .zero)
    else if n = ⟨"a"⟩ then some (constant "a" (.succ (.ref ⟨"b"⟩ .params))) else none := by
  have hempty (n : GlobalName) : ({} : Registry).get? n = none := by simp [Registry.get?]
  simp [Environment.get?, threeConstants, Registry.insertAll, Registry.get?_insert, hempty,
    constant, Definition.withDeps, eq_comm]

theorem collected_threeConstants (last : Term) : (threeConstants last).Collected := by
  intro n d hd
  rw [get?_threeConstants] at hd
  split_ifs at hd with hc hb ha
  all_goals
    obtain rfl := Option.some.inj hd
    exact ⟨.symm ‹_›, rfl⟩

/-- From the first function only the first two are reached. -/
theorem reaches_threeConstants {last : Term} {roots : GlobalName → Prop}
    (hroots : ∀ n, roots n → n = ⟨"a"⟩) {n : GlobalName}
    (h : (threeConstants last).Reaches roots n) : n = ⟨"a"⟩ ∨ n = ⟨"b"⟩ := by
  induction h with
  | root h => exact .inl (hroots _ h)
  | dep _ hd hm ih =>
    rw [(collected_threeConstants last _ _ hd).2, Definition.mem_mentioned] at hm
    rw [get?_threeConstants] at hd
    obtain rfl | rfl := ih
    · obtain rfl := Option.some.inj hd
      have hmentions : _ ∨ _ := hm.2
      simp [constant, Definition.withDeps, Body.Mentions, Term.Mentions] at hmentions
      exact .inr hmentions.symm
    · obtain rfl := Option.some.inj hd
      have hmentions : _ ∨ _ := hm.2
      simp [constant, Definition.withDeps, Body.Mentions, Term.Mentions] at hmentions

/-- A change of the third function is not seen from the first one. -/
theorem recordedDeps_settle_reduction_unreached :
    (Reducer.mk (threeConstants (.succ .zero)) {} []).nf 0 (.ref ⟨"a"⟩ .params) ⟨5, {}⟩ =
      (Reducer.mk (threeConstants .zero) {} []).nf 0 (.ref ⟨"a"⟩ .params) ⟨5, {}⟩ := by
  have hroots (n : GlobalName) (hn : (Term.ref ⟨"a"⟩ .params).Mentions n ∨
      (Reducer.mk (threeConstants .zero) {} []).Mentions n) : n = ⟨"a"⟩ := by
    obtain hn | ⟨v, hv, -⟩ | ⟨m, t, ht, -⟩ := hn
    · exact hn.symm
    · cases hv
    · simp [Store.solution?] at ht
  refine ((recordedDeps_settle_reduction.2 ⟨threeConstants .zero, {}, []⟩
    ⟨threeConstants (.succ .zero), {}, []⟩
    (.ref ⟨"a"⟩ .params) (collected_threeConstants .zero) rfl rfl fun n hn => ?_) 0 5).2
  obtain rfl | rfl := reaches_threeConstants hroots hn
  all_goals
    rw [get?_threeConstants, get?_threeConstants]
    exact .some (.refl _)

end Unreached

end Reducer

end LeveledTypes
