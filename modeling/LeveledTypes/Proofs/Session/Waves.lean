import LeveledTypes.Proofs.ModuleGraph
import LeveledTypes.Proofs.Session.Module

/-!
# Checking a set of modules

A call works in steps: it checks a module, or makes the modules of a finished wave known. Each
module that can be checked is checked once, after all that it imports are known.
-/
namespace LeveledTypes

open Relation (ReflTransGen)

/-- The session after a module with an outcome has become known. -/
def Session.learn (s : Session) (r : ModuleReport) : Session :=
  match r.digest with
  | some digest =>
    if r.isOk then { s with modules := s.modules.insert r.name ⟨digest, r.names⟩ } else s
  | none => s

/-- The session after the modules of a wave have become known. -/
def Session.publish (s : Session) (rs : List (ℕ × ModuleReport)) : Session :=
  rs.foldl (fun s p => s.learn p.2) s

/-- The session without any module but the prelude. -/
def Session.forgotten (s : Session) : Session :=
  let others := s.modules.toList.filter fun (n, _) => n ≠ Primitive.preludeName
  { s with
    registry := others.foldl (fun r (_, k) => r.eraseAll k.names) s.registry
    modules := s.modules.filter fun n _ => n = Primitive.preludeName }

namespace Work

section Units
variable {S : List Source} {u : Pending} {i : ℕ}

/-- The module has been read and all its imports exist. -/
def Pending.Sound (u : Pending) : Prop := u.module.isSome ∧ u.errors = []

theorem map_source_units (S : List Source) : (units S).map (·.source) = S := by
  simp only [units, ModuleGraph.edges, List.map_map, List.zip_map', Function.comp_def]
  conv_rhs => rw [← List.map_id S]
  refine List.map_congr_left fun s _ => ?_
  split <;> rfl

theorem getElem?_units (h : (units S)[i]? = some u) : S[i]? = some u.source := by
  rw [← map_source_units S, List.getElem?_map, h]
  rfl

/-- A module that can be checked has been read, and its imports have been found. -/
theorem unit_sound {m : Surface.Module} (h : (units S)[i]? = some u) (hm : u.module = some m)
    (herrors : u.errors = []) :
    readSource u.source = .ok m ∧ ModuleGraph.resolveImports (S.map (·.name)) m.imports =
      (u.deps, []) := by
  simp only [units, ModuleGraph.edges, List.map_map, List.zip_map', Function.comp_def,
    List.getElem?_map] at h
  obtain ⟨s, hs, rfl⟩ := Option.map_eq_some_iff.mp h
  split at hm
  case h_2 => simp at hm
  case h_1 m' hread =>
    obtain rfl : m' = m := Option.some.inj hm
    simp only [hread] at herrors ⊢
    rcases hresolve : ModuleGraph.resolveImports (S.map (·.name)) m'.imports with ⟨found, errors⟩
    cases errors with
    | nil => simp [hresolve]
    | cons e es => simp [hresolve] at herrors

/-- The names of the modules that a module imports. -/
def importNames (us : List Pending) (u : Pending) : List String :=
  u.deps.filterMap fun d => (us[d]?).map (·.source.name)

theorem importNames_eq {m : Surface.Module} (h : (units S)[i]? = some u) (hm : u.module = some m)
    (herrors : u.errors = []) : importNames (units S) u = m.imported := by
  rw [← (ModuleGraph.finds_of_resolveImports (unit_sound h hm herrors).2).filterMap_eq]
  refine List.filterMap_congr fun d _ => ?_
  rw [← map_source_units S, List.map_map, List.getElem?_map, map_source_units]
  rfl

end Units

/-- A call at work: the reports of finished waves, those of the wave that is under way, and the
workspace. -/
structure Stage where
  published : List (ℕ × ModuleReport)
  current : List (ℕ × ModuleReport)
  workspace : Workspace

namespace Stage
variable {us : List Pending} {s s' : Stage}

/-- All reports so far. -/
def reports (s : Stage) : List (ℕ × ModuleReport) := s.published ++ s.current

/-- A module that has not been checked yet is checked when all that it imports is known, or a wave
comes to its end. -/
inductive Step (us : List Pending) : Stage → Stage → Prop
  | check {s : Stage} {i : ℕ} {u : Pending} {m : Surface.Module} {r : ModuleReport} {w : Workspace}
      (hu : us[i]? = some u) (hm : u.module = some m) (herrors : u.errors = [])
      (hnew : i ∉ s.reports.map (·.1))
      (hdeps : ∀ d ∈ u.deps, ∀ v, us[d]? = some v → Pending.Sound v → d ∈ s.published.map (·.1))
      (hchecks : Checks u m (importNames us u) s.workspace r w) :
        Step us s ⟨s.published, s.current ++ [(i, r)], w⟩
  | publish (s : Stage) :
      Step us s ⟨s.reports, [],
        { s.workspace with session := s.workspace.session.publish s.current }⟩

/-- The place of a module that can be checked, with the report of its check. -/
def checkPending (us : List Pending) (i : ℕ) : Work (Option (ℕ × ModuleReport)) := do
  match us[i]? with
  | none => return none
  | some u =>
    match u.module, u.errors with
    | some m, [] =>
      return some (i, ← checkModule u m (u.deps.filterMap fun d => (us[d]?).map (·.source.name)))
    | _, _ => return none

/-- What the module at a place imports is known, as far as it could be checked. -/
def Ready (us : List Pending) (s : Stage) (i : ℕ) : Prop :=
  ∀ u, us[i]? = some u → ∀ d ∈ u.deps, ∀ v, us[d]? = some v → Pending.Sound v →
    d ∈ s.published.map (·.1)

/-- A module with a fault of its own is left out; any other is checked, which is one step. -/
theorem yields_checkPending {i : ℕ} (hnew : i ∉ s.reports.map (·.1)) (hready : Ready us s i) :
    Yields (checkPending us i) s.workspace fun o w =>
      (o = none ∧ w = s.workspace ∧ ∀ u, us[i]? = some u → ¬ Pending.Sound u) ∨
      ∃ r, o = some (i, r) ∧ Step us s ⟨s.published, s.current ++ [(i, r)], w⟩ := by
  unfold checkPending
  split
  case h_1 hu => exact .pure (.inl ⟨rfl, rfl, by simp [hu]⟩)
  case h_2 u hu =>
    split
    case h_1 m hm herrors =>
      refine .bind (yields_checkModule u m _ s.workspace) fun r w hchecks => ?_
      exact .pure (.inr ⟨r, rfl, .check hu hm herrors hnew (hready u hu) hchecks⟩)
    case h_2 hunsound =>
      refine .pure (.inl ⟨rfl, rfl, fun v hv hsound => ?_⟩)
      obtain rfl : u = v := Option.some.inj (hu.symm.trans hv)
      obtain ⟨m, hm⟩ := Option.isSome_iff_exists.mp hsound.1
      exact hunsound m hm hsound.2

/-- The modules of a wave that can be checked are checked one after the other. -/
theorem yields_wave {wave : List ℕ} (hnodup : wave.Nodup)
    (hnew : ∀ i ∈ wave, i ∉ s.reports.map (·.1)) (hready : ∀ i ∈ wave, Ready us s i) :
    Yields (wave.filterMapM (checkPending us)) s.workspace fun rs w =>
      ReflTransGen (Step us) s ⟨s.published, s.current ++ rs, w⟩ ∧ rs.map (·.1) ⊆ wave ∧
        ∀ i ∈ wave, ∀ u, us[i]? = some u → Pending.Sound u → i ∈ rs.map (·.1) := by
  induction wave generalizing s with
  | nil => exact .pure ⟨by simpa using .refl, by simp, by simp⟩
  | cons i wave ih =>
    obtain ⟨hi, hnodup⟩ := List.nodup_cons.mp hnodup
    obtain ⟨hnewi, hnew⟩ := List.forall_mem_cons.mp hnew
    obtain ⟨hreadyi, hready⟩ := List.forall_mem_cons.mp hready
    rw [List.filterMapM_cons]
    refine .bind (yields_checkPending hnewi hreadyi) fun o w ho => ?_
    obtain ⟨rfl, rfl, hunsound⟩ | ⟨r, rfl, hstep⟩ := ho
    · refine Yields.mono (ih hnodup hnew hready) fun rs w ⟨hsteps, hsub, hcover⟩ => ?_
      refine ⟨hsteps, fun j hj => List.mem_cons_of_mem i (hsub hj), fun j hj u hu hsound => ?_⟩
      obtain rfl | hj := List.mem_cons.mp hj
      · exact absurd hsound (hunsound u hu)
      · exact hcover j hj u hu hsound
    · have hnew' : ∀ j ∈ wave,
          j ∉ (Stage.mk s.published (s.current ++ [(i, r)]) w).reports.map (·.1) := by
        intro j hj hmem
        have hmem' : j ∈ s.reports.map (·.1) ∨ j = i := by simpa [reports, or_assoc] using hmem
        obtain hold | rfl := hmem'
        · exact hnew j hj hold
        · exact hi hj
      refine .bind (ih (s := ⟨s.published, s.current ++ [(i, r)], w⟩) hnodup hnew' hready)
        fun rs w' hrest => ?_
      obtain ⟨hsteps, hsub, hcover⟩ := hrest
      have hsteps' : ReflTransGen (Step us) s ⟨s.published, s.current ++ (i, r) :: rs, w'⟩ := by
        simpa using hsteps.head hstep
      refine .pure ⟨hsteps', ?_, fun j hj u hu hsound => ?_⟩
      · rw [List.map_cons]
        exact List.cons_subset_cons i hsub
      · obtain rfl | hj := List.mem_cons.mp hj
        · simp
        · exact List.mem_cons_of_mem i (hcover j hj u hu hsound)

/-- The modules of a wave are checked in order, and those with outcomes become known together. -/
theorem checkWave_eq (us : List Pending) (wave : List ℕ) (w : Workspace) :
    checkWave us wave w =
      ((wave.filterMapM (checkPending us) w).1, { (wave.filterMapM (checkPending us) w).2 with
        session := (wave.filterMapM (checkPending us) w).2.session.publish
          (wave.filterMapM (checkPending us) w).1 }) := by
  have hloop (p : ℕ × ModuleReport) (rs : List (ℕ × ModuleReport)) (v : Workspace) :
      (p :: rs).foldl (fun v p => { v with session := v.session.learn p.2 }) v =
        rs.foldl (fun v p => { v with session := v.session.learn p.2 })
          { v with session := v.session.learn p.2 } :=
    rfl
  have hyields : Yields (checkWave us wave) w fun rs v =>
      (rs, v) = ((wave.filterMapM (checkPending us) w).1,
        { (wave.filterMapM (checkPending us) w).2 with
          session := (wave.filterMapM (checkPending us) w).2.session.publish
            (wave.filterMapM (checkPending us) w).1 }) := by
    unfold checkWave
    refine .bind (P := fun rs v => (rs, v) = wave.filterMapM (checkPending us) w) rfl
      fun rs v hrun => ?_
    rw [← hrun]
    refine .bind (Yields.forIn (I :=
      fun rest u => rest.foldl (fun v p => { v with session := v.session.learn p.2 }) u =
        { v with session := v.session.publish rs }) ?_ fun p rest u hu => ?_) fun _ u hu => ?_
    · exact List.foldl_hom (fun t => ({ v with session := t } : Workspace)) fun _ _ => rfl
    · rw [hloop] at hu
      unfold Session.learn at hu
      dsimp only
      split
      case h_1 digest hdigest =>
        rw [hdigest] at hu
        dsimp only at hu
        split
        case isTrue hok => exact .modify (.pure ⟨rfl, by rwa [if_pos hok] at hu⟩)
        case isFalse hok => exact .pure ⟨rfl, by rwa [if_neg hok] at hu⟩
      case h_2 hdigest => exact .pure ⟨rfl, by rwa [hdigest] at hu⟩
    · exact .pure (congrArg (Prod.mk rs) hu)
  exact hyields

/-- The modules of a wave are independent, so that they stay ready until it is done, and are
published together. -/
theorem yields_checkWave {wave : List ℕ} (hnodup : wave.Nodup)
    (hnew : ∀ i ∈ wave, i ∉ s.reports.map (·.1)) (hready : ∀ i ∈ wave, Ready us s i)
    (hcurrent : s.current = []) : Yields (checkWave us wave) s.workspace fun rs w =>
      ReflTransGen (Step us) s ⟨s.published ++ rs, [], w⟩ ∧ rs.map (·.1) ⊆ wave ∧
        ∀ i ∈ wave, ∀ u, us[i]? = some u → Pending.Sound u → i ∈ rs.map (·.1) := by
  obtain ⟨hsteps, hsub, hcover⟩ := yields_wave hnodup hnew hready
  rw [Yields, checkWave_eq]
  rw [hcurrent, List.nil_append] at hsteps
  exact ⟨hsteps.tail (.publish _), hsub, hcover⟩

/-- The induction is on the waves, each of which makes the modules of the next one ready. -/
theorem yields_waves {done : List ℕ} {ws : List (List ℕ)}
    (h : ModuleGraph.Follows (us.map (·.deps)) done ws) (hcurrent : s.current = [])
    (hchecked : s.published.map (·.1) ⊆ done) (hcover : ∀ i ∈ done, ∀ u, us[i]? = some u →
      Pending.Sound u → i ∈ s.published.map (·.1)) :
    Yields (ws.mapM (checkWave us)) s.workspace fun rss w =>
      ReflTransGen (Step us) s ⟨s.published ++ rss.flatten, [], w⟩ ∧
        ∀ i ∈ done ++ ws.flatten, ∀ u, us[i]? = some u → Pending.Sound u →
          i ∈ (s.published ++ rss.flatten).map (·.1) := by
  induction h generalizing s with
  | nil done =>
    obtain ⟨published, current, w⟩ := s
    obtain rfl : current = [] := hcurrent
    exact .pure ⟨by simpa using .refl, by simpa using hcover⟩
  | @cons done wave ws hnodup hnew hdeps _ ih =>
    have hready : ∀ i ∈ wave, Ready us s i := by
      intro i hi u hu d hd v hv hsound
      refine hcover d (hdeps i hi d ?_) v hv hsound
      simpa [List.getD_eq_getElem?_getD, hu] using hd
    have hnew' : ∀ i ∈ wave, i ∉ s.reports.map (·.1) := by
      intro i hi hmem
      rw [reports, hcurrent, List.append_nil] at hmem
      exact hnew i hi (hchecked hmem)
    rw [List.mapM_cons]
    refine .bind (yields_checkWave hnodup hnew' hready hcurrent) fun rs w hwave => ?_
    obtain ⟨hsteps, hsub, hcoverw⟩ := hwave
    have hchecked' : (s.published ++ rs).map (·.1) ⊆ done ++ wave := by
      rw [List.map_append]
      exact List.append_subset.mpr ⟨fun i hi => List.mem_append_left _ (hchecked hi),
        fun i hi => List.mem_append_right _ (hsub hi)⟩
    have hcover' : ∀ i ∈ done ++ wave, ∀ u, us[i]? = some u → Pending.Sound u →
        i ∈ (s.published ++ rs).map (·.1) := by
      intro i hi u hu hsound
      rw [List.map_append, List.mem_append]
      exact (List.mem_append.mp hi).imp (fun h => hcover i h u hu hsound) fun h =>
        hcoverw i h u hu hsound
    refine .bind (ih (s := ⟨s.published ++ rs, [], w⟩) rfl hchecked' hcover') fun rss w'
      hrest => .pure ?_
    rw [List.flatten_cons, List.flatten_cons, ← List.append_assoc, ← List.append_assoc]
    exact ⟨hsteps.trans hrest.1, hrest.2⟩

end Stage

/-- What was known of other modules than the prelude has been forgotten. -/
structure Begins (w w' : Workspace) : Prop where
  session : w'.session = w.session.forgotten
  disk : w'.disk = w.disk
  log : w.log <:+ w'.log

/-- The reports of a call in the order of its sources. -/
def ordered (us : List Pending) (rs : List (ℕ × ModuleReport)) : List ModuleReport :=
  us.zipIdx.map fun (u, i) =>
    (rs.lookup i).getD { source := u.source, status := .failed, errors := u.errors }

/-- The ways in which a call ends: the prelude has errors, there is a cycle, or all modules that can
be have been checked. -/
inductive Finishes (S : List Source) (w : Workspace) :
    Except Error (List ModuleReport) → Workspace → Prop
  | refused {e : Error} {w' : Workspace} (hprelude : Prelude.ensure w = (some e, w')) :
    Finishes S w (.error e) w'
  | cyclic {e : Error} {w₀ w' : Workspace} (hprelude : Prelude.ensure w = (none, w₀))
    (hbegins : Begins w₀ w')
      (hwaves : ModuleGraph.waves ((units S).map (·.deps))
        ((units S).map (·.source.name)) = .error e) :
      Finishes S w (.error e) w'
  | done {w₀ w₁ w' : Workspace} {ws : List (List ℕ)} {rs : List (ℕ × ModuleReport)}
      (hprelude : Prelude.ensure w = (none, w₀)) (hbegins : Begins w₀ w₁)
      (hwaves : ModuleGraph.waves ((units S).map (·.deps)) ((units S).map (·.source.name)) = .ok ws)
      (hsteps : ReflTransGen (Stage.Step (units S)) ⟨[], [], w₁⟩ ⟨rs, [], w'⟩)
      (hcover : ∀ i u, (units S)[i]? = some u → Pending.Sound u → i ∈ rs.map (·.1)) :
      Finishes S w (.ok (ordered (units S) rs)) w'

/-- A call sets out: what was known is forgotten, and the modules that are refused are noted. -/
def setOut (us : List Pending) : Work Unit := do
  forget
  for u in us do
    if !u.errors.isEmpty then note (.moduleRefused u.source.name)

theorem yields_setOut (us : List Pending) (w : Workspace) :
    Yields (setOut us) w fun _ => Begins w := by
  unfold setOut
  refine .modify ?_
  refine Yields.forIn (I := fun _ v => Begins w v) ⟨rfl, rfl, List.suffix_rfl⟩ fun u _ v hv => ?_
  split
  case isTrue =>
    exact .modify (.pure ⟨rfl, hv.session, hv.disk, hv.log.trans (List.suffix_cons _ _)⟩)
  case isFalse => exact .pure ⟨rfl, hv⟩

/-- The modules of a call are checked wave by wave, unless there is a cycle. -/
def checkWaves (us : List Pending) :
    Except Error (List (List ℕ)) → Work (Except Error (List ModuleReport))
  | .error e => return .error e
  | .ok ws => do return .ok (ordered us (← ws.mapM (checkWave us)).flatten)

/-- What a call does when it has taken the prelude, or has failed to. -/
def checkUnits (us : List Pending) : Option Error → Work (Except Error (List ModuleReport))
  | some e => return .error e
  | none => do
    setOut us
    checkWaves us (ModuleGraph.waves (us.map (·.deps)) (us.map (·.source.name)))

theorem checkSources_eq (S : List Source) :
    checkSources S = Prelude.ensure >>= checkUnits (units S) := by
  unfold checkSources
  refine congrArg _ (funext fun o => ?_)
  cases o with
  | some e => rfl
  | none =>
    dsimp only [checkUnits]
    generalize ModuleGraph.waves ((units S).map (·.deps)) ((units S).map (·.source.name)) = waves
    cases waves <;> rfl

/-- A call reads the sources, orders them by their imports, and checks wave by wave what can be
checked, or fails before it checks anything. -/
theorem yields_checkSources (S : List Source) (w : Workspace) :
    Yields (checkSources S) w (Finishes S w) := by
  rw [checkSources_eq]
  refine .bind (P := fun o w' => Prelude.ensure w = (o, w')) rfl fun o w₀ hprelude => ?_
  cases o with
  | some e => exact .pure (.refused hprelude)
  | none =>
    refine .bind (yields_setOut _ w₀) fun _ w₁ hbegins => ?_
    cases hwaves : ModuleGraph.waves ((units S).map (·.deps)) ((units S).map (·.source.name)) with
    | error e => exact .pure (.cyclic hprelude hbegins hwaves)
    | ok ws =>
      obtain ⟨hfollows, hall⟩ := ModuleGraph.follows_of_waves hwaves
      refine .bind (Stage.yields_waves (s := ⟨[], [], w₁⟩) hfollows rfl (by simp) (by simp))
        fun rss w' hrest => ?_
      obtain ⟨hsteps, hcover⟩ := hrest
      refine .pure (.done hprelude hbegins hwaves hsteps fun i u hu hsound =>
        hcover i ?_ u hu hsound)
      have hlt : i < ((units S).map (·.deps)).length := by
        rw [List.length_map]
        exact (List.getElem?_eq_some_iff.mp hu).1
      simpa using hall i hlt

end Work

end LeveledTypes
