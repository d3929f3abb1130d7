import LeveledTypes.Proofs.Level.Valuation
import Mathlib.Tactic

/-!
# Soundness of the level solver

The solver compares finitely many integers. Each comparison is read here as a bound between the
values of two nodes at every value of the level parameter: distances give the finite values, the
holes reached from an infinite bound are infinite, and the solution so read satisfies the graph that
narrowing ends in. That graph asks for more than the one given, so the solution satisfies every
constraint that was added.
-/
namespace LeveledTypes

/-- The value of a solved level at a value of the level parameter. -/
def LevelValue.eval (p : ℕ) (v : LevelValue) : ℤ :=
  match v.add with
  | some a => max (p + a) v.floor
  | none => v.floor

/-- The values that a list of solutions gives to the level holes. A hole without a solution is
zero. -/
noncomputable def solutionValues (sol : List (ℕ × Level)) (p m : ℕ) : ℕ∞ :=
  ((sol.lookup m).map (Level.eval p fun _ => 0)).getD 0

namespace LevelDistances
variable (d : LevelDistances)

@[simp] theorem eval_value_zero (p : ℕ) : (d.value .zero).eval p = 0 := rfl

@[simp] theorem eval_value_param (p : ℕ) : (d.value .param).eval p = p := by
  simp [value, LevelValue.eval]

theorem floor_nonneg (n : LevelNode) : 0 ≤ (d.value n).floor := by
  cases n <;> simp [value]

theorem eval_nonneg (p : ℕ) (n : LevelNode) : 0 ≤ (d.value n).eval p := by
  have := d.floor_nonneg n
  unfold LevelValue.eval
  split <;> omega

/-- Relaxation ends with a round that changes nothing. -/
theorem relax_of_unchanged {edges : List LevelEdge} {rounds : ℕ} {d d' : LevelDistances}
    (h : relaxAll edges d = (d', none)) : relax edges rounds d = .ok d' := by
  rw [relax.eq_def]
  dsimp only
  rw [h]

theorem relax_succ_of_changed {edges : List LevelEdge} {rounds : ℕ}
    {d d' : LevelDistances} {e : LevelEdge} (h : relaxAll edges d = (d', some e)) :
    relax edges (rounds + 1) d = relax edges rounds d' := by
  rw [relax.eq_def]
  dsimp only
  rw [h]

end LevelDistances

section Holds
variable {d : LevelDistances} (p : ℕ)

/-- An edge that passes the solver's test holds at every value of the level parameter. -/
theorem LevelEdge.eval_of_holds {e : LevelEdge} (h : e.holds d) :
    (d.value e.source).eval p + e.weight ≤ (d.value e.target).eval p := by
  unfold holds at h
  unfold LevelValue.eval
  simp only [LevelValue.atZero, Bool.and_eq_true] at h
  obtain ⟨hl, hf⟩ := h
  cases hs : (d.value e.source).add with
  | none =>
    cases ht : (d.value e.target).add with
    | none => simp only [ht, decide_eq_true_eq] at hf ⊢; omega
    | some b => simp only [ht, decide_eq_true_eq] at hf ⊢; omega
  | some a =>
    cases ht : (d.value e.target).add with
    | none => simp [hs, ht] at hl
    | some b => simp only [hs, ht, decide_eq_true_eq] at hl hf ⊢; omega

/-- An alternative is checked at zero and at the parameter; at every value of the parameter it holds
then as well. -/
theorem LevelAlternative.eval_of_holds {a : LevelAlternative} (h : a.holds d) :
    (d.value a.source).eval p + a.add ≤ max ((d.value a.target).eval p + a.targetAdd) a.floor := by
  unfold holds at h
  unfold LevelValue.eval
  simp only [LevelValue.atZero, Bool.and_eq_true] at h
  obtain ⟨hl, hf⟩ := h
  cases hs : (d.value a.source).add with
  | none =>
    cases ht : (d.value a.target).add with
    | none => simp only [ht, decide_eq_true_eq] at hf ⊢; omega
    | some b => simp only [ht, decide_eq_true_eq] at hf ⊢; omega
  | some x =>
    cases ht : (d.value a.target).add with
    | none => simp [hs, ht] at hl
    | some b => simp only [hs, ht, decide_eq_true_eq] at hl hf ⊢; omega

end Holds

namespace LevelGraph

/-! ## The nodes of a graph -/

/-- The nodes of a graph are zero, the parameter, the given holes and the ends of its edges and
alternatives. -/
theorem mem_nodes_iff {g : LevelGraph} {holes : List ℕ} {n : LevelNode} : n ∈ g.nodes holes ↔
    (n = .zero ∨ n = .param ∨ ∃ m ∈ holes, n = .hole m) ∨ ∃ s t, (s, t) ∈ g.endpoints ∧
    (n = s ∨ n = t) := by
  have hadd (ns : List LevelNode) (k : LevelNode) :
      n ∈ (if k ∈ ns then ns else ns ++ [k]) ↔ n ∈ ns ∨ n = k := by
    split
    case isTrue h => exact ⟨.inl, fun hn => hn.elim id (· ▸ h)⟩
    case isFalse => simp
  have hfold (es : List (LevelNode × LevelNode)) (ns : List LevelNode) :
      n ∈ es.foldl (fun ns p =>
        if p.2 ∈ (if p.1 ∈ ns then ns else ns ++ [p.1]) then (if p.1 ∈ ns then ns else ns ++ [p.1])
        else (if p.1 ∈ ns then ns else ns ++ [p.1]) ++ [p.2]) ns ↔
        n ∈ ns ∨ ∃ s t, (s, t) ∈ es ∧ (n = s ∨ n = t) := by
    induction es generalizing ns with
    | nil => simp
    | cons e es ih =>
      obtain ⟨s, t⟩ := e
      rw [List.foldl_cons, ih, hadd, hadd]
      constructor
      · rintro (((hn | rfl) | rfl) | ⟨s', t', hm, hn⟩)
        · exact .inl hn
        · exact .inr ⟨n, t, List.mem_cons_self, .inl rfl⟩
        · exact .inr ⟨s, n, List.mem_cons_self, .inr rfl⟩
        · exact .inr ⟨s', t', List.mem_cons_of_mem _ hm, hn⟩
      · rintro (hn | ⟨s', t', hm, hn⟩)
        · exact .inl (.inl (.inl hn))
        · obtain he | hm := List.mem_cons.mp hm
          · obtain ⟨rfl, rfl⟩ := Prod.mk.inj he
            exact .inl (hn.elim (fun h => .inl (.inr h)) .inr)
          · exact .inr ⟨s', t', hm, hn⟩
  have h : n ∈ g.nodes holes ↔ _ := hfold g.endpoints (.zero :: .param :: holes.map .hole)
  simp only [h, List.mem_cons, List.mem_map, eq_comm]

/-! ## Narrowing -/

/-- Removal by a swap loses the removed element only. -/
theorem mem_swapRemove {α : Type*} {xs : List α} {i : ℕ} {a x : α}
    (hi : xs[i]? = some a) (hx : x ∈ xs) : x ∈ swapRemove xs i ∨ x = a := by
  obtain ⟨hlt, rfl⟩ := List.getElem?_eq_some_iff.mp hi
  obtain ⟨k, hk, rfl⟩ := List.getElem_of_mem hx
  have hne : xs ≠ [] := List.ne_nil_of_mem hx
  rw [swapRemove, List.getLast?_eq_some_getLast hne]
  by_cases hki : k = i
  · subst hki
    exact .inr rfl
  left
  rw [List.mem_iff_getElem]
  by_cases hlast : k = xs.length - 1
  · refine ⟨i, by simp; omega, ?_⟩
    simp [List.getLast_eq_getElem, hlast]
  · refine ⟨k, by simp; omega, ?_⟩
    simp [Ne.symm hki]

theorem mem_of_mem_swapRemove {α : Type*} {xs : List α} {i : ℕ} {x : α} (h : x ∈ swapRemove xs i) :
    x ∈ xs := by
  unfold swapRemove at h
  split at h
  case h_1 y hy =>
    obtain h | rfl := List.mem_or_eq_of_mem_set (List.dropLast_subset _ h)
    · exact h
    · exact List.mem_of_getLast? hy
  case h_2 => simp at h

/-- The checks that the least distances pass. -/
theorem least_eq_ok {g : LevelGraph} {nodes : List LevelNode} {d : LevelDistances}
    (h : g.least nodes = .ok d) :
    (∀ e ∈ g.edges, e.holds d) ∧ ∀ b ∈ g.uppers, (d.value b.1).add = none ∧
    (d.value b.1).floor ≤ b.2.1 := by
  unfold least at h
  cases hr : LevelDistances.relax g.edges (nodes.length + 1) (.initial nodes) with
  | error e => simp [hr, bind, Except.bind] at h
  | ok d' =>
    simp only [hr, bind, Except.bind] at h
    split at h
    case h_1 => simp [throw, throwThe, MonadExceptOf.throw] at h
    case h_2 hedges =>
      split at h
      case h_1 => simp [throw, throwThe, MonadExceptOf.throw] at h
      case h_2 huppers =>
        obtain rfl : d' = d := by simpa [pure, Except.pure] using h
        refine ⟨fun e he => by simpa using List.find?_eq_none.mp hedges e he, fun b hb => ?_⟩
        have := List.find?_eq_none.mp huppers b hb
        simpa using this

/-- A graph with the alternative at `i` narrowed to its edge asks for no less. -/
theorem Satisfied.of_narrowed {g : LevelGraph} {ν : LevelNode → ℕ∞} {i : ℕ} {a : LevelAlternative}
    (hi : g.alternatives[i]? = some a)
    (h : (({ g with alternatives := swapRemove g.alternatives i } : LevelGraph).addEdge
      a.source a.target (a.add - a.targetAdd) a.span).Satisfied ν) : g.Satisfied ν := by
  obtain ⟨hg, he⟩ := satisfied_addEdge.mp h
  refine ⟨hg.edges, fun b hb => ?_, hg.uppers, hg.infinite⟩
  obtain hb | rfl := mem_swapRemove hi hb
  · exact hg.alternatives b hb
  · intro t ht
    obtain ⟨s, hs, hst⟩ := he t ht
    exact ⟨s, hs, by dsimp only at hst; omega⟩

/-- The distances are given as they are when no alternative is broken. -/
theorem narrow_of_findIdx?_eq_none {nodes : List LevelNode} {g : LevelGraph} {d : LevelDistances}
    (hd : g.least nodes = .ok d) (hi : (g.alternatives.findIdx? fun a => !a.holds d) = none) :
    narrow nodes g = .ok (d, g) := by
  rw [narrow, hd]
  dsimp only
  split
  case h_1 => rfl
  case h_2 i h => simp [hi] at h

/-- A broken alternative is narrowed to its edge. -/
theorem narrow_of_findIdx?_eq_some {nodes : List LevelNode} {g : LevelGraph}
    {d : LevelDistances} {i : ℕ} {a : LevelAlternative} (hd : g.least nodes = .ok d)
    (hi : (g.alternatives.findIdx? fun a => !a.holds d) = some i)
    (ha : g.alternatives[i]? = some a) :
    narrow nodes g = narrow nodes
      (({ g with alternatives := swapRemove g.alternatives i } : LevelGraph).addEdge
      a.source a.target (a.add - a.targetAdd) a.span) := by
  rw [narrow, hd]
  dsimp only
  split
  case h_1 h => simp [hi] at h
  case h_2 k h =>
    obtain rfl : i = k := by simpa [hi] using h
    split
    case h_1 h' => simp [ha] at h'
    case h_2 b h' =>
      obtain rfl : a = b := by simpa [ha] using h'
      rfl

/-- What narrowing ends in: distances that pass every check of a graph that asks for no less. -/
structure Narrowed (g g' : LevelGraph) (d : LevelDistances) : Prop where
  edges : ∀ e ∈ g'.edges, e.holds d
  alternatives : ∀ a ∈ g'.alternatives, a.holds d
  uppers : ∀ b ∈ g'.uppers, (d.value b.1).add = none ∧ (d.value b.1).floor ≤ b.2.1
  sameUppers : g'.uppers = g.uppers
  sameInfinite : g'.infinite = g.infinite
  endpoints : ∀ x ∈ g'.endpoints, x ∈ g.endpoints
  satisfied : ∀ ν, g'.Satisfied ν → g.Satisfied ν

theorem addEdge_uppers (g : LevelGraph) (s t : LevelNode) (w : ℤ) (span : Span) :
    (g.addEdge s t w span).uppers = g.uppers := by unfold addEdge; split <;> rfl

theorem addEdge_infinite (g : LevelGraph) (s t : LevelNode) (w : ℤ) (span : Span) :
    (g.addEdge s t w span).infinite = g.infinite := by unfold addEdge; split <;> rfl

theorem endpoints_addEdge {g : LevelGraph} {s t : LevelNode} {w : ℤ} {span : Span}
    {x : LevelNode × LevelNode} (h : x ∈ (g.addEdge s t w span).endpoints) : x ∈ g.endpoints ∨
    x = (s, t) := by
  unfold addEdge at h
  split at h
  · exact .inl h
  · simp only [endpoints, List.map_append, List.map_cons, List.map_nil, List.mem_append,
      List.mem_singleton] at h ⊢
    tauto

theorem endpoints_swapRemove {g : LevelGraph} {i : ℕ} {x : LevelNode × LevelNode}
    (h : x ∈ ({ g with alternatives := swapRemove g.alternatives i } : LevelGraph).endpoints) :
    x ∈ g.endpoints := by
  simp only [endpoints, List.mem_append, List.mem_map] at h ⊢
  obtain h | ⟨a, ha, rfl⟩ := h
  · exact .inl h
  · exact .inr ⟨a, mem_of_mem_swapRemove ha, rfl⟩

/-- The induction follows the narrowing, in which each broken alternative has become an edge. -/
theorem narrowed_of_narrow {nodes : List LevelNode} {g g' : LevelGraph} {d : LevelDistances}
    (h : narrow nodes g = .ok (d, g')) : Narrowed g g' d := by
  induction g using narrow.induct nodes with
  | case1 g e he => simp [narrow, he] at h
  | case2 g d' hd hnone =>
    rw [narrow_of_findIdx?_eq_none hd hnone] at h
    obtain ⟨rfl, rfl⟩ : d' = d ∧ g = g' := by simpa using h
    obtain ⟨hedges, huppers⟩ := least_eq_ok hd
    exact ⟨hedges, by simpa using List.findIdx?_eq_none_iff.mp hnone, huppers, rfl, rfl,
      fun _ => id, fun _ => id⟩
  | case3 g d' hd i hi hnone =>
    have := (List.findIdx?_eq_some_iff_getElem.mp hi).1
    simp only [List.getElem?_eq_none_iff] at hnone
    omega
  | case4 g d' hd i hi a ha g₁ ih =>
    rw [narrow_of_findIdx?_eq_some hd hi ha] at h
    have hn := ih h
    refine ⟨hn.edges, hn.alternatives, hn.uppers, hn.sameUppers.trans (addEdge_uppers ..),
      hn.sameInfinite.trans (addEdge_infinite ..), fun x hx => ?_,
        fun ν hν => .of_narrowed ha (hn.satisfied ν hν)⟩
    obtain hx | rfl := endpoints_addEdge (hn.endpoints x hx)
    · exact endpoints_swapRemove hx
    · exact List.mem_append_right _ (List.mem_map_of_mem (List.mem_of_getElem? ha))

/-! ## Infinite holes -/

/-- All links that leave a hole end in holes, and these are put on the stack. -/
theorem mem_pushTargets {out : List Link} {stack stack' : List (ℕ × Span)}
    (h : pushTargets out stack = .ok stack') :
    (∀ x ∈ stack, x ∈ stack') ∧ ∀ l ∈ out, ∃ n, l.2.1 = .hole n ∧ (n, l.2.2) ∈ stack' := by
  induction out generalizing stack with
  | nil => simp_all [pushTargets]
  | cons l out ih =>
    obtain ⟨s, t, span⟩ := l
    cases t with
    | zero => simp [pushTargets] at h
    | param => simp [pushTargets] at h
    | hole n =>
      obtain ⟨hstack, hout⟩ := ih (by simpa [pushTargets] using h)
      refine ⟨fun x hx => hstack x (List.mem_cons_of_mem _ hx), fun l hl => ?_⟩
      obtain rfl | hl := List.mem_cons.mp hl
      · exact ⟨n, rfl, hstack _ List.mem_cons_self⟩
      · exact hout l hl

/-- A hole that was not seen is recorded, and its links are followed. -/
theorem spreadInfinite_cons {uppers : List LevelNode} {seen : List ℕ} {m : ℕ} {span : Span}
    {stack : List (ℕ × Span)} {rest : List Link} (hseen : m ∉ seen)
    (hupper : LevelNode.hole m ∉ uppers) : spreadInfinite uppers seen ((m, span) :: stack) rest =
      (pushTargets (linksFrom m rest) stack).bind fun stack' =>
        spreadInfinite uppers (seen ++ [m]) stack' (linksNotFrom m rest) := by
  rw [spreadInfinite, if_neg hseen, if_neg hupper]
  split
  case h_1 h => rw [h]; rfl
  case h_2 h => rw [h]; rfl

/-- The state of the search for infinite holes: each link has been followed from every hole that was
seen, or it is still among those left. -/
structure Spreading (links : List Link) (uppers : List LevelNode) (seen : List ℕ)
    (stack : List (ℕ × Span)) (rest : List Link) : Prop where
  followed : ∀ l ∈ links, ∀ m ∈ seen, l.1 = .hole m → ∃ n, l.2.1 = .hole n ∧
    (n ∈ seen ∨ ∃ span, (n, span) ∈ stack)
  left : ∀ l ∈ links, (∀ m ∈ seen, l.1 ≠ .hole m) → l ∈ rest
  unbounded : ∀ m ∈ seen, LevelNode.hole m ∉ uppers

/-- The infinite holes are closed under links, and none has an upper bound. -/
structure Spread (links : List Link) (uppers : List LevelNode) (infinite : List ℕ) : Prop where
  closed : ∀ l ∈ links, ∀ m ∈ infinite, l.1 = .hole m → ∃ n ∈ infinite, l.2.1 = .hole n
  unbounded : ∀ m ∈ infinite, LevelNode.hole m ∉ uppers

/-- The induction is on the search, with its state as the invariant: what is on the stack is seen in
the end. -/
theorem spread_of_spreadInfinite {links : List Link} {uppers : List LevelNode}
    {seen infinite : List ℕ} {stack : List (ℕ × Span)} {rest : List Link}
    (hi : Spreading links uppers seen stack rest)
    (h : spreadInfinite uppers seen stack rest = .ok infinite) :
    Spread links uppers infinite ∧ (∀ m ∈ seen, m ∈ infinite) ∧ ∀ x ∈ stack, x.1 ∈ infinite := by
  induction seen, stack, rest using spreadInfinite.induct uppers with
  | case1 seen rest =>
    obtain rfl : seen = infinite := by simpa [spreadInfinite] using h
    refine ⟨⟨fun l hl m hm hlm => ?_, hi.unbounded⟩, fun _ => id, by simp⟩
    obtain ⟨n, hn, hmem | ⟨span, hmem⟩⟩ := hi.followed l hl m hm hlm
    · exact ⟨n, hmem, hn⟩
    · simp at hmem
  | case2 seen rest m span stack hseen ih =>
    rw [spreadInfinite, if_pos hseen] at h
    have hi' : Spreading links uppers seen stack rest := by
      refine ⟨fun l hl k hk hlk => ?_, hi.left, hi.unbounded⟩
      obtain ⟨n, hn, hmem | ⟨span', hmem⟩⟩ := hi.followed l hl k hk hlk
      · exact ⟨n, hn, .inl hmem⟩
      · obtain heq | hmem := List.mem_cons.mp hmem
        · obtain ⟨rfl, -⟩ := Prod.mk.inj heq
          exact ⟨n, hn, .inl hseen⟩
        · exact ⟨n, hn, .inr ⟨span', hmem⟩⟩
    obtain ⟨hspread, hsub, hstack⟩ := ih hi' h
    refine ⟨hspread, hsub, fun x hx => ?_⟩
    obtain rfl | hx := List.mem_cons.mp hx
    · exact hsub _ hseen
    · exact hstack x hx
  | case3 seen rest m span stack hseen hupper => simp [spreadInfinite, hseen, hupper] at h
  | case4 seen rest m span stack hseen hupper e he =>
    rw [spreadInfinite_cons hseen hupper, he] at h
    simp [Except.bind] at h
  | case5 seen rest m span stack hseen hupper stack' hpush ih =>
    rw [spreadInfinite_cons hseen hupper, hpush] at h
    obtain ⟨hkept, hpushed⟩ := mem_pushTargets hpush
    have hi' : Spreading links uppers (seen ++ [m]) stack' (linksNotFrom m rest) := by
      constructor
      · intro l hl k hk hlk
        by_cases hks : k ∈ seen
        · obtain ⟨n, hn, hmem | ⟨span', hmem⟩⟩ := hi.followed l hl k hks hlk
          · exact ⟨n, hn, .inl (List.mem_append_left _ hmem)⟩
          · obtain heq | hmem := List.mem_cons.mp hmem
            · obtain ⟨rfl, -⟩ := Prod.mk.inj heq
              exact ⟨n, hn, .inl (by simp)⟩
            · exact ⟨n, hn, .inr ⟨span', hkept _ hmem⟩⟩
        · -- The hole is the one taken from the stack, so the link is followed now.
          obtain rfl : k = m := by simpa [hks] using hk
          have hrest : l ∈ rest := by
            refine hi.left l hl fun n hn hln => hks ?_
            obtain rfl : k = n := by simpa [hlk] using hln
            exact hn
          obtain ⟨n, hn, hmem⟩ := hpushed l (by simp [linksFrom, hrest, hlk])
          exact ⟨n, hn, .inr ⟨_, hmem⟩⟩
      · intro l hl hne
        have hrest := hi.left l hl fun k hk => hne k (List.mem_append_left _ hk)
        have hm := hne m (by simp)
        simpa [linksNotFrom, hrest] using hm
      · intro k hk
        obtain hk | rfl := by simpa using hk
        · exact hi.unbounded k hk
        · exact hupper
    obtain ⟨hspread, hsub, hstack⟩ := ih hi' h
    refine ⟨hspread, fun k hk => hsub k (List.mem_append_left _ hk), fun x hx => ?_⟩
    obtain rfl | hx := List.mem_cons.mp hx
    · exact hsub _ (by simp)
    · exact hstack x (hkept x hx)

/-! ## The solution -/

theorem eval_ofVar (v : LevelVar) (add floor : ℕ) (p : ℕ) (σ : ℕ → ℕ∞) :
    (Level.ofVar v add floor).eval p σ = max (v.eval p σ + add) floor := by
      rw [Level.eval_eq_denote, Level.denote_ofVar]

/-- The level is a constant or the parameter with an offset, and nothing was cut off when its
numbers were made natural. -/
theorem finiteLevel_eq_ok {m : ℕ} {v : LevelValue} {l : Level} (h : finiteLevel m v = .ok l) :
    v.add = none ∧ l = .const v.floor.toNat ∨
      ∃ a, v.add = some a ∧ 0 ≤ a ∧ l = .ofVar .param a.toNat v.floor.toNat := by
  unfold finiteLevel at h
  cases hadd : v.add with
  | none =>
    by_cases hf : 0 ≤ v.floor ∧ v.floor ≤ Level.bound
    · obtain rfl : Level.const v.floor.toNat = l := by
        simpa [hadd, hf, bind, Except.bind, pure, Except.pure] using h
      exact .inl ⟨rfl, rfl⟩
    · simp [hadd, hf, bind, Except.bind] at h
  | some a =>
    by_cases ha : 0 ≤ a ∧ a ≤ Level.bound
    · by_cases hf : 0 ≤ v.floor ∧ v.floor ≤ Level.bound
      · obtain rfl : Level.ofVar .param a.toNat v.floor.toNat = l := by
          simpa [hadd, ha, hf, bind, Except.bind, pure, Except.pure] using h
        exact .inr ⟨a, rfl, ha.1, rfl⟩
      · simp [hadd, ha, hf, bind, Except.bind] at h
    · simp [hadd, ha, bind, Except.bind] at h

theorem eval_finiteLevel {m : ℕ} {v : LevelValue} {l : Level} (h : finiteLevel m v = .ok l)
    (p : ℕ) (σ : ℕ → ℕ∞) : l.eval p σ = ((v.eval p).toNat : ℕ∞) := by
  obtain ⟨hadd, rfl⟩ | ⟨a, hadd, ha, rfl⟩ := finiteLevel_eq_ok h
  · simp [LevelValue.eval, hadd, Level.eval]
  · rw [eval_ofVar, LevelVar.eval, ← Nat.cast_add, ← Nat.mono_cast.map_max, LevelValue.eval, hadd]
    congr 1
    dsimp only
    omega

theorem hole?_finiteLevel {m : ℕ} {v : LevelValue} {l : Level} (h : finiteLevel m v = .ok l) :
    l.hole? = none := by
  obtain ⟨-, rfl⟩ | ⟨a, -, -, rfl⟩ := finiteLevel_eq_ok h <;> rfl

/-- A traversal that succeeds gives one result for each element, in order. -/
theorem forall₂_of_mapM_eq_ok {ε α β : Type*} {f : α → Except ε β} {xs : List α} {ys : List β}
    (h : xs.mapM f = .ok ys) : List.Forall₂ (fun x y => f x = .ok y) xs ys := by
  induction xs generalizing ys with
  | nil =>
    obtain rfl : [] = ys := by simpa [pure, Except.pure] using h
    exact .nil
  | cons x xs ih =>
    rw [List.mapM_cons] at h
    cases hx : f x with
    | error e => simp [hx, bind, Except.bind] at h
    | ok y =>
      cases hxs : xs.mapM f with
      | error e => simp [hx, hxs, bind, Except.bind] at h
      | ok zs =>
        obtain rfl : y :: zs = ys := by
          simpa [hx, hxs, bind, Except.bind, pure, Except.pure] using h
        exact .cons hx (ih hxs)

/-- The entries of a solution, node by node. -/
theorem lookup_filterMap_of_forall₂ {nodes : List LevelNode} {solved : List (Option (ℕ × Level))}
    {R : ℕ → Level → Prop}
    (h : List.Forall₂ (fun n y => match n with
      | .hole m => ∃ l, y = some (m, l) ∧ R m l
      | _ => y = none) nodes solved) {m : ℕ} (hm : LevelNode.hole m ∈ nodes) :
    ∃ l, (solved.filterMap id).lookup m = some l ∧ R m l := by
  induction h with
  | nil => simp at hm
  | @cons n y nodes solved hn _ ih =>
    cases n with
    | zero =>
      subst hn
      simpa using ih (by simpa using hm)
    | param =>
      subst hn
      simpa using ih (by simpa using hm)
    | hole k =>
      obtain ⟨l, rfl, hl⟩ := hn
      by_cases hk : m = k
      · subst hk
        exact ⟨l, by simp, hl⟩
      · simpa [List.lookup_cons, beq_eq_false_iff_ne.mpr hk] using ih (by simpa [hk] using hm)

/-- What is not among the nodes has no entry in the solution. -/
theorem lookup_filterMap_eq_none {nodes : List LevelNode} {solved : List (Option (ℕ × Level))}
    {R : ℕ → Level → Prop} (h : List.Forall₂ (fun n y => match n with
      | .hole m => ∃ l, y = some (m, l) ∧ R m l
      | _ => y = none) nodes solved) {m : ℕ} (hm : LevelNode.hole m ∉ nodes) :
    (solved.filterMap id).lookup m = none := by
  induction h with
  | nil => rfl
  | @cons n y nodes solved hn _ ih =>
    obtain ⟨hne, hnodes⟩ := not_or.mp (List.mem_cons.not.mp hm)
    cases n with
    | zero =>
      subst hn
      simpa using ih hnodes
    | param =>
      subst hn
      simpa using ih hnodes
    | hole k =>
      obtain ⟨l, rfl, hl⟩ := hn
      have hk : m ≠ k := fun hk => hne (hk ▸ rfl)
      simpa [List.lookup_cons, beq_eq_false_iff_ne.mpr hk] using ih hnodes

/-- What a solution says: each node that is a hole is infinite or has the value of its distances,
and no other hole has a level. -/
theorem solve_eq_ok {g : LevelGraph} {holes : List ℕ} {sol : List (ℕ × Level)}
    (h : g.solve holes = .ok sol) : ∃ d g' infinite, narrow (g.nodes holes) g = .ok (d, g') ∧
      spreadInfinite (g'.uppers.map (·.1)) [] g'.infinite.reverse g'.links = .ok infinite ∧
      (∀ m, .hole m ∈ g.nodes holes → ∃ l, sol.lookup m = some l ∧
        (if m ∈ infinite then l = .top else finiteLevel m (d.value (.hole m)) = .ok l)) ∧
      ∀ m, .hole m ∉ g.nodes holes → sol.lookup m = none := by
  unfold solve at h
  cases hn : narrow (g.nodes holes) g with
  | error e => simp [hn, bind, Except.bind] at h
  | ok r =>
    obtain ⟨d, g'⟩ := r
    simp only [hn, bind, Except.bind] at h
    cases hs : spreadInfinite (g'.uppers.map (·.1)) [] g'.infinite.reverse g'.links with
    | error e => simp [hs] at h
    | ok infinite =>
      simp only [hs] at h
      split at h
      case h_1 => simp at h
      case h_2 solved hm =>
        obtain rfl : solved.filterMap id = sol := by simpa [pure, Except.pure] using h
        have hsolved := (forall₂_of_mapM_eq_ok hm).imp (S := fun n y => match n with
          | .hole m => ∃ l, y = some (m, l) ∧
              (if m ∈ infinite then l = .top else finiteLevel m (d.value (.hole m)) = .ok l)
          | _ => y = none) fun n y hy => ?_
        · exact ⟨d, g', infinite, rfl, hs, fun m => lookup_filterMap_of_forall₂ hsolved,
            fun m => lookup_filterMap_eq_none hsolved⟩
        cases n with
        | zero => simpa [pure, Except.pure, eq_comm] using hy
        | param => simpa [pure, Except.pure, eq_comm] using hy
        | hole k =>
          by_cases hk : k ∈ infinite
          · refine ⟨.top, ?_, by simp [hk]⟩
            simpa [hk, pure, Except.pure, eq_comm] using hy
          · cases hl : finiteLevel k (d.value (.hole k)) with
            | error e => simp [hk, hl] at hy
            | ok l =>
              refine ⟨l, ?_, by simp [hk, hl]⟩
              simpa [hk, hl, pure, Except.pure, eq_comm] using hy

section Values
variable {g g' : LevelGraph} {holes infinite : List ℕ} {sol : List (ℕ × Level)} {d : LevelDistances}

/-- The values that a solution gives to nodes: infinite holes are infinite, all else is read off the
distances. -/
theorem eval_node_of_solution
    (hsol : ∀ m, .hole m ∈ g.nodes holes → ∃ l, sol.lookup m = some l ∧
      (if m ∈ infinite then l = .top else finiteLevel m (d.value (.hole m)) = .ok l))
    (p : ℕ) {n : LevelNode} (hn : n ∈ g.nodes holes) :
    (∃ m ∈ infinite, n = .hole m) ∧ n.eval p (solutionValues sol p) = ⊤ ∨
      (∀ m ∈ infinite, n ≠ .hole m) ∧ ∃ s : ℕ, n.eval p (solutionValues sol p) = s ∧
      (d.value n).eval p = s := by
  cases n with
  | zero => exact .inr ⟨by simp, 0, rfl, rfl⟩
  | param => exact .inr ⟨by simp, p, rfl, d.eval_value_param p⟩
  | hole m =>
    obtain ⟨l, hl, hval⟩ := hsol m hn
    by_cases hm : m ∈ infinite
    · rw [if_pos hm] at hval
      subst hval
      exact .inl ⟨⟨m, hm, rfl⟩, by simp [LevelNode.eval, solutionValues, hl, Level.eval]⟩
    · rw [if_neg hm] at hval
      refine .inr ⟨by rintro k hk ⟨rfl⟩; exact hm hk, ((d.value (.hole m)).eval p).toNat, ?_, ?_⟩
      · simp [LevelNode.eval, solutionValues, hl, eval_finiteLevel hval p]
      · exact (Int.toNat_of_nonneg (d.eval_nonneg p _)).symm

theorem mem_nodes_of_endpoint {s t : LevelNode} (h : (s, t) ∈ g.endpoints) :
    s ∈ g.nodes holes ∧ t ∈ g.nodes holes :=
  ⟨mem_nodes_iff.mpr (.inr ⟨s, t, h, .inl rfl⟩), mem_nodes_iff.mpr (.inr ⟨s, t, h, .inr rfl⟩)⟩

/-- A solution satisfies the graph that was solved, at every value of the level parameter, if the
solver was told of the holes that have an upper bound or must be infinite. -/
theorem satisfied_of_solve (h : g.solve holes = .ok sol)
    (huppers : ∀ b ∈ g.uppers, b.1 ∈ g.nodes holes)
    (hinfinite : ∀ i ∈ g.infinite, .hole i.1 ∈ g.nodes holes) (p : ℕ) :
    g.Satisfied (LevelNode.eval p (solutionValues sol p)) := by
  obtain ⟨d, g', infinite, hnarrow, hspread, hsol, -⟩ := solve_eq_ok h
  have hn := narrowed_of_narrow hnarrow
  obtain ⟨hs, -, hseeds⟩ := spread_of_spreadInfinite
    (show Spreading g'.links _ _ _ _ from ⟨by simp, fun l hl _ => hl, by simp⟩) hspread
  have hval {n : LevelNode} (hn : n ∈ g.nodes holes) := eval_node_of_solution hsol p hn
  -- A finite target has a finite source, because infinity spreads along links.
  have hends {s t : LevelNode} {span : Span} (hl : (s, t, span) ∈ g'.links)
      (hst : (s, t) ∈ g'.endpoints) {y : ℕ} (hy : t.eval p (solutionValues sol p) = y) :
      (d.value t).eval p = y ∧ ∃ x : ℕ, s.eval p (solutionValues sol p) = x ∧
      (d.value s).eval p = x := by
    obtain ⟨hsn, htn⟩ : s ∈ g.nodes holes ∧ t ∈ g.nodes holes :=
      mem_nodes_of_endpoint (hn.endpoints _ hst)
    obtain ⟨-, htop⟩ | ⟨hfin, z, hz, hdz⟩ := hval htn
    · simp [hy] at htop
    obtain rfl : z = y := by simpa [hz] using hy
    obtain ⟨⟨m, hm, rfl⟩, -⟩ | ⟨-, hx⟩ := hval hsn
    · obtain ⟨k, hk, htk⟩ := hs.closed _ hl m hm rfl
      exact absurd htk (hfin k hk)
    · exact ⟨hdz, hx⟩
  refine hn.satisfied _ ⟨fun e he t ht => ?_, fun a ha t ht => ?_, fun b hb => ?_, fun i hi => ?_⟩
  · obtain ⟨hdt, s, hs, hds⟩ := hends (List.mem_append_left _ (List.mem_map_of_mem he))
      (List.mem_append_left _ (List.mem_map_of_mem he)) ht
    have := e.eval_of_holds p (hn.edges e he)
    exact ⟨s, hs, by omega⟩
  · obtain ⟨hdt, s, hs, hds⟩ := hends (List.mem_append_right _ (List.mem_map_of_mem ha))
      (List.mem_append_right _ (List.mem_map_of_mem ha)) ht
    have := a.eval_of_holds p (hn.alternatives a ha)
    exact ⟨s, hs, by omega⟩
  · obtain ⟨⟨m, hm, hbm⟩, -⟩ | ⟨-, s, hs', hds⟩ := hval (huppers b (hn.sameUppers ▸ hb))
    · exact absurd (List.mem_map.mpr ⟨b, hb, hbm⟩) (hs.unbounded m hm)
    · obtain ⟨hadd, hfloor⟩ := hn.uppers b hb
      refine ⟨s, hs', ?_⟩
      rw [← hds, LevelValue.eval, hadd]
      exact hfloor
  · obtain ⟨-, htop⟩ | ⟨hfin, -⟩ := hval (hinfinite i (hn.sameInfinite ▸ hi))
    · exact htop
    · exact absurd rfl (hfin i.1 (hseeds i (List.mem_reverse.mpr hi)))

end Values

/-- The solver is sound: if constraints are added one by one without a conflict, and the graph has a
solution for a list of holes with all those mentioned, then the solution gives each of these holes a
level without holes, and makes each constraint true at every value of the level parameter. -/
theorem holds_of_solve {ks : List LevelConstraint} {g : LevelGraph} {holes : List ℕ}
    {sol : List (ℕ × Level)} (hadd : LevelGraph.addAll? {} ks = some g)
    (hholes : ∀ k ∈ ks, ∀ m ∈ k.holes, m ∈ holes) (hsol : g.solve holes = .ok sol) :
    (∀ m ∈ holes, ∃ l, sol.lookup m = some l ∧ l.hole? = none) ∧
      ∀ k ∈ ks, ∀ p : ℕ, k.Holds p (solutionValues sol p) := by
  have hb := holesIn_addAll? .empty hholes hadd
  have hmem {m : ℕ} (hm : m ∈ holes) : LevelNode.hole m ∈ g.nodes holes :=
    mem_nodes_iff.mpr (.inl (.inr (.inr ⟨m, hm, rfl⟩)))
  constructor
  · intro m hm
    obtain ⟨d, g', infinite, -, -, hlookup, -⟩ := solve_eq_ok hsol
    obtain ⟨l, hl, hval⟩ := hlookup m (hmem hm)
    refine ⟨l, hl, ?_⟩
    split at hval
    · subst hval
      rfl
    · exact hole?_finiteLevel hval
  · intro k hk p
    have hs := satisfied_of_solve hsol
      (fun b hb' => by obtain ⟨m, hm, hbm⟩ := hb.uppers b hb'; exact hbm ▸ hmem hm)
      (fun i hi => hmem (hb.infinite i hi)) p
    exact ((satisfied_addAll? hadd).mp hs).2 k hk

/-- The graph of the bounds `1 ≤ ?0`, `?0 ≤ max ?2 3` and `∞ ≤ ?1`. -/
def boundedTriple : LevelGraph where
  edges := [⟨.zero, .hole 0, 1, default⟩]
  alternatives := [⟨.hole 0, 0, .hole 2, 0, 3, default⟩]
  infinite := [(1, default)]

/-- One round raises the first hole to one, and the next changes nothing. -/
theorem least_boundedTriple :
    ∃ d, boundedTriple.least [.zero, .param, .hole 0, .hole 1, .hole 2] = .ok d ∧
    d.value (.hole 0) = ⟨none, 1⟩ ∧ d.value (.hole 2) = ⟨none, 0⟩ := by
  let d₀ : LevelDistances := .initial [.zero, .param, .hole 0, .hole 1, .hole 2]
  let d : LevelDistances := ⟨d₀.fromZero.insert (.hole 0) 1, d₀.fromParam⟩
  have hfirst : LevelDistances.relaxAll boundedTriple.edges d₀ =
      (d, some ⟨.zero, .hole 0, 1, default⟩) := by
    simp [boundedTriple, LevelDistances.relaxAll, LevelDistances.relaxEdge, LevelDistances.initial,
      d, d₀, Std.HashMap.getElem_insert, Std.HashMap.getD_insert]
  have hsecond : LevelDistances.relaxAll boundedTriple.edges d = (d, none) := by
    simp [boundedTriple, LevelDistances.relaxAll, LevelDistances.relaxEdge, LevelDistances.initial,
      d, d₀, Std.HashMap.getElem_insert]
  have hvalue : d.value (.hole 0) = ⟨none, 1⟩ ∧ d.value (.hole 2) = ⟨none, 0⟩ := by
    simp [LevelDistances.value, LevelDistances.initial, d, d₀, Std.HashMap.getD_insert]
  refine ⟨d, ?_, hvalue⟩
  rw [least, List.length_cons, LevelDistances.relax_succ_of_changed hfirst,
    LevelDistances.relax_of_unchanged hsecond]
  have hholds : LevelEdge.holds d ⟨.zero, .hole 0, 1, default⟩ := by
    rw [LevelEdge.holds, hvalue.1]
    decide
  simp [boundedTriple, hholds, bind, Except.bind, pure, Except.pure]

/-- The alternative holds at the least distances, so nothing is narrowed; the second hole is
infinite and leads nowhere. -/
theorem solve_boundedTriple :
    boundedTriple.solve [0, 1, 2] = .ok [(0, .const 1), (1, .top), (2, .const 0)] := by
  have hnodes : boundedTriple.nodes [0, 1, 2] = [.zero, .param, .hole 0, .hole 1, .hole 2] := by
    decide
  obtain ⟨d, hd, h0, h2⟩ := least_boundedTriple
  have hn := narrow_of_findIdx?_eq_none hd
    (by simp [boundedTriple, LevelAlternative.holds, h0, h2, LevelValue.atZero])
  have hs : spreadInfinite [] [] [(1, default)] boundedTriple.links = .ok [1] := by
    rw [spreadInfinite_cons (by simp) (by simp)]
    simp [boundedTriple, links, linksFrom, linksNotFrom, pushTargets, Except.bind, spreadInfinite]
  rw [show ([] : List LevelNode) = boundedTriple.uppers.map (·.1) from rfl,
    show [(1, default)] = boundedTriple.infinite.reverse from rfl] at hs
  simp [solve, hnodes, hn, hs, bind, Except.bind, pure, Except.pure, h0, h2, finiteLevel,
    Level.bound]

/-- A hole with a lower bound, one with an upper bound that its constant part meets, and one that is
infinite. -/
theorem holds_of_solve_boundedTriple :
    let ks : List LevelConstraint :=
      [{ left := .const 1, right := .hole 0 }, { left := .hole 0, right := .var (.hole 2) 0 3 },
        { left := .top, right := .hole 1 }]
    addAll? {} ks = some boundedTriple ∧ (∀ k ∈ ks, ∀ m ∈ k.holes, m ∈ [0, 1, 2]) ∧
      ∃ sol, boundedTriple.solve [0, 1, 2] = .ok sol ∧
        (∀ m ∈ [0, 1, 2], ∃ l, sol.lookup m = some l ∧ l.hole? = none) ∧
        ∀ k ∈ ks, ∀ p : ℕ, k.Holds p (solutionValues sol p) := by
  intro ks
  have hholes : ∀ k ∈ ks, ∀ m ∈ k.holes, m ∈ [0, 1, 2] := by decide
  exact ⟨rfl, hholes, _, solve_boundedTriple, holds_of_solve rfl hholes solve_boundedTriple⟩

end LevelGraph

end LeveledTypes
