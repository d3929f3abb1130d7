import LeveledTypes.Level.Basic
import LeveledTypes.Text.Span
import Std.Data.HashMap

/-!
# Constraints between levels

A graph holds the constraints `l ≤ r` met while one definition is checked. Most are edges `from +
weight ≤ to`; an upper bound `max (v + a) c` with `c > 0` is kept as an alternative, which asks for
its edge only when the constant does not suffice. `solve` computes the least assignment: a
longest-path relaxation from zero and from the level parameter, repeated each time an alternative
has to be narrowed to its edge.
-/
namespace LeveledTypes

/-- What an edge of a level graph connects. -/
inductive LevelNode where
  | zero
  | param
  | hole (m : Nat)
deriving DecidableEq, Inhabited, Hashable

def LevelVar.node : LevelVar → LevelNode
  | .param => .param
  | .hole m => .hole m

def LevelNode.render : LevelNode → String
  | .zero => "Zero"
  | .param => "Param"
  | .hole m => "Meta(" ++ toString m ++ ")"

/-- Why level constraints have no solution. -/
inductive LevelConflict where
  /-- A constraint between levels that no assignment can make true. -/
  | unsatisfiable (l r : Level)
  /-- A cycle of constraints that raises the level of a node without end. -/
  | cycle (n : LevelNode)
  | brokenEdge (source : LevelNode) (weight : Int) (target : LevelNode)
  | aboveBound (n : LevelNode) (bound : Int)
  /-- A hole with a finite upper bound would be infinite. -/
  | infiniteHole (m : Nat)
  | infiniteNode (n : LevelNode)
  | overflow (m : Nat) (value : Int)
  | noUniverse (u : Universe)
deriving DecidableEq

/-- A conflict as it is shown. -/
def LevelConflict.render : LevelConflict → String
  | .unsatisfiable l r => l.render ++ " <= " ++ r.render
  | .cycle n => "cyclic constraint through " ++ n.render
  | .brokenEdge s w t => s.render ++ " + " ++ toString w ++ " <= " ++ t.render
  | .aboveBound n b => n.render ++ " <= " ++ toString b
  | .infiniteHole m => "\\oo <= ?l" ++ toString m
  | .infiniteNode n => "\\oo <= " ++ n.render
  | .overflow m x => "?l" ++ toString m ++ " overflows at " ++ toString x
  | .noUniverse u => "no universe contains \\Type " ++ u.p.render ++ " " ++ u.h.render

/-- A conflict and the place whose constraint it was found at. -/
structure LevelError where
  conflict : LevelConflict
  span : Span
deriving DecidableEq

/-- The constraint `source + weight ≤ target`. -/
structure LevelEdge where
  source : LevelNode
  target : LevelNode
  weight : Int
  span : Span
deriving DecidableEq

/-- The constraint `source + add ≤ max (target + targetAdd) floor`. -/
structure LevelAlternative where
  source : LevelNode
  add : Int
  target : LevelNode
  targetAdd : Int
  floor : Int
  span : Span
deriving DecidableEq

/-- A solved level `max (param + add) floor`, where the first part may be absent. -/
structure LevelValue where
  add : Option Int
  floor : Int
deriving DecidableEq

/-- The value when the level parameter is zero. -/
def LevelValue.atZero (v : LevelValue) : Int :=
  match v.add with
  | some a => max a v.floor
  | none => v.floor

/-- The longest known distances to nodes, from zero and from the level parameter. -/
structure LevelDistances where
  fromZero : Std.HashMap LevelNode Int
  fromParam : Std.HashMap LevelNode Int

namespace LevelDistances

/-- The value of a node at the distances; zero and the parameter have their own. -/
def value (d : LevelDistances) : LevelNode → LevelValue
  | .zero => ⟨none, 0⟩
  | .param => ⟨some 0, 0⟩
  | n => ⟨(d.fromParam[n]?).map (max · 0), max (d.fromZero.getD n 0) 0⟩

/-- Every node at distance zero from zero, and only the parameter reached from the parameter. -/
def initial (nodes : List LevelNode) : LevelDistances where
  fromZero := nodes.foldl (fun d n => d.insert n 0) ∅
  fromParam := (∅ : Std.HashMap LevelNode Int).insert .param 0

/-- Raises the target of an edge to what the edge asks for, and tells whether that changed
anything. -/
def relaxEdge (d : LevelDistances) (e : LevelEdge) : LevelDistances × Bool :=
  let (fromZero, raised) :=
    match d.fromZero[e.source]? with
    | some x =>
      if x + e.weight > d.fromZero.getD e.target 0 then
        (d.fromZero.insert e.target (x + e.weight), true)
      else (d.fromZero, false)
    | none => (d.fromZero, false)
  match d.fromParam[e.source]? with
  | some x =>
    let better :=
      match d.fromParam[e.target]? with
      | some y => decide (x + e.weight > y)
      | none => true
    if better then (⟨fromZero, d.fromParam.insert e.target (x + e.weight)⟩, true)
    else (⟨fromZero, d.fromParam⟩, raised)
  | none => (⟨fromZero, d.fromParam⟩, raised)

/-- One round over all edges, with the last edge that changed a distance. -/
def relaxAll (edges : List LevelEdge) (d : LevelDistances) : LevelDistances × Option LevelEdge :=
  edges.foldl (fun (d, last) e =>
    let (d, changed) := d.relaxEdge e
    (d, if changed then some e else last)) (d, none)

/-- Rounds until nothing changes. A change after the last of `rounds` can only come from a cycle. -/
def relax (edges : List LevelEdge) : Nat → LevelDistances → Except LevelError LevelDistances
  | rounds, d =>
    match relaxAll edges d, rounds with
    | (d, none), _ => .ok d
    | (_, some e), 0 => .error ⟨.cycle e.target, e.span⟩
    | (d, some _), rounds + 1 => relax edges rounds d

end LevelDistances

/-- Whether the distances satisfy an edge at every value of the level parameter. -/
def LevelEdge.holds (d : LevelDistances) (e : LevelEdge) : Bool :=
  let u := d.value e.source
  let v := d.value e.target
  let lifted :=
    match u.add, v.add with
    | some a, some b => decide (a + e.weight ≤ b)
    | some _, none => false
    | none, _ => true
  lifted && u.floor + e.weight ≤ max v.atZero v.floor

/-- Whether an alternative holds at the values of its ends, by the one side or the other. -/
def LevelAlternative.holds (d : LevelDistances) (a : LevelAlternative) : Bool :=
  let u := d.value a.source
  let v := d.value a.target
  let lifted :=
    match u.add, v.add with
    | some p, some q => decide (p + a.add ≤ q + a.targetAdd)
    | some _, none => false
    | none, _ => true
  lifted && u.floor + a.add ≤ max (v.atZero + a.targetAdd) a.floor

/-- The constraints on levels. -/
structure LevelGraph where
  edges : List LevelEdge := []
  alternatives : List LevelAlternative := []
  /-- Upper bounds of nodes by numbers. -/
  uppers : List (LevelNode × Int × Span) := []
  /-- Holes bounded below by the infinite level. -/
  infinite : List (Nat × Span) := []
deriving Inhabited

namespace LevelGraph

/-- Adds an edge, unless it holds of every assignment. -/
def addEdge (g : LevelGraph) (source target : LevelNode) (weight : Int) (span : Span) :
    LevelGraph :=
  if source = target ∧ weight ≤ 0 then g
  else { g with edges := g.edges ++ [⟨source, target, weight, span⟩] }

/-- Adds `c ≤ r` for a number `c`. -/
def addConstLe (g : LevelGraph) (c : Nat) (r : Level) (span : Span) :
    LevelGraph × Option LevelError :=
  match r with
  | .top => (g, none)
  | .const b => if c ≤ b then (g, none) else (g, some ⟨.unsatisfiable (.const c) r, span⟩)
  | .var v add floor =>
    (if c > floor then g.addEdge .zero v.node ((c : Int) - add) span else g, none)

/-- Adds `v + add ≤ r`, the part of `l ≤ r` that the floor of `l` leaves. -/
def addVarLe (g : LevelGraph) (l : Level) (v : LevelVar) (add : Nat) (r : Level) (span : Span) :
    LevelGraph × Option LevelError :=
  match r with
  | .top => (g, none)
  | .const b =>
    if add > b ∨ v = .param then (g, some ⟨.unsatisfiable l r, span⟩)
    else ({ g with uppers := g.uppers ++ [(v.node, (b : Int) - add, span)] }, none)
  | .var w a 0 => (g.addEdge v.node w.node ((add : Int) - a) span, none)
  | .var w a floor =>
    if v = w ∧ add ≤ a then (g, none)
    else
      ({ g with alternatives := g.alternatives ++ [⟨v.node, add, w.node, a, floor, span⟩] }, none)

/-- Adds the constraint `l ≤ r`. What was added before a conflict stays. -/
def addLe (g : LevelGraph) (l r : Level) (span : Span) : LevelGraph × Option LevelError :=
  match l, r with
  | _, .top => (g, none)
  | .top, .var (.hole m) _ _ => ({ g with infinite := g.infinite ++ [(m, span)] }, none)
  | .top, r => (g, some ⟨.unsatisfiable .top r, span⟩)
  | .const a, r => g.addConstLe a r span
  | .var v add floor, r =>
    if floor > 0 then
      match g.addConstLe floor r span with
      | (g, none) => g.addVarLe l v add r span
      | conflict => conflict
    else g.addVarLe l v add r span

/-- Adds `l ≤ r` and `r ≤ l`. -/
def addEq (g : LevelGraph) (l r : Level) (span : Span) : LevelGraph × Option LevelError :=
  match g.addLe l r span with
  | (g, none) => g.addLe r l span
  | conflict => conflict

def isEmpty (g : LevelGraph) : Bool :=
  g.edges.isEmpty && g.alternatives.isEmpty && g.uppers.isEmpty && g.infinite.isEmpty

def endpoints (g : LevelGraph) : List (LevelNode × LevelNode) :=
  g.edges.map (fun e => (e.source, e.target)) ++ g.alternatives.map (fun a => (a.source, a.target))

/-- Zero, the parameter, the given holes, and every further end of a constraint. -/
def nodes (g : LevelGraph) (holes : List Nat) : List LevelNode :=
  let add (ns : List LevelNode) (n : LevelNode) := if n ∈ ns then ns else ns ++ [n]
  g.endpoints.foldl (fun ns (s, t) => add (add ns s) t) (.zero :: .param :: holes.map .hole)

/-- The least distances that satisfy the edges, if these and the upper bounds can be satisfied. -/
def least (g : LevelGraph) (nodes : List LevelNode) : Except LevelError LevelDistances := do
  let d ← LevelDistances.relax g.edges (nodes.length + 1) (.initial nodes)
  match g.edges.find? fun e => !e.holds d with
  | some e => throw ⟨.brokenEdge e.source e.weight e.target, e.span⟩
  | none =>
    match g.uppers.find? fun (n, b, _) => (d.value n).add.isSome || (d.value n).floor > b with
    | some (n, b, span) => throw ⟨.aboveBound n b, span⟩
    | none => return d

/-- A list without its entry at `i`, whose place the last entry takes. -/
def swapRemove (xs : List α) (i : Nat) : List α :=
  match xs.getLast? with
  | some x => (xs.set i x).dropLast
  | none => []

theorem length_swapRemove (xs : List α) (i : Nat) : (swapRemove xs i).length = xs.length - 1 := by
  unfold swapRemove
  split
  · simp
  · simp_all [List.getLast?_eq_none_iff]

/-- The distances at which every edge and every alternative holds, with the graph in which the
alternatives that the least distances broke have become edges. -/
def narrow (nodes : List LevelNode) (g : LevelGraph) :
    Except LevelError (LevelDistances × LevelGraph) :=
  match g.least nodes with
  | .error e => .error e
  | .ok d =>
    match _h : g.alternatives.findIdx? fun a => !a.holds d with
    | none => .ok (d, g)
    | some i =>
      match _h' : g.alternatives[i]? with
      | none => .ok (d, g)
      | some a =>
        let g' := { g with alternatives := swapRemove g.alternatives i }
        narrow nodes (g'.addEdge a.source a.target (a.add - a.targetAdd) a.span)
termination_by g.alternatives.length
decreasing_by
  have hi : i < g.alternatives.length := (List.getElem?_eq_some_iff.mp _h').1
  simp only [addEdge]
  split <;> simp only [length_swapRemove] <;> omega

/-- One way along a constraint, with the place of the constraint. -/
abbrev Link := LevelNode × LevelNode × Span

def links (g : LevelGraph) : List Link :=
  g.edges.map (fun e => (e.source, e.target, e.span)) ++
    g.alternatives.map (fun a => (a.source, a.target, a.span))

/-- The holes at the ends of links, in front of those that wait; none if a link ends elsewhere. -/
def pushTargets : List Link → List (Nat × Span) → Except LevelError (List (Nat × Span))
  | [], stack => .ok stack
  | (_, .hole n, span) :: rest, stack => pushTargets rest ((n, span) :: stack)
  | (_, n, span) :: _, _ => .error ⟨.infiniteNode n, span⟩

theorem length_pushTargets {out : List Link} {stack stack' : List (Nat × Span)}
    (h : pushTargets out stack = .ok stack') : stack'.length = stack.length + out.length := by
  induction out generalizing stack with
  | nil => simp_all [pushTargets]
  | cons l out ih =>
    obtain ⟨s, t, span⟩ := l
    cases t with
    | hole n =>
      have := ih (by simpa [pushTargets] using h)
      simp only [List.length_cons] at this ⊢
      omega
    | zero => simp [pushTargets] at h
    | param => simp [pushTargets] at h

/-- The links that start at a hole. -/
def linksFrom (m : Nat) (ls : List Link) : List Link := ls.filter fun l => l.1 = .hole m

/-- The links that start elsewhere. -/
def linksNotFrom (m : Nat) (ls : List Link) : List Link := ls.filter fun l => l.1 ≠ .hole m

theorem length_linksFrom_add (m : Nat) (ls : List Link) :
    (linksFrom m ls).length + (linksNotFrom m ls).length = ls.length := by
  induction ls with
  | nil => rfl
  | cons l ls ih =>
    by_cases h : l.1 = .hole m <;> simp [linksFrom, linksNotFrom, h] at ih ⊢ <;> omega

/-- The holes that are infinite because a constraint path leads to them from one on the stack. A
hole with an upper bound cannot be, nor can zero or the parameter. -/
def spreadInfinite (uppers : List LevelNode) (seen : List Nat) (stack : List (Nat × Span))
    (rest : List Link) : Except LevelError (List Nat) :=
  match stack with
  | [] => .ok seen
  | (m, span) :: stack =>
    if m ∈ seen then spreadInfinite uppers seen stack rest
    else if .hole m ∈ uppers then .error ⟨.infiniteHole m, span⟩
    else
      match _h : pushTargets (linksFrom m rest) stack with
      | .error e => .error e
      | .ok stack' =>
        spreadInfinite uppers (seen ++ [m]) stack' (linksNotFrom m rest)
termination_by stack.length + rest.length
decreasing_by
  · simp only [List.length_cons]
    omega
  · have h := length_pushTargets _h
    have hp := length_linksFrom_add m rest
    simp only [List.length_cons]
    omega

/-- The level that a finite solution stands for, if its numbers are within bounds. -/
def finiteLevel (m : Nat) (v : LevelValue) : Except LevelError Level :=
  let fit (x : Int) : Except LevelError Nat :=
    if 0 ≤ x ∧ x ≤ Level.bound then .ok x.toNat else .error ⟨.overflow m x, default⟩
  match v.add with
  | some a => return .ofVar .param (← fit a) (← fit v.floor)
  | none => return .const (← fit v.floor)

/-- The least solution for the given holes and all others that constraints mention. A hole without a
lower bound is zero. -/
def solve (g : LevelGraph) (holes : List Nat) : Except LevelError (List (Nat × Level)) := do
  let nodes := g.nodes holes
  let (d, g) ← narrow nodes g
  let infinite ← spreadInfinite (g.uppers.map (·.1)) [] g.infinite.reverse g.links
  let solved ← nodes.mapM fun
    | .hole m => do
      let l ← if m ∈ infinite then pure Level.top else finiteLevel m (d.value (.hole m))
      return some (m, l)
    | _ => return none
  return solved.filterMap id

end LevelGraph

end LeveledTypes
