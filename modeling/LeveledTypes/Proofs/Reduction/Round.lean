import LeveledTypes.Proofs.Ensures
import LeveledTypes.Proofs.Term.Induction
import LeveledTypes.Reduction

/-!
# Rounds of reduction

One call of reduction makes further calls, takes fuel and unfolds functions, in an order that
depends on what comes back. A round is this course of events as a tree, with one kind of node for
each of these. Reduction to weak head normal form and normalization are the runs of their rounds, so
that what is true of the runs of all rounds is true of both.
-/
namespace LeveledTypes.Reducer

/-- A call of reduction, with the number of binders that it is under inside the context. -/
inductive Call where
  | whnf (depth : ℕ) (t : Term)
  | nf (depth : ℕ) (t : Term)

/-- What a call does until it returns. -/
inductive Round where
  | ret (t : Term)
  /-- Takes one unit of fuel. -/
  | step (next : Round)
  | call (c : Call) (next : Term → Round)
  /-- Unfolds a function at arguments, one for each parameter. -/
  | unfold (depth : ℕ) (n : GlobalName) (u : Universe) (body : Term) (args : List Term)
    (next : Option Term → Round)

namespace Round

/-- Runs a round, given how calls run. -/
def run (f : Call → Reduce Term) : Round → Reduce Term
  | ret t => pure t
  | step k => do
    Reducer.step
    k.run f
  | call c k => do
    let t ← f c
    (k t).run f
  | unfold d n u body args k => do
    let o ← Reducer.unfold (fun t => f (.whnf d t)) n u body args
    (k o).run f

/-- Ends with a weak head normal form. -/
def whnf (depth : ℕ) (t : Term) : Round := .call (.whnf depth t) .ret

/-- The round of a global applied to arguments. -/
def delta (r : Reducer) (depth : ℕ) (n : GlobalName) (u : Universe) (args : List Term) : Round :=
  let folded (args : List Term) := (Term.ref n u).apps args
  match r.env.get? n with
  | none => .ret (folded args)
  | some d =>
    let arity := d.tele.length
    if args.length < arity then .ret (folded args)
    else
      let rest := args.drop arity
      let args := args.take arity
      match d.body with
      | .primitive p => whnf depth ((canonical p args).apps rest)
      | .func body _ => .unfold depth n u body args fun
        | some t => whnf depth (t.apps rest)
        | none => .ret ((folded args).apps rest)
      | .data _ => whnf depth ((Term.data n u args).apps rest)
      | .constructor _ _ params _ =>
        whnf depth ((Term.con n u (args.take params) (args.drop params)).apps rest)
      | .cls _ _ => whnf depth ((Term.record n u args).apps rest)
      | .field c i =>
        match args.getLast? with
        | some a => whnf depth ((Term.field a c i).apps rest)
        | none => .ret (folded args)
      | .inst _ body => .step (whnf depth (((body.substLevels u).substAll args).apps rest))
      | .pending => .ret ((folded args).apps rest)

/-- The round of an application whose head is in weak head normal form. -/
def spine (r : Reducer) (depth : ℕ) (head : Term) (args : List Term) : Round :=
  match head, args with
  | .lam _ _ b, a :: args => .step (whnf depth ((b.subst a).apps args))
  | .hole m, args =>
    match r.store.solution? m with
    | some t => whnf depth (t.apps args)
    | none => .ret ((Term.hole m).apps args)
  | .ref n u, args => delta r depth n u args
  | head, args => .ret (head.apps args)

/-- The round of a path that is applied to a point which is not an end. -/
def along (depth : ℕ) (l x p i : Term) : Round :=
  .call (.whnf depth p) fun
    | .pathLam f => .step (whnf depth (.app f i))
    | p => .ret (.at l x p i)

/-- The round of head reduction. -/
def head (r : Reducer) (depth : ℕ) (t : Term) : Round :=
  match t with
  | .var i =>
    match r.localValue? depth i with
    | some v => whnf depth v
    | none => .ret t
  | .hole m =>
    match r.store.solution? m with
    | some s => whnf depth s
    | none => .ret t
  | .ref n u => delta r depth n u []
  | .app _ _ => .call (.whnf depth t.spine.1) fun head => spine r depth head t.spine.2
  | .letIn _ _ a b => .step (whnf depth (b.subst a))
  | .proj a side => .call (.whnf depth a) fun
    | .pair x y => .step (whnf depth (match side with
      | .fst => x
      | .snd => y))
    | a => .ret (.proj a side)
  | .field a c i => .call (.whnf depth a) fun
    | a@(.new _ _ _ fs) =>
      match fs[i]? with
      | some f => .step (whnf depth f)
      | none => .ret (.field a c i)
    | a => .ret (.field a c i)
  | .case a m bs => .call (.whnf depth a) fun a =>
    match constructor? a with
    | some (head, args) =>
      match bs.find? fun b => b.head == head with
      | some b => .step (whnf depth (b.body.substAll args))
      | none => .ret (.case a m bs)
    | none => .ret (.case a m bs)
  | .natRec m z s n => .call (.whnf depth n) fun
    | .zero => .step (whnf depth z)
    | .succ n => .step (whnf depth (s.apps [n, .natRec m z s n]))
    | n => .ret (.natRec m z s n)
  | .at l x p i => .call (.whnf depth i) fun
    | .left => whnf depth l
    | .right => whnf depth x
    | i => along depth l x p i
  | t => .ret t

/-- Normalizes the function part of an application, and goes on. -/
def spineHead (depth : ℕ) (t : Term) (next : Term → Round) : Round :=
  match t with
  | .app f a => spineHead depth f fun f => .call (.nf depth a) fun a => next (.app f a)
  | t@(.ref _ _) => next t
  | t => .call (.nf depth t) next

/-- Normalizes terms in turn, and goes on. -/
def all (depth : ℕ) (next : List Term → Round) : List Term → Round
  | [] => next []
  | t :: ts => .call (.nf depth t) fun t => all depth (fun ts => next (t :: ts)) ts

/-- Normalizes the bodies of branches in turn, and goes on. -/
def branches (depth : ℕ) (next : List (Branch Term) → Round) : List (Branch Term) → Round
  | [] => next []
  | b :: bs => .call (.nf (depth + b.arity) b.body) fun t =>
    branches depth (fun bs => next ({ b with body := t } :: bs)) bs

/-- The round that normalizes the parts of a term in weak head normal form. -/
def parts (depth : ℕ) (t : Term) : Round :=
  let nf (k : ℕ) (t : Term) (next : Term → Round) : Round := .call (.nf (depth + k) t) next
  match t with
  | .lam x a b => nf 0 a fun a => nf 1 b fun b => .ret (.lam x a b)
  | .pi x a b => nf 0 a fun a => nf 1 b fun b => .ret (.pi x a b)
  | .sigma x a b => nf 0 a fun a => nf 1 b fun b => .ret (.sigma x a b)
  | .app f a => spineHead depth f fun f => nf 0 a fun a => .ret (.app f a)
  | .pair a b => nf 0 a fun a => nf 0 b fun b => .ret (.pair a b)
  | .proj a s => nf 0 a fun a => .ret (.proj a s)
  | .data n u ps => all depth (fun ps => .ret (.data n u ps)) ps
  | .con n u ps xs => all depth (fun ps => all depth (fun xs => .ret (.con n u ps xs)) xs) ps
  | .record n u ps => all depth (fun ps => .ret (.record n u ps)) ps
  | .new n u ps fs => all depth (fun ps => all depth (fun fs => .ret (.new n u ps fs)) fs) ps
  | .field a n i => nf 0 a fun a => .ret (.field a n i)
  | .succ a => nf 0 a fun a => .ret (.succ a)
  | .case a m bs => nf 0 a fun a => nf 1 m fun m =>
    branches depth (fun bs => .ret (.case a m bs)) bs
  | .natRec m z s n => nf 0 m fun m => nf 0 z fun z => nf 0 s fun s => nf 0 n fun n =>
    .ret (.natRec m z s n)
  | .path a x y => nf 0 a fun a => nf 0 x fun x => nf 0 y fun y => .ret (.path a x y)
  | .pathLam f => nf 0 f fun f => .ret (.pathLam f)
  | .at l x p i => nf 0 l fun l => nf 0 x fun x => nf 0 p fun p =>
    nf 0 i fun i => .ret (.at l x p i)
  | t => .ret t

variable {f : Call → Reduce Term} {r : Reducer} {depth : ℕ}

@[simp] theorem run_ret (t : Term) : (ret t).run f = pure t := rfl

@[simp] theorem run_step (k : Round) : (step k).run f = Reducer.step >>= fun _ => k.run f := rfl

@[simp] theorem run_call (c : Call) (k : Term → Round) :
    (call c k).run f = f c >>= fun t => (k t).run f := rfl

@[simp] theorem run_unfold (n : GlobalName) (u : Universe) (body : Term) (args : List Term)
    (k : Option Term → Round) : (unfold depth n u body args k).run f =
      Reducer.unfold (fun t => f (.whnf depth t)) n u body args >>= fun o => (k o).run f := rfl

@[simp] theorem run_whnf (t : Term) : (whnf depth t).run f = f (.whnf depth t) := bind_pure _

/-- The round of an unfolding runs as unfolding is defined. -/
theorem run_delta (n : GlobalName) (u : Universe) (args : List Term) :
    (delta r depth n u args).run f = r.delta (fun t => f (.whnf depth t)) n u args := by
  unfold delta Reducer.delta
  cases r.env.get? n with
  | none => rfl
  | some d =>
    simp only
    split
    case isTrue => rfl
    case isFalse =>
      cases d.body with
      | func body =>
        refine bind_congr fun o => ?_
        cases o with
        | none => rfl
        | some t => exact run_whnf _
      | field c i => cases (args.take d.tele.length).getLast? <;> simp
      | _ => simp

theorem run_spine (head : Term) (args : List Term) :
    (spine r depth head args).run f = r.applySpine (fun t => f (.whnf depth t)) head args := by
  unfold applySpine
  split
  case h_1 => simp [spine]
  case h_2 m =>
    simp only [spine]
    cases r.store.solution? m <;> simp
  case h_3 => exact run_delta _ _ _
  case h_4 hhole href hlam =>
    rw [spine, run_ret]
    all_goals assumption

/-- The round of a call for weak head normal form runs as the call is defined. One case for each
form of terms. -/
theorem run_head (t : Term) :
    (head r depth t).run f = r.whnfWith depth (fun t => f (.whnf depth t)) t := by
  cases t with
  | var i =>
    simp only [head, whnfWith]
    cases r.localValue? depth i <;> simp
  | hole m =>
    simp only [head, whnfWith]
    cases r.store.solution? m <;> simp
  | ref n u => exact run_delta _ _ _
  | app g a => exact bind_congr fun t => run_spine _ _
  | letIn x t a b => exact bind_congr fun _ => run_whnf _
  | proj a side =>
    refine bind_congr fun t => ?_
    cases t with
    | pair x y => exact bind_congr fun _ => by cases side <;> exact run_whnf _
    | _ => rfl
  | field a c i =>
    refine bind_congr fun t => ?_
    cases t with
    | new n u ps fs => cases h : fs[i]? <;> simp [h]
    | _ => rfl
  | case a m bs =>
    refine bind_congr fun t => ?_
    cases hcon : constructor? t with
    | none => simp only [hcon, run_ret]
    | some h =>
      obtain ⟨h, args⟩ := h
      cases hb : bs.find? fun b => b.head == h <;> simp only [hcon, hb, run_ret, run_step, run_whnf]
  | natRec m z s n =>
    refine bind_congr fun t => ?_
    cases t with
    | zero | succ => exact bind_congr fun _ => run_whnf _
    | _ => rfl
  | «at» l x p i =>
    refine bind_congr fun t => ?_
    cases t with
    | left | right => exact run_whnf _
    | _ =>
      refine bind_congr fun t => ?_
      cases t with
      | pathLam g => exact bind_congr fun _ => run_whnf _
      | _ => rfl
  | _ => rfl

theorem run_spineHead (t : Term) (k : Term → Round) :
    (spineHead depth t k).run f = nfHead (fun t => f (.nf depth t)) t >>= fun t => (k t).run f := by
  induction t generalizing k with
  | app g a ihg iha => simp [spineHead, nfHead, ihg]
  | ref n u => simp [spineHead, nfHead]
  | _ => rfl

theorem run_all (ts : List Term) (k : List Term → Round) :
    (all depth k ts).run f = ts.mapM (fun t => f (.nf depth t)) >>= fun ts => (k ts).run f := by
  induction ts generalizing k with
  | nil => simp [all]
  | cons t ts ih => simp [all, ih]

theorem run_branches (bs : List (Branch Term)) (k : List (Branch Term) → Round) :
    (branches depth k bs).run f =
      (bs.mapM fun b => do return { b with body := ← f (.nf (depth + b.arity) b.body) }) >>=
        fun bs => (k bs).run f := by
  induction bs generalizing k with
  | nil => simp [branches]
  | cons b bs ih => simp [branches, ih]

theorem run_parts (t : Term) :
    (parts depth t).run f = nfParts (fun k t => f (.nf (depth + k) t)) t := by
  cases t <;> simp [parts, nfParts, run_spineHead, run_all, run_branches]

end Round

/-- The round of a call. -/
def round (r : Reducer) : Call → Round
  | .whnf depth t => .head r depth t
  | .nf depth t => .call (.whnf depth t) (.parts depth)

/-- Runs a call, with a bound for the nesting of calls. -/
def run (r : Reducer) : ℕ → Call → Reduce Term
  | 0, _ => throw .gas
  | gas + 1, c => (r.round c).run (r.run gas)

variable {r : Reducer} {depth : ℕ} {t : Term}

/-- Head reduction is the run of its rounds. -/
theorem run_whnf (gas : ℕ) : r.run gas (.whnf depth t) = r.whnfGas depth gas t := by
  induction gas generalizing t with
  | zero => rfl
  | succ gas ih =>
    rw [run, round, Round.run_head]
    simp only [ih]
    rfl

/-- Normalization is the run of its rounds. -/
theorem run_nf (gas : ℕ) : r.run gas (.nf depth t) = r.nfGas gas depth t := by
  induction gas generalizing t depth with
  | zero => rfl
  | succ gas ih => simp only [run, round, Round.run_call, Round.run_parts, run_whnf, ih, nfGas]

end LeveledTypes.Reducer
