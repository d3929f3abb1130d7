import LeveledTypes.Error
import LeveledTypes.Surface.Basic
import LeveledTypes.Surface.Grammar

/-!
# Reading modules

Turns the tree of a module into declarations. Each binder gets a variable with an identity of its
own. A number that is too large and a level that is out of place are refused; of several such parts
the one that is read first is reported, and an expression is read in the order that the functions
below fix: the body of a function before its parameters, the body of a `\let` before its value and
its type, the type of a parameter before its names.
-/
namespace LeveledTypes.Surface.Reader

/-- What reading changes. -/
structure State where
  /-- The identity of the next variable. -/
  next : Nat := 1
  /-- The first refusal. -/
  refusal : Option (String × Span) := none

abbrev Read := StateM State

def refuse (reason : String) (span : Span) : Read Unit :=
  modify fun s => if s.refusal.isSome then s else { s with refusal := some (reason, span) }

def newVariable (name : String) : Read Variable :=
  fun s => (⟨name, s.next⟩, { s with next := s.next + 1 })

def anonymous : Read Variable := newVariable Variable.anonymousName

/-- The largest number of an expression. -/
def numberBound : Nat := 0xFFFFFFFFFFFFFFFF

def digitsValue (s : String) : Nat := s.toList.foldl (fun n c => 10 * n + (c.toNat - '0'.toNat)) 0

/-- A number that may not be too large. -/
def number (bound : Nat) (t : Tree Rule) : Read Nat := do
  let n := digitsValue t.text
  if n ≤ bound then return n
  refuse (t.text ++ " is too large") t.span
  return 0

/-- Which of the two levels of a universe is read. -/
inductive Slot where
  | predicative
  | homotopy
deriving DecidableEq

/-- The level of a tree, in one of the two places of a universe. -/
def level (slot : Slot) : Nat → Tree Rule → Read LevelExpr
  | 0, _ => return .const 0
  | gas + 1, t => do
    match t.rule, slot, t.children with
    | .levelNum, _, _ => return .const (← number Level.bound t)
    | .levelP, .predicative, _ | .levelH, .homotopy, _ => return .param 0 0
    | .levelP, .homotopy, _ =>
      refuse "\\lp in a homotopy level" t.span
      return .const 0
    | .levelH, .predicative, _ =>
      refuse "\\lh in a predicative level" t.span
      return .const 0
    | .levelInf, .homotopy, _ => return .top
    | .levelInf, .predicative, _ =>
      refuse "\\oo is not a predicative level" t.span
      return .const 0
    | .levelSuc, _, [a] =>
      let l ← level slot gas a
      match l.succ? with
      | some l => return l
      | none =>
        refuse "level is too large" t.span
        return l
    | .levelMax, _, [a, b] => return (← level slot gas a).max (← level slot gas b)
    | _, _, _ => return .const 0

/-- The pattern of a tree. -/
def pattern : Nat → Tree Rule → Read Pattern
  | 0, t => return .absurd t.span
  | gas + 1, t => do
    match t.rule, t.children with
    | .patApp, h :: args => return .name t.span h.text (← args.mapM (pattern gas))
    | .patWildcard, _ => return .var t.span (← anonymous)
    | .patNum, _ => return .num t.span (← number numberBound t)
    | .patIdent, [n] => return .name t.span n.text []
    | _, _ => return .absurd t.span

def isPattern (t : Tree Rule) : Bool :=
  match t.rule with
  | .patApp | .patAbsurd | .patWildcard | .patNum | .patIdent => true
  | _ => false

def isParam (t : Tree Rule) : Bool :=
  match t.rule with
  | .explicitParam | .implicitParam | .instanceParam => true
  | _ => false

def binderVariable (t : Tree Rule) : Read Variable :=
  match t.rule with
  | .hole => anonymous
  | _ => newVariable t.text

def paramInfo (t : Tree Rule) : BinderInfo :=
  match t.rule with
  | .implicitParam => .implicit
  | .instanceParam => .inst
  | _ => .explicit

/-- The parameters that names before a type declare; a type alone declares one without a name. -/
def params (expr : Tree Rule → Read Expr) (t : Tree Rule) : Read (Telescope Expr) := do
  match t.children.reverse with
  | [] => return []
  | [type] => do
    let type ← expr type
    return [{ var := ← anonymous, info := paramInfo t, type }]
  | type :: names => do
    let type ← expr type
    names.reverse.mapM fun n => do return { var := ← binderVariable n, info := paramInfo t, type }

/-- The parameters of a constructor or of a pair type, where a type may stand alone. -/
def fieldParams (expr : Tree Rule → Read Expr) (t : Tree Rule) : Read (Telescope Expr) := do
  match t.rule, t.children with
  | .anonParam, [type] =>
    let type ← expr type
    return [{ var := ← anonymous, info := .explicit, type }]
  | _, _ => params expr t

/-- Patterns and what they are mapped to; without an expression the clause says that there is no
case. -/
def clause (expr : Tree Rule → Read Expr) (t : Tree Rule) : Read (Clause Expr) := do
  let patterns ← (t.children.takeWhile isPattern).mapM fun p => pattern p.height p
  match t.children.dropWhile isPattern with
  | e :: _ => return ⟨t.span, patterns, some (← expr e)⟩
  | [] => return ⟨t.span, patterns, none⟩

def implementation (expr : Tree Rule → Read Expr) (t : Tree Rule) : Read (Implementation Expr) := do
  match t.children with
  | [n, e] => return ⟨t.span, n.text, ← expr e⟩
  | _ => return ⟨t.span, "", .hole t.span⟩

/-- The expression of a tree. -/
def expr : Nat → Tree Rule → Read Expr
  | 0, t => return .hole t.span
  | gas + 1, t => do
    let span := t.span
    let cs := t.children
    match t.rule, cs with
    | .lamExpr, _ =>
      let body ← match cs.getLast? with
        | some b => expr gas b
        | none => pure (.hole span)
      let tele ← cs.dropLast.mapM fun p => do
        match p.rule, p.children with
        | .lamVar, [v] =>
          return [{ var := ← binderVariable v, info := .explicit, type := .hole span }]
        | _, _ => params (expr gas) p
      return tele.flatten.foldr (fun p b => .lam span p.toBinder p.type b) body
    | .piExpr, _ =>
      let body ← match cs.getLast? with
        | some b => expr gas b
        | none => pure (.hole span)
      let tele ← cs.dropLast.mapM (params (expr gas))
      return tele.flatten.foldr (fun p b => .pi span p.toBinder p.type b) body
    | .sigmaExpr, _ =>
      let tele := (← cs.mapM (fieldParams (expr gas))).flatten
      match tele.getLast? with
      | some last =>
        return tele.dropLast.foldr (fun p b => .sigma span p.toBinder p.type b) last.type
      | none => return .hole span
    | .letExpr, [n, a, b] =>
      let body ← expr gas b
      let value ← expr gas a
      return .letIn span (← newVariable n.text) none value body
    | .letExpr, [n, t, a, b] =>
      let body ← expr gas b
      let value ← expr gas a
      let type ← expr gas t
      return .letIn span (← newVariable n.text) (some type) value body
    | .caseExpr, a :: rest =>
      let scrut ← expr gas a
      let mut var ← anonymous
      let mut ret := none
      let mut clauses := #[]
      for p in rest do
        match p.rule, p.children with
        | .caseAs, [n] => var ← newVariable n.text
        | .caseReturn, [e] => ret := some (← expr gas e)
        | _, _ => clauses := clauses.push (← clause (expr gas) p)
      return .case span scrut var ret clauses.toList
    | .arrowExpr, [a] => expr gas a
    | .arrowExpr, [a, b] =>
      let dom ← expr gas a
      let var ← anonymous
      return .pi span ⟨var, .explicit⟩ dom (← expr gas b)
    | .appExpr, f :: args =>
      args.foldlM (fun f a => do
        match a.rule, a.children with
        | .implicitArg, [e] => return .app span f .implicit (← expr gas e)
        | _, _ => return .app span f .explicit (← expr gas a)) (← expr gas f)
    | .projExpr, a :: projs =>
      return projs.foldl (fun a p => .proj span a (if p.text.endsWith "1" then .fst else .snd))
        (← expr gas a)
    | .univ, _ =>
      let p ← match cs[0]? with
        | some l => some <$> level .predicative l.height l
        | none => pure none
      let h ← match cs[1]? with
        | some l => some <$> level .homotopy l.height l
        | none => pure none
      return .univ span p h
    | .goal, _ => return .goal span
    | .num, _ => return .num span (← number numberBound t)
    | .newExpr, c :: is => return .new span (← expr gas c) (← is.mapM (implementation (expr gas)))
    | .identRef, [n] => return .name span n.text
    | .tuple, [a, b] => return .pair span (← expr gas a) (← expr gas b)
    | _, _ => return .hole span

def readExpr (t : Tree Rule) : Read Expr := expr t.height t

/-- The parameters among the parts of a declaration, in order. -/
def declParams (cs : List (Tree Rule)) : Read (Telescope Expr) := do
  return (← (cs.filter isParam).mapM (params readExpr)).flatten

/-- The constructor of a tree, qualified by the module. -/
def ctor (module : String) (t : Tree Rule) : Read CtorDecl := do
  let patterns ← (t.children.takeWhile (·.rule ≠ .ident)).mapM fun p => pattern p.height p
  let rest := t.children.dropWhile (·.rule ≠ .ident)
  let tele ← rest.tail.mapM (fieldParams readExpr)
  return {
    span := t.span
    name := .qualified module ((rest.head?.map (·.text)).getD "")
    patterns := if t.rule = .dataClause then some patterns else none
    tele := tele.flatten }

/-- The field of a tree, whose parameters become part of its type. -/
def fieldDecl (module : String) (t : Tree Rule) : Read FieldDecl := do
  let name := (t.children.head?.map (·.text)).getD ""
  let var ← newVariable name
  let rest := t.children.tail
  let tele ← declParams rest
  let exprs ← (rest.filter fun p => !isParam p).mapM readExpr
  return {
    span := t.span
    name := .qualified module name
    var
    type := .pis tele (exprs.getD 0 (.hole t.span))
    default := (exprs[1]?).map (.lams tele) }

/-- Reads the parts of a declaration behind its name in the order of the text. -/
def declBody (module : String) (t : Tree Rule) (parts : List (Tree Rule)) :
    Read (Telescope Expr × DeclBody) := do
  let tele ← declParams parts
  let parts := parts.filter fun p => !isParam p
  match t.rule with
  | .dataDef =>
    let mut univ := none
    let mut ctors := #[]
    for p in parts do
      match p.rule with
      | .ctor => ctors := ctors.push (← ctor module p)
      | .dataWith => ctors := ctors ++ (← p.children.mapM (ctor module)).toArray
      | _ => univ := some (← readExpr p)
    return (tele, .data univ ctors.toList)
  | .classDef =>
    let mut supers := []
    let mut fields := #[]
    for p in parts do
      match p.rule with
      | .extends => supers := supers ++ (← p.children.mapM readExpr)
      | _ => fields := fields.push (← fieldDecl module p)
    return (tele, .cls supers fields.toList)
  | .instanceDef =>
    let mut cls := .hole t.span
    let mut impls := #[]
    for p in parts do
      match p.rule with
      | .implementation => impls := impls.push (← implementation readExpr p)
      | _ => cls ← readExpr p
    return (tele, .inst cls impls.toList)
  | _ =>
    let mut type := none
    let mut body := FuncBody.clauses []
    for p in parts do
      match p.rule, p.children with
      | .funcExpr, [e] => body := .expr (← readExpr e)
      | .funcClauses, cs => body := .clauses (← cs.mapM (clause readExpr))
      | _, _ => type := some (← readExpr p)
    return (tele, .func type body)

def decl (module : String) (t : Tree Rule) : Read Decl := do
  let (tele, body) ← declBody module t t.children.tail
  return { span := t.span, name :=
    .qualified module ((t.children.head?.map (·.text)).getD ""), tele, body }

/-- The imports and the declarations of a file. -/
def file (module : String) (t : Tree Rule) : Read (List Import × List Decl) := do
  let imports := (t.children.filter (·.rule = .importDecl)).map fun d =>
    ⟨d.span, (d.children.head?.map (·.text)).getD ""⟩
  let decls ← (t.children.filter (·.rule ≠ .importDecl)).mapM (decl module)
  return (imports, decls)

end Reader

/-- Reads the text of a module. -/
def Module.read (name text : String) : Except Error Module :=
  match grammar.parse .file text with
  | .error p => .error (.located (.malformed none) p.point)
  | .ok t =>
    let ((imports, decls), s) := (Reader.file name t).run {}
    match s.refusal with
    | some (reason, span) => .error (.located (.malformed (some reason)) span)
    | none => .ok { name, imports, decls, variableCount := s.next }

end LeveledTypes.Surface
