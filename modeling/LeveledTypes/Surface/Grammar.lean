import LeveledTypes.Grammar

/-!
# The grammar of modules

A module is a list of imports and declarations. Keywords start with a backslash; a comment runs from
two hyphens to the end of the line, or between `{-` and `-}`.
-/
namespace LeveledTypes.Surface

/-- The rules of the grammar. -/
inductive Rule where
  | ident
  | file
  | importDecl
  | explicitParam
  | implicitParam
  | instanceParam
  | param
  | funcDef
  | funcExpr
  | funcClauses
  | clause
  | pattern
  | patApp
  | patAtom
  | patAbsurd
  | patWildcard
  | patNum
  | patIdent
  | dataDef
  | dataWith
  | dataClause
  | ctor
  | ctorParam
  | anonParam
  | classDef
  | extends
  | field
  | instanceDef
  | implementation
  | expr
  | lamExpr
  | lamParam
  | lamVar
  | piExpr
  | sigmaExpr
  | sigmaParam
  | letExpr
  | caseExpr
  | caseAs
  | caseReturn
  | arrowExpr
  | appExpr
  | arg
  | implicitArg
  | projExpr
  | proj
  | atom
  | univ
  | goal
  | hole
  | num
  | newExpr
  | identRef
  | tuple
  | levelAtom
  | levelNum
  | levelP
  | levelH
  | levelInf
  | levelSuc
  | levelMax
deriving DecidableEq, Inhabited

namespace Rule

/-- Names, numbers and underscores are leaves; rules that only choose among others give no tree of
their own. -/
def kind : Rule → RuleKind
  | .ident | .patWildcard | .patNum | .hole | .num | .levelNum => .atomic
  | .param | .pattern | .patAtom | .ctorParam | .expr | .lamParam | .sigmaParam | .arg | .atom
    | .levelAtom => .silent
  | _ => .normal

open Peg

def isDigit (c : Char) : Bool := '0' ≤ c && c ≤ '9'

def isLetter (c : Char) : Bool := ('a' ≤ c && c ≤ 'z') || ('A' ≤ c && c ≤ 'Z')

def isIdentChar (c : Char) : Bool := isDigit c || isLetter c || c == '_' || c == '\''

/-- An underscore that no name goes on from. -/
def underscore : Peg Rule := all [lit "_", .notAhead (.char isIdentChar)]

def digits : Peg Rule := plus (.char isDigit)

/-- One or more, with commas between. -/
def commaList (r : Rule) : Peg Rule := all [.rule r, .star (all [lit ",", .rule r])]

def names : Peg Rule := plus (any [.rule .ident, .rule .hole])

/-- A type after a colon, if there is one. -/
def annotation : Peg Rule := .opt (all [lit ":", .rule .expr])

def braced (e : Peg Rule) : Peg Rule := all [lit "\x7b", e, lit "\x7d"]

def params : Peg Rule := .star (.rule .param)

/-- What each rule matches. -/
def body : Rule → Peg Rule
  | .ident =>
    all [.notAhead underscore, any [.char isLetter, lit "_"], .star (.char isIdentChar),
      .star (all [lit ".", .char isLetter, .star (.char isIdentChar)])]
  | .file =>
    all [lit "", .star (any [.rule .importDecl, .rule .funcDef, .rule .dataDef, .rule .classDef,
      .rule .instanceDef]), .finish]
  | .importDecl => all [lit "\\import", .rule .ident]
  | .explicitParam => all [lit "(", names, lit ":", .rule .expr, lit ")"]
  | .implicitParam => all [lit "\x7b", names, lit ":", .rule .expr, lit "\x7d"]
  | .instanceParam => all [lit "[", .opt (all [names, lit ":"]), .rule .expr, lit "]"]
  | .param => any [.rule .explicitParam, .rule .implicitParam, .rule .instanceParam]
  | .funcDef =>
    all [lit "\\func", .rule .ident, params, annotation, any [.rule .funcExpr, .rule .funcClauses]]
  | .funcExpr => all [lit "=>", .rule .expr]
  | .funcClauses => all [lit "\\with", any [braced (.star (.rule .clause)), .star (.rule .clause)]]
  | .clause => all [lit "|", .rule .pattern, .star (all [lit ",", .rule .pattern]),
    .opt (all [lit "=>", .rule .expr])]
  | .pattern => any [.rule .patApp, .rule .patAtom]
  | .patApp => all [.rule .ident, plus (.rule .patAtom)]
  | .patAtom =>
    any [.rule .patAbsurd, .rule .patWildcard, .rule .patNum, .rule .patIdent,
      all [lit "(", .rule .pattern, lit ")"]]
  | .patAbsurd => all [lit "(", lit ")"]
  | .patWildcard => underscore
  | .patNum => digits
  | .patIdent => .rule .ident
  | .dataDef =>
    all [lit "\\data", .rule .ident, params, annotation, any [.rule .dataWith, .star (.rule .ctor)]]
  | .dataWith => all [lit "\\with", .star (.rule .dataClause)]
  | .dataClause =>
    all [lit "|", .rule .pattern, .star (all [lit ",", .rule .pattern]), lit "=>", .rule .ident,
      .star (.rule .ctorParam)]
  | .ctor => all [lit "|", .rule .ident, .star (.rule .ctorParam)]
  | .ctorParam => any [.rule .explicitParam, .rule .implicitParam, .rule .anonParam]
  | .anonParam => .rule .projExpr
  | .classDef =>
    all [lit "\\class", .rule .ident, params, .opt (.rule .extends),
      .opt (braced (.star (.rule .field)))]
  | .extends => all [lit "\\extends", .rule .appExpr, .star (all [lit ",", .rule .appExpr])]
  | .field =>
    all [lit "|", .rule .ident, params, lit ":", .rule .expr, .opt (all [lit "=>", .rule .expr])]
  | .instanceDef =>
    all [lit "\\instance", .rule .ident, params, lit ":", .rule .appExpr,
      .opt (braced (.star (.rule .implementation)))]
  | .implementation => all [lit "|", .rule .ident, lit "=>", .rule .expr]
  | .expr =>
    any [.rule .lamExpr, .rule .piExpr, .rule .sigmaExpr, .rule .letExpr, .rule .caseExpr,
      .rule .arrowExpr]
  | .lamExpr => all [lit "\\lam", plus (.rule .lamParam), lit "=>", .rule .expr]
  | .lamParam => any [.rule .explicitParam, .rule .implicitParam, .rule .lamVar]
  | .lamVar => any [.rule .ident, .rule .hole]
  | .piExpr => all [lit "\\Pi", plus (.rule .param), lit "->", .rule .expr]
  | .sigmaExpr => all [lit "\\Sigma", plus (.rule .sigmaParam)]
  | .sigmaParam => any [.rule .explicitParam, .rule .anonParam]
  | .letExpr =>
    all [lit "\\let", .rule .ident, annotation, lit "=>", .rule .expr, lit "\\in", .rule .expr]
  | .caseExpr =>
    all [lit "\\case", .rule .arrowExpr, .opt (.rule .caseAs), .opt (.rule .caseReturn),
      lit "\\with", lit "\x7b", .star (.rule .clause), lit "\x7d"]
  | .caseAs => all [lit "\\as", .rule .ident]
  | .caseReturn => all [lit "\\return", .rule .expr]
  | .arrowExpr => all [.rule .appExpr, .opt (all [lit "->", .rule .expr])]
  | .appExpr => all [.rule .projExpr, .star (.rule .arg)]
  | .arg => any [.rule .implicitArg, .rule .projExpr]
  | .implicitArg => braced (.rule .expr)
  | .projExpr => all [.rule .atom, .star (.rule .proj)]
  | .proj => all [lit ".", any [lit "1", lit "2"]]
  | .atom =>
    any [.rule .univ, .rule .goal, .rule .hole, .rule .num, .rule .newExpr,
      .rule .identRef, .rule .tuple, all [lit "(", .rule .expr, lit ")"]]
  | .univ => all [lit "\\Type", .opt (.rule .levelAtom), .opt (.rule .levelAtom)]
  | .goal => lit "\x7b?\x7d"
  | .hole => underscore
  | .num => digits
  | .newExpr => all [lit "\\new", .rule .appExpr, braced (.star (.rule .implementation))]
  | .identRef => .rule .ident
  | .tuple => all [lit "(", .rule .expr, lit ",", .rule .expr, lit ")"]
  | .levelAtom =>
    any [.rule .levelNum, .rule .levelP, .rule .levelH, .rule .levelInf,
      all [lit "(", any [.rule .levelSuc, .rule .levelMax], lit ")"]]
  | .levelNum => digits
  | .levelP => lit "\\lp"
  | .levelH => lit "\\lh"
  | .levelInf => lit "\\oo"
  | .levelSuc => all [lit "\\suc", .rule .levelAtom]
  | .levelMax => all [lit "\\max", .rule .levelAtom, .rule .levelAtom]

end Rule

def lineBreak : Peg Rule := .any [.lit "\n", .lit "\r\n", .lit "\r"]

def anyUnless (e : Peg Rule) : Peg Rule := .star (.all [.notAhead e, .char fun _ => true])

/-- The grammar of modules. Blanks and comments may stand between tokens. -/
def grammar : Grammar Rule where
  kind := Rule.kind
  body := Rule.body
  blank := .any [.lit " ", .lit "\t", lineBreak]
  comment :=
    .any [.all [.lit "--", anyUnless lineBreak],
      .all [.lit "\x7b-", anyUnless (.lit "-\x7d"), .lit "-\x7d"]]

end LeveledTypes.Surface
