/-
The nodes of a declaration in reading order: every type, field, method,
constructor, block, statement and expression, each before what it
contains. Of a type come the fields, then the constructors, the methods
and the nested types.

Analyses that only look are folds over these lists.
-/
import Stagewise.Program.Decl

namespace Stagewise

-- =========================================================== expressions

namespace Expr

mutual

/-- An expression and all expressions inside it, outer before inner and
left before right. -/
def subterms : Expr → List Expr
  | .literal v => [.literal v]
  | .self q => [.self q]
  | .super => [.super]
  | .var name => [.var name]
  | .field t f => .field t f :: subtermsOfTarget t
  | .call t m args =>
      .call t m args :: (subtermsOfTarget t ++ subtermsOfAll args)
  | .new type args => .new type args :: subtermsOfAll args
  | .unary op e => .unary op e :: subterms e
  | .binary op l r => .binary op l r :: (subterms l ++ subterms r)
  | .assign op t v => .assign op t v :: (subterms t ++ subterms v)
  | .conditional c a b =>
      .conditional c a b :: (subterms c ++ subterms a ++ subterms b)

def subtermsOfTarget : Option Expr → List Expr
  | none => []
  | some t => subterms t

/-- `subterms` of the arguments, from left to right. -/
def subtermsOfAll : List Expr → List Expr
  | [] => []
  | e :: es => subterms e ++ subtermsOfAll es

end

theorem mem_subterms_self (e : Expr) : e ∈ e.subterms := by
  cases e <;> simp [subterms]

end Expr

-- ================================================================= nodes

inductive Node where
  | type (d : TypeDecl)
  | field (f : Field)
  | method (m : Method)
  | constructor (c : Constructor)
  | block (b : Block)
  | stmt (s : Stmt)
  | expr (e : Expr)
  deriving Inhabited, Repr

/-- The expression that a node is, if it is one. -/
def Node.expr? : Node → Option Expr
  | .expr e => some e
  | _ => none

def Expr.nodes (e : Expr) : List Node := e.subterms.map Node.expr

def Expr.nodesOf? (e : Option Expr) : List Node := (e.map Expr.nodes).getD []

-- ================================================== statements and blocks

namespace Stmt

mutual

def nodes : Stmt → List Node
  | .expr e => .stmt (.expr e) :: e.nodes
  | .declare type name init =>
      .stmt (.declare type name init) :: Expr.nodesOf? init
  | .branch cond yes no =>
      .stmt (.branch cond yes no)
        :: (cond.nodes ++ (.block yes :: nodesOfAll yes) ++ nodesOfBlock? no)
  | .loop cond body =>
      .stmt (.loop cond body)
        :: (cond.nodes ++ (.block body :: nodesOfAll body))
  | .ret value => .stmt (.ret value) :: Expr.nodesOf? value
  | .check cond message =>
      .stmt (.check cond message) :: (cond.nodes ++ Expr.nodesOf? message)
  | .throw e => .stmt (.throw e) :: e.nodes
  | .superConstructor args =>
      .stmt (.superConstructor args) :: args.flatMap Expr.nodes
  | .block body => .stmt (.block body) :: .block body :: nodesOfAll body

/-- The nodes of a block that may be absent, the block included. -/
def nodesOfBlock? : Option (List Stmt) → List Node
  | none => []
  | some b => .block b :: nodesOfAll b

def nodesOfAll : List Stmt → List Node
  | [] => []
  | s :: ss => nodes s ++ nodesOfAll ss

end

end Stmt

def Block.nodes (b : Block) : List Node := .block b :: Stmt.nodesOfAll b

-- ========================================================== declarations

def Field.nodes (f : Field) : List Node := .field f :: Expr.nodesOf? f.init

def Method.nodes (m : Method) : List Node :=
  .method m :: (m.body.map Block.nodes).getD []

def Constructor.nodes (c : Constructor) : List Node :=
  .constructor c :: Block.nodes c.body

namespace TypeDecl

mutual

def nodes : TypeDecl → List Node
  | ⟨kind, name, package, typeParams, superclass, interfaces, modifiers,
      markers, fields, methods, constructors, nested, position⟩ =>
      .type ⟨kind, name, package, typeParams, superclass, interfaces,
        modifiers, markers, fields, methods, constructors, nested, position⟩
        :: (fields.flatMap Field.nodes
          ++ constructors.flatMap Constructor.nodes
          ++ methods.flatMap Method.nodes
          ++ nodesOfAll nested)

def nodesOfAll : List TypeDecl → List Node
  | [] => []
  | d :: ds => nodes d ++ nodesOfAll ds

end

end TypeDecl

-- ================================================= expressions of a node

/-- The expressions among a list of nodes. -/
def Node.exprs (ns : List Node) : List Expr := ns.filterMap Node.expr?

/-- Every expression of a block, at any depth. -/
def Block.exprs (b : Block) : List Expr := Node.exprs (Block.nodes b)

end Stagewise
