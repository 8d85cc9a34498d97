/-
Transformation of declarations. A transformer says what to do at each
node; the walk takes it through the tree in the order of `Nodes`, and in
addition to every type reference that a declaration, parameter, local,
`new` expression or method reference holds, type arguments included.

At an expression or type reference a transformer may put another in its
place on entry, which the walk then leaves alone, or change the node on
the way out, when its parts have been transformed. At the other nodes it
may only look. Every choice runs in a monad, so that a transformer can
keep a log, consult a state or fail.
-/
import Stagewise.Program.Nodes

namespace Stagewise

/-- What to do at each node. The defaults change nothing. -/
structure Transformer (m : Type → Type) [Monad m] where
  /-- Look at a node on entry, before anything inside it. -/
  look : Node → m Unit := fun _ => pure ()
  /-- Put something in an expression's place, instead of going into it. -/
  enterExpr : Expr → m (Option Expr) := fun _ => pure none
  /-- Change an expression whose parts have been transformed. -/
  leaveExpr : Expr → m Expr := pure
  /-- Put something in a type reference's place. -/
  enterType : TypeRef → m (Option TypeRef) := fun _ => pure none
  /-- Change a type reference whose arguments have been transformed. -/
  leaveType : TypeRef → m TypeRef := pure

namespace Transformer

variable {m : Type → Type} [Monad m] (r : Transformer m)

/-- Transform what may be absent. -/
def optional {α : Type} (f : α → m α) : Option α → m (Option α)
  | none => pure none
  | some a => return some (← f a)

/-- Transform the members of a list from left to right. -/
def each {α : Type} (f : α → m α) : List α → m (List α)
  | [] => pure []
  | a :: as => do
      let a ← f a
      let as ← each f as
      return a :: as

-- ======================================================= type references

mutual

def typeRef : TypeRef → m TypeRef
  | ⟨name, args, isParam⟩ => do
      match ← r.enterType ⟨name, args, isParam⟩ with
      | some t => return t
      | none =>
          let args ← typeRefs args
          r.leaveType ⟨name, args, isParam⟩

def typeRefs : List TypeRef → m (List TypeRef)
  | [] => pure []
  | t :: ts => do
      let t ← typeRef t
      let ts ← typeRefs ts
      return t :: ts

end

def param (p : Param) : m Param := return { p with type := ← r.typeRef p.type }

-- =========================================================== expressions

mutual

def expr (e : Expr) : m Expr := do
  r.look (.expr e)
  match ← r.enterExpr e with
  | some e => return e
  | none =>
      match e with
      | .literal v => r.leaveExpr (.literal v)
      | .self q => r.leaveExpr (.self q)
      | .super => r.leaveExpr .super
      | .var name => r.leaveExpr (.var name)
      | .field t f => do
          let t ← target t
          r.leaveExpr (.field t f)
      | .call t method args => do
          let t ← target t
          let params ← r.typeRefs method.params
          let args ← exprs args
          r.leaveExpr (.call t { method with params } args)
      | .new type args => do
          let type ← r.typeRef type
          let args ← exprs args
          r.leaveExpr (.new type args)
      | .unary op e => do
          let e ← expr e
          r.leaveExpr (.unary op e)
      | .binary op a b => do
          let a ← expr a
          let b ← expr b
          r.leaveExpr (.binary op a b)
      | .assign op a b => do
          let a ← expr a
          let b ← expr b
          r.leaveExpr (.assign op a b)
      | .conditional c a b => do
          let c ← expr c
          let a ← expr a
          let b ← expr b
          r.leaveExpr (.conditional c a b)

def target : Option Expr → m (Option Expr)
  | none => pure none
  | some e => do
      let e ← expr e
      return some e

def exprs : List Expr → m (List Expr)
  | [] => pure []
  | e :: es => do
      let e ← expr e
      let es ← exprs es
      return e :: es

end

-- ================================================== statements and blocks

mutual

def stmt (s : Stmt) : m Stmt := do
  r.look (.stmt s)
  match s with
  | .expr e => return .expr (← r.expr e)
  | .declare type name init => do
      let type ← r.typeRef type
      let init ← optional r.expr init
      return .declare type name init
  | .branch cond yes no => do
      let cond ← r.expr cond
      r.look (.block yes)
      let yes ← stmts yes
      let no ← block? no
      return .branch cond yes no
  | .loop cond body => do
      let cond ← r.expr cond
      r.look (.block body)
      let body ← stmts body
      return .loop cond body
  | .ret value => return .ret (← optional r.expr value)
  | .check cond message => do
      let cond ← r.expr cond
      let message ← optional r.expr message
      return .check cond message
  | .throw e => return .throw (← r.expr e)
  | .superConstructor args => return .superConstructor (← each r.expr args)
  | .block body => do
      r.look (.block body)
      let body ← stmts body
      return .block body

def block? : Option (List Stmt) → m (Option (List Stmt))
  | none => pure none
  | some b => do
      r.look (.block b)
      let b ← stmts b
      return some b

def stmts : List Stmt → m (List Stmt)
  | [] => pure []
  | s :: ss => do
      let s ← stmt s
      let ss ← stmts ss
      return s :: ss

end

def block (b : Block) : m Block := do
  r.look (.block b)
  r.stmts b

-- ========================================================== declarations

def field (f : Field) : m Field := do
  r.look (.field f)
  let type ← r.typeRef f.type
  let init ← optional r.expr f.init
  return { f with type, init }

def method (d : Method) : m Method := do
  r.look (.method d)
  let returns ← r.typeRef d.returns
  let params ← each r.param d.params
  let body ← optional r.block d.body
  return { d with returns, params, body }

def constructor (c : Constructor) : m Constructor := do
  r.look (.constructor c)
  let params ← each r.param c.params
  let body ← r.block c.body
  return { c with params, body }

mutual

def typeDecl : TypeDecl → m TypeDecl
  | ⟨kind, name, package, typeParams, superclass, interfaces, modifiers,
      markers, fields, methods, constructors, nested, position⟩ => do
      r.look (.type ⟨kind, name, package, typeParams, superclass, interfaces,
        modifiers, markers, fields, methods, constructors, nested, position⟩)
      let superclass ← optional r.typeRef superclass
      let interfaces ← each r.typeRef interfaces
      let fields ← each r.field fields
      let constructors ← each r.constructor constructors
      let methods ← each r.method methods
      let nested ← typeDecls nested
      return ⟨kind, name, package, typeParams, superclass, interfaces,
        modifiers, markers, fields, methods, constructors, nested, position⟩

def typeDecls : List TypeDecl → m (List TypeDecl)
  | [] => pure []
  | d :: ds => do
      let d ← typeDecl d
      let ds ← typeDecls ds
      return d :: ds

end

end Transformer

end Stagewise
