/-
Statements and blocks. A block is the list of its statements.
-/
import Stagewise.Program.Expr

namespace Stagewise

inductive Stmt where
  | expr (e : Expr)
  /-- A local variable with its initial value, if it has one. -/
  | declare (type : TypeRef) (name : String) (init : Option Expr)
  | branch (cond : Expr) (yes : List Stmt) (no : Option (List Stmt))
  | loop (cond : Expr) (body : List Stmt)
  | ret (value : Option Expr)
  /-- An assertion with its message, if it has one. -/
  | check (cond : Expr) (message : Option Expr)
  | throw (e : Expr)
  /-- The call of the base constructor, which only the first statement of
  a constructor may be. -/
  | superConstructor (args : List Expr)
  | block (body : List Stmt)
  deriving Inhabited, Repr

abbrev Block := List Stmt

/-- One statement under a condition. -/
def Stmt.when (cond : Expr) (s : Stmt) : Stmt := .branch cond [s] none

end Stagewise
