/-
Expressions. References to fields and methods are resolved: each names
the declaration that owns the member. A field access or call without a
target goes to the object at hand.

The text of an expression is its source form without the owners and
without parentheses.
-/
import Stagewise.Binary64
import Stagewise.Program.TypeRef

namespace Stagewise

-- ================================================= literals and operators

inductive Literal where
  | int (value : Int)
  | long (value : Int)
  | float (value : Binary64)
  | bool (value : Bool)
  | char (value : Char)
  | str (value : String)
  | null
  deriving DecidableEq, Inhabited, Repr

inductive UnaryOp where
  | not
  | neg
  | preInc
  | preDec
  | postInc
  | postDec
  deriving DecidableEq, Inhabited, Repr

/-- Whether the operator writes to its operand. -/
def UnaryOp.isMutation : UnaryOp → Bool
  | .not | .neg => false
  | .preInc | .preDec | .postInc | .postDec => true

inductive BinaryOp where
  | add
  | sub
  | mul
  | div
  | rem
  | eq
  | ne
  | lt
  | le
  | gt
  | ge
  | and
  | or
  | bitAnd
  | bitOr
  | bitXor
  deriving DecidableEq, Inhabited, Repr

def BinaryOp.text : BinaryOp → String
  | .add => "+"
  | .sub => "-"
  | .mul => "*"
  | .div => "/"
  | .rem => "%"
  | .eq => "=="
  | .ne => "!="
  | .lt => "<"
  | .le => "<="
  | .gt => ">"
  | .ge => ">="
  | .and => "&&"
  | .or => "||"
  | .bitAnd => "&"
  | .bitOr => "|"
  | .bitXor => "^"

-- ===================================================== member references

/-- A field, by its declaring type and its name. -/
structure FieldRef where
  owner : String
  name : String
  deriving DecidableEq, Inhabited, Repr

namespace FieldRef

def identity (f : FieldRef) : Identity := Identity.ofField f.owner f.name

def text (f : FieldRef) : String := f.owner ++ "." ++ f.name

end FieldRef

/-- A method, by its declaring type, its name and its parameter types. -/
structure MethodRef where
  owner : String
  name : String
  params : List TypeRef
  deriving DecidableEq, Inhabited, Repr

namespace MethodRef

def identity (m : MethodRef) : Identity :=
  Identity.ofMethod m.owner m.name (m.params.map TypeRef.identity)

def text (m : MethodRef) : String :=
  m.owner ++ "." ++ m.name
    ++ "(" ++ ", ".intercalate (m.params.map TypeRef.text) ++ ")"

end MethodRef

-- =========================================================== expressions

inductive Expr where
  | literal (value : Literal)
  /-- The object at hand, or the enclosing object of the named type. -/
  | self (qualifier : Option String)
  /-- The base part of the object at hand, as a call target. -/
  | super
  /-- A local variable or parameter. -/
  | var (name : String)
  | field (target : Option Expr) (field : FieldRef)
  | call (target : Option Expr) (method : MethodRef) (args : List Expr)
  | new (type : TypeRef) (args : List Expr)
  | unary (op : UnaryOp) (operand : Expr)
  | binary (op : BinaryOp) (left right : Expr)
  /-- A plain assignment, or a compound one when an operator is given. -/
  | assign (op : Option BinaryOp) (target value : Expr)
  | conditional (cond yes no : Expr)
  deriving Inhabited, Repr

namespace Expr

/-- Whether this is the literal minus one, written as a literal or as a
negated one. -/
def isMinusOne : Expr → Bool
  | .literal (.int v) | .literal (.long v) => v == -1
  | .unary .neg (.literal (.int v)) | .unary .neg (.literal (.long v)) =>
      v == 1
  | _ => false

/-- The field that an expression accesses at its top. -/
def field? : Expr → Option FieldRef
  | .field _ f => some f
  | _ => none

/-- Whether this is the object at hand, qualified or not. -/
def isSelf : Expr → Bool
  | .self _ => true
  | _ => false

end Expr

-- ================================================================== text

def Literal.text : Literal → String
  | .int v => toString v
  | .long v => toString v ++ "L"
  | .float v => v.text
  | .bool v => if v then "true" else "false"
  | .char c => String.ofList ['\'', c, '\'']
  | .str s => Text.quote s
  | .null => "null"

/-- An operator beside the text of its operand. -/
def UnaryOp.apply (op : UnaryOp) (operand : String) : String :=
  match op with
  | .not => "!" ++ operand
  | .neg => "-" ++ operand
  | .preInc => "++" ++ operand
  | .preDec => "--" ++ operand
  | .postInc => operand ++ "++"
  | .postDec => operand ++ "--"

namespace Expr

mutual

/-- The source form of an expression. -/
def text : Expr → String
  | .literal v => v.text
  | .self none => "this"
  | .self (some q) => q ++ ".this"
  | .super => "super"
  | .var name => name
  | .field t f => targetText t ++ f.name
  | .call t m args =>
      targetText t ++ m.name ++ "(" ++ ", ".intercalate (texts args) ++ ")"
  | .new type args =>
      "new " ++ type.text ++ "(" ++ ", ".intercalate (texts args) ++ ")"
  | .unary op e => op.apply (text e)
  | .binary op l r => text l ++ " " ++ op.text ++ " " ++ text r
  | .assign none t v => text t ++ " = " ++ text v
  | .assign (some op) t v => text t ++ " " ++ op.text ++ "= " ++ text v
  | .conditional c a b => text c ++ " ? " ++ text a ++ " : " ++ text b

/-- A target with its dot, or nothing. -/
def targetText : Option Expr → String
  | none => ""
  | some t => text t ++ "."

def texts : List Expr → List String
  | [] => []
  | e :: es => text e :: texts es

end

end Expr

-- ============================================================= agreement

/-- Literals agree when they are equal; two floats, when they agree as
numbers. -/
def Literal.agrees : Literal → Literal → Bool
  | .float x, .float y => x.agrees y
  | a, b => a == b

namespace Expr

mutual

/-- Whether two expressions are equal up to agreeing literals. -/
def agrees : Expr → Expr → Bool
  | .literal a, .literal b => a.agrees b
  | .self p, .self q => p == q
  | .super, .super => true
  | .var m, .var n => m == n
  | .field s f, .field t g => f == g && agreesTarget s t
  | .call s m as, .call t n bs => m == n && agreesTarget s t && agreesAll as bs
  | .new s as, .new t bs => s == t && agreesAll as bs
  | .unary o a, .unary p b => o == p && agrees a b
  | .binary o a b, .binary p c d => o == p && agrees a c && agrees b d
  | .assign o a b, .assign p c d => o == p && agrees a c && agrees b d
  | .conditional a b c, .conditional d e f =>
      agrees a d && agrees b e && agrees c f
  | _, _ => false

def agreesTarget : Option Expr → Option Expr → Bool
  | none, none => true
  | some a, some b => agrees a b
  | _, _ => false

def agreesAll : List Expr → List Expr → Bool
  | [], [] => true
  | a :: as, b :: bs => agrees a b && agreesAll as bs
  | _, _ => false

end

end Expr

end Stagewise
