/-
Constructors of an extension link. A constructor that starts with a call
of the base constructor takes in the body of the explicit base
constructor with as many parameters, the first one in order of
declaration; a call without arguments is dropped if the base has no
explicit constructor. Reads of a base parameter then read the parameter
passed for it. An argument that is no plain parameter of the constructor
leaves nothing to read, which is an error if the base body does.
-/
import Stagewise.Failure
import Stagewise.Program.Transform

namespace Stagewise.Merge

/-- For each base parameter, the parameter passed for it, or `none` if
something else was passed. -/
abbrev ParamRenaming := List (String × Option String)

/-- The parameter of a constructor that an argument reads and nothing
else. A parameter without a name cannot be read. -/
def plainParam? (c : Constructor) : Expr → Option String
  | .var name =>
      if (c.paramIndex? name).isSome && name != "" then some name else none
  | _ => none

/-- The renaming of a base constructor's parameters by the arguments
passed to it. Of two parameters of one name the last one counts. -/
def renamingOf (c base : Constructor) (args : List Expr) : ParamRenaming :=
  ((base.params.zip args).map fun (p, arg) =>
    (p.name, plainParam? c arg)).reverse

/-- Renames reads of base parameters, and notes whether one has nothing
to read. -/
def renameParams (passed : ParamRenaming) : Transformer (StateM Bool) where
  leaveExpr
    | .var name =>
        match passed.lookup name with
        | some (some new) => return .var new
        | some none => do
            set true
            return .var name
        | none => return .var name
    | e => return e

/-- A constructor of `derived` with the base constructor it calls taken
in. -/
def inlineSuper (base : TypeDecl) (derived : String) (c : Constructor) :
    Except Failure Constructor :=
  match c.body with
  | .superConstructor args :: rest =>
      let explicit := base.constructors.filter (!·.isImplicit)
      match explicit.find? (·.params.length == args.length) with
      | some called =>
          let (body, isIllegal) :=
            ((renameParams (renamingOf c called args)).block called.body).run
              false
          if isIllegal then .error (.illegalSuperCall derived)
          else .ok { c with body := body ++ rest }
      | none =>
          if explicit.isEmpty && args.isEmpty then .ok { c with body := rest }
          else .ok c
  | _ => .ok c

/-- The constructors of a declaration merged with its base: its own with
what they call taken in, or else the base's explicit one without
parameters. -/
def mergeConstructors (base derived : TypeDecl) :
    Except Failure (List Constructor) :=
  if derived.constructors.isEmpty then
    .ok (base.constructors.find? fun c =>
      c.params.isEmpty && !c.isImplicit).toList
  else derived.constructors.mapM (inlineSuper base derived.name)

end Stagewise.Merge
