/-
The members that make a stage's lifecycle explicit, each made at most
once for its node and on request.

A stage with a sentinel gets a predicate that compares the sentinel with
its initial value, and a close method that puts the initial value back;
concrete declarations take their place. The `doClose` variant copies the
close body as it stands at the first request. A node's close-dependants
method calls the close method of each direct dependant that has one,
dependants first. Accessors and guarded wrappers begin with a guard that
initializes the stage, or asserts that it is initialized.

A made member is appended to the node's leaf and bound to the node.
-/
import Stagewise.Compilation
import Stagewise.Stage.Discovery

namespace Stagewise.Lifecycle

open Step

-- =========================================================== small parts

/-- Append a method to a node's leaf and bind it to the node. -/
def addMethod (n : DependencyId) (m : Method) (role : Role) :
    Step Location := do
  let decl := ((← get).graph.get n).decl
  let l : Location := ⟨decl, ((← get).sources.get decl).methods.length⟩
  modifySources (·.modify decl (·.addMethod m))
  bindMethod ((← get).sources.method l).id n role
  return l

/-- Give an abstract method a body. -/
def implement (l : Location) (body : Block) : Step Unit :=
  modifySources (·.modifyMethod l fun m => { m.toConcrete with
    body := some body })

/-- A call of the method at a location, without target or arguments. -/
def call (l : Location) : Step Expr :=
  return .call none ((← get).sources.methodRef l) []

/-- A public method without parameters. -/
def procedure (name : String) (returns : TypeRef) (body : Block) : Method :=
  { Method.simple name returns with body := some body }

/-- The sentinel field of a stage. -/
def sentinel (n : DependencyId) : Step StageField := do
  let stage ← stage n
  match stage.sentinel? with
  | some f => return f
  | none =>
      throw (.lifecycleConflict stage.name
        "no initialized field to derive the lifecycle from")

/-- A read of a stage's sentinel, its initial value and its type. -/
def sentinelParts (n : DependencyId) : Step (Expr × Expr × TypeRef) := do
  let l := (← sentinel n).location
  let f := (← get).sources.field l
  return (.field none (f.ref ((← get).sources.name l.decl)),
    f.init.getD (.literal .null), f.type)

/-- Begin to make a member of a stage; the finished one, if there is
one. -/
def begin (n : DependencyId) (artifact : String)
    (part : Stage → Progress Location)
    (put : Stage → Progress Location → Stage) : Step (Option Location) := do
  let (finished, p) ← ofExcept
    ((part (← stage n)).start ((← get).graph.name n) artifact)
  modifyStage n (put · p)
  return finished

-- =================================================== predicate and close

/-- The condition under which a sentinel shows an initialized stage. -/
def sentinelCheck (read default : Expr) (type : TypeRef) : Expr :=
  if default.isMinusOne && type.isIntegral then
    .binary .ge read (.literal (.int 0))
  else .binary .ne read default

def predicate (n : DependencyId) : Step Location := do
  match ← begin n "predicate" Stage.predicate fun s p =>
      { s with predicate := p } with
  | some l => return l
  | none =>
      let stage ← stage n
      let l ← match stage.declaredPredicate with
        | some l =>
            if stage.hasConcretePredicate (← get).sources then pure l
            else do
              let (read, default, type) ← sentinelParts n
              implement l [.ret (some (sentinelCheck read default type))]
              pure l
        | none => do
            let (read, default, type) ← sentinelParts n
            addMethod n
              (procedure (Convention.predicateName ((← get).graph.name n))
                .boolean [.ret (some (sentinelCheck read default type))])
              .predicate
      modifyStage n fun s => { s with predicate := .done l }
      return l

/-- The body that puts a sentinel's initial value back. -/
def resetBody (n : DependencyId) : Step Block := do
  let (read, default, _) ← sentinelParts n
  return [.expr (.assign none read default)]

def close (n : DependencyId) : Step Location := do
  match ← begin n "close" Stage.close fun s p => { s with close := p } with
  | some l => return l
  | none =>
      let stage ← stage n
      let l ← match stage.declaredClose with
        | some l =>
            if stage.hasConcreteClose (← get).sources then pure l
            else do
              implement l (← resetBody n)
              modifyStage n fun s => { s with closeIsGenerated := true }
              pure l
        | none => do
            let l ← addMethod n
              (procedure (Convention.closeName ((← get).graph.name n)) .void
                (← resetBody n)) .close
            modifyStage n fun s => { s with closeIsGenerated := true }
            pure l
      modifyStage n fun s => { s with close := .done l }
      return l

/-- The close variant of a stage that spares the dependants. -/
def doClose (n : DependencyId) : Step Location := do
  match ← begin n "doClose" Stage.doClose fun s p =>
      { s with doClose := p } with
  | some l => return l
  | none =>
      let closeMethod ← close n
      let body := ((← get).sources.method closeMethod).bodyOrEmpty
      let l ← addMethod n
        (procedure (Convention.doCloseName ((← get).graph.name n)) .void body)
        .doClose
      modifyStage n fun s => { s with doClose := .done l }
      return l

-- ==================================================== closing dependants

/-- A call of a dependant's close method from a node. -/
def closeCall (n : DependencyId) (dependant : DependencyId)
    (close : Location) :
    Step Stmt := do
  let c ← get
  return .expr (.call (some (c.accessBetween n dependant))
    (c.sources.methodRef close) [])

/-- The close-dependants method of a node, or `none` if no direct
dependant has anything to close. `fuel` bounds the depth of the request;
the nodes on the way are in progress and so distinct. -/
def closeDependantsWithin : Nat → DependencyId → Step (Option Location)
  | 0, _ => return none
  | fuel + 1, n => do
      let name := (← get).graph.name n
      let (finished, p) ← ofExcept
        (((← get).graph.get n).closeDependants.start name "closeDependants")
      modifyNode n fun d => { d with closeDependants := p }
      match finished with
      | some l => return l
      | none =>
          let closes ← ((← get).graph.sortedDependants n).foldlM
            (fun closes d => do
              let close ←
                if ((← get).graph.get d).isStage then some <$> close d
                else closeDependantsWithin fuel d
              return closes ++ close.toList.map (d, ·)) []
          let l ←
            if closes.isEmpty then pure none
            else do
              let body ← closes.mapM fun (d, close) => closeCall n d close
              some <$> addMethod n
                (procedure (Convention.closeDependantsName name) .void body)
                .closeDependants
          modifyNode n fun d => { d with closeDependants := .done l }
          return l

/-- The close-dependants method of a node, if it has one. -/
def closeDependants (n : DependencyId) : Step (Option Location) := do
  closeDependantsWithin ((← get).graph.nodes.length + 1) n

/-- What closes a node: a stage's close method, or a method group's
close-dependants method. -/
def closeOf (n : DependencyId) : Step (Option Location) := do
  if ((← get).graph.get n).isStage then some <$> close n else closeDependants n

-- ================================================================ guards

/-- The statement that makes sure that a stage is initialized. -/
def guardStatement (n : DependencyId) : Step Stmt := do
  let check ← call (← predicate n)
  let stage ← stage n
  match stage.noArgInit with
  | some init => return .when (.unary .not check) (.expr (← call init))
  | none =>
      return .check check
        (some (.literal (.str (stage.name ++ " should be init"))))

/-- The guarded accessor of a stage's field. -/
def accessor (n : DependencyId) (field : Identity) : Step MethodRef := do
  let name := (← get).graph.name n
  let stage ← stage n
  match stage.fieldIndex? field with
  | none => throw (.foreignMember ("field " ++ field.text) name)
  | some i =>
      let entry := stage.fields.getD i default
      let put (p : Progress Location) : Step Unit := modifyStage n fun s =>
        { s with fields := s.fields.modify i fun f => { f with
          accessor := p } }
      let (finished, p) ← ofExcept
        (entry.accessor.start name ("accessor " ++ entry.name))
      put p
      match finished with
      | some l => return (← get).sources.methodRef l
      | none =>
          let guard ← guardStatement n
          let f := (← get).sources.field entry.location
          let owner := (← get).sources.name entry.location.decl
          let body : Block := [guard, .ret (some (.field none (f.ref owner)))]
          let l ← match entry.declaredAccessor with
            | some l => do
                implement l body
                bindMethod ((← get).sources.method l).id n .accessor
                pure l
            | none => addMethod n (procedure f.name f.type body) .accessor
          put (.done l)
          return (← get).sources.methodRef l

/-- The guarded wrapper of a method tagged with a stage. -/
def guarded (n : DependencyId) (method : Identity) : Step MethodRef := do
  let name := (← get).graph.name n
  let stage ← stage n
  match stage.methodIndex? method with
  | none => throw (.foreignMember ("method " ++ method.text) name)
  | some i =>
      let entry := stage.methods.getD i default
      let put (p : Progress Location) : Step Unit := modifyStage n fun s =>
        { s with methods := s.methods.modify i fun m => { m with
          guarded := p } }
      let (finished, p) ← ofExcept (entry.guarded.start name "guarded")
      put p
      match finished with
      | some l => return (← get).sources.methodRef l
      | none =>
          let guard ← guardStatement n
          let wrapped := (← get).sources.method entry.location
          let inner : Expr :=
            .call none ((← get).sources.methodRef entry.location)
            (wrapped.params.map fun p => .var p.name)
          let result : Stmt :=
            if wrapped.returns.isVoid then .expr inner else .ret (some inner)
          let l ← addMethod n
            { procedure (Convention.guardedName wrapped.name) wrapped.returns
                [guard, result] with params := wrapped.params } .guarded
          put (.done l)
          return (← get).sources.methodRef l

-- ======================================================== the whole node

/-- Change the body of a method, an absent one counting as empty. -/
def modifyBody (l : Location) (f : Block → Block) : Step Unit :=
  modifySources (·.modifyMethod l fun m => { m with
    body := some (f m.bodyOrEmpty) })

/-- Let an init method close the dependants if the stage was initialized
on entry. -/
def closeDependantsAfterInit (n : DependencyId)
    (predicate close init : Location) :
    Step Unit := do
  let was := Convention.wasInitName ((← get).graph.name n)
  let check ← call predicate
  let closeCall ← call close
  modifyBody init fun body =>
    .declare .boolean was (some check) :: body
      ++ [Stmt.when (.var was) (.expr closeCall)]

/-- Make every lifecycle member of a node, and add the lifecycle to its
init and close methods. The bodies are expected to be guarded already. -/
def prepare (n : DependencyId) : Step Unit := do
  if !((← get).graph.get n).isStage then
    let _ ← closeDependants n
  else
    let predicate ← predicate n
    let dependants ← closeDependants n
    let close ← close n
    let doClose ← doClose n
    match dependants with
    | some dependants =>
        (← stage n).initMethods.forM
          (closeDependantsAfterInit n predicate dependants)
        let closeCall ← call dependants
        modifyBody close (.expr closeCall :: ·)
    | none => pure ()
    let leave : Stmt := .when (.unary .not (← call predicate)) (.ret none)
    modifyBody close (leave :: ·)
    modifyBody doClose (leave :: ·)
    ((← stage n).fields.filter StageField.forcesAccessor).forM fun f => do
      let _ ← accessor n f.id

end Stagewise.Lifecycle
