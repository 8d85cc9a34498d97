/-
Discovery of stages and method groups in an extension chain.

A stage is found from one of its fields. Its name is the field's tag, or
else the field's name capitalized; its members are found by name and tag
over the whole chain, from derived to base. All methods are read before
any field, so that a predicate declared in a base is known when several
initialized fields are met.

What is found must make a whole lifecycle: either exactly one initialized
field and no concrete predicate, or a concrete predicate together with a
concrete close method.
-/
import Stagewise.Convention
import Stagewise.Sources
import Stagewise.Stage

namespace Stagewise

/-- The stage that a field belongs to. -/
def Field.stageName (f : Field) : String :=
  f.stageTag?.getD (Text.capitalize f.name)

/-- Whether a field is part of some stage: it can change, belongs to an
object and is no structural reference. -/
def Field.isStageField (f : Field) : Bool :=
  !f.modifiers.isStatic && !f.modifiers.isFinal && !f.isReference

namespace Stage

-- =============================================================== methods

/-- Whether no call could tell two methods apart: one name, one number of
parameters, and each pair of parameter types related by subtyping or both
numeric. -/
def clashes (s : Sources) (a b : Method) : Bool :=
  a.name == b.name && a.params.length == b.params.length
    && (a.params.zip b.params).all fun (p, q) =>
      s.isSubtype p.type q.type || s.isSubtype q.type p.type
        || (p.type.isNumeric && q.type.isNumeric)

/-- Fail unless the method returns what it should and takes no
parameters. -/
def checkSignature (m : Method) (returnsIt : Bool) (wrongReturn : String) :
    Except Failure Unit :=
  if !returnsIt then .error (.invalidSignature m.name wrongReturn)
  else if !m.params.isEmpty then
    .error (.invalidSignature m.name "shouldn't have parameters")
  else .ok ()

/-- Take a method of the chain into the stage if its name or tag says
so. -/
def scanMethod (s : Sources) (stage : Stage) (l : Location) :
    Except Failure Stage := do
  let m := s.method l
  if m.name == Convention.predicateName stage.name
      && stage.declaredPredicate.isNone then
    checkSignature m m.returns.isBoolean "return type should be boolean"
    return { stage with declaredPredicate := some l }
  else if !m.isAbstract && Convention.isInitName stage.name m.name then
    if stage.initMethods.any fun o => clashes s m (s.method o) then
      throw (.overloadClash stage.name m.name)
    else return { stage with initMethods := stage.initMethods ++ [l] }
  else if m.name == Convention.closeName stage.name
      && stage.declaredClose.isNone then
    checkSignature m m.returns.isVoid "should be void"
    return { stage with declaredClose := some l }
  else if m.stageTag? == some stage.name then
    return { stage with
      methods := stage.methods ++ [{ location := l, id := m.id }] }
  else return stage

def methodLocations (s : Sources) (d : DeclId) : List Location :=
  (List.range (s.get d).methods.length).map (Location.mk d)

def fieldLocations (s : Sources) (d : DeclId) : List Location :=
  (List.range (s.get d).fields.length).map (Location.mk d)

-- ================================================================ fields

/-- Whether a declared predicate exists and has a body. -/
def hasConcretePredicate (stage : Stage) (s : Sources) : Bool :=
  stage.declaredPredicate.any fun l => !(s.method l).isAbstract

/-- Whether a declared close method exists and has a body. -/
def hasConcreteClose (stage : Stage) (s : Sources) : Bool :=
  stage.declaredClose.any fun l => !(s.method l).isAbstract

/-- What becomes of the stage's initialized fields when the next field is
initialized. -/
def countInitialized (s : Sources) (stage : Stage) :
    Except Failure InitializedFields :=
  match stage.initialized with
  | .noField => .ok (.sentinel stage.fields.length)
  | _ =>
      if stage.hasConcretePredicate s then .ok .manyWithPredicate
      else .error (.lifecycleConflict stage.name
        ("at most one " ++ stage.name ++ " stage field could be initialized"))

/-- An abstract method of the declaration named like the field. -/
def declaredAccessor? (s : Sources) (l : Location) : Option Location :=
  let name := (s.field l).name
  ((s.get l.decl).methods.findIdx? fun m => m.name == name && m.isAbstract).map
    (Location.mk l.decl)

/-- Whether an interface of the declaration has a method named like the
field. -/
def hasInterfaceAccessor (s : Sources) (l : Location) : Bool :=
  (s.allInterfaces l.decl).any fun i => (s.get i).hasMethodNamed
    (s.field l).name

/-- Take a field of the chain into the stage if it belongs there. The
fields of a stage all stand in one link. -/
def scanField (s : Sources) (stage : Stage) (l : Location) :
    Except Failure Stage := do
  let f := s.field l
  if !f.isStageField then return stage
  else if f.stageTag? != some stage.name
      && Text.capitalize f.name != stage.name then return stage
  else
    match stage.fields.head? with
    | some first =>
        if first.location.decl != l.decl then
          throw (.spanViolation stage.name (s.name first.location.decl)
            (s.name l.decl))
    | none => pure ()
    let initialized ←
      if f.init.isSome then countInitialized s stage
        else pure stage.initialized
    let declared := declaredAccessor? s l
    return { stage with
      initialized
      fields := stage.fields ++
        [{ location := l, id := f.id, name := f.name,
           declaredAccessor := declared,
           forcesAccessor := declared.isSome || hasInterfaceAccessor s l }] }

-- ======================================================= the whole stage

/-- Fail unless the stage's lifecycle is complete and unambiguous. -/
def validate (s : Sources) (stage : Stage) : Except Failure Unit :=
  let predicate := Convention.predicateName stage.name
  let close := Convention.closeName stage.name
  let conflict (detail : String) : Except Failure Unit :=
    .error (.lifecycleConflict stage.name detail)
  let hasSentinel := stage.sentinel?.isSome
  if (hasSentinel && stage.hasConcretePredicate s)
      || (!hasSentinel && stage.declaredPredicate.isNone) then
    conflict (predicate ++ "() should be declared OR one field initialized")
  else if !hasSentinel && stage.declaredClose.isNone then
    conflict ("If no field initialized, " ++ close ++ "() should be declared")
  else if !hasSentinel && !stage.hasConcretePredicate s then
    conflict ("abstract " ++ predicate ++ "() requires one initialized field")
  else if !hasSentinel && !stage.hasConcreteClose s then
    conflict ("abstract " ++ close ++ "() requires one initialized field")
  else .ok ()

/-- The stage of a field declared in the extension chain of a leaf. -/
def discover (s : Sources) (leaf : DeclId) (seed : Location) :
    Except Failure Stage := do
  let chain := s.extensionChain leaf
  let stage : Stage := { name := (s.field seed).stageName, decl := leaf }
  let stage ← (chain.flatMap (methodLocations s)).foldlM (scanMethod s) stage
  let stage ← (chain.flatMap (fieldLocations s)).foldlM (scanField s) stage
  let stage := { stage with
    noArgInit := stage.initMethods.find? fun l => (s.method l).params.isEmpty }
  stage.validate s
  return stage

end Stage

-- ========================================================= method groups

namespace MethodGroup

/-- Add the interface methods that a link inherits with the seed's
signature, each once. -/
def addInterfaceMethods (s : Sources) (seed : Method)
    (found : List (Identity × String)) (link : DeclId) :
    List (Identity × String) :=
  ((s.allInterfaces link).flatMap fun i => (s.get i).methods).foldl
    (fun found m =>
      if seed.overrides m && !(found.any (·.1 == m.id)) then
        found ++ [(m.id, m.name)]
      else found) found

/-- The group of a method of a leaf's chain. -/
def discover (s : Sources) (leaf : DeclId) (seed : Method) : MethodGroup :=
  let chain := s.extensionChain leaf
  { decl := leaf
    methods := chain.filterMap fun link =>
      ((s.get link).methods.findIdx? seed.overrides).map (Location.mk link)
    interfaceMethods := chain.foldl (addInterfaceMethods s seed) [] }

end MethodGroup

end Stagewise
