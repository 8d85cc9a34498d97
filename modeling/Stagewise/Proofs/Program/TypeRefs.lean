/-
The type references of a declaration, and formal parameters in them.

# One reference

Formal parameters are replaced all at once, each as a whole
(`TypeRef.subst`). What this means shows in what a reference is read as, once
parameters and names stand for something: a reference with parameters replaced
is read as the reference before is, with the parameters standing for what their
arguments are read as (`TypeRef.read_subst`).

# All of them

A reference stands somewhere in a declaration, with the formal parameters that
nested types around it declare (`TypeDecl.refs`). A change of types changes
each in its place (`TypeDecl.refs_mapNames`).
-/
import Stagewise.Proofs.Program.Conversion

namespace Stagewise

namespace TypeRef

-- ========================================================== formal parameters

mutual

/-- The formal parameters in a type reference, at any depth. -/
def params : TypeRef → List String
  | ⟨name, args, isParam⟩ => (if isParam then [name] else [])
      ++ paramsOfAll args

def paramsOfAll : List TypeRef → List String
  | [] => []
  | t :: ts => params t ++ paramsOfAll ts

end

mutual

/-- Put its argument in the place of each formal parameter that has one. The
argument is left as it is. -/
def subst (σ : String → Option TypeRef) : TypeRef → TypeRef
  | ⟨name, args, isParam⟩ =>
      match if isParam then σ name else none with
      | some arg => arg
      | none => ⟨name, substAll σ args, isParam⟩

def substAll (σ : String → Option TypeRef) : List TypeRef → List TypeRef
  | [] => []
  | t :: ts => subst σ t :: substAll σ ts

end

/-- The replacements without those of some formal parameters. -/
def hidden (σ : String → Option TypeRef) (bound : List String) (p : String) :
    Option TypeRef :=
  if p ∈ bound then none else σ p

variable {σ τ : String → Option TypeRef} {q : String}

mutual

theorem subst_congr : ∀ t : TypeRef, (∀ p ∈ t.params, σ p = τ p) →
    t.subst σ = t.subst τ
  | ⟨name, args, isParam⟩, h => by
      have hargs : substAll σ args = substAll τ args :=
        substAll_congr args fun p hp => h p (List.mem_append_right _ hp)
      have hname : (if isParam then σ name else none) = if isParam then τ name
          else none := by
        cases isParam with
        | false => rfl
        | true => exact h name (List.mem_append_left _
            (List.mem_singleton_self name))
      rw [subst, subst, hname, hargs]

theorem substAll_congr :
    ∀ ts : List TypeRef, (∀ p ∈ paramsOfAll ts, σ p = τ p) →
    substAll σ ts = substAll τ ts
  | [], _ => rfl
  | t :: ts, h => by
      rw [substAll, substAll, subst_congr t fun p hp =>
        h p (List.mem_append_left _ hp),
        substAll_congr ts fun p hp => h p (List.mem_append_right _ hp)]

end

mutual

theorem subst_none : ∀ t : TypeRef, t.subst (fun _ => none) = t
  | ⟨name, args, isParam⟩ => by
      rw [subst, ite_self, substAll_none args]

theorem substAll_none : ∀ ts : List TypeRef, substAll (fun _ => none) ts = ts
  | [] => rfl
  | t :: ts => by rw [substAll, subst_none t, substAll_none ts]

end

/-- Where no formal parameter is replaced a reference stays as it is. -/
theorem subst_eq_self {t : TypeRef} (h : ∀ p ∈ t.params, σ p = none) :
    t.subst σ = t :=
  (subst_congr t h).trans (subst_none t)

mutual

/-- The formal parameters that are there afterwards have not been replaced, or
an argument has brought them in. -/
theorem mem_params_subst : ∀ t : TypeRef, q ∈ (t.subst σ).params →
    (q ∈ t.params ∧ σ q = none) ∨ ∃ p ∈ t.params, ∃ arg, σ p = some arg
    ∧ q ∈ arg.params
  | ⟨name, args, isParam⟩, hq => by
      rw [subst] at hq
      split at hq
      · rename_i arg harg
        cases isParam with
        | false => cases harg
        | true =>
            exact Or.inr
              ⟨name, List.mem_append_left _ (List.mem_singleton_self name),
                arg, harg, hq⟩
      · rename_i hnone
        rw [params, List.mem_append] at hq
        rcases hq with hname | hargs
        · cases isParam with
          | false => cases hname
          | true =>
              obtain rfl := List.mem_singleton.1 hname
              exact Or.inl ⟨List.mem_append_left _ hname, hnone⟩
        · rcases mem_params_substAll args hargs with ⟨hkept, hq⟩
            | ⟨p, hp, harg⟩
          · exact Or.inl ⟨List.mem_append_right _ hkept, hq⟩
          · exact Or.inr ⟨p, List.mem_append_right _ hp, harg⟩

theorem mem_params_substAll :
    ∀ ts : List TypeRef, q ∈ paramsOfAll (substAll σ ts) →
    (q ∈ paramsOfAll ts ∧ σ q = none)
      ∨ ∃ p ∈ paramsOfAll ts, ∃ arg, σ p = some arg ∧ q ∈ arg.params
  | t :: ts, hq => by
      rw [substAll, paramsOfAll, List.mem_append] at hq
      rcases hq with hq | hq
      · rcases mem_params_subst t hq with ⟨hkept, hq⟩ | ⟨p, hp, harg⟩
        · exact Or.inl ⟨List.mem_append_left _ hkept, hq⟩
        · exact Or.inr ⟨p, List.mem_append_left _ hp, harg⟩
      · rcases mem_params_substAll ts hq with ⟨hkept, hq⟩ | ⟨p, hp, harg⟩
        · exact Or.inl ⟨List.mem_append_right _ hkept, hq⟩
        · exact Or.inr ⟨p, List.mem_append_right _ hp, harg⟩

end

-- =============================================================== what is read

section

variable {α : Type} (f : String → List α → α) {ρ ρ' : String → α}

mutual

/-- What a type reference is read as, where `ρ` says what formal parameters
stand for and `f` what a name does with its arguments. -/
def read (ρ : String → α) : TypeRef → α
  | ⟨name, args, isParam⟩ => if isParam then ρ name else f name
      (readAll ρ args)

def readAll (ρ : String → α) : List TypeRef → List α
  | [] => []
  | t :: ts => read ρ t :: readAll ρ ts

end

/-- What formal parameters stand for where they have been replaced. -/
def through (σ : String → Option TypeRef) (ρ : String → α) (p : String) : α :=
  match σ p with
  | some arg => arg.read f ρ
  | none => ρ p

theorem through_of_none {p : String} (h : σ p = none) :
    through f σ ρ p = ρ p := by
  rw [through, h]

theorem through_of_some {p : String} {arg : TypeRef} (h : σ p = some arg) :
    through f σ ρ p = arg.read f ρ := by
  rw [through, h]

/-- What formal parameters stand for inside types that declare some of them. -/
def within (bound : List String) (inner outer : String → α) (p : String) : α :=
  if p ∈ bound then inner p else outer p

theorem within_of_notMem {bound : List String} {p : String}
    (inner outer : String → α)
    (h : p ∉ bound) : within bound inner outer p = outer p := if_neg h

mutual

theorem read_congr : ∀ t : TypeRef, (∀ p ∈ t.params, ρ p = ρ' p) →
    t.read f ρ = t.read f ρ'
  | ⟨name, args, true⟩,
      h => h name (List.mem_append_left _ (List.mem_singleton_self name))
  | ⟨name, args, false⟩, h => by
      show f name (readAll f ρ args) = f name (readAll f ρ' args)
      rw [readAll_congr args fun p hp => h p (List.mem_append_right _ hp)]

theorem readAll_congr :
    ∀ ts : List TypeRef, (∀ p ∈ paramsOfAll ts, ρ p = ρ' p) →
    readAll f ρ ts = readAll f ρ' ts
  | [], _ => rfl
  | t :: ts, h => by
      rw [readAll, readAll, read_congr t fun p hp =>
        h p (List.mem_append_left _ hp),
        readAll_congr ts fun p hp => h p (List.mem_append_right _ hp)]

end

mutual

/-- A reference with formal parameters replaced is read as before, with these
standing for their arguments. -/
theorem read_subst :
    ∀ t : TypeRef, (t.subst σ).read f ρ = t.read f (through f σ ρ)
  | ⟨name, args, false⟩ => by
      show f name (readAll f ρ (substAll σ args)) = f name (readAll f _ args)
      rw [readAll_subst args]
  | ⟨name, args, true⟩ => by
      show (subst σ ⟨name, args, true⟩).read f ρ = through f σ ρ name
      cases hσ : σ name with
      | none => simp [subst, read, through_of_none f hσ, hσ]
      | some arg => simp [subst, through_of_some f hσ, hσ]

theorem readAll_subst : ∀ ts : List TypeRef,
    readAll f ρ (substAll σ ts) = readAll f (through f σ ρ) ts
  | [] => rfl
  | t :: ts => by
      rw [substAll, readAll, readAll, read_subst t, readAll_subst ts]

end

end

end TypeRef

-- ============================================================= all references

/-- The type references at a node itself, those inside it left out. -/
def Node.typeRefs : Node → List TypeRef
  | .type d => d.superclass.toList ++ d.interfaces
  | .field f => [f.type]
  | .method m => m.returns :: m.paramTypes
  | .constructor c => c.params.map Param.type
  | .stmt (.declare t _ _) => [t]
  | .expr (.call _ m _) => m.params
  | .expr (.new t _) => [t]
  | .expr _ | .stmt _ | .block _ => []

theorem Node.typeRefs_mapNames (ν : NameMap) (n : Node) :
    (n.mapNames ν).typeRefs = n.typeRefs.map ν.type := by
  cases n with
  | type d =>
      rcases d with ⟨_, _, _, _, superclass, interfaces⟩
      show (superclass.map ν.type).toList ++ interfaces.map ν.type
        = (superclass.toList ++ interfaces).map ν.type
      rw [List.map_append, Option.toList_map]
  | method m => simp [Node.mapNames, typeRefs, Method.mapNames,
      Method.paramTypes, Param.mapNames]
  | constructor c => simp [Node.mapNames, typeRefs, Constructor.mapNames,
      Param.mapNames]
  | field f => rfl
  | block b => rfl
  | stmt s => cases s <;> rfl
  | expr e =>
      cases e with
      | self q => cases q <;> rfl
      | _ => rfl

namespace TypeDecl

/-- The nodes of a type, those of nested types left out. -/
def ownNodes (d : TypeDecl) : List Node :=
  .type d :: (d.fields.flatMap Field.nodes ++ d.constructors.flatMap
    Constructor.nodes
    ++ d.methods.flatMap Method.nodes)

theorem ownNodes_mapNames (ν : NameMap) (d : TypeDecl) :
    (d.mapNames ν).ownNodes = d.ownNodes.map (Node.mapNames ν) := by
  rcases d with ⟨_, _, _, _, _, _, _, _, fields, methods, constructors, _, _⟩
  show _ :: ((fields.map _).flatMap _ ++ (constructors.map _).flatMap _
    ++ (methods.map _).flatMap _) = _
  rw [flatMap_nodes_map ν (Field.nodes_mapNames ν),
    flatMap_nodes_map ν (Constructor.nodes_mapNames ν),
    flatMap_nodes_map ν (Method.nodes_mapNames ν)]
  simp [ownNodes, Node.mapNames, mapNames]

mutual

/-- The type references of a type, each with the formal parameters in `bound`
and those that nested types around it declare. -/
def refsIn (bound : List String) : TypeDecl → List (List String × TypeRef)
  | ⟨kind, name, package, typeParams, superclass, interfaces, modifiers,
      markers, fields, methods, constructors, nested, position⟩ =>
      ((ownNodes ⟨kind, name, package, typeParams, superclass,
        interfaces, modifiers, markers, fields, methods, constructors, nested,
        position⟩).flatMap Node.typeRefs).map
          (bound, ·) ++ refsInAll bound nested

def refsInAll (bound : List String) :
    List TypeDecl → List (List String × TypeRef)
  | [] => []
  | d :: ds => refsIn (bound ++ d.typeParams) d ++ refsInAll bound ds

end

/-- The type references of a type, each with the formal parameters that nested
types around it declare. -/
def refs (d : TypeDecl) : List (List String × TypeRef) := d.refsIn []

/-- The formal parameters that a type refers to, but for those that nested
types declare. -/
def freeParams (d : TypeDecl) : List String :=
  d.refs.flatMap fun (bound, t) => t.params.filter (· ∉ bound)

theorem mem_freeParams {d : TypeDecl} {p : String} :
    p ∈ d.freeParams ↔ ∃ x ∈ d.refs, p ∈ x.2.params ∧ p ∉ x.1 := by
  simp [freeParams]

mutual

/-- No reference is left out. -/
theorem map_snd_refsIn (bound : List String) : ∀ d : TypeDecl,
    (d.refsIn bound).map Prod.snd = d.nodes.flatMap Node.typeRefs
  | ⟨_, _, _, _, _, _, _, _, _, _, _, nested, _⟩ => by
      rw [refsIn, nodes, List.map_append, map_snd_refsInAll bound nested,
        List.map_map, ← List.cons_append, List.flatMap_append]
      exact congrArg (· ++ _) (List.map_id _)

theorem map_snd_refsInAll (bound : List String) : ∀ ds : List TypeDecl,
    (refsInAll bound ds).map Prod.snd = (nodesOfAll ds).flatMap Node.typeRefs
  | [] => rfl
  | d :: ds => by
      rw [refsInAll, nodesOfAll, List.map_append, map_snd_refsIn _ d,
        map_snd_refsInAll bound ds, List.flatMap_append]

end

mutual

theorem refsIn_mapNames (ν : NameMap) (bound : List String) : ∀ d : TypeDecl,
    (d.mapNames ν).refsIn bound = (d.refsIn bound).map (Prod.map id ν.type)
  | ⟨kind, name, package, typeParams, superclass, interfaces, modifiers,
      markers, fields, methods, constructors, nested, position⟩ => by
      have hown :=
        ownNodes_mapNames ν ⟨kind, name, package, typeParams,
          superclass, interfaces,
        modifiers, markers, fields, methods, constructors, nested, position⟩
      rw [mapNames] at hown
      rw [mapNames, refsIn, refsIn, hown, List.map_append,
        refsInAll_mapNames ν bound nested,
        List.flatMap_map, List.flatMap_congr fun n _ =>
        n.typeRefs_mapNames ν, ← List.map_flatMap,
        List.map_map, List.map_map]
      rfl

theorem refsInAll_mapNames (ν : NameMap) (bound : List String) :
    ∀ ds : List TypeDecl, refsInAll bound (mapNamesAll ν ds)
      = (refsInAll bound ds).map (Prod.map id ν.type)
  | [] => rfl
  | d :: ds => by
      rw [mapNamesAll, refsInAll, refsInAll, typeParams_mapNames,
        refsIn_mapNames ν _ d, refsInAll_mapNames ν bound ds, List.map_append]

end

/-- A change of types changes every reference in its place. -/
theorem refs_mapNames (τ : TypeRef → TypeRef) (d : TypeDecl) :
    (d.mapNames (NameMap.ofTypes τ)).refs = d.refs.map (Prod.map id τ) :=
  d.refsIn_mapNames (NameMap.ofTypes τ) []

end TypeDecl

end Stagewise
