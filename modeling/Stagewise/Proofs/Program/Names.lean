/-
The names that code uses, and changes of them.

Code names declarations where it refers to types, where it reaches members
by their owners, and where it asks for an enclosing object. A `NameMap`
changes these names: type references as a whole, owners one by one. It
changes every node in its place (`nodes_mapNames`), so the names of the
changed code are those of the code before, changed one by one
(`names_mapNames`), and two changes after each other are one
(`mapNames_mapNames`).

A transformer that leaves all else alone makes such a change
(`Renames.typeDecl_holds`).
-/
import Stagewise.Proofs.Program.Outline
import Stagewise.Proofs.Program.Signatures

namespace Stagewise

-- =========================================================== changes of names

/-- What becomes of type references, and of the owners of members and the
types of enclosing objects. -/
structure NameMap where
  type : TypeRef → TypeRef
  owner : String → String

/-- One change after another. -/
def NameMap.after (ν μ : NameMap) : NameMap :=
  ⟨ν.type ∘ μ.type, ν.owner ∘ μ.owner⟩

variable (ν μ : NameMap)

namespace Expr

/-- Change the names at the top of an expression. -/
def mapTopNames : Expr → Expr
  | .self (some q) => .self (some (ν.owner q))
  | .field t f => .field t { f with owner := ν.owner f.owner }
  | .call t m args =>
      .call t { m with
        owner := ν.owner m.owner, params := m.params.map ν.type } args
  | .new type args => .new (ν.type type) args
  | e => e

/-- Change the names in an expression. -/
def mapNames (e : Expr) : Expr := e.rewrite (mapTopNames ν)

theorem mapTopNames_keepsParts : KeepsParts (mapTopNames ν) := by
  intro e
  cases e with
  | self q => cases q <;> rfl
  | _ => rfl

mutual

theorem mapNames_mapNames :
    ∀ e : Expr, (e.mapNames μ).mapNames ν = e.mapNames (ν.after μ)
  | .literal _ | .super | .var _ | .self none | .self (some _) => rfl
  | .field t f => by
      have ht := rewriteTarget_mapNames t
      show Expr.field (rewriteTarget _ (rewriteTarget _ t)) _ = Expr.field _ _
      rw [ht]
      rfl
  | .call t m args => by
      have ht := rewriteTarget_mapNames t
      have hargs := rewriteAll_mapNames args
      show Expr.call (rewriteTarget _ (rewriteTarget _ t)) _
        (rewriteAll _ (rewriteAll _ args))
        = Expr.call _ _ _
      rw [ht, hargs, List.map_map]
      rfl
  | .new type args => by
      have hargs := rewriteAll_mapNames args
      show Expr.new _ (rewriteAll _ (rewriteAll _ args)) = Expr.new _ _
      rw [hargs]
      rfl
  | .unary op e => congrArg (Expr.unary op) (mapNames_mapNames e)
  | .binary op a b => congrArg₂ (Expr.binary op) (mapNames_mapNames a)
      (mapNames_mapNames b)
  | .assign op a b => congrArg₂ (Expr.assign op) (mapNames_mapNames a)
      (mapNames_mapNames b)
  | .conditional c a b => by
      have hc := mapNames_mapNames c
      have ha := mapNames_mapNames a
      have hb := mapNames_mapNames b
      show Expr.conditional _ _ _ = Expr.conditional _ _ _
      exact congr (congrArg₂ Expr.conditional hc ha) hb

theorem rewriteTarget_mapNames : ∀ t : Option Expr,
    rewriteTarget (mapTopNames ν) (rewriteTarget (mapTopNames μ) t)
      = rewriteTarget (mapTopNames (ν.after μ)) t
  | none => rfl
  | some e => congrArg some (mapNames_mapNames e)

theorem rewriteAll_mapNames : ∀ es : List Expr,
    rewriteAll (mapTopNames ν) (rewriteAll (mapTopNames μ) es)
      = rewriteAll (mapTopNames (ν.after μ)) es
  | [] => rfl
  | e :: es => congrArg₂ List.cons (mapNames_mapNames e)
      (rewriteAll_mapNames es)

end

end Expr

namespace Stmt

mutual

/-- Change the names in a statement. -/
def mapNames (ν : NameMap) : Stmt → Stmt
  | .expr e => .expr (e.mapNames ν)
  | .declare type name init => .declare (ν.type type) name
      (init.map (Expr.mapNames ν))
  | .branch cond yes no =>
      .branch (cond.mapNames ν) (mapNamesAll ν yes) (mapNamesBlock? ν no)
  | .loop cond body => .loop (cond.mapNames ν) (mapNamesAll ν body)
  | .ret value => .ret (value.map (Expr.mapNames ν))
  | .check cond message => .check (cond.mapNames ν)
      (message.map (Expr.mapNames ν))
  | .throw e => .throw (e.mapNames ν)
  | .superConstructor args => .superConstructor (args.map (Expr.mapNames ν))
  | .block body => .block (mapNamesAll ν body)

/-- `mapNames` on a block that may be absent. -/
def mapNamesBlock? (ν : NameMap) : Option (List Stmt) → Option (List Stmt)
  | none => none
  | some b => some (mapNamesAll ν b)

/-- `mapNames` on the statements of a block. -/
def mapNamesAll (ν : NameMap) : List Stmt → List Stmt
  | [] => []
  | s :: ss => mapNames ν s :: mapNamesAll ν ss

end

end Stmt

/-- Change the names in a block. -/
def Block.mapNames (b : Block) : Block := Stmt.mapNamesAll ν b

theorem Block.mapNames_append (a b : Block) :
    Block.mapNames ν (a ++ b) = a.mapNames ν ++ b.mapNames ν := by
  induction a with
  | nil => rfl
  | cons s a ih => exact congrArg (s.mapNames ν :: ·) ih

def Param.mapNames (p : Param) : Param := { p with type := ν.type p.type }

/-- Change the names in a field. -/
def Field.mapNames (f : Field) : Field :=
  { f with type := ν.type f.type, init := f.init.map (Expr.mapNames ν) }

/-- Change the names in a method. -/
def Method.mapNames (m : Method) : Method :=
  { m with
    returns := ν.type m.returns
    params := m.params.map (Param.mapNames ν)
    body := m.body.map (Block.mapNames ν) }

/-- Change the names in a constructor. -/
def Constructor.mapNames (c : Constructor) : Constructor :=
  { c with params := c.params.map (Param.mapNames ν),
           body := c.body.mapNames ν }

namespace TypeDecl

mutual

/-- Change the names in a type, in nested types too. Declared names stay. -/
def mapNames (ν : NameMap) : TypeDecl → TypeDecl
  | ⟨kind, name, package, typeParams, superclass, interfaces, modifiers,
      markers, fields, methods, constructors, nested, position⟩ =>
      ⟨kind, name, package, typeParams, superclass.map ν.type,
        interfaces.map ν.type, modifiers, markers,
        fields.map (Field.mapNames ν), methods.map (Method.mapNames ν),
        constructors.map (Constructor.mapNames ν),
        mapNamesAll ν nested, position⟩

/-- `mapNames` on sibling types. -/
def mapNamesAll (ν : NameMap) : List TypeDecl → List TypeDecl
  | [] => []
  | d :: ds => mapNames ν d :: mapNamesAll ν ds

end

@[simp] theorem name_mapNames (d : TypeDecl) :
    (d.mapNames ν).name = d.name := by
  cases d
  rfl

@[simp] theorem typeParams_mapNames (d : TypeDecl) :
    (d.mapNames ν).typeParams = d.typeParams := by
  cases d
  rfl

mutual

/-- A nested type is found where it was, with its names changed. -/
theorem findNested?_mapNames (name : String) : ∀ d : TypeDecl,
    (d.mapNames ν).findNested? name = (d.findNested? name).map (mapNames ν)
  | ⟨_, _, _, _, _, _, _, _, _, _, _, nested, _⟩ =>
      findAmong?_mapNames name nested

theorem findAmong?_mapNames (name : String) : ∀ ds : List TypeDecl,
    findAmong? name (mapNamesAll ν ds) = (findAmong? name ds).map (mapNames ν)
  | [] => rfl
  | d :: ds => by
      rw [mapNamesAll, findAmong?, findAmong?, name_mapNames]
      split
      · rfl
      · rw [findNested?_mapNames name d, findAmong?_mapNames name ds]
        cases findNested? name d <;> rfl

end

end TypeDecl

-- =============================================================== two changes

namespace Stmt

mutual

theorem mapNames_mapNames :
    ∀ s : Stmt, (s.mapNames μ).mapNames ν = s.mapNames (ν.after μ)
  | .expr e | .throw e => by
      simp only [mapNames, Expr.mapNames_mapNames]
  | .declare type _ init => by
      simp [mapNames, Function.comp_def, Expr.mapNames_mapNames, NameMap.after]
  | .branch cond yes no => by
      simp only [mapNames, Expr.mapNames_mapNames, mapNamesAll_mapNamesAll yes,
        mapNamesBlock?_mapNamesBlock? no]
  | .loop cond body => by
      simp only [mapNames, Expr.mapNames_mapNames,
        mapNamesAll_mapNamesAll body]
  | .ret value => by
      simp [mapNames, Function.comp_def, Expr.mapNames_mapNames]
  | .check cond message => by
      simp [mapNames, Function.comp_def, Expr.mapNames_mapNames]
  | .superConstructor args => by
      simp [mapNames, Expr.mapNames_mapNames]
  | .block body => by
      simp only [mapNames, mapNamesAll_mapNamesAll body]

theorem mapNamesBlock?_mapNamesBlock? : ∀ b : Option (List Stmt),
    mapNamesBlock? ν (mapNamesBlock? μ b) = mapNamesBlock? (ν.after μ) b
  | none => rfl
  | some b => congrArg some (mapNamesAll_mapNamesAll b)

theorem mapNamesAll_mapNamesAll : ∀ ss : List Stmt,
    mapNamesAll ν (mapNamesAll μ ss) = mapNamesAll (ν.after μ) ss
  | [] => rfl
  | s :: ss => congrArg₂ List.cons (mapNames_mapNames s)
      (mapNamesAll_mapNamesAll ss)

end

end Stmt

theorem Field.mapNames_mapNames (f : Field) :
    (f.mapNames μ).mapNames ν = f.mapNames (ν.after μ) := by
  simp [mapNames, Function.comp_def, Expr.mapNames_mapNames, NameMap.after]

theorem Param.mapNames_mapNames (p : Param) :
    (p.mapNames μ).mapNames ν = p.mapNames (ν.after μ) := rfl

theorem Block.mapNames_mapNames (b : Block) :
    (b.mapNames μ).mapNames ν = b.mapNames (ν.after μ) :=
  Stmt.mapNamesAll_mapNamesAll ν μ b

theorem Method.mapNames_mapNames (m : Method) :
    (m.mapNames μ).mapNames ν = m.mapNames (ν.after μ) := by
  simp only [mapNames, List.map_map, Option.map_map, Function.comp_def,
    Param.mapNames_mapNames, Block.mapNames_mapNames]
  rfl

theorem Constructor.mapNames_mapNames (c : Constructor) :
    (c.mapNames μ).mapNames ν = c.mapNames (ν.after μ) := by
  simp only [mapNames, List.map_map, Function.comp_def,
    Param.mapNames_mapNames, Block.mapNames_mapNames]

namespace TypeDecl

mutual

/-- Two changes of names after each other are one. -/
theorem mapNames_mapNames : ∀ d : TypeDecl,
    (d.mapNames μ).mapNames ν = d.mapNames (ν.after μ)
  | ⟨_, _, _, _, superclass, interfaces, _, _, fields, methods, constructors,
      nested, _⟩ => by
      simp only [mapNames, List.map_map, Option.map_map, Function.comp_def,
        Field.mapNames_mapNames, Method.mapNames_mapNames,
        Constructor.mapNames_mapNames,
        mapNamesAll_mapNamesAll nested]
      rfl

theorem mapNamesAll_mapNamesAll : ∀ ds : List TypeDecl,
    mapNamesAll ν (mapNamesAll μ ds) = mapNamesAll (ν.after μ) ds
  | [] => rfl
  | d :: ds => congrArg₂ List.cons (mapNames_mapNames d)
      (mapNamesAll_mapNamesAll ds)

end

end TypeDecl

-- ============================================================= place by place

/-- Change the names at a node and below it. -/
def Node.mapNames : Node → Node
  | .type d => .type (d.mapNames ν)
  | .field f => .field (f.mapNames ν)
  | .method m => .method (m.mapNames ν)
  | .constructor c => .constructor (c.mapNames ν)
  | .block b => .block (b.mapNames ν)
  | .stmt s => .stmt (s.mapNames ν)
  | .expr e => .expr (e.mapNames ν)

theorem Expr.nodes_mapNames (e : Expr) :
    (e.mapNames ν).nodes = e.nodes.map (Node.mapNames ν) := by
  unfold Expr.nodes Expr.mapNames
  rw [Expr.subterms_rewrite (Expr.mapTopNames_keepsParts ν), List.map_map,
    List.map_map]
  rfl

theorem Expr.nodesOf?_mapNames (e : Option Expr) :
    Expr.nodesOf? (e.map (Expr.mapNames ν)) = (Expr.nodesOf? e).map
      (Node.mapNames ν) := by
  cases e with
  | none => rfl
  | some e => exact e.nodes_mapNames ν

/-- Where each of some members is changed in its place, so are all. -/
theorem flatMap_nodes_map {α : Type} {k : α → α} {nodes : α → List Node}
    (hk : ∀ a, nodes (k a) = (nodes a).map (Node.mapNames ν)) (as : List α) :
    (as.map k).flatMap nodes = (as.flatMap nodes).map (Node.mapNames ν) := by
  rw [List.flatMap_map, List.map_flatMap]
  exact List.flatMap_congr fun a _ => hk a

namespace Stmt

mutual

theorem nodes_mapNames :
    ∀ s : Stmt, (s.mapNames ν).nodes = s.nodes.map (Node.mapNames ν)
  | .expr e | .throw e => by
      rw [mapNames, nodes, nodes, e.nodes_mapNames]
      rfl
  | .declare _ _ e | .ret e => by
      rw [mapNames, nodes, nodes, Expr.nodesOf?_mapNames]
      rfl
  | .branch cond yes no => by
      rw [mapNames, nodes, nodes, cond.nodes_mapNames, nodesOfAll_mapNames yes,
        nodesOfBlock?_mapNames no, List.map_cons, List.map_append,
        List.map_append]
      rfl
  | .loop cond body => by
      rw [mapNames, nodes, nodes, cond.nodes_mapNames,
        nodesOfAll_mapNames body, List.map_cons, List.map_append]
      rfl
  | .check cond message => by
      rw [mapNames, nodes, nodes, cond.nodes_mapNames, Expr.nodesOf?_mapNames,
        List.map_cons, List.map_append]
      rfl
  | .superConstructor args => by
      rw [mapNames, nodes, nodes, flatMap_nodes_map ν (Expr.nodes_mapNames ν)]
      rfl
  | .block body => by
      rw [mapNames, nodes, nodes, nodesOfAll_mapNames body]
      rfl

theorem nodesOfBlock?_mapNames : ∀ b : Option (List Stmt),
    nodesOfBlock? (mapNamesBlock? ν b) = (nodesOfBlock? b).map
      (Node.mapNames ν)
  | none => rfl
  | some b => by
      rw [mapNamesBlock?, nodesOfBlock?, nodesOfBlock?, nodesOfAll_mapNames b]
      rfl

theorem nodesOfAll_mapNames : ∀ ss : List Stmt,
    nodesOfAll (mapNamesAll ν ss) = (nodesOfAll ss).map (Node.mapNames ν)
  | [] => rfl
  | s :: ss => by
      rw [mapNamesAll, nodesOfAll, nodesOfAll, nodes_mapNames s,
        nodesOfAll_mapNames ss, List.map_append]

end

end Stmt

theorem Block.nodes_mapNames (b : Block) :
    (b.mapNames ν).nodes = b.nodes.map (Node.mapNames ν) :=
  congrArg (Node.block (b.mapNames ν) :: ·) (Stmt.nodesOfAll_mapNames ν b)

theorem Field.nodes_mapNames (f : Field) :
    (f.mapNames ν).nodes = f.nodes.map (Node.mapNames ν) :=
  congrArg (Node.field (f.mapNames ν) :: ·) (Expr.nodesOf?_mapNames ν f.init)

theorem Method.nodes_mapNames (m : Method) :
    (m.mapNames ν).nodes = m.nodes.map (Node.mapNames ν) := by
  refine congrArg (Node.method (m.mapNames ν) :: ·) ?_
  show ((m.body.map (Block.mapNames ν)).map Block.nodes).getD [] = _
  cases m.body with
  | none => rfl
  | some b => exact b.nodes_mapNames ν

theorem Constructor.nodes_mapNames (c : Constructor) :
    (c.mapNames ν).nodes = c.nodes.map (Node.mapNames ν) :=
  congrArg (Node.constructor (c.mapNames ν) :: ·)
    (Block.nodes_mapNames ν c.body)

namespace TypeDecl

mutual

/-- A change of names changes every node in its place. -/
theorem nodes_mapNames : ∀ d : TypeDecl,
    (d.mapNames ν).nodes = d.nodes.map (Node.mapNames ν)
  | ⟨_, _, _, _, _, _, _, _, fields, methods, constructors, nested, _⟩ => by
      rw [mapNames, nodes, nodes, flatMap_nodes_map ν (Field.nodes_mapNames ν),
        flatMap_nodes_map ν (Constructor.nodes_mapNames ν),
        flatMap_nodes_map ν (Method.nodes_mapNames ν),
        nodesOfAll_mapNames nested,
        List.map_cons, List.map_append, List.map_append, List.map_append]
      rfl

theorem nodesOfAll_mapNames : ∀ ds : List TypeDecl,
    nodesOfAll (mapNamesAll ν ds) = (nodesOfAll ds).map (Node.mapNames ν)
  | [] => rfl
  | d :: ds => by
      rw [mapNamesAll, nodesOfAll, nodesOfAll, nodes_mapNames d,
        nodesOfAll_mapNames ds, List.map_append]

end

end TypeDecl

-- ================================================================ the names

mutual

/-- The names in a type reference. One to a formal type parameter has none,
and the arguments of a name that `stop` holds for are left out. -/
def TypeRef.names (stop : String → Bool) : TypeRef → List String
  | ⟨name, args, isParam⟩ =>
      if isParam then [] else name :: if stop name then []
        else namesOfAll stop args

def TypeRef.namesOfAll (stop : String → Bool) : List TypeRef → List String
  | [] => []
  | t :: ts => TypeRef.names stop t ++ TypeRef.namesOfAll stop ts

end

/-- The names at the top of an expression: the owner of a member, the types
in a method reference or after `new`, and a qualifier. -/
def Expr.topNames (stop : String → Bool) : Expr → List String
  | .self (some q) => [q]
  | .field _ f => [f.owner]
  | .call _ m _ => m.owner :: m.params.flatMap (TypeRef.names stop)
  | .new type _ => type.names stop
  | _ => []

/-- The names at a node itself, those inside it left out. -/
def Node.names (stop : String → Bool) : Node → List String
  | .type d => (d.superclass.toList ++ d.interfaces).flatMap
      (TypeRef.names stop)
  | .field f => f.type.names stop
  | .method m => (m.returns :: m.paramTypes).flatMap (TypeRef.names stop)
  | .constructor c => (c.params.map Param.type).flatMap (TypeRef.names stop)
  | .stmt (.declare t _ _) => t.names stop
  | .expr e => e.topNames stop
  | .stmt _ | .block _ => []

/-- All names that a declaration uses, in reading order. -/
def TypeDecl.names (stop : String → Bool) (d : TypeDecl) : List String :=
  d.nodes.flatMap (Node.names stop)

section

variable {ν} {stop stop' : String → Bool}
variable (hν : ∀ t, (ν.type t).names stop' = (t.names stop).map ν.owner)

include hν

theorem flatMap_names_map (ts : List TypeRef) :
    (ts.map ν.type).flatMap (TypeRef.names stop')
      = (ts.flatMap (TypeRef.names stop)).map ν.owner := by
  rw [List.flatMap_map, List.map_flatMap]
  exact List.flatMap_congr fun t _ => hν t

theorem Node.names_mapNames (n : Node) :
    (n.mapNames ν).names stop' = (n.names stop).map ν.owner := by
  cases n with
  | type d =>
      rcases d with ⟨_, _, _, _, superclass, interfaces⟩
      have hall : (superclass.map ν.type).toList ++ interfaces.map ν.type
          = (superclass.toList ++ interfaces).map ν.type := by
        rw [List.map_append, Option.toList_map]
      show ((superclass.map ν.type).toList ++ interfaces.map ν.type).flatMap _
        = _
      rw [hall]
      exact flatMap_names_map hν _
  | field f => exact hν f.type
  | method m =>
      have hparams : (m.mapNames ν).paramTypes = m.paramTypes.map ν.type := by
        simp [Method.mapNames, Method.paramTypes, Param.mapNames,
          Function.comp_def]
      show ((m.mapNames ν).returns :: (m.mapNames ν).paramTypes).flatMap _ = _
      rw [hparams]
      exact flatMap_names_map hν (m.returns :: m.paramTypes)
  | constructor c =>
      have hparams : (c.mapNames ν).params.map Param.type
          = (c.params.map Param.type).map ν.type := by
        simp [Constructor.mapNames, Param.mapNames, Function.comp_def]
      show ((c.mapNames ν).params.map Param.type).flatMap _ = _
      rw [hparams]
      exact flatMap_names_map hν _
  | block b => rfl
  | stmt s =>
      cases s with
      | declare t _ _ => exact hν t
      | _ => rfl
  | expr e =>
      cases e with
      | self q => cases q <;> rfl
      | call t m args =>
          exact congrArg (ν.owner m.owner :: ·) (flatMap_names_map hν m.params)
      | new t args => exact hν t
      | _ => rfl

/-- The names in the changed declaration are those before, changed. -/
theorem TypeDecl.names_mapNames (d : TypeDecl) :
    (d.mapNames ν).names stop' = (d.names stop).map ν.owner := by
  unfold TypeDecl.names
  rw [d.nodes_mapNames, List.flatMap_map, List.map_flatMap]
  exact List.flatMap_congr fun n _ => Node.names_mapNames hν n

end

-- ============================================================ transformations

namespace Transformer.Reasoning

variable {m : Type → Type} [Monad m] {ι : Type} (L : Reasoning m ι)
variable {r : Transformer m}

/-- That a transformer changes names and nothing else. On the way out of an
expression the type references in it have been changed already. -/
structure Renames (r : Transformer m) (ν : NameMap) : Prop where
  look : r.look = fun _ => pure ()
  enter : r.enterExpr = fun _ => pure none
  leave : ∀ e, L.holds (r.leaveExpr e) fun _ e' =>
    e' = e.mapTopNames ⟨id, ν.owner⟩
  types : ∀ t, L.holds (r.typeRef t) fun _ t' => t' = ν.type t

variable {L} {ν : NameMap}

theorem Renames.look_holds (h : L.Renames r ν) {α : Type} {n : Node} {k : m α}
    {Q : α → Prop} (hk : L.holds k fun _ => Q) :
    L.holds (do
      r.look n
      k) fun _ => Q := by
  rw [h.look]
  refine L.ofBind (P := fun _ _ => True) (L.ofPure fun _ => trivial) fun _ =>
    ?_
  exact L.mono hk fun _ _ hQ _ => hQ

/-- The walk goes into every expression. -/
theorem Renames.enter_holds (h : L.Renames r ν) {e : Expr} {k : m Expr}
    {Q : Expr → Prop} (hk : L.holds k fun _ => Q) :
    L.holds (do
      r.look (.expr e)
      match ← r.enterExpr e with
      | some e => pure e
      | none => k) fun _ => Q := by
  refine h.look_holds ?_
  rw [h.enter]
  refine L.ofBind (P := fun _ found => found = none) (L.ofPure fun _ => rfl)
    fun found => ?_
  cases found with
  | some e' => exact L.ofPure fun _ hfound => nomatch hfound
  | none => exact L.mono hk fun _ _ hQ _ => hQ

theorem Renames.typeRefs_holds (h : L.Renames r ν) (ts : List TypeRef) :
    L.holds (r.typeRefs ts) fun _ ts' => ts' = ts.map ν.type := by
  induction ts with
  | nil => exact L.ofPure fun _ => rfl
  | cons t ts ih =>
      rw [typeRefs]
      refine L.ofBind (h.types t) fun t' => L.ofBind ih fun ts' => ?_
      refine L.ofPure fun _ hts ht => ?_
      rw [ht, hts, List.map_cons]

mutual

theorem Renames.expr_holds (h : L.Renames r ν) : ∀ e : Expr,
    L.holds (r.expr e) fun _ e' => e' = e.mapNames ν
  | .literal _ | .super | .var _ | .self none | .self (some _) => by
      rw [expr]
      exact h.enter_holds (h.leave _)
  | .field t f => by
      rw [expr]
      refine h.enter_holds (L.ofBind (Renames.target_holds h t) fun t' => ?_)
      refine L.mono (h.leave _) fun _ e' he ht => ?_
      rw [he, ht]
      rfl
  | .call t method args => by
      rw [expr]
      refine h.enter_holds (L.ofBind (Renames.target_holds h t) fun t' => ?_)
      refine L.ofBind (h.typeRefs_holds method.params) fun params => ?_
      refine L.ofBind (Renames.exprs_holds h args) fun args' => ?_
      refine L.mono (h.leave _) fun _ e' he hargs hparams ht => ?_
      rw [he, ht, hparams, hargs, Expr.mapTopNames, List.map_id]
      rfl
  | .new type args => by
      rw [expr]
      refine h.enter_holds (L.ofBind (h.types type) fun type' => ?_)
      refine L.ofBind (Renames.exprs_holds h args) fun args' => ?_
      refine L.mono (h.leave _) fun _ e' he hargs htype => ?_
      rw [he, htype, hargs]
      rfl
  | .unary op e => by
      rw [expr]
      refine h.enter_holds (L.ofBind (Renames.expr_holds h e) fun e₁ => ?_)
      refine L.mono (h.leave _) fun _ e' he he₁ => ?_
      rw [he, he₁]
      rfl
  | .binary op a b | .assign op a b => by
      rw [expr]
      refine h.enter_holds (L.ofBind (Renames.expr_holds h a) fun a' => ?_)
      refine L.ofBind (Renames.expr_holds h b) fun b' => ?_
      refine L.mono (h.leave _) fun _ e' he hb ha => ?_
      rw [he, ha, hb]
      rfl
  | .conditional c a b => by
      rw [expr]
      refine h.enter_holds (L.ofBind (Renames.expr_holds h c) fun c' => ?_)
      refine L.ofBind (Renames.expr_holds h a) fun a' => ?_
      refine L.ofBind (Renames.expr_holds h b) fun b' => ?_
      refine L.mono (h.leave _) fun _ e' he hb ha hc => ?_
      rw [he, hc, ha, hb]
      rfl

theorem Renames.target_holds (h : L.Renames r ν) : ∀ t : Option Expr,
    L.holds (r.target t) fun _ t' => t' = Expr.rewriteTarget
      (Expr.mapTopNames ν) t
  | none => L.ofPure fun _ => rfl
  | some e => by
      rw [target]
      refine L.ofBind (Renames.expr_holds h e) fun e' =>
        L.ofPure fun _ he => ?_
      rw [he]
      rfl

theorem Renames.exprs_holds (h : L.Renames r ν) : ∀ es : List Expr,
    L.holds (r.exprs es) fun _ es' =>
      es' = Expr.rewriteAll (Expr.mapTopNames ν) es
  | [] => L.ofPure fun _ => rfl
  | e :: es => by
      rw [exprs]
      refine L.ofBind (Renames.expr_holds h e) fun e' => ?_
      refine L.ofBind (Renames.exprs_holds h es) fun es' =>
        L.ofPure fun _ hes he => ?_
      rw [he, hes]
      rfl

end

/-- What each turn of a loop yields, the loop yields. -/
theorem each_holds {α : Type} {f : α → m α} {k : α → α}
    (hf : ∀ a, L.holds (f a) fun _ a' => a' = k a) (as : List α) :
    L.holds (each f as) fun _ as' => as' = as.map k := by
  refine L.mono (L.each_map_holds (g := id) (k := k) hf as) fun _ as' has => ?_
  rwa [List.map_id] at has

theorem optional_holds {α : Type} {f : α → m α} {k : α → α}
    (hf : ∀ a, L.holds (f a) fun _ a' => a' = k a) (a : Option α) :
    L.holds (optional f a) fun _ a' => a' = a.map k := by
  refine L.mono (L.optional_map_holds (g := id) (k := k) hf a)
    fun _ a' ha => ?_
  rwa [Option.map_id] at ha

mutual

theorem Renames.stmt_holds (h : L.Renames r ν) : ∀ s : Stmt,
    L.holds (r.stmt s) fun _ s' => s' = s.mapNames ν
  | .expr e | .throw e => by
      rw [stmt]
      refine h.look_holds (L.ofBind (h.expr_holds e) fun e' => L.ofPure
        fun _ he => ?_)
      rw [he]
      rfl
  | .declare type _ init => by
      rw [stmt]
      refine h.look_holds (L.ofBind (h.types type) fun type' => ?_)
      refine L.ofBind (optional_holds h.expr_holds init) fun init' => ?_
      refine L.ofPure fun _ hinit htype => ?_
      rw [hinit, htype]
      rfl
  | .branch cond yes no => by
      rw [stmt]
      refine h.look_holds (L.ofBind (h.expr_holds cond) fun cond' => ?_)
      refine h.look_holds (L.ofBind (Renames.stmts_holds h yes) fun yes' => ?_)
      refine L.ofBind (Renames.block?_holds h no) fun no' =>
        L.ofPure fun _ hno hyes hcond => ?_
      rw [hcond, hyes, hno]
      rfl
  | .loop cond body => by
      rw [stmt]
      refine h.look_holds (L.ofBind (h.expr_holds cond) fun cond' => ?_)
      refine h.look_holds (L.ofBind (Renames.stmts_holds h body)
        fun body' => ?_)
      refine L.ofPure fun _ hbody hcond => ?_
      rw [hcond, hbody]
      rfl
  | .ret value => by
      rw [stmt]
      refine h.look_holds (L.ofBind (optional_holds h.expr_holds value)
        fun value' => ?_)
      refine L.ofPure fun _ hvalue => ?_
      rw [hvalue]
      rfl
  | .check cond message => by
      rw [stmt]
      refine h.look_holds (L.ofBind (h.expr_holds cond) fun cond' => ?_)
      refine L.ofBind (optional_holds h.expr_holds message) fun message' => ?_
      refine L.ofPure fun _ hmessage hcond => ?_
      rw [hcond, hmessage]
      rfl
  | .superConstructor args => by
      rw [stmt]
      refine h.look_holds (L.ofBind (each_holds h.expr_holds args)
        fun args' => ?_)
      refine L.ofPure fun _ hargs => ?_
      rw [hargs]
      rfl
  | .block body => by
      rw [stmt]
      refine h.look_holds
        (h.look_holds (L.ofBind (Renames.stmts_holds h body) fun body' => ?_))
      refine L.ofPure fun _ hbody => ?_
      rw [hbody]
      rfl

theorem Renames.block?_holds (h : L.Renames r ν) : ∀ b : Option (List Stmt),
    L.holds (r.block? b) fun _ b' => b' = Stmt.mapNamesBlock? ν b
  | none => L.ofPure fun _ => rfl
  | some b => by
      rw [block?]
      refine h.look_holds (L.ofBind (Renames.stmts_holds h b) fun b' =>
        L.ofPure fun _ hb => ?_)
      rw [hb]
      rfl

theorem Renames.stmts_holds (h : L.Renames r ν) : ∀ ss : List Stmt,
    L.holds (r.stmts ss) fun _ ss' => ss' = Stmt.mapNamesAll ν ss
  | [] => L.ofPure fun _ => rfl
  | s :: ss => by
      rw [stmts]
      refine L.ofBind (Renames.stmt_holds h s) fun s' => ?_
      refine L.ofBind (Renames.stmts_holds h ss) fun ss' =>
        L.ofPure fun _ hss hs => ?_
      rw [hs, hss]
      rfl

end

theorem Renames.block_holds (h : L.Renames r ν) (b : Block) :
    L.holds (r.block b) fun _ b' => b' = b.mapNames ν := by
  rw [block]
  exact h.look_holds (h.stmts_holds b)

theorem Renames.param_holds (h : L.Renames r ν) (p : Param) :
    L.holds (r.param p) fun _ p' => p' = p.mapNames ν := by
  rw [param]
  refine L.ofBind (h.types p.type) fun type => L.ofPure fun _ htype => ?_
  rw [htype]
  rfl

theorem Renames.field_holds (h : L.Renames r ν) (f : Field) :
    L.holds (r.field f) fun _ f' => f' = f.mapNames ν := by
  rw [field]
  refine h.look_holds (L.ofBind (h.types f.type) fun type => ?_)
  refine L.ofBind (optional_holds h.expr_holds f.init) fun init =>
    L.ofPure fun _ hinit htype => ?_
  rw [hinit, htype]
  rfl

theorem Renames.method_holds (h : L.Renames r ν) (d : Method) :
    L.holds (r.method d) fun _ d' => d' = d.mapNames ν := by
  rw [method]
  refine h.look_holds (L.ofBind (h.types d.returns) fun returns => ?_)
  refine L.ofBind (each_holds h.param_holds d.params) fun params => ?_
  refine L.ofBind (optional_holds h.block_holds d.body) fun body => ?_
  refine L.ofPure fun _ hbody hparams hreturns => ?_
  rw [hbody, hparams, hreturns]
  rfl

theorem Renames.constructor_holds (h : L.Renames r ν) (d : Constructor) :
    L.holds (r.constructor d) fun _ d' => d' = d.mapNames ν := by
  rw [constructor]
  refine h.look_holds (L.ofBind (each_holds h.param_holds d.params)
    fun params => ?_)
  refine L.ofBind (h.block_holds d.body) fun body =>
    L.ofPure fun _ hbody hparams => ?_
  rw [hbody, hparams]
  rfl

mutual

/-- A transformer that only changes names changes those of a declaration. -/
theorem Renames.typeDecl_holds (h : L.Renames r ν) : ∀ d : TypeDecl,
    L.holds (r.typeDecl d) fun _ d' => d' = d.mapNames ν
  | ⟨_, _, _, _, superclass, interfaces, _, _, fields, methods, constructors,
      nested, _⟩ => by
      rw [typeDecl]
      refine h.look_holds (L.ofBind (optional_holds h.types superclass)
        fun superclass' => ?_)
      refine L.ofBind (each_holds h.types interfaces) fun interfaces' => ?_
      refine L.ofBind (each_holds h.field_holds fields) fun fields' => ?_
      refine L.ofBind (each_holds h.constructor_holds constructors)
        fun constructors' => ?_
      refine L.ofBind (each_holds h.method_holds methods) fun methods' => ?_
      refine L.ofBind (Renames.typeDecls_holds h nested) fun nested' => ?_
      refine L.ofPure
        fun _ hnested hmethods hconstructors hfields hinterfaces hsuperclass =>
        ?_
      rw [TypeDecl.mapNames, hsuperclass, hinterfaces, hfields, hconstructors,
        hmethods, hnested]

theorem Renames.typeDecls_holds (h : L.Renames r ν) : ∀ ds : List TypeDecl,
    L.holds (r.typeDecls ds) fun _ ds' => ds' = TypeDecl.mapNamesAll ν ds
  | [] => L.ofPure fun _ => rfl
  | d :: ds => by
      rw [typeDecls]
      refine L.ofBind (Renames.typeDecl_holds h d) fun d' => ?_
      refine L.ofBind (Renames.typeDecls_holds h ds) fun ds' =>
        L.ofPure fun _ hds hd => ?_
      rw [hd, hds]
      rfl

end

end Transformer.Reasoning

end Stagewise
