/-
The dependency graph of one compilation: stages and method groups, and
for each dependency the route of reference fields by which the dependant
reaches it.

A dependant reaches a dependency by one route only. Routes are compared
by the composition nodes they pass through, for fields of one type in
different links of a chain lead to the same place.

Adding a dependency adds exactly that one (`dependsOn_of_addDependency`),
and dependants are the converse of dependencies
(`mem_dependants_iff_mem_dependencies`).
-/
import Stagewise.Stage

namespace Stagewise

-- ================================================================ routes

/-- One reference field on the way to a dependency. -/
structure RouteStep where
  field : String
  /-- The composition node that the field leads to. -/
  node : CompositionId
  deriving DecidableEq, Inhabited, Repr

/-- The reference fields on the way to a dependency, outermost first; none
within one composition node. -/
structure Route where
  steps : List RouteStep := []
  deriving DecidableEq, Inhabited, Repr

namespace Route

/-- The composition nodes that a route passes through. -/
def nodes (r : Route) : List CompositionId := r.steps.map RouteStep.node

/-- Whether two routes pass through the same composition nodes. -/
def sameAs (r other : Route) : Bool := r.nodes == other.nodes

theorem sameAs_iff {r other : Route} :
    r.sameAs other = true ↔ r.nodes = other.nodes :=
  beq_iff_eq

def text (r : Route) : String :=
  r.steps.foldl (fun t step => t ++ "." ++ step.field) "this"

end Route

-- ================================================================= nodes

inductive DependencyKind where
  | stage (s : Stage)
  | group (g : MethodGroup)
  deriving Inhabited, Repr

structure DependencyNode where
  name : String
  /-- The leaf that the node was found in and that generated members are
  added to. -/
  decl : DeclId
  kind : DependencyKind
  /-- Finished with `none` when no dependant has anything to close. -/
  closeDependants : Progress (Option Location) := .notStarted
  deriving Inhabited, Repr

namespace DependencyNode

def ofStage (s : Stage) : DependencyNode :=
  { name := s.name, decl := s.decl, kind := .stage s }

def ofGroup (name : String) (g : MethodGroup) : DependencyNode :=
  { name, decl := g.decl, kind := .group g }

def stage? (n : DependencyNode) : Option Stage :=
  match n.kind with
  | .stage s => some s
  | .group _ => none

def isStage (n : DependencyNode) : Bool := n.stage?.isSome

end DependencyNode

-- ============================================================= the graph

/-- That `dependant` reaches `dependency` by `route`. -/
structure Dependency where
  dependant : DependencyId
  dependency : DependencyId
  route : Route
  deriving DecidableEq, Inhabited, Repr

structure DependencyGraph where
  nodes : List DependencyNode := []
  /-- One for each pair of nodes at most, in order of addition. -/
  edges : List Dependency := []
  deriving Inhabited

namespace DependencyGraph

/-- The node of a handle. A handle of this graph always has one; any other
reads as a nameless node. -/
def get (g : DependencyGraph) (n : DependencyId) : DependencyNode :=
  g.nodes.getD n.index ⟨"", ⟨0⟩, .group { decl := ⟨0⟩ }, .notStarted⟩

def name (g : DependencyGraph) (n : DependencyId) : String := (g.get n).name

def ids (g : DependencyGraph) : List DependencyId :=
  (List.range g.nodes.length).map DependencyId.mk

def stages (g : DependencyGraph) : List DependencyId :=
  g.ids.filter fun n => (g.get n).isStage

def addNode (g : DependencyGraph) (n : DependencyNode) :
    DependencyId × DependencyGraph :=
  (⟨g.nodes.length⟩, { g with nodes := g.nodes ++ [n] })

def modify (g : DependencyGraph) (n : DependencyId)
    (f : DependencyNode → DependencyNode) : DependencyGraph :=
  { g with nodes := g.nodes.modify n.index f }

/-- The route by which one node depends on another, if it does. -/
def route? (g : DependencyGraph) (dependant dependency : DependencyId) :
    Option Route :=
  (g.edges.find? fun e =>
    e.dependant == dependant && e.dependency == dependency).map (·.route)

/-- Whether one node depends directly on another. -/
def dependsOn (g : DependencyGraph) (dependant dependency : DependencyId) :
    Bool :=
  (g.route? dependant dependency).isSome

/-- The nodes that a node depends on, in order of addition. -/
def dependencies (g : DependencyGraph) (n : DependencyId) :
    List DependencyId :=
  g.ids.filter (g.dependsOn n)

/-- The nodes that depend on a node, in order of addition. -/
def dependants (g : DependencyGraph) (n : DependencyId) : List DependencyId :=
  g.ids.filter (g.dependsOn · n)

/-- Record that one node depends on another by a route. The answer is
whether this is new; a known dependency must have the same route. -/
def addDependency (g : DependencyGraph) (dependant dependency : DependencyId)
    (route : Route) : Except Failure (Bool × DependencyGraph) :=
  match g.route? dependant dependency with
  | some existing =>
      if existing.sameAs route then .ok (false, g)
      else .error (.inconsistentAccessPath (g.name dependant)
        (g.name dependency) existing.text route.text)
  | none =>
      .ok (true, { g with
        edges := g.edges ++ [⟨dependant, dependency, route⟩] })

-- =============================================================== look-up

theorem mem_ids {g : DependencyGraph} {n : DependencyId} :
    n ∈ g.ids ↔ n.index < g.nodes.length := by
  simp only [ids, List.mem_map, List.mem_range]
  constructor
  · rintro ⟨i, hi, rfl⟩
    exact hi
  · exact fun h => ⟨n.index, h, rfl⟩

theorem mem_dependencies {g : DependencyGraph} {n d : DependencyId} :
    d ∈ g.dependencies n ↔ d ∈ g.ids ∧ g.dependsOn n d = true :=
  List.mem_filter

theorem mem_dependants {g : DependencyGraph} {n d : DependencyId} :
    d ∈ g.dependants n ↔ d ∈ g.ids ∧ g.dependsOn d n = true :=
  List.mem_filter

/-- Among the nodes of a graph, being a dependant is the converse of being
a dependency. -/
theorem mem_dependants_iff_mem_dependencies {g : DependencyGraph}
    {n d : DependencyId} (hn : n ∈ g.ids) (hd : d ∈ g.ids) :
    d ∈ g.dependants n ↔ n ∈ g.dependencies d := by
  simp [mem_dependants, mem_dependencies, hn, hd]

/-- A dependency that was added is there afterwards, and all others stay
as they were. -/
theorem dependsOn_of_addDependency {g g' : DependencyGraph}
    {dependant dependency : DependencyId} {route : Route} {new : Bool}
    (h : g.addDependency dependant dependency route = .ok (new, g'))
    (a b : DependencyId) :
    g'.dependsOn a b
      = (g.dependsOn a b || (a == dependant && b == dependency)) := by
  rw [addDependency] at h
  split at h
  · rename_i existing hr
    split at h
    · simp only [Except.ok.injEq, Prod.mk.injEq] at h
      rw [← h.2]
      by_cases hab : a = dependant ∧ b = dependency
      · simp [dependsOn, hab.1, hab.2, hr]
      · have : (a == dependant && b == dependency) = false := by
          simpa using hab
        simp [this]
    · simp at h
  · simp only [Except.ok.injEq, Prod.mk.injEq] at h
    rw [← h.2]
    simp only [dependsOn, route?, List.find?_append, Option.isSome_map,
      Option.isSome_or]
    congr 1
    by_cases hab : a = dependant ∧ b = dependency
    · simp [hab.1, hab.2]
    · have : (a == dependant && b == dependency) = false := by simpa using hab
      simp only [List.find?_cons, List.find?_nil, this]
      rw [show (dependant == a && dependency == b) = false by
        rw [← this, BEq.comm (a := a), BEq.comm (a := b)]]
      rfl

end DependencyGraph

end Stagewise
