/-
The order in which dependencies are recorded is of no consequence.

# The statement

Calls that record dependencies are made one after another on a graph that
has its nodes and no dependencies yet. In whichever order they are made,
some call fails exactly when two of them name the same ends and routes
that pass through different composition nodes. The dependencies in the
graph afterwards are the ends that were named, each once, and all that is
read off the graph is the same: dependencies, dependants, the outcome of
the check for cycles, and both orders (`recordAll_perm`).

# The argument

What the calls leave is told by two look-ups. The first call for a pair of
ends decides its route (`route?_record`), so a run without failures means
that every later call for this pair agrees with the first one, hence that
all calls for it agree (`not_fails_iff`). And a pair is recorded exactly
when some call names it (`dependsOn_recordAll`), failing or not, for a call
can only fail on a pair that is there already. Neither asks for the order
of the calls.

The storage order of the edges does depend on it. But no query shows that
order: dependencies and dependants are listed in the order of the nodes, so
graphs that are `Alike`, equal but for the storage of their edges, answer
all queries alike.
-/
import Stagewise.Analysis.Links
import Stagewise.Proofs.Dependency.Alike
import Stagewise.Proofs.Dependency.Order
import Stagewise.Proofs.Step

namespace Stagewise

/-- The nodes that a dependency is between. -/
def Dependency.ends (e : Dependency) : DependencyId × DependencyId :=
  (e.dependant, e.dependency)

namespace DependencyGraph

variable {g g' : DependencyGraph} {a b n : DependencyId} {e : Dependency}
variable {calls : List Dependency}

-- ================================================================ recording

/-- Record a dependency. A call that fails leaves the graph as it was. -/
def record (g : DependencyGraph) (e : Dependency) :
    Except Failure Bool × DependencyGraph :=
  match g.addDependency e.dependant e.dependency e.route with
  | .ok (new, g') => (.ok new, g')
  | .error f => (.error f, g)

/-- Record dependencies one after another, each on what the calls before
left. -/
def recordAll (g : DependencyGraph) :
    List Dependency → List (Except Failure Bool) × DependencyGraph
  | [] => ([], g)
  | e :: calls =>
      let (answer, g) := g.record e
      let (answers, g) := g.recordAll calls
      (answer :: answers, g)

/-- That some call fails. -/
def Fails (g : DependencyGraph) (calls : List Dependency) : Prop :=
  ∃ f, .error f ∈ (g.recordAll calls).1

/-- That the route there is for a call's ends, if any, passes through the
same composition nodes as that of the call. -/
def Agrees (g : DependencyGraph) (e : Dependency) : Prop :=
  ∀ route ∈ g.route? e.dependant e.dependency, route.nodes = e.route.nodes

/-- That the routes of any two calls for the same ends pass through the
same composition nodes. -/
def Agree (calls : List Dependency) : Prop :=
  ∀ a ∈ calls, ∀ b ∈ calls, a.ends = b.ends → a.route.nodes = b.route.nodes

/-- Linking an expression records what it reaches in this way. -/
theorem runOn_linkExpr {c : Compilation} {x : Expr} {route : Route}
    {d : DependencyId}
    (h : Analysis.reached? c n x = some (route, d)) (hne : d ≠ n) :
    (Analysis.linkExpr n x).runOn c
      = ((c.graph.record ⟨n, d, route⟩).1,
          { c with graph := (c.graph.record ⟨n, d, route⟩).2 }) := by
  unfold Analysis.linkExpr record
  simp only [Step.runOn_bind, Step.runOn_get, h, if_neg hne,
    Step.runOn_ofExcept]
  cases c.graph.addDependency n d route with
  | error f => rfl
  | ok r => rfl

-- ================================================================= one call

/-- A call records a pair that is not there, and otherwise changes nothing:
it fails if the route that is there passes elsewhere. -/
theorem record_cases (g : DependencyGraph) (e : Dependency) :
    (g.route? e.dependant e.dependency = none
        ∧ g.record e = (.ok true, { g with edges := g.edges ++ [e] }))
      ∨ ∃ route, g.route? e.dependant e.dependency = some route
          ∧ (g.record e).2 = g
          ∧ (route.nodes = e.route.nodes ∧ (g.record e).1 = .ok false
            ∨ route.nodes ≠ e.route.nodes
            ∧ ∃ f, (g.record e).1 = .error f) := by
  unfold record addDependency
  cases g.route? e.dependant e.dependency with
  | none => exact .inl ⟨rfl, rfl⟩
  | some route =>
      refine .inr ⟨route, rfl, ?_⟩
      dsimp only
      by_cases hsame : route.sameAs e.route = true
      · rw [if_pos hsame]
        exact ⟨rfl, .inl ⟨Route.sameAs_iff.1 hsame, rfl⟩⟩
      · rw [if_neg hsame]
        exact ⟨rfl, .inr ⟨fun hn => hsame (Route.sameAs_iff.2 hn), _, rfl⟩⟩

theorem record_of_error {f : Failure} (h : (g.record e).1 = .error f) :
    (g.record e).2 = g := by
  rcases record_cases g e with ⟨-, hnew⟩ | ⟨_, -, hkept, -⟩
  · rw [hnew] at h
    cases h
  · exact hkept

/-- A call fails exactly when a route that passes elsewhere is there. -/
theorem record_eq_error_iff :
    (∃ f, (g.record e).1 = .error f) ↔ ¬ g.Agrees e := by
  unfold Agrees
  rcases record_cases g e with ⟨hnone, hnew⟩
    | ⟨route, hroute, -, ⟨hsame, hok⟩ | ⟨hne, hf⟩⟩
  · simp [hnone, hnew]
  · simp [hroute, hok, hsame]
  · simpa [hroute, hf] using hne

@[simp] theorem nodes_record : (g.record e).2.nodes = g.nodes := by
  rcases record_cases g e with ⟨-, hnew⟩ | ⟨_, -, hkept, -⟩
  · rw [hnew]
  · rw [hkept]

/-- The route of the first call for a pair of ends stays. -/
theorem route?_record : (g.record e).2.route? a b
    = (g.route? a b).or (if e.ends = (a, b) then some e.route else none) := by
  rcases record_cases g e with ⟨-, hnew⟩ | ⟨route, hroute, hkept, -⟩
  · rw [hnew]
    unfold route? Dependency.ends
    rw [List.find?_append, Option.map_or, List.find?_singleton]
    congr 1
    by_cases h : e.dependant = a ∧ e.dependency = b
    · simp [h.1, h.2]
    · simp [h]
  · rw [hkept]
    by_cases h : e.ends = (a, b)
    · obtain ⟨rfl, rfl⟩ := Prod.mk.inj h
      rw [hroute, Option.some_or]
    · rw [if_neg h, Option.or_none]

/-- After a call that does not fail, another one agrees with the graph when
it did before and agrees with that call. -/
theorem agrees_record {x : Dependency} (h : g.Agrees e) :
    (g.record e).2.Agrees x
      ↔ g.Agrees x ∧ (e.ends = x.ends → e.route.nodes = x.route.nodes) := by
  unfold Agrees
  rw [route?_record]
  by_cases hends : e.ends = x.ends
  · obtain ⟨hd, hp⟩ := Prod.mk.inj hends
    rw [← hd, ← hp,
      if_pos (show e.ends = (e.dependant, e.dependency) from rfl)]
    cases hroute : g.route? e.dependant e.dependency with
    | none => simp [hends]
    | some route =>
        have hsame : route.nodes = e.route.nodes := h route hroute
        simp [hends, hsame]
  · rw [if_neg (show e.ends ≠ (x.dependant, x.dependency) from hends),
      Option.or_none]
    exact (and_iff_left fun he => absurd he hends).symm

/-- The ends stored are the pairs recorded. -/
theorem mem_ends_iff : (a, b) ∈ g.edges.map Dependency.ends
    ↔ g.dependsOn a b = true := by
  unfold dependsOn route? Dependency.ends
  simp [List.find?_isSome]

/-- No pair is stored twice. -/
theorem nodup_record (h : (g.edges.map Dependency.ends).Nodup) :
    ((g.record e).2.edges.map Dependency.ends).Nodup := by
  rcases record_cases g e with ⟨hnone, hnew⟩ | ⟨_, -, hkept, -⟩
  · have hfresh : e.ends ∉ g.edges.map Dependency.ends := by
      intro hmem
      have hthere := mem_ends_iff.1 hmem
      rw [dependsOn, hnone] at hthere
      cases hthere
    rw [hnew, List.map_append, List.map_singleton, ← List.concat_eq_append]
    exact h.concat hfresh
  · rw [hkept]
    exact h

-- ================================================================= all calls

@[simp] theorem recordAll_cons :
    g.recordAll (e :: calls)
      = ((g.record e).1 :: ((g.record e).2.recordAll calls).1,
          ((g.record e).2.recordAll calls).2) := rfl

theorem nodes_recordAll : (g.recordAll calls).2.nodes = g.nodes := by
  induction calls generalizing g with
  | nil => rfl
  | cons e calls ih => rw [recordAll_cons, ih, nodes_record]

theorem nodup_recordAll (h : (g.edges.map Dependency.ends).Nodup) :
    ((g.recordAll calls).2.edges.map Dependency.ends).Nodup := by
  induction calls generalizing g with
  | nil => exact h
  | cons e calls ih => exact ih (nodup_record h)

/-- Afterwards those pairs are recorded that were, and those that a call
names. -/
theorem dependsOn_recordAll : (g.recordAll calls).2.dependsOn a b = true
    ↔ g.dependsOn a b = true ∨ (a, b) ∈ calls.map Dependency.ends := by
  induction calls generalizing g with
  | nil => exact (or_iff_left List.not_mem_nil).symm
  | cons e calls ih =>
      have hone : (g.record e).2.dependsOn a b = true
          ↔ g.dependsOn a b = true ∨ (a, b) = e.ends := by
        unfold dependsOn
        rw [route?_record, Option.isSome_or, Bool.or_eq_true,
          eq_comm (a := (a, b))]
        split <;> simp [*]
      rw [recordAll_cons, ih, hone, List.map_cons, List.mem_cons, or_assoc]

theorem fails_cons :
    g.Fails (e :: calls) ↔ (∃ f, (g.record e).1 = .error f)
      ∨ (g.record e).2.Fails calls := by
  unfold Fails
  rw [recordAll_cons, ← exists_or]
  refine exists_congr fun f => ?_
  rw [List.mem_cons, eq_comm]

theorem agree_cons : Agree (e :: calls)
    ↔ (∀ x ∈ calls, e.ends = x.ends → e.route.nodes = x.route.nodes)
    ∧ Agree calls := by
  constructor
  · intro h
    exact ⟨fun x hx => h e List.mem_cons_self x (List.mem_cons_of_mem _ hx),
      fun x hx y hy => h x (List.mem_cons_of_mem _ hx) y
        (List.mem_cons_of_mem _ hy)⟩
  · rintro ⟨hfirst, hrest⟩ x hx y hy hends
    rcases List.mem_cons.1 hx with rfl | hx'
    · rcases List.mem_cons.1 hy with rfl | hy'
      · rfl
      · exact hfirst y hy' hends
    · rcases List.mem_cons.1 hy with rfl | hy'
      · exact (hfirst x hx' hends.symm).symm
      · exact hrest x hx' y hy' hends

/-- No call fails exactly when all of them agree with the graph and with
one another. The induction is on the calls, over all graphs: what the first
call records is there for the others. -/
theorem not_fails_iff : ¬ g.Fails calls ↔ (∀ e ∈ calls, g.Agrees e)
    ∧ Agree calls := by
  induction calls generalizing g with
  | nil => simp [Fails, recordAll, Agree]
  | cons e calls ih =>
      rw [fails_cons, not_or, ih, record_eq_error_iff, not_not, agree_cons,
        List.forall_mem_cons, and_assoc]
      refine and_congr_right fun hfirst => ?_
      simp only [agrees_record hfirst, forall_and, and_assoc]

-- ================================================================ any order

/-- On a graph without dependencies, some call fails exactly when two calls
disagree. -/
theorem fails_iff {nodes : List DependencyNode} :
    Fails { nodes } calls ↔ ¬ Agree calls := by
  rw [← not_iff_not, not_not, not_fails_iff]
  exact and_iff_right fun _ _ _ hroute => nomatch hroute

theorem agree_perm {calls' : List Dependency} (h : calls.Perm calls') :
    Agree calls ↔ Agree calls' := by
  unfold Agree
  simp only [h.mem_iff]

/-- On any graph, calls in another order leave an alike graph. -/
theorem alike_recordAll {calls' : List Dependency} (h : calls.Perm calls') :
    Alike (g.recordAll calls).2 (g.recordAll calls').2 := by
  refine ⟨nodes_recordAll.trans nodes_recordAll.symm, ?_⟩
  funext a b
  rw [Bool.eq_iff_iff, dependsOn_recordAll, dependsOn_recordAll,
    (h.symm.map Dependency.ends).mem_iff]

/-- That a graph stores the pairs that calls name, each once. -/
def Stores (g : DependencyGraph) (calls : List Dependency) : Prop :=
  (g.edges.map Dependency.ends).Nodup
    ∧ ∀ ends, ends ∈ g.edges.map Dependency.ends
    ↔ ends ∈ calls.map Dependency.ends

theorem stores_recordAll {nodes : List DependencyNode} :
    Stores (recordAll { nodes } calls).2 calls := by
  refine ⟨nodup_recordAll List.nodup_nil, fun ends => ?_⟩
  rw [mem_ends_iff, dependsOn_recordAll, ← mem_ends_iff]
  exact or_iff_right List.not_mem_nil

/-- Calls that record dependencies may be made in any order. Some call fails
in one order as in any other, and that is when two of them name the same
ends and routes that pass through different composition nodes; a failing
call changes nothing. In every order each pair of ends that was named is
stored once, whether or not a call failed, and the dependencies, the
dependants, the check for cycles and the orders come out the same. -/
theorem recordAll_perm {nodes : List DependencyNode}
    {calls calls' : List Dependency} (h : calls.Perm calls') :
    let g : DependencyGraph := { nodes }
    let one := (g.recordAll calls).2
    let other := (g.recordAll calls').2
    (g.Fails calls ↔ g.Fails calls')
      ∧ (g.Fails calls ↔ ∃ a ∈ calls, ∃ b ∈ calls,
          a.ends = b.ends ∧ a.route.nodes ≠ b.route.nodes)
      ∧ (∀ (g : DependencyGraph) (e : Dependency) (f : Failure),
          (g.record e).1 = .error f → (g.record e).2 = g)
      ∧ (one.Stores calls ∧ other.Stores calls)
      ∧ (∀ n, one.dependencies n = other.dependencies n)
      ∧ (∀ n, one.dependants n = other.dependants n)
      ∧ one.checkAcyclic = other.checkAcyclic
      ∧ one.topologicalOrder = other.topologicalOrder
      ∧ ∀ n, one.sortedDependants n = other.sortedDependants n := by
  intro g one other
  have halike : Alike other one := alike_recordAll h.symm
  have hfails : g.Fails calls ↔ g.Fails calls' := by
    rw [fails_iff, fails_iff, agree_perm h]
  have hdisagree : g.Fails calls ↔ ∃ a ∈ calls, ∃ b ∈ calls,
      a.ends = b.ends ∧ a.route.nodes ≠ b.route.nodes := by
    rw [fails_iff, Agree]
    push Not
    rfl
  have hother : other.Stores calls := by
    refine ⟨stores_recordAll.1, fun ends => ?_⟩
    rw [(h.map Dependency.ends).mem_iff]
    exact stores_recordAll.2 ends
  exact ⟨hfails, hdisagree, fun _ _ _ => record_of_error,
    ⟨stores_recordAll, hother⟩, congrFun halike.links.dependencies,
    congrFun halike.links.dependants,
    halike.checkAcyclic, halike.links.topologicalOrder,
    congrFun halike.links.sortedDependants⟩

/-- Calls by which `C` depends on `B` and `M`, and `M` on `B`; on `B` by two
fields that lead to one node. -/
def twofold : List Dependency :=
  [⟨⟨3⟩, ⟨1⟩, { steps := [⟨"b", ⟨2⟩⟩] }⟩, ⟨⟨3⟩, ⟨2⟩, {}⟩, ⟨⟨2⟩, ⟨1⟩, {}⟩,
    ⟨⟨3⟩, ⟨1⟩, { steps := [⟨"other", ⟨2⟩⟩] }⟩]

/-- Made backwards, the calls keep the other field and store the edges in
another order, and the dependants are sorted the same. -/
theorem sortedDependants_twofold :
    let g : DependencyGraph := { nodes := diamond.nodes }
    ¬ g.Fails twofold ∧ ¬ g.Fails twofold.reverse
      ∧ (g.recordAll twofold).1 = [.ok true, .ok true, .ok true, .ok false]
      ∧ (g.recordAll twofold).2.edges ≠ (g.recordAll twofold.reverse).2.edges
      ∧ (g.recordAll twofold).2.sortedDependants ⟨1⟩ = [⟨2⟩, ⟨3⟩]
      ∧ (g.recordAll twofold.reverse).2.sortedDependants ⟨1⟩ = [⟨2⟩, ⟨3⟩] := by
  intro g
  obtain ⟨hfails, hdisagree, -, -, -, -, -, -, hsorted⟩ :=
    @recordAll_perm diamond.nodes _ _ (List.reverse_perm twofold).symm
  have hok : ¬ g.Fails twofold := by
    rw [hdisagree]
    decide
  exact ⟨hok, fun h => hok (hfails.2 h), rfl, by decide, rfl,
    (hsorted ⟨1⟩).symm⟩

end DependencyGraph

end Stagewise
