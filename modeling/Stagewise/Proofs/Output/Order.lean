/-
The order of the members of a compiled type.

# The statement

In every type of the result, nested ones included, the fields that belong
to stages stand in the order of the stages, and the methods that play roles
for nodes in the order of the nodes, those of one node in the order of their
categories (`InOrder`). So what belongs to a node stands behind all that
belongs to what the node depends on.

The order of the nodes is the topological order of the dependency graph.
A final field belongs to no stage: the completion of final fields gives it
and its getter a place of their own, whatever binding their identities have
(`compile_disorders`).

# The proof

After the analysis members are bound to nodes only, and these have the
positions of the topological order; guards and lifecycle bind methods to
nodes that there are and leave the graph (`Placed`). The keys of the
bindings are those that the members of the result are sorted by
(`finished_keyed`), and a key holds the position before the category.
-/
import Stagewise.Proofs.Analysis.Passes
import Stagewise.Proofs.Analysis.Positions
import Stagewise.Proofs.Conservation
import Stagewise.Proofs.Lifecycle.GlobalClose
import Stagewise.Proofs.Output.Keys

namespace Stagewise

open Output Step
open Lifecycle (pairSources pairTree)
open Relation (TransGen)

variable {sources : Sources} {tree : Composition} {options : Options}
variable {c c' : Compilation} {d : TypeDecl}

-- =================================================== the order of the members

/-- That a field belongs to a stage and can change. -/
structure Owned (b : Bindings) (f : Field) (n : DependencyId) : Prop where
  stage : b.stageOfField? f.id = some n
  changes : f.modifiers.isFinal = false

/-- That a method of a type plays a role for a node and is not the getter of
a final field. -/
structure Plays (b : Bindings) (d : TypeDecl) (m : Method) (n : DependencyId)
    (r : Role) :
    Prop where
  role : b.roleOf? m.id = some (n, r)
  own : ¬ IsGetter d m

/-- The place of a node in the topological order. -/
def Compilation.place (c : Compilation) (n : DependencyId) : Nat :=
  c.graph.topologicalOrder.idxOf n

/-- That the members of a type have their keys from the topological order,
and stand in this order: fields by the places of their stages, and methods by
those of their nodes and then by category. What belongs to a node stands
behind what belongs to the nodes that it depends on. -/
structure InOrder (c : Compilation) (d : TypeDecl) : Prop where
  fieldKey : ∀ f ∈ d.fields, ∀ n, Owned c.bindings f n →
    n ∈ c.graph.topologicalOrder ∧ f.layout = 10 * (c.place n + 1 : Nat)
  methodKey : ∀ m ∈ d.methods, ∀ n r, Plays c.bindings d m n r →
    n ∈ c.graph.topologicalOrder
      ∧ m.layout = 10 * (c.place n + 1 : Nat) + r.category.offset
  fields : d.fields.Pairwise fun f g => ∀ n m, Owned c.bindings f n →
    Owned c.bindings g m →
    c.place n ≤ c.place m
  methods : d.methods.Pairwise fun f g => ∀ n r m s,
    Plays c.bindings d f n r → Plays c.bindings d g m s →
    c.place n < c.place m ∨ n = m ∧ r.category.offset ≤ s.category.offset
  fieldsBehind : ∀ n m, TransGen c.graph.Depends n m →
      d.fields.Pairwise fun f g =>
    ¬ (Owned c.bindings f n ∧ Owned c.bindings g m)
  methodsBehind : ∀ n m, TransGen c.graph.Depends n m →
      d.methods.Pairwise fun f g =>
    ∀ r s, ¬ (Plays c.bindings d f n r ∧ Plays c.bindings d g m s)

-- ============================================================= bound to nodes

/-- That all members are bound to nodes of a graph without circles, and that
these have the positions of its topological order, counted from one. -/
structure Placed (c : Compilation) : Prop where
  acyclic : c.graph.Acyclic
  field : ∀ id n, c.bindings.stageOfField? id = some n → n ∈ c.graph.ids
  role : ∀ id x, c.bindings.roleOf? id = some x → x.1 ∈ c.graph.ids
  position : ∀ n ∈ c.graph.ids,
    c.bindings.position? n = some (Int.ofNat (1 + c.place n))

/-- An analysis places what it binds. -/
theorem Analysis.analyse_placed (h : Fresh c) :
    Ensures analyse c fun _ c' => Placed c' := by
  unfold analyse Stagewise.checkWrites
  simp only [ensures_bind, ensures_get, ensures_ofExcept, ensures_pure]
  refine bindReferences_frame.mono ?_
  rintro _ _ ⟨t, rs, rfl⟩
  have hempty :
      Assigned { c with
      tree := t, bindings := { c.bindings with references := rs } } :=
    assigned_of_empty h.graph h.fields h.methods
  refine (discoverNodes_assigned hempty).mono ?_
  rintro _ c₁ ⟨hassigned, -, -⟩ _ _
  refine linkNodes_frame.mono ?_
  rintro _ _ ⟨es, rfl⟩
  unfold placeNodes
  simp only [ensures_bind, ensures_get, ensures_ofExcept,
    ensures_modifyBindings, ensures_pure]
  intro _ hcheck
  have hacyclic := DependencyGraph.checkAcyclic_eq_ok_iff.1 hcheck
  obtain ⟨ps, hps⟩ : ∃ ps, setPositions c₁.bindings 1
      (DependencyGraph.topologicalOrder { c₁.graph with edges := es })
        = { c₁.bindings with positions := ps } := setPositions_frame
  refine ⟨hacyclic, fun id n hn => ?_, fun id x hx => ?_,
    fun n hn => position?_topologicalOrder hacyclic hn⟩
  · dsimp only at hn
    rw [hps] at hn
    exact hassigned.mem_ids_of_field hn
  · dsimp only at hx
    rw [hps] at hx
    exact hassigned.mem_ids_of_role hx

/-- Guards and lifecycle place what they bind. -/
theorem Lifecycle.Evolves.placed (h : Evolves c c') (hc : Placed c) :
    Placed c' := by
  refine ⟨?_, fun id n hn => ?_, h.mem_ids_of_role hc.role, fun n hn => ?_⟩
  · unfold DependencyGraph.Acyclic
    rw [h.sameShape.links.depends]
    exact hc.acyclic
  · rw [h.mem_ids]
    rw [h.bindings (k := (·.stageOfField? id)) fun _ _ => rfl] at hn
    exact hc.field id n hn
  · rw [h.mem_ids] at hn
    unfold Compilation.place
    rw [h.bindings (k := (·.position? n)) fun _ _ => rfl,
      h.sameShape.links.topologicalOrder]
    exact hc.position n hn

theorem addLifecycle_placed (hc : Placed c) :
    Ensures addLifecycle c fun _ c' => Placed c' := by
  refine ensures_addLifecycle fun c₁ s hevolves _ => ?_
  have hplaced := hevolves.placed hc
  unfold Lifecycle.addGlobalClose
  simp only [ensures_bind, ensures_get]
  split
  · exact ensures_throw
  · simp only [ensures_bind, ensures_modifySources, ensures_pure]
    exact ⟨hplaced.acyclic, hplaced.field, hplaced.role, hplaced.position⟩

theorem compile_placed {compiled : Compiled}
    (h : compile sources tree options = .ok compiled) :
    Placed (withLifecycle sources tree options) := by
  obtain ⟨report, c₁, -, hanalyse, hlifecycle, -⟩ := compile_runs h
  have hplaced := Analysis.analyse_placed ⟨rfl, rfl, rfl⟩ report c₁ hanalyse
  exact addLifecycle_placed hplaced _ _ hlifecycle

-- ================================================================= the result

theorem category_offset_lt (a : Category) : a.offset < 10 := by
  cases a <;> decide

variable {f : Field} {m : Method} {n : DependencyId} {r : Role}

namespace Placed

theorem mem_order (h : Placed c) (hn : n ∈ c.graph.ids) :
    n ∈ c.graph.topologicalOrder :=
  (DependencyGraph.mem_topologicalOrder h.acyclic).2 hn

theorem fieldLayout (h : Placed c)
    (hf : c.bindings.stageOfField? f.id = some n) :
    c.bindings.fieldLayout f.id = 10 * (c.place n + 1 : Nat) := by
  unfold Bindings.fieldLayout Bindings.slot?
  rw [hf, Option.bind_some, h.position n (h.field _ _ hf)]
  simp only [Option.map_some, Option.getD_some, Int.ofNat_eq_natCast]
  omega

theorem methodLayout (h : Placed c)
    (hm : c.bindings.roleOf? m.id = some (n, r)) :
    c.bindings.methodLayout m.id = 10 * (c.place n + 1 : Nat)
      + r.category.offset := by
  unfold Bindings.methodLayout Bindings.slot?
  rw [hm]
  simp only [h.position n (h.role _ _ hm), Option.map_some,
    Int.ofNat_eq_natCast]
  omega

/-- What is sorted by the keys of its bindings is in order. -/
theorem inOrder (h : Placed c) (hkeyed : Keyed c.bindings d)
    (hsorted : Sorted d) :
    InOrder c d := by
  have hfield : ∀ f ∈ d.fields, ∀ n, Owned c.bindings f n →
      f.layout = 10 * (c.place n + 1 : Nat) := fun f hf n hn =>
    (hkeyed.field f hf hn.changes).trans (h.fieldLayout hn.stage)
  have hmethod : ∀ m ∈ d.methods, ∀ n r, Plays c.bindings d m n r →
      m.layout = 10 * (c.place n + 1 : Nat)
        + r.category.offset := fun m hm n r hn =>
    (hkeyed.method m hm hn.own).trans (h.methodLayout hn.role)
  have hfields : d.fields.Pairwise fun f g => ∀ n m, Owned c.bindings f n →
      Owned c.bindings g m → c.place n ≤ c.place m := by
    refine hsorted.fields.imp_of_mem fun {f g} hf hg hle n m hn hm => ?_
    rw [hfield f hf n hn, hfield g hg m hm] at hle
    omega
  have hmethods : d.methods.Pairwise fun f g => ∀ n r m s,
      Plays c.bindings d f n r → Plays c.bindings d g m s →
      c.place n < c.place m ∨ n = m
        ∧ r.category.offset ≤ s.category.offset := by
    refine hsorted.methods.imp_of_mem fun {f g} hf hg hle n r m s hn hm => ?_
    rw [hmethod f hf n r hn, hmethod g hg m s hm] at hle
    -- a key holds the place before the category
    have hr := category_offset_lt r.category
    have hs := category_offset_lt s.category
    obtain hlt | heq : c.place n < c.place m
      ∨ c.place n = c.place m := by omega
    · exact Or.inl hlt
    · refine Or.inr ⟨?_, by omega⟩
      exact (List.idxOf_inj (h.mem_order (h.role _ _ hn.role))).1 heq
  have hbehind : ∀ {n m}, TransGen c.graph.Depends n m →
      c.place m < c.place n := fun hnm =>
    DependencyGraph.idxOf_topologicalOrder_lt h.acyclic hnm
  refine ⟨fun f hf n hn => ⟨h.mem_order (h.field _ _ hn.stage),
    hfield f hf n hn⟩,
    fun m hm n r hn => ⟨h.mem_order (h.role _ _ hn.role), hmethod m hm n r hn⟩,
    hfields, hmethods, fun n m hnm => ?_, fun n m hnm => ?_⟩
  · refine hfields.imp fun hle ⟨hn, hm⟩ => ?_
    exact Nat.not_le.2 (hbehind hnm) (hle n m hn hm)
  · refine hmethods.imp fun hle r s ⟨hn, hm⟩ => ?_
    obtain hlt | ⟨rfl, -⟩ := hle n r m s hn hm
    · exact Nat.lt_asymm hlt (hbehind hnm)
    · exact Nat.lt_irrefl _ (hbehind hnm)

end Placed

/-- A compilation puts the members of every type in order, nested types
included. -/
theorem compile_orders {compiled : Compiled}
    (htree : Composition.Built sources tree)
    (h : compile sources tree options = .ok compiled) :
    ∀ p ∈ typesAt [] compiled.merged,
      InOrder (withLifecycle sources tree options) p.2 := by
  have ht := htree.formed
  obtain ⟨s, d, placed, hproduces⟩ := compile_produces ht h
  have hformed : Composition.Formed _ _ :=
    hproduces.form.formed (ht.sameHeads hproduces.heads)
  obtain ⟨t, rfl⟩ := placedType?_places hformed hproduces.placing
  rintro ⟨path, u⟩ hu
  rw [hproduces.finishing, mem_typesAt_root] at hu
  obtain ⟨hkeyed, hsorted⟩ :=
    finished_keyed (withLifecycle sources tree options).bindings t path u hu
  exact (compile_placed h).inOrder hkeyed hsorted

/-- The type with a stage `X` and a stage `Y` that is made from it has its
members in order. -/
theorem compile_orders_pair :
    ∃ compiled, compile pairSources pairTree {} = .ok compiled
    ∧ InOrder (withLifecycle pairSources pairTree {}) compiled.merged
    ∧ compiled.merged.fields.map Field.name = ["x", "y"] := by
  obtain ⟨compiled, hcompile, hfields⟩ :=
    exists_compiled (s := pairSources) (t := pairTree)
    (o := {}) (p := fun compiled => compiled.merged.fields.map
      Field.name == ["x", "y"])
    (by decide +kernel)
  have htree : Composition.Built pairSources pairTree :=
    .add (n := Composition.root) (d := ⟨0⟩) .start (by decide) rfl
  have horders := compile_orders htree hcompile
  have hroot := horders ([], compiled.merged) (mem_typesAt_root.2 rfl)
  exact ⟨compiled, hcompile, hroot, beq_iff_eq.1 hfields⟩

-- =============================================================== final fields

/-- That the fields of a type whose identities are bound to stages are in the
order of the stages, whether they are final or not. -/
def FieldsFollow (c : Compilation) (d : TypeDecl) : Prop :=
  d.fields.Pairwise fun f g => ∀ n ∈ c.bindings.stageOfField? f.id,
    ∀ m ∈ c.bindings.stageOfField? g.id, c.place n ≤ c.place m

/-- That the methods of a type whose identities are bound to nodes are in the
order of the nodes and of their categories, getters included. -/
def MethodsFollow (c : Compilation) (d : TypeDecl) : Prop :=
  d.methods.Pairwise fun f g => ∀ x ∈ c.bindings.roleOf? f.id,
    ∀ y ∈ c.bindings.roleOf? g.id,
    c.place x.1 < c.place y.1 ∨ x.1 = y.1
      ∧ x.2.category.offset ≤ y.2.category.offset

instance (c : Compilation) (d : TypeDecl) : Decidable (FieldsFollow c d) :=
  inferInstanceAs (Decidable (List.Pairwise _ _))

instance (c : Compilation) (d : TypeDecl) : Decidable (MethodsFollow c d) :=
  inferInstanceAs (Decidable (List.Pairwise _ _))

/-- A type `A` with the stages `X`, `A` and `Z`, each made from the one
before, and a type `B` with a nested type that is named `A` too. A field of
that type has the identity of the field `a` and is final. -/
def shadowSources : Sources :=
  let stage (name : String) : Field :=
    { name, type := .int, init := some (.literal (.int (-1))) }
  let init (name : String) (body : Block) : Method :=
    { name, returns := .void, body := some body }
  let copy (target source : String) : Block :=
    [.expr (.assign none (.field none ⟨"A", target⟩)
      (.field none ⟨"A", source⟩))]
  let a : TypeDecl :=
    { TypeDecl.participating "A" with
      fields := [stage "x", stage "a", stage "z"]
      methods := [init "initX" [], init "initA" (copy "a" "x"),
        init "initZ" (copy "z" "a")] }
  let shadow : TypeDecl :=
    { name := "A"
      fields := [{ name := "x", type := .int },
        { name := "a", type := .int, modifiers := { isFinal := true },
          init := some (.literal (.int 0)) }]
      methods := [init "initX" []] }
  let b : TypeDecl :=
    { TypeDecl.participating "B" with nested := [shadow.assignIdentities] }
  { decls := [a, b].map TypeDecl.assignIdentities }

/-- Both types at the root. -/
def shadowTree : Composition :=
  { nodes := [{ decls := [⟨0⟩, ⟨1⟩] }]
    leafNodes := [(⟨0⟩, ⟨0⟩), (⟨1⟩, ⟨0⟩)]
    linkNodes := [(⟨0⟩, ⟨0⟩), (⟨1⟩, ⟨0⟩)] }

theorem built_shadowTree : Composition.Built shadowSources shadowTree := by
  have hstart : Composition.Built shadowSources {} := .start
  have hfirst := hstart.add (n := ⟨0⟩) (d := ⟨0⟩) Nat.zero_lt_one rfl
  exact hfirst.add (n := ⟨0⟩) (d := ⟨1⟩) Nat.zero_lt_one rfl

/-- The final field of the nested type comes before the field `x` of the
stage that its own stage depends on, and its getter before the init method. -/
theorem compile_disorders : Composition.Built shadowSources shadowTree
    ∧ ∃ compiled, compile shadowSources shadowTree {} = .ok compiled
    ∧ ∃ p ∈ typesAt [] compiled.merged,
      ¬ FieldsFollow (withLifecycle shadowSources shadowTree {}) p.2
        ∧ ¬ MethodsFollow (withLifecycle shadowSources shadowTree {}) p.2 := by
  obtain ⟨compiled, hcompile, hdisorders⟩ :=
    exists_compiled (s := shadowSources)
    (t := shadowTree) (o := {})
    (p := fun compiled => decide (∃ p ∈ typesAt [] compiled.merged,
      ¬ FieldsFollow (withLifecycle shadowSources shadowTree {}) p.2
        ∧ ¬ MethodsFollow (withLifecycle shadowSources shadowTree {}) p.2))
    (by decide +kernel)
  exact ⟨built_shadowTree, compiled, hcompile, of_decide_eq_true hdisorders⟩

end Stagewise
