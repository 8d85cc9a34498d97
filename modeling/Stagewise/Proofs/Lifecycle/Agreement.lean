/-
Linking and guarding agree on what a body accesses.

Linking looks at the bodies that there are and at the initial values that
resets take over; guarding rewrites bodies, the generated ones included.
What guarding rewrites behind the object at hand, or behind reference
fields from there (`ByReferences`), linking finds too, at the same stage:
bound reference fields lead somewhere, and no method group takes the place
of a stage where methods of interfaces are not those of links (`Linkable`).
So every guarded access of this kind goes along an edge, and once nodes are
placed to an earlier one (`guardNodes_follows_links`).
-/
import Stagewise.Proofs.Analysis.Frames
import Stagewise.Proofs.Analysis.Positions
import Stagewise.Proofs.Analysis.StandIns
import Stagewise.Proofs.Lifecycle.Reads

namespace Stagewise

open Compilation Step

variable {c c' c₀ c₁ : Compilation} {n d : DependencyId} {e : Expr}
variable {target : Option Expr}

namespace Analysis

-- =============================================================== the accesses

/-- That a target is the object at hand, or a reference field of a link
behind such a target. -/
inductive ThroughReferences (c : Compilation) : Option Expr → Prop
  | here : ThroughReferences c none
  | self (q : Option String) : ThroughReferences c (some (.self q))
  | field {target : Option Expr} {f : FieldRef} {site : ReferenceSite} :
      ThroughReferences c target → site ∈ referenceSites c →
        f.identity = site.field.id →
      ThroughReferences c (some (.field target f))

/-- That an expression reads a field or calls a method of such a target. -/
inductive ByReferences (c : Compilation) : Expr → Prop
  | read {target : Option Expr} {f : FieldRef} :
      ThroughReferences c target → ByReferences c (.field target f)
  | call {target : Option Expr} {m : MethodRef} {args : List Expr} :
      ThroughReferences c target → ByReferences c (.call target m args)

-- ================================================================= the passes

/-- What linking after discovery leaves for the guarding. -/
structure Linkable (c : Compilation) : Prop where
  discovered : Discovered c
  assigned : Assigned c
  linked : Linked c
  leads : ∀ site ∈ referenceSites c, ∃ leaf place,
    c.bindings.referenced? site.field.id = some leaf
      ∧ c.tree.nodeOf? leaf = some place
  /-- No method group stands in for a stage. -/
  own : ∀ id d, c.bindings.stageOfMethod? id = some d →
    ∀ place, c.tree.interfaceMethod? place id = none

/-- A target through references leads somewhere. -/
theorem Linkable.exists_leads (h : Linkable c)
    (htarget : ThroughReferences c target)
    (home : CompositionId) :
    ∃ place, Leads c.tree c.bindings home target place := by
  induction htarget with
  | here => exact ⟨home, .here⟩
  | self q => exact ⟨home, .self q⟩
  | field _ hsite hid ih =>
      obtain ⟨before, hbefore⟩ := ih
      obtain ⟨leaf, place, hbound, hnode⟩ := h.leads _ hsite
      exact ⟨place, hbefore.field (hid ▸ hbound) hnode⟩

/-- What an expression accesses of another stage by references, it
reaches. -/
theorem Linkable.reaches (h : Linkable c) (he : ByReferences c e)
    (hd : Lifecycle.foreignOwner? c.bindings n e = some d)
    (home : CompositionId) :
    Reaches c.tree c.bindings home n e d ∧ d ≠ n := by
  obtain ⟨howner, hne⟩ := Option.filter_eq_some_iff.1 hd
  refine ⟨?_, bne_iff_ne.1 hne⟩
  cases he with
  | read htarget =>
      obtain ⟨place, hplace⟩ := h.exists_leads htarget home
      exact .read hplace howner
  | call htarget =>
      obtain ⟨place, hplace⟩ := h.exists_leads htarget home
      refine .call hplace howner fun g hg => ?_
      rw [h.own _ _ howner place] at hg
      cases hg

/-- The passes up to linking, in this order. Where methods are apart and no
link is an interface, they leave what guarding needs. -/
theorem passes_linkable (ht : Composition.Built c.sources c.tree)
    (hfresh : Fresh c)
    (hid : c.sources.Derived) (hapart : c.sources.MethodsApart)
    (hlinks : ∀ leaf ∈ c.tree.leaves, ∀ link ∈ c.sources.extensionChain leaf,
      ¬ c.sources.IsInterface link) :
    Ensures bindReferences c fun _ c₁ => Ensures discoverNodes c₁ fun _ c₂ =>
      Ensures linkNodes c₂ fun _ c₃ =>
          Linkable c₃ ∧ c₃.sources = c.sources := by
  refine (bindReferences_frame.and (bindReferences_referenced ht.formed)).mono
    ?_
  rintro _ c₁ ⟨⟨t, rs, rfl⟩, hreferenced, -⟩
  have hstand : Composition.StandIns c.sources t := by
    intro n p hp
    rw [hreferenced.interfaces, ht.interfaceMethods] at hp
    cases hp
  have hassigned := discoverNodes_assigned
    (c := { c with
    tree := t, bindings := { c.bindings with references := rs } })
    (assigned_of_empty hfresh.graph hfresh.fields hfresh.methods)
  have hdiscovered := discoverNodes_discovered
    (c := { c with
    tree := t, bindings := { c.bindings with references := rs } })
    (discovered_of_empty hfresh.graph fun _ => Sources.identified_of_has
      hid.methods)
  refine ((hassigned.and hdiscovered).and
    (discoverNodes_traced.and (discoverNodes_standIns hstand))).mono ?_
  rintro _ c₂ ⟨⟨⟨hassigned, hsources, hleaves⟩, hdiscovered, -⟩,
    htraced, hstand⟩
  refine (linkNodes_frame.and linkNodes_linked).mono ?_
  rintro _ c₃ ⟨⟨es, rfl⟩, hlinked⟩
  have hsame : SameMembers c₂ { c₂ with
    graph := { c₂.graph with edges := es } } := ⟨rfl, rfl, rfl⟩
  refine ⟨⟨hsame.discovered hdiscovered,
    ⟨hassigned.method, hassigned.field, hassigned.role,
      hassigned.stage, hassigned.unclosed⟩, hlinked, fun site hsite => ?_,
    fun id d hd => ?_⟩,
    hsources⟩
  · have hform := hreferenced.form.trans htraced.tree.form
    have hsites : referenceSites { c₂ with
        graph := { c₂.graph with edges := es } }
        = referenceSites c := referenceSites_congr hsources hform
    obtain ⟨leaf, place, hbound, hnode⟩ :=
      hreferenced.leads ht.formed (hsites ▸ hsite)
    refine ⟨leaf, place, ?_, ?_⟩
    · unfold Bindings.referenced?
      rw [htraced.references]
      exact hbound
    · rw [← hnode]
      exact htraced.tree.form.nodeOf? leaf
  · have hform := hreferenced.form.trans htraced.tree.form
    refine interfaceMethod?_of_stageOfMethod? (c := c₂) hassigned
      (hsources.symm ▸ hstand) (hsources.symm ▸ hapart) ?_ hd
    rw [hsources, hform.leaves]
    exact hlinks

/-- Placing the nodes leaves that. -/
theorem Linkable.placed (h : Linkable c) : Ensures placeNodes c fun _ c' =>
    Linkable c' ∧ c'.sources = c.sources := by
  refine placeNodes_frame.mono ?_
  rintro _ c' ⟨ps, rfl⟩
  have hsame : SameMembers c { c with
      bindings := { c.bindings with positions := ps } } :=
    ⟨rfl, rfl, rfl⟩
  refine ⟨⟨hsame.discovered h.discovered, ⟨h.assigned.method, h.assigned.field,
    h.assigned.role, h.assigned.stage, h.assigned.unclosed⟩,
    fun n hn e he d hreaches hne => ?_, h.leads, h.own⟩,
    rfl⟩
  exact h.linked n hn e he d hreaches.unplaced hne

end Analysis

namespace Lifecycle

open Analysis

/-- Placing the nodes puts each after all that it depends on. -/
theorem position?_lt_of_placeNodes {order : List DependencyId}
    (hplace : placeNodes.runOn c₀ = (.ok order, c))
    (hnd : c.graph.Depends n d) :
    ∃ p q, c.bindings.position? n = some p ∧ c.bindings.position? d = some q
      ∧ q < p := by
  obtain ⟨hgraph, hacyclic⟩ := placeNodes_acyclic order c hplace
  rw [hgraph] at hnd
  rw [placeNodes_runOn (DependencyGraph.checkAcyclic_eq_ok_iff.2 hacyclic)]
    at hplace
  obtain ⟨-, rfl⟩ := Prod.mk.inj hplace
  exact position?_lt hacyclic (.single hnd)

/-- The owner of what an expression accesses is a node. -/
theorem mem_ids_of_foreignOwner? (h : Assigned c)
    (hd : foreignOwner? c.bindings n e = some d) :
    d ∈ c.graph.ids := by
  obtain ⟨howner, -⟩ := Option.filter_eq_some_iff.1 hd
  cases e with
  | field t f => exact h.mem_ids_of_field howner
  | call t m args => exact h.mem_ids_of_method howner
  | _ => cases howner

/-- Guarding after linking, whether the nodes are placed or not, where
members have derived identities, no two declarations have methods of one
identity and no link is listed as an interface. At first every stage gets
its close method. Of each body that there is then, whatever is rewritten
towards another stage behind the object at hand or reference fields from
there goes along an edge. Where the nodes are placed, the edge leads to an
earlier one. -/
theorem guardNodes_follows_links {sources : Sources} {tree : Composition}
    {options : Options} {bound : ReferenceReport} {nodes : NodeReport}
    {edges : Nat} {counts : GuardReport} {c₁ c₂ c₃ : Compilation}
    (ht : Composition.Built sources tree) (hid : sources.Derived)
    (hapart : sources.MethodsApart)
    (hlinks : ∀ leaf ∈ tree.leaves, ∀ link ∈ sources.extensionChain leaf,
      ¬ sources.IsInterface link)
    (hbind : bindReferences.runOn { sources, tree, options } = (.ok bound, c₁))
    (hdiscover : discoverNodes.runOn c₁ = (.ok nodes, c₂))
    (hlink : linkNodes.runOn c₂ = (.ok edges, c₃))
    (hplace : c = c₃ ∨ ∃ order, placeNodes.runOn c₃ = (.ok order, c))
    (hguard : guardNodes.runOn c = (.ok counts, c')) :
    ∃ closed, closeStages.runOn c = (.ok (), closed)
      ∧ ∀ n, ∀ l ∈ c'.bodyLocations n,
        Guarded c' n (closed.sources.method l) (c'.sources.method l)
        ∧ ∀ e ∈ (closed.sources.method l).bodyOrEmpty.exprs, ∀ d,
          foreignOwner? c.bindings n e = some d → ByReferences c e →
            c.graph.dependsOn n d = true
            ∧ ∀ order, placeNodes.runOn c₃ = (.ok order, c) →
              ∃ p q, c.bindings.position? n = some p
                ∧ c.bindings.position? d = some q
                ∧ q < p := by
  have hlinkable₃ :=
    passes_linkable ht ⟨rfl, rfl, rfl⟩ hid hapart hlinks bound c₁
      hbind nodes c₂
    hdiscover edges c₃ hlink
  obtain ⟨hlinkable, hsources⟩ : Linkable c ∧ c.sources = sources := by
    rcases hplace with rfl | ⟨order, hplace⟩
    · exact hlinkable₃
    · obtain ⟨hlinkable, hsources⟩ := hlinkable₃.1.placed order c hplace
      exact ⟨hlinkable, hsources.trans hlinkable₃.2⟩
  obtain ⟨closed, hclose, hk, hclosed, hlater, hsettled⟩ :=
    guardNodes_settles hlinkable.discovered counts c' hguard
  refine ⟨closed, hclose, fun n l hl => ?_⟩
  rw [hclosed.bodyLocations_eq hlater] at hl
  refine ⟨hsettled n l hl c' (.refl _ c'), fun e he d hd hreferences => ?_⟩
  obtain ⟨hreaches, hne⟩ :=
    hlinkable.reaches hreferences hd (c.compositionOf n)
  have hdepends : c.graph.dependsOn n d = true :=
    dependsOn_of_linked hlinkable.discovered hlinkable.assigned
      hlinkable.linked (hsources.symm ▸ hid) hclose hl he hreaches hne
  refine ⟨hdepends, fun order hplaced => position?_lt_of_placeNodes hplaced ?_⟩
  exact DependencyGraph.depends_iff.2
    ⟨hk.mem_ids.1 (mem_ids_of_mem_bodyLocations hl),
      mem_ids_of_foreignOwner? hlinkable.assigned hd, hdepends⟩

-- ============================================================= one expression

/-- What an expression accesses, and the reference field that its target
is, if it has one. -/
def accessed? : Expr → Option (Option FieldRef × (FieldRef ⊕ MethodRef))
  | .field none f => some (none, .inl f)
  | .field (some (.field none r)) f => some (some r, .inl f)
  | .call none m _ => some (none, .inr m)
  | _ => none

/-- The stage that owns a field or that a method is tagged with. -/
def ownerOf? (b : Bindings) : FieldRef ⊕ MethodRef → Option DependencyId
  | .inl f => b.stageOfField? f.identity
  | .inr m => b.stageOfMethod? m.identity

/-- An access that is seen in a body is one by references, of another
stage. -/
theorem exists_byReferences {body : Block} {r : Option FieldRef}
    {member : FieldRef ⊕ MethodRef}
    (h : ∃ e ∈ body.exprs, accessed? e = some (r, member))
    (hr : ∀ f ∈ r, ∃ site ∈ referenceSites c, f.identity = site.field.id)
    (hd : ownerOf? c.bindings member = some d) (hne : d ≠ n) :
    ∃ e ∈ body.exprs, foreignOwner? c.bindings n e = some d
      ∧ ByReferences c e := by
  obtain ⟨e, he, haccessed⟩ := h
  refine ⟨e, he, ?_⟩
  unfold accessed? at haccessed
  split at haccessed
  · obtain ⟨rfl, rfl⟩ := Prod.mk.inj (Option.some.inj haccessed)
    exact ⟨Option.filter_eq_some_iff.2 ⟨hd, bne_iff_ne.2 hne⟩, .read .here⟩
  · obtain ⟨rfl, rfl⟩ := Prod.mk.inj (Option.some.inj haccessed)
    obtain ⟨site, hsite, hid⟩ := hr _ rfl
    exact ⟨Option.filter_eq_some_iff.2 ⟨hd, bne_iff_ne.2 hne⟩,
      .read (.field .here hsite hid)⟩
  · obtain ⟨rfl, rfl⟩ := Prod.mk.inj (Option.some.inj haccessed)
    exact ⟨Option.filter_eq_some_iff.2 ⟨hd, bne_iff_ne.2 hne⟩, .call .here⟩
  · cases haccessed

/-- A type with a stage `Total` that is made from the stage `Count` of its
part. -/
def partSources : Sources :=
  let stage (name : String) : Field :=
    { name, type := .int, init := some (.literal (.int (-1))) }
  let part : Field :=
    { name := "part", type := .named "Part", markers := [.reference] }
  let count : Expr :=
    .field (some (.field none ⟨"Whole", "part"⟩)) ⟨"Part", "count"⟩
  let initTotal : Method :=
    { name := "initTotal", returns := .void, body := some [.expr
      (.assign none (.field none ⟨"Whole", "total"⟩) count)] }
  let whole : TypeDecl :=
    { TypeDecl.participating "Whole" with
      fields := [part, stage "total"], methods := [initTotal] }
  let inner : TypeDecl :=
    { TypeDecl.participating "Part" with fields := [stage "count"] }
  { decls := [whole.assignIdentities, inner.assignIdentities] }

/-- The part below the whole. -/
def partTree : Composition :=
  { nodes := [{ decls := [⟨0⟩] }, { parent := some ⟨0⟩, decls := [⟨1⟩] }]
    leafNodes := [(⟨0⟩, ⟨0⟩), (⟨1⟩, ⟨1⟩)]
    linkNodes := [(⟨0⟩, ⟨0⟩), (⟨1⟩, ⟨1⟩)] }

/-- The init method of `Total` reads the field of `Count` through the
reference field: the read is guarded, goes along an edge, and leads to an
earlier node. -/
theorem guardNodes_follows_links_part :
    ∃ (c₃ c c' : Compilation) (order : List DependencyId)
    (counts : GuardReport), placeNodes.runOn c₃ = (.ok order, c)
      ∧ guardNodes.runOn c = (.ok counts, c')
      ∧ ⟨⟨0⟩, 0⟩ ∈ c'.bodyLocations ⟨0⟩ ∧ c.graph.dependsOn ⟨0⟩ ⟨1⟩ = true
      ∧ ∃ p q, c.bindings.position? ⟨0⟩ = some p
      ∧ c.bindings.position? ⟨1⟩ = some q
        ∧ q < p := by
  let c₀ : Compilation := { sources := partSources, tree := partTree }
  let c₁ := (bindReferences.runOn c₀).2
  let c₂ := (discoverNodes.runOn c₁).2
  let c₃ := (linkNodes.runOn c₂).2
  let c := (placeNodes.runOn c₃).2
  let c' := (guardNodes.runOn c).2
  have htree : Composition.Built partSources partTree :=
    (Composition.Built.start.child (p := Composition.root) (by decide)).add
      (n := ⟨0⟩) (d := ⟨0⟩) (by decide) rfl |>.add (n := ⟨1⟩) (d := ⟨1⟩)
      (by decide) rfl
  have hid : partSources.Derived := ⟨by decide +kernel, by decide +kernel⟩
  obtain ⟨bound, hbind⟩ :=
    exists_runOn_eq (x := bindReferences) (c := c₀) (by decide +kernel)
  obtain ⟨nodes, hdiscover⟩ :=
    exists_runOn_eq (x := discoverNodes) (c := c₁) (by decide +kernel)
  obtain ⟨edges, hlink⟩ :=
    exists_runOn_eq (x := linkNodes) (c := c₂) (by decide +kernel)
  obtain ⟨order, hplace⟩ :=
    exists_runOn_eq (x := placeNodes) (c := c₃) (by decide +kernel)
  obtain ⟨counts, hguard⟩ :=
    exists_runOn_eq (x := guardNodes) (c := c) (by decide +kernel)
  obtain ⟨closed, hclose, hbodies⟩ :=
    guardNodes_follows_links htree hid (by decide +kernel)
    (by decide +kernel) hbind hdiscover hlink (.inr ⟨order, hplace⟩) hguard
  have hclosed : (closeStages.runOn c).2 = closed := congrArg Prod.snd hclose
  have hbody : (⟨⟨0⟩, 0⟩ : Location) ∈ c'.bodyLocations ⟨0⟩ := by
    decide +kernel
  have hread :
      ∃ e ∈ ((closeStages.runOn c).2.sources.method
        ⟨⟨0⟩, 0⟩).bodyOrEmpty.exprs,
      accessed? e = some (some ⟨"Whole", "part"⟩, .inl ⟨"Part", "count"⟩) := by
    decide +kernel
  rw [hclosed] at hread
  have hpart : ∀ f ∈ some (⟨"Whole", "part"⟩ : FieldRef),
      ∃ site ∈ referenceSites c, f.identity = site.field.id := by
    decide +kernel
  have howner : ownerOf? c.bindings (.inl ⟨"Part", "count"⟩) = some ⟨1⟩ := by
    decide +kernel
  obtain ⟨e, he, hforeign, hreferences⟩ :=
    exists_byReferences (n := ⟨0⟩) hread hpart howner (by decide)
  obtain ⟨hdepends, hearlier⟩ :=
    (hbodies ⟨0⟩ _ hbody).2 e he ⟨1⟩ hforeign hreferences
  exact ⟨c₃, c, c', order, counts, hplace, hguard, hbody, hdepends,
    hearlier order hplace⟩

-- ============================================================= what is missed

/-- That linking succeeds after discovery, with no link listed as an
interface, and guarding then rewrites an access by references towards a
stage without an edge for it. -/
def GuardsUnlinked (c₁ : Compilation) : Prop :=
  ∃ nodes edges counts c₂ c closed c' n d l e,
    discoverNodes.runOn c₁ = (.ok nodes, c₂)
    ∧ linkNodes.runOn c₂ = (.ok edges, c)
    ∧ (∀ leaf ∈ c.tree.leaves, ∀ link ∈ c.sources.extensionChain leaf,
        ¬ c.sources.IsInterface link)
    ∧ closeStages.runOn c = (.ok (), closed)
    ∧ guardNodes.runOn c = (.ok counts, c')
    ∧ l ∈ c'.bodyLocations n ∧ e ∈ (closed.sources.method l).bodyOrEmpty.exprs
    ∧ foreignOwner? c.bindings n e = some d ∧ ByReferences c e
    ∧ c.graph.dependsOn n d = false

/-- What discovery and linking leave. -/
def linkedOf (c₁ : Compilation) : Compilation :=
  (linkNodes.runOn (discoverNodes.runOn c₁).2).2

theorem guardsUnlinked_of_accessed? (n d : DependencyId) (l : Location)
    (r : Option FieldRef) (member : FieldRef ⊕ MethodRef)
    (hruns : (discoverNodes.runOn c₁).1.isOk = true
      ∧ (linkNodes.runOn (discoverNodes.runOn c₁).2).1.isOk = true
      ∧ (closeStages.runOn (linkedOf c₁)).1.isOk = true
      ∧ (guardNodes.runOn (linkedOf c₁)).1.isOk = true)
    (hlinks : ∀ leaf ∈ (linkedOf c₁).tree.leaves,
      ∀ link ∈ (linkedOf c₁).sources.extensionChain leaf,
        ¬ (linkedOf c₁).sources.IsInterface link)
    (hbody : l ∈ (guardNodes.runOn (linkedOf c₁)).2.bodyLocations n
      ∧ ∃ e ∈ ((closeStages.runOn (linkedOf c₁)).2.sources.method
        l).bodyOrEmpty.exprs, accessed? e = some (r, member))
    (hr : ∀ f ∈ r, ∃ site ∈ referenceSites (linkedOf c₁), f.identity
      = site.field.id)
    (hd : ownerOf? (linkedOf c₁).bindings member = some d ∧ d ≠ n
      ∧ (linkedOf c₁).graph.dependsOn n d = false) : GuardsUnlinked c₁ := by
  obtain ⟨nodes, hdiscover⟩ := exists_runOn_eq hruns.1
  obtain ⟨edges, hlink⟩ := exists_runOn_eq hruns.2.1
  obtain ⟨⟨⟩, hclose⟩ := exists_runOn_eq hruns.2.2.1
  obtain ⟨counts, hguard⟩ := exists_runOn_eq hruns.2.2.2
  obtain ⟨e, he, howner, hreferences⟩ :=
    exists_byReferences hbody.2 hr hd.1 hd.2.1
  exact ⟨nodes, edges, counts, _, linkedOf c₁, _, _, n, d, l, e, hdiscover,
    hlink, hlinks, hclose, hguard, hbody.1, he, howner, hreferences, hd.2.2⟩

/-- A type with a stage `Y` that calls a method tagged with its stage `X`,
and an interface whose method has the identity of that method and the
signature of another one. -/
def borrowedSources : Sources :=
  let field (name : String) : Field :=
    { name, type := .int, init := some (.literal (.int (-1))) }
  let method (name : String) : Method := { name, returns := .void }
  let bar : MethodRef := ⟨"A", "bar", []⟩
  let initY : Method :=
    { method "initY" with body := some [.expr (.call none bar [])] }
  let i : TypeDecl :=
    { name := "I", kind := .interfaceType,
      methods := [{ method "foo" with id := bar.identity }] }
  let a : TypeDecl :=
    { TypeDecl.participating "A" with
      interfaces := [.named "I"]
      fields := [field "x", field "y"]
      methods := [{ method "bar" with markers := [.stage "X"] }, initY,
        method "foo"] }
  { decls := [i, a.assignIdentities] }

/-- The second type alone at the root. -/
def secondTree : Composition :=
  { nodes := [{ decls := [⟨1⟩] }]
    leafNodes := [(⟨1⟩, Composition.root)]
    linkNodes := [(⟨1⟩, Composition.root)] }

/-- Without bound references linking does not see what is behind them. A
reset is not linked to the stage that its sentinel is a field of by its
name only, and a call not to the stage that owns the method where the
group of another one stands in for it. -/
theorem guardNodes_misses_links :
    GuardsUnlinked { sources := partSources, tree := partTree }
      ∧ (∃ bound c₁,
        bindReferences.runOn { sources := swappedSources, tree := pairTree }
          = (.ok bound, c₁) ∧ GuardsUnlinked c₁)
      ∧ ∃ bound c₁,
      bindReferences.runOn { sources := borrowedSources, tree := secondTree }
          = (.ok bound, c₁) ∧ GuardsUnlinked c₁ := by
  refine ⟨?_, ?_, ?_⟩
  · exact guardsUnlinked_of_accessed? ⟨0⟩ ⟨1⟩ ⟨⟨0⟩, 0⟩ (some ⟨"Whole", "part"⟩)
      (.inl ⟨"Part", "count"⟩) (by decide +kernel) (by decide +kernel)
      (by decide +kernel)
      (by decide +kernel) (by decide +kernel)
  · let c₀ : Compilation := { sources := swappedSources, tree := pairTree }
    obtain ⟨bound, hbind⟩ :=
      exists_runOn_eq (x := bindReferences) (c := c₀) (by decide +kernel)
    refine ⟨bound, _, hbind, ?_⟩
    exact guardsUnlinked_of_accessed? ⟨0⟩ ⟨1⟩ ⟨⟨0⟩, 0⟩ none (.inl ⟨"A", "x"⟩)
      (by decide +kernel) (by decide +kernel) (by decide +kernel)
      (by decide +kernel)
      (by decide +kernel)
  · let c₀ : Compilation := { sources := borrowedSources, tree := secondTree }
    obtain ⟨bound, hbind⟩ :=
      exists_runOn_eq (x := bindReferences) (c := c₀) (by decide +kernel)
    refine ⟨bound, _, hbind, ?_⟩
    exact guardsUnlinked_of_accessed? ⟨1⟩ ⟨0⟩ ⟨⟨1⟩, 1⟩ none
      (.inr ⟨"A", "bar", []⟩) (by decide +kernel) (by decide +kernel)
      (by decide +kernel) (by decide +kernel) (by decide +kernel)

end Lifecycle

end Stagewise
