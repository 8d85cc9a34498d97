/-
Which declared methods keep their names.

# In their own declaration

A method that lifecycle adds to a leaf is bound under the identity that its
signature has there. If the leaf declares a concrete method of an object with
that signature, the analysis has bound it, and the compilation fails. The
global close method is not bound, and is added in any case.

# Along the chain

An identity is one of a single declaration, so nothing compares what is
added with the methods of the links above. These are folded into the leaf as
they are into any declaration: a method is kept under another name where one
of its signature is, be that declared or added (`Merge.mergeChain_keeps`).
Nothing that follows renames a method (`Output.finished_methodNames`).
-/
import Stagewise.Proofs.Merge.Overriding
import Stagewise.Proofs.Output.Methods
import Stagewise.Proofs.Separation

namespace Stagewise

open Stagewise.Composition Merge Output Step

variable {sources : Sources} {tree : Composition} {options : Options}
variable {compiled : Compiled}
variable {leaf : DeclId}

-- ============================================================== in the output

theorem namesAt_titled (options : Options) (d : TypeDecl) :
    namesAt (titled options d) = namesAt d := by
  funext path
  cases path <;> rfl

/-- The type of a node has the methods of the node's leaves. -/
theorem Merge.Joins.methodNames_subset {c : Compilation} {n : CompositionId}
    {d : TypeDecl} (h : Joins c n d) (hleaf : leaf ∈ (c.tree.get n).decls) :
    methodNames (c.sources.get leaf) ⊆ methodNames d := by
  obtain ⟨own, hown, -, hmethods, -⟩ := h.parts
  unfold methodNames
  rw [hmethods, (mergeDeclarations_eq_ok hown).2.2, List.flatMap_map]
  exact List.map_subset _ fun m hm => List.mem_flatMap.2 ⟨leaf, hleaf, hm⟩

/-- The type of a leaf's node has every method of the folded leaf, under the
name that it has there. -/
theorem compile_methodNames (ht : Formed sources tree)
    (hcompile : compile sources tree options = .ok compiled)
    (hleaf : leaf ∈ tree.leaves) :
    ∃ n type d, tree.nodeOfLeaf? leaf = some n
      ∧ IsTypeOf tree compiled.merged n type
      ∧ mergeChain (withLifecycle sources tree options).sources
        (sources.extensionChain leaf)
        = .ok d
      ∧ methodNames d ⊆ methodNames type := by
  obtain ⟨_, _, _, hproduces⟩ := compile_produces ht hcompile
  have hform := hproduces.form
  have hheads := hproduces.heads
  obtain ⟨_, _, c', -, -, hproduce⟩ := compile_runs hcompile
  generalize withLifecycle sources tree options = c at *
  have hformed : Formed c.sources c.tree := hform.formed (ht.sameHeads hheads)
  obtain ⟨s, d, c₁, d', b, hmerged, -, houtline, hout⟩ :=
    produce_finishes hformed _ c' hproduce
  obtain ⟨n, hn⟩ := Formed.exists_node hleaf
  have hlt : n.index < c.tree.nodes.length := hform.length.symm ▸ ht.place _ hn
  obtain ⟨hjoins, htype⟩ :=
    Joins.isTypeOf (c := { c with sources := s }) (hform.formed ht)
    hmerged.joins n.index hlt
  have hdecls : leaf ∈ (c.tree.get n).decls :=
    hform.decls n ▸ ht.mem_decls.2 hn
  obtain ⟨type, htype', hnames⟩ :=
    finished_methodNames b (htype.sameForm hform)
    ((namesAt_of_outline houtline).trans (namesAt_titled c.options d))
  have hfolded := hmerged.leaf leaf (hform.leaves.symm ▸ hleaf)
  rw [hheads.extensionChain] at hfolded
  exact ⟨n, type, s.get leaf, ht.nodeOfLeaf?_eq_some.2 hn,
    hout ▸ htype', hfolded,
    List.Subset.trans (hjoins.methodNames_subset hdecls) hnames⟩

-- ============================================================== what is added

/-- A declaration that is no leaf has the methods that it declares when it is
merged. -/
theorem compile_adds_to_leaves (ht : Formed sources tree)
    (hcompile : compile sources tree options = .ok compiled) {link : DeclId}
    (hlink : link ∉ tree.leaves) (hlt : link.index < sources.decls.length) :
    ((withLifecycle sources tree options).sources.get link).signatures
      = (sources.get link).signatures := by
  obtain ⟨report, c₁, c', hanalyse, hlifecycle, -⟩ := compile_runs hcompile
  obtain ⟨hunmade, hform, hsources, -⟩ :=
    Analysis.analyse_unmade ht rfl report c₁ hanalyse
  obtain ⟨new, hnew, -, -, howned⟩ :=
    addLifecycle_arrivals _ _ hlifecycle link (hsources ▸ hlt)
  have hnone : new = [] := by
    refine List.eq_nil_iff_forall_not_mem.2 fun sig hsig => hlink ?_
    obtain ⟨n, hn, rfl⟩ := howned sig hsig
    exact hform.leaves ▸ hunmade.leaf n hn
  have hfirst : ¬ c₁.tree.IsFirst link := by
    intro h
    have hroot : link ∈ (tree.get Composition.root).decls :=
      hform.decls _ ▸ List.mem_of_mem_head? h
    exact hlink (List.mem_map.2 ⟨_, ht.mem_decls.1 hroot, rfl⟩)
  rw [hnew, hnone, if_neg hfirst, List.append_nil, List.append_nil, hsources]

-- ================================================================ the theorem

/-- Let a compilation succeed. What guards and lifecycle add to a leaf,
before the global close method, has no signature of a concrete method of an
object that the leaf declares, and the links above get no methods. In the
type of the leaf's node every concrete method of an object that is declared
in a link of its chain has its name, unless it meets one of its signature
when it is folded into a link below. -/
theorem compile_keeps_names (htree : Built sources tree)
    (hcompile : compile sources tree options = .ok compiled) :
    ∀ leaf ∈ tree.leaves,
      (sources.Coherent → ∃ new : List Signature,
        ((withLifecycle sources tree options).sources.get leaf).signatures
            = (sources.get leaf).signatures ++ new
              ++ (if tree.IsFirst leaf then [closeSignature] else [])
          ∧ ∀ m ∈ (sources.get leaf).methods, m.IsBoundIn (sources.name leaf) →
            m.signature ∉ new)
      ∧ (∀ link ∈ sources.extensionChain leaf, link ≠ leaf →
        ((withLifecycle sources tree options).sources.get link).signatures
          = (sources.get link).signatures)
      ∧ ∃ n type, tree.nodeOfLeaf? leaf = some n
      ∧ IsTypeOf tree compiled.merged n type
        ∧ ∀ link ∈ sources.extensionChain leaf,
        ∀ m ∈ (sources.get link).methods,
          Analysis.IsNodeMethod m → (m.id, m.name) ∈ methodNames type
            ∨ IsOverridden (withLifecycle sources tree options).sources
              (sources.extensionChain leaf) link m.id m.name := by
  have ht := htree.formed
  intro leaf hleaf
  refine ⟨fun hcoherent => ?_, fun link hlink hne => ?_, ?_⟩
  · obtain ⟨new, hnew, -, hbound⟩ :=
      compile_arrives ht hcoherent hcompile hleaf
    exact ⟨new, hnew, hbound⟩
  · -- a leaf in the chain of another one would be a link of two chains
    refine compile_adds_to_leaves ht hcompile (fun hleaf' => hne ?_)
      (Sources.lt_of_link hlink)
    have hself := Sources.mem_extensionChain_self
      (Sources.isParticipating_of_mem_extensionChain hlink)
    exact ht.leaf_unique hleaf' hleaf hself hlink
  · obtain ⟨_, _, _, hproduces⟩ := compile_produces ht hcompile
    obtain ⟨n, type, d, hn, htype, hfolded, hnames⟩ :=
      compile_methodNames ht hcompile hleaf
    refine ⟨n, type, hn, htype, fun link hlink m hm hnode => ?_⟩
    -- the method as it is when the merging starts
    obtain ⟨i, hi⟩ := List.mem_iff_getElem?.1 hm
    obtain ⟨m', hm', hstays⟩ :=
      (hproduces.gains leaf hleaf link hlink).methods i m hi
    have hname : m'.name = m.name := congrArg Prod.fst hstays.signature
    have hkeeps := mergeChain_keeps hfolded hlink (List.mem_of_getElem? hm')
      (hstays.isStatic.trans hnode.1) (hstays.concrete hnode.2)
    rw [hstays.id, hname] at hkeeps
    refine hkeeps.imp_left fun hface => hnames ?_
    have hpair : (m'.id, m'.name) ∈ ((profiles d).map Profile.face).map
        fun f => (f.1, f.2.2.2) :=
      List.mem_map_of_mem hface
    rw [hstays.id, hname] at hpair
    unfold profiles at hpair
    rwa [List.map_map, List.map_map] at hpair

/-- A concrete method of an object, with nothing in it. -/
def plainMethod (name : String) : Method := { name, returns := .void }

/-- The lowest of three layers gets the members of its stage. The method that
it declares keeps its name. -/
theorem compile_keeps_names_layers : ∃ compiled type new,
    compile (layeredSources [plainMethod "stop"]) layeredTree {} = .ok compiled
      ∧ addedSignatures (layeredSources [plainMethod "stop"])
          (withLifecycle (layeredSources [plainMethod "stop"]) layeredTree {})
          ⟨2⟩
        = new ++ [closeSignature]
      ∧ ("closeX", []) ∈ new ∧ ("stop", []) ∉ new
      ∧ IsTypeOf layeredTree compiled.merged ⟨0⟩ type
      ∧ "stop" ∈ (methodNames type).map Prod.snd := by
  obtain ⟨compiled, hcompile, -⟩ := exists_compiled (p := fun _ => true)
    (s := layeredSources [plainMethod "stop"]) (t := layeredTree) (o := {})
    (by decide +kernel)
  obtain ⟨hadded, -, n, type, hn, htype, hkeeps⟩ :=
    compile_keeps_names (built_layeredTree _) hcompile ⟨2⟩ (by decide)
  obtain rfl : n = ⟨0⟩ := (Option.some.inj hn).symm
  obtain ⟨new, hnew, hbound⟩ :=
    hadded (Sources.coherent_of_nodup (by decide +kernel))
  have hmem : ⟨2⟩ ∈ (layeredSources [plainMethod "stop"]).extensionChain
    ⟨2⟩ := by decide +kernel
  have hstop : ∃ m ∈ ((layeredSources [plainMethod "stop"]).get ⟨2⟩).methods,
      m.signature = ("stop", []) ∧ m.IsBoundIn "Leaf" := by decide +kernel
  obtain ⟨m, hm, hsignature, hboundIn⟩ := hstop
  have hdrop : addedSignatures (layeredSources [plainMethod "stop"])
      (withLifecycle (layeredSources [plainMethod "stop"]) layeredTree {}) ⟨2⟩
        = new ++ [closeSignature] := by
    unfold addedSignatures
    rw [hnew, List.append_assoc, List.drop_left]
    rfl
  refine ⟨compiled, type, new, hcompile, hdrop, ?_, ?_, htype, ?_⟩
  · have hclose : ("closeX", []) ∈ new ++ [closeSignature] := by
      rw [← hdrop]
      decide +kernel
    exact (List.mem_append.1 hclose).resolve_right (by decide)
  · exact hsignature ▸ hbound m hm hboundIn
  · have hname : m.name = "stop" := congrArg Prod.fst hsignature
    rcases hkeeps ⟨2⟩ hmem m hm hboundIn.node with hkept | hoverridden
    · exact List.mem_map.2 ⟨_, hkept, hname⟩
    · exact absurd hoverridden.mem_tail (by decide +kernel)

-- =============================================================== what is lost

/-- That a compilation succeeds although a method is added to a leaf that has
the signature of a concrete one of an object in the leaf's chain. -/
def TakesOver (s : Sources) (t : Composition) : Prop :=
  Built s t ∧ (∃ compiled, compile s t {} = .ok compiled)
    ∧ ∃ leaf ∈ t.leaves, ∃ link ∈ s.extensionChain leaf,
    ∃ m ∈ (s.get link).methods,
      Analysis.IsNodeMethod m
        ∧ m.signature ∈ addedSignatures s (withLifecycle s t {}) leaf

/-- That a compilation succeeds and a concrete method of an object has its
name no more, although no other link declares a method. -/
def LosesName (s : Sources) (t : Composition) : Prop :=
  Built s t ∧ ∃ compiled, compile s t {} = .ok compiled
    ∧ ∃ leaf ∈ t.leaves, ∃ link ∈ s.extensionChain leaf,
    ∃ m ∈ (s.get link).methods,
      Analysis.IsNodeMethod m
        ∧ (∀ other ∈ s.extensionChain leaf, other ≠ link →
          (s.get other).methods = [])
        ∧ ∀ type ∈ compiled.merged.all, (m.id, m.name) ∉ methodNames type

/-- A base has a method of the name that lifecycle gives a method of the stage
in the type below. -/
def doCloseSources : Sources :=
  sourcesOf [{ TypeDecl.participating "Base" with
    methods := [plainMethod "doCloseX"] },
    { stageDecl "Leaf" [] with superclass := some (.named "Base") }]

/-- A method that is added takes the place of one of a base, and the global
close method comes to a declared one. -/
theorem compile_takes_over :
    TakesOver doCloseSources genericTree ∧ LosesName doCloseSources genericTree
      ∧ TakesOver (sourcesOf [stageDecl "A" [plainMethod "close"]])
        singleTree := by
  have hbuilt : Built doCloseSources genericTree :=
    .add (n := ⟨0⟩) (d := ⟨1⟩) .start (by decide) rfl
  obtain ⟨compiled, hcompile, hlost⟩ :=
    exists_compiled (s := doCloseSources) (t := genericTree)
    (o := {}) (p := fun compiled => decide (∀ type ∈ compiled.merged.all,
      ∀ m ∈ (doCloseSources.get ⟨0⟩).methods,
        (m.id, m.name) ∉ methodNames type))
    (by decide +kernel)
  obtain ⟨closed, hclosed, -⟩ := exists_compiled (p := fun _ => true)
    (s := sourcesOf [stageDecl "A" [plainMethod "close"]])
    (t := singleTree) (o := {})
    (by decide +kernel)
  refine ⟨⟨hbuilt, ⟨compiled, hcompile⟩, ?_⟩,
    ⟨hbuilt, compiled, hcompile, ⟨1⟩, by decide, ⟨0⟩,
      by decide +kernel, ?_⟩,
    .add (n := ⟨0⟩) (d := ⟨0⟩) .start (by decide) rfl,
    ⟨closed, hclosed⟩, ?_⟩
  · unfold Analysis.IsNodeMethod
    decide +kernel
  · have hm : ∃ m ∈ (doCloseSources.get ⟨0⟩).methods,
        Analysis.IsNodeMethod m := by
      unfold Analysis.IsNodeMethod
      decide +kernel
    obtain ⟨m, hm, hnode⟩ := hm
    exact ⟨m, hm, hnode, by decide +kernel,
      fun type ht => of_decide_eq_true hlost type ht m hm⟩
  · unfold Analysis.IsNodeMethod
    decide +kernel

end Stagewise
