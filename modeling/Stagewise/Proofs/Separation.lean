/-
When a compilation keeps members apart.

Declarations whose fields have different names, and whose methods have
different signatures, can come out as a type that has two fields of one
name or two methods of one signature. Members meet in one type at four
places:

- lifecycle adds methods to a leaf. Their bindings keep them apart from
  what the analysis has bound, which leaves static and abstract methods out;
- a chain is folded. A static method is taken over as it is, and one that is
  overridden is kept under a name that can be taken;
- the leaves of a node are joined with all that they have;
- type references are renamed to those of the merged types, which can make
  signatures the same.

`Separate` says that nothing meets at any of these places. The types that
are produced have distinct members exactly then (`compile_distinguishes`).
-/
import Stagewise.Proofs.Conservation
import Stagewise.Proofs.Lifecycle.Arrivals
import Stagewise.Proofs.Merge.Signatures
import Stagewise.Proofs.Output.Signatures

namespace Stagewise

open Stagewise.Composition Merge Output Step

variable {sources s : Sources} {tree : Composition} {options : Options}
variable {compiled : Compiled}
variable {c c' : Compilation} {d : TypeDecl} {leaf : DeclId}

-- ============================================================== what is added

/-- That the analysis binds a method of a declaration by the identity that
derives from its signature. -/
structure Method.IsBoundIn (m : Method) (owner : String) : Prop where
  node : Analysis.IsNodeMethod m
  id : m.id = m.identityIn owner

instance (m : Method) (owner : String) : Decidable (m.IsBoundIn owner) :=
  decidable_of_iff ((m.modifiers.isStatic = false ∧ m.isAbstract = false)
      ∧ m.id = m.identityIn owner)
    ⟨fun h => ⟨h.1, h.2⟩, fun h => ⟨h.node, h.id⟩⟩

/-- The signatures that a leaf has besides those of its own methods when it
is merged. -/
def addedSignatures (sources : Sources) (c : Compilation) (leaf : DeclId) :
    List Signature :=
  (c.sources.get leaf).signatures.drop (sources.get leaf).signatures.length

/-- Until it is merged a leaf gains methods of different signatures, none of
which a method has that the analysis binds, and it may gain the global close
method. -/
theorem compile_arrives (ht : Formed sources tree) (hs : sources.Coherent)
    (hcompile : compile sources tree options = .ok compiled)
    (hleaf : leaf ∈ tree.leaves) :
    ∃ new : List Signature,
      ((withLifecycle sources tree options).sources.get leaf).signatures
          = (sources.get leaf).signatures ++ new
            ++ (if tree.IsFirst leaf then [closeSignature] else [])
        ∧ new.Nodup
        ∧ ∀ m ∈ (sources.get leaf).methods, m.IsBoundIn (sources.name leaf) →
          m.signature ∉ new := by
  obtain ⟨report, c₁, c', hanalyse, hlifecycle, -⟩ := compile_runs hcompile
  obtain ⟨-, hform, hsources, -⟩ :=
    Analysis.analyse_unmade ht rfl report c₁ hanalyse
  have hbinds :=
    Analysis.analyse_binds ht ⟨rfl, rfl, rfl⟩ hs report c₁ hanalyse
  have hparticipating := ht.participating leaf hleaf
  have hlt : leaf.index < c₁.sources.decls.length :=
    hsources ▸ Sources.lt_of_isParticipating hparticipating
  obtain ⟨new, hnew, hnodup, hfree, -⟩ :=
    addLifecycle_arrivals _ _ hlifecycle leaf hlt
  have hfirst : c₁.tree.IsFirst leaf ↔ tree.IsFirst leaf := by
    unfold IsFirst
    rw [hform.decls]
  rw [hsources] at hnew hfree
  simp only [hfirst] at hnew
  refine ⟨new, hnew, hnodup, fun m hm hbound hmem => ?_⟩
  obtain ⟨x, hx⟩ :=
    hbinds leaf hleaf leaf
      (Sources.mem_extensionChain_self hparticipating) m hm
    hbound.node
  have hnone := hfree _ hmem
  rw [← Method.identityIn_eq, ← hbound.id, hx] at hnone
  cases hnone

/-- With what it gains a leaf has methods of different signatures exactly if
no unbound one is met, and if it has no other close method than the global
one. -/
theorem nodup_leaf_signatures {own : TypeDecl} {owner : String}
    {new : List Signature} {isFirst : Prop} [Decidable isFirst]
    (hd : d.signatures
      = own.signatures ++ new ++ if isFirst then [closeSignature] else [])
    (hown : own.signatures.Nodup) (hnew : new.Nodup)
    (hbound : ∀ m ∈ own.methods, m.IsBoundIn owner → m.signature ∉ new) :
    d.signatures.Nodup ↔
      (∀ m ∈ own.methods, ¬ m.IsBoundIn owner →
        m.signature ∉ d.signatures.drop own.signatures.length)
        ∧ (isFirst → d.signatures.count closeSignature = 1) := by
  have hdrop : d.signatures.drop own.signatures.length
      = new ++ if isFirst then [closeSignature] else [] := by
    rw [hd, List.append_assoc, List.drop_left]
  have hclose : isFirst → d.signatures.count closeSignature
      = own.signatures.count closeSignature + new.count closeSignature
        + 1 := by
    intro h
    rw [hd, if_pos h]
    simp [Nat.add_assoc]
  rw [hdrop]
  constructor
  · intro hnodup
    refine ⟨fun m hm _ hmem => ?_, fun h => ?_⟩
    · rw [hd, List.append_assoc] at hnodup
      exact (List.nodup_append'.1 hnodup).2.2 (List.mem_map_of_mem hm) hmem
    · refine Nat.le_antisymm (List.nodup_iff_count_le_one.1 hnodup _) ?_
      rw [hclose h]
      exact Nat.le_add_left _ _
  · rintro ⟨hmet, hcount⟩
    have hapart : own.signatures.Disjoint new := by
      intro sig hsig hmem
      obtain ⟨m, hm, rfl⟩ := List.mem_map.1 hsig
      by_cases h : m.IsBoundIn owner
      · exact hbound m hm h hmem
      · exact hmet m hm h (List.mem_append_left _ hmem)
    have hmade := List.nodup_append'.2 ⟨hown, hnew, hapart⟩
    rw [hd]
    by_cases h : isFirst
    · rw [if_pos h]
      refine List.nodup_append'.2 ⟨hmade, List.nodup_singleton _, ?_⟩
      rw [List.disjoint_singleton, ← List.count_eq_zero, List.count_append]
      have hone := hcount h
      rw [hclose h] at hone
      omega
    · rwa [if_neg h, List.append_nil]

-- ============================================================= what is merged

/-- A leaf with its chain folded into it. -/
def folded (c : Compilation) (leaf : DeclId) : TypeDecl :=
  (mergeChain c.sources (c.sources.extensionChain leaf)).toOption.getD default

theorem Merge.MergedTree.folded (h : MergedTree c s d c')
    (hleaf : leaf ∈ c.tree.leaves) :
    s.get leaf = folded c leaf := by
  unfold Stagewise.folded
  rw [h.leaf leaf hleaf]
  rfl

/-- Every leaf belongs to a node. -/
theorem Composition.Formed.forall_leaves {P : DeclId → Prop}
    (ht : Formed s tree) :
    (∀ n ∈ tree.ids, ∀ leaf ∈ (tree.get n).decls, P leaf)
      ↔ ∀ leaf ∈ tree.leaves, P leaf := by
  constructor
  · intro h leaf hleaf
    obtain ⟨n, hn⟩ := Formed.exists_node hleaf
    exact h n (mem_ids.2 (ht.place _ hn)) leaf (ht.mem_decls.2 hn)
  · intro h n _ leaf hleaf
    exact h leaf (List.mem_map.2 ⟨_, ht.mem_decls.1 hleaf, rfl⟩)

theorem forall_distinct_titled (options : Options) (d : TypeDecl) :
    (∀ t ∈ (titled options d).all, t.Distinct) ↔ ∀ t ∈ d.all, t.Distinct := by
  rw [TypeDecl.forall_mem_all, TypeDecl.forall_mem_all]
  exact and_congr_left fun _ => TypeDecl.distinct_congr (.refl _) (.refl _)

/-- That a renaming leaves the signatures of a type different ones. -/
def TypeDecl.StaysApart (g : TypeRef → TypeRef) (d : TypeDecl) : Prop :=
  ∀ a ∈ d.signatures, ∀ b ∈ d.signatures, a.view g = b.view g → a = b

instance (g : TypeRef → TypeRef) (d : TypeDecl) : Decidable (d.StaysApart g) :=
  inferInstanceAs (Decidable (∀ a ∈ d.signatures, ∀ b ∈ d.signatures, a.view g
    = b.view g → a = b))

-- ============================================================== the condition

/-- That no two members of the declarations meet in one type with one name
or signature, where `c` is the compilation when the merging starts. -/
structure Separate (sources : Sources) (tree : Composition) (c : Compilation) :
    Prop where
  /-- The links of a node bring fields of different names, the dropped ones
  aside. -/
  fields : ∀ n ∈ tree.ids, ((tree.get n).decls.flatMap fun leaf =>
    (sources.extensionChain leaf).flatMap fun link =>
      (dropReferences c (sources.get link)).fieldNames).Nodup
  /-- No method is added with the signature of one of the leaf that the
  analysis leaves unbound, as it is static or abstract, or that has another
  identity than its signature gives it. -/
  added : ∀ leaf ∈ tree.leaves, ∀ m ∈ (sources.get leaf).methods,
    ¬ m.IsBoundIn (sources.name leaf) →
      m.signature ∉ addedSignatures sources c leaf
  /-- The global close method is the only one of its signature. -/
  close : ∀ leaf ∈ tree.leaves, tree.IsFirst leaf →
    (c.sources.get leaf).signatures.count closeSignature = 1
  /-- No static method is taken over to where its signature is, and no
  overridden one is kept under a name that is taken. -/
  folding : ∀ leaf ∈ tree.leaves,
    ChainApart c.sources leaf (sources.extensionChain leaf).tail
  /-- The folded leaves of a node bring methods of different signatures. -/
  joining : ∀ n ∈ tree.ids, (tree.get n).decls.Pairwise fun leaf other =>
    ∀ sig ∈ (folded c leaf).signatures, sig ∉ (folded c other).signatures
  /-- The types nested in leaves have distinct members once the formal
  parameters are replaced. -/
  nested : ∀ leaf ∈ tree.leaves, ∀ inner ∈ (folded c leaf).nested,
    ∀ t ∈ inner.all, t.Distinct
  /-- Renaming the merged types makes no two signatures the same. -/
  renamed : ∀ p ∈ unrenamed? c, ∀ t ∈ p.1.all, t.StaysApart p.2

-- ================================================================ the theorem

section

variable (hform : SameForm tree c.tree)
  (hheads : Sources.SameHeads sources c.sources)
  (hgains : ∀ leaf ∈ tree.leaves, ∀ link ∈ sources.extensionChain leaf,
    Gains (dropReferences c (sources.get link)) (c.sources.get link))
  (hmerged : MergedTree c s d c')

include hform hheads hgains hmerged

/-- A folded leaf has the fields of its links, the dropped ones aside. -/
theorem fieldNames_folded (hleaf : leaf ∈ tree.leaves) :
    (folded c leaf).fieldNames
      = (sources.extensionChain leaf).flatMap fun link =>
      (dropReferences c (sources.get link)).fieldNames := by
  rw [← hmerged.folded (hform.leaves.symm ▸ hleaf),
    fieldNames_mergeChain (hmerged.leaf leaf (hform.leaves.symm ▸ hleaf)),
    hheads.extensionChain]
  refine List.flatMap_congr fun link hlink => ?_
  exact map_eq_of_map_eq (Field.name_outline id)
    (hgains leaf hleaf link hlink).fields

/-- The merged type has distinct members, and so have all types in it,
exactly if nothing meets in the leaves and when they are folded and
joined. -/
theorem forall_distinct_merged (ht : Formed sources tree) :
    (∀ t ∈ d.all, t.Distinct) ↔
      (∀ n ∈ tree.ids, ((tree.get n).decls.flatMap fun leaf =>
        (sources.extensionChain leaf).flatMap fun link =>
          (dropReferences c (sources.get link)).fieldNames).Nodup)
      ∧ (∀ leaf ∈ tree.leaves, (c.sources.get leaf).signatures.Nodup
        ∧ ChainApart c.sources leaf (sources.extensionChain leaf).tail)
      ∧ (∀ n ∈ tree.ids, (tree.get n).decls.Pairwise fun leaf other =>
        ∀ sig ∈ (folded c leaf).signatures, sig ∉ (folded c other).signatures)
      ∧ ∀ leaf ∈ tree.leaves, ∀ inner ∈ (folded c leaf).nested,
      ∀ t ∈ inner.all, t.Distinct := by
  have htree : Formed sources c.tree := hform.formed ht
  have hmem : ∀ {n leaf}, leaf ∈ (tree.get n).decls →
      leaf ∈ tree.leaves := fun hleaf =>
    List.mem_map.2 ⟨_, ht.mem_decls.1 hleaf, rfl⟩
  have hfolded : ∀ {leaf}, leaf ∈ tree.leaves →
      s.get leaf = folded c leaf := fun hleaf =>
    hmerged.folded (hform.leaves.symm ▸ hleaf)
  rw [Joins.forall_distinct (c := { c with sources := s }) htree hmerged.joins]
  show (∀ n ∈ c.tree.ids, _) ↔ _
  simp only [hform.ids, hform.decls, forall_and]
  refine and_congr ?_ (and_congr ?_ (and_congr ?_ ?_))
  · refine forall₂_congr fun n _ => ?_
    rw [List.flatMap_congr fun leaf hleaf => (congrArg TypeDecl.fieldNames
      (hfolded (hmem hleaf))).trans
      (fieldNames_folded hform hheads hgains hmerged (hmem hleaf))]
  · rw [ht.forall_leaves, ← forall_and]
    simp only [← forall_and]
    refine forall₂_congr fun leaf hleaf => ?_
    have hchain := hmerged.leaf leaf (hform.leaves.symm ▸ hleaf)
    rw [hheads.extensionChain] at hchain
    obtain ⟨above, habove⟩ :=
      Sources.extensionChain_eq_cons (ht.participating leaf hleaf)
    rw [habove] at hchain ⊢
    exact nodup_mergeChain hchain
  · refine forall₂_congr fun n _ =>
      ⟨fun h => h.imp_of_mem ?_, fun h => h.imp_of_mem ?_⟩
    · intro a b ha hb hdisjoint
      rw [hfolded (hmem ha), hfolded (hmem hb)] at hdisjoint
      exact fun _ hsig => hdisjoint hsig
    · intro a b ha hb hdisjoint
      rw [hfolded (hmem ha), hfolded (hmem hb)]
      exact fun sig hsig => hdisjoint sig hsig
  · rw [ht.forall_leaves]
    refine forall₂_congr fun leaf hleaf => ?_
    rw [hfolded hleaf]

end

/-- Of declarations with distinct members a successful compilation makes
types with distinct members, the outermost one and all that are nested in
it, exactly if no two members meet on the way. -/
theorem compile_distinguishes (htree : Built sources tree)
    (hdistinct : ∀ d ∈ sources.decls, d.Distinct)
    (hcompile : compile sources tree options = .ok compiled) :
    (∀ t ∈ compiled.merged.all, t.Distinct)
      ↔ Separate sources tree (withLifecycle sources tree options) := by
  have ht := htree.formed
  have hcoherent := Sources.coherent_of_nodup fun d hd =>
    (hdistinct d hd).methods
  obtain ⟨_, _, _, hproduces⟩ := compile_produces ht hcompile
  have hform := hproduces.form
  have hheads := hproduces.heads
  have hgains := hproduces.gains
  obtain ⟨_, _, c', -, -, hproduce⟩ := compile_runs hcompile
  have hformed := hform.formed (ht.sameHeads hheads)
  obtain ⟨s, d, c₁, g, hmerged, hunrenamed, hout⟩ :=
    produce_distinct hformed _ c' hproduce
  rw [hout]
  simp only [TypeDecl.distinctIn_iff, forall_and]
  rw [forall_distinct_titled,
    forall_distinct_merged hform hheads hgains hmerged ht]
  have hleaf : (∀ leaf ∈ tree.leaves,
        ((withLifecycle sources tree options).sources.get
          leaf).signatures.Nodup) ↔
      ∀ leaf ∈ tree.leaves,
        (∀ m ∈ (sources.get leaf).methods, ¬ m.IsBoundIn (sources.name leaf) →
          m.signature ∉ addedSignatures sources
            (withLifecycle sources tree options) leaf)
        ∧ (tree.IsFirst leaf →
          ((withLifecycle sources tree options).sources.get
            leaf).signatures.count closeSignature = 1) := by
    refine forall₂_congr fun leaf hleaf => ?_
    obtain ⟨new, hnew, hnodup, hbound⟩ :=
      compile_arrives ht hcoherent hcompile hleaf
    have hlt := Sources.lt_of_isParticipating (ht.participating leaf hleaf)
    exact nodup_leaf_signatures hnew
      (hdistinct _ (Sources.get_mem hlt)).methods hnodup hbound
  generalize withLifecycle sources tree options = c at *
  constructor
  · rintro ⟨⟨hfields, hfolding, hjoining, hnested⟩, hrenaming⟩
    have hadded := hleaf.1 fun leaf hleaf => (hfolding leaf hleaf).1
    refine ⟨hfields, fun leaf hl => (hadded leaf hl).1,
      fun leaf hl => (hadded leaf hl).2,
      fun leaf hl => (hfolding leaf hl).2, hjoining, hnested, ?_⟩
    intro p hp
    rw [hunrenamed, Option.mem_some_iff] at hp
    exact hp ▸ hrenaming
  · intro h
    have hsignatures :=
      hleaf.2 fun leaf hl => ⟨h.added leaf hl, h.close leaf hl⟩
    exact ⟨⟨h.fields, fun leaf hl => ⟨hsignatures leaf hl, h.folding leaf hl⟩,
      h.joining, h.nested⟩, h.renamed _ hunrenamed⟩

/-- In a type of three layers with a part nothing meets. The method that the
middle layer overrides is kept under another name. -/
theorem compile_distinguishes_layers : ∃ compiled,
    compile (layeredSources []) layeredTree {} = .ok compiled
      ∧ (∀ t ∈ compiled.merged.all, t.Distinct)
      ∧ ("_Base_run", []) ∈ compiled.merged.signatures := by
  obtain ⟨compiled, hcompile, hkept⟩ := exists_compiled
    (p := fun compiled => decide
      (("_Base_run", []) ∈ compiled.merged.signatures))
    (s := layeredSources []) (t := layeredTree) (o := {}) (by decide +kernel)
  have hseparate : Separate (layeredSources []) layeredTree
      (withLifecycle (layeredSources []) layeredTree {}) := by
    constructor
    all_goals decide +kernel
  have hdistinct :=
    (compile_distinguishes (built_layeredTree []) (by decide +kernel)
      hcompile).2 hseparate
  exact ⟨compiled, hcompile, hdistinct, of_decide_eq_true hkept⟩

-- ================================================================= what meets

/-- That declarations with distinct members are compiled to types without. -/
def Muddles (s : Sources) (t : Composition) : Prop :=
  Built s t ∧ (∀ d ∈ s.decls, d.Distinct)
    ∧ ∃ compiled, compile s t {} = .ok compiled
    ∧ ¬ ∀ t ∈ compiled.merged.all, t.Distinct

theorem muddles_of_compiled {s : Sources} {t : Composition} (ht : Built s t)
    (hdistinct : ∀ d ∈ s.decls, d.Distinct)
    (hmuddled : (compile s t {}).toOption.any
      (fun compiled => decide ¬ ∀ t ∈ compiled.merged.all,
        t.Distinct) = true) : Muddles s t := by
  obtain ⟨compiled, hcompile, hnot⟩ := exists_compiled hmuddled
  exact ⟨ht, hdistinct, compiled, hcompile, of_decide_eq_true hnot⟩

def staticMethod (name : String) : Method :=
  { name, returns := .void, modifiers := { isStatic := true } }

/-- A type with a stage `X` and the methods given. -/
def stageDecl (name : String) (methods : List Method) : TypeDecl :=
  { TypeDecl.participating name with
    fields :=
      [{ name := "x", type := .int, init := some (.literal (.int (-1))) }]
    methods }

/-- A method that takes an object of the type given. -/
def takeMethod (type : String) : Method :=
  { name := "take", returns := .void, params := [⟨"from", .named type⟩] }

def sourcesOf (ds : List TypeDecl) : Sources :=
  { decls := ds.map TypeDecl.assignIdentities }

/-- One declaration at the root. -/
def singleTree : Composition :=
  { nodes := [{ decls := [⟨0⟩] }], leafNodes := [(⟨0⟩, ⟨0⟩)],
    linkNodes := [(⟨0⟩, ⟨0⟩)] }

/-- Two declarations at the root. -/
def doubleTree : Composition :=
  { nodes := [{ decls := [⟨0⟩, ⟨1⟩] }]
    leafNodes := [(⟨0⟩, ⟨0⟩), (⟨1⟩, ⟨0⟩)]
    linkNodes := [(⟨0⟩, ⟨0⟩), (⟨1⟩, ⟨0⟩)] }

/-- Two members meet in one type: two fields of declarations that are joined;
a static method and one that lifecycle adds; static methods of a type and
its base; two methods whose parameters are of types that are joined. -/
theorem compile_muddles :
    Muddles (sourcesOf [stageDecl "A" [], stageDecl "B" []]) doubleTree
      ∧ Muddles (sourcesOf [stageDecl "A" [staticMethod "doCloseX"]])
        singleTree
      ∧ Muddles (sourcesOf [stageDecl "Base" [staticMethod "make"],
          { TypeDecl.participating "Leaf" with
            superclass := some (.named "Base"), methods :=
              [staticMethod "make"] }]) genericTree
      ∧ Muddles (sourcesOf [stageDecl "A" [takeMethod "A", takeMethod "B"],
          TypeDecl.participating "B"]) doubleTree := by
  refine ⟨muddles_of_compiled
      ((Built.start.add (n := ⟨0⟩) (d := ⟨0⟩) (by decide) rfl).add
        (n := ⟨0⟩) (d := ⟨1⟩) (by decide) rfl) ?_ ?_,
    muddles_of_compiled
    (.add (n := ⟨0⟩) (d := ⟨0⟩) .start (by decide) rfl) ?_ ?_,
    muddles_of_compiled
    (.add (n := ⟨0⟩) (d := ⟨1⟩) .start (by decide) rfl) ?_ ?_,
    muddles_of_compiled
    ((Built.start.add (n := ⟨0⟩) (d := ⟨0⟩) (by decide) rfl).add
      (n := ⟨0⟩) (d := ⟨1⟩) (by decide) rfl) ?_ ?_⟩
  all_goals decide +kernel

end Stagewise
