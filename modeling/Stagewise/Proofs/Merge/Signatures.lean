/-
By what the members of the merged types are told apart.

The type of a node has the fields and methods of the node's leaves, each
with its chain folded into it (`Joins.members`). Two leaves can bring the
same name or signature, as nothing looks at it when they are joined. A
property of all types in the merged one is a property of the type of every
node and of all that is nested in leaves (`Joins.forall_mem_all`), so the
merged type has distinct members exactly if this holds node by node and
leaf by leaf (`Joins.forall_distinct`).
-/
import Stagewise.Proofs.Merge.Folding

namespace Stagewise.Merge

open Compilation Stagewise.Composition Step

variable {c : Compilation} {n : CompositionId} {d : TypeDecl}

/-- The type of a node has the members of the node's leaves, and nested in
it are the types nested in them and those of the node's children. -/
theorem Joins.members (h : Joins c n d) :
    d.fieldNames = (c.tree.get n).decls.flatMap
      (fun leaf => (c.sources.get leaf).fieldNames)
      ∧ d.signatures = (c.tree.get n).decls.flatMap
        (fun leaf => (c.sources.get leaf).signatures)
      ∧ d.nested = (c.tree.get n).decls.flatMap
        (fun leaf => (c.sources.get leaf).nested)
          ++ (c.tree.children n).map (joined c) := by
  obtain ⟨own, children, hown, hchildren, rfl⟩ := h.eq_nestAll
  obtain ⟨-, hmethods, hnested⟩ := nestAll_rest own children
  have hfields :=
    map_fields_nestAll (g := Field.name) (fun _ _ => rfl) own children
  obtain ⟨hownFields, hownNested, hownMethods⟩ := mergeDeclarations_eq_ok hown
  rw [List.flatMap_map] at hownFields hownNested hownMethods
  refine ⟨?_, ?_, ?_⟩
  · unfold TypeDecl.fieldNames
    rw [hfields, hownFields, List.map_flatMap]
  · unfold TypeDecl.signatures
    rw [hmethods, hownMethods, List.map_flatMap]
  · rw [hnested, hownNested, map_fst_eq_joined hchildren]

/-- What holds of all types in the type of a node holds of the type itself,
of what is nested in leaves, and in the types of the children. -/
theorem Joins.forall_mem_all_joined {P : TypeDecl → Prop}
    (h : Joins c n (joined c n)) :
    (∀ t ∈ (joined c n).all, P t) ↔ P (joined c n)
      ∧ (∀ leaf ∈ (c.tree.get n).decls, ∀ inner ∈ (c.sources.get leaf).nested,
          ∀ t ∈ inner.all, P t)
      ∧ ∀ child ∈ c.tree.children n, ∀ t ∈ (joined c child).all, P t := by
  rw [TypeDecl.forall_mem_all, h.members.2.2, List.forall_mem_append,
    List.forall_mem_map]
  refine and_congr_right fun _ => and_congr_left fun _ => ?_
  simp only [List.mem_flatMap]
  exact ⟨fun hall leaf hleaf inner hinner => hall inner ⟨leaf, hleaf, hinner⟩,
    fun hall inner ⟨leaf, hleaf, hinner⟩ => hall leaf hleaf inner hinner⟩

/-- A child stands behind its parent. -/
theorem lt_of_mem_children {s : Sources} {child : CompositionId}
    (ht : Formed s c.tree) (h : child ∈ c.tree.children n) :
    n.index < child.index ∧ child.index < c.tree.nodes.length := by
  obtain ⟨hlt, hparent⟩ := mem_children.1 h
  refine ⟨?_, hlt⟩
  have hne : child ≠ Composition.root := by
    rintro rfl
    rw [ht.root] at hparent
    cases hparent
  obtain ⟨p, hp, hp'⟩ := ht.parent child hlt hne
  rwa [Option.some.inj (hp.symm.trans hparent)] at hp'

/-- What holds of all types in the merged one holds of the type of every
node and of all types nested in leaves. -/
theorem Joins.forall_mem_all {P : TypeDecl → Prop} {s : Sources}
    (ht : Formed s c.tree)
    (h : Joins c Composition.root d) : (∀ t ∈ d.all, P t) ↔ ∀ n ∈ c.tree.ids,
      P (joined c n) ∧ ∀ leaf ∈ (c.tree.get n).decls,
      ∀ inner ∈ (c.sources.get leaf).nested,
        ∀ t ∈ inner.all, P t := by
  have hjoins : ∀ n ∈ c.tree.ids, Joins c n (joined c n) := fun n hn =>
    (h.isTypeOf ht n.index (mem_ids.1 hn)).1
  rw [h.eq_joined]
  constructor
  · -- down from the root, as a parent stands before its children
    intro hall
    have hdown : ∀ i, i < c.tree.nodes.length →
        ∀ t ∈ (joined c ⟨i⟩).all, P t := by
      intro i
      induction i using Nat.strongRecOn with
      | ind i ih =>
          intro hi
          by_cases hroot : (⟨i⟩ : CompositionId) = Composition.root
          · exact hroot ▸ hall
          · obtain ⟨p, hp, hlt⟩ := ht.parent ⟨i⟩ hi hroot
            have hplt := Nat.lt_trans hlt hi
            obtain ⟨-, -, hchildren⟩ :=
              (hjoins p (mem_ids.2 hplt)).forall_mem_all_joined.1
                (ih p.index hlt hplt)
            exact hchildren ⟨i⟩ (mem_children.2 ⟨hi, hp⟩)
    intro n hn
    obtain ⟨hown, hnested, -⟩ :=
      (hjoins n hn).forall_mem_all_joined.1 (hdown n.index (mem_ids.1 hn))
    exact ⟨hown, hnested⟩
  · -- up from the last node
    intro hall
    have hup : ∀ k i, i < c.tree.nodes.length → c.tree.nodes.length ≤ i + k →
        ∀ t ∈ (joined c ⟨i⟩).all, P t := by
      intro k
      induction k with
      | zero => exact fun i hi hk => absurd hi (Nat.not_lt.2 hk)
      | succ k ih =>
          intro i hi hk
          obtain ⟨hown, hnested⟩ := hall ⟨i⟩ (mem_ids.2 hi)
          refine (hjoins ⟨i⟩ (mem_ids.2 hi)).forall_mem_all_joined.2
            ⟨hown, hnested, ?_⟩
          intro child hchild
          obtain ⟨hlt, hchildlt⟩ := lt_of_mem_children ht hchild
          exact ih child.index hchildlt (by dsimp only at hlt; omega)
    exact hup c.tree.nodes.length Composition.root.index ht.nonempty
      (Nat.le_add_left _ _)

/-- The merged type has distinct members, and so have all types in it,
exactly if the leaves of every node bring different names and signatures and
the types nested in them have distinct members. -/
theorem Joins.forall_distinct {s : Sources} (ht : Formed s c.tree)
    (h : Joins c Composition.root d) :
    (∀ t ∈ d.all, t.Distinct) ↔ ∀ n ∈ c.tree.ids,
      ((c.tree.get n).decls.flatMap fun leaf =>
        (c.sources.get leaf).fieldNames).Nodup
        ∧ (∀ leaf ∈ (c.tree.get n).decls,
          (c.sources.get leaf).signatures.Nodup)
        ∧ ((c.tree.get n).decls.Pairwise fun leaf other =>
            (c.sources.get leaf).signatures.Disjoint
              (c.sources.get other).signatures)
        ∧ ∀ leaf ∈ (c.tree.get n).decls, ∀ inner ∈ (c.sources.get leaf).nested,
            ∀ t ∈ inner.all, t.Distinct := by
  rw [h.forall_mem_all ht]
  refine forall₂_congr fun n hn => ?_
  obtain ⟨hfields, hsignatures, -⟩ :=
    (h.isTypeOf ht n.index (mem_ids.1 hn)).1.members
  have hdistinct : (joined c n).Distinct
      ↔ (joined c n).fieldNames.Nodup ∧ (joined c n).signatures.Nodup :=
    ⟨fun h => ⟨h.fields, h.methods⟩, fun h => ⟨h.1, h.2⟩⟩
  rw [hdistinct, hfields, hsignatures, and_assoc]
  refine and_congr_right fun _ => ?_
  rw [List.nodup_flatMap, and_assoc]

/-- A folded chain has the field names of its links. -/
theorem fieldNames_mergeChain {s : Sources} {chain : List DeclId}
    (h : mergeChain s chain = .ok d) :
    d.fieldNames = chain.flatMap fun link => (s.get link).fieldNames := by
  cases chain with
  | nil => cases h
  | cons leaf above =>
      obtain ⟨-, hfields, -⟩ := mergeChain_eq_ok h
      rw [← List.map_flatMap] at hfields
      have hnames := map_eq_of_map_eq (Field.name_outline TypeRef.hide) hfields
      rwa [List.map_flatMap] at hnames

end Stagewise.Merge
