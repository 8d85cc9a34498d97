/-
What the merged types consist of.

First every leaf takes in its chain. No chain reads a leaf of another one,
so each is folded as if it were the only one (`mergeLeaves_folded`).

The type of a node is then that of its declarations, which has all their
fields, nested types and methods (`mergeDeclarations_eq_ok`), with the
types of the children nested in it in order (`mergeNode_succ_eq_ok`). Nesting a
child turns the field that leads to it into a final one of the child's
type, and leaves what is nested already and which fields there are
(`find?_nestAll`).
-/
import Mathlib.Data.List.Forall2
import Stagewise.Merge.Tree
import Stagewise.Proofs.Composition.Paths
import Stagewise.Proofs.Merge.Chain
import Stagewise.Proofs.Sources
import Stagewise.Proofs.Step

namespace Stagewise.Merge

open Compilation Stagewise.Composition Step

variable {c c' : Compilation} {n m : CompositionId}
variable {d own parent child : TypeDecl}

-- ================================================================= the leaves

/-- Every leaf takes in its chain, as the chain was before. -/
theorem mergeLeaves_folded (ht : Formed c.sources c.tree) :
    Ensures (c.chains.mapM fun (leaf, chain) => mergeLeaf leaf chain)
      c fun _ c' =>
      ∃ s, c' = { c with sources := s } ∧ ∀ leaf ∈ c.tree.leaves,
        mergeChain c.sources (c.sources.extensionChain leaf)
          = .ok (s.get leaf) := by
  have hchains : c.chains.map Prod.fst = c.tree.leaves := by
    unfold Compilation.chains
    rw [List.map_map]
    exact List.map_id _
  have hchain : ∀ p ∈ c.chains, p.1 ∈ c.tree.leaves
      ∧ p.2 = c.sources.extensionChain p.1 := by
    intro p hp
    obtain ⟨leaf, hleaf, rfl⟩ := List.mem_map.1 hp
    exact ⟨hleaf, rfl⟩
  -- only the leaves whose turn has been are others than before
  refine Ensures.mono
      (ensures_mapM_split (I := fun done c' => ∃ s,
        c' = { c with sources := s }
      ∧ s.decls.length = c.sources.decls.length
      ∧ (∀ d, d ∉ done.map Prod.fst → s.get d = c.sources.get d)
      ∧ ∀ p ∈ done, mergeChain c.sources p.2 = .ok (s.get p.1))
    ?_ ⟨c.sources, rfl, rfl, fun _ _ => rfl, List.forall_mem_nil _⟩) ?_
  · rintro done ⟨leaf, chain⟩ hsplit _ ⟨s, rfl, hlength, hrest, hdone⟩
    have hmem : (leaf, chain) ∈ c.chains :=
      hsplit.subset (List.mem_append_right _ (List.mem_singleton_self _))
    obtain ⟨hleaf, hlinks⟩ := hchain _ hmem
    dsimp only at hleaf hlinks ⊢
    subst hlinks
    have hfresh : leaf ∉ done.map Prod.fst := by
      have hnodup :
          ((done ++ [(leaf, c.sources.extensionChain leaf)]).map
            Prod.fst).Nodup :=
        (hsplit.map Prod.fst).sublist.nodup (hchains ▸ ht.nodup_leaves)
      rw [List.map_append] at hnodup
      intro hin
      exact (List.nodup_append.1 hnodup).2.2 leaf hin leaf (by simp) rfl
    have hsame : mergeChain s (c.sources.extensionChain leaf)
        = mergeChain c.sources (c.sources.extensionChain leaf) := by
      unfold mergeChain
      refine congrArg mergeLinks (List.map_congr_left fun link hlink =>
        hrest link ?_)
      -- a link that is another leaf would belong to two chains
      intro hin
      obtain ⟨p, hp, rfl⟩ := List.mem_map.1 hin
      have hleaf' := (hchain p (hsplit.subset (List.mem_append_left _ hp))).1
      have heq := ht.leaf_unique hleaf' hleaf
        (Sources.mem_extensionChain_self (ht.participating _ hleaf'))
        (List.mem_reverse.1 hlink)
      exact hfresh (heq ▸ hin)
    unfold mergeLeaf
    simp only [ensures_bind, ensures_get, ensures_ofExcept,
      ensures_modifySources, ensures_pure]
    rw [hsame]
    intro d hd
    have hlt : leaf.index < s.decls.length :=
      hlength.symm ▸ Sources.lt_of_isParticipating
        (ht.participating leaf hleaf)
    refine ⟨_, rfl, (Sources.length_set ..).trans hlength,
      fun d' hd' => ?_, ?_⟩
    · simp only [List.map_append, List.map_cons, List.map_nil, List.mem_append,
        List.mem_singleton, not_or] at hd'
      rw [Sources.get_set_of_ne hd'.2]
      exact hrest d' hd'.1
    · refine List.forall_mem_append.2 ⟨fun p hp => ?_,
        List.forall_mem_singleton.2 ?_⟩
      · have hne : p.1 ≠ leaf :=
          fun e => hfresh (e ▸ List.mem_map.2 ⟨p, hp, rfl⟩)
        rw [Sources.get_set_of_ne hne]
        exact hdone p hp
      · rw [Sources.get_set_self hlt]
        exact hd
  · rintro _ _ ⟨s, rfl, -, -, hdone⟩
    exact ⟨s, rfl, fun leaf hleaf => hdone _
      (List.mem_map.2 ⟨leaf, hleaf, rfl⟩)⟩

-- ======================================================== one node's own type

/-- Combined declarations have the members of all of them. -/
theorem foldl_absorb (ds : List TypeDecl) (d : TypeDecl) :
    (ds.foldl absorb d).fields = d.fields ++ ds.flatMap TypeDecl.fields
      ∧ (ds.foldl absorb d).nested = d.nested ++ ds.flatMap TypeDecl.nested
      ∧ (ds.foldl absorb d).methods
        = d.methods ++ ds.flatMap TypeDecl.methods := by
  induction ds generalizing d with
  | nil => simp
  | cons d' ds ih =>
      obtain ⟨hfields, hnested, hmethods⟩ := ih (absorb d d')
      rw [List.foldl_cons, hfields, hnested, hmethods]
      simp only [absorb, List.flatMap_cons, List.append_assoc, and_self]

/-- The own type of a node has the members of all its declarations. -/
theorem mergeDeclarations_eq_ok {ds : List TypeDecl} {erases : Bool}
    (h : mergeDeclarations ds erases = .ok d) :
    d.fields = ds.flatMap TypeDecl.fields
      ∧ d.nested = ds.flatMap TypeDecl.nested
      ∧ d.methods = ds.flatMap TypeDecl.methods := by
  have hdone : ∀ own : TypeDecl, d = { own with
      typeParams := if erases then [] else own.typeParams
      modifiers := { own.modifiers with isAbstract := false } } →
      d.fields = own.fields ∧ d.nested = own.nested
          ∧ d.methods = own.methods := by
    rintro own rfl
    exact ⟨rfl, rfl, rfl⟩
  match ds, h with
  | [], h => cases h
  | [own], h =>
      obtain ⟨hfields, hnested, hmethods⟩ := hdone own (Except.ok.inj h).symm
      simp [hfields, hnested, hmethods]
  | first :: second :: rest, h =>
      obtain ⟨hfields, hnested, hmethods⟩ := hdone _ (Except.ok.inj h).symm
      rw [hfields, hnested, hmethods]
      exact foldl_absorb (first :: second :: rest) _

-- =========================================================== nesting children

/-- A type with the types of children nested in it in order. -/
def nestAll (own : TypeDecl) (children : List (TypeDecl × FieldRef)) :
    TypeDecl :=
  children.foldl (fun parent p => nestChild parent p.1 p.2) own

@[simp] theorem nested_nestChild (parent child : TypeDecl) (f : FieldRef) :
    (nestChild parent child f).nested = parent.nested ++ [child] := rfl

@[simp] theorem name_nestChild (parent child : TypeDecl) (f : FieldRef) :
    (nestChild parent child f).name = parent.name := rfl

@[simp] theorem methods_nestChild (parent child : TypeDecl) (f : FieldRef) :
    (nestChild parent child f).methods = parent.methods := rfl

/-- What is found first is what changes there. -/
theorem find?_modify_of_findIdx? {α : Type} {p : α → Bool} {k : α → α}
    {as : List α} {i : Nat}
    (hk : ∀ a, p (k a) = p a) (hi : as.findIdx? p = some i) :
    (as.modify i k).find? p = (as.find? p).map k := by
  induction as generalizing i with
  | nil => cases hi
  | cons a as ih =>
      rw [List.findIdx?_cons] at hi
      split at hi
      · rename_i ha
        obtain rfl := Option.some.inj hi
        rw [List.modify_zero_cons, List.find?_cons_of_pos ((hk a).trans ha),
          List.find?_cons_of_pos ha]
        rfl
      · rename_i ha
        obtain ⟨j, hj, rfl⟩ := Option.map_eq_some_iff.1 hi
        rw [List.modify_succ_cons, List.find?_cons_of_neg ha,
          List.find?_cons_of_neg ha]
        exact ih hj

/-- Where something else is looked for, the change is not seen. -/
theorem find?_modify_of_disjoint {α : Type} {p q : α → Bool} {k : α → α}
    {as : List α} {i : Nat}
    (hk : ∀ a, q (k a) = q a) (hpq : ∀ a, p a = true → q a = false)
    (hi : as.findIdx? p = some i) : (as.modify i k).find? q = as.find? q := by
  induction as generalizing i with
  | nil => cases hi
  | cons a as ih =>
      rw [List.findIdx?_cons] at hi
      split at hi
      · rename_i ha
        obtain rfl := Option.some.inj hi
        have hq := hpq a ha
        rw [List.modify_zero_cons, List.find?_cons_of_neg (by simp [hk, hq]),
          List.find?_cons_of_neg (by simp [hq])]
      · obtain ⟨j, hj, rfl⟩ := Option.map_eq_some_iff.1 hi
        rw [List.modify_succ_cons, List.find?_cons, List.find?_cons, ih hj]

/-- Nesting a child changes nothing of the fields but the type, the initial
value and the modifiers of one. -/
theorem map_fields_nestChild {α : Type} {g : Field → α}
    (hg : ∀ t f, g (holdNew t f) = g f)
    (parent child : TypeDecl) (f : FieldRef) :
    (nestChild parent child f).fields.map g = parent.fields.map g := by
  unfold nestChild
  dsimp only
  split
  · exact map_modify_eq_map (hg _)
  · rfl

theorem find?_nestChild_self (child : TypeDecl) {f : FieldRef}
    (h : ∃ field ∈ parent.fields, field.id = f.identity) :
    ∃ field, (nestChild parent child f).fields.find? (·.id == f.identity)
      = some field
      ∧ field.modifiers.isFinal = true ∧ field.type = .named child.name := by
  obtain ⟨field, hfield, hid⟩ := h
  have hsome : (parent.fields.find? (·.id == f.identity)).isSome = true :=
    List.find?_isSome.2 ⟨field, hfield, beq_iff_eq.2 hid⟩
  obtain ⟨first, hfirst⟩ := Option.isSome_iff_exists.1 hsome
  obtain ⟨i, hi⟩ : ∃ i, parent.fieldIndexById? f.identity = some i := by
    rw [← Option.isSome_iff_exists, TypeDecl.fieldIndexById?,
      List.findIdx?_isSome, List.any_eq_true]
    exact ⟨field, hfield, beq_iff_eq.2 hid⟩
  refine ⟨holdNew (.named child.name) first, ?_, rfl, rfl⟩
  unfold nestChild
  rw [hi]
  exact (find?_modify_of_findIdx? (fun _ => by rfl) hi).trans
    (by rw [hfirst]; rfl)

theorem find?_nestChild_of_ne {f : FieldRef} {id : Identity}
    (h : id ≠ f.identity) :
    (nestChild parent child f).fields.find? (·.id == id)
      = parent.fields.find? (·.id == id) := by
  unfold nestChild
  dsimp only
  split
  · rename_i i hi
    refine find?_modify_of_disjoint (fun _ => by rfl)
      (fun field hfield => ?_) hi
    rw [beq_iff_eq] at hfield
    exact beq_eq_false_iff_ne.2 fun he => h (he.symm.trans hfield)
  · rfl

-- --------------------------------------------------------------- all children

section

variable {children : List (TypeDecl × FieldRef)}

/-- Children are nested behind what is nested already. -/
theorem nestAll_rest (own : TypeDecl) (children : List (TypeDecl × FieldRef)) :
    (nestAll own children).name = own.name
      ∧ (nestAll own children).methods = own.methods
      ∧ (nestAll own children).nested
        = own.nested ++ children.map Prod.fst := by
  induction children generalizing own with
  | nil => simp [nestAll]
  | cons p children ih =>
      obtain ⟨hname, hmethods, hnested⟩ := ih (nestChild own p.1 p.2)
      rw [nestAll, List.foldl_cons, ← nestAll, hname, hmethods, hnested]
      simp

theorem map_fields_nestAll {α : Type} {g : Field → α}
    (hg : ∀ t f, g (holdNew t f) = g f)
    (own : TypeDecl) (children : List (TypeDecl × FieldRef)) :
    (nestAll own children).fields.map g = own.fields.map g := by
  induction children generalizing own with
  | nil => rfl
  | cons p children ih =>
      exact (ih _).trans (map_fields_nestChild hg own p.1 p.2)

theorem find?_nestAll_of_ne {id : Identity}
    (h : ∀ p ∈ children, id ≠ p.2.identity) :
    (nestAll own children).fields.find? (·.id == id)
      = own.fields.find? (·.id == id) := by
  induction children generalizing own with
  | nil => rfl
  | cons p children ih =>
      obtain ⟨hp, hrest⟩ := List.forall_mem_cons.1 h
      exact (ih hrest).trans (find?_nestChild_of_ne hp)

/-- Where children have different fields leading to them, each field is a
final one of its child's type in the end. -/
theorem find?_nestAll
    (hchildren : children.Pairwise fun p q => p.2.identity ≠ q.2.identity)
    {p : TypeDecl × FieldRef} (hp : p ∈ children)
    (hfield : ∃ field ∈ own.fields, field.id = p.2.identity) :
    ∃ field, (nestAll own children).fields.find? (·.id == p.2.identity)
      = some field
      ∧ field.modifiers.isFinal = true ∧ field.type = .named p.1.name := by
  induction children generalizing own with
  | nil => cases hp
  | cons q children ih =>
      obtain ⟨hq, hrest⟩ := List.pairwise_cons.1 hchildren
      rcases List.mem_cons.1 hp with rfl | hp
      · obtain ⟨field, hfind, hspec⟩ := find?_nestChild_self p.1 hfield
        exact ⟨field, (find?_nestAll_of_ne hq).trans hfind, hspec⟩
      · refine ih hrest hp ?_
        have hids :=
          map_fields_nestChild (g := Field.id) (fun _ _ => rfl) own q.1 q.2
        obtain ⟨field, hfield, hid⟩ := hfield
        have hmem : p.2.identity
            ∈ (nestChild own q.1 q.2).fields.map Field.id :=
          hids ▸ List.mem_map.2 ⟨field, hfield, hid⟩
        exact List.mem_map.1 hmem

end

-- ================================================================ whole nodes

/-- What it takes for the children of a node to be nested, given what their
merging answers. -/
theorem foldlM_nest_eq_ok {answer : CompositionId → Except Failure Merged}
    {error : CompositionId → Failure} {cs : List CompositionId}
    {start merged : Merged}
    (h : cs.foldlM (fun (merged : Merged) child =>
      match (c.tree.get child).parentAccess with
      | none => throw (error child)
      | some f => do
          let nested ← answer child
          return Merged.mk (nestChild merged.type nested.type f)
            (merged.count + nested.count)) start
        = .ok merged) :
    ∃ children : List (TypeDecl × FieldRef), List.Forall₂ (fun child p =>
        (c.tree.get child).parentAccess = some p.2
          ∧ ∃ k, answer child = .ok ⟨p.1, k⟩) cs children
      ∧ merged.type = nestAll start.type children := by
  induction cs generalizing start with
  | nil =>
      obtain rfl := Except.ok.inj h
      exact ⟨[], .nil, rfl⟩
  | cons child cs ih =>
      rw [List.foldlM_cons] at h
      obtain ⟨next, hnext, hrest⟩ := bind_eq_ok h
      obtain ⟨children, hchildren, htype⟩ := ih hrest
      split at hnext
      · cases hnext
      · rename_i f hf
        obtain ⟨nested, hnested, hnext⟩ := bind_eq_ok hnext
        obtain rfl := Except.ok.inj hnext
        exact ⟨(nested.type, f) :: children,
          .cons ⟨hf, nested.count, hnested⟩ hchildren, htype⟩

/-- The merged type of a node is its own with the types of its children
nested in it. -/
theorem mergeNode_succ_eq_ok {fuel : Nat} {merged : Merged}
    (h : mergeNode c (fuel + 1) n = .ok merged) :
    ∃ own children,
      mergeDeclarations ((c.tree.get n).decls.map c.sources.get)
        (c.tree.get n).erasesTypeParams
          = .ok own
        ∧ List.Forall₂
          (fun child p => (c.tree.get child).parentAccess = some p.2
            ∧ ∃ k, mergeNode c fuel child = .ok ⟨p.1, k⟩)
          (c.tree.children n) children
        ∧ merged.type = nestAll own children := by
  rw [mergeNode] at h
  dsimp only at h
  split at h
  · cases h
  · obtain ⟨own, hown, h⟩ := bind_eq_ok h
    obtain ⟨children, hchildren, htype⟩ := foldlM_nest_eq_ok h
    exact ⟨own, children, hown, hchildren, htype⟩

/-- A loop that succeeds does so with answers that are there more often. -/
theorem foldlM_eq_ok_of_imp {α β : Type} {f g : β → α → Except Failure β}
    {as : List α} {b b' : β}
    (hfg : ∀ b a b', f b a = .ok b' → g b a = .ok b')
    (h : as.foldlM f b = .ok b') :
    as.foldlM g b = .ok b' := by
  induction as generalizing b with
  | nil => exact h
  | cons a as ih =>
      rw [List.foldlM_cons] at h
      obtain ⟨b₁, hb₁, h⟩ := bind_eq_ok h
      rw [List.foldlM_cons, hfg b a b₁ hb₁]
      exact ih h

/-- More fuel leaves an answer as it is. -/
theorem mergeNode_succ {fuel : Nat} {merged : Merged}
    (h : mergeNode c fuel n = .ok merged) :
    mergeNode c (fuel + 1) n = .ok merged := by
  induction fuel generalizing n merged with
  | zero => cases h
  | succ fuel ih =>
      rw [mergeNode] at h ⊢
      dsimp only at h ⊢
      split at h
      · cases h
      · rename_i hdecls
        rw [if_neg hdecls]
        obtain ⟨own, hown, h⟩ := bind_eq_ok h
        show (mergeDeclarations _ _ >>= _) = _
        rw [hown]
        refine foldlM_eq_ok_of_imp (fun b child b' hb => ?_) h
        split at hb
        · cases hb
        · obtain ⟨nested, hnested, hb⟩ := bind_eq_ok hb
          show (mergeNode c (fuel + 1) child >>= _) = _
          rw [ih hnested]
          exact hb

/-- That merging all below a node answers with a type for it. -/
def Joins (c : Compilation) (n : CompositionId) (d : TypeDecl) : Prop :=
  ∃ k, mergeNode c c.tree.nodes.length n = .ok ⟨d, k⟩

theorem Joins.unique {d' : TypeDecl} (h : Joins c n d) (h' : Joins c n d') :
    d = d' := by
  obtain ⟨_, hk⟩ := h
  obtain ⟨_, hk'⟩ := h'
  exact (Merged.mk.inj (Except.ok.inj (hk.symm.trans hk'))).1

/-- The merged type of a node is that of its declarations with the merged
types of its children nested in it. -/
theorem Joins.eq_nestAll (h : Joins c n d) : ∃ own children,
    mergeDeclarations ((c.tree.get n).decls.map c.sources.get)
      (c.tree.get n).erasesTypeParams
        = .ok own
      ∧ List.Forall₂ (fun child p => (c.tree.get child).parentAccess = some p.2
          ∧ Joins c child p.1) (c.tree.children n) children
      ∧ d = nestAll own children := by
  obtain ⟨k, hk⟩ := h
  cases hlength : c.tree.nodes.length with
  | zero =>
      rw [hlength] at hk
      cases hk
  | succ fuel =>
      rw [hlength] at hk
      obtain ⟨own, children, hown, hchildren, htype⟩ := mergeNode_succ_eq_ok hk
      refine ⟨own, children, hown, hchildren.imp fun child p ⟨hf, k', hk'⟩ =>
        ⟨hf, k', ?_⟩, htype⟩
      rw [hlength]
      exact mergeNode_succ hk'

/-- A node whose type is made has all types below it made. -/
theorem Joins.below (h : Joins c n d) (hm : m ∈ c.tree.children n) :
    ∃ inner f, Joins c m inner ∧ (c.tree.get m).parentAccess = some f := by
  obtain ⟨_, children, -, hchildren, -⟩ := h.eq_nestAll
  obtain ⟨i, hi, rfl⟩ := List.mem_iff_getElem.1 hm
  have hi' : i < children.length := hchildren.length_eq ▸ hi
  obtain ⟨hf, hjoins⟩ := hchildren.get hi hi'
  exact ⟨_, _, hjoins, hf⟩

/-- A child's type is nested with the field that leads to the child. -/
theorem mem_of_forall₂ {cs : List CompositionId}
    {children : List (TypeDecl × FieldRef)}
    (h : List.Forall₂
      (fun child p => (c.tree.get child).parentAccess = some p.2
        ∧ Joins c child p.1) cs children) {f : FieldRef} (hm : m ∈ cs)
    (hd : Joins c m d)
    (hf : (c.tree.get m).parentAccess = some f) : (d, f) ∈ children := by
  induction h with
  | nil => cases hm
  | @cons child p _ _ hchild _ ih =>
      rcases List.mem_cons.1 hm with rfl | hm
      · rw [hd.unique hchild.2, ← Option.some.inj (hchild.1.symm.trans hf)]
        exact List.mem_cons_self
      · exact List.mem_cons_of_mem _ (ih hm)

/-- Where the type of the root is made, those of all nodes are. -/
theorem Joins.all {s : Sources} (ht : Formed s c.tree)
    (h : Joins c Composition.root d) :
    ∀ i, i < c.tree.nodes.length → ∃ inner, Joins c ⟨i⟩ inner := by
  intro i
  induction i using Nat.strongRecOn with
  | ind i ih =>
      intro hi
      by_cases hroot : (⟨i⟩ : CompositionId) = Composition.root
      · exact ⟨d, hroot ▸ h⟩
      · obtain ⟨p, hp, hlt⟩ := ht.parent ⟨i⟩ hi hroot
        obtain ⟨outer, houter⟩ := ih p.index hlt (Nat.lt_trans hlt hi)
        obtain ⟨inner, -, hinner, -⟩ :=
          Joins.below houter (mem_children.2 ⟨hi, hp⟩)
        exact ⟨inner, hinner⟩

/-- Only declarations, the form of the tree and what it says of nodes matter
to the merging. -/
theorem mergeNode_congr (hs : c'.sources = c.sources)
    (ht : SameForm c.tree c'.tree)
    (haccess : ∀ n, (c'.tree.get n).parentAccess = (c.tree.get n).parentAccess)
    (herases : ∀ n, (c'.tree.get n).erasesTypeParams
      = (c.tree.get n).erasesTypeParams)
    (fuel : Nat) (n : CompositionId) :
    mergeNode c' fuel n = mergeNode c fuel n := by
  induction fuel generalizing n with
  | zero => rfl
  | succ fuel ih =>
      have hnames : c'.tree.declNames c.sources
          = c.tree.declNames c.sources := by
        funext m
        unfold Composition.declNames
        rw [ht.decls]
      simp only [mergeNode, hs, ht.decls, ht.children, haccess,
        herases, hnames, ih]

-- ============================================================= the whole tree

/-- The merged type of a node: that of the root is recorded there, and the
others are what merging all below them answers. -/
def mergedType? (c : Compilation) (n : CompositionId) : Option TypeDecl :=
  if n = Composition.root then (c.tree.get Composition.root).merged
  else (mergeNode c c.tree.nodes.length n).toOption.map Merged.type

/-- The type of the root as the options ask for it. -/
def titled (options : Options) (d : TypeDecl) : TypeDecl :=
  { d with
    name := options.name.getD d.name
    package := options.package.orElse fun _ => d.package }

/-- What the links of a node hold, declaration by declaration and each chain
from derived to base. -/
def gathered {α : Type} (c : Compilation) (n : CompositionId)
    (g : TypeDecl → List α) : List α :=
  (c.tree.get n).decls.flatMap fun leaf =>
    (c.sources.extensionChain leaf).flatMap fun link => g (c.sources.get link)

theorem map_gathered {α β : Type} (f : α → β) (g : TypeDecl → List α) :
    (gathered c n g).map f = gathered c n fun d => (g d).map f := by
  unfold gathered
  simp only [List.map_flatMap]

/-- What the merging of a tree leaves: in `s` every leaf has taken in its
chain, and the type made of them is recorded at the root. -/
structure MergedTree (c : Compilation) (s : Sources) (d : TypeDecl)
    (c' : Compilation) : Prop where
  leaf : ∀ leaf ∈ c.tree.leaves,
    mergeChain c.sources (c.sources.extensionChain leaf) = .ok (s.get leaf)
  joins : Joins { c with sources := s } Composition.root d
  state : c' = { c with
    sources := s
    tree := c.tree.modify Composition.root fun x =>
      { x with merged := some (titled c.options d) } }

theorem mergeTree_merged (ht : Formed c.sources c.tree) :
    Ensures mergeTree c fun _ c' => ∃ s d, MergedTree c s d c' := by
  unfold mergeTree setMerged
  simp only [ensures_bind, ensures_get]
  refine (mergeLeaves_folded ht).mono ?_
  rintro _ _ ⟨s, rfl, hleaf⟩
  simp only [ensures_ofExcept, ensures_modifyTree, ensures_pure]
  exact fun merged hmerged =>
    ⟨s, merged.type, hleaf, ⟨merged.count, hmerged⟩, rfl⟩

namespace MergedTree

variable {s : Sources}

/-- Recording the type leaves the rest of the tree. -/
theorem form (h : MergedTree c s d c') : SameForm c.tree c'.tree := by
  rw [h.state]
  exact .modify _ _ (fun _ => rfl) fun _ => rfl

theorem parentAccess (h : MergedTree c s d c') (n : CompositionId) :
    (c'.tree.get n).parentAccess = (c.tree.get n).parentAccess := by
  rw [h.state]
  exact get_modify_congr (g := CompositionNode.parentAccess)
    (f := fun x => { x with merged := some (titled c.options d) })
    (fun _ => rfl) n

theorem path (h : MergedTree c s d c') (n : CompositionId) :
    (c'.tree.get n).path = (c.tree.get n).path := by
  rw [h.state]
  exact get_modify_congr (g := CompositionNode.path)
    (f := fun x => { x with merged := some (titled c.options d) })
    (fun _ => rfl) n

/-- A node that is not the root has the type that was made for it. -/
theorem mergedType?_of_ne (h : MergedTree c s d c') {inner : TypeDecl}
    (hn : n ≠ Composition.root)
    (hinner : Joins { c with sources := s } n inner) :
    mergedType? c' n = some inner := by
  obtain ⟨k, hk⟩ := hinner
  have herases : ∀ m, (c'.tree.get m).erasesTypeParams
      = (c.tree.get m).erasesTypeParams := by
    rw [h.state]
    exact get_modify_congr (g := CompositionNode.erasesTypeParams)
      (f := fun x => { x with merged := some (titled c.options d) })
      fun _ => rfl
  have hsame :=
    mergeNode_congr (c := { c with sources := s }) (by rw [h.state]) h.form
    h.parentAccess herases
  unfold mergedType?
  rw [if_neg hn, hsame, h.form.length]
  exact congrArg (fun r => r.toOption.map Merged.type) hk

theorem mergedType?_root (h : MergedTree c s d c')
    (ht : 0 < c.tree.nodes.length) :
    mergedType? c' Composition.root = some (titled c.options d) := by
  unfold mergedType?
  rw [if_pos rfl, h.state]
  exact congrArg CompositionNode.merged
    (get_modify_self (n := Composition.root) ht _)

/-- Every node has a merged type with what was made for it. -/
theorem exists_mergedType? (h : MergedTree c s d c')
    (ht : Formed c.sources c.tree)
    {inner : TypeDecl} (hinner : Joins { c with sources := s } n inner) :
    ∃ type, mergedType? c' n = some type ∧ type.fields = inner.fields
      ∧ type.nested = inner.nested ∧ type.methods = inner.methods
      ∧ (n ≠ Composition.root → type = inner) := by
  by_cases hn : n = Composition.root
  · subst hn
    obtain rfl := hinner.unique h.joins
    exact ⟨_, h.mergedType?_root ht.nonempty, rfl, rfl, rfl,
      fun hne => absurd rfl hne⟩
  · exact ⟨inner, h.mergedType?_of_ne hn hinner, rfl, rfl, rfl, fun _ => rfl⟩

/-- The own type of a node has the fields and nested types of all links of
its declarations. -/
theorem own_eq_ok (h : MergedTree c s d c') (ht : Formed c.sources c.tree)
    {erases : Bool}
    (hown : mergeDeclarations ((c.tree.get n).decls.map s.get) erases
      = .ok own) :
    own.fields.map (·.outline TypeRef.hide)
        = (gathered c n TypeDecl.fields).map (·.outline TypeRef.hide)
      ∧ own.nested.map (·.outline TypeRef.hide)
        = (gathered c n TypeDecl.nested).map (·.outline TypeRef.hide) := by
  have hchain : ∀ leaf ∈ (c.tree.get n).decls, ∃ above,
      c.sources.extensionChain leaf = leaf :: above
        ∧ mergeChain c.sources (leaf :: above) = .ok (s.get leaf) := by
    intro leaf hleaf
    have hmem : leaf ∈ c.tree.leaves :=
      List.mem_map.2 ⟨_, ht.mem_decls.1 hleaf, rfl⟩
    obtain ⟨above, habove⟩ :=
      Sources.extensionChain_eq_cons (ht.participating leaf hmem)
    exact ⟨above, habove, habove ▸ h.leaf leaf hmem⟩
  obtain ⟨hfields, hnested, -⟩ := mergeDeclarations_eq_ok hown
  rw [hfields, hnested, List.flatMap_map, List.flatMap_map, List.map_flatMap,
    List.map_flatMap, map_gathered, map_gathered]
  refine ⟨List.flatMap_congr fun leaf hleaf => ?_, List.flatMap_congr
    fun leaf hleaf => ?_⟩
  · obtain ⟨above, habove, hmerge⟩ := hchain leaf hleaf
    rw [habove]
    exact (mergeChain_eq_ok hmerge).2.1
  · obtain ⟨above, habove, hmerge⟩ := hchain leaf hleaf
    rw [habove]
    exact (mergeChain_eq_ok hmerge).2.2

end MergedTree

end Stagewise.Merge
