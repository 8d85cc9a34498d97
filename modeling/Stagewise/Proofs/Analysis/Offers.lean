/-
Which references are accepted.

Binding takes the reference fields one after the other. A field with one
candidate is bound to it, and offered to the candidate's node if that is a
child of its own; one with none or several ends the binding. So what is
known after some turns can be read off the fields whose turn has been: of
the fields with one identity the last one says where the identity leads,
and of the fields offered to a node the first one is its parent access
(`Bound`). The paths can then be given exactly if every node was offered a
field.

A field is bound by its identity. That its own leaf is the one found there
needs that no later field has the same identity.
-/
import Stagewise.Proofs.Hierarchy
import Stagewise.Proofs.Merge.Access
import Stagewise.Proofs.Outcomes

namespace Stagewise

namespace Composition

variable {s s' : Sources} {t t' : Composition} {n : CompositionId}
variable {path : List FieldRef}

-- =============================================================== giving paths

/-- Children cannot be given paths if one of them has no parent access, which
the failure names. -/
theorem childPaths_eq_error {cs : List CompositionId} {e : Failure}
    (h : t.childPaths s path cs = .error e) :
    ∃ n ∈ cs, (t.get n).parentAccess = none
      ∧ e = .unboundParent (t.declNames s n) := by
  induction cs with
  | nil => cases h
  | cons c cs ih =>
      rw [childPaths] at h
      cases hrest : t.childPaths s path cs with
      | error e' =>
          rw [hrest] at h
          obtain rfl : e' = e := Except.error.inj h
          obtain ⟨n, hn, hnode⟩ := ih hrest
          exact ⟨n, List.mem_cons_of_mem _ hn, hnode⟩
      | ok rest =>
          rw [hrest] at h
          cases haccess : (t.get c).parentAccess with
          | some f =>
              rw [haccess] at h
              cases h
          | none =>
              rw [haccess] at h
              exact ⟨c, List.mem_cons_self, haccess, (Except.error.inj h).symm⟩

/-- The walk fails only at a child without a parent access. -/
theorem givePaths_eq_error {fuel : Nat}
    {stack : List (CompositionId × List FieldRef)} {e : Failure}
    (h : givePaths s fuel stack t = (.error e, t')) :
    ∃ n p, (t.get n).parent = some p ∧ (t.get n).parentAccess = none
      ∧ e = .unboundParent (t.declNames s n) := by
  induction fuel generalizing t stack with
  | zero => cases h
  | succ fuel ih =>
      cases stack with
      | nil => cases h
      | cons q stack =>
          have hre : Repaths t (t.modify q.1 fun x => { x with
            path := q.2 }) := .modify q.1 q.2
          have hnames : ∀ n,
              (t.modify q.1 fun x => { x with path := q.2 }).declNames s n
              = t.declNames s n := by
            intro n
            unfold declNames
            rw [hre.form.decls]
          rw [givePaths] at h
          split at h
          · rename_i e' hchildren
            obtain rfl := Except.error.inj (Prod.mk.inj h).1
            obtain ⟨n, hn, haccess, he⟩ := childPaths_eq_error hchildren
            refine ⟨n, q.1, ?_, ?_, ?_⟩
            · rw [← hre.form.parent]
              exact (mem_children.1 hn).2
            · rw [← hre.parentAccess]
              exact haccess
            · rw [he, hnames]
          · obtain ⟨n, p, hp, haccess, he⟩ := ih h
            rw [hre.form.parent] at hp
            rw [hre.parentAccess] at haccess
            exact ⟨n, p, hp, haccess, by rw [he, hnames]⟩

/-- Every node can be given its path exactly if every node but the root has a
parent access. -/
theorem computePaths_isOk_iff (ht : Formed s t) :
    (t.computePaths s').1.isOk = true ↔
    ∀ n, n.index < t.nodes.length → n ≠ root →
      (t.get n).parentAccess ≠ none := by
  constructor
  · intro h n hn hne
    obtain ⟨_, hok⟩ : ∃ a, (t.computePaths s').1 = .ok a := by
      cases hrun : (t.computePaths s').1 with
      | ok a => exact ⟨a, rfl⟩
      | error e =>
          rw [hrun] at h
          cases h
    obtain ⟨hre, hpathed⟩ := computePaths_pathed ht (Prod.ext hok rfl)
    obtain ⟨p, hp, -⟩ := ht.parent n hn hne
    obtain ⟨f, hf, -⟩ := hpathed.child n p ((hre.form.parent n).trans hp)
    rw [← hre.parentAccess, hf]
    simp
  · intro h
    cases hrun : (t.computePaths s').1 with
    | ok a => rfl
    | error e =>
        obtain ⟨n, p, hp, haccess, -⟩ := givePaths_eq_error (Prod.ext hrun rfl)
        refine absurd haccess (h n (lt_of_parent hp) ?_)
        intro hroot
        rw [hroot, ht.root] at hp
        cases hp

end Composition

namespace Analysis

open Stagewise.Composition Step

variable {c c' c₀ : Compilation} {site : ReferenceSite}
variable {done : List ReferenceSite}
variable {leaf : DeclId} {n : CompositionId} {f : Field}

-- ================================================================= candidates

/-- That a leaf is the only one that can stand where a reference field asks
for a type. -/
structure Targets (c : Compilation) (f : Field) (leaf : DeclId) : Prop where
  mem : leaf ∈ c.tree.leaves
  assignable : c.sources.Assignable f.type.name leaf
  only : ∀ other ∈ c.tree.leaves, c.sources.Assignable f.type.name other →
    other = leaf

theorem mem_candidates (ht : Formed c.sources c.tree) : leaf ∈ candidates c f ↔
    leaf ∈ c.tree.leaves ∧ c.sources.Assignable f.type.name leaf := by
  unfold candidates
  rw [List.mem_filter]
  refine and_congr_right fun hleaf => ?_
  exact Sources.isAssignable_iff
    (Sources.lt_of_isParticipating (ht.participating leaf hleaf))

/-- A field has one candidate exactly if one leaf fits. -/
theorem candidates_eq_singleton (ht : Formed c.sources c.tree) :
    candidates c f = [leaf] ↔ Targets c f leaf := by
  constructor
  · intro h
    obtain ⟨hleaf, hfits⟩ :=
      (mem_candidates ht).1 (h ▸ List.mem_singleton_self leaf)
    refine ⟨hleaf, hfits, fun other hother hfits' => ?_⟩
    have hmem := (mem_candidates ht).2 ⟨hother, hfits'⟩
    rw [h] at hmem
    exact List.mem_singleton.1 hmem
  · intro h
    have hmem := (mem_candidates ht).2 ⟨h.mem, h.assignable⟩
    have hall : ∀ other ∈ candidates c f, other = leaf := fun other hother =>
      h.only other ((mem_candidates ht).1 hother).1
        ((mem_candidates ht).1 hother).2
    have hnodup : (candidates c f).Nodup := ht.nodup_leaves.filter _
    cases hc : candidates c f with
    | nil =>
        rw [hc] at hmem
        cases hmem
    | cons first rest =>
        rw [hc] at hall hnodup
        obtain ⟨rfl, hrest⟩ := List.forall_mem_cons.1 hall
        cases rest with
        | nil => rfl
        | cons second rest =>
            obtain rfl := hrest second List.mem_cons_self
            exact absurd List.mem_cons_self (List.nodup_cons.1 hnodup).1

theorem Targets.unique {leaf' : DeclId} (h : Targets c f leaf)
    (h' : Targets c f leaf') :
    leaf' = leaf := h.only leaf' h'.mem h'.assignable

/-- That a reference field is in a link of a node's parent and leads to a leaf
of the node. -/
def Refers (c : Compilation) (n : CompositionId) (site : ReferenceSite) :
    Prop :=
  (c.tree.get n).parent = some site.node
    ∧ ∃ leaf ∈ (c.tree.get n).decls, Targets c site.field leaf

-- ====================================================================== turns

/-- What holds in the binding of references over `c₀`, when the turns of some
sites have been. -/
structure Bound (c₀ : Compilation) (done : List ReferenceSite)
    (c : Compilation) : Prop where
  sources : c.sources = c₀.sources
  form : SameForm c₀.tree c.tree
  /-- Each of them leads to one leaf. -/
  targets : ∀ site ∈ done, ∃ leaf, Targets c₀ site.field leaf
  /-- An identity leads where the last field with it does. -/
  bound : ∀ before last after leaf, done = before ++ last :: after →
    (∀ later ∈ after, later.field.id ≠ last.field.id) →
    Targets c₀ last.field leaf →
      c.bindings.referenced? last.field.id = some leaf
  /-- The first field that refers to a node is its parent access. -/
  access : ∀ before first after n, done = before ++ first :: after →
    (∀ earlier ∈ before, ¬ Refers c₀ n earlier) → Refers c₀ n first →
      (c.tree.get n).parentAccess = some (first.field.ref first.owner)
  /-- A node that none refers to has no parent access. -/
  unoffered : ∀ n, (∀ site ∈ done, ¬ Refers c₀ n site) →
    (c.tree.get n).parentAccess = none

theorem concat_eq_append_cons {α : Type} {as before after : List α} {a x : α}
    (h : as ++ [a] = before ++ x :: after) :
    (before = as ∧ x = a ∧ after = [])
      ∨ ∃ rest, after = rest ++ [a] ∧ as = before ++ x :: rest := by
  rcases List.eq_nil_or_concat after with rfl | ⟨rest, b, rfl⟩
  · obtain ⟨hbefore, ha⟩ := List.append_inj' h rfl
    exact Or.inl ⟨hbefore.symm, (List.cons.inj ha).1.symm, rfl⟩
  · rw [List.concat_eq_append, ← List.cons_append, ← List.append_assoc] at h
    obtain ⟨hbefore, ha⟩ := List.append_inj' h rfl
    obtain rfl := (List.cons.inj ha).1
    exact Or.inr ⟨rest, List.concat_eq_append, hbefore⟩

/-- A turn binds its field and offers it to the node that it refers to. -/
theorem Bound.turn (h : Bound c₀ done c) (hleaf : Targets c₀ site.field leaf)
    (hsources : c'.sources = c.sources) (hform : SameForm c.tree c'.tree)
    (hbindings : c'.bindings = c.bindings.bindReference site.field.id leaf)
    (hoffered : ∀ n, Refers c₀ n site → (c'.tree.get n).parentAccess
      = (c.tree.get n).parentAccess.or (some (site.field.ref site.owner)))
    (hrest : ∀ n, ¬ Refers c₀ n site →
      (c'.tree.get n).parentAccess = (c.tree.get n).parentAccess) :
    Bound c₀ (done ++ [site]) c' where
  sources := hsources.trans h.sources
  form := h.form.trans hform
  targets := List.forall_mem_append.2 ⟨h.targets, List.forall_mem_singleton.2
  ⟨leaf, hleaf⟩⟩
  bound before last after leaf' hsplit hafter hlast := by
    rw [hbindings, Bindings.referenced?_bindReference]
    rcases concat_eq_append_cons hsplit with ⟨-, rfl, -⟩ | ⟨rest, rfl, hdone⟩
    · rw [if_pos rfl, hlast.unique hleaf]
    · obtain ⟨hlater, hsite⟩ := List.forall_mem_append.1 hafter
      rw [if_neg (List.forall_mem_singleton.1 hsite).symm]
      exact h.bound before last rest leaf' hdone hlater hlast
  access before first after n hsplit hbefore hfirst := by
    rcases concat_eq_append_cons hsplit with ⟨rfl, rfl, -⟩ | ⟨rest, -, hdone⟩
    · rw [hoffered n hfirst, h.unoffered n hbefore]
      rfl
    · have haccess := h.access before first rest n hdone hbefore hfirst
      by_cases hsite : Refers c₀ n site
      · rw [hoffered n hsite, haccess]
        rfl
      · rw [hrest n hsite, haccess]
  unoffered n hnone := by
    obtain ⟨hdone, hsite⟩ := List.forall_mem_append.1 hnone
    rw [hrest n (hsite site (List.mem_singleton_self site))]
    exact h.unoffered n hdone

/-- A node that has no parent access takes the first that it is offered. -/
theorem parentAccess_offer {t : Composition} {child : CompositionId}
    (access : FieldRef)
    (hchild : child.index < t.nodes.length) (n : CompositionId) :
    ((t.offerParentAccess child access).2.get n).parentAccess
      = if n = child then (t.get n).parentAccess.or (some access)
        else (t.get n).parentAccess := by
  unfold Composition.offerParentAccess
  by_cases hn : n = child
  · subst hn
    rw [if_pos rfl]
    split
    · rename_i f hf
      rw [hf]
      rfl
    · rename_i hnone
      rw [hnone, Option.none_or]
      exact congrArg CompositionNode.parentAccess (get_modify_self hchild _)
  · rw [if_neg hn]
    split
    · rfl
    · exact congrArg CompositionNode.parentAccess (get_modify_of_ne hn _)

theorem refers_iff (ht : Formed c.sources c.tree)
    (hleaf : Targets c site.field leaf) :
    Refers c n site ↔
      c.tree.nodeOfLeaf? leaf = some n
        ∧ (c.tree.get n).parent = some site.node := by
  rw [ht.nodeOfLeaf?_eq_some, ← ht.mem_decls, Refers, and_comm]
  refine and_congr_left fun _ => ?_
  constructor
  · intro ⟨leaf', hmem, hleaf'⟩
    exact hleaf.unique hleaf' ▸ hmem
  · exact fun hmem => ⟨leaf, hmem, hleaf⟩

/-- The failure of a field that does not lead to one leaf. -/
def ambiguity (c : Compilation) (site : ReferenceSite) : Failure :=
  .ambiguousReference site.owner site.field.name
    ((candidates c site.field).map c.sources.name)

/-- A turn fails where its field does not lead to one leaf. -/
theorem bindReference_outcome (ht : Formed c₀.sources c₀.tree)
    (h : Bound c₀ done c) :
    Outcome (bindReference site) c
      (fun e => (¬ ∃ leaf, Targets c₀ site.field leaf) ∧ e = ambiguity c₀ site)
      fun _ c' => Bound c₀ (done ++ [site]) c' := by
  unfold Analysis.bindReference
  rw [outcome_bind, outcome_get]
  dsimp only
  rw [candidates_congr h.sources h.form.leaves]
  split
  · rename_i leaf hcandidates
    have hleaf := (candidates_eq_singleton ht).1 hcandidates
    have hrefers : ∀ n, Refers c₀ n site ↔ c.tree.nodeOfLeaf? leaf = some n
        ∧ (c.tree.get n).parent = some site.node := by
      intro n
      rw [refers_iff ht hleaf, h.form.nodeOfLeaf?, h.form.parent]
    -- where the field is not offered, the tree stays
    have hkept : (∀ n, ¬ Refers c₀ n site) → Bound c₀ (done ++ [site])
        { c with bindings := c.bindings.bindReference site.field.id leaf } :=
      fun hnone =>
      h.turn hleaf rfl (.refl _) rfl (fun n hn => absurd hn (hnone n))
        fun _ _ => rfl
    rw [outcome_bind]
    show Outcome _ { c with
      bindings := c.bindings.bindReference site.field.id leaf } _ _
    split
    · rename_i child hchild
      split
      · rename_i hparent
        rw [beq_iff_eq] at hparent
        show Bound c₀ (done ++ [site]) { c with
          bindings := c.bindings.bindReference site.field.id leaf
          tree := (c.tree.offerParentAccess child
            (site.field.ref site.owner)).2 }
        have hoffer := parentAccess_offer (site.field.ref site.owner)
          (lt_of_parent hparent)
        refine h.turn hleaf rfl (.offerParentAccess child _) rfl ?_ ?_
        · intro n hn
          rw [hrefers n, hchild] at hn
          exact (hoffer n).trans (if_pos (Option.some.inj hn.1).symm)
        · intro n hn
          refine (hoffer n).trans (if_neg fun he => hn ((hrefers n).2 ?_))
          rw [he]
          exact ⟨hchild, hparent⟩
      · rename_i hparent
        refine hkept fun n hn => hparent (beq_iff_eq.2 ?_)
        rw [hrefers n, hchild] at hn
        rw [Option.some.inj hn.1]
        exact hn.2
    · rename_i hchild
      refine hkept fun n hn => ?_
      rw [hrefers n, hchild] at hn
      cases hn.1
  · rename_i hcandidates
    refine outcome_throw.2 ⟨fun ⟨leaf, hleaf⟩ => ?_, ?_⟩
    · exact hcandidates leaf ((candidates_eq_singleton ht).2 hleaf)
    · unfold ambiguity
      rw [h.sources]

-- ================================================================= acceptance

/-- What it takes for references to be bound: every reference field leads to
one leaf, and every node but the root is referred to. -/
structure WellReferenced (c : Compilation) : Prop where
  targets : ∀ site ∈ referenceSites c, ∃ leaf, Targets c site.field leaf
  referred : ∀ n, n.index < c.tree.nodes.length → n ≠ Composition.root →
    ∃ site ∈ referenceSites c, Refers c n site

/-- What the binding of references leaves: the identity of every reference
field leads to the leaf of the last field with it, and the parent access of
every node but the root is the first field that refers to the node. -/
structure WellBound (c c' : Compilation) : Prop where
  bound : ∀ site ∈ referenceSites c, ∃ before last after leaf,
    referenceSites c = before ++ last :: after ∧ last.field.id = site.field.id
      ∧ (∀ later ∈ after, later.field.id ≠ site.field.id)
      ∧ Targets c last.field leaf
      ∧ c'.bindings.referenced? site.field.id = some leaf
  access : ∀ n, n.index < c.tree.nodes.length → n ≠ Composition.root →
    ∃ before first after, referenceSites c = before ++ first :: after
      ∧ (∀ earlier ∈ before, ¬ Refers c n earlier) ∧ Refers c n first
      ∧ (c'.tree.get n).parentAccess = some (first.field.ref first.owner)

/-- How references can fail to be bound: the first field that does not lead to
one leaf is named with its candidates, or, where there is none, the
declarations of a node that no field refers to. -/
inductive Rejects (c : Compilation) : Failure → Prop
  | ambiguous (before : List ReferenceSite) (site : ReferenceSite)
      (after : List ReferenceSite) :
      referenceSites c = before ++ site :: after →
      (∀ earlier ∈ before, ∃ leaf, Targets c earlier.field leaf) →
      (¬ ∃ leaf, Targets c site.field leaf) → Rejects c (ambiguity c site)
  | unbound (n : CompositionId) :
      (∀ site ∈ referenceSites c, ∃ leaf, Targets c site.field leaf) →
      n.index < c.tree.nodes.length → n ≠ Composition.root →
      (∀ site ∈ referenceSites c, ¬ Refers c n site) →
      Rejects c (.unboundParent (c.tree.declNames c.sources n))

/-- Of the members of a list with a property there is a first one. -/
theorem exists_first {α : Type} {p : α → Prop} {as : List α}
    (h : ∃ a ∈ as, p a) :
    ∃ before a after, as = before ++ a :: after ∧ (∀ b ∈ before, ¬ p b)
      ∧ p a := by
  classical
  obtain ⟨x, hx, hpx⟩ := h
  have hfound : (as.find? fun a => decide (p a)).isSome = true :=
    List.find?_isSome.2 ⟨x, hx, decide_eq_true hpx⟩
  obtain ⟨a, ha⟩ := Option.isSome_iff_exists.1 hfound
  obtain ⟨hp, before, after, hsplit, hbefore⟩ :=
    List.find?_eq_some_iff_append.1 ha
  refine ⟨before, a, after, hsplit, fun b hb hpb => ?_, of_decide_eq_true hp⟩
  have hnot := hbefore b hb
  simp [hpb] at hnot

/-- Of the members of a list with a property there is a last one. -/
theorem exists_last {α : Type} {p : α → Prop} {as : List α}
    (h : ∃ a ∈ as, p a) :
    ∃ before a after, as = before ++ a :: after
      ∧ (∀ b ∈ after, ¬ p b) ∧ p a := by
  have hreverse : ∃ a ∈ as.reverse, p a := by
    obtain ⟨a, ha, hp⟩ := h
    exact ⟨a, List.mem_reverse.2 ha, hp⟩
  obtain ⟨before, a, after, hsplit, hbefore, ha⟩ := exists_first hreverse
  refine ⟨after.reverse, a, before.reverse, ?_,
    fun b hb => hbefore b (List.mem_reverse.1 hb), ha⟩
  rw [← List.reverse_reverse as, hsplit]
  simp

/-- The binding of references leaves what it should, or fails as it may. -/
theorem bindReferences_outcome (ht : Formed c.sources c.tree)
    (hfree : ∀ n, (c.tree.get n).parentAccess = none) :
    Outcome bindReferences c (Rejects c) fun _ c' =>
      WellReferenced c ∧ WellBound c c' := by
  have hnil : ∀ {before after : List ReferenceSite} {x : ReferenceSite},
      [] ≠ before ++ x :: after := fun h => by simp at h
  have hstart : Bound c [] c :=
    ⟨rfl, .refl _, List.forall_mem_nil _, fun _ _ _ _ h => absurd h hnil,
      fun _ _ _ _ h => absurd h hnil, fun n _ => hfree n⟩
  unfold bindReferences
  rw [outcome_bind, outcome_get, outcome_bind]
  refine Outcome.leave
    (outcome_mapM (I := Bound c) (fun done site rest hsplit c' h => ?_) hstart)
    fun _ c₁ h₁ => ?_
  · refine (bindReference_outcome ht h).mono (fun e he => ?_) fun _ _ h' => h'
    obtain ⟨hnone, rfl⟩ := he
    exact .ambiguous done site rest hsplit.symm h.targets hnone
  · have ht₁ : Formed c₁.sources c₁.tree := h₁.sources ▸ h₁.form.formed ht
    unfold Analysis.computePaths
    simp only [outcome_bind, outcome_get, outcome_modify, outcome_ofExcept,
      outcome_pure, modifyTree]
    rcases hrun : c₁.tree.computePaths c₁.sources with ⟨result, t'⟩
    constructor
    · intro _ hok
      obtain ⟨hre, -⟩ := computePaths_pathed ht₁ (hrun.trans (by rw [← hok]))
      have hreferred : ∀ n, n.index < c.tree.nodes.length →
          n ≠ Composition.root →
          ∃ site ∈ referenceSites c, Refers c n site := by
        intro n hn hne
        by_contra hnone
        refine (computePaths_isOk_iff ht₁).1 (by rw [hrun, hok]; rfl) n
          (h₁.form.length ▸ hn) hne
          (h₁.unoffered n fun site hsite hrefers => ?_)
        exact hnone ⟨site, hsite, hrefers⟩
      refine ⟨⟨h₁.targets, hreferred⟩, fun site hsite => ?_,
        fun n hn hne => ?_⟩
      · obtain ⟨before, last, after, hsplit, hafter, hlast⟩ :=
          exists_last (p := fun x => x.field.id = site.field.id)
            ⟨site, hsite, rfl⟩
        obtain ⟨leaf, hleaf⟩ := h₁.targets last (by rw [hsplit]; simp)
        refine ⟨before, last, after, leaf, hsplit, hlast, hafter, hleaf, ?_⟩
        rw [← hlast]
        exact h₁.bound before last after leaf hsplit (hlast ▸ hafter) hleaf
      · obtain ⟨before, first, after, hsplit, hbefore, hfirst⟩ :=
          exists_first (hreferred n hn hne)
        refine ⟨before, first, after, hsplit, hbefore, hfirst, ?_⟩
        exact (hre.parentAccess n).trans
          (h₁.access before first after n hsplit hbefore hfirst)
    · intro e he
      obtain ⟨n, p, hp, haccess, rfl⟩ :=
        givePaths_eq_error (hrun.trans (by rw [← he]))
      have hnames : c₁.tree.declNames c₁.sources n
          = c.tree.declNames c.sources n := by
        unfold Composition.declNames
        rw [h₁.sources, h₁.form.decls]
      rw [hnames]
      refine .unbound n h₁.targets (h₁.form.length ▸ lt_of_parent hp) ?_ ?_
      · intro hroot
        rw [hroot, ht₁.root] at hp
        cases hp
      · intro site hsite hrefers
        obtain ⟨before, first, after, hsplit, hbefore, hfirst⟩ :=
          exists_first ⟨site, hsite, hrefers⟩
        rw [h₁.access before first after n hsplit hbefore hfirst] at haccess
        cases haccess

/-- References are accepted exactly if every reference field leads to one leaf
and every node but the root is referred to. Then every identity of a
reference field leads where the last field with it does, and the parent
access of a node is the first field that refers to it. Otherwise the failure
names the first field that does not lead to one leaf, with its candidates,
or the declarations of a node that none refers to. -/
theorem bindReferences_accepts (htree : Built c.sources c.tree)
    (hfree : ∀ n, (c.tree.get n).parentAccess = none) :
    ((bindReferences.runOn c).1.isOk = true ↔ WellReferenced c)
      ∧ (∀ report c', bindReferences.runOn c = (.ok report, c') →
        WellBound c c')
      ∧ ∀ e c', bindReferences.runOn c = (.error e, c') → Rejects c e := by
  have h := bindReferences_outcome htree.formed hfree
  have haccepts : ∀ report c', bindReferences.runOn c = (.ok report, c') →
      WellReferenced c ∧ WellBound c c' :=
    fun report c' hrun => h.ensures report c' hrun
  have hrejects : ∀ e c', bindReferences.runOn c = (.error e, c') →
      Rejects c e := by
    intro e c' hrun
    exact h.fails (by rw [hrun])
  refine ⟨⟨fun hok => ?_, fun hwell => ?_⟩, fun report c' hrun =>
    (haccepts report c' hrun).2, hrejects⟩
  · obtain ⟨report, hrun⟩ := exists_runOn_eq hok
    exact (haccepts report _ hrun).1
  · rcases hrun : bindReferences.runOn c with ⟨e | report, c'⟩
    · cases hrejects e c' hrun with
      | ambiguous before site after hsplit _ hnone =>
          refine absurd (hwell.targets site ?_) hnone
          rw [hsplit]
          exact List.mem_append_right before List.mem_cons_self
      | unbound n _ hn hne hnone =>
          obtain ⟨site, hsite, hrefers⟩ := hwell.referred n hn hne
          exact absurd hrefers (hnone site hsite)
    · rfl

/-- The cellar's parent access is the field of the class above the house, and
not that of the lamp, which leads to the cellar too. -/
theorem bindReferences_accepts_house :
    Built Merge.houseSources Merge.houseTree
      ∧ (∀ n, (Merge.houseTree.get n).parentAccess = none)
      ∧ WellReferenced
        { sources := Merge.houseSources, tree := Merge.houseTree }
      ∧ ∃ report c',
      bindReferences.runOn
      { sources := Merge.houseSources, tree := Merge.houseTree }
          = (.ok report, c')
        ∧ WellBound { sources := Merge.houseSources, tree := Merge.houseTree }
          c'
        ∧ (c'.tree.get ⟨3⟩).parentAccess = some ⟨"Site", "cellar"⟩ := by
  let c₀ : Compilation :=
    { sources := Merge.houseSources, tree := Merge.houseTree }
  have hfree : ∀ n, (c₀.tree.get n).parentAccess = none := by
    rintro ⟨_ | _ | _ | _ | i⟩ <;> rfl
  have hok : (bindReferences.runOn c₀).1.isOk = true := by decide +kernel
  obtain ⟨report, hbind⟩ := exists_runOn_eq hok
  obtain ⟨haccepts, hbound, -⟩ :=
    bindReferences_accepts Merge.built_houseTree hfree
  refine ⟨Merge.built_houseTree, hfree, haccepts.1 hok, report, _, hbind,
    hbound _ _ hbind, ?_⟩
  decide +kernel

/-- Of two fields with one identity the first does not lead to its own
leaf. -/
theorem bindReferences_misleads :
    Built Merge.sameNamedSources Merge.sameNamedTree
      ∧ (∀ n, (Merge.sameNamedTree.get n).parentAccess = none)
      ∧ ∃ report c', bindReferences.runOn
          { sources := Merge.sameNamedSources, tree := Merge.sameNamedTree }
          = (.ok report, c')
        ∧ ∃ site ∈ referenceSites
            { sources := Merge.sameNamedSources, tree := Merge.sameNamedTree },
          ∃ leaf, Targets
            { sources := Merge.sameNamedSources, tree := Merge.sameNamedTree }
              site.field leaf
            ∧ c'.bindings.referenced? site.field.id ≠ some leaf := by
  let c₀ : Compilation :=
    { sources := Merge.sameNamedSources, tree := Merge.sameNamedTree }
  have hwhole :
      Built c₀.sources (Composition.createChild {} Composition.root).2 :=
    Built.start.child (by decide)
  have htree : Built c₀.sources c₀.tree :=
    (((hwhole.child (p := Composition.root) (by decide)).add
      (n := ⟨0⟩) (d := ⟨0⟩) (by decide) rfl).add (n := ⟨1⟩) (d := ⟨1⟩)
    (by decide) rfl).add (n := ⟨2⟩) (d := ⟨2⟩)
      (by decide) rfl
  have hfree : ∀ n, (c₀.tree.get n).parentAccess = none := by
    rintro ⟨_ | _ | _ | i⟩ <;> rfl
  obtain ⟨report, hbind⟩ :=
    exists_runOn_eq (x := bindReferences) (c := c₀) (by decide +kernel)
  let site := (referenceSites c₀).head (by decide +kernel)
  refine ⟨htree, hfree, report, _, hbind, site, List.head_mem _, ⟨1⟩,
    ?_, by decide +kernel⟩
  exact (candidates_eq_singleton htree.formed).1 (by decide +kernel)

end Analysis

end Stagewise
