/-
The trees that can be made, and what holds of each of them.

A tree starts as a root alone. It grows by children, and its nodes take in
leaves, each with its whole chain (`Built`). What all such trees have in
common is an invariant of these steps (`Formed`): a child comes after its
parent, every leaf is listed by the node that it was added to, and no link
belongs to two chains.

The invariant only speaks of parents, leaves and links. So whatever else a
compilation records at the nodes, it holds on (`SameForm`).
-/
import Mathlib.Data.List.GetD
import Mathlib.Data.List.Nodup
import Mathlib.Data.List.Pairwise
import Stagewise.Composition
import Stagewise.Proofs.Stage.Discovery

namespace Stagewise

-- ================================================================== chains

namespace Sources

variable {s : Sources} {leaf link : DeclId} {chain : List DeclId}
variable {next : Option DeclId}

/-- What holds of a chain still holds when links are put behind it, if it does
for each one that takes part in merging and is not there yet. -/
theorem chainFrom_invariant {I : List DeclId → Prop} {fuel : Nat}
    (hstep : ∀ chain id, (s.get id).isParticipating = true →
      id ∉ chain → I chain →
      I (chain ++ [id]))
    (h : I chain) : I (s.chainFrom fuel chain next) := by
  induction fuel generalizing chain next with
  | zero => exact h
  | succ fuel ih =>
      cases next with
      | none => exact h
      | some id =>
          rw [chainFrom]
          split
          · exact h
          · rename_i hgo
            simp only [Bool.or_eq_true, Bool.not_eq_true', not_or,
              List.contains_iff_mem, Bool.not_eq_false] at hgo
            exact ih (hstep chain id hgo.1 hgo.2 h)

theorem prefix_chainFrom {fuel : Nat} :
    chain <+: s.chainFrom fuel chain next :=
  chainFrom_invariant (I := (chain <+: ·))
    (fun _ _ _ _ h => h.trans (List.prefix_append _ _))
    List.prefix_rfl

theorem nodup_chainFrom {fuel : Nat} (h : chain.Nodup) :
    (s.chainFrom fuel chain next).Nodup := by
  refine chainFrom_invariant (fun chain id _ hnew h => ?_) h
  exact List.nodup_append.2 ⟨h, List.nodup_singleton id,
    fun a ha b hb hab => hnew (List.mem_singleton.1 hb ▸ hab ▸ ha)⟩

theorem isParticipating_of_mem_chainFrom {fuel : Nat}
    (h : ∀ d ∈ chain, (s.get d).isParticipating = true) :
    ∀ d ∈ s.chainFrom fuel chain next, (s.get d).isParticipating = true :=
  chainFrom_invariant (I := fun chain => ∀ d ∈ chain,
    (s.get d).isParticipating = true)
    (fun _ _ hid _ h => List.forall_mem_append.2
      ⟨h, List.forall_mem_singleton.2 hid⟩) h

/-- No link stands twice in a chain. -/
theorem nodup_extensionChain : (s.extensionChain leaf).Nodup :=
  nodup_chainFrom List.nodup_nil

/-- The links of a chain take part in merging. -/
theorem isParticipating_of_mem_extensionChain
    (h : link ∈ s.extensionChain leaf) :
    (s.get link).isParticipating = true :=
  isParticipating_of_mem_chainFrom (List.forall_mem_nil _) link h

theorem lt_of_link (h : link ∈ s.extensionChain leaf) :
    link.index < s.decls.length :=
  lt_of_isParticipating (isParticipating_of_mem_extensionChain h)

/-- A chain starts with its leaf. -/
theorem extensionChain_eq_cons (h : (s.get leaf).isParticipating = true) :
    ∃ above, s.extensionChain leaf = leaf :: above := by
  obtain ⟨fuel, hfuel⟩ := Nat.exists_eq_add_of_lt (lt_of_isParticipating h)
  have hstart : s.extensionChain leaf
      = s.chainFrom (leaf.index + fuel) [leaf] (s.superclass? leaf) := by
    rw [extensionChain, hfuel, chainFrom, h]
    rfl
  have hbegins : [leaf] <+: s.extensionChain leaf := hstart ▸ prefix_chainFrom
  obtain ⟨above, habove⟩ := hbegins
  exact ⟨above, habove.symm⟩

theorem mem_extensionChain_self (h : (s.get leaf).isParticipating = true) :
    leaf ∈ s.extensionChain leaf := by
  obtain ⟨above, habove⟩ := extensionChain_eq_cons h
  rw [habove]
  exact List.mem_cons_self

/-- That two sets declare types of the same names, superclasses and markers,
whatever these consist of. -/
structure SameHeads (s s' : Sources) : Prop where
  length : s'.decls.length = s.decls.length
  name : ∀ d, s'.name d = s.name d
  superclass : ∀ d, (s'.get d).superclass = (s.get d).superclass
  markers : ∀ d, (s'.get d).markers = (s.get d).markers

namespace SameHeads

variable {s' s₁ : Sources}

theorem refl (s : Sources) : SameHeads s s :=
  ⟨rfl, fun _ => rfl, fun _ => rfl, fun _ => rfl⟩

theorem trans (h : SameHeads s s₁) (h' : SameHeads s₁ s') : SameHeads s s' :=
  ⟨h'.length.trans h.length, fun d => (h'.name d).trans (h.name d),
    fun d => (h'.superclass d).trans (h.superclass d),
      fun d => (h'.markers d).trans (h.markers d)⟩

theorem isParticipating (h : SameHeads s s') (d : DeclId) :
    (s'.get d).isParticipating = (s.get d).isParticipating := by
  unfold TypeDecl.isParticipating
  rw [h.markers]

theorem map_name (h : SameHeads s s') :
    s'.decls.map TypeDecl.name = s.decls.map TypeDecl.name := by
  refine List.ext_getElem (by rw [List.length_map, List.length_map, h.length])
    fun i hi' hi => ?_
  rw [List.length_map] at hi hi'
  have hname := h.name ⟨i⟩
  unfold Sources.name Sources.get at hname
  rw [List.getD_eq_getElem _ _ hi', List.getD_eq_getElem _ _ hi] at hname
  rw [List.getElem_map, List.getElem_map, hname]

theorem find? (h : SameHeads s s') (n : String) : s'.find? n = s.find? n := by
  have hfind : ∀ s : Sources, s.find? n
      = ((s.decls.map TypeDecl.name).findIdx? (· == n)).map DeclId.mk := by
    intro s
    rw [List.findIdx?_map]
    rfl
  rw [hfind, hfind, h.map_name]

theorem superclass? (h : SameHeads s s') (d : DeclId) :
    s'.superclass? d = s.superclass? d := by
  unfold Sources.superclass?
  rw [h.superclass]
  exact congrArg _ (funext fun t => h.find? t.name)

theorem extensionChain (h : SameHeads s s') (d : DeclId) :
    s'.extensionChain d = s.extensionChain d := by
  have hfrom : ∀ fuel chain next,
      s'.chainFrom fuel chain next = s.chainFrom fuel chain next := by
    intro fuel
    induction fuel with
    | zero => exact fun _ _ => rfl
    | succ fuel ih =>
        intro chain next
        cases next with
        | none => rfl
        | some d => rw [chainFrom, chainFrom, h.isParticipating,
            h.superclass?, ih]
  unfold Sources.extensionChain
  rw [h.length, hfrom]

end SameHeads

end Sources

namespace Composition

variable {s : Sources} {t t' : Composition} {n m : CompositionId}
variable {d link : DeclId}

-- ============================================================ making a tree

/-- The trees that can be made for some declarations. -/
inductive Built (s : Sources) : Composition → Prop
  | start : Built s {}
  | child {t : Composition} {p : CompositionId} : Built s t →
      p.index < t.nodes.length → Built s (t.createChild p).2
  | erase {t : Composition} (n : CompositionId) :
      Built s t → Built s (t.eraseTypeParams n)
  | add {t t' : Composition} {n : CompositionId} {d : DeclId} : Built s t →
      n.index < t.nodes.length → t.addDeclaration s n d = .ok t' → Built s t'
  | offer {t : Composition} (child : CompositionId) (f : FieldRef) :
      Built s t →
      Built s (t.offerParentAccess child f).2

/-- What all trees that can be made have in common. -/
structure Formed (s : Sources) (t : Composition) : Prop where
  nonempty : 0 < t.nodes.length
  root : (t.get root).parent = none
  /-- Every other node has a parent that was there before. -/
  parent : ∀ n : CompositionId, n.index < t.nodes.length →
    n ≠ Composition.root →
    ∃ p : CompositionId, (t.get n).parent = some p ∧ p.index < n.index
  place : ∀ p ∈ t.leafNodes, p.2.index < t.nodes.length
  /-- A node lists its leaves. -/
  decls : ∀ n, (t.get n).decls = (t.leafNodes.filter (·.2 = n)).map (·.1)
  participating : ∀ d ∈ t.leaves, (s.get d).isParticipating = true
  /-- A leaf brings its whole chain. -/
  links : t.linkNodes = t.leafNodes.flatMap fun p =>
    (s.extensionChain p.1).map (·, p.2)
  /-- No two chains share a link. -/
  apart : (t.linkNodes.map (·.1)).Nodup

theorem get_of_length_le (h : t.nodes.length ≤ n.index) :
    t.get n = default := by
  unfold get
  rw [List.getD_eq_getElem?_getD, List.getElem?_eq_none h]
  rfl

theorem length_modify (n : CompositionId)
    (f : CompositionNode → CompositionNode) :
    (t.modify n f).nodes.length = t.nodes.length :=
  List.length_modify f t.nodes n.index

/-- What a change leaves of the node that it changes is left of all. -/
theorem get_modify_congr {α : Type} {g : CompositionNode → α}
    {f : CompositionNode → CompositionNode} (hf : ∀ x, g (f x) = g x)
    (m : CompositionId) :
    g ((t.modify n f).get m) = g (t.get m) := by
  by_cases hn : n.index < t.nodes.length
  · by_cases hm : m = n
    · rw [hm, get_modify_self hn, hf]
    · rw [get_modify_of_ne hm]
  · have hsame : t.modify n f = t := by
      unfold modify
      rw [List.modify_eq_self (by omega)]
    rw [hsame]

-- ------------------------------------------------------------ other records

/-- That two trees have the same nodes, leaves and links, whatever else
they record. -/
structure SameForm (t t' : Composition) : Prop where
  length : t'.nodes.length = t.nodes.length
  parent : ∀ n, (t'.get n).parent = (t.get n).parent
  decls : ∀ n, (t'.get n).decls = (t.get n).decls
  leafNodes : t'.leafNodes = t.leafNodes
  linkNodes : t'.linkNodes = t.linkNodes

namespace SameForm

theorem refl (t : Composition) : SameForm t t :=
  ⟨rfl, fun _ => rfl, fun _ => rfl, rfl, rfl⟩

theorem trans {t₁ t₂ t₃ : Composition} (h : SameForm t₁ t₂)
    (h' : SameForm t₂ t₃) :
    SameForm t₁ t₃ :=
  ⟨h'.length.trans h.length, fun n => (h'.parent n).trans (h.parent n),
    fun n => (h'.decls n).trans (h.decls n), h'.leafNodes.trans h.leafNodes,
    h'.linkNodes.trans h.linkNodes⟩

/-- A change of a node that leaves its place and its leaves. -/
theorem modify (n : CompositionId) (f : CompositionNode → CompositionNode)
    (hparent : ∀ x, (f x).parent = x.parent)
    (hdecls : ∀ x, (f x).decls = x.decls) :
    SameForm t (t.modify n f) :=
  ⟨length_modify n f, get_modify_congr hparent, get_modify_congr hdecls,
    rfl, rfl⟩

theorem eraseTypeParams (n : CompositionId) :
    SameForm t (t.eraseTypeParams n) :=
  .modify n _ (fun _ => rfl) fun _ => rfl

theorem leaves (h : SameForm t t') : t'.leaves = t.leaves := by
  unfold Composition.leaves
  rw [h.leafNodes]

theorem ids (h : SameForm t t') : t'.ids = t.ids := by
  unfold Composition.ids
  rw [h.length]

theorem children (h : SameForm t t') (n : CompositionId) :
    t'.children n = t.children n := by
  unfold Composition.children
  rw [h.ids]
  exact List.filter_congr fun c _ => by rw [h.parent]

theorem nodeOf? (h : SameForm t t') (d : DeclId) :
    t'.nodeOf? d = t.nodeOf? d := by
  unfold Composition.nodeOf?
  rw [h.linkNodes]

theorem nodeOfLeaf? (h : SameForm t t') (d : DeclId) :
    t'.nodeOfLeaf? d = t.nodeOfLeaf? d := by
  unfold Composition.nodeOfLeaf?
  rw [h.leafNodes]

theorem formed (h : SameForm t t') (ht : Formed s t) : Formed s t' where
  nonempty := h.length ▸ ht.nonempty
  root := (h.parent root).trans ht.root
  parent n hn hne := by
    rw [h.parent]
    exact ht.parent n (h.length ▸ hn) hne
  place p hp := by
    rw [h.length]
    exact ht.place p (h.leafNodes ▸ hp)
  decls n := by rw [h.decls, h.leafNodes, ht.decls]
  participating d hd := ht.participating d (h.leaves ▸ hd)
  links := by rw [h.linkNodes, h.leafNodes, ht.links]
  apart := by rw [h.linkNodes]; exact ht.apart

theorem offerParentAccess (child : CompositionId) (f : FieldRef) :
    SameForm t (t.offerParentAccess child f).2 := by
  unfold Composition.offerParentAccess
  split
  · exact .refl t
  · exact .modify child _ (fun _ => rfl) fun _ => rfl

end SameForm

-- ------------------------------------------------------------- the invariant

theorem get_createChild (parent : CompositionId) (n : CompositionId) :
    (t.createChild parent).2.get n
      = if n = ⟨t.nodes.length⟩ then { parent := some parent }
        else t.get n := by
  unfold createChild get
  rcases n with ⟨i⟩
  simp only [CompositionId.mk.injEq, List.getD_eq_getElem?_getD]
  rcases Nat.lt_trichotomy i t.nodes.length with h | rfl | h
  · rw [if_neg (by omega), List.getElem?_append_left h]
  · simp
  · rw [if_neg (by omega), List.getElem?_eq_none (by simp; omega),
      List.getElem?_eq_none (by omega)]

theorem Formed.createChild (h : Formed s t) {parent : CompositionId}
    (hparent : parent.index < t.nodes.length) :
    Formed s (t.createChild parent).2 := by
  have hlength : (t.createChild parent).2.nodes.length
      = t.nodes.length + 1 := by
    simp [Composition.createChild]
  have hroot : Composition.root ≠ ⟨t.nodes.length⟩ := fun e => by
    have hi := congrArg CompositionId.index e
    exact absurd hi.symm (Nat.ne_of_gt h.nonempty)
  refine ⟨by omega, ?_, fun n hn hne => ?_, fun p hp => ?_, fun n => ?_,
    h.participating, h.links, h.apart⟩
  · rw [get_createChild, if_neg hroot]
    exact h.root
  · rw [get_createChild]
    split
    · rename_i hnew
      rw [hnew]
      exact ⟨parent, rfl, hparent⟩
    · rename_i hold
      refine h.parent n ?_ hne
      have hi : n.index ≠ t.nodes.length :=
        fun e => hold (congrArg CompositionId.mk e)
      omega
  · have hlt := h.place p hp
    omega
  · rw [get_createChild]
    split
    · rename_i hnew
      have hnone : t.leafNodes.filter (·.2 = n) = [] := by
        refine List.filter_eq_nil_iff.2 fun p hp he => ?_
        have hlt := h.place p hp
        rw [of_decide_eq_true he, hnew] at hlt
        exact absurd hlt (Nat.lt_irrefl _)
      show [] = (t.leafNodes.filter (·.2 = n)).map (·.1)
      rw [hnone]
      rfl
    · exact h.decls n

/-- A leaf is added if it takes part in merging and no link of its chain
belongs to a node yet. -/
theorem addDeclaration_eq_ok (h : t.addDeclaration s n d = .ok t') :
    (s.get d).isParticipating = true
      ∧ (∀ link ∈ s.extensionChain d, t.nodeOf? link = none)
      ∧ t' = { t.modify n fun x => { x with decls := x.decls ++ [d] } with
          leafNodes := t.leafNodes ++ [(d, n)]
          linkNodes := t.linkNodes ++ (s.extensionChain d).map (·, n) } := by
  unfold addDeclaration at h
  split at h
  · cases h
  · rename_i hparticipating
    split at h
    · cases h
    · dsimp only at h
      split at h
      · cases h
      · rename_i hbound
        refine ⟨by simpa using hparticipating, fun link hlink => ?_,
          (Except.ok.inj h).symm⟩
        unfold boundLink? at hbound
        exact Option.map_eq_none_iff.1
          (List.findSome?_eq_none_iff.1 hbound link hlink)

theorem nodeOf?_eq_none (h : t.nodeOf? d = none) :
    d ∉ t.linkNodes.map (·.1) := by
  intro hd
  obtain ⟨p, hp, rfl⟩ := List.mem_map.1 hd
  unfold nodeOf? at h
  have hne := List.lookup_eq_none_iff.1 h p hp
  exact absurd hne (by simp)

theorem Formed.addDeclaration (h : Formed s t) (hn : n.index < t.nodes.length)
    (hadd : t.addDeclaration s n d = .ok t') : Formed s t' := by
  obtain ⟨hparticipating, hfree, rfl⟩ := addDeclaration_eq_ok hadd
  have hparent : ∀ m,
      ((t.modify n fun x => { x with decls := x.decls ++ [d] }).get m).parent
      = (t.get m).parent :=
    get_modify_congr (g := CompositionNode.parent) fun _ => rfl
  have hlength :
      (t.modify n fun x => { x with decls := x.decls ++ [d] }).nodes.length
      = t.nodes.length := length_modify n _
  refine ⟨hlength ▸ h.nonempty, (hparent Composition.root).trans h.root,
    fun m hm hne => ?_, ?_,
    fun m => ?_, ?_, ?_, ?_⟩
  · obtain ⟨p, hp, hlt⟩ := h.parent m (hlength ▸ hm) hne
    exact ⟨p, (hparent m).trans hp, hlt⟩
  · show ∀ p ∈ t.leafNodes ++ [(d, n)], p.2.index
      < (t.modify n fun x => { x with decls := x.decls ++ [d] }).nodes.length
    rw [hlength]
    exact List.forall_mem_append.2 ⟨h.place, List.forall_mem_singleton.2 hn⟩
  · show ((t.modify n fun x => { x with decls := x.decls ++ [d] }).get m).decls
      = ((t.leafNodes ++ [(d, n)]).filter (·.2 = m)).map (·.1)
    rw [List.filter_append, List.map_append, ← h.decls]
    by_cases hm : m = n
    · rw [hm, get_modify_self hn]
      simp
    · rw [get_modify_of_ne hm]
      simp [Ne.symm hm]
  · intro d' hd'
    simp only [Composition.leaves, List.map_append, List.mem_append] at hd'
    rcases hd' with hd' | hd'
    · exact h.participating d' hd'
    · obtain rfl : d' = d := by simpa using hd'
      exact hparticipating
  · show t.linkNodes ++ (s.extensionChain d).map (·, n) = _
    rw [List.flatMap_append, ← h.links]
    simp
  · show ((t.linkNodes ++ (s.extensionChain d).map (·, n)).map (·.1)).Nodup
    have hfst : ((s.extensionChain d).map (·, n)).map Prod.fst
        = s.extensionChain d := by
      rw [List.map_map]
      exact List.map_id _
    rw [List.map_append, hfst, List.nodup_append]
    refine ⟨h.apart, Sources.nodup_extensionChain, ?_⟩
    rintro a ha b hb rfl
    exact nodeOf?_eq_none (hfree a hb) ha

/-- Every tree that can be made is formed. -/
theorem Built.formed (h : Built s t) : Formed s t := by
  induction h with
  | start =>
      refine ⟨Nat.one_pos, rfl, fun n hn hne => ?_, List.forall_mem_nil _,
        fun n => ?_, List.forall_mem_nil _, rfl, List.nodup_nil⟩
      · have hi : n.index = 0 := Nat.lt_one_iff.1 hn
        exact absurd (congrArg CompositionId.mk hi) hne
      · rcases n with ⟨_ | i⟩
        · rfl
        · rfl
  | child _ hparent ih => exact ih.createChild hparent
  | erase n _ ih => exact (SameForm.eraseTypeParams n).formed ih
  | add _ hn hadd ih => exact ih.addDeclaration hn hadd
  | offer child f _ ih => exact (SameForm.offerParentAccess child f).formed ih

/-- What the making of a tree leaves of a node is in every node as in the root
of an empty tree. -/
theorem Built.untouched {α : Type} {g : CompositionNode → α}
    (hparent : ∀ p, g { parent := p } = g {})
    (herase : ∀ x, g { x with erasesTypeParams := true } = g x)
    (hdecls : ∀ x ds, g { x with decls := ds } = g x)
    (haccess : ∀ x f, g { x with parentAccess := f } = g x) (h : Built s t)
    (n : CompositionId) : g (t.get n) = g {} := by
  induction h with
  | start =>
      rcases n with ⟨_ | i⟩
      · rfl
      · rfl
  | child _ _ ih =>
      rw [get_createChild]
      split
      · exact hparent _
      · exact ih
  | erase m _ ih => exact (get_modify_congr herase n).trans ih
  | add _ _ hadd ih =>
      obtain ⟨-, -, rfl⟩ := addDeclaration_eq_ok hadd
      exact (get_modify_congr (fun x => hdecls x _) n).trans ih
  | offer child f _ ih =>
      unfold Composition.offerParentAccess
      split
      · exact ih
      · exact (get_modify_congr (fun x => haccess x _) n).trans ih

/-- In a tree that was only made no interface method stands for a group. -/
theorem Built.interfaceMethods (h : Built s t) (n : CompositionId) :
    (t.get n).interfaceMethods = [] :=
  h.untouched (g := CompositionNode.interfaceMethods) (fun _ => rfl)
    (fun _ => rfl) (fun _ _ => rfl) (fun _ _ => rfl) n

/-- A tree that was only made has no merged type in it. -/
theorem Built.merged (h : Built s t) (n : CompositionId) :
    (t.get n).merged = none :=
  h.untouched (g := CompositionNode.merged) (fun _ => rfl) (fun _ => rfl)
    (fun _ _ => rfl) (fun _ _ => rfl) n

/-- Only the chains of declarations matter to a tree. -/
theorem Formed.sameHeads (h : Formed s t) {s' : Sources}
    (hs : s.SameHeads s') : Formed s' t where
  nonempty := h.nonempty
  root := h.root
  parent := h.parent
  place := h.place
  decls := h.decls
  participating d hd := (hs.isParticipating d).trans (h.participating d hd)
  links := by rw [h.links]; simp only [hs.extensionChain]
  apart := h.apart

-- ========================================================= leaves and links

/-- Where no key occurs twice, a look-up finds what is listed. -/
theorem lookup_eq_some_iff_mem {κ α : Type} [DecidableEq κ] {k : κ} {a : α}
    {l : List (κ × α)} (h : (l.map Prod.fst).Nodup) :
    l.lookup k = some a ↔ (k, a) ∈ l := by
  induction l with
  | nil => simp
  | cons p l ih =>
      obtain ⟨hp, hl⟩ := List.nodup_cons.1 h
      rw [List.lookup_cons, List.mem_cons]
      by_cases hk : k = p.1
      · subst hk
        have hnot : (p.1, a) ∉ l := fun ha => hp (List.mem_map.2 ⟨_, ha, rfl⟩)
        simp only [beq_self_eq_true, hnot, or_false, Option.some.injEq]
        exact ⟨fun ha => ha ▸ rfl, fun ha => congrArg Prod.snd ha |>.symm⟩
      · have hne : (k, a) ≠ p := fun he => hk (congrArg Prod.fst he)
        rw [beq_eq_false_iff_ne.2 hk]
        simp only [hne, false_or]
        exact ih hl

namespace Formed

variable {leaf leaf' : DeclId}

/-- The links in order are those of the chains of the leaves. -/
theorem map_fst_linkNodes (h : Formed s t) :
    t.linkNodes.map (·.1) = t.leaves.flatMap s.extensionChain := by
  rw [h.links, leaves, List.map_flatMap, List.flatMap_map]
  simp only [List.map_map, Function.comp_def, List.map_id']

theorem nodup_leaves (h : Formed s t) : t.leaves.Nodup := by
  -- each leaf is the first link of its chain
  have hsub : t.leaves.Sublist (t.leaves.flatMap s.extensionChain) := by
    have hparticipating := h.participating
    revert hparticipating
    induction t.leaves with
    | nil => exact fun _ => .slnil
    | cons d ds ih =>
        intro hparticipating
        obtain ⟨hd, hds⟩ := List.forall_mem_cons.1 hparticipating
        obtain ⟨above, habove⟩ := Sources.extensionChain_eq_cons hd
        rw [List.flatMap_cons, habove, List.cons_append]
        exact ((ih hds).trans (List.sublist_append_right _ _)).cons_cons d
  have hapart := h.apart
  rw [h.map_fst_linkNodes] at hapart
  exact hsub.nodup hapart

/-- A leaf is added to one node. -/
theorem nodeOfLeaf?_eq_some (h : Formed s t) :
    t.nodeOfLeaf? leaf = some n ↔ (leaf, n) ∈ t.leafNodes :=
  lookup_eq_some_iff_mem h.nodup_leaves

theorem mem_decls (h : Formed s t) :
    leaf ∈ (t.get n).decls ↔ (leaf, n) ∈ t.leafNodes := by
  rw [h.decls, List.mem_map]
  constructor
  · rintro ⟨p, hp, rfl⟩
    obtain ⟨hp, hn⟩ := List.mem_filter.1 hp
    exact of_decide_eq_true hn ▸ hp
  · exact fun hp => ⟨_, List.mem_filter.2 ⟨hp, decide_eq_true rfl⟩, rfl⟩

/-- A link belongs to the node of its leaf. -/
theorem nodeOf?_eq_some (h : Formed s t) : t.nodeOf? link = some n ↔
    ∃ leaf, (leaf, n) ∈ t.leafNodes ∧ link ∈ s.extensionChain leaf := by
  rw [nodeOf?, lookup_eq_some_iff_mem h.apart, h.links, List.mem_flatMap]
  constructor
  · rintro ⟨p, hp, hlink⟩
    obtain ⟨l, hl, he⟩ := List.mem_map.1 hlink
    obtain ⟨rfl, rfl⟩ := Prod.mk.inj he
    exact ⟨p.1, hp, hl⟩
  · rintro ⟨leaf, hp, hlink⟩
    exact ⟨_, hp, List.mem_map.2 ⟨link, hlink, rfl⟩⟩

/-- A leaf is a link of its own chain. -/
theorem nodeOf?_of_leaf (h : Formed s t) (hleaf : (leaf, n) ∈ t.leafNodes) :
    t.nodeOf? leaf = some n :=
  h.nodeOf?_eq_some.2 ⟨leaf, hleaf, Sources.mem_extensionChain_self
    (h.participating leaf (List.mem_map.2 ⟨_, hleaf, rfl⟩))⟩

theorem exists_node (h : leaf ∈ t.leaves) : ∃ n, (leaf, n) ∈ t.leafNodes := by
  obtain ⟨p, hp, rfl⟩ := List.mem_map.1 h
  exact ⟨p.2, hp⟩

/-- A link belongs to one chain. -/
theorem leaf_unique (h : Formed s t) (hleaf : leaf ∈ t.leaves)
    (hleaf' : leaf' ∈ t.leaves)
    (hlink : link ∈ s.extensionChain leaf)
    (hlink' : link ∈ s.extensionChain leaf') :
    leaf = leaf' := by
  have hapart := h.apart
  rw [h.map_fst_linkNodes, List.nodup_flatMap] at hapart
  have hsymm : Std.Symm (Function.onFun List.Disjoint s.extensionChain) :=
    ⟨fun _ _ hd _ ha hb => hd hb ha⟩
  by_contra hne
  exact hapart.2.forall hleaf hleaf' hne hlink hlink'

end Formed

end Composition

end Stagewise
