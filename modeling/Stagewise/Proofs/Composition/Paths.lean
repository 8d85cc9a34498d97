/-
The paths of the nodes, and where they lead.

# Giving paths

The walk that gives the paths visits every node once. It keeps the nodes
whose turn comes later on a stack, each with its path: that of its parent,
which was visited before, and its parent access behind (`Walk`). No node
waits twice, so the fuel lasts, and in the end every node was visited
(`computePaths_pathed`).

# Following them

Where no two children of a node have the same parent access, paths tell all
nodes apart. A node whose path begins another node's path then encloses it
(`Pathed.encloses_of_path`), and what the other path has more are the
parent accesses on the way down (`Pathed.descends`).
-/
import Mathlib.Data.List.Perm.Subperm
import Mathlib.Logic.Relation
import Stagewise.Proofs.Composition.Tree

namespace Stagewise.Composition

variable {s s' : Sources} {t t' : Composition} {n m p : CompositionId}
variable {path path' : List FieldRef}

-- ============================================================== the children

theorem mem_ids : n ∈ t.ids ↔ n.index < t.nodes.length := by
  unfold ids
  constructor
  · intro h
    obtain ⟨i, hi, rfl⟩ := List.mem_map.1 h
    exact List.mem_range.1 hi
  · exact fun h => List.mem_map.2 ⟨n.index, List.mem_range.2 h, rfl⟩

theorem nodup_ids : t.ids.Nodup :=
  List.nodup_range.map fun _ _ h => congrArg CompositionId.index h

theorem mem_children : m ∈ t.children n ↔
    m.index < t.nodes.length ∧ (t.get m).parent = some n := by
  unfold children
  rw [List.mem_filter, mem_ids, beq_iff_eq]

theorem lt_of_parent (h : (t.get m).parent = some n) :
    m.index < t.nodes.length := by
  rcases Nat.lt_or_ge m.index t.nodes.length with hlt | hge
  · exact hlt
  · rw [get_of_length_le hge] at h
    cases h

theorem Formed.parent_lt (ht : Formed s t) (h : (t.get m).parent = some n) :
    n.index < m.index := by
  have hne : m ≠ Composition.root := fun e => by
    rw [e, ht.root] at h
    cases h
  obtain ⟨p, hp, hlt⟩ := ht.parent m (lt_of_parent h) hne
  obtain rfl := Option.some.inj (h.symm.trans hp)
  exact hlt

-- ========================================================== each in its place

/-- Elements put under their keys, with what has none of the keys left
out. -/
theorem flatMap_filter_perm {α κ : Type} [DecidableEq κ] {keys : List κ}
    (hkeys : keys.Nodup)
    (key : α → κ) {p : α → Bool} {as : List α}
    (hp : ∀ a ∈ as, p a = true ↔ key a ∈ keys) :
    (keys.flatMap fun k => as.filter (key · = k)).Perm (as.filter p) := by
  induction keys generalizing p with
  | nil =>
      rw [List.filter_eq_nil_iff.2 fun a ha hpa => List.not_mem_nil
        ((hp a ha).1 hpa)]
      exact .refl _
  | cons k keys ih =>
      obtain ⟨hk, hkeys⟩ := List.nodup_cons.1 hkeys
      have hfirst : (as.filter p).filter (key · = k)
          = as.filter (key · = k) := by
        rw [List.filter_filter]
        refine List.filter_congr fun a ha => ?_
        by_cases hkey : key a = k
        · rw [(hp a ha).2 (hkey ▸ List.mem_cons_self), Bool.and_true]
        · simp [hkey]
      have hrest := ih hkeys (p := fun a => p a && !decide (key a = k))
          fun a ha => by
        rw [Bool.and_eq_true, hp a ha, List.mem_cons, Bool.not_eq_true',
          decide_eq_false_iff_not]
        constructor
        · exact fun h => h.1.resolve_left h.2
        · exact fun h => ⟨Or.inr h, fun he => hk (he ▸ h)⟩
      have hsplit := List.filter_append_perm (key · = k) (as.filter p)
      rw [hfirst, List.filter_filter] at hsplit
      rw [List.flatMap_cons]
      refine ((hrest.append_left _).trans ?_).trans hsplit
      simp only [Bool.and_comm]
      exact .refl _

/-- Every node but the root is the child of one node. -/
theorem Formed.children_perm (ht : Formed s t) :
    (Composition.root :: t.ids.flatMap t.children).Perm t.ids := by
  have hkeys : (t.ids.map some).Nodup := (nodup_ids (t := t)).map fun _ _ =>
    Option.some.inj
  have hparent : ∀ m ∈ t.ids, (m != Composition.root) = true
      ↔ (t.get m).parent ∈ t.ids.map some := by
    intro m hm
    rw [bne_iff_ne]
    constructor
    · intro hne
      obtain ⟨p, hp, hlt⟩ := ht.parent m (mem_ids.1 hm) hne
      exact hp ▸ List.mem_map.2
        ⟨p, mem_ids.2 (Nat.lt_trans hlt (mem_ids.1 hm)), rfl⟩
    · rintro hmem rfl
      rw [ht.root] at hmem
      simp at hmem
  have hperm := flatMap_filter_perm hkeys (fun m => (t.get m).parent) hparent
  rw [List.flatMap_map, ← (nodup_ids (t := t)).erase_eq_filter] at hperm
  have hchildren : t.children = fun n => t.ids.filter fun m =>
      (t.get m).parent = some n :=
    funext fun n => List.filter_congr fun m _ => by
      rw [Bool.eq_iff_iff, beq_iff_eq, decide_eq_true_iff]
  rw [hchildren]
  exact (hperm.cons _).trans
    (List.perm_cons_erase (mem_ids.2 ht.nonempty)).symm

/-- Every leaf is a declaration of one node. -/
theorem Formed.decls_perm (ht : Formed s t) :
    (t.ids.flatMap fun n => (t.get n).decls).Perm t.leaves := by
  have hperm :=
    flatMap_filter_perm (nodup_ids (t := t)) Prod.snd (p := fun _ => true)
    fun p hp => ⟨fun _ => mem_ids.2 (ht.place p hp), fun _ => rfl⟩
  rw [List.filter_true] at hperm
  have hleaves := hperm.map Prod.fst
  rw [List.map_flatMap] at hleaves
  simp only [ht.decls]
  exact hleaves

-- ============================================================== giving paths

/-- A node without its path. -/
def unpathed (x : CompositionNode) : CompositionNode := { x with path := [] }

/-- That a tree is another one up to the paths of its nodes. -/
structure Repaths (t t' : Composition) : Prop where
  form : SameForm t t'
  node : ∀ n, unpathed (t'.get n) = unpathed (t.get n)

namespace Repaths

theorem refl (t : Composition) : Repaths t t := ⟨.refl t, fun _ => rfl⟩

theorem trans {t₁ t₂ t₃ : Composition} (h : Repaths t₁ t₂)
    (h' : Repaths t₂ t₃) :
    Repaths t₁ t₃ :=
  ⟨h.form.trans h'.form, fun n => (h'.node n).trans (h.node n)⟩

theorem modify (n : CompositionId) (path : List FieldRef) :
    Repaths t (t.modify n fun x => { x with path }) :=
  ⟨.modify n _ (fun _ => rfl) fun _ => rfl,
    get_modify_congr (g := unpathed) (f := fun x => { x with path })
    fun _ => rfl⟩

theorem parentAccess (h : Repaths t t') (n : CompositionId) :
    (t'.get n).parentAccess = (t.get n).parentAccess := by
  have hnode := congrArg CompositionNode.parentAccess (h.node n)
  exact hnode

end Repaths

/-- That a node's path leads there from a node visited before. -/
def LeadsTo (t : Composition) (visited : List CompositionId)
    (n : CompositionId) (path : List FieldRef) : Prop :=
  (n = root ∧ path = []) ∨ ∃ p ∈ visited, (t.get n).parent = some p
    ∧ ∃ f, (t.get n).parentAccess = some f ∧ path = (t.get p).path ++ [f]

/-- What holds of the walk that gives the paths: every child of a visited
node waits or is visited, and all their paths are right. -/
structure Walk (t : Composition) (stack : List (CompositionId × List FieldRef))
    (visited : List CompositionId) : Prop where
  nodup : (stack.map (·.1) ++ visited).Nodup
  range : ∀ n ∈ stack.map (·.1) ++ visited, n.index < t.nodes.length
  root : root ∈ stack.map (·.1) ++ visited
  down : ∀ n ∈ visited, ∀ c ∈ t.children n, c ∈ stack.map (·.1) ++ visited
  waiting : ∀ p ∈ stack, t.LeadsTo visited p.1 p.2
  visited : ∀ n ∈ visited, t.LeadsTo visited n (t.get n).path

/-- The children get their paths if they all have a parent access. -/
theorem childPaths_eq_ok {cs : List CompositionId}
    {below : List (CompositionId × List FieldRef)}
    (h : t.childPaths s path cs = .ok below) :
    below.map (·.1) = cs
      ∧ ∀ q ∈ below, ∃ f, (t.get q.1).parentAccess = some f
      ∧ q.2 = path ++ [f] := by
  induction cs generalizing below with
  | nil =>
      obtain rfl := Except.ok.inj h
      exact ⟨rfl, List.forall_mem_nil _⟩
  | cons c cs ih =>
      rw [childPaths] at h
      obtain ⟨rest, hrest, h⟩ := bind_eq_ok h
      obtain ⟨hmap, hall⟩ := ih hrest
      cases hf : (t.get c).parentAccess with
      | none => rw [hf] at h; cases h
      | some f =>
          rw [hf] at h
          obtain rfl := Except.ok.inj h
          exact ⟨by rw [List.map_cons, hmap],
            List.forall_mem_cons.2 ⟨⟨f, hf, rfl⟩, hall⟩⟩

/-- A visit to a node that was not visited changes no path but its own. -/
theorem LeadsTo.visit {visited : List CompositionId}
    (h : t.LeadsTo visited p path') (hn : n ∉ visited) :
    (t.modify n fun x => { x with path }).LeadsTo (n :: visited) p path' := by
  have hre : Repaths t (t.modify n fun x => { x with path }) := .modify n path
  obtain hroot | ⟨q, hq, hparent, f, hf, hpath⟩ := h
  · exact Or.inl hroot
  · have hne : q ≠ n := fun e => hn (e ▸ hq)
    refine Or.inr ⟨q, List.mem_cons_of_mem _ hq,
      (hre.form.parent p).trans hparent, f, (hre.parentAccess p).trans hf, ?_⟩
    rw [get_modify_of_ne hne]
    exact hpath

namespace Walk

variable {stack below : List (CompositionId × List FieldRef)}
variable {visited : List CompositionId}

/-- The root apart, a node is met after its parent was visited. -/
theorem visited_parent (h : Walk t stack visited)
    (hp : p ∈ stack.map (·.1) ++ visited)
    (hparent : (t.get p).parent = some n) (hroot : p ≠ Composition.root) :
    n ∈ visited := by
  have hleads : ∃ path', t.LeadsTo visited p path' := by
    rcases List.mem_append.1 hp with hp | hp
    · obtain ⟨w, hw, rfl⟩ := List.mem_map.1 hp
      exact ⟨w.2, h.waiting w hw⟩
    · exact ⟨_, h.visited p hp⟩
  obtain ⟨_, ⟨hp, -⟩ | ⟨q, hq, hparent', -⟩⟩ := hleads
  · exact absurd hp hroot
  · obtain rfl := Option.some.inj (hparent.symm.trans hparent')
    exact hq

/-- The children of a node that was not visited were not met. -/
theorem not_met (ht : Formed s t) (h : Walk t stack visited)
    (hn : n ∉ visited) :
    ∀ c ∈ t.children n, c ∉ stack.map (·.1) ++ visited := by
  intro c hc hmet
  have hparent := (mem_children.1 hc).2
  refine hn (h.visited_parent hmet hparent ?_)
  rintro rfl
  rw [ht.root] at hparent
  cases hparent

/-- A turn of the walk: the first node that waits gets its path, and its
children wait in its place. -/
theorem step (ht : Formed s t) (h : Walk t ((n, path) :: stack) visited)
    (hbelow : (t.modify n fun x => { x with path }).childPaths s' path
      ((t.modify n fun x => { x with path }).children n) = .ok below) :
    Walk (t.modify n fun x => { x with path }) (below ++ stack)
      (n :: visited) := by
  obtain ⟨hmap, hpaths⟩ := childPaths_eq_ok hbelow
  have hre : Repaths t (t.modify n fun x => { x with path }) := .modify n path
  rw [hre.form.children] at hmap
  have hn : n.index < t.nodes.length := h.range n List.mem_cons_self
  have hfresh : n ∉ visited := fun hn =>
    (List.nodup_cons.1 h.nodup).1 (List.mem_append_right _ hn)
  have hperm : ((below ++ stack).map (·.1) ++ n :: visited).Perm
      (t.children n ++ (((n, path) :: stack).map (·.1) ++ visited)) := by
    rw [List.map_append, hmap, List.append_assoc]
    exact List.perm_middle.append_left _
  have hmem : ∀ q, q ∈ (below ++ stack).map (·.1) ++ n :: visited ↔
      q ∈ t.children n
        ∨ q ∈ ((n, path) :: stack).map (·.1) ++ visited := fun q =>
    hperm.mem_iff.trans List.mem_append
  refine ⟨?_, fun q hq => ?_, (hmem _).2 (Or.inr h.root), fun q hq c hc => ?_,
    ?_, ?_⟩
  · refine hperm.nodup_iff.2 (List.nodup_append.2
      ⟨nodup_ids.filter _, h.nodup, fun a ha b hb hab => ?_⟩)
    exact h.not_met ht hfresh a ha (hab ▸ hb)
  · rw [hre.form.length]
    rcases (hmem q).1 hq with hq | hq
    · exact (mem_children.1 hq).1
    · exact h.range q hq
  · rw [hre.form.children] at hc
    refine (hmem c).2 ?_
    rcases List.mem_cons.1 hq with rfl | hq
    · exact Or.inl hc
    · exact Or.inr (h.down q hq c hc)
  · refine List.forall_mem_append.2 ⟨fun q hq => ?_, fun q hq => ?_⟩
    · obtain ⟨f, hf, hpath⟩ := hpaths q hq
      have hc : q.1 ∈ t.children n := hmap ▸ List.mem_map.2 ⟨q, hq, rfl⟩
      refine Or.inr ⟨n, List.mem_cons_self, ?_, f, hf, ?_⟩
      · rw [hre.form.parent]
        exact (mem_children.1 hc).2
      · rw [get_modify_self hn]
        exact hpath
    · exact (h.waiting q (List.mem_cons_of_mem _ hq)).visit hfresh
  · refine List.forall_mem_cons.2 ⟨?_, fun q hq => ?_⟩
    · rw [get_modify_self hn]
      exact (h.waiting (n, path) List.mem_cons_self).visit hfresh
    · have hne : q ≠ n := fun e => hfresh (e ▸ hq)
      rw [get_modify_of_ne hne]
      exact (h.visited q hq).visit hfresh

end Walk

/-- No more nodes are visited than there are. -/
theorem Walk.length_le {stack : List (CompositionId × List FieldRef)}
    {visited : List CompositionId} (h : Walk t stack visited) :
    visited.length ≤ t.nodes.length := by
  have hsub : visited ⊆ t.ids :=
    fun n hn => mem_ids.2 (h.range n (List.mem_append_right _ hn))
  have hle := (List.subperm_of_subset (List.nodup_append.1 h.nodup).2.1
    hsub).length_le
  rwa [ids, List.length_map, List.length_range] at hle

/-- A walk that succeeds visits all that waits. -/
theorem givePaths_walks {fuel : Nat}
    {stack : List (CompositionId × List FieldRef)}
    {visited : List CompositionId} (ht : Formed s t) (h : Walk t stack visited)
    (hfuel : t.nodes.length < fuel + visited.length)
    (hrun : givePaths s' fuel stack t = (.ok (), t')) :
    Repaths t t' ∧ ∃ visited', Walk t' [] visited' := by
  induction fuel generalizing t stack visited with
  | zero =>
      have hle := h.length_le
      omega
  | succ fuel ih =>
      cases stack with
      | nil =>
          obtain ⟨-, rfl⟩ := Prod.mk.inj hrun
          exact ⟨.refl t, visited, h⟩
      | cons q stack =>
          rw [givePaths] at hrun
          split at hrun
          · cases hrun
          · rename_i below hbelow
            have hre : Repaths t (t.modify q.1 fun x => { x with
              path := q.2 }) := .modify q.1 q.2
            obtain ⟨hre', hwalk⟩ := ih (hre.form.formed ht) (h.step ht hbelow)
              (by rw [hre.form.length, List.length_cons]; omega) hrun
            exact ⟨hre.trans hre', hwalk⟩

/-- That the path of every node is that of its parent with its own parent
access behind. -/
structure Pathed (t : Composition) : Prop where
  root : (t.get root).path = []
  child : ∀ n p, (t.get n).parent = some p →
    ∃ f, (t.get n).parentAccess = some f
      ∧ (t.get n).path = (t.get p).path ++ [f]

/-- A walk that has ended has visited every node. -/
theorem Walk.mem_visited (ht : Formed s t) {visited : List CompositionId}
    (h : Walk t [] visited) : ∀ i, i < t.nodes.length → ⟨i⟩ ∈ visited := by
  intro i
  induction i using Nat.strongRecOn with
  | ind i ih =>
      intro hi
      by_cases hroot : (⟨i⟩ : CompositionId) = Composition.root
      · rw [hroot]
        exact h.root
      · obtain ⟨p, hp, hlt⟩ := ht.parent ⟨i⟩ hi hroot
        exact h.down p (ih p.index hlt (Nat.lt_trans hlt hi)) ⟨i⟩
          (mem_children.2 ⟨hi, hp⟩)

/-- Where paths are computed, they are right. -/
theorem computePaths_pathed (ht : Formed s t)
    (h : t.computePaths s' = (.ok (), t')) :
    Repaths t t' ∧ Pathed t' := by
  have hstart : Walk t [(Composition.root, [])] [] := by
    refine ⟨List.nodup_singleton _, List.forall_mem_singleton.2 ht.nonempty,
      List.mem_singleton_self _, List.forall_mem_nil _, ?_,
      List.forall_mem_nil _⟩
    exact List.forall_mem_singleton.2 (Or.inl ⟨rfl, rfl⟩)
  obtain ⟨hre, visited, hwalk⟩ := givePaths_walks ht hstart
    (by rw [List.length_nil]; omega) h
  have ht' := hre.form.formed ht
  have hall := hwalk.mem_visited ht'
  refine ⟨hre, ?_, fun n p hp => ?_⟩
  · rcases hwalk.visited _ (hall 0 ht'.nonempty) with ⟨-, hpath⟩
      | ⟨p, -, hp, -⟩
    · exact hpath
    · exact absurd (ht'.root.symm.trans hp) (by simp)
  · rcases hwalk.visited n (hall n.index (lt_of_parent hp)) with ⟨rfl, -⟩
      | ⟨q, -, hq, hrest⟩
    · exact absurd (ht'.root.symm.trans hp) (by simp)
    · obtain rfl := Option.some.inj (hp.symm.trans hq)
      exact hrest

-- ============================================================ following paths

/-- That a node is around another one or is this node. -/
def Encloses (t : Composition) : CompositionId → CompositionId → Prop :=
  Relation.ReflTransGen fun p n => (t.get n).parent = some p

/-- That no two children of a node have the same parent access. -/
def Branches (t : Composition) : Prop :=
  ∀ n m p f, (t.get n).parent = some p → (t.get m).parent = some p →
    (t.get n).parentAccess = some f → (t.get m).parentAccess = some f → n = m

/-- That the parent accesses tell the children of a node apart by their
identities. -/
def Separates (t : Composition) : Prop :=
  ∀ n m p f g, (t.get n).parent = some p → (t.get m).parent = some p →
    (t.get n).parentAccess = some f → (t.get m).parentAccess = some g →
      f.identity = g.identity → n = m

theorem Separates.branches (h : Separates t) : Branches t :=
  fun n m p f hn hm hf hf' => h n m p f f hn hm hf hf' rfl

theorem Pathed.congr (h : Pathed t) (ht : SameForm t t')
    (haccess : ∀ n, (t'.get n).parentAccess = (t.get n).parentAccess)
    (hpath : ∀ n, (t'.get n).path = (t.get n).path) : Pathed t' := by
  refine ⟨(hpath _).trans h.root, fun n p hp => ?_⟩
  rw [ht.parent] at hp
  rw [haccess, hpath, hpath]
  exact h.child n p hp

theorem Separates.congr (h : Separates t) (ht : SameForm t t')
    (haccess : ∀ n, (t'.get n).parentAccess = (t.get n).parentAccess) :
    Separates t' := by
  intro n m p f g hn hm hf hg hid
  rw [ht.parent] at hn hm
  rw [haccess] at hf hg
  exact h n m p f g hn hm hf hg hid

theorem Formed.eq_root (ht : Formed s t) (hn : n.index < t.nodes.length)
    (h : (t.get n).parent = none) : n = Composition.root := by
  by_contra hne
  obtain ⟨p, hp, -⟩ := ht.parent n hn hne
  rw [h] at hp
  cases hp

/-- Only the root has the empty path. -/
theorem Pathed.eq_root (h : Pathed t) (ht : Formed s t)
    (hn : n.index < t.nodes.length)
    (hpath : (t.get n).path = []) : n = Composition.root := by
  by_contra hne
  obtain ⟨p, hp, -⟩ := ht.parent n hn hne
  obtain ⟨f, -, hf⟩ := h.child n p hp
  rw [hpath] at hf
  exact absurd hf.symm (List.append_ne_nil_of_right_ne_nil _
    (List.cons_ne_nil _ _))

/-- Paths tell nodes apart. -/
theorem Pathed.path_injective (h : Pathed t) (ht : Formed s t)
    (hb : Branches t)
    (hn : n.index < t.nodes.length) (hm : m.index < t.nodes.length)
    (hpath : (t.get n).path = (t.get m).path) : n = m := by
  induction hi : n.index using Nat.strongRecOn generalizing n m with
  | ind i ih =>
      subst hi
      cases hnp : (t.get n).parent with
      | none =>
          obtain rfl := ht.eq_root hn hnp
          rw [h.root] at hpath
          exact (h.eq_root ht hm hpath.symm).symm
      | some p =>
          obtain ⟨f, hf, hpathn⟩ := h.child n p hnp
          cases hmq : (t.get m).parent with
          | none =>
              obtain rfl := ht.eq_root hm hmq
              rw [h.root] at hpath
              exact h.eq_root ht hn hpath
          | some q =>
              obtain ⟨g, hg, hpathm⟩ := h.child m q hmq
              rw [hpathn, hpathm] at hpath
              obtain ⟨hpq, hfg⟩ := List.append_inj' hpath rfl
              have hlt := ht.parent_lt hnp
              obtain rfl : p = q := ih p.index hlt (Nat.lt_trans hlt hn)
                (Nat.lt_trans (ht.parent_lt hmq) hm) hpq rfl
              obtain rfl : f = g := (List.cons.inj hfg).1
              exact hb n m p f hnp hmq hf hg

/-- A node whose path begins another node's path encloses it. -/
theorem Pathed.encloses_of_path (h : Pathed t) (ht : Formed s t)
    (hb : Branches t)
    (hn : n.index < t.nodes.length) (hm : m.index < t.nodes.length)
    (hbegins : (t.get n).path <+: (t.get m).path) : t.Encloses n m := by
  induction hi : m.index using Nat.strongRecOn generalizing m with
  | ind i ih =>
      subst hi
      cases hmp : (t.get m).parent with
      | none =>
          obtain rfl := ht.eq_root hm hmp
          rw [h.root] at hbegins
          rw [h.eq_root ht hn (List.prefix_nil.1 hbegins)]
          exact .refl
      | some p =>
          obtain ⟨f, -, hpath⟩ := h.child m p hmp
          rw [hpath, List.prefix_concat_iff] at hbegins
          rcases hbegins with heq | hbegins
          · rw [h.path_injective ht hb hn hm (heq.trans hpath.symm)]
            exact .refl
          · have hlt := ht.parent_lt hmp
            exact (ih p.index hlt (Nat.lt_trans hlt hm) hbegins rfl).tail hmp

/-- The parent accesses on the way down from a node. -/
inductive Descends (t : Composition) (n : CompositionId) :
    List FieldRef → CompositionId → Prop
  | here : Descends t n [] n
  | down {fs : List FieldRef} {f : FieldRef} {p m : CompositionId} :
      Descends t n fs p →
      (t.get m).parent = some p → (t.get m).parentAccess = some f →
      Descends t n (fs ++ [f]) m

/-- What the path of an enclosed node has more are the parent accesses on
the way down. -/
theorem Pathed.descends (h : Pathed t) (hm : t.Encloses n m) :
    ∃ fs, Descends t n fs m ∧ (t.get m).path = (t.get n).path ++ fs := by
  induction hm with
  | refl => exact ⟨[], .here, (List.append_nil _).symm⟩
  | tail _ hparent ih =>
      obtain ⟨fs, hfs, hpath⟩ := ih
      obtain ⟨f, hf, hpath'⟩ := h.child _ _ hparent
      exact ⟨fs ++ [f],
        .down hfs hparent hf, by rw [hpath', hpath, List.append_assoc]⟩

-- =================================================================== accesses

theorem lineageFrom_spec (ht : Formed s t) {fuel : Nat}
    (hn : n.index < t.nodes.length) (hfuel : n.index ≤ fuel) :
    Composition.root ∈ t.lineageFrom fuel n
      ∧ ∀ m ∈ t.lineageFrom fuel n, m.index < t.nodes.length := by
  induction fuel generalizing n with
  | zero =>
      obtain rfl : n = Composition.root :=
        congrArg CompositionId.mk (Nat.le_zero.1 hfuel)
      exact ⟨List.mem_singleton_self _, List.forall_mem_singleton.2 hn⟩
  | succ fuel ih =>
      rw [lineageFrom]
      cases hp : (t.get n).parent with
      | none =>
          obtain rfl := ht.eq_root hn hp
          exact ⟨List.mem_singleton_self _, List.forall_mem_singleton.2 hn⟩
      | some p =>
          have hlt := ht.parent_lt hp
          obtain ⟨hroot, hrange⟩ :=
            ih (n := p) (Nat.lt_trans hlt hn) (by omega)
          exact ⟨List.mem_cons_of_mem _ hroot,
            List.forall_mem_cons.2 ⟨hn, hrange⟩⟩

/-- The path of the nearest node around the source begins the target's. -/
theorem Pathed.nearestEnclosing_spec (h : Pathed t) (ht : Formed s t)
    (hn : n.index < t.nodes.length) (m : CompositionId) :
    (t.nearestEnclosing n m).index < t.nodes.length
      ∧ (t.get (t.nearestEnclosing n m)).path <+: (t.get m).path := by
  obtain ⟨hroot, hrange⟩ := lineageFrom_spec ht hn (Nat.le_of_lt hn)
  unfold nearestEnclosing
  cases hfind : (t.lineage n).find? fun n => (t.get n).path.isPrefixOf
      (t.get m).path with
  | none =>
      refine ⟨ht.nonempty, ?_⟩
      rw [Option.getD_none, h.root]
      exact List.nil_prefix
  | some e =>
      have hbegins := List.find?_some hfind
      exact ⟨hrange e (List.mem_of_find?_eq_some hfind),
        List.isPrefixOf_iff_prefix.1 hbegins⟩

/-- An access goes from an enclosing object down to its target. -/
theorem Pathed.access_descends (h : Pathed t) (ht : Formed s t)
    (hb : Branches t)
    (hn : n.index < t.nodes.length) (hm : m.index < t.nodes.length) :
    ∃ fs, Descends t (t.nearestEnclosing n m) fs m
      ∧ ∀ s', t.access s' n m = fs.foldl (fun e f => .field (some e) f)
          (.self (t.declNames s' (t.nearestEnclosing n m)).head?) := by
  obtain ⟨he, hbegins⟩ := h.nearestEnclosing_spec ht hn m
  obtain ⟨fs, hfs, hpath⟩ :=
    h.descends (h.encloses_of_path ht hb he hm hbegins)
  refine ⟨fs, hfs, fun s' => ?_⟩
  unfold access
  dsimp only
  rw [hpath, List.drop_left]

end Stagewise.Composition
