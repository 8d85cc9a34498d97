/-
The check for cycles decides acyclicity, and what it reports is a cycle.

# The search from the roots

`Settled` is the invariant of the completed nodes: with each of them all
its dependants are completed, and none of them needs itself. Completing a
node keeps it (`Settled.cons`), because whatever the node needs in a
circle would be one of its dependants and needs itself too. The nodes a
search is inside are distinct and each is followed by one of its
dependants, so coming back to one of them closes a cycle
(`Walk.isCycle`).

# The walk back

A node that no root leads to has a dependency, for it is no root, and its
dependencies are not led to either, for completed nodes bring their
dependants with them. So the walk never comes to an end and must meet a
node again (`walkBack_eq_cycle`).

Both stop within `depth`: the nodes on the way are distinct, and there are
only so many.
-/
import Mathlib.Data.List.TakeWhile
import Stagewise.Proofs.Dependency.Relation

namespace Stagewise.DependencyGraph

open Relation (TransGen)

variable {g : DependencyGraph} {n : DependencyId}

-- ================================================================== walks

/-- A walk to a node: the nodes before it are distinct, and each leads to
the next by a step of `R`. -/
structure Walk (g : DependencyGraph) (R : DependencyId → DependencyId → Prop)
    (path : List DependencyId) (n : DependencyId) : Prop where
  nodup : path.Nodup
  nodes : path ⊆ g.ids
  target : n ∈ g.ids
  steps : (path ++ [n]).IsChain R

variable {R : DependencyId → DependencyId → Prop} {path : List DependencyId}

theorem walk_nil (hn : n ∈ g.ids) : Walk g R [] n :=
  ⟨List.nodup_nil, List.nil_subset _, hn, List.isChain_singleton n⟩

/-- A walk goes one step further from a node that it has not passed. -/
theorem Walk.step (h : Walk g R path n) (hn : n ∉ path) {d : DependencyId}
    (hd : d ∈ g.ids) (hR : R n d) : Walk g R (path ++ [n]) d := by
  refine ⟨?_, ?_, hd, ?_⟩
  · refine List.nodup_append.2 ⟨h.nodup, List.nodup_singleton n, ?_⟩
    intro a ha b hb hab
    rw [List.mem_singleton] at hb
    exact hn (hb ▸ hab ▸ ha)
  · exact List.append_subset.2
      ⟨h.nodes, List.cons_subset.2 ⟨h.target, List.nil_subset _⟩⟩
  · refine h.steps.append (List.isChain_singleton d) ?_
    intro last hl first hf
    rw [List.getLast?_concat] at hl
    obtain rfl := Option.some.inj hl
    obtain rfl := Option.some.inj hf
    exact hR

/-- A walk that comes back to one of its nodes goes round from there. -/
theorem Walk.closed (h : Walk g R path n) (hn : n ∈ path) :
    (path.dropWhile (· != n)).IsChain R
      ∧ (path.dropWhile (· != n)).head? = some n
      ∧ ∀ last ∈ (path.dropWhile (· != n)).getLast?, R last n := by
  obtain ⟨before, hb⟩ : path.dropWhile (· != n) <:+ path :=
    List.dropWhile_suffix _
  have hround : (path.dropWhile (· != n) ++ [n]).IsChain R := by
    have hc := h.steps
    rw [← hb, List.append_assoc] at hc
    exact hc.right_of_append
  obtain ⟨hchain, -, hlast⟩ := List.isChain_append.1 hround
  refine ⟨hchain, ?_, fun last hl => hlast last hl n rfl⟩
  -- the walk passes `n`, so dropping stops there
  have hne : path.dropWhile (· != n) ≠ [] := by
    rw [ne_eq, List.dropWhile_eq_nil_iff]
    intro h
    simpa using h n hn
  obtain ⟨m, hm⟩ := Option.isSome_iff_exists.1 (List.isSome_head?.2 hne)
  have hhead := List.head?_dropWhile_not (· != n) path
  rw [hm] at hhead ⊢
  have hmn : m = n := by simpa using hhead
  rw [hmn]

/-- A walk along dependants that comes back gives a cycle. -/
theorem Walk.isCycle (h : Walk g (fun a b => b ∈ g.dependants a) path n)
    (hn : n ∈ path) : g.IsCycle (path.dropWhile (· != n)) := by
  obtain ⟨hchain, hhead, hlast⟩ := h.closed hn
  refine ⟨fun he => ?_, h.nodup.sublist (List.dropWhile_sublist _),
    fun m hm => h.nodes (List.dropWhile_subset _ hm), hchain, ?_⟩
  · rw [he] at hhead
    cases hhead
  · intro last hl first hf
    rw [hhead] at hf
    obtain rfl := Option.some.inj hf
    exact hlast last hl

/-- A walk along dependencies that comes back gives a cycle when read
backwards. -/
theorem Walk.isCycle_reverse (h : Walk g g.Depends path n) (hn : n ∈ path) :
    g.IsCycle (path.dropWhile (· != n)).reverse := by
  obtain ⟨hchain, hhead, hlast⟩ := h.closed hn
  refine ⟨fun he => ?_, ?_, fun m hm => ?_, ?_, ?_⟩
  · rw [List.reverse_eq_nil_iff] at he
    rw [he] at hhead
    cases hhead
  · exact List.nodup_reverse.2 (h.nodup.sublist (List.dropWhile_sublist _))
  · exact h.nodes (List.dropWhile_subset _ (List.mem_reverse.1 hm))
  · rw [List.isChain_reverse]
    exact hchain.imp fun a b hab => hab.mem_dependants
  · intro last hl first hf
    rw [List.getLast?_reverse, hhead] at hl
    rw [List.head?_reverse] at hf
    obtain rfl := Option.some.inj hl
    exact (hlast first hf).mem_dependants

-- ====================================================== the search forward

/-- What holds of the completed nodes: their dependants are completed, and
none of them needs itself. -/
structure Settled (g : DependencyGraph) (completed : List DependencyId) :
    Prop where
  closed : ∀ n ∈ completed, g.dependants n ⊆ completed
  free : ∀ n ∈ completed, ¬ TransGen g.Depends n n

theorem settled_nil (g : DependencyGraph) : Settled g [] :=
  ⟨fun _ h => absurd h List.not_mem_nil, fun _ h => absurd h List.not_mem_nil⟩

/-- A node may be completed once its dependants are. -/
theorem Settled.cons {completed : List DependencyId} (h : Settled g completed)
    (hn : g.dependants n ⊆ completed) : Settled g (n :: completed) := by
  constructor
  · intro m hm d hd
    rcases List.mem_cons.1 hm with rfl | hm
    · exact List.mem_cons_of_mem _ (hn hd)
    · exact List.mem_cons_of_mem _ (h.closed m hm hd)
  · intro m hm hcircle
    rcases List.mem_cons.1 hm with rfl | hm
    · -- the last node before `m` on the way round is one of its dependants
      obtain ⟨x, hmx, hxm⟩ := TransGen.tail'_iff.1 hcircle
      exact h.free x (hn hxm.mem_dependants) (TransGen.head' hxm hmx)
    · exact h.free m hm hcircle

/-- A sound outcome of a search that set out with `before` completed to
complete the `wanted` nodes as well. -/
def Sound (g : DependencyGraph) (before wanted : List DependencyId) :
    Except Halt (List DependencyId) → Prop
  | .ok completed => Settled g completed ∧ before ⊆ completed
      ∧ wanted ⊆ completed
  | .error (.cycle ns) => g.IsCycle ns
  | .error .tooDeep => False

variable {completed : List DependencyId}

/-- A halt is sound by itself, whatever the search was after. -/
theorem Sound.halt {before wanted before' wanted' : List DependencyId}
    {e : Halt} (h : Sound g before wanted (.error e)) :
    Sound g before' wanted' (.error e) := by
  cases e with
  | cycle ns => exact h
  | tooDeep => exact h

/-- Searching one node after the other is sound if each search is. -/
theorem sound_foldlM {ns : List DependencyId}
    {f : List DependencyId → DependencyId → Except Halt (List DependencyId)}
    (hf : ∀ n ∈ ns, ∀ completed, Settled g completed →
      Sound g completed [n] (f completed n)) (h : Settled g completed) :
    Sound g completed ns (ns.foldlM f completed) := by
  induction ns generalizing completed with
  | nil => exact ⟨h, List.Subset.refl _, List.nil_subset _⟩
  | cons n ns ih =>
      have hn := hf n List.mem_cons_self completed h
      rw [List.foldlM_cons]
      cases hr : f completed n with
      | error e =>
          rw [hr] at hn
          exact hn.halt
      | ok next =>
          rw [hr] at hn
          obtain ⟨hs, hbefore, hwanted⟩ := hn
          have hrest := ih (fun m hm => hf m (List.mem_cons_of_mem _ hm)) hs
          show Sound g completed (n :: ns) (ns.foldlM f next)
          cases hl : ns.foldlM f next with
          | error e =>
              rw [hl] at hrest
              exact hrest.halt
          | ok last =>
              rw [hl] at hrest
              obtain ⟨hset, hnext, hns⟩ := hrest
              exact ⟨hset, List.Subset.trans hbefore hnext,
                List.cons_subset.2 ⟨hnext (hwanted List.mem_cons_self), hns⟩⟩

/-- The search from a node is sound: it completes the node, or closes a
cycle among the nodes it is inside, and it is never too deep as long as
the fuel and the nodes on the way outnumber the graph. -/
theorem sound_searchCycle {fuel : Nat}
    (hfuel : g.nodes.length < fuel + path.length)
    (hw : Walk g (fun a b => b ∈ g.dependants a) path n)
    (h : Settled g completed) :
    Sound g completed [n] (g.searchCycle fuel path completed n) := by
  induction fuel generalizing path completed n with
  | zero =>
      have := length_le_of_nodup hw.nodup hw.nodes
      omega
  | succ fuel ih =>
      rw [searchCycle]
      split
      · rename_i hn
        exact ⟨h, List.Subset.refl _, by simpa using hn⟩
      · split
        · rename_i hn
          exact hw.isCycle (List.contains_iff_mem.1 hn)
        · rename_i hn
          have hn : n ∉ path := fun hm => hn (List.contains_iff_mem.2 hm)
          -- every dependant is searched one step further inside
          have hall : Sound g completed (g.dependants n)
              ((g.dependants n).foldlM
                (g.searchCycle fuel (path ++ [n])) completed) := by
            refine sound_foldlM (fun d hd completed hset => ?_) h
            refine ih ?_ (hw.step hn (mem_ids_of_mem_dependants hd) hd) hset
            rw [List.length_append, List.length_singleton]
            omega
          cases hr : (g.dependants n).foldlM
              (g.searchCycle fuel (path ++ [n])) completed with
          | error e =>
              rw [hr] at hall
              exact hall.halt
          | ok after =>
              rw [hr] at hall
              obtain ⟨hset, hbefore, hdeps⟩ := hall
              exact ⟨hset.cons hdeps, fun m hm => List.mem_cons_of_mem _
                (hbefore hm),
                List.cons_subset.2 ⟨List.mem_cons_self, List.nil_subset _⟩⟩

/-- The search from the roots is sound. -/
theorem sound_searchRoots (g : DependencyGraph) :
    Sound g [] g.roots g.searchRoots := by
  refine sound_foldlM (fun n hn completed h => ?_) (settled_nil g)
  refine sound_searchCycle ?_ (walk_nil (List.mem_filter.1 hn).1) h
  unfold depth
  rw [List.length_nil]
  omega

-- ============================================================ the walk back

/-- A node that no root leads to has a first dependency, which no root
leads to either. -/
theorem exists_unreached_dependency (h : Settled g completed)
    (hroots : g.roots ⊆ completed) (hn : n ∈ g.ids) (hu : n ∉ completed) :
    ∃ d, (g.dependencies n).head? = some d ∧ g.Depends n d
      ∧ d ∉ completed := by
  have hdeps : g.dependencies n ≠ [] := by
    intro he
    exact hu (hroots (List.mem_filter.2 ⟨hn, by rw [he]; rfl⟩))
  obtain ⟨d, hd⟩ := Option.isSome_iff_exists.1 (List.isSome_head?.2 hdeps)
  have hnd : g.Depends n d := ⟨hn, List.mem_of_head? hd⟩
  exact ⟨d, hd, hnd, fun hc => hu (h.closed d hc hnd.mem_dependants)⟩

/-- The walk back from a node that no root leads to closes a cycle. It
ends neither at a node without dependencies nor for lack of depth. -/
theorem walkBack_eq_cycle (h : Settled g completed)
    (hroots : g.roots ⊆ completed) {fuel : Nat}
    (hfuel : g.nodes.length < fuel + path.length)
    (hw : Walk g g.Depends path n) (hu : n ∉ completed) :
    ∃ cycle, g.walkBack fuel path n = .error (.cycle cycle)
      ∧ g.IsCycle cycle := by
  induction fuel generalizing path n with
  | zero =>
      have := length_le_of_nodup hw.nodup hw.nodes
      omega
  | succ fuel ih =>
      rw [walkBack]
      split
      · rename_i hn
        exact ⟨_, rfl, hw.isCycle_reverse (List.contains_iff_mem.1 hn)⟩
      · rename_i hn
        have hn : n ∉ path := fun hm => hn (List.contains_iff_mem.2 hm)
        obtain ⟨d, hhead, hnd, hud⟩ :=
          exists_unreached_dependency h hroots hw.target hu
        rw [hhead]
        refine ih ?_ (hw.step hn hnd.mem_ids.2 hnd) hud
        rw [List.length_append, List.length_singleton]
        omega

/-- The walk back as the check starts it. -/
theorem walkBack_unreached (h : g.searchRoots = .ok completed) (hn : n ∈ g.ids)
    (hu : n ∉ completed) :
    ∃ cycle, g.walkBack g.depth [] n = .error (.cycle cycle)
      ∧ g.IsCycle cycle := by
  have hsound := sound_searchRoots g
  rw [h] at hsound
  obtain ⟨hset, -, hroots⟩ := hsound
  refine walkBack_eq_cycle hset hroots ?_ (walk_nil hn) hu
  unfold depth
  rw [List.length_nil]
  omega

-- =============================================================== the check

/-- Either nothing is found and there is no cycle, since all nodes are
completed; or what is found is one. -/
theorem cycle?_cases (g : DependencyGraph) : (g.cycle? = none ∧ g.Acyclic)
    ∨ ∃ cycle, g.cycle? = some cycle ∧ g.IsCycle cycle := by
  have hsound := sound_searchRoots g
  unfold cycle?
  split
  · rename_i e he
    rw [he] at hsound
    cases e with
    | cycle ns => exact Or.inr ⟨ns, rfl, hsound⟩
    | tooDeep => exact absurd hsound id
  · rename_i completed hr
    rw [hr] at hsound
    split
    · rename_i hf
      refine Or.inl ⟨rfl, fun n hcircle => ?_⟩
      have hn := List.find?_eq_none.1 hf n (mem_ids_of_transGen hcircle).1
      exact hsound.1.free n (by simpa using hn) hcircle
    · rename_i n hf
      have hu : n ∉ completed := by simpa using List.find?_some hf
      obtain ⟨ns, hw, hns⟩ :=
        walkBack_unreached hr (List.mem_of_find?_eq_some hf) hu
      rw [hw]
      exact Or.inr ⟨ns, rfl, hns⟩

theorem cycle?_eq_none_iff : g.cycle? = none ↔ g.Acyclic := by
  rcases cycle?_cases g with ⟨hnone, hacyclic⟩ | ⟨cycle, hsome, hcycle⟩
  · exact iff_of_true hnone hacyclic
  · exact iff_of_false (by rw [hsome]; exact nofun) hcycle.not_acyclic

theorem checkAcyclic_eq_ok_iff : g.checkAcyclic = .ok () ↔ g.Acyclic := by
  rw [← cycle?_eq_none_iff]
  unfold checkAcyclic
  cases g.cycle? with
  | none => simp
  | some cycle => simp

/-- The check for cycles, whatever nodes and dependencies a graph has. It
passes exactly the acyclic graphs, and where it fails it names the nodes
of a cycle in order. Neither search lacks depth, and the walk back from a
node that no root leads to always closes a cycle. -/
theorem checkAcyclic_decides (g : DependencyGraph) :
    (g.checkAcyclic = .ok () ↔ g.Acyclic)
      ∧ (g.checkAcyclic = .ok ()
          ∨ ∃ cycle, g.IsCycle cycle
              ∧ g.checkAcyclic = .error (.cyclicDependency (cycle.map g.name)))
      ∧ g.searchRoots ≠ .error .tooDeep
      ∧ ∀ completed, g.searchRoots = .ok completed →
          ∀ n ∈ g.ids, n ∉ completed →
            ∃ cycle, g.walkBack g.depth [] n = .error (.cycle cycle) := by
  refine ⟨checkAcyclic_eq_ok_iff, ?_, ?_, ?_⟩
  · unfold checkAcyclic
    rcases cycle?_cases g with ⟨hnone, -⟩ | ⟨cycle, hsome, hcycle⟩
    · rw [hnone]
      exact Or.inl rfl
    · rw [hsome]
      exact Or.inr ⟨cycle, hcycle, rfl⟩
  · intro h
    have hsound := sound_searchRoots g
    rw [h] at hsound
    exact hsound
  · intro completed h n hn hu
    obtain ⟨cycle, hw, -⟩ := walkBack_unreached h hn hu
    exact ⟨cycle, hw⟩

end Stagewise.DependencyGraph
