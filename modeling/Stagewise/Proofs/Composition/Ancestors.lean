/-
The lowest node around two nodes, and the way down from it.

# Nodes around

The lineage of a node lists the nodes that enclose it, innermost first
(`mem_lineage`, `pairwise_lineage`). Where paths tell nodes apart, a node
encloses another one exactly if its path begins the other's
(`Pathed.begins_iff`). So the first of the lineage whose path begins the
target's is the lowest node around both (`Pathed.isLowest`).

# The way down

Every beginning of a path is the path of a node around
(`Pathed.exists_encloses`). So what two paths have in common is the path of
the lowest node around both (`Pathed.shared_eq`), and what the target's path
has more leads from there down to the target (`Pathed.accessPath_descends`).
Between any two nodes there is such a route (`Pathed.routed`).
-/
import Stagewise.Proofs.Composition.Paths

namespace Stagewise.Composition

variable {s : Sources} {t : Composition} {n m p e : CompositionId}
variable {fs : List FieldRef}

-- =============================================================== nodes around

theorem Encloses.index_le (ht : Formed s t) (h : t.Encloses n m) :
    n.index ≤ m.index := by
  induction h with
  | refl => exact Nat.le_refl _
  | tail _ hparent ih =>
      exact Nat.le_trans ih (Nat.le_of_lt (ht.parent_lt hparent))

theorem Encloses.antisymm (ht : Formed s t) (h : t.Encloses n m)
    (h' : t.Encloses m n) :
    n = m :=
  congrArg CompositionId.mk (Nat.le_antisymm (h.index_le ht) (h'.index_le ht))

/-- What encloses a node is the node or encloses its parent. -/
theorem encloses_iff : t.Encloses m n ↔
    m = n ∨ ∃ p, (t.get n).parent = some p ∧ t.Encloses m p := by
  unfold Encloses
  rw [Relation.ReflTransGen.cases_tail_iff]
  constructor
  · rintro (rfl | ⟨p, hmp, hp⟩)
    · exact Or.inl rfl
    · exact Or.inr ⟨p, hp, hmp⟩
  · rintro (rfl | ⟨p, hp, hmp⟩)
    · exact Or.inl rfl
    · exact Or.inr ⟨p, hmp, hp⟩

theorem mem_lineageFrom (ht : Formed s t) {fuel : Nat}
    (hn : n.index < t.nodes.length)
    (hfuel : n.index ≤ fuel) : m ∈ t.lineageFrom fuel n ↔ t.Encloses m n := by
  induction fuel generalizing n with
  | zero =>
      obtain rfl : n = Composition.root :=
        congrArg CompositionId.mk (Nat.le_zero.1 hfuel)
      rw [lineageFrom, encloses_iff, ht.root]
      simp
  | succ fuel ih =>
      rw [lineageFrom, encloses_iff]
      cases hp : (t.get n).parent with
      | none => simp
      | some p =>
          have hlt := ht.parent_lt hp
          dsimp only
          rw [List.mem_cons, ih (Nat.lt_trans hlt hn) (by omega)]
          simp

/-- The lineage of a node lists the nodes that enclose it. -/
theorem mem_lineage (ht : Formed s t) (hn : n.index < t.nodes.length) :
    m ∈ t.lineage n ↔ t.Encloses m n :=
  mem_lineageFrom ht hn (Nat.le_of_lt hn)

theorem pairwise_lineageFrom (ht : Formed s t) {fuel : Nat}
    (hn : n.index < t.nodes.length)
    (hfuel : n.index ≤ fuel) :
    (t.lineageFrom fuel n).Pairwise fun a b => t.Encloses b a := by
  induction fuel generalizing n with
  | zero => exact List.pairwise_singleton _ _
  | succ fuel ih =>
      rw [lineageFrom]
      cases hp : (t.get n).parent with
      | none => exact List.pairwise_singleton _ _
      | some p =>
          have hlt := ht.parent_lt hp
          have hpn := Nat.lt_trans hlt hn
          refine List.pairwise_cons.2 ⟨fun b hb => ?_, ih hpn (by omega)⟩
          exact ((mem_lineageFrom ht hpn (by omega)).1 hb).tail hp

/-- The lineage of a node goes from inside to outside. -/
theorem pairwise_lineage (ht : Formed s t) (hn : n.index < t.nodes.length) :
    (t.lineage n).Pairwise fun a b => t.Encloses b a :=
  pairwise_lineageFrom ht hn (Nat.le_of_lt hn)

/-- That a node is the lowest one around two others. -/
structure IsLowest (t : Composition) (e a b : CompositionId) : Prop where
  left : t.Encloses e a
  right : t.Encloses e b
  lowest : ∀ x, t.Encloses x a → t.Encloses x b → t.Encloses x e

theorem IsLowest.unique {e e' a b : CompositionId} (ht : Formed s t)
    (h : IsLowest t e a b) (h' : IsLowest t e' a b) : e = e' :=
  (h'.lowest e h.left h.right).antisymm ht (h.lowest e' h'.left h'.right)

theorem Descends.encloses (h : Descends t n fs m) : t.Encloses n m := by
  induction h with
  | here => exact .refl
  | down _ hparent _ ih => exact ih.tail hparent

theorem Pathed.path_of_descends (h : Pathed t) (hdown : Descends t n fs m) :
    (t.get m).path = (t.get n).path ++ fs := by
  induction hdown with
  | here => exact (List.append_nil _).symm
  | @down fs f p m _ hparent hf ih =>
      obtain ⟨g, hg, hpath⟩ := h.child m p hparent
      rw [hf] at hg
      obtain rfl := Option.some.inj hg
      rw [hpath, ih, List.append_assoc]

-- =================================================== the beginnings of a path

/-- How many fields two paths begin with alike. -/
def shared (as bs : List FieldRef) : Nat :=
  ((as.zip bs).takeWhile fun (a, b) => a == b).length

/-- What leads from one node to another is the target's path from there on
where it differs. -/
theorem accessPath_eq : t.accessPath n m
    = (t.get m).path.drop (shared (t.get n).path (t.get m).path) := rfl

theorem shared_le (as bs : List FieldRef) : shared as bs ≤ bs.length := by
  have hzip : (as.zip bs).length ≤ bs.length := by
    rw [List.length_zip]
    exact Nat.min_le_right _ _
  exact Nat.le_trans (List.takeWhile_sublist _).length_le hzip

theorem take_shared (as bs : List FieldRef) :
    bs.take (shared as bs) <+: as := by
  induction as generalizing bs with
  | nil => exact List.prefix_rfl
  | cons a as ih =>
      cases bs with
      | nil => exact List.nil_prefix
      | cons b bs =>
          unfold shared
          rw [List.zip_cons_cons, List.takeWhile_cons]
          by_cases hab : a = b
          · subst hab
            rw [if_pos (beq_self_eq_true a)]
            exact (List.prefix_cons_inj a).2 (ih bs)
          · rw [if_neg fun heq => hab (eq_of_beq heq)]
            exact List.nil_prefix

theorem le_shared {as bs : List FieldRef} (has : fs <+: as) (hbs : fs <+: bs) :
    fs.length ≤ shared as bs := by
  induction fs generalizing as bs with
  | nil => exact Nat.zero_le _
  | cons f fs ih =>
      obtain ⟨as, rfl⟩ := has
      obtain ⟨bs, rfl⟩ := hbs
      unfold shared
      rw [List.cons_append, List.cons_append, List.zip_cons_cons,
        List.takeWhile_cons, if_pos (beq_self_eq_true f)]
      exact Nat.succ_le_succ
        (ih (List.prefix_append _ _) (List.prefix_append _ _))

/-- Every beginning of a path is the path of a node around. -/
theorem Pathed.exists_encloses (h : Pathed t) (ht : Formed s t)
    (hn : n.index < t.nodes.length)
    (hbegins : fs <+: (t.get n).path) :
    ∃ e, t.Encloses e n ∧ (t.get e).path = fs := by
  induction hi : n.index using Nat.strongRecOn generalizing n with
  | ind i ih =>
      subst hi
      cases hp : (t.get n).parent with
      | none =>
          obtain rfl := ht.eq_root hn hp
          rw [h.root] at hbegins
          exact ⟨Composition.root, .refl,
            h.root.trans (List.prefix_nil.1 hbegins).symm⟩
      | some p =>
          obtain ⟨f, -, hpath⟩ := h.child n p hp
          rw [hpath, List.prefix_concat_iff] at hbegins
          rcases hbegins with heq | hbegins
          · exact ⟨n, .refl, hpath.trans heq.symm⟩
          · have hlt := ht.parent_lt hp
            obtain ⟨e, he, hfs⟩ :=
              ih p.index hlt (Nat.lt_trans hlt hn) hbegins rfl
            exact ⟨e, he.tail hp, hfs⟩

-- ============================================================ the lowest node

section

variable (h : Pathed t) (ht : Formed s t) (hb : Branches t)
variable (hn : n.index < t.nodes.length) (hm : m.index < t.nodes.length)

include h ht hb hn hm

/-- A node encloses another one exactly if its path begins the other's. -/
theorem Pathed.begins_iff :
    (t.get n).path <+: (t.get m).path ↔ t.Encloses n m := by
  constructor
  · exact h.encloses_of_path ht hb hn hm
  · intro hnm
    obtain ⟨fs, -, hpath⟩ := h.descends hnm
    exact hpath ▸ List.prefix_append _ _

/-- The nearest node around the source whose path begins the target's is
the lowest one around both. -/
theorem Pathed.isLowest : IsLowest t (t.nearestEnclosing n m) n m := by
  have hrange : ∀ {x}, t.Encloses x n → x.index < t.nodes.length :=
    fun hx => Nat.lt_of_le_of_lt (hx.index_le ht) hn
  unfold nearestEnclosing
  cases hfind : (t.lineage n).find? fun e => (t.get e).path.isPrefixOf
      (t.get m).path with
  | none =>
      -- the root is around every node, and its path begins every path
      have hroot := (lineageFrom_spec ht hn (Nat.le_of_lt hn)).1
      have hnot := List.find?_eq_none.1 hfind _ hroot
      rw [h.root] at hnot
      exact absurd rfl hnot
  | some e =>
      obtain ⟨hbegins, inner, outer, hsplit, hinner⟩ :=
        List.find?_eq_some_iff_append.1 hfind
      have hmem := fun x => mem_lineage (m := x) ht hn
      have he : t.Encloses e n := (hmem e).1 (hsplit ▸ by simp)
      have hpairwise := pairwise_lineage ht hn
      rw [hsplit] at hpairwise hmem
      rw [Option.getD_some]
      refine ⟨he, (h.begins_iff ht hb (hrange he) hm).1
        (List.isPrefixOf_iff_prefix.1 hbegins),
        fun x hxn hxm => ?_⟩
      rcases List.mem_append.1 ((hmem x).2 hxn) with hx | hx
      · have hnot := hinner x hx
        rw [List.isPrefixOf_iff_prefix.2
          ((h.begins_iff ht hb (hrange hxn) hm).2 hxm)] at hnot
        cases hnot
      · rcases List.mem_cons.1 hx with rfl | hx
        · exact .refl
        · exact (List.pairwise_cons.1 (List.pairwise_append.1 hpairwise).2.1).1
            x hx

/-- What two paths have in common is the path of the lowest node around
both. -/
theorem Pathed.shared_eq : shared (t.get n).path (t.get m).path
    = (t.get (t.nearestEnclosing n m)).path.length := by
  obtain ⟨hleft, hright, hlowest⟩ := h.isLowest ht hb hn hm
  have he : (t.nearestEnclosing n m).index < t.nodes.length :=
    Nat.lt_of_le_of_lt (hleft.index_le ht) hn
  refine Nat.le_antisymm ?_ (le_shared ((h.begins_iff ht hb he hn).2 hleft)
    ((h.begins_iff ht hb he hm).2 hright))
  -- the common part is the path of some node around both
  have hbegins := List.take_prefix (shared (t.get n).path (t.get m).path)
    (t.get m).path
  obtain ⟨x, hxm, hx⟩ := h.exists_encloses ht hm hbegins
  have hxlt : x.index < t.nodes.length :=
    Nat.lt_of_le_of_lt (hxm.index_le ht) hm
  have hxn : t.Encloses x n := by
    refine (h.begins_iff ht hb hxlt hn).1 ?_
    rw [hx]
    exact take_shared _ _
  have hle := ((h.begins_iff ht hb hxlt he).2 (hlowest x hxn hxm)).length_le
  rwa [hx, List.length_take, Nat.min_eq_left (shared_le _ _)] at hle

/-- What leads from one node to another are the parent accesses from the
lowest node around both down to the target. -/
theorem Pathed.accessPath_descends :
    Descends t (t.nearestEnclosing n m) (t.accessPath n m) m
      ∧ (t.get (t.nearestEnclosing n m)).path ++ t.accessPath n m
        = (t.get m).path := by
  obtain ⟨fs, hfs, hpath⟩ := h.descends (h.isLowest ht hb hn hm).right
  have heq : t.accessPath n m = fs := by
    rw [accessPath_eq, h.shared_eq ht hb hn hm, hpath, List.drop_left]
  rw [heq]
  exact ⟨hfs, hpath.symm⟩

/-- The way to a node passes through the nodes between: it goes there by way
of the same node. -/
theorem Pathed.accessPath_of_descends
    (hdown : Descends t (t.nearestEnclosing n m) fs p)
    (hpm : t.Encloses p m) :
    t.nearestEnclosing n p = t.nearestEnclosing n m
      ∧ t.accessPath n p = fs := by
  have hp : p.index < t.nodes.length := Nat.lt_of_le_of_lt (hpm.index_le ht) hm
  obtain ⟨hleft, -, hlowest⟩ := h.isLowest ht hb hn hm
  have hnearest : t.nearestEnclosing n p = t.nearestEnclosing n m :=
    (h.isLowest ht hb hn hp).unique ht
      ⟨hleft, hdown.encloses, fun x hxn hxp => hlowest x hxn (hxp.trans hpm)⟩
  have hpath := (h.accessPath_descends ht hb hn hp).2
  rw [hnearest, h.path_of_descends hdown] at hpath
  exact ⟨hnearest, List.append_cancel_left hpath⟩

/-- Nothing leads further down to a node around the source. -/
theorem Pathed.accessPath_of_encloses (hmn : t.Encloses m n) :
    t.accessPath n m = [] := by
  have hlowest := h.isLowest ht hb hn hm
  have heq := hlowest.right.antisymm ht (hlowest.lowest m hmn .refl)
  have hpath := (h.accessPath_descends ht hb hn hm).2
  rw [heq] at hpath
  exact List.append_right_eq_self.1 hpath

/-- An access is the enclosing object of the lowest node around both, then
what leads down to the target. -/
theorem Pathed.access_eq (names : Sources) : t.access names n m
    = (t.accessPath n m).foldl (fun e f => .field (some e) f)
        (.self (t.declNames names (t.nearestEnclosing n m)).head?) := by
  unfold access
  dsimp only
  rw [accessPath_eq, h.shared_eq ht hb hn hm]

end

-- ===================================================================== routes

/-- That a node is reached from another one by way of the lowest node around
both. -/
structure Route (t : Composition) (source target : CompositionId) : Prop where
  lowest : IsLowest t (t.nearestEnclosing source target) source target
  /-- The access path lists the parent accesses on the way down. -/
  descends : Descends t (t.nearestEnclosing source target)
    (t.accessPath source target) target
  path : (t.get (t.nearestEnclosing source target)).path
    ++ t.accessPath source target
    = (t.get target).path
  nil : t.Encloses target source → t.accessPath source target = []
  /-- The access path is cut out of the target's path. -/
  shared_le : shared (t.get source).path (t.get target).path
    ≤ (t.get target).path.length
  /-- So is what an access goes through. -/
  nearest_le : (t.get (t.nearestEnclosing source target)).path.length
    ≤ (t.get target).path.length
  access : ∀ names, t.access names source target
    = (t.accessPath source target).foldl (fun e f => .field (some e) f)
        (.self (t.declNames names (t.nearestEnclosing source target)).head?)

/-- That a tree has a path for each node, and a route between any two. -/
structure Routed (t : Composition) : Prop where
  pathed : Pathed t
  injective : ∀ n m : CompositionId, n.index < t.nodes.length →
    m.index < t.nodes.length →
    (t.get n).path = (t.get m).path → n = m
  route : ∀ n m : CompositionId, n.index < t.nodes.length →
    m.index < t.nodes.length →
    Route t n m

/-- Where no two children of a node have the same parent access, paths lead
everywhere. -/
theorem Pathed.routed (h : Pathed t) (ht : Formed s t) (hb : Branches t) :
    Routed t := by
  refine ⟨h, fun n m hn hm => h.path_injective ht hb hn hm,
    fun n m hn hm => ?_⟩
  obtain ⟨hdescends, hpath⟩ := h.accessPath_descends ht hb hn hm
  exact {
    lowest := h.isLowest ht hb hn hm
    descends := hdescends
    path := hpath
    nil := h.accessPath_of_encloses ht hb hn hm
    shared_le := shared_le _ _
    nearest_le := h.shared_eq ht hb hn hm ▸ shared_le _ _
    access := h.access_eq ht hb hn hm }

end Stagewise.Composition
