/-
In which order the fields of a type are emitted.

Fields are emitted in rising order of their layout keys, and equal keys in
the order of declaration (`emission`, `sublist_emission`).

# The keys of final fields

Final fields get their keys as they are put in order. The keys count up from
zero, and from zero again at every field that depends on nothing
(`countedKeys`). The order is one stretch of fields after the other, each
with its own count: a field that depends on nothing, and behind it what
depends on it but on none of those that the search started from before
(`DepthFirst.order_concat`). So a field stands in the stretch of the first
field without dependencies behind it (`FirstBehind`), and keys of one stretch
rise along the dependencies (`exists_keys_lt`).

Keys of two stretches have nothing to do with each other. A field can get a
smaller key than one in another stretch that it depends on, and is then
emitted before it (`orderFinals_emits_early`).
-/
import Stagewise.Proofs.Output.Circles

namespace Stagewise.Output

open Relation (TransGen ReflTransGen)
open TypeTable

variable {root d d' : TypeDecl} {path : TypePath} {key dep s : FinalField}
variable {f : Field}

-- =================================================================== emission

section Sorting

variable {α β : Type} {value : α → Int}

theorem map_insertBy (f : β → α) (b : β) (bs : List β) :
    (insertBy (value ∘ f) b bs).map f = insertBy value (f b) (bs.map f) := by
  induction bs with
  | nil => rfl
  | cons c bs ih =>
      rw [List.map_cons, insertBy, insertBy]
      simp only [Function.comp_apply]
      split
      · rfl
      · rw [List.map_cons, ih]

/-- What is attached to elements takes no part in the sorting. -/
theorem map_sortBy (f : β → α) (bs : List β) :
    (sortBy (value ∘ f) bs).map f = sortBy value (bs.map f) := by
  induction bs with
  | nil => rfl
  | cons b bs ih => rw [sortBy, map_insertBy, ih, List.map_cons, sortBy]

/-- Of two elements the one with the smaller key comes first. -/
theorem sublist_sortBy {a b : α} {as : List α} (ha : a ∈ as) (hb : b ∈ as)
    (h : value a < value b) : [a, b].Sublist (sortBy value as) := by
  obtain ⟨before, after, hsplit⟩ :=
    List.append_of_mem ((mem_sortBy value).2 ha)
  have hb : b ∈ before ++ a :: after := hsplit ▸ (mem_sortBy value).2 hb
  have hpairwise := pairwise_sortBy value as
  rw [hsplit, List.pairwise_append] at hpairwise
  rw [hsplit]
  refine List.Sublist.trans
    (List.Sublist.cons_cons a (List.singleton_sublist.2 ?_))
    (List.sublist_append_right before _)
  rcases List.mem_append.1 hb with hb | hb
  · have hle := hpairwise.2.2 b hb a List.mem_cons_self
    omega
  · rcases List.mem_cons.1 hb with rfl | hb
    · omega
    · exact hb

end Sorting

/-- The places of the fields of a type in the order of their emission. -/
def emission (d : TypeDecl) : List Nat :=
  (sortBy (Field.layout ∘ Prod.fst) d.fields.zipIdx).map Prod.snd

/-- In this order they stand in the type once its members are sorted. -/
theorem fields_sortMembers (d : TypeDecl) :
    d.sortMembers.fields.map some = (emission d).map (d.fields[·]?) := by
  rw [(own_sortMembers d).2.1]
  conv_lhs => rw [← List.zipIdx_map_fst 0 d.fields]
  rw [← map_sortBy Prod.fst, emission, List.map_map, List.map_map]
  refine List.map_congr_left fun p hp => ?_
  exact (List.mem_zipIdx_iff_getElem?.1 ((mem_sortBy _).1 hp)).symm

/-- Of two fields the one with the smaller key is emitted first. -/
theorem sublist_emission {i j : Nat} {f g : Field} (hf : d.fields[i]? = some f)
    (hg : d.fields[j]? = some g) (h : f.layout < g.layout) :
    [i, j].Sublist (emission d) := by
  have hpair :
      [(f, i), (g, j)].Sublist
      (sortBy (Field.layout ∘ Prod.fst) d.fields.zipIdx) :=
    sublist_sortBy (List.mem_zipIdx_iff_getElem?.2 hf)
      (List.mem_zipIdx_iff_getElem?.2 hg) h
  exact hpair.map Prod.snd

-- ======================================================================= keys

variable {xs ys zs : List (FinalField × Bool)} {x y : FinalField × Bool}
variable {next : Int}

/-- The layout keys of fields that are put in order: they count from zero at
every field that depends on nothing. -/
def countedKeys : Int → List (FinalField × Bool) → List (FinalField × Int)
  | _, [] => []
  | next, (key, isDependent) :: rest =>
      let place := if isDependent then next else 0
      (key, place) :: countedKeys (place + 1) rest

theorem map_fst_countedKeys (next : Int) (xs : List (FinalField × Bool)) :
    (countedKeys next xs).map Prod.fst = xs.map Prod.fst := by
  induction xs generalizing next with
  | nil => rfl
  | cons x xs ih => exact congrArg (x.1 :: ·) (ih _)

/-- Behind some fields the count goes on, from more than zero. -/
theorem countedKeys_append (hnext : 0 ≤ next)
    (xs ys : List (FinalField × Bool)) :
    ∃ next', countedKeys next (xs ++ ys)
      = countedKeys next xs ++ countedKeys next' ys
      ∧ 0 ≤ next' ∧ (0 < next ∨ xs ≠ [] → 0 < next') := by
  induction xs generalizing next with
  | nil => exact ⟨next, rfl, hnext, fun h => h.resolve_right fun h => h rfl⟩
  | cons x xs ih =>
      have hplace : 0 ≤ if x.2 then next else 0 := by
        split
        · exact hnext
        · exact Int.le_refl 0
      have hcount : 0 ≤ (if x.2 then next else 0) + 1 := by omega
      obtain ⟨next', happend, hle, hpos⟩ := ih hcount
      exact ⟨next', congrArg (_ :: ·) happend, hle,
        fun _ => hpos (Or.inl (by omega))⟩

/-- Behind fields that all depend on something, such a field gets no smaller
key than the first one. -/
theorem exists_countedKeys_ge (next : Int) (ys : List (FinalField × Bool))
    (hxs : ∀ x ∈ xs, x.2 = true) (hy : y.2 = true) :
    ∃ place, (y.1, place) ∈ countedKeys next (xs ++ y :: ys)
      ∧ next ≤ place := by
  induction xs generalizing next with
  | nil =>
      obtain ⟨key, isDependent⟩ := y
      obtain rfl : isDependent = true := hy
      exact ⟨next, List.mem_cons_self, Int.le_refl _⟩
  | cons x xs ih =>
      obtain ⟨key, isDependent⟩ := x
      obtain rfl : isDependent = true := hxs _ List.mem_cons_self
      obtain ⟨place, hmem, hle⟩ :=
        ih (next + 1) fun z hz => hxs z (List.mem_cons_of_mem _ hz)
      exact ⟨place, List.mem_cons_of_mem _ hmem, by omega⟩

/-- Along fields that depend on something the keys rise. -/
theorem exists_countedKeys_lt (hys : ∀ z ∈ ys, z.2 = true) (hy : y.2 = true) :
    ∃ p q, (x.1, p) ∈ countedKeys 0 (xs ++ x :: (ys ++ y :: zs))
      ∧ (y.1, q) ∈ countedKeys 0 (xs ++ x :: (ys ++ y :: zs)) ∧ p < q := by
  obtain ⟨next, happend, -⟩ :=
    countedKeys_append (Int.le_refl 0) xs (x :: (ys ++ y :: zs))
  obtain ⟨key, isDependent⟩ := x
  obtain ⟨q, hq, hle⟩ := exists_countedKeys_ge
    ((if isDependent then next else 0) + 1) zs hys hy
  refine ⟨if isDependent then next else 0, q, ?_, ?_, by omega⟩
  · rw [happend]
    exact List.mem_append_right _ List.mem_cons_self
  · rw [happend]
    exact List.mem_append_right _ (List.mem_cons_of_mem _ hq)

/-- From a field that depends on nothing they rise to all that depend on
something. -/
theorem exists_countedKeys_lt_of_free (hx : x.2 = false) (hy : y.2 = true) :
    ∃ p q, (x.1, p) ∈ countedKeys 0 (xs ++ x :: (ys ++ y :: zs))
      ∧ (y.1, q) ∈ countedKeys 0 (xs ++ x :: (ys ++ y :: zs)) ∧ p < q := by
  obtain ⟨key, isDependent⟩ := x
  obtain rfl : isDependent = false := hx
  obtain ⟨key', isDependent⟩ := y
  obtain rfl : isDependent = true := hy
  obtain ⟨next, happend, -⟩ :=
    countedKeys_append (Int.le_refl 0) xs
      ((key, false) :: (ys ++ (key', true) :: zs))
  obtain ⟨next', happend', -, hpos⟩ :=
    countedKeys_append (Int.le_refl 0) (xs ++ (key, false) :: ys)
      ((key', true) :: zs)
  rw [List.append_assoc, List.cons_append] at happend'
  refine ⟨0, next', ?_, ?_, hpos (Or.inr (by simp))⟩
  · rw [happend]
    exact List.mem_append_right _ List.mem_cons_self
  · rw [happend']
    exact List.mem_append_right _ List.mem_cons_self

/-- The turn of a field sets its key. -/
theorem layout_orderFinal (o : FinalOrdering) (key : FinalField)
    (isDependent : Bool) :
    (fieldAt? (orderFinal o (key, isDependent)).root key).map Field.layout
      = (fieldAt? o.root key).map fun _ => if isDependent then o.next
        else 0 := by
  have hturn :=
    Touches.turn key.index (if isDependent then o.next else 0) isDependent
  have hfield : fieldAt? (orderFinal o (key, isDependent)).root key = _ :=
    fieldAt?_modifyTypeAt (fun d => (hturn d).nested) key.path key
  refine (congrArg (Option.map Field.layout) hfield).trans ?_
  unfold fieldAt?
  rw [Option.map_bind, Option.map_bind]
  refine congrArg (Option.bind _) (funext fun d => ?_)
  have htouches : Touches key.index d (if isDependent then moveInit key.index d
      else d) := by
    split
    · exact Touches.moveInit ..
    · exact Touches.refl d
  have hsame := congrArg (·[key.index]?) htouches.modifiers
  simp only [List.getElem?_map] at hsame
  have hplace :=
    congrArg (Option.map fun _ => if isDependent then o.next else 0) hsame
  rw [Option.map_map, Option.map_map] at hplace
  rw [Function.comp_apply, Function.comp_apply, if_pos rfl]
  show Option.map Field.layout (List.modify _ key.index _)[key.index]? = _
  rw [List.getElem?_modify_eq, Option.map_eq_map, Option.map_map]
  exact hplace

/-- Fields get their keys one after the other. -/
theorem layout_foldl_orderFinal {o : FinalOrdering} {place : Int}
    (hnodup : (xs.map Prod.fst).Nodup)
    (h : (key, place) ∈ countedKeys o.next xs) :
    (fieldAt? (xs.foldl orderFinal o).root key).map Field.layout
      = (fieldAt? o.root key).map fun _ => place := by
  induction xs generalizing o with
  | nil => cases h
  | cons x xs ih =>
      obtain ⟨turned, isDependent⟩ := x
      obtain ⟨hturned, hnodup⟩ := List.nodup_cons.1 hnodup
      rw [List.foldl_cons]
      rcases List.mem_cons.1 h with he | h
      · obtain ⟨rfl, rfl⟩ := Prod.mk.inj he
        rw [fieldAt?_foldl_orderFinal hturned]
        exact layout_orderFinal o key isDependent
      · have hkey : key ∈ xs.map Prod.fst := by
          rw [← map_fst_countedKeys]
          exact List.mem_map_of_mem h
        have hother : key ≠ turned := fun he => hturned (he ▸ hkey)
        rw [ih hnodup h, fieldAt?_orderFinal hother]

/-- A final field that is found gets its key. -/
theorem layout_orderFinals {place : Int} (hf : FinalAt root key d f)
    (h : (key, place) ∈ countedKeys 0 (initOrder root)) :
    ∃ d' f', typeAt? key.path (orderFinals root).root = some d'
      ∧ d'.fields[key.index]? = some f' ∧ f'.layout = place := by
  have hlayout := layout_foldl_orderFinal (o := { root }) nodup_foundKeys h
  rw [hf.fieldAt?, Option.map_some] at hlayout
  obtain ⟨f', hf', hplace⟩ := Option.map_eq_some_iff.1 hlayout
  obtain ⟨d', hd', hfield⟩ := Option.bind_eq_some_iff.1 hf'
  exact ⟨d', f', hd', hfield, hplace⟩

-- ================================================================== stretches

/-- That the first of the fields without dependencies that a final field is or
depends on, in order of declaration, is the one behind some others. -/
structure FirstBehind (root : TypeDecl) (before : List FinalField)
    (s key : FinalField) :
    Prop where
  free : before ++ [s] <+: freeKeys root
  behind : ReflTransGen (Needs root) key s
  first : ∀ t ∈ before, ¬ ReflTransGen (Needs root) key t

theorem reflTransGen_supports_iff {a b : FinalField} :
    ReflTransGen (Supports root) a b ↔ ReflTransGen (Needs root) b a := by
  rw [Relation.reflTransGen_iff_eq_or_transGen,
    Relation.reflTransGen_iff_eq_or_transGen, transGen_supports_iff, eq_comm]

/-- What is found from some of the fields without dependencies. -/
def foundFrom (root : TypeDecl) (starts : List FinalField) : List FinalField :=
  DepthFirst.order (finalDependants (finalDependencies root))
    (finalKeys root).length starts

theorem mem_foundFrom {starts : List FinalField} (h : starts ⊆ freeKeys root) :
    key ∈ foundFrom root starts
      ↔ ∃ t ∈ starts, ReflTransGen (Needs root) key t := by
  unfold foundFrom
  rw [DepthFirst.mem_order finalDependants_subset
    (List.Subset.trans h freeKeys_subset)]
  exact exists_congr fun _ => and_congr_right fun _ =>
    reflTransGen_supports_iff

namespace FirstBehind

variable {before : List FinalField} {x y : FinalField}

theorem not_mem (h : FirstBehind root before s key) : s ∉ before :=
  fun hs => h.first s hs h.behind

theorem subset (h : FirstBehind root before s key) :
    before ++ [s] ⊆ freeKeys root := h.free.subset

theorem mem_freeKeys (h : FirstBehind root before s key) : s ∈ freeKeys root :=
  h.subset (List.mem_append_right _ (List.mem_singleton_self s))

/-- What has one first field stands together in the order. -/
theorem foundKeys_eq (h : FirstBehind root before s key) : ∃ later l,
    foundKeys root = later ++ foundFrom root (before ++ [s])
      ∧ foundFrom root (before ++ [s])
        = s :: (l ++ foundFrom root before) := by
  obtain ⟨after, hsplit⟩ := h.free
  have hall : before ++ [s] ++ after ⊆ finalKeys root :=
    hsplit ▸ freeKeys_subset
  obtain ⟨later, hlater⟩ := DepthFirst.order_suffix finalDependants_subset hall
  obtain ⟨l, hl⟩ : ∃ l, foundFrom root (before ++ [s])
      = s :: (l ++ foundFrom root before) := by
    refine DepthFirst.order_concat finalDependants_subset
      (List.Subset.trans h.subset freeKeys_subset) fun t ht hleads => ?_
    rcases Relation.ReflTransGen.cases_head
        (reflTransGen_supports_iff.1 hleads) with
      rfl | ⟨dep, hneeds, -⟩
    · exact h.not_mem ht
    · exact (Output.mem_freeKeys.1 h.mem_freeKeys).2 dep hneeds
  refine ⟨later, l, ?_, hl⟩
  rw [Output.foundKeys_eq, ← hsplit]
  exact hlater.symm

theorem mem_foundFrom (h : FirstBehind root before s key) :
    key ∈ foundFrom root (before ++ [s]) :=
  (Output.mem_foundFrom h.subset).2
    ⟨s, List.mem_append_right _ (List.mem_singleton_self s), h.behind⟩

theorem not_mem_foundFrom (h : FirstBehind root before s key) :
    key ∉ foundFrom root before := by
  intro hkey
  obtain ⟨t, ht, hneeds⟩ :=
    (Output.mem_foundFrom fun _ ht => h.subset (List.mem_append_left _ ht)).1
      hkey
  exact h.first t ht hneeds

/-- All but the first depend on something. -/
theorem exists_needs (h : FirstBehind root before s x) {l : List FinalField}
    (hl : foundFrom root (before ++ [s]) = s :: (l ++ foundFrom root before))
    (hkey : key ∈ l) :
    ∃ dep, Needs root key dep := by
  have hnodup : (foundFrom root (before ++ [s])).Nodup :=
    DepthFirst.nodup_order finalDependants_subset
      (List.Subset.trans h.subset freeKeys_subset)
  rw [hl, List.nodup_cons, List.nodup_append] at hnodup
  obtain ⟨hs, -, -, hapart⟩ := hnodup
  obtain ⟨t, ht, hneeds⟩ := (Output.mem_foundFrom h.subset).1
    (hl ▸ List.mem_cons_of_mem _ (List.mem_append_left _ hkey))
  rcases Relation.ReflTransGen.cases_head hneeds with rfl | ⟨dep, hneeds, -⟩
  · rcases List.mem_append.1 ht with ht | ht
    · have hbefore :=
        (Output.mem_foundFrom fun _ ht => h.subset
          (List.mem_append_left _ ht)).2
        ⟨key, ht, .refl⟩
      exact absurd rfl (hapart key hkey key hbefore)
    · obtain rfl := List.mem_singleton.1 ht
      exact absurd (List.mem_append_left _ hkey) hs
  · exact ⟨dep, hneeds⟩

end FirstBehind

open Classical in
/-- What is found, with whether it depends on anything. -/
theorem initOrder_eq : initOrder root
    = (foundKeys root).map fun key =>
      (key, decide (∃ dep, Needs root key dep)) := by
  unfold foundKeys
  rw [List.map_map]
  refine (List.map_id _).symm.trans (List.map_congr_left fun x hx => ?_)
  obtain ⟨key, isDependent⟩ := x
  refine Prod.ext rfl (Bool.eq_iff_iff.2 ?_)
  rw [Function.comp_apply, decide_eq_true_iff]
  exact (mem_initOrder hx).2

section Acyclic

variable {before : List FinalField} {x y : FinalField}
variable (hacyclic : ∀ key, ¬ TransGen (Needs root) key key)

include hacyclic

/-- What stands before a field that is found does not depend on it. -/
theorem ordered_foundFrom {starts earlier later : List FinalField}
    (hstarts : starts ⊆ freeKeys root)
    (hfound : foundFrom root starts = earlier ++ x :: later)
    (hneeds : TransGen (Needs root) y x)
    (hy : y ∈ foundFrom root starts) : y ∈ later := by
  have hordered : DepthFirst.Ordered (finalDependants (finalDependencies root))
      (foundFrom root starts) :=
    DepthFirst.ordered_order finalDependants_subset
      (not_transGen_supports_self hacyclic)
      (List.Subset.trans hstarts freeKeys_subset)
  have hpairwise := hordered.pairwise (finalKeys root)
  rw [hfound, List.pairwise_append] at hpairwise
  rw [hfound] at hy
  have hleads := transGen_supports_iff.2 hneeds
  rcases List.mem_append.1 hy with hy | hy
  · exact absurd hleads (hpairwise.2.2 y hy x List.mem_cons_self)
  · rcases List.mem_cons.1 hy with rfl | hy
    · exact absurd hneeds (hacyclic y)
    · exact hy

/-- Where one field depends on another one of the same first field, the order
has nothing but dependent fields between them. -/
theorem foundKeys_between (hneeds : TransGen (Needs root) y x)
    (hx : FirstBehind root before s x) (hy : FirstBehind root before s y) :
    ∃ earlier between later,
      foundKeys root = earlier ++ x :: (between ++ y :: later)
      ∧ ∀ key ∈ between ++ [y], ∃ dep, Needs root key dep := by
  obtain ⟨others, l, hfound, hstretch⟩ := hx.foundKeys_eq
  have hxl : x ∈ s :: l := by
    have hmem := hx.mem_foundFrom
    rw [hstretch, ← List.cons_append] at hmem
    exact (List.mem_append.1 hmem).resolve_right hx.not_mem_foundFrom
  obtain ⟨earlier, rest, hsplit⟩ := List.append_of_mem hxl
  have hrest : rest ⊆ l := by
    intro key hkey
    cases earlier with
    | nil => rwa [(List.cons.inj hsplit).2]
    | cons t earlier =>
        rw [(List.cons.inj hsplit).2]
        exact List.mem_append_right _ (List.mem_cons_of_mem _ hkey)
  have hlist : foundFrom root (before ++ [s])
      = earlier ++ x :: (rest ++ foundFrom root before) := by
    rw [hstretch, ← List.cons_append, hsplit, List.append_assoc,
      List.cons_append]
  have hlater :=
    ordered_foundFrom hacyclic hx.subset hlist hneeds hy.mem_foundFrom
  obtain ⟨between, after, rfl⟩ :=
    List.append_of_mem
      ((List.mem_append.1 hlater).resolve_right hy.not_mem_foundFrom)
  refine ⟨others ++ earlier, between, after ++ foundFrom root before, ?_,
    fun key hkey => ?_⟩
  · rw [hfound, hlist]
    simp only [List.append_assoc, List.cons_append]
  · refine hx.exists_needs hstretch (hrest ?_)
    rcases List.mem_append.1 hkey with hkey | hkey
    · exact List.mem_append_left _ hkey
    · exact List.mem_append_right _
        (List.mem_singleton.1 hkey ▸ List.mem_cons_self)

/-- A field that is depended on comes before, whatever stands between. -/
theorem foundKeys_split (hneeds : TransGen (Needs root) y x) :
    ∃ earlier between later,
      foundKeys root = earlier ++ x :: (between ++ y :: later) := by
  obtain ⟨_, hfirst, -⟩ := TransGen.head'_iff.1 hneeds
  obtain ⟨_, -, hlast⟩ := TransGen.tail'_iff.1 hneeds
  obtain ⟨earlier, later, hsplit⟩ :=
    List.append_of_mem ((mem_foundKeys hacyclic).2 hlast.dep_mem)
  have hfrom : foundFrom root (freeKeys root) = foundKeys root :=
    foundKeys_eq.symm
  have hlater :=
    ordered_foundFrom hacyclic (List.Subset.refl _) (hfrom.trans hsplit) hneeds
    (hfrom ▸ (mem_foundKeys hacyclic).2 hfirst.mem)
  obtain ⟨between, after, rfl⟩ := List.append_of_mem hlater
  exact ⟨earlier, between, after, hsplit⟩

/-- Keys rise along the dependencies from a field that depends on nothing, and
among those of one first field. -/
theorem exists_keys_lt (hneeds : TransGen (Needs root) y x)
    (hx : (∀ dep, ¬ Needs root x dep)
      ∨ ∃ before s, FirstBehind root before s x
      ∧ FirstBehind root before s y) :
    ∃ p q, (x, p) ∈ countedKeys 0 (initOrder root)
      ∧ (y, q) ∈ countedKeys 0 (initOrder root)
      ∧ p < q := by
  classical
  obtain ⟨dep, hdep, -⟩ := TransGen.head'_iff.1 hneeds
  have hdependent : decide (∃ dep, Needs root y dep) = true :=
    decide_eq_true ⟨dep, hdep⟩
  rw [initOrder_eq]
  rcases hx with hfree | ⟨before, s, hx, hy⟩
  · obtain ⟨earlier, between, later, hsplit⟩ := foundKeys_split hacyclic hneeds
    rw [hsplit]
    simp only [List.map_append, List.map_cons]
    refine exists_countedKeys_lt_of_free ?_ hdependent
    exact decide_eq_false fun ⟨dep, hneeds⟩ => hfree dep hneeds
  · obtain ⟨earlier, between, later, hsplit, hbetween⟩ :=
      foundKeys_between hacyclic hneeds hx hy
    rw [hsplit]
    simp only [List.map_append, List.map_cons]
    refine exists_countedKeys_lt (fun z hz => ?_) hdependent
    obtain ⟨key, hkey, rfl⟩ := List.mem_map.1 hz
    exact decide_eq_true (hbetween key (List.mem_append_left _ hkey))

end Acyclic

/-- If no final field depends on itself, the fields of a type are emitted in
rising order of their keys, and so a final field, static or not, after every
other one of its type that it depends on, directly or through others, and that
depends on nothing or has the same first field without dependencies behind
it. -/
theorem orderFinals_emits (hacyclic : ∀ key, ¬ TransGen (Needs root) key key)
    {i j : Nat} (hneeds : TransGen (Needs root) ⟨path, j⟩ ⟨path, i⟩)
    (hfirst : (∀ dep, ¬ Needs root ⟨path, i⟩ dep) ∨ ∃ before s,
      FirstBehind root before s ⟨path, i⟩
        ∧ FirstBehind root before s ⟨path, j⟩) :
    ∃ d, typeAt? path (orderFinals root).root = some d
      ∧ typeAt? path (orderFinals root).root.sortMembers = some d.sortMembers
      ∧ d.sortMembers.fields.map some = (emission d).map (d.fields[·]?)
      ∧ [i, j].Sublist (emission d) := by
  obtain ⟨p, q, hp, hq, hlt⟩ := exists_keys_lt hacyclic hneeds hfirst
  obtain ⟨_, hhead, -⟩ := TransGen.head'_iff.1 hneeds
  obtain ⟨_, -, hlast⟩ := TransGen.tail'_iff.1 hneeds
  obtain ⟨_, _, hi⟩ := mem_finalKeys.1 hlast.dep_mem
  obtain ⟨_, _, hj⟩ := mem_finalKeys.1 hhead.mem
  obtain ⟨d, f, hd, hf, rfl⟩ := layout_orderFinals hi hp
  obtain ⟨d', g, hd', hg, rfl⟩ := layout_orderFinals hj hq
  obtain rfl := Option.some.inj (hd.symm.trans hd')
  refine ⟨d, hd, ?_, fields_sortMembers d, sublist_emission hf hg hlt⟩
  rw [typeAt?_map nested_sortMembers, hd, Option.map_some]

/-- What a set of final fields leads to, if it holds all that they depend
on. -/
theorem mem_of_reflTransGen {keys : List FinalField}
    (hkeys : ∀ x ∈ finalDependencies root, x.key ∈ keys →
      ∀ dep ∈ x.dependencies, dep ∈ keys)
    (hkey : key ∈ keys) (hneeds : ReflTransGen (Needs root) key dep) :
    dep ∈ keys := by
  induction hneeds with
  | refl => exact hkey
  | tail _ hstep ih =>
      obtain ⟨x, hx, rfl, hdep⟩ := needs_iff.1 hstep
      exact hkeys x hx ih _ hdep

/-- Two fields without dependencies, a chain of two behind the second one, and
a field that depends on the first one and on the end of the chain. All are
static. -/
def branchedType : TypeDecl :=
  let read (name : String) : Expr := .field none ⟨"Merged", name⟩
  let shared (name : String) (init : Expr) : Field :=
    { finalInt name init with
      modifiers := { isStatic := true, isFinal := true } }
  { name := "Merged"
    fields := [shared "first" (.literal (.int 1)),
      shared "sum" (.binary .add (read "first") (read "third")),
      shared "start" (.literal (.int 2)), shared "second" (read "start"),
      shared "third" (read "second")] }

theorem acyclic_branchedType (key : FinalField) :
    ¬ TransGen (Needs branchedType) key key :=
  acyclic_of_rank (fun key => [0, 3, 0, 1, 2].getD key.index 0)
    (by decide +kernel) key

/-- The chain is emitted in order. -/
theorem orderFinals_emits_chain :
    (∀ key, ¬ TransGen (Needs branchedType) key key)
    ∧ Needs branchedType ⟨[], 4⟩ ⟨[], 3⟩
    ∧ FirstBehind branchedType [⟨[], 0⟩] ⟨[], 2⟩ ⟨[], 3⟩
    ∧ FirstBehind branchedType [⟨[], 0⟩] ⟨[], 2⟩ ⟨[], 4⟩
    ∧ [3, 4].Sublist (emission (orderFinals branchedType).root) := by
  have hstart : Needs branchedType ⟨[], 3⟩ ⟨[], 2⟩ :=
    needs_iff.2 (by decide +kernel)
  have hsecond : Needs branchedType ⟨[], 4⟩ ⟨[], 3⟩ :=
    needs_iff.2 (by decide +kernel)
  have hfree : [⟨[], 0⟩] ++ [⟨[], 2⟩] <+: freeKeys branchedType :=
    ⟨[], by decide +kernel⟩
  have hapart : ∀ key ∈ [⟨[], 2⟩, ⟨[], 3⟩, (⟨[], 4⟩ : FinalField)],
      ∀ t ∈ [⟨[], 0⟩], ¬ ReflTransGen (Needs branchedType) key t := by
    intro key hkey t ht hneeds
    have hmem := mem_of_reflTransGen (by decide +kernel) hkey hneeds
    rw [List.mem_singleton.1 ht] at hmem
    exact absurd hmem (by decide)
  have hthird : FirstBehind branchedType [⟨[], 0⟩] ⟨[], 2⟩ ⟨[], 3⟩ :=
    ⟨hfree, .single hstart, hapart _ (by decide)⟩
  have hfourth : FirstBehind branchedType [⟨[], 0⟩] ⟨[], 2⟩ ⟨[], 4⟩ :=
    ⟨hfree, .head hsecond (.single hstart), hapart _ (by decide)⟩
  obtain ⟨d, hd, -, -, hemitted⟩ := orderFinals_emits acyclic_branchedType
    (TransGen.single hsecond) (Or.inr ⟨_, _, hthird, hfourth⟩)
  obtain rfl := Option.some.inj hd
  exact ⟨acyclic_branchedType, hsecond, hthird, hfourth, hemitted⟩

/-- A static final field can be emitted before one of its type that its initial
value reads. -/
theorem orderFinals_emits_early :
    ∃ root d i j f g, (∀ key, ¬ TransGen (Needs root) key key)
    ∧ FinalAt root ⟨[], i⟩ d f ∧ FinalAt root ⟨[], j⟩ d g
    ∧ f.modifiers.isStatic = true ∧ g.modifiers.isStatic = true
    ∧ Needs root ⟨[], j⟩ ⟨[], i⟩
    ∧ [j, i].Sublist (emission (orderFinals root).root)
    ∧ ¬ [i, j].Sublist (emission (orderFinals root).root) :=
  ⟨branchedType, branchedType, 4, 1, _, _, acyclic_branchedType,
    ⟨rfl, rfl, rfl⟩, ⟨rfl, rfl, rfl⟩,
    rfl, rfl, needs_iff.2 (by decide +kernel), by decide +kernel, by
  decide +kernel⟩

end Stagewise.Output
