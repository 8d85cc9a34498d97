/-
Which final fields on circles are left alone.

The search for an order starts from the fields that depend on nothing, and
goes on to whatever depends on what it has met. So it finds a field that
depends on others just if one of those it depends on, directly or through
others, depends on nothing (`Founded`, `mem_foundKeys_iff`). What it does
not find no turn touches (`fieldAt?_orderFinals`).

This is not a matter of circles. A circle that nothing else stands behind is
left alone. One that depends on a field outside, which depends on nothing, is
found, and its fields are moved into the constructors in some order, where
the first is assigned before one that it depends on
(`orderFinals_moves_circle`).
-/
import Stagewise.Proofs.Output.Staying

namespace Stagewise.Output

open Relation (TransGen ReflTransGen)
open TypeTable

variable {root d d' : TypeDecl} {path : TypePath}
variable {key dep : FinalField} {f : Field}

-- ============================================================== what is found

/-- That a final field depends on one that depends on nothing, directly or
through others. -/
def Founded (root : TypeDecl) (key : FinalField) : Prop :=
  ∃ dep, TransGen (Needs root) key dep ∧ ∀ next, ¬ Needs root dep next

/-- From the final fields that depend on nothing the search comes to those
that are founded. -/
theorem mem_foundKeys_iff :
    key ∈ foundKeys root ↔ key ∈ freeKeys root ∨ Founded root key := by
  rw [foundKeys_eq, DepthFirst.mem_order finalDependants_subset
    freeKeys_subset]
  constructor
  · intro ⟨dep, hfree, hleads⟩
    rcases Relation.reflTransGen_iff_eq_or_transGen.1 hleads with rfl | hleads
    · exact Or.inl hfree
    · exact Or.inr ⟨dep, transGen_supports_iff.1 hleads,
        (mem_freeKeys.1 hfree).2⟩
  · intro h
    rcases h with hfree | ⟨dep, hneeds, hnothing⟩
    · exact ⟨key, hfree, .refl⟩
    · obtain ⟨before, -, hlast⟩ := TransGen.tail'_iff.1 hneeds
      exact ⟨dep, mem_freeKeys.2 ⟨hlast.dep_mem, hnothing⟩,
        (transGen_supports_iff.2 hneeds).to_reflTransGen⟩

theorem nodup_foundKeys : (foundKeys root).Nodup := by
  rw [foundKeys_eq]
  exact DepthFirst.nodup_order finalDependants_subset freeKeys_subset

/-- A field that depends on others is found if it is founded. -/
theorem mem_foundKeys_of_needs (h : Needs root key dep) :
    key ∈ foundKeys root ↔ Founded root key := by
  rw [mem_foundKeys_iff]
  exact or_iff_right fun hfree => (mem_freeKeys.1 hfree).2 dep h

/-- What depends on something has an initial value. -/
theorem Needs.init_ne_none (h : Needs root key dep)
    (hf : FinalAt root key d f) :
    f.init ≠ none := by
  obtain ⟨-, d', f', init, e, hf', hvalue, -⟩ := h
  obtain ⟨-, rfl⟩ := hf.unique hf'
  rw [hvalue]
  exact Option.some_ne_none init

-- ============================================================== single fields

/-- The field at a place of a tree. -/
def fieldAt? (root : TypeDecl) (key : FinalField) : Option Field :=
  (typeAt? key.path root).bind fun d => d.fields[key.index]?

theorem FinalAt.fieldAt? (h : FinalAt root key d f) :
    fieldAt? root key = some f := by
  unfold Output.fieldAt?
  rw [h.type, Option.bind_some, h.field]

/-- Of a change of one type that does not touch nested types, a place sees what
becomes of the fields of its type. -/
theorem fieldAt?_modifyTypeAt {change : TypeDecl → TypeDecl}
    (hnested : ∀ d, (change d).nested = d.nested) (path : TypePath)
    (key : FinalField) :
    fieldAt? (modifyTypeAt change path root) key
      = (typeAt? key.path root).bind fun d =>
      (if key.path = path then change d else d).fields[key.index]? := by
  have hmap :=
    map_typeAt?_modifyTypeAt (g := fun d : TypeDecl => d.fields[key.index]?)
    (fun _ _ => rfl) hnested path key.path root
  have hbind := congrArg (Option.bind · id) hmap
  simp only [Option.bind_map] at hbind
  exact hbind

/-- A turn touches its own field only. -/
theorem fieldAt?_orderFinal {o : FinalOrdering} {x : FinalField × Bool}
    (h : key ≠ x.1) :
    fieldAt? (orderFinal o x).root key = fieldAt? o.root key := by
  obtain ⟨turned, isDependent⟩ := x
  refine (fieldAt?_modifyTypeAt
    (fun d => (Touches.turn _ _ isDependent d).nested) _ _).trans ?_
  refine congrArg (Option.bind _) (funext fun d => ?_)
  split
  · rename_i hpath
    refine (Touches.turn turned.index _ isDependent d).others key.index
      fun hindex => h ?_
    cases key
    cases turned
    exact congrArg₂ FinalField.mk hpath hindex
  · rfl

/-- Nor do turns of other fields. -/
theorem fieldAt?_foldl_orderFinal {xs : List (FinalField × Bool)}
    {o : FinalOrdering} (h : key ∉ xs.map Prod.fst) :
    fieldAt? (xs.foldl orderFinal o).root key = fieldAt? o.root key := by
  refine List.foldlRecOn
    (motive := fun o' : FinalOrdering => fieldAt? o'.root key = fieldAt? o.root
      key) _ _ rfl ?_
  intro o' ho x hx
  have hother : key ≠ x.1 := fun hkey => h (hkey ▸ List.mem_map_of_mem hx)
  exact (fieldAt?_orderFinal hother).trans ho

/-- What the search does not find is not touched. -/
theorem fieldAt?_orderFinals (h : key ∉ foundKeys root) :
    fieldAt? (orderFinals root).root key = fieldAt? root key :=
  fieldAt?_foldl_orderFinal h

-- ==================================================================== circles

/-- That the constructors of the type at a path assign the initial values of
the fields at some places in the end, in this order, behind what they do
already. -/
def Gains (root root' : TypeDecl) (path : TypePath) (places : List Nat) :
    Prop :=
  Option.Rel (fun d d' => ∃ ss, ss.map some = places.map (assignment? d)
    ∧ d'.constructors = appended ss d.constructors) (typeAt? path root)
    (typeAt? path root')

/-- The places of a type whose fields move. -/
def movedPlaces (root : TypeDecl) (path : TypePath) : List Nat :=
  ((movedAmong root (initOrder root)).filter (·.path == path)).map
    FinalField.index

theorem mem_movedPlaces {i : Nat} : i ∈ movedPlaces root path
    ↔ ⟨path, i⟩ ∈ foundKeys root ∧ Moves root (Needs root) ⟨path, i⟩ := by
  rw [← mem_movedAmong, movedPlaces, List.mem_map]
  constructor
  · intro ⟨⟨path', i'⟩, hmem, hi⟩
    obtain ⟨hmem, hpath⟩ := List.mem_filter.1 hmem
    rw [← beq_iff_eq.1 hpath, ← hi]
    exact hmem
  · intro hmem
    exact ⟨_, List.mem_filter.2 ⟨hmem, beq_self_eq_true path⟩, rfl⟩

theorem nodup_movedPlaces : (movedPlaces root path).Nodup := by
  refine (List.nodup_map_iff_inj_on
    ((nodup_foundKeys.sublist movedAmong_sublist).filter _)).2 ?_
  intro ⟨path₁, i₁⟩ h₁ ⟨path₂, i₂⟩ h₂ hi
  have hpath₁ := beq_iff_eq.1 (List.mem_filter.1 h₁).2
  have hpath₂ := beq_iff_eq.1 (List.mem_filter.1 h₂).2
  exact congrArg₂ FinalField.mk (hpath₁.trans hpath₂.symm) hi

theorem gains_movedPlaces :
    Gains root (orderFinals root).root path (movedPlaces root path) := by
  refine rel_of_map_eq (g := id) (k := id)
    ((orderFinals_underway nodup_foundKeys).types path) rfl
    fun d d' t _ hd' ht => ?_
  obtain rfl : t = d' := ht
  obtain ⟨ss, hss, hconstructors⟩ := hd'.constructors
  refine ⟨ss, hss.trans ?_, hconstructors⟩
  rw [movedPlaces, List.map_map]
  rfl

/-- What is found and does not move keeps its initial value, and what moves
loses it. -/
theorem init_orderFinals (hf : FinalAt root key d f) :
    (fieldAt? (orderFinals root).root key).map Field.init
      = some (if key.index ∈ movedPlaces root key.path then none
        else f.init) := by
  obtain ⟨d', hd', hinitialized⟩ : ∃ d',
      typeAt? key.path (orderFinals root).root = some d'
      ∧ Initialized (movedAmong root (initOrder root)) key.path d d' := by
    have hnodup : (foundKeys root).Nodup := nodup_foundKeys
    have htypes := (orderFinals_underway hnodup).types key.path
    rw [hf.type] at htypes
    cases h : typeAt? key.path (orderFinals root).root with
    | none =>
        rw [h] at htypes
        cases htypes
    | some d' =>
        rw [h] at htypes
        cases htypes with
        | some hd' => exact ⟨d', rfl, hd'⟩
  have hfield :=
    congrArg (Option.map Field.init) (hinitialized.fields key.index)
  rw [hf.field, Option.map_map, Option.map_some, Option.map_some] at hfield
  unfold fieldAt?
  rw [hd', Option.bind_some]
  refine hfield.trans (congrArg some ?_)
  have hmoved : (⟨key.path, key.index⟩ : FinalField) ∈ movedAmong root
      (initOrder root)
      ↔ key.index ∈ movedPlaces root key.path := by
    rw [mem_movedAmong, mem_movedPlaces]
  simp only [hmoved]
  split <;> rfl

/-- What becomes of the final fields on circles. One that is not founded is
left alone: it stays what it is, and no constructor assigns it. One that is
founded is left alone only if it is static, and then but for its layout key.
Otherwise it loses its initial value, and the constructors of its type assign
it, each once. -/
theorem orderFinals_circles (root : TypeDecl) : ∃ places : TypePath → List Nat,
    (∀ path, (places path).Nodup ∧ Gains root (orderFinals root).root path
      (places path))
      ∧ ∀ key d f, FinalAt root key d f → TransGen (Needs root) key key →
        (¬ Founded root key → fieldAt? (orderFinals root).root key = some f
          ∧ key.index ∉ places key.path)
        ∧ (Founded root key → f.modifiers.isStatic = true →
          (fieldAt? (orderFinals root).root key).map Field.init = some f.init
            ∧ key.index ∉ places key.path)
        ∧ (Founded root key → f.modifiers.isStatic = false →
          (fieldAt? (orderFinals root).root key).map Field.init = some none
            ∧ key.index ∈ places key.path) := by
  refine ⟨movedPlaces root, fun _ => ⟨nodup_movedPlaces, gains_movedPlaces⟩,
    fun key d f hf hcircle => ?_⟩
  obtain ⟨dep, hneeds, -⟩ := TransGen.head'_iff.1 hcircle
  have hfound := mem_foundKeys_of_needs hneeds
  have hinit := init_orderFinals hf
  refine ⟨fun hnot => ?_, fun _ hstatic => ?_, fun hfounded hstatic => ?_⟩
  · have hnot : key ∉ foundKeys root := fun h => hnot (hfound.1 h)
    exact ⟨(fieldAt?_orderFinals hnot).trans hf.fieldAt?,
      fun hplace => hnot (mem_movedPlaces.1 hplace).1⟩
  · have hplace : key.index ∉ movedPlaces root key.path := by
      intro hplace
      obtain ⟨-, d', f', hf', hstatic', -⟩ := mem_movedPlaces.1 hplace
      obtain ⟨-, rfl⟩ := hf.unique hf'
      rw [hstatic] at hstatic'
      cases hstatic'
    rw [if_neg hplace] at hinit
    exact ⟨hinit, hplace⟩
  · have hplace : key.index ∈ movedPlaces root key.path :=
      mem_movedPlaces.2 ⟨hfound.2 hfounded, d, f, hf, hstatic,
        hneeds.init_ne_none hf, dep, hneeds⟩
    rw [if_pos hplace] at hinit
    exact ⟨hinit, hplace⟩

/-- Two final fields that read each other, the first also one that reads
nothing, and two more that read only each other. -/
def circledType : TypeDecl :=
  let read (name : String) : Expr := .field none ⟨"Merged", name⟩
  { name := "Merged"
    fields := [finalInt "base" (.literal (.int 4)),
      finalInt "left" (.binary .add (read "right") (read "base")),
      finalInt "right" (read "left"),
      finalInt "ping" (read "pong"), finalInt "pong" (read "ping")] }

theorem needs_circledType : TransGen (Needs circledType) ⟨[], 1⟩ ⟨[], 1⟩
    ∧ TransGen (Needs circledType) ⟨[], 3⟩ ⟨[], 3⟩
    ∧ Founded circledType ⟨[], 1⟩ ∧ ¬ Founded circledType ⟨[], 3⟩ := by
  have hleft : Needs circledType ⟨[], 1⟩ ⟨[], 2⟩ :=
    needs_iff.2 (by decide +kernel)
  have hright : Needs circledType ⟨[], 2⟩ ⟨[], 1⟩ :=
    needs_iff.2 (by decide +kernel)
  have hping : Needs circledType ⟨[], 3⟩ ⟨[], 4⟩ :=
    needs_iff.2 (by decide +kernel)
  have hpong : Needs circledType ⟨[], 4⟩ ⟨[], 3⟩ :=
    needs_iff.2 (by decide +kernel)
  have hbase : ⟨[], 0⟩ ∈ freeKeys circledType := by decide +kernel
  have hbelow : Needs circledType ⟨[], 1⟩ ⟨[], 0⟩ :=
    needs_iff.2 (by decide +kernel)
  refine ⟨.tail (.single hleft) hright, .tail (.single hping) hpong,
    ⟨⟨[], 0⟩, .single hbelow, (mem_freeKeys.1 hbase).2⟩, fun hfounded => ?_⟩
  exact absurd ((mem_foundKeys_of_needs hping).2 hfounded) (by decide +kernel)

/-- The first two are moved, and the other two left alone. -/
theorem orderFinals_circles_pairs :
    (TransGen (Needs circledType) ⟨[], 1⟩ ⟨[], 1⟩
      ∧ Founded circledType ⟨[], 1⟩)
      ∧ (TransGen (Needs circledType) ⟨[], 3⟩ ⟨[], 3⟩
        ∧ ¬ Founded circledType ⟨[], 3⟩)
      ∧ ∃ places : TypePath → List Nat,
        Gains circledType (orderFinals circledType).root [] (places [])
          ∧ 1 ∈ places []
          ∧ 3 ∉ places []
          ∧ fieldAt? (orderFinals circledType).root ⟨[], 3⟩
            = fieldAt? circledType ⟨[], 3⟩ := by
  obtain ⟨hleft, hping, hfounded, hnot⟩ := needs_circledType
  obtain ⟨places, hgains, hcircles⟩ := orderFinals_circles circledType
  obtain ⟨-, -, hmoves⟩ := hcircles ⟨[], 1⟩ _ _ ⟨rfl, rfl, rfl⟩ hleft
  obtain ⟨hstays, -, -⟩ := hcircles ⟨[], 3⟩ _ _ ⟨rfl, rfl, rfl⟩ hping
  exact ⟨⟨hleft, hfounded⟩, ⟨hping, hnot⟩, places, (hgains []).2,
    (hmoves hfounded rfl).2, (hstays hnot).2, (hstays hnot).1⟩

/-- A final field on a circle can lose its initial value. -/
theorem orderFinals_moves_circle : ∃ root key d f, FinalAt root key d f
    ∧ TransGen (Needs root) key key
    ∧ LosesInit root (orderFinals root).root key :=
  ⟨circledType, ⟨[], 1⟩, _, _, ⟨rfl, rfl, rfl⟩,
    needs_circledType.1, by decide +kernel⟩

end Stagewise.Output
