/-
Which members a declaration has.

The inventory of a declaration is what is left of it when of its members
only their identities are kept, nested types included. It says which
members there are and in which type (`TypeDecl.memberIds`), and nothing of
how they look. A declaration has the inventory of its outline
(`TypeDecl.inventory_of_outline`), so no transformation changes it.
-/
import Stagewise.Proofs.Program.Outline

namespace Stagewise

/-- The identities of the fields and methods of a type, and the inventories
of its nested types. -/
inductive Inventory where
  | mk (fields methods : List Identity) (nested : List Inventory)

namespace Inventory

mutual

/-- All identities, outer types before inner. -/
def ids : Inventory → List Identity
  | ⟨fields, methods, nested⟩ => fields ++ methods ++ idsOfAll nested

def idsOfAll : List Inventory → List Identity
  | [] => []
  | i :: is => ids i ++ idsOfAll is

end

theorem idsOfAll_eq_flatMap (is : List Inventory) :
    idsOfAll is = is.flatMap ids := by
  induction is with
  | nil => rfl
  | cons i is ih => rw [idsOfAll, ih, List.flatMap_cons]

end Inventory

namespace TypeDecl

mutual

def inventory : TypeDecl → Inventory
  | ⟨_, _, _, _, _, _, _, _, fields, methods, _, nested, _⟩ =>
      ⟨fields.map Field.id, methods.map Method.id, inventories nested⟩

def inventories : List TypeDecl → List Inventory
  | [] => []
  | d :: ds => inventory d :: inventories ds

end

/-- The identities of all fields and methods, nested types included. -/
def memberIds (d : TypeDecl) : List Identity := d.inventory.ids

theorem inventories_eq_map (ds : List TypeDecl) :
    inventories ds = ds.map inventory := by
  induction ds with
  | nil => rfl
  | cons d ds ih => rw [inventories, ih, List.map_cons]

theorem inventory_eq (d : TypeDecl) :
    d.inventory = ⟨d.fields.map Field.id, d.methods.map Method.id,
      d.nested.map inventory⟩ := by
  cases d
  rw [inventory, inventories_eq_map]

theorem memberIds_eq (d : TypeDecl) :
    d.memberIds = d.fields.map Field.id ++ d.methods.map Method.id
      ++ d.nested.flatMap memberIds := by
  unfold memberIds
  rw [inventory_eq, Inventory.ids, Inventory.idsOfAll_eq_flatMap,
    List.flatMap_map]

theorem mem_memberIds {d : TypeDecl} {id : Identity} : id ∈ d.memberIds ↔
    id ∈ d.fields.map Field.id ∨ id ∈ d.methods.map Method.id
      ∨ ∃ inner ∈ d.nested, id ∈ inner.memberIds := by
  rw [memberIds_eq, List.mem_append, List.mem_append,
    List.mem_flatMap, or_assoc]

section

variable {d d' : TypeDecl}

/-- Declarations have one inventory if their own members and the
inventories of their nested types are the same. -/
theorem inventory_congr
    (hfields : d'.fields.map Field.id = d.fields.map Field.id)
    (hmethods : d'.methods.map Method.id = d.methods.map Method.id)
    (hnested : d'.nested.map inventory = d.nested.map inventory) :
    d'.inventory = d.inventory := by
  rw [inventory_eq, inventory_eq, hfields, hmethods, hnested]

theorem fields_of_inventory (h : d'.inventory = d.inventory) :
    d'.fields.map Field.id = d.fields.map Field.id := by
  rw [inventory_eq, inventory_eq] at h
  exact (Inventory.mk.inj h).1

theorem methods_of_inventory (h : d'.inventory = d.inventory) :
    d'.methods.map Method.id = d.methods.map Method.id := by
  rw [inventory_eq, inventory_eq] at h
  exact (Inventory.mk.inj h).2.1

theorem nested_of_inventory (h : d'.inventory = d.inventory) :
    d'.nested.map inventory = d.nested.map inventory := by
  rw [inventory_eq, inventory_eq] at h
  exact (Inventory.mk.inj h).2.2

theorem memberIds_of_inventory (h : d'.inventory = d.inventory) :
    d'.memberIds = d.memberIds :=
  congrArg Inventory.ids h

/-- Members of nested types that have the same inventories. -/
theorem flatMap_memberIds_congr {ds ds' : List TypeDecl}
    (h : ds'.map inventory = ds.map inventory) :
    ds'.flatMap memberIds = ds.flatMap memberIds := by
  have hids := congrArg (List.flatMap Inventory.ids) h
  rwa [List.flatMap_map, List.flatMap_map] at hids

end

/-- That a type has the members of another one, those of its nested types
in nested ones. -/
structure Includes (d' d : TypeDecl) : Prop where
  fields : d.fields.map Field.id ⊆ d'.fields.map Field.id
  methods : d.methods.map Method.id ⊆ d'.methods.map Method.id
  nested : d.nested.flatMap memberIds ⊆ d'.nested.flatMap memberIds

namespace Includes

variable {d d₁ d' : TypeDecl}

theorem trans (h : d'.Includes d₁) (h' : d₁.Includes d) : d'.Includes d :=
  ⟨List.Subset.trans h'.fields h.fields,
    List.Subset.trans h'.methods h.methods,
    List.Subset.trans h'.nested h.nested⟩

theorem ofInventory (h : d'.inventory = d.inventory) : d'.Includes d :=
  ⟨fields_of_inventory h ▸ List.Subset.refl _,
    methods_of_inventory h ▸ List.Subset.refl _,
    flatMap_memberIds_congr (nested_of_inventory h) ▸ List.Subset.refl _⟩

end Includes

-- ----------------------------------------------------------------- outlines

theorem id_field_outline (g : TypeRef → TypeRef) (f : Field) :
    (f.outline g).id = f.id := rfl

mutual

theorem inventory_outline (g : TypeRef → TypeRef) :
    ∀ d : TypeDecl, (d.outline g).inventory = d.inventory
  | ⟨_, _, _, _, _, _, _, _, fields, methods, _, nested, _⟩ => by
      rw [outline, inventory, inventory, List.map_map, List.map_map,
        inventories_outlines g nested]
      rfl

theorem inventories_outlines (g : TypeRef → TypeRef) :
    ∀ ds : List TypeDecl, inventories (outlines g ds) = inventories ds
  | [] => rfl
  | d :: ds => by
      rw [outlines, inventories, inventories, inventory_outline g d,
        inventories_outlines g ds]

end

/-- Declarations with the same outline have the same members. -/
theorem inventory_of_outline {g : TypeRef → TypeRef} {d d' : TypeDecl}
    (h : d'.outline g = d.outline g) : d'.inventory = d.inventory := by
  rw [← inventory_outline g d', h, inventory_outline g d]

end TypeDecl

end Stagewise
