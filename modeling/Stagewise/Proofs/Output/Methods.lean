/-
The methods of the finished types, by identity and name.

Neither the renaming of types nor anything after it renames a method or
removes one. As the passes change types at different depths, this is said of
the type at each path (`namesAt`): what leaves the names at every path leaves
them in the type of every node (`finished_methodNames`).
-/
import Stagewise.Proofs.Output.Signatures

namespace Stagewise.Output

open TypeDecl

variable {d d' : TypeDecl} {g k : TypeRef → TypeRef} {f : TypeDecl → TypeDecl}

/-- The methods of a type by their identities and names. -/
def methodNames (d : TypeDecl) : List (Identity × String) :=
  d.methods.map fun m => (m.id, m.name)

/-- The names of the methods of the type at a path. -/
def namesAt (d : TypeDecl) (path : TypePath) :
    Option (List (Identity × String)) :=
  (typeAt? path d).map methodNames

theorem namesAt_map (hf : ∀ d, (f d).nested = d.nested.map f)
    (hnames : ∀ d, methodNames (f d) = methodNames d) (d : TypeDecl) :
    namesAt (f d) = namesAt d := by
  funext path
  unfold namesAt
  rw [typeAt?_map hf, Option.map_map]
  exact congrArg (fun h => (typeAt? path d).map h) (funext hnames)

theorem methodNames_outline (g : TypeRef → TypeRef) (d : TypeDecl) :
    methodNames (d.outline g) = methodNames d := by
  cases d
  exact List.map_map

/-- Types that look the same, each in its view, have the same methods. -/
theorem namesAt_of_outline (h : d'.outline g = d.outline k) :
    namesAt d' = namesAt d := by
  rw [← namesAt_map (nested_outline g) (methodNames_outline g), h,
    namesAt_map (nested_outline k) (methodNames_outline k)]

/-- With the same names everywhere, so have the nested types. -/
theorem nested_of_namesAt (d d' : TypeDecl) (h : namesAt d' = namesAt d) :
    d'.nested.map namesAt = d.nested.map namesAt := by
  refine List.ext_getElem? fun i => ?_
  rw [List.getElem?_map, List.getElem?_map]
  have hpath : ∀ path, (d'.nested[i]?.bind (typeAt? path)).map methodNames
      = (d.nested[i]?.bind (typeAt? path)).map methodNames :=
    fun path => congrFun h (i :: path)
  cases hd' : d'.nested[i]? with
  | none =>
      cases hd : d.nested[i]? with
      | none => rfl
      | some inner =>
          have hroot := hpath []
          rw [hd, hd'] at hroot
          cases hroot
  | some inner' =>
      cases hd : d.nested[i]? with
      | none =>
          have hroot := hpath []
          rw [hd, hd'] at hroot
          cases hroot
      | some inner =>
          rw [hd, hd'] at hpath
          exact congrArg some (funext hpath)

/-- One type may be changed below its methods. -/
theorem namesAt_modifyTypeAt (hnested : ∀ d, (f d).nested = d.nested)
    (hnames : ∀ d, methodNames (f d) = methodNames d) (path : TypePath)
    (d : TypeDecl) :
    namesAt (modifyTypeAt f path d) = namesAt d := by
  funext there
  unfold namesAt
  rw [map_typeAt?_modifyTypeAt (fun _ _ => rfl) hnested]
  refine congrArg (Option.map · (typeAt? there d)) (funext fun t => ?_)
  split
  · exact hnames t
  · rfl

theorem namesAt_orderFinals (root : TypeDecl) :
    namesAt (orderFinals root).root = namesAt root := by
  unfold orderFinals
  refine List.foldlRecOn (motive := fun o : FinalOrdering =>
    namesAt o.root = namesAt root) _ _ rfl ?_
  rintro o ho ⟨key, isDependent⟩ _
  have htouches :=
    Touches.turn key.index (if isDependent then o.next else 0) isDependent
  exact (namesAt_modifyTypeAt (fun d => (htouches d).nested)
    (fun d => congrArg (List.map _) (htouches d).methods) _ _).trans ho

theorem methodNames_placeMembers (b : Bindings) (d : TypeDecl) :
    methodNames (placeMembers b d) = methodNames d := by
  cases d
  exact List.map_map

theorem methodNames_stripMarkers (d : TypeDecl) :
    methodNames (stripMarkers d) = methodNames d := by
  cases d
  exact List.map_map

/-- Getters are added behind the methods of a type. -/
theorem methodNames_addGetters (d : TypeDecl) :
    methodNames d ⊆ methodNames (addGetters d) := by
  rw [addGetters_eq]
  exact List.map_subset _ (List.subset_append_left _ _)

theorem methodNames_sortMembers (d : TypeDecl) :
    methodNames d ⊆ methodNames d.sortMembers := by
  cases d
  exact ((sortBy_perm Method.layout _).map _).symm.subset

/-- In a finished type that of a node has the methods that it had, under
their names. -/
theorem finished_methodNames {t : Composition} {n : CompositionId}
    {type : TypeDecl} (b : Bindings)
    (h : Merge.IsTypeOf t d n type) (hd : namesAt d' = namesAt d) :
    ∃ type', Merge.IsTypeOf t (finished (placeMembers b d')) n type'
      ∧ methodNames type ⊆ methodNames type' := by
  have hplaced :=
    namesAt_map nested_placeMembers (methodNames_placeMembers b) d'
  obtain ⟨ordered, hordered, hsame⟩ := h.congr nested_of_namesAt
    ((namesAt_orderFinals (placeMembers b d')).trans (hplaced.trans hd))
  have hfinished :=
    ((hordered.map nested_addGetters).map nested_stripMarkers).map
    (f := TypeDecl.sortMembers) nested_sortMembers
  refine ⟨_, hfinished, ?_⟩
  have hnames : methodNames ordered = methodNames type :=
    Option.some.inj (congrFun hsame [])
  rw [← hnames]
  refine List.Subset.trans (methodNames_addGetters ordered) ?_
  rw [← methodNames_stripMarkers]
  exact methodNames_sortMembers _

end Stagewise.Output
