/-
The layout keys of the finished type.

# Keys

Placing gives every member the key of its binding. The completion of final
fields gives these other keys, and adds getters with the keys of their
fields. All other members keep their keys (`Keyed`), and by the keys the
members are sorted in the end (`finished_keyed`).

# Types by paths

The completion addresses a type of the tree by the path to it. What holds
`Everywhere` in the tree is said of all paths: a change of all types is
seen at each path alone (`Everywhere.map`), and so is a change of the type
at one path by what does not look at nested types
(`Everywhere.modifyTypeAt`).
-/
import Stagewise.Proofs.DepthFirst
import Stagewise.Proofs.Output.Members

namespace Stagewise.Output

variable {b : Bindings} {d d' root : TypeDecl} {path : TypePath}

-- ============================================================= types by paths

/-- The type at a path. -/
def typeAt? : TypePath → TypeDecl → Option TypeDecl
  | [], d => some d
  | i :: path, d => d.nested[i]?.bind (typeAt? path)

mutual

/-- The types of a tree are those at its paths. -/
theorem mem_typesAt {p : TypePath × TypeDecl} (path : TypePath) :
    ∀ d : TypeDecl, p ∈ typesAt path d ↔ ∃ rest, p.1 = path ++ rest
      ∧ typeAt? rest d = some p.2
  | ⟨_, _, _, _, _, _, _, _, _, _, _, nested, _⟩ => by
      rw [typesAt, List.mem_cons, mem_typesAtAll path 0 nested]
      constructor
      · rintro (rfl | ⟨i, rest, hp, ht⟩)
        · exact ⟨[], (List.append_nil _).symm, rfl⟩
        · rw [Nat.zero_add] at hp
          exact ⟨i :: rest, hp, ht⟩
      · rintro ⟨_ | ⟨i, rest⟩, hp, ht⟩
        · rw [List.append_nil] at hp
          exact Or.inl (Prod.ext hp (Option.some.inj ht).symm)
        · exact Or.inr ⟨i, rest, (Nat.zero_add i).symm ▸ hp, ht⟩

theorem mem_typesAtAll {p : TypePath × TypeDecl} (path : TypePath) :
    ∀ (k : Nat) (ds : List TypeDecl), p ∈ typesAtAll path k ds ↔
      ∃ i rest, p.1 = path ++ (k + i) :: rest
        ∧ ds[i]?.bind (typeAt? rest) = some p.2
  | k, [] => by simp [typesAtAll]
  | k, d :: ds => by
      rw [typesAtAll, List.mem_append, mem_typesAt (path ++ [k]) d,
        mem_typesAtAll path (k + 1) ds]
      simp only [List.append_assoc, List.singleton_append]
      constructor
      · rintro (⟨rest, hp, ht⟩ | ⟨i, rest, hp, ht⟩)
        · exact ⟨0, rest, hp, ht⟩
        · exact ⟨i + 1, rest, by rw [hp, Nat.add_assoc, Nat.add_comm 1 i], ht⟩
      · rintro ⟨_ | i, rest, hp, ht⟩
        · exact Or.inl ⟨rest, hp, ht⟩
        · exact Or.inr
            ⟨i, rest, by rw [hp, Nat.add_assoc, Nat.add_comm 1 i], ht⟩

end

theorem mem_typesAt_root :
    (path, d) ∈ typesAt [] root ↔ typeAt? path root = some d := by
  rw [mem_typesAt]
  constructor
  · rintro ⟨rest, rfl, ht⟩
    exact ht
  · exact fun ht => ⟨path, rfl, ht⟩

/-- A change of every type of a tree is one of the type at each path. -/
theorem typeAt?_map {f : TypeDecl → TypeDecl}
    (hf : ∀ d, (f d).nested = d.nested.map f)
    (path : TypePath) (d : TypeDecl) :
    typeAt? path (f d) = (typeAt? path d).map f := by
  induction path generalizing d with
  | nil => rfl
  | cons i path ih =>
      rw [typeAt?, typeAt?, hf, List.getElem?_map]
      cases d.nested[i]? with
      | none => rfl
      | some inner => exact ih inner

/-- Of a change of one type, what does not look at nested types is seen at its
path alone. -/
theorem map_typeAt?_modifyTypeAt {α : Type} {g : TypeDecl → α}
    {f : TypeDecl → TypeDecl}
    (hg : ∀ d ds, g { d with nested := ds } = g d)
    (hf : ∀ d, (f d).nested = d.nested)
    (path there : TypePath) (d : TypeDecl) :
    (typeAt? there (modifyTypeAt f path d)).map g
      = (typeAt? there d).map fun t =>
        g (if there = path then f t else t) := by
  induction path generalizing d there with
  | nil =>
      cases there with
      | nil => rfl
      | cons i there => simp [modifyTypeAt, typeAt?, hf]
  | cons j path ih =>
      cases there with
      | nil => exact congrArg some (hg d _)
      | cons i there =>
          rw [modifyTypeAt, typeAt?, typeAt?]
          dsimp only
          by_cases hij : j = i
          · subst hij
            rw [List.getElem?_modify_eq]
            cases d.nested[j]? with
            | none => rfl
            | some inner => simpa using ih there inner
          · rw [List.getElem?_modify_ne _ _ hij]
            simp [Ne.symm hij]

theorem typesAt_eq (path : TypePath) (d : TypeDecl) :
    typesAt path d = (path, d) :: typesAtAll path 0 d.nested := by
  cases d
  rfl

/-- What a change of one type leaves, if it does not look at nested types, it
leaves of all types of the tree. -/
theorem map_typesAt_modifyTypeAt {α : Type} {g : TypeDecl → α}
    {f : TypeDecl → TypeDecl}
    (hg : ∀ d ds, g { d with nested := ds } = g d)
    (hf : ∀ d, (f d).nested = d.nested)
    (hsame : ∀ d, g (f d) = g d) (path there : TypePath) (d : TypeDecl) :
    (typesAt there (modifyTypeAt f path d)).map (Prod.map id g)
      = (typesAt there d).map (Prod.map id g) := by
  induction path generalizing there d with
  | nil =>
      rw [modifyTypeAt, typesAt_eq, typesAt_eq there d, hf, List.map_cons,
        List.map_cons, Prod.map_apply, Prod.map_apply, hsame]
  | cons i path ih =>
      have hall : ∀ (ds : List TypeDecl) (k i : Nat),
          (typesAtAll there k (ds.modify i (modifyTypeAt f path))).map
          (Prod.map id g)
            = (typesAtAll there k ds).map (Prod.map id g) := by
        intro ds
        induction ds with
        | nil =>
            intro k i
            rw [List.modify_nil]
        | cons d ds ihds =>
            intro k i
            cases i with
            | zero =>
                rw [List.modify_zero_cons, typesAtAll, typesAtAll,
                  List.map_append, List.map_append, ih]
            | succ i =>
                rw [List.modify_succ_cons, typesAtAll, typesAtAll,
                  List.map_append, List.map_append, ihds]
      rw [modifyTypeAt, typesAt_eq, typesAt_eq there d, List.map_cons,
        List.map_cons, Prod.map_apply, Prod.map_apply, hg, hall]

/-- That a property holds of every type of a tree. -/
def Everywhere (P : TypePath → TypeDecl → Prop) (root : TypeDecl) : Prop :=
  ∀ path d, typeAt? path root = some d → P path d

namespace Everywhere

variable {P Q : TypePath → TypeDecl → Prop} {f : TypeDecl → TypeDecl}

theorem mono (h : Everywhere P root) (hPQ : ∀ path d, P path d → Q path d) :
    Everywhere Q root :=
  fun path d hd => hPQ path d (h path d hd)

theorem map (h : Everywhere P root) (hf : ∀ d, (f d).nested = d.nested.map f)
    (hPQ : ∀ path d, P path d → Q path (f d)) : Everywhere Q (f root) := by
  intro path d hd
  rw [typeAt?_map hf] at hd
  obtain ⟨t, ht, rfl⟩ := Option.map_eq_some_iff.1 hd
  exact hPQ path t (h path t ht)

/-- One type may be changed, where nested types do not matter. -/
theorem modifyTypeAt (h : Everywhere P root)
    (hf : ∀ d, (f d).nested = d.nested)
    (hnested : ∀ path d ds, P path d → P path { d with nested := ds })
    (hP : ∀ d, P path d → P path (f d)) :
    Everywhere P (modifyTypeAt f path root) := by
  induction path generalizing root P with
  | nil =>
      rintro (_ | ⟨i, rest⟩) d hd
      · obtain rfl := Option.some.inj hd
        exact hP root (h [] root rfl)
      · refine h (i :: rest) d ?_
        rwa [Output.modifyTypeAt, typeAt?, hf] at hd
  | cons i path ih =>
      rintro (_ | ⟨j, rest⟩) d hd
      · obtain rfl := Option.some.inj hd
        exact hnested [] root _ (h [] root rfl)
      · have hinner : ∀ inner, root.nested[j]? = some inner →
            Everywhere (fun rest => P (j :: rest))
              inner := fun inner hj rest d hd =>
          h (j :: rest) d (by rw [typeAt?, hj]; exact hd)
        rw [Output.modifyTypeAt, typeAt?] at hd
        obtain ⟨inner, hj, hd⟩ := Option.bind_eq_some_iff.1 hd
        dsimp only at hj
        by_cases hij : i = j
        · subst hij
          rw [List.getElem?_modify_eq] at hj
          obtain ⟨inner, hi, rfl⟩ := Option.map_eq_some_iff.1 hj
          exact ih (hinner inner hi) (fun path => hnested (i :: path))
            hP rest d hd
        · rw [List.getElem?_modify_ne _ _ hij] at hj
          exact hinner inner hj rest d hd

end Everywhere

-- ==================================================================== placing

theorem nested_placeMembers (d : TypeDecl) :
    (placeMembers b d).nested = d.nested.map (placeMembers b) := by
  have hall : ∀ ds : List TypeDecl,
      placeAll b ds = ds.map (placeMembers b) := by
    intro ds
    induction ds with
    | nil => rfl
    | cons d ds ih => rw [placeAll, ih, List.map_cons]
  cases d
  exact hall _

/-- The members of a type itself as they are placed. -/
theorem own_placeMembers (d : TypeDecl) :
    (placeMembers b d).fields
      = d.fields.map (fun f => { f with layout := b.fieldLayout f.id })
    ∧ (placeMembers b d).methods
      = d.methods.map fun m => { m with layout := b.methodLayout m.id } := by
  cases d
  exact ⟨rfl, rfl⟩

/-- That the members of a type have the keys of their bindings. Final fields
may have others, but of the listed places only these. -/
structure Off (b : Bindings) (keys : List FinalField) (path : TypePath)
    (d : TypeDecl) : Prop where
  method : ∀ m ∈ d.methods, m.layout = b.methodLayout m.id
  field : ∀ (i : Nat) (f : Field), d.fields[i]? = some f →
    f.modifiers.isFinal = true
    ∨ f.layout = b.fieldLayout f.id ∧ ⟨path, i⟩ ∉ keys

/-- The places of the final fields of a tree. -/
def finalKeys (root : TypeDecl) : List FinalField :=
  (TypeTable.ofType root).finals.map Prod.fst

/-- That a final field of a type stands at a place of a tree. -/
structure FinalAt (root : TypeDecl) (key : FinalField) (d : TypeDecl)
    (f : Field) : Prop where
  type : typeAt? key.path root = some d
  field : d.fields[key.index]? = some f
  isFinal : f.modifiers.isFinal = true

theorem FinalAt.unique {key : FinalField} {f f' : Field}
    (h : FinalAt root key d f)
    (h' : FinalAt root key d' f') : d = d' ∧ f = f' := by
  obtain rfl := Option.some.inj (h.type.symm.trans h'.type)
  exact ⟨rfl, Option.some.inj (h.field.symm.trans h'.field)⟩

/-- The final fields of a tree are those that stand somewhere in it. -/
theorem mem_finals {key : FinalField} {f : Field} :
    (key, d, f) ∈ (TypeTable.ofType root).finals ↔ FinalAt root key d f := by
  constructor
  · intro h
    obtain ⟨⟨path', d'⟩, htype, hfinal⟩ := List.mem_flatMap.1 h
    obtain ⟨⟨key, g⟩, hfinal, he⟩ := List.mem_map.1 hfinal
    obtain ⟨⟨g, j⟩, hg, hkey⟩ := List.mem_map.1 hfinal
    cases hkey
    cases he
    obtain ⟨hg, hisFinal⟩ := List.mem_filter.1 hg
    exact ⟨mem_typesAt_root.1 htype, List.mem_zipIdx_iff_getElem?.1 hg,
      hisFinal⟩
  · intro h
    refine List.mem_flatMap.2 ⟨_, mem_typesAt_root.2 h.type,
      List.mem_map.2 ⟨(key, f), ?_, rfl⟩⟩
    refine List.mem_map.2 ⟨(f, key.index),
      List.mem_filter.2 ⟨?_, h.isFinal⟩, rfl⟩
    exact List.mem_zipIdx_iff_getElem?.2 h.field

/-- The places of final fields are those of fields that are final. -/
theorem isFinal_of_mem_finalKeys {i : Nat} {f : Field}
    (h : ⟨path, i⟩ ∈ finalKeys root)
    (hd : typeAt? path root = some d) (hf : d.fields[i]? = some f) :
    f.modifiers.isFinal = true := by
  obtain ⟨⟨key, t, g⟩, hfinal, rfl⟩ := List.mem_map.1 h
  have hplace := mem_finals.1 hfinal
  obtain rfl := Option.some.inj (hd.symm.trans hplace.type)
  obtain rfl := Option.some.inj (hf.symm.trans hplace.field)
  exact hplace.isFinal

/-- Placed members have the keys of their bindings. -/
theorem placeMembers_off (d : TypeDecl) :
    Everywhere (Off b (finalKeys (placeMembers b d))) (placeMembers b d) := by
  intro path t ht
  have hplaced := ht
  rw [typeAt?_map nested_placeMembers] at hplaced
  obtain ⟨u, -, rfl⟩ := Option.map_eq_some_iff.1 hplaced
  obtain ⟨hfields, hmethods⟩ := own_placeMembers (b := b) u
  refine ⟨fun m hm => ?_, fun i f hf => ?_⟩
  · rw [hmethods] at hm
    obtain ⟨m, -, rfl⟩ := List.mem_map.1 hm
    rfl
  · by_cases hisFinal : f.modifiers.isFinal = true
    · exact Or.inl hisFinal
    · refine Or.inr
        ⟨?_, fun hkey => hisFinal (isFinal_of_mem_finalKeys hkey ht hf)⟩
      rw [hfields, List.getElem?_map] at hf
      obtain ⟨f, -, rfl⟩ := Option.map_eq_some_iff.1 hf
      rfl

-- =============================================================== final fields

/-- A change of one field of a type, which stays final if it is. -/
structure Touches (index : Nat) (d d' : TypeDecl) : Prop where
  methods : d'.methods = d.methods
  nested : d'.nested = d.nested
  modifiers : d'.fields.map Field.modifiers = d.fields.map Field.modifiers
  others : ∀ i, i ≠ index → d'.fields[i]? = d.fields[i]?

namespace Touches

variable {index : Nat} {keys : List FinalField}

theorem refl (d : TypeDecl) : Touches index d d :=
  ⟨rfl, rfl, rfl, fun _ _ => rfl⟩

theorem trans {d₁ : TypeDecl} (h : Touches index d d₁)
    (h' : Touches index d₁ d') :
    Touches index d d' :=
  ⟨h'.methods.trans h.methods, h'.nested.trans h.nested,
    h'.modifiers.trans h.modifiers,
    fun i hi => (h'.others i hi).trans (h.others i hi)⟩

theorem placeField (index : Nat) (layout : Int) (d : TypeDecl) :
    Touches index d (placeField index layout d) :=
  ⟨rfl, rfl, map_modify_eq_map fun _ => rfl,
    fun _ hi => List.getElem?_modify_ne _ _ (Ne.symm hi)⟩

theorem moveInit (index : Nat) (d : TypeDecl) :
    Touches index d (moveInit index d) := by
  unfold Output.moveInit
  dsimp only
  split
  · exact refl d
  · exact ⟨rfl, rfl, map_modify_eq_map fun _ => rfl,
      fun _ hi => List.getElem?_modify_ne _ _ (Ne.symm hi)⟩

/-- What the turn of a final field does to its type. -/
theorem turn (index : Nat) (layout : Int) (isDependent : Bool) (d : TypeDecl) :
    Touches index d
      (Output.placeField index layout
        (if isDependent then Output.moveInit index d else d)) := by
  refine trans ?_ (placeField ..)
  split
  · exact moveInit index d
  · exact refl d

/-- Of a final field the key may be changed. -/
theorem off (h : Touches index d d') (hkey : ⟨path, index⟩ ∈ keys)
    (hd : Off b keys path d) :
    Off b keys path d' := by
  refine ⟨h.methods ▸ hd.method, fun i f hf => ?_⟩
  by_cases hi : i = index
  · subst hi
    have hmodifiers := congrArg (·[i]?) h.modifiers
    simp only [List.getElem?_map, hf, Option.map_some] at hmodifiers
    obtain ⟨g, hg, hsame⟩ := Option.map_eq_some_iff.1 hmodifiers.symm
    obtain hisFinal | ⟨-, hnot⟩ := hd.field i g hg
    · exact Or.inl (hsame ▸ hisFinal)
    · exact absurd hkey hnot
  · rw [h.others i hi] at hf
    exact hd.field i f hf

end Touches

/-- What is put in order are final fields. -/
theorem initOrder_subset {field : FinalField × Bool}
    (h : field ∈ initOrder root) :
    field.1 ∈ finalKeys root := by
  have hkeys : (finalDependencies root).map FinalDependencies.key
      = finalKeys root := by
    unfold finalDependencies finalKeys
    rw [List.map_map]
    rfl
  unfold initOrder at h
  obtain ⟨key, hkey, rfl⟩ := List.mem_map.1 h
  rw [← hkeys]
  refine DepthFirst.order_subset (fun _ _ => ?_) ?_ hkey
  · exact List.map_subset _ (List.filter_subset_self _)
  · exact List.map_subset _ (List.filter_subset_self _)

/-- Putting final fields in order leaves the keys of all others. -/
theorem orderFinals_off (h : Everywhere (Off b (finalKeys root)) root) :
    Everywhere (Off b (finalKeys root)) (orderFinals root).root := by
  unfold orderFinals
  refine List.foldlRecOn
    (motive := fun o : FinalOrdering => Everywhere (Off b (finalKeys root))
      o.root) _ _ h ?_
  rintro o ho ⟨key, isDependent⟩ hfield
  refine ho.modifyTypeAt
    (fun d => (Touches.turn _ _ isDependent d).nested) ?_ ?_
  · exact fun _ _ _ hd => ⟨hd.method, hd.field⟩
  · exact fun d hd => (Touches.turn _ _ isDependent d).off
      (initOrder_subset hfield) hd

-- ==================================================================== getters

/-- That a method is the getter of a final field of its type. -/
def IsGetter (d : TypeDecl) (m : Method) : Prop :=
  ∃ f ∈ d.fields, f.modifiers.isFinal = true
    ∧ m = (getter d.name f).withIdentity d.name

/-- That the members of a type have the keys of their bindings, final fields
and their getters apart. -/
structure Keyed (b : Bindings) (d : TypeDecl) : Prop where
  field : ∀ f ∈ d.fields, f.modifiers.isFinal = false →
    f.layout = b.fieldLayout f.id
  method : ∀ m ∈ d.methods, ¬ IsGetter d m → m.layout = b.methodLayout m.id

theorem Off.keyed {keys : List FinalField} (h : Off b keys path d) :
    Keyed b d := by
  refine ⟨fun f hf hchanges => ?_, fun m hm _ => h.method m hm⟩
  obtain ⟨i, hi⟩ := List.mem_iff_getElem?.1 hf
  obtain hisFinal | ⟨hkey, -⟩ := h.field i f hi
  · rw [hchanges] at hisFinal
    cases hisFinal
  · exact hkey

namespace Keyed

/-- Getters may be added. -/
theorem addGetters (h : Keyed b d) : Keyed b (addGetters d) := by
  rw [addGetters_eq]
  refine ⟨h.field, fun m hm hnot => ?_⟩
  obtain hm | hm := List.mem_append.1 hm
  · exact h.method m hm hnot
  · obtain ⟨m', hmissing, rfl⟩ := List.mem_map.1 hm
    obtain ⟨f, hf, rfl⟩ := List.mem_map.1 hmissing
    obtain ⟨hf, hisFinal⟩ := List.mem_filter.1 hf
    exact absurd ⟨f, hf, (Bool.and_eq_true_iff.1 hisFinal).1, rfl⟩ hnot

/-- Markers do not matter. -/
theorem stripMarkers (h : Keyed b d) : Keyed b (stripMarkers d) := by
  obtain ⟨hname, hfields, hmethods⟩ := own_stripMarkers d
  refine ⟨fun f' hf' hchanges => ?_, fun m' hm' hnot => ?_⟩
  · rw [hfields] at hf'
    obtain ⟨f, hf, rfl⟩ := List.mem_map.1 hf'
    exact h.field f hf hchanges
  · rw [hmethods] at hm'
    obtain ⟨m, hm, rfl⟩ := List.mem_map.1 hm'
    refine h.method m hm fun hgetter => hnot ?_
    obtain ⟨f, hf, hisFinal, rfl⟩ := hgetter
    have hidentity : ∀ f : Field, (getter d.name f).withIdentity d.name
        = { getter d.name f with id := (getter d.name f).identityIn d.name } :=
      fun _ => if_pos rfl
    rw [IsGetter, hfields, hname]
    refine ⟨_, List.mem_map.2 ⟨f, hf, rfl⟩, hisFinal, ?_⟩
    rw [hidentity, hidentity]
    rfl

/-- Nor does the order. -/
theorem sortMembers (h : Keyed b d) : Keyed b d.sortMembers := by
  obtain ⟨hname, hfields, hmethods⟩ := own_sortMembers d
  have hgetter : ∀ m, IsGetter d.sortMembers m ↔ IsGetter d m := by
    intro m
    unfold IsGetter
    simp only [hname, hfields, mem_sortBy]
  refine ⟨fun f hf => h.field f ?_, fun m hm hnot => h.method m ?_
    fun hm => ?_⟩
  · rwa [hfields, mem_sortBy] at hf
  · rwa [hmethods, mem_sortBy] at hm
  · exact hnot ((hgetter m).2 hm)

end Keyed

/-- That the members of a type are in rising order of their keys. -/
structure Sorted (d : TypeDecl) : Prop where
  fields : d.fields.Pairwise (·.layout ≤ ·.layout)
  methods : d.methods.Pairwise (·.layout ≤ ·.layout)

theorem sorted_sortMembers (d : TypeDecl) : Sorted d.sortMembers := by
  cases d
  exact ⟨pairwise_sortBy Field.layout _, pairwise_sortBy Method.layout _⟩

/-- Once placed members are finished, every type has them sorted, and but for
final fields and their getters by the keys of their bindings. -/
theorem finished_keyed (b : Bindings) (d : TypeDecl) :
    Everywhere (fun _ t => Keyed b t ∧ Sorted t)
      (finished (placeMembers b d)) := by
  have hordered := orderFinals_off (placeMembers_off (b := b) d)
  have hgetters : Everywhere (fun _ => Keyed b)
      (addGetters (orderFinals (placeMembers b d)).root) :=
    hordered.map nested_addGetters fun _ _ ht => ht.keyed.addGetters
  have hstripped :=
      hgetters.map (Q := fun _ => Keyed b) nested_stripMarkers fun _ _ ht =>
    ht.stripMarkers
  exact hstripped.map nested_sortMembers fun _ t ht =>
    ⟨ht.sortMembers, sorted_sortMembers t⟩

end Stagewise.Output
