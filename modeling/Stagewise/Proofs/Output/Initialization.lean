/-
Which final fields move into the constructors.

Fields are put in order one after the other, and those that move are
appended to what the constructors of their type do already. A turn changes
one field and the constructors of its type, and looks at nothing that a turn
before it has changed. So the tree at any time is the first one with the
fields moved so far (`Initialized`, `Underway.turn`), and in the end with all
that have an initial value, are not static and depend on something
(`Settles`).

What counts as a dependency is an access of any kind, and the type that a
field is declared with is looked up by its name alone. So a field may move
that reads nothing (`MovesIndependent`).
-/
import Stagewise.Proofs.Output.Dependencies

namespace Stagewise.Output

open Relation (TransGen)
open TypeTable

variable {root d d' : TypeDecl} {path : TypePath} {key : FinalField}
variable {f g : Field}

-- ================================================================ two options

section Options

variable {α β γ δ : Type} {R : α → β → Prop} {S : α → γ → Prop} {x : Option α}
variable {y : Option β}

/-- Where options are related, one that looks like the second is related to the
first as far as the looks tell. -/
theorem rel_of_map_eq {z : Option γ} {g : γ → δ} {k : β → δ}
    (h : Option.Rel R x y)
    (hz : z.map g = y.map k) (hS : ∀ a b c, x = some a → R a b →
      g c = k b → S a c) :
    Option.Rel S x z := by
  cases h with
  | none =>
      rw [Option.map_eq_none_iff.1 hz]
      exact .none
  | some hab =>
      obtain ⟨c, rfl, hc⟩ := Option.map_eq_some_iff.1 hz
      exact .some (hS _ _ c rfl hab hc)

theorem exists_of_rel_some {b : β} (h : Option.Rel R x (some b)) :
    ∃ a, x = some a ∧ R a b := by
  cases h with
  | some hab => exact ⟨_, rfl, hab⟩

end Options

-- ================================================================== the types

/-- The statement that gives a field its initial value. -/
def assignment (owner : String) (f : Field) (init : Expr) : Stmt :=
  .expr (.assign none (.field none (f.ref owner)) init)

/-- The statement for the field at a place of a type. -/
def assignment? (d : TypeDecl) (i : Nat) : Option Stmt := do
  let f ← d.fields[i]?
  let init ← f.init
  return assignment d.name f init

/-- Constructors with some statements behind what they do already. Where there
are statements but no constructor a public one without parameters is made,
and a single constructor is no longer the implicit one. -/
def appended (ss : List Stmt) (cs : List Constructor) : List Constructor :=
  if ss.isEmpty then cs
  else match cs with
    | [] => [{ params := [], modifiers := .publicOnly, body := ss }]
    | [c] => [{ c with isImplicit := false, body := c.body ++ ss }]
    | cs => cs.map fun c => { c with body := c.body ++ ss }

theorem appendToConstructors_appended (s : Stmt) (ss : List Stmt)
    (cs : List Constructor) :
    appendToConstructors s (appended ss cs) = appended (ss ++ [s]) cs := by
  cases ss with
  | nil => rcases cs with _ | ⟨c, _ | ⟨c', cs⟩⟩ <;> rfl
  | cons s' ss =>
      rcases cs with _ | ⟨c, _ | ⟨c', cs⟩⟩
      · rfl
      · simp [appended, appendToConstructors]
      · simp [appended, appendToConstructors]

/-- A field without its layout key. -/
def unplaced (f : Field) : Field := { f with layout := 0 }

theorem same_of_unplaced (h : unplaced f = unplaced g) :
    f.name = g.name ∧ f.modifiers = g.modifiers ∧ f.init = g.init := by
  unfold unplaced at h
  rw [Field.mk.injEq] at h
  exact ⟨h.2.1, h.2.2.2.1, h.2.2.2.2.2.1⟩

/-- What becomes of the type at a path when some final fields move. -/
structure Initialized (moved : List FinalField) (path : TypePath)
    (d d' : TypeDecl) : Prop where
  /-- Of the fields at most the keys change, but those that move lose their
  initial values. -/
  fields : ∀ i, d'.fields[i]?.map unplaced = d.fields[i]?.map fun f =>
    unplaced (if ⟨path, i⟩ ∈ moved then { f with init := none } else f)
  /-- The constructors assign the initial values in the end, in order. -/
  constructors : ∃ ss, ss.map some
      = (moved.filter (·.path == path)).map
        (fun key => assignment? d key.index)
    ∧ d'.constructors = appended ss d.constructors
  /-- Nested types aside nothing else changes. -/
  rest : { d' with fields := [], constructors := [], nested := [] }
    = { d with fields := [], constructors := [], nested := [] }

/-- The initial value that can move from a place of a type. -/
theorem movable?_getD (d : TypeDecl) (i : Nat) :
    movable? (d.fields.getD i default) = d.fields[i]?.bind movable? := by
  rw [List.getD_eq_getElem?_getD]
  cases d.fields[i]? <;> rfl

theorem moveInit_eq {i : Nat} {init : Expr} (hf : d.fields[i]? = some f)
    (hinit : movable? f = some init) : moveInit i d = { d with
      constructors :=
        appendToConstructors (assignment d.name f init) d.constructors
      fields := d.fields.modify i fun f => { f with init := none } } := by
  have hget : d.fields.getD i default = f := by
    rw [List.getD_eq_getElem?_getD, hf]
    rfl
  unfold moveInit
  simp only [hget, hinit]
  rfl

theorem assignment?_eq {i : Nat} {init : Expr} (hf : d.fields[i]? = some f)
    (hinit : movable? f = some init) :
    assignment? d i = some (assignment d.name f init) := by
  have hvalue : f.init = some init := by
    unfold movable? at hinit
    split at hinit
    · cases hinit
    · exact hinit
  unfold assignment?
  rw [hf]
  show f.init.bind _ = _
  rw [hvalue]
  rfl

/-- The initial value that can move from a place of a tree. -/
def initAt? (root : TypeDecl) (key : FinalField) : Option Expr :=
  (typeAt? key.path root).bind fun d => d.fields[key.index]?.bind movable?

namespace Initialized

variable {moved : List FinalField} {i : Nat} {init : Expr}

theorem refl (path : TypePath) (d : TypeDecl) : Initialized [] path d d := by
  refine ⟨fun i => ?_, ⟨[], rfl, rfl⟩, rfl⟩
  simp

theorem name (h : Initialized moved path d d') : d'.name = d.name := by
  have hname := congrArg TypeDecl.name h.rest
  exact hname

/-- Nested types do not matter. -/
theorem own {t : TypeDecl} (h : Initialized moved path d d')
    (ht : { t with nested := [] } = { d' with nested := [] }) :
    Initialized moved path d t := by
  have hfields := congrArg TypeDecl.fields ht
  have hconstructors := congrArg TypeDecl.constructors ht
  have hrest :=
    congrArg (fun d : TypeDecl => { d with
    fields := [], constructors := [] }) ht
  dsimp only at hfields hconstructors hrest
  refine ⟨fun i => ?_, ?_, hrest.trans h.rest⟩
  · rw [hfields]
    exact h.fields i
  · rw [hconstructors]
    exact h.constructors

/-- What moves elsewhere does not matter. -/
theorem elsewhere (h : Initialized moved path d d') (hkey : key.path ≠ path) :
    Initialized (moved ++ [key]) path d d' := by
  refine ⟨fun i => ?_, ?_, h.rest⟩
  · have hmem : (⟨path, i⟩ : FinalField) ∈ moved ++ [key]
        ↔ ⟨path, i⟩ ∈ moved := by
      rw [List.mem_append, List.mem_singleton]
      exact ⟨fun h => h.resolve_right fun he => hkey (he ▸ rfl), Or.inl⟩
    simp only [hmem]
    exact h.fields i
  · have hnone : [key].filter (·.path == path) = [] := by simp [hkey]
    rw [List.filter_append, hnone, List.append_nil]
    exact h.constructors

/-- A field that has not moved is as before but for its key. -/
theorem field (h : Initialized moved path d d') (hi : ⟨path, i⟩ ∉ moved) :
    d'.fields[i]?.map unplaced = d.fields[i]?.map unplaced := by
  rw [h.fields i]
  simp only [if_neg hi]

theorem movable?_eq (h : Initialized moved path d d')
    (hi : ⟨path, i⟩ ∉ moved) :
    d'.fields[i]?.bind movable? = d.fields[i]?.bind movable? := by
  have hview : ∀ x : Option Field,
      x.bind movable? = (x.map unplaced).bind movable? := by
    intro x
    cases x <;> rfl
  rw [hview, h.field hi, ← hview]

/-- A field may get another key. -/
theorem place (h : Initialized moved path d d') (layout : Int) :
    Initialized moved path d (placeField i layout d') := by
  refine ⟨fun j => ?_, h.constructors, h.rest⟩
  rw [← h.fields j]
  show (d'.fields.modify i _)[j]?.map unplaced = _
  rw [List.getElem?_modify, Option.map_eq_map, Option.map_map]
  refine congrArg (Option.map · d'.fields[j]?) (funext fun f => ?_)
  rw [Function.comp_apply]
  split <;> rfl

/-- A field that can move may do so. -/
theorem move (h : Initialized moved path d d') (hi : ⟨path, i⟩ ∉ moved)
    (hinit : d.fields[i]?.bind movable? = some init) :
    Initialized (moved ++ [⟨path, i⟩]) path d (moveInit i d') := by
  obtain ⟨f, hf, hmovable⟩ := Option.bind_eq_some_iff.1 hinit
  obtain ⟨f', hf', hplaced⟩ : ∃ f', d'.fields[i]? = some f'
      ∧ unplaced f' = unplaced f := by
    have hsame := h.field hi
    rw [hf] at hsame
    exact Option.map_eq_some_iff.1 hsame
  have hmovable' : movable? f' = some init :=
    (congrArg movable? hplaced).trans hmovable
  have hassignment : assignment d'.name f' init
      = assignment d.name f init := by
    unfold assignment Field.ref
    rw [h.name, (same_of_unplaced hplaced).1]
  rw [moveInit_eq hf' hmovable', hassignment]
  refine ⟨fun j => ?_, ?_, h.rest⟩
  · show (d'.fields.modify i _)[j]?.map unplaced = _
    by_cases hj : i = j
    · subst hj
      rw [List.getElem?_modify_eq, hf', hf]
      simp only [Option.map_some, List.mem_append, List.mem_singleton,
        or_true, if_true]
      exact congrArg (fun f : Field => some { f with init := none }) hplaced
    · rw [List.getElem?_modify_ne _ _ hj, h.fields j]
      have hmem : (⟨path, j⟩ : FinalField) ∈ moved ++ [⟨path, i⟩]
          ↔ ⟨path, j⟩ ∈ moved := by
        rw [List.mem_append, List.mem_singleton]
        refine ⟨fun h => h.resolve_right fun he => hj ?_, Or.inl⟩
        exact (congrArg FinalField.index he).symm
      simp only [hmem]
  · obtain ⟨ss, hss, hconstructors⟩ := h.constructors
    have hself : [(⟨path, i⟩ : FinalField)].filter (·.path == path)
      = [⟨path, i⟩] := by simp
    refine ⟨ss ++ [assignment d.name f init], ?_, ?_⟩
    · rw [List.map_append, hss, List.filter_append, hself, List.map_append,
        List.map_singleton, List.map_singleton, assignment?_eq hf hmovable]
    · show appendToConstructors _ d'.constructors = _
      rw [hconstructors, appendToConstructors_appended]

end Initialized

-- ====================================================================== turns

/-- Those of some final fields that move: they depend on something, and have
an initial value that can. -/
def movedAmong (root : TypeDecl) (done : List (FinalField × Bool)) :
    List FinalField :=
  (done.filter fun x => x.2 && (initAt? root x.1).isSome).map Prod.fst

/-- What the tree is when some final fields have been put in order. -/
structure Underway (root : TypeDecl) (done : List (FinalField × Bool))
    (o : FinalOrdering) :
    Prop where
  types : ∀ path, Option.Rel (Initialized (movedAmong root done) path)
    (typeAt? path root) (typeAt? path o.root)
  moved : o.moved = (movedAmong root done).length

theorem find?_typesAt (path : TypePath) (root : TypeDecl) :
    ((typesAt [] root).find? (·.1 == path)).map (·.2) = typeAt? path root := by
  cases hfind : (typesAt [] root).find? (·.1 == path) with
  | none =>
      cases hd : typeAt? path root with
      | none => rfl
      | some d =>
          refine absurd
            (List.find?_eq_none.1 hfind _ (mem_typesAt_root.2 hd)) ?_
          exact fun h => h (beq_self_eq_true path)
  | some p =>
      have hpath := List.find?_some hfind
      have hmem := List.mem_of_find?_eq_some hfind
      obtain rfl := beq_iff_eq.1 hpath
      exact (mem_typesAt_root.1 hmem).symm

theorem Underway.initAt?_eq {done : List (FinalField × Bool)}
    {o : FinalOrdering}
    (h : Underway root done o) (hkey : key ∉ movedAmong root done) :
    initAt? o.root key = initAt? root key := by
  have htype := h.types key.path
  unfold initAt?
  generalize typeAt? key.path root = x at htype ⊢
  generalize typeAt? key.path o.root = y at htype ⊢
  cases htype with
  | none => rfl
  | some hd => exact hd.movable?_eq hkey

theorem movedAmong_concat (done : List (FinalField × Bool))
    (x : FinalField × Bool) :
    movedAmong root (done ++ [x]) = movedAmong root done
      ++ if x.2 && (initAt? root x.1).isSome then [x.1] else [] := by
  unfold movedAmong
  rw [List.filter_append, List.map_append]
  refine congrArg _ ?_
  cases hmove : x.2 && (initAt? root x.1).isSome with
  | true => simp [hmove]
  | false => simp [hmove]

/-- What a turn does to the type of its field. -/
theorem Initialized.turn {moved : List FinalField} {isDependent : Bool}
    (h : Initialized moved key.path d d') (hd : typeAt? key.path root = some d)
    (hkey : key ∉ moved)
    (layout : Int) : Initialized
      (moved ++ if isDependent && (initAt? root key).isSome then [key]
        else []) key.path d
      (placeField key.index layout (if isDependent then moveInit key.index d'
        else d')) := by
  refine Initialized.place ?_ layout
  have hinit : initAt? root key = d.fields[key.index]?.bind movable? := by
    unfold initAt?
    rw [hd]
    rfl
  cases isDependent with
  | false => simpa using h
  | true =>
      cases hvalue : d.fields[key.index]?.bind movable? with
      | none =>
          have hstays : moveInit key.index d' = d' := by
            unfold moveInit
            simp only [movable?_getD, h.movable?_eq hkey, hvalue]
          simpa [hinit, hvalue, hstays] using h
      | some init => simpa [hinit, hvalue] using h.move hkey hvalue

/-- A turn changes the type of its field only. -/
theorem Underway.turn {done : List (FinalField × Bool)} {o : FinalOrdering}
    {x : FinalField × Bool} (h : Underway root done o)
    (hx : x.1 ∉ done.map Prod.fst) :
    Underway root (done ++ [x]) (orderFinal o x) := by
  obtain ⟨key, isDependent⟩ := x
  have hnew : key ∉ movedAmong root done := fun hkey =>
    hx (List.map_subset _ (List.filter_subset_self _) hkey)
  let change (d : TypeDecl) : TypeDecl :=
    placeField key.index (if isDependent then o.next else 0)
    (if isDependent then moveInit key.index d else d)
  have hnested : ∀ d, (change d).nested = d.nested :=
    fun d => (Touches.turn _ _ _ d).nested
  have hturn : ∀ there d d', typeAt? there root = some d →
      Initialized (movedAmong root done) there d d' →
      Initialized (movedAmong root (done ++ [(key, isDependent)])) there d
        (if there = key.path then change d' else d') := by
    intro there d d' hd hd'
    rw [movedAmong_concat]
    by_cases hthere : there = key.path
    · subst hthere
      rw [if_pos rfl]
      exact hd'.turn hd hnew _
    · rw [if_neg hthere]
      split
      · exact hd'.elsewhere (Ne.symm hthere)
      · rwa [List.append_nil]
  refine ⟨fun there => ?_, ?_⟩
  · have hown :=
      map_typeAt?_modifyTypeAt (g := fun d : TypeDecl => { d with
      nested := [] }) (fun _ _ => rfl) hnested key.path there o.root
    exact rel_of_map_eq (h.types there) hown fun d d' t hd hd' ht =>
      (hturn there d d' hd hd').own ht
  · rw [movedAmong_concat, List.length_append, ← h.moved]
    show o.moved + (isDependent && (Option.bind _ _).isSome).toNat = _
    rw [find?_typesAt]
    simp only [movable?_getD]
    show o.moved + (isDependent && (initAt? o.root key).isSome).toNat = _
    rw [h.initAt?_eq hnew]
    cases isDependent && (initAt? root key).isSome <;> rfl

/-- All turns together leave the tree with what moves moved. -/
theorem orderFinals_underway (hnodup : (foundKeys root).Nodup) :
    Underway root (initOrder root) (orderFinals root) := by
  suffices hrest : ∀ rest done o, done ++ rest = initOrder root →
      Underway root done o →
      Underway root (initOrder root) (rest.foldl orderFinal o) by
    refine hrest (initOrder root) [] { root } rfl ⟨fun path => ?_, rfl⟩
    cases typeAt? path root with
    | none => exact .none
    | some d => exact .some (.refl path d)
  intro rest
  induction rest with
  | nil =>
      intro done o hdone h
      rw [List.append_nil] at hdone
      exact hdone ▸ h
  | cons x rest ih =>
      intro done o hdone h
      refine ih (done ++ [x]) (orderFinal o x)
        (by rw [List.append_assoc]; exact hdone) (h.turn ?_)
      unfold foundKeys at hnodup
      rw [← hdone, List.map_append, List.map_cons, List.nodup_append] at hnodup
      exact fun hmem => hnodup.2.2 x.1 hmem x.1 List.mem_cons_self rfl

-- ================================================================= the result

/-- That a final field moves: it is not static, and has an initial value that
depends on something. -/
def Moves (root : TypeDecl) (D : FinalField → FinalField → Prop)
    (key : FinalField) : Prop :=
  ∃ d f, FinalAt root key d f ∧ f.modifiers.isStatic = false ∧ f.init ≠ none
    ∧ ∃ dep, D key dep

/-- What putting final fields in order makes of a tree, if `D` says what they
depend on: those that move do so in an order in which none stands before
what it depends on. -/
structure Settles (root : TypeDecl) (D : FinalField → FinalField → Prop)
    (order : List FinalField) (o : FinalOrdering) : Prop where
  moves : ∀ key, key ∈ order ↔ Moves root D key
  nodup : order.Nodup
  ordered : order.Pairwise fun a b => ¬ TransGen D a b
  types : ∀ path,
  Option.Rel (Initialized order path) (typeAt? path root) (typeAt? path o.root)
  moved : o.moved = order.length

/-- What moves is what is found and depends on something. -/
theorem mem_movedAmong : key ∈ movedAmong root (initOrder root)
    ↔ key ∈ foundKeys root ∧ Moves root (Needs root) key := by
  have hmovable : ∀ {d f}, FinalAt root key d f →
      ((initAt? root key).isSome = true
        ↔ f.modifiers.isStatic = false ∧ f.init ≠ none) := by
    intro d f hf
    unfold initAt?
    rw [hf.type, Option.bind_some, hf.field, Option.bind_some, movable?]
    split <;> simp [*, Option.isSome_iff_ne_none]
  unfold movedAmong
  rw [List.mem_map]
  constructor
  · intro ⟨⟨key', isDependent⟩, hx, hkey⟩
    obtain rfl : key' = key := hkey
    obtain ⟨hx, hmoves⟩ := List.mem_filter.1 hx
    obtain ⟨hdependent, hinit⟩ := Bool.and_eq_true_iff.1 hmoves
    obtain ⟨hfound, hneeds⟩ := mem_initOrder hx
    obtain ⟨d, f, hf⟩ := mem_finalKeys.1 (initOrder_subset hx)
    obtain ⟨hstatic, hvalue⟩ := (hmovable hf).1 hinit
    exact ⟨hfound, d, f, hf, hstatic, hvalue, hneeds.1 hdependent⟩
  · intro ⟨hfound, d, f, hf, hstatic, hvalue, hneeds⟩
    obtain ⟨⟨key', isDependent⟩, hx, hkey⟩ := List.mem_map.1 hfound
    obtain rfl : key' = key := hkey
    refine ⟨(key', isDependent),
      List.mem_filter.2 ⟨hx, Bool.and_eq_true_iff.2 ⟨?_, ?_⟩⟩, rfl⟩
    · exact (mem_initOrder hx).2.2 hneeds
    · exact (hmovable hf).2 ⟨hstatic, hvalue⟩

theorem movedAmong_sublist :
    (movedAmong root (initOrder root)).Sublist (foundKeys root) :=
  (List.filter_sublist (l := initOrder root)).map Prod.fst

theorem orderFinals_settles
    (hacyclic : ∀ key, ¬ TransGen (Needs root) key key) :
    Settles root (Needs root)
      (movedAmong root (initOrder root)) (orderFinals root) := by
  have hordered := ordered_foundKeys hacyclic
  have hunderway := orderFinals_underway hordered.nodup
  refine ⟨fun key => mem_movedAmong.trans (and_iff_right_of_imp ?_),
    hordered.nodup.sublist movedAmong_sublist, ?_, hunderway.types,
    hunderway.moved⟩
  · intro ⟨d, f, hf, _⟩
    exact (mem_foundKeys hacyclic).2 (mem_finalKeys.2 ⟨d, f, hf⟩)
  · refine ((hordered.pairwise (finalKeys root)).sublist
      movedAmong_sublist).imp
      fun hnot hneeds => ?_
    exact hnot (transGen_supports_iff.2 hneeds)

/-- Where no two types have one name, nor two fields of a type, the scan ends,
and if no final field depends on itself the fields move that have an initial
value, are not static and depend on others. They are assigned once each at
the end of every constructor, behind those that they depend on. Everything
else keeps its initial value. -/
theorem orderFinals_initializes (hnamed : WellNamed root) :
    (∀ es beyond, (ofType root).reachedTo beyond
      ((ofType root).callBound es) []
        (es.filterMap (ofType root).called?).reverse
      = (ofType root).reachedExprs ((ofType root).callBound es) []
        (es.filterMap (ofType root).called?).reverse)
      ∧ ((∀ key, ¬ TransGen (DependsOn root) key key) →
        ∃ order, Settles root (DependsOn root) order (orderFinals root)) := by
  refine ⟨scan_ends, fun hacyclic => ?_⟩
  rw [← hnamed.needs_eq] at hacyclic ⊢
  exact ⟨_, orderFinals_settles hacyclic⟩

/-- A final field of type `int`. -/
def finalInt (name : String) (init : Expr) : Field :=
  { name, type := .int, modifiers := { isFinal := true }, init := some init }

/-- A type with a final field that reads another one, and one that calls a
method, which reads the first and calls itself. -/
def chainedType : TypeDecl :=
  let read (name : String) : Expr := .field none ⟨"Merged", name⟩
  let double : Expr := .call none ⟨"Merged", "double", []⟩ []
  { name := "Merged"
    fields := [finalInt "total" (read "base"),
      finalInt "base" (.literal (.int 4)), finalInt "twice" double]
    methods := [{ name := "double", returns := .int
                  body := some [.ret
                    (some (.binary .add (read "total") double))] }] }

/-- Both fields move, the one that is read first. -/
theorem orderFinals_initializes_chained : WellNamed chainedType
    ∧ (∀ key, ¬ TransGen (DependsOn chainedType) key key)
    ∧ ∃ order, Settles chainedType (DependsOn chainedType)
      order (orderFinals chainedType)
      ∧ order.length = 2 := by
  have hnamed : WellNamed chainedType := ⟨by decide +kernel, by decide +kernel⟩
  have hacyclic : ∀ key, ¬ TransGen (DependsOn chainedType) key key := by
    rw [← hnamed.needs_eq]
    exact acyclic_of_rank (fun key => [1, 0, 2].getD key.index 0)
      (by decide +kernel)
  obtain ⟨-, hsettles⟩ := orderFinals_initializes hnamed
  obtain ⟨order, horder⟩ := hsettles hacyclic
  refine ⟨hnamed, hacyclic, order, horder, ?_⟩
  rw [← horder.moved]
  decide +kernel

-- --------------------------------------------------- fields that read nothing

mutual

/-- The fields that an expression reads. A plain assignment does not read the
field that it assigns. -/
def readFields : Expr → List FieldRef
  | .literal _ | .self _ | .super | .var _ => []
  | .field t r => r :: readFieldsOfTarget t
  | .call t _ args => readFieldsOfTarget t ++ readFieldsOfAll args
  | .new _ args => readFieldsOfAll args
  | .unary _ e => readFields e
  | .binary _ a b => readFields a ++ readFields b
  | .assign none (.field t _) v => readFieldsOfTarget t ++ readFields v
  | .assign _ t v => readFields t ++ readFields v
  | .conditional c a b => readFields c ++ readFields a ++ readFields b

def readFieldsOfTarget : Option Expr → List FieldRef
  | none => []
  | some t => readFields t

def readFieldsOfAll : List Expr → List FieldRef
  | [] => []
  | e :: es => readFields e ++ readFieldsOfAll es

end

/-- That the initial value of a field reads no final field and calls nothing,
and that the field is not declared with a type of the tree. -/
structure Independent (root : TypeDecl) (f : Field) (init : Expr) : Prop where
  value : f.init = some init
  reads : ∀ r ∈ readFields init, ∀ key, ¬ Designates root r key
  calls : ∀ target r args, .call target r args ∉ init.subterms
  type : f.type.isParam = true ∨ ∀ d, TypeOf root d → d.name ≠ f.type.name

/-- The initial value of a field. -/
def initOf? (root : TypeDecl) (key : FinalField) : Option Expr :=
  ((typeAt? key.path root).bind fun d => d.fields[key.index]?).bind Field.init

/-- That a field has an initial value in one tree and none in another. -/
def LosesInit (root root' : TypeDecl) (key : FinalField) : Prop :=
  (initOf? root key).isSome = true ∧ (initOf? root' key).isNone = true

instance (root root' : TypeDecl) (key : FinalField) :
    Decidable (LosesInit root root' key) :=
  inferInstanceAs (Decidable (_ ∧ _))

/-- That a final field moves though it is independent. -/
def MovesIndependent (root : TypeDecl) : Prop :=
  WellNamed root ∧ (∀ key, ¬ TransGen (DependsOn root) key key)
    ∧ ∃ key d f init, FinalAt root key d f ∧ Independent root f init
      ∧ LosesInit root (orderFinals root).root key

/-- A type with a final field whose initial value assigns another one. -/
def assigningType : TypeDecl :=
  { name := "A"
    fields := [finalInt "b" (.literal (.int 4)),
      finalInt "a" (.assign none (.field none ⟨"A", "b"⟩)
        (.literal (.int 3)))] }

/-- A type with a final field that is declared with a type parameter. A type of
that name is nested in it, with a field that reads the other final field. -/
def parameterType : TypeDecl :=
  { name := "A"
    typeParams := ["T"]
    fields := [finalInt "b" (.literal (.int 4)),
      { finalInt "a" (.literal .null) with type := ⟨"T", [], true⟩ }]
    nested := [{ name := "T"
                 fields := [{ name := "c", type := .int
                              init := some (.field none ⟨"A", "b"⟩) }] }] }

/-- What is assigned counts as read, and a type parameter as the type of its
name. -/
theorem orderFinals_moves_independent :
    MovesIndependent assigningType ∧ MovesIndependent parameterType := by
  have hacyclic : ∀ {root}, WellNamed root →
      (∀ x ∈ finalDependencies root, ∀ dep ∈ x.dependencies,
        dep.index < x.key.index) →
      ∀ key, ¬ TransGen (DependsOn root) key key := by
    intro root hnamed hrank
    rw [← hnamed.needs_eq]
    exact acyclic_of_rank FinalField.index hrank
  have hassigning : WellNamed assigningType :=
    ⟨by decide +kernel, by decide +kernel⟩
  have hparameter : WellNamed parameterType :=
    ⟨by decide +kernel, by decide +kernel⟩
  refine ⟨⟨hassigning, hacyclic hassigning (by decide +kernel), ⟨[], 1⟩, _, _,
    _, ⟨rfl, rfl, rfl⟩, ⟨rfl, ?_, ?_, Or.inr ?_⟩, by decide +kernel⟩,
    ⟨hparameter, hacyclic hparameter (by decide +kernel), ⟨[], 1⟩, _, _, _,
      ⟨rfl, rfl, rfl⟩,
    ⟨rfl, ?_, ?_, Or.inl rfl⟩, by decide +kernel⟩⟩
  · intro r hr
    cases hr
  · intro target r args hcall
    simp [Expr.subterms, Expr.subtermsOfTarget] at hcall
  · intro d ⟨path, hd⟩
    have hnames : ∀ p ∈ typesAt [] assigningType, p.2.name ≠ "int" := by
      decide +kernel
    exact hnames _ (mem_typesAt_root.2 hd)
  · intro r hr
    cases hr
  · intro target r args hcall
    simp [Expr.subterms] at hcall

end Stagewise.Output
