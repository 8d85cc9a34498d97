/-
What stays of the sources while methods are added and implemented.

A compilation changes its declarations in two ways before they are merged:
it appends methods, and it gives methods other bodies. `Keeps` is what
holds of any sequence of such changes: declarations keep their places and
names, methods keep their places and headings, new methods are identified
by the declaration they stand in, and methods at certain locations are not
changed at all.
-/
import Stagewise.Sources

namespace Stagewise

-- ================================================== changes of one member

/-- Changing a member to itself changes nothing. -/
theorem modify_eq_self {α : Type} {as : List α} {i : Nat} {f : α → α}
    (h : ∀ a, as[i]? = some a → f a = a) : as.modify i f = as := by
  refine List.ext_getElem? fun j => ?_
  rw [List.getElem?_modify]
  split
  · rename_i hij
    subst hij
    cases hi : as[i]? with
    | none => rfl
    | some a => exact congrArg some (h a hi)
  · exact id_map _

/-- A change is not seen by what does not tell the members apart. -/
theorem map_modify_eq_map {α β : Type} {as : List α} {i : Nat}
    {f : α → α} {g : α → β}
    (h : ∀ a, g (f a) = g a) : (as.modify i f).map g = as.map g := by
  refine List.ext_getElem? fun j => ?_
  rw [List.getElem?_map, List.getElem?_map, List.getElem?_modify]
  cases as[j]? with
  | none => rfl
  | some a => split <;> simp [h]

-- =============================================================== headings

/-- A method apart from its body and whether it is abstract. -/
def Method.heading (m : Method) : Method :=
  { m with modifiers := .empty, body := none }

namespace Method

variable {m m' : Method}

theorem name_eq_of_heading (h : m'.heading = m.heading) : m'.name = m.name :=
  congrArg (fun m => m.name) h

theorem id_eq_of_heading (h : m'.heading = m.heading) : m'.id = m.id :=
  congrArg (fun m => m.id) h

theorem ref_eq_of_heading (h : m'.heading = m.heading) (owner : String) :
    m'.ref owner = m.ref owner :=
  congrArg (fun m => m.ref owner) h

end Method

/-- A method that had no identity has the one derived from its owner. -/
theorem Method.id_withIdentity (m : Method) (hm : m.id = .unassigned)
    {owner : String} :
    (m.withIdentity owner).id = (m.withIdentity owner).identityIn owner := by
  unfold Method.withIdentity
  rw [hm, if_pos (show Identity.unassigned.isUnassigned = true from rfl)]
  rfl

theorem Method.name_withIdentity (m : Method) (owner : String) :
    (m.withIdentity owner).name = m.name := by
  unfold Method.withIdentity
  split <;> rfl

theorem Method.body_withIdentity (m : Method) (owner : String) :
    (m.withIdentity owner).body = m.body := by
  unfold Method.withIdentity
  split <;> rfl

namespace Sources

variable {s s' s₁ s₂ : Sources} {d d' : DeclId} {l l' : Location}

-- ================================================================ changes

/-- That a declaration has a method at a location. -/
def Has (s : Sources) (l : Location) : Prop :=
  l.index < (s.get l.decl).methods.length

/-- That a declaration has a field at a location. -/
def HasField (s : Sources) (l : Location) : Prop :=
  l.index < (s.get l.decl).fields.length

/-- That the identity of a method is the one derived from its declaration. -/
def Identified (s : Sources) (l : Location) : Prop :=
  (s.method l).id = (s.method l).identityIn (s.name l.decl)

/-- A handle of no declaration reads as an empty one. -/
theorem get_eq_default (h : s.decls.length ≤ d.index) : s.get d = default := by
  unfold get
  rw [List.getD_eq_getElem?_getD, List.getElem?_eq_none h]
  rfl

theorem Has.decl (h : s.Has l) : l.decl.index < s.decls.length := by
  rcases Nat.lt_or_ge l.decl.index s.decls.length with hd | hd
  · exact hd
  · unfold Has at h
    rw [get_eq_default hd] at h
    exact absurd h (Nat.not_lt_zero _)

theorem HasField.decl (h : s.HasField l) : l.decl.index < s.decls.length := by
  rcases Nat.lt_or_ge l.decl.index s.decls.length with hd | hd
  · exact hd
  · unfold HasField at h
    rw [get_eq_default hd] at h
    exact absurd h (Nat.not_lt_zero _)

theorem get_mem (h : d.index < s.decls.length) : s.get d ∈ s.decls := by
  unfold get
  rw [List.getD_eq_getElem?_getD, List.getElem?_eq_getElem h]
  exact List.getElem_mem h

theorem field_mem (h : s.HasField l) : s.field l ∈ (s.get l.decl).fields := by
  unfold field
  rw [List.getD_eq_getElem?_getD, List.getElem?_eq_getElem h]
  exact List.getElem_mem h

theorem method_mem (h : s.Has l) : s.method l ∈ (s.get l.decl).methods := by
  unfold method
  rw [List.getD_eq_getElem?_getD, List.getElem?_eq_getElem h]
  exact List.getElem_mem h

/-- That all members carry the identities derived from their
declarations. -/
structure Derived (s : Sources) : Prop where
  methods : ∀ t ∈ s.decls, ∀ m ∈ t.methods, m.id = m.identityIn t.name
  fields : ∀ t ∈ s.decls, ∀ f ∈ t.fields, f.id = (f.ref t.name).identity

/-- Methods with the identities derived from their declarations are
identified. -/
theorem identified_of_has
    (hid : ∀ t ∈ s.decls, ∀ m ∈ t.methods, m.id = m.identityIn t.name)
    (h : s.Has l) : s.Identified l :=
  hid _ (get_mem h.decl) _ (method_mem h)

/-- A change of one declaration is seen there and nowhere else. -/
theorem get_modify (hd : d.index < s.decls.length) (f : TypeDecl → TypeDecl)
    (d' : DeclId) :
    (s.modify d f).get d' = if d' = d then f (s.get d) else s.get d' := by
  unfold modify
  by_cases h : d' = d
  · rw [if_pos h, h, get_set_self hd]
  · rw [if_neg h, get_set_of_ne h]

theorem modify_of_not_lt (hd : ¬ d.index < s.decls.length)
    (f : TypeDecl → TypeDecl) : s.modify d f = s := by
  unfold modify set
  rw [List.set_eq_of_length_le (by omega)]

theorem length_modify (d : DeclId) (f : TypeDecl → TypeDecl) :
    (s.modify d f).decls.length = s.decls.length :=
  length_set s d _

/-- What a change leaves of the declaration that it changes is left of
all. -/
theorem get_modify_congr {α : Type} {g : TypeDecl → α}
    {f : TypeDecl → TypeDecl}
    (hf : ∀ t, g (f t) = g t) (d' : DeclId) :
    g ((s.modify d f).get d') = g (s.get d') := by
  by_cases hd : d.index < s.decls.length
  · rw [get_modify hd]
    split
    · rename_i h
      rw [hf, h]
    · rfl
  · rw [modify_of_not_lt hd]

/-- A change that does not rename a declaration renames none. -/
theorem name_modify {f : TypeDecl → TypeDecl} (hf : ∀ t, (f t).name = t.name)
    (d' : DeclId) : (s.modify d f).name d' = s.name d' :=
  get_modify_congr hf d'

/-- A change that leaves the fields of a declaration changes none. -/
theorem field_modify {f : TypeDecl → TypeDecl}
    (hf : ∀ t, (f t).fields = t.fields)
    (l : Location) : (s.modify d f).field l = s.field l := by
  unfold field
  rw [get_modify_congr hf]

/-- A further method leaves all fields alone. -/
theorem field_addMethod (m : Method) (l : Location) :
    (s.modify d (·.addMethod m)).field l = s.field l :=
  field_modify (f := (·.addMethod m)) (fun _ => rfl) l

/-- A change of a method leaves all fields alone. -/
theorem field_modifyMethod (l : Location) (f : Method → Method)
    (l' : Location) :
    (s.modifyMethod l f).field l' = s.field l' :=
  field_modify (f := fun d => { d with methods := d.methods.modify l.index f })
    (fun _ => rfl) l'

-- --------------------------------------------------------- another method

/-- A change of one method is seen there and nowhere else. -/
theorem method_modifyMethod (h : s.Has l) (f : Method → Method)
    (l' : Location) :
    (s.modifyMethod l f).method l'
      = if l' = l then f (s.method l) else s.method l' := by
  unfold method modifyMethod
  rw [get_modify h.decl]
  rcases l with ⟨d, i⟩
  rcases l' with ⟨d', i'⟩
  by_cases hd : d' = d
  · subst hd
    rw [if_pos rfl]
    by_cases hi : i' = i
    · subst hi
      rw [if_pos rfl]
      have hlt : i' < (s.get d').methods.length := h
      simp [List.getD_eq_getElem?_getD, hlt]
    · have hne : (⟨d', i'⟩ : Location) ≠ ⟨d', i⟩ :=
        fun e => hi (congrArg Location.index e)
      rw [if_neg hne]
      simp [List.getD_eq_getElem?_getD, Ne.symm hi]
  · have hne : (⟨d', i'⟩ : Location) ≠ ⟨d, i⟩ :=
      fun e => hd (congrArg Location.decl e)
    rw [if_neg hd, if_neg hne]

theorem has_modifyMethod (f : Method → Method) :
    (s.modifyMethod l f).Has l' ↔ s.Has l' := by
  unfold Has modifyMethod
  by_cases hd : l.decl.index < s.decls.length
  · rw [get_modify hd]
    split
    · rename_i h
      rw [List.length_modify, h]
    · exact Iff.rfl
  · rw [modify_of_not_lt hd]

/-- Changing a declaration to itself changes nothing. -/
theorem modify_get_eq_self {f : TypeDecl → TypeDecl}
    (h : f (s.get d) = s.get d) :
    s.modify d f = s := by
  unfold modify
  rw [h]
  by_cases hd : d.index < s.decls.length
  · simp [set, get, hd]
  · unfold set
    rw [List.set_eq_of_length_le (by omega)]

theorem withMethods_eq_self {t : TypeDecl} {methods : List Method}
    (h : methods = t.methods) : { t with methods } = t := by
  subst h
  cases t
  rfl

/-- Two changes of one declaration are one. -/
theorem modify_modify (f g : TypeDecl → TypeDecl) :
    (s.modify d f).modify d g = s.modify d fun t => g (f t) := by
  by_cases hd : d.index < s.decls.length
  · unfold modify
    rw [get_set_self hd]
    unfold set
    rw [List.set_set]
  · rw [modify_of_not_lt hd, modify_of_not_lt hd, modify_of_not_lt hd]

/-- Two changes of one method are one. -/
theorem modifyMethod_modifyMethod (f g : Method → Method) :
    (s.modifyMethod l f).modifyMethod l g = s.modifyMethod l fun m =>
      g (f m) := by
  unfold modifyMethod
  rw [modify_modify]
  simp only [List.modify_modify_eq]
  rfl

/-- Changing a method to itself changes nothing. -/
theorem modifyMethod_eq_self {f : Method → Method}
    (h : f (s.method l) = s.method l) :
    s.modifyMethod l f = s := by
  have hmethods : (s.get l.decl).methods.modify l.index f
      = (s.get l.decl).methods := by
    refine modify_eq_self fun m hm => ?_
    have hmethod : s.method l = m := by
      unfold method
      rw [List.getD_eq_getElem?_getD, hm]
      rfl
    rw [← hmethod, h]
  exact modify_get_eq_self (withMethods_eq_self hmethods)

/-- Where there is no method, none is changed. -/
theorem modifyMethod_of_not_has (h : ¬ s.Has l) (f : Method → Method) :
    s.modifyMethod l f = s := by
  have hmethods : (s.get l.decl).methods.modify l.index f
      = (s.get l.decl).methods := by
    refine modify_eq_self fun m hm => ?_
    rw [List.getElem?_eq_none (Nat.not_lt.1 h)] at hm
    cases hm
  exact modify_get_eq_self (withMethods_eq_self hmethods)

/-- A change of one method is not seen elsewhere, whether the method is
there or not. -/
theorem method_modifyMethod_of_ne (h : l' ≠ l) (f : Method → Method) :
    (s.modifyMethod l f).method l' = s.method l' := by
  by_cases hhas : s.Has l
  · exact (method_modifyMethod hhas f l').trans (if_neg h)
  · rw [modifyMethod_of_not_has hhas]

-- ----------------------------------------------------------- a new method

variable {m : Method}

/-- The place that an appended method gets. -/
def nextMethod (s : Sources) (d : DeclId) : Location :=
  ⟨d, (s.get d).methods.length⟩

theorem method_addMethod_next (hd : d.index < s.decls.length) :
    (s.modify d (·.addMethod m)).method (s.nextMethod d)
      = m.withIdentity (s.name d) := by
  unfold method nextMethod
  rw [get_modify hd, if_pos rfl]
  simp [TypeDecl.addMethod, List.getD_eq_getElem?_getD, name]

/-- An appended method stands behind those that were there. -/
theorem has_addMethod (hd : d.index < s.decls.length) :
    (s.modify d (·.addMethod m)).Has l' ↔ s.Has l' ∨ l' = s.nextMethod d := by
  rcases l' with ⟨d', i'⟩
  unfold Has nextMethod
  rw [get_modify hd]
  by_cases h : d' = d
  · subst h
    simp only [if_true, TypeDecl.addMethod, List.length_append,
      List.length_singleton, Location.mk.injEq, true_and]
    omega
  · simp [h]

theorem method_addMethod_of_has (h : s.Has l') :
    (s.modify d (·.addMethod m)).method l' = s.method l' := by
  by_cases hd : d.index < s.decls.length
  · unfold method
    rw [get_modify hd]
    split
    · rename_i hd'
      have hlt : l'.index < (s.get d).methods.length := hd' ▸ h
      simp [TypeDecl.addMethod, List.getD_eq_getElem?_getD, hd',
        List.getElem?_append_left hlt]
    · rfl
  · rw [modify_of_not_lt hd]

-- =========================================================== what is kept

/-- What stays of the sources while methods are added and implemented. The
methods at the locations `K` are not changed at all. -/
structure Keeps (K : Location → Prop) (s s' : Sources) : Prop where
  length : s'.decls.length = s.decls.length
  name : ∀ d, s'.name d = s.name d
  heading : ∀ l, s.Has l → s'.Has l
    ∧ (s'.method l).heading = (s.method l).heading
  added : ∀ l, s'.Has l → s.Has l ∨ s'.Identified l
  kept : ∀ l, K l → s'.method l = s.method l

namespace Keeps

variable {K K' : Location → Prop}

theorem refl (K : Location → Prop) (s : Sources) : Keeps K s s :=
  ⟨rfl, fun _ => rfl, fun _ h => ⟨h, rfl⟩, fun _ h => Or.inl h, fun _ _ => rfl⟩

/-- Fewer locations are kept too. -/
theorem weaken (h : Keeps K s s') (hK : ∀ l, K' l → K l) : Keeps K' s s' :=
  ⟨h.length, h.name, h.heading, h.added, fun l hl => h.kept l (hK l hl)⟩

theorem id (h : Keeps K s s') (hl : s.Has l) :
    (s'.method l).id = (s.method l).id :=
  Method.id_eq_of_heading (h.heading l hl).2

theorem methodRef (h : Keeps K s s') (hl : s.Has l) :
    s'.methodRef l = s.methodRef l := by
  unfold Sources.methodRef
  rw [h.name, Method.ref_eq_of_heading (h.heading l hl).2]

theorem identified (h : Keeps K s s') (hl : s.Has l) (hid : s.Identified l) :
    s'.Identified l := by
  have href : s'.methodRef l = s.methodRef l := h.methodRef hl
  show (s'.method l).id = (s'.methodRef l).identity
  rw [h.id hl, href]
  exact hid

theorem trans (h : Keeps K s s₁) (h' : Keeps K s₁ s₂) : Keeps K s s₂ := by
  refine ⟨h'.length.trans h.length, fun d => (h'.name d).trans (h.name d),
    ?_, ?_,
    fun l hl => (h'.kept l hl).trans (h.kept l hl)⟩
  · intro l hl
    obtain ⟨hl₁, hm⟩ := h.heading l hl
    obtain ⟨hl₂, hm'⟩ := h'.heading l hl₁
    exact ⟨hl₂, hm'.trans hm⟩
  · intro l hl
    rcases h'.added l hl with hl₁ | hid
    · rcases h.added l hl₁ with hl | hid
      · exact Or.inl hl
      · exact Or.inr (h'.identified hl₁ hid)
    · exact Or.inr hid

/-- Appending a method that has no identity yet. -/
theorem addMethod (hd : d.index < s.decls.length) (hm : m.id = .unassigned)
    (hK : ∀ l, K l → s.Has l) : Keeps K s (s.modify d (·.addMethod m)) := by
  refine ⟨length_modify d _, name_modify fun _ => rfl, ?_, ?_, ?_⟩
  · intro l hl
    exact ⟨(has_addMethod hd).2
      (Or.inl hl), by rw [method_addMethod_of_has hl]⟩
  · intro l hl
    rcases (has_addMethod hd).1 hl with hl | rfl
    · exact Or.inl hl
    · have hname : (s.modify d (·.addMethod m)).name d = s.name d :=
        name_modify (f := (·.addMethod m)) (fun _ => rfl) d
      refine Or.inr ?_
      show ((s.modify d (·.addMethod m)).method (s.nextMethod d)).id
        = ((s.modify d (·.addMethod m)).method (s.nextMethod d)).identityIn
          ((s.modify d (·.addMethod m)).name d)
      rw [method_addMethod_next hd, hname]
      exact m.id_withIdentity hm
  · exact fun l hl => method_addMethod_of_has (hK l hl)

/-- Changing a method below its heading, elsewhere than at the locations to
be kept. -/
theorem modifyMethod {f : Method → Method}
    (hf : ∀ m, (f m).heading = m.heading)
    (hl : s.Has l) (hK : ¬ K l) : Keeps K s (s.modifyMethod l f) := by
  refine ⟨length_modify l.decl _, name_modify fun _ => rfl, ?_, ?_, ?_⟩
  · intro l' hl'
    refine ⟨(has_modifyMethod f).2 hl', ?_⟩
    rw [method_modifyMethod hl]
    split
    · rename_i h
      rw [hf, h]
    · rfl
  · exact fun l' hl' => Or.inl ((has_modifyMethod f).1 hl')
  · intro l' hl'
    rw [method_modifyMethod hl, if_neg]
    intro he
    subst he
    exact hK hl'

end Keeps

end Sources

end Stagewise
