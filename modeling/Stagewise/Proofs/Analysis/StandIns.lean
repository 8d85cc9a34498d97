/-
Which methods stand for method groups.

A group takes in the methods of the same signature that its links inherit
from interfaces, and lets them stand for it at its composition node. So
whatever stands for a group is a method of a declaration that is listed as
an interface (`discoverNodes_standIns`). A method that is tagged with a
stage is one of a link. Where no link is listed as an interface and no two
declarations have methods of one identity, these are different methods
(`interfaceMethod?_of_stageOfMethod?`).
-/
import Stagewise.Proofs.Analysis.Assignment
import Stagewise.Proofs.Composition.Tree

namespace Stagewise

-- ================================================================= interfaces

namespace Sources

variable {s : Sources} {d i : DeclId}

/-- That a declaration lists another one as an interface. -/
def IsInterface (s : Sources) (i : DeclId) : Prop :=
  ∃ d ∈ s.decls, ∃ t ∈ d.interfaces, s.find? t.name = some i

instance (s : Sources) (i : DeclId) : Decidable (s.IsInterface i) :=
  inferInstanceAs
    (Decidable (∃ d ∈ s.decls, ∃ t ∈ d.interfaces, s.find? t.name = some i))

/-- That no two declarations have methods of one identity. -/
def MethodsApart (s : Sources) : Prop :=
  s.decls.Pairwise fun d d' => ∀ m ∈ d.methods, ∀ m' ∈ d'.methods, m.id ≠ m'.id

instance (s : Sources) : Decidable s.MethodsApart :=
  inferInstanceAs (Decidable (s.decls.Pairwise _))

/-- A method's identity tells which declaration has it. -/
theorem MethodsApart.decl_unique (h : s.MethodsApart) {m m' : Method}
    (hm : m ∈ (s.get d).methods) (hm' : m' ∈ (s.get i).methods)
    (hid : m.id = m'.id) : d = i := by
  have hlt : ∀ {d m}, m ∈ (s.get d).methods → d.index < s.decls.length := by
    intro d m hm
    rcases Nat.lt_or_ge d.index s.decls.length with hd | hd
    · exact hd
    · rw [get_eq_default hd] at hm
      cases hm
  have hget : ∀ {d : DeclId} (hd : d.index < s.decls.length),
      s.get d = s.decls[d.index] := by
    intro d hd
    unfold get
    rw [List.getD_eq_getElem?_getD, List.getElem?_eq_getElem hd,
      Option.getD_some]
  have hd := hlt hm
  have hi := hlt hm'
  rw [hget hd] at hm
  rw [hget hi] at hm'
  rcases Nat.lt_trichotomy d.index i.index with hlt | heq | hlt
  · exact absurd hid (List.pairwise_iff_getElem.1 h _ _ hd hi hlt m hm m' hm')
  · exact congrArg DeclId.mk heq
  · exact absurd hid.symm
      (List.pairwise_iff_getElem.1 h _ _ hi hd hlt m' hm' m hm)

/-- The interfaces of a declaration are listed as such. -/
theorem isInterface_of_mem_interfacesFrom {fuel : Nat} {seen : List DeclId}
    (hseen : ∀ j ∈ seen, s.IsInterface j) :
    ∀ j ∈ s.interfacesFrom fuel seen d, s.IsInterface j := by
  induction fuel generalizing seen d with
  | zero => exact hseen
  | succ fuel ih =>
      rw [interfacesFrom]
      have hlisted : ∀ t ∈ (s.get d).interfaces, ∀ j, s.find? t.name = some j →
          s.IsInterface j := by
        intro t ht j hj
        rcases Nat.lt_or_ge d.index s.decls.length with hd | hd
        · exact ⟨_, get_mem hd, t, ht, hj⟩
        · rw [get_eq_default hd] at ht
          cases ht
      generalize (s.get d).interfaces = types at hlisted
      induction types generalizing seen with
      | nil => exact hseen
      | cons t types ihTypes =>
          obtain ⟨ht, htypes⟩ := List.forall_mem_cons.1 hlisted
          rw [List.foldl_cons]
          refine ihTypes ?_ htypes
          cases hj : s.find? t.name with
          | none => exact hseen
          | some j =>
              dsimp only
              split
              · exact hseen
              · exact ih (List.forall_mem_append.2
                  ⟨hseen, List.forall_mem_singleton.2 (ht j hj)⟩)

theorem isInterface_of_mem_allInterfaces (h : i ∈ s.allInterfaces d) :
    s.IsInterface i :=
  isInterface_of_mem_interfacesFrom (List.forall_mem_nil _) i h

/-- That an identity is that of a method of an interface. -/
def InterfaceMethod (s : Sources) (id : Identity) : Prop :=
  ∃ i, s.IsInterface i ∧ ∃ m ∈ (s.get i).methods, m.id = id

end Sources

/-- What a group finds in interfaces are their methods. -/
theorem MethodGroup.interfaceMethod_of_mem_discover {s : Sources}
    {leaf : DeclId} {seed : Method} {p : Identity × String}
    (h : p ∈ (MethodGroup.discover s leaf seed).interfaceMethods) :
    s.InterfaceMethod p.1 := by
  have hmethods : ∀ (methods : List Method) (found : List (Identity × String)),
      (∀ m ∈ methods, s.InterfaceMethod m.id) →
      (∀ p ∈ found, s.InterfaceMethod p.1) →
      ∀ p ∈ methods.foldl (fun found m =>
        if seed.overrides m && !(found.any (·.1 == m.id)) then
        found ++ [(m.id, m.name)] else found) found,
            s.InterfaceMethod p.1 := by
    intro methods
    induction methods with
    | nil => exact fun _ _ hfound => hfound
    | cons m methods ih =>
        intro found hmethods hfound
        obtain ⟨hm, hmethods⟩ := List.forall_mem_cons.1 hmethods
        rw [List.foldl_cons]
        refine ih _ hmethods ?_
        split
        · exact List.forall_mem_append.2
            ⟨hfound, List.forall_mem_singleton.2 hm⟩
        · exact hfound
  have hlinks : ∀ (links : List DeclId) (found : List (Identity × String)),
      (∀ p ∈ found, s.InterfaceMethod p.1) →
      ∀ p ∈ links.foldl (addInterfaceMethods s seed) found,
        s.InterfaceMethod p.1 := by
    intro links
    induction links with
    | nil => exact fun _ hfound => hfound
    | cons link links ih =>
        intro found hfound
        rw [List.foldl_cons]
        refine ih _ (hmethods _ _ (fun m hm => ?_) hfound)
        obtain ⟨i, hi, hm⟩ := List.mem_flatMap.1 hm
        exact ⟨i, Sources.isInterface_of_mem_allInterfaces hi, m, hm, rfl⟩
  exact hlinks _ _ (List.forall_mem_nil _) p h

-- ================================================================ standing in

namespace Composition

variable {s : Sources} {t t' : Composition}

/-- That only methods of interfaces stand for groups. -/
def StandIns (s : Sources) (t : Composition) : Prop :=
  ∀ n, ∀ p ∈ (t.get n).interfaceMethods, s.InterfaceMethod p.1

theorem StandIns.bindInterfaceMethod (h : StandIns s t) {n : CompositionId}
    {method : Identity} {methodName groupName : String} {group : DependencyId}
    (hmethod : s.InterfaceMethod method)
    (hbind : t.bindInterfaceMethod n method methodName group groupName
      = .ok t') :
    StandIns s t' := by
  unfold Composition.bindInterfaceMethod at hbind
  split at hbind
  · split at hbind
    · obtain rfl := Except.ok.inj hbind
      exact h
    · cases hbind
  · obtain rfl := Except.ok.inj hbind
    intro m p hp
    by_cases hm : m = n
    · subst hm
      rcases Nat.lt_or_ge m.index t.nodes.length with hlt | hge
      · rw [get_modify_self hlt] at hp
        rcases List.mem_cons.1 hp with rfl | hp
        · exact hmethod
        · exact h m p hp
      · rw [get_of_length_le (by rwa [length_modify])] at hp
        cases hp
    · rw [get_modify_of_ne hm] at hp
      exact h m p hp

theorem StandIns.interfaceMethod (h : StandIns s t) {n : CompositionId}
    {id : Identity} {g : DependencyId}
    (hg : t.interfaceMethod? n id = some g) : s.InterfaceMethod id := by
  obtain ⟨p, hp, -⟩ := Option.map_eq_some_iff.1 hg
  obtain ⟨before, after, hmethods, -⟩ := List.lookup_eq_some_iff.1 hp
  refine h n (id, p) ?_
  rw [hmethods]
  exact List.mem_append_right _ List.mem_cons_self

end Composition

namespace Analysis

open Compilation Stagewise.Composition Step

variable {c c' : Compilation} {d : DependencyId} {id : Identity}

theorem addGroup_standIns {s : Sources} (h : StandIns s c.tree) {name : String}
    {group : MethodGroup}
    (hgroup : ∀ p ∈ group.interfaceMethods, s.InterfaceMethod p.1) :
    Ensures (addGroup name group) c fun _ c' => StandIns s c'.tree := by
  unfold addGroup
  simp only [ensures_bind, ensures_get, ensures_modify]
  refine bindMethods_ensures.mono fun _ c₁ h₁ => ?_
  obtain ⟨b, rfl, -, -⟩ := h₁
  refine ensures_forM (I := fun _ c' => StandIns s c'.tree)
    (fun _ p hp c₂ h₂ => ?_) h
  unfold Analysis.bindInterfaceMethod
  simp only [ensures_bind, ensures_get, ensures_ofExcept, ensures_modifyTree]
  exact fun t ht => h₂.bindInterfaceMethod (hgroup p hp) ht

/-- Discovery lets only methods of interfaces stand for groups. -/
theorem discoverNodes_standIns (h : StandIns c.sources c.tree) :
    Ensures discoverNodes c fun _ c' => StandIns c.sources c'.tree := by
  unfold discoverNodes
  simp only [ensures_bind, ensures_get]
  refine Ensures.mono (ensures_mapM (I := fun _ c' =>
    c'.sources = c.sources ∧ StandIns c.sources c'.tree) ?_ ⟨rfl, h⟩)
    fun _ c₁ h₁ => Ensures.mono (ensures_mapM (I := fun _ c' =>
    c'.sources = c.sources ∧ StandIns c.sources c'.tree) ?_ h₁)
    fun _ c₂ h₂ => ensures_pure.2 h₂.2
  · rintro _ ⟨leaf, l⟩ _ c₁ ⟨hs, h₁⟩
    unfold discoverStage
    simp only [ensures_bind, ensures_get]
    split
    · simp only [ensures_bind, ensures_ofExcept, ensures_pure]
      intro stage _
      unfold addStage
      simp only [ensures_bind, ensures_get, ensures_modify]
      refine bindFields_ensures.mono fun _ c₂ h₂ => ?_
      obtain ⟨b, rfl, -, -⟩ := h₂
      refine bindMethods_ensures.mono fun _ c₃ h₃ => ?_
      obtain ⟨b', rfl, -, -⟩ := h₃
      exact ⟨hs, h₁⟩
    · exact ensures_pure.2 ⟨hs, h₁⟩
  · rintro _ ⟨leaf, l⟩ _ c₁ ⟨hs, h₁⟩
    unfold discoverGroup
    simp only [ensures_bind, ensures_get]
    split
    · simp only [ensures_bind, ensures_pure]
      refine (addGroup_adds.and (addGroup_standIns h₁ fun p hp => ?_)).mono ?_
      · rw [hs] at hp
        exact MethodGroup.interfaceMethod_of_mem_discover hp
      · rintro _ c₂ ⟨hadds, h₂⟩
        exact ⟨hadds.sources.trans hs, h₂⟩
    · exact ensures_pure.2 ⟨hs, h₁⟩

/-- No interface method has the identity of a method that is tagged with a
stage, if no link is an interface and methods are apart. -/
theorem interfaceMethod?_of_stageOfMethod? (hassigned : Assigned c)
    (hstand : StandIns c.sources c.tree) (hapart : c.sources.MethodsApart)
    (hlinks : ∀ leaf ∈ c.tree.leaves, ∀ link ∈ c.sources.extensionChain leaf,
      ¬ c.sources.IsInterface link)
    (hd : c.bindings.stageOfMethod? id = some d) (place : CompositionId) :
    c.tree.interfaceMethod? place id = none := by
  refine Option.eq_none_iff_forall_ne_some.2 fun g hg => ?_
  obtain ⟨i, hi, m, hm, hid⟩ := hstand.interfaceMethod hg
  obtain ⟨l, hl, hid'⟩ :=
    (hassigned.role _ _ _).1 (Bindings.nodeWithRole?_eq_some_iff.1 hd)
  obtain ⟨leaf, hleaf, hhas, hlink⟩ := hassigned.method d _ hl
  have hdecl :=
    hapart.decl_unique (Sources.method_mem hhas) hm (hid'.trans hid.symm)
  exact hlinks leaf hleaf l.decl hlink (hdecl ▸ hi)

end Analysis

end Stagewise
