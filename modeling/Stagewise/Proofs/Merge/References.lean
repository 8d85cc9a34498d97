/-
What the resolution of references leaves of the declarations.

Replacing accesses changes expressions only, and the dropped fields are the
reference fields that are no parent access. So every declaration has the
outline that it had, less these fields if it is a link
(`resolveReferences_resolved`), and methods are referred to as before.
-/
import Mathlib.Data.List.GetD
import Stagewise.Merge.References
import Stagewise.Proofs.Composition.Tree
import Stagewise.Proofs.Program.Outline
import Stagewise.Proofs.Sources
import Stagewise.Proofs.Step

namespace Stagewise

namespace TypeDecl

/-- An outline follows a change of the fields. -/
theorem outline_withFields {g : TypeRef → TypeRef} (d : TypeDecl)
    (fields : List Field) :
    { d with fields }.outline g = { d.outline g with
      fields := fields.map (·.outline g) } := by
  cases d
  rfl

/-- A selection of fields by what an outline shows is seen in the outline. -/
theorem outline_filterFields {g : TypeRef → TypeRef} {d d' : TypeDecl}
    {p : Field → Bool}
    (hp : ∀ f, p (f.outline g) = p f) (h : d'.outline g = d.outline g) :
    { d' with fields := d'.fields.filter p }.outline g
      = { d with fields := d.fields.filter p }.outline g := by
  have hfilter : ∀ fields : List Field, (fields.filter p).map (·.outline g)
      = (fields.map (·.outline g)).filter p := by
    intro fields
    rw [List.filter_map]
    simp only [Function.comp_def, hp]
  rw [outline_withFields, outline_withFields, hfilter, hfilter,
    fields_of_outline h, h]

end TypeDecl

namespace Merge

open Step
open Transformer (KeepsTypes)

variable {c c' : Compilation} {d d' : TypeDecl} {n : CompositionId}
variable {link : DeclId}

-- ============================================================ one declaration

/-- Replacing accesses changes no type reference. -/
theorem replaceAccesses_keepsTypes (c : Compilation) (n : CompositionId) :
    KeepsTypes (replaceAccesses c n) := ⟨rfl, rfl⟩

theorem dropReferences_outline (h : d'.outline id = d.outline id) :
    (dropReferences c d').outline id = (dropReferences c d).outline id :=
  TypeDecl.outline_filterFields
    (p := fun f => !f.isReference || isParentAccess c f.id)
    (fun _ => rfl) h

theorem dropReferences_dropReferences (c : Compilation) (d : TypeDecl) :
    dropReferences c (dropReferences c d) = dropReferences c d := by
  unfold dropReferences
  simp

-- ================================================================ all of them

/-- The links of all chains. -/
def links (c : Compilation) : List DeclId := (linksWithNodes c).map Prod.snd

/-- A declaration without the dropped fields if it is one of `links`. -/
def resolved (c : Compilation) (links : List DeclId) (d : DeclId) : TypeDecl :=
  if d ∈ links then dropReferences c (c.sources.get d) else c.sources.get d

/-- That declarations are those of `c` but for their code, and less the
dropped fields where they are among `links`. -/
structure Resolved (c : Compilation) (links : List DeclId) (s : Sources) :
    Prop where
  length : s.decls.length = c.sources.decls.length
  outline : ∀ d, (s.get d).outline id = (resolved c links d).outline id

theorem lt_of_mem_linksWithNodes {p : CompositionId × DeclId}
    (h : p ∈ linksWithNodes c) :
    p.2.index < c.sources.decls.length := by
  unfold linksWithNodes Compilation.chains at h
  simp only [List.mem_flatMap, List.mem_map, Option.mem_toList] at h
  obtain ⟨_, ⟨leaf, -, rfl⟩, n, -, link, hlink, rfl⟩ := h
  exact Sources.lt_of_link hlink

/-- Another declaration in a declaration's place. -/
theorem Resolved.set {links links' : List DeclId} {s : Sources}
    (h : Resolved c links s) (hlink : link.index < c.sources.decls.length)
    (hd : d.outline id = (resolved c links' link).outline id)
    (hother : ∀ d, d ≠ link → resolved c links' d = resolved c links d) :
    Resolved c links' (s.set link d) := by
  refine ⟨(Sources.length_set ..).trans h.length, fun d' => ?_⟩
  by_cases he : d' = link
  · subst he
    rwa [Sources.get_set_self (h.length.symm ▸ hlink)]
  · rw [Sources.get_set_of_ne he, h.outline, hother d' he]

/-- Resolving references changes the declarations in this way, and nothing
else. -/
theorem resolveReferences_resolved : Ensures resolveReferences c fun _ c' =>
    ∃ s, c' = { c with sources := s } ∧ Resolved c (links c) s := by
  unfold resolveReferences
  simp only [ensures_bind, ensures_get, ensures_pure]
  -- while accesses are replaced no field is dropped
  refine Ensures.mono
    (ensures_mapM (I := fun _ c' => ∃ s, c' = { c with sources := s }
      ∧ Resolved c [] s) ?_ ⟨c.sources, rfl, rfl, fun _ => rfl⟩) ?_
  · rintro _ ⟨n, link⟩ hlink _ ⟨s, rfl, h⟩
    unfold replaceInLink
    simp only [ensures_bind, ensures_get]
    split
    rename_i d' k hrun
    simp only [ensures_bind, ensures_modifySources, ensures_pure]
    have hkept :=
      (replaceAccesses_keepsTypes { c with sources := s } n).outline_runState
      (s.get link) 0
    rw [hrun] at hkept
    exact ⟨_, rfl, h.set (lt_of_mem_linksWithNodes hlink)
      (hkept.trans (h.outline link))
      fun _ _ => rfl⟩
  · rintro _ _ ⟨s₁, rfl, h₁⟩
    refine (ensures_mapM (I := fun done c' => ∃ s, c' = { c with sources := s }
      ∧ Resolved c (done.map Prod.snd) s) ?_ ⟨s₁, rfl, h₁⟩).mono fun _ _ h => h
    rintro done ⟨n, link⟩ hlink _ ⟨s, rfl, h⟩
    unfold dropInLink
    simp only [ensures_bind, ensures_get, ensures_modifySources, ensures_pure]
    refine ⟨_, rfl, h.set (lt_of_mem_linksWithNodes hlink) ?_ fun d hd => ?_⟩
    · refine (dropReferences_outline (h.outline link)).trans ?_
      unfold resolved
      rw [if_pos (show link ∈ (done ++ [(n, link)]).map Prod.snd by simp)]
      split
      · exact congrArg _ (dropReferences_dropReferences c _)
      · rfl
    · have hmem : d ∈ (done ++ [(n, link)]).map Prod.snd
          ↔ d ∈ done.map Prod.snd := by
        simp [hd]
      simp only [resolved, hmem]

namespace Resolved

variable {links : List DeclId} {s : Sources} {l : Location}

/-- What all declarations keep that do not look at fields. -/
theorem congr {α : Type} {g : TypeDecl → α} (h : Resolved c links s)
    (hg : ∀ {d d' : TypeDecl}, d'.outline id = d.outline id → g d' = g d)
    (hfields : ∀ d fields, g { d with fields } = g d) (d : DeclId) :
    g (s.get d) = g (c.sources.get d) := by
  refine (hg (h.outline d)).trans ?_
  unfold resolved
  split
  · exact hfields _ _
  · rfl

theorem name (h : Resolved c links s) (d : DeclId) :
    s.name d = c.sources.name d :=
  h.congr (g := TypeDecl.name) TypeDecl.name_of_outline (fun _ _ => rfl) d

theorem methods (h : Resolved c links s) (d : DeclId) :
    (s.get d).methods.map (·.outline id) = (c.sources.get d).methods.map
      (·.outline id) :=
  h.congr (g := fun d => d.methods.map (·.outline id))
    TypeDecl.methods_of_outline (fun _ _ => rfl) d

/-- A method keeps its outline. -/
theorem method (h : Resolved c links s) (l : Location) :
    (s.method l).outline id = (c.sources.method l).outline id := by
  have hmethods :=
    congrArg (fun ms => ms.getD l.index ((default : Method).outline id))
    (h.methods l.decl)
  rwa [List.getD_map, List.getD_map] at hmethods

/-- Methods are referred to as before. -/
theorem methodRef (h : Resolved c links s) (l : Location) :
    s.methodRef l = c.sources.methodRef l := by
  have href : ∀ m : Method, ∀ owner, (m.outline id).ref owner
      = m.ref owner := by
    intro m owner
    simp [Method.ref, Method.outline, Method.paramTypes, Param.outline]
  unfold Sources.methodRef
  rw [h.name, ← href, h.method, href]

theorem has (h : Resolved c links s) : s.Has l ↔ c.sources.Has l := by
  have hlength := congrArg List.length (h.methods l.decl)
  rw [List.length_map, List.length_map] at hlength
  unfold Sources.Has
  rw [hlength]

end Resolved

end Merge

end Stagewise
