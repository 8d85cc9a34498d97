/-
What keeps its initial value reads nothing that has lost it.

Initial values that stay in place are evaluated before constructors run,
and the statements that a constructor has already before those appended to
it. A final field that is not static stays only if it depends on nothing, so
it reads none that has moved, neither itself nor by the methods that it
calls.

This holds of no other code. Fields that are not final, static ones and the
statements of constructors take no part in the order. They are left as they
are (`Retains`), whatever they read.
-/
import Stagewise.Proofs.Output.Initialization

namespace Stagewise.Output

open Relation (TransGen)
open TypeTable

variable {root d d' : TypeDecl} {path : TypePath} {f g : Field}

-- ==================================================================== look-up

theorem face_placeField (i : Nat) (layout : Int) (d : TypeDecl) :
    face (placeField i layout d) = face d :=
  congrArg (Face.mk d.name d.methods) (map_modify_eq_map fun _ => rfl)

theorem face_moveInit (i : Nat) (d : TypeDecl) :
    face (moveInit i d) = face d := by
  unfold moveInit
  dsimp only
  split
  · rfl
  · exact congrArg (Face.mk d.name d.methods) (map_modify_eq_map fun _ => rfl)

/-- Putting final fields in order leaves what look-up sees. -/
theorem faces_orderFinals (root : TypeDecl) :
    (ofType (orderFinals root).root).faces = (ofType root).faces := by
  unfold orderFinals
  refine List.foldlRecOn
    (motive := fun o : FinalOrdering => (ofType o.root).faces
      = (ofType root).faces) _ _ rfl ?_
  intro o ho ⟨key, isDependent⟩ _
  refine (map_typesAt_modifyTypeAt (fun _ _ => rfl)
    (fun d => (Touches.turn _ _ isDependent d).nested)
    (fun d => (face_placeField ..).trans ?_) _ _ _).trans ho
  split
  · exact face_moveInit key.index d
  · rfl

-- ======================================================== what stays in place

/-- What becomes of a type at least: fields that are not final, or static, keep
their initial values, and constructors do first what they did. -/
structure Retains (d d' : TypeDecl) : Prop where
  fields : ∀ (i : Nat) (f : Field), d.fields[i]? = some f →
    f.modifiers.isFinal = false ∨ f.modifiers.isStatic = true →
      ∃ f', d'.fields[i]? = some f' ∧ f'.init = f.init
  constructors : ∃ ss, d'.constructors = appended ss d.constructors

/-- A field that does not move keeps its initial value. -/
theorem Initialized.init_eq {moved : List FinalField} {i : Nat}
    (h : Initialized moved path d d')
    (hi : ⟨path, i⟩ ∉ moved) (hf : d.fields[i]? = some f) :
    ∃ f', d'.fields[i]? = some f' ∧ f'.init = f.init := by
  have hsame := h.field hi
  rw [hf] at hsame
  obtain ⟨f', hf', hplaced⟩ := Option.map_eq_some_iff.1 hsame
  exact ⟨f', hf', (same_of_unplaced hplaced).2.2⟩

/-- A field that has an initial value in the end did not move, and had it
before. -/
theorem Initialized.stays {moved : List FinalField} {i : Nat} {init : Expr}
    (h : Initialized moved path d d') (hg : d'.fields[i]? = some g)
    (hinit : g.init = some init) :
    ⟨path, i⟩ ∉ moved
      ∧ ∃ f, d.fields[i]? = some f ∧ f.modifiers = g.modifiers
      ∧ f.init = some init := by
  have hsame := h.fields i
  rw [hg] at hsame
  obtain ⟨f, hf, hplaced⟩ := Option.map_eq_some_iff.1 hsame.symm
  split at hplaced
  · have hnone := (same_of_unplaced hplaced).2.2
    rw [hinit] at hnone
    cases hnone
  · rename_i hi
    obtain ⟨-, hmodifiers, hvalue⟩ := same_of_unplaced hplaced
    exact ⟨hi, f, hf, hmodifiers, hvalue.trans hinit⟩

theorem Settles.retains {D : FinalField → FinalField → Prop}
    {order : List FinalField} {o : FinalOrdering} (h : Settles root D order o)
    (path : TypePath) :
    Option.Rel Retains (typeAt? path root) (typeAt? path o.root) := by
  refine rel_of_map_eq (g := id) (k := id) (h.types path) rfl
    fun d d' t hd hd' ht => ?_
  obtain rfl : t = d' := ht
  refine ⟨fun i f hf hstays => hd'.init_eq (fun hmem => ?_) hf, ?_⟩
  · obtain ⟨d₁, f₁, hf₁, hstatic, -⟩ := (h.moves _).1 hmem
    obtain rfl := Option.some.inj (hd.symm.trans hf₁.type)
    obtain rfl := Option.some.inj (hf.symm.trans hf₁.field)
    rcases hstays with hfinal | hstatic'
    · rw [hf₁.isFinal] at hfinal
      cases hfinal
    · rw [hstatic] at hstatic'
      cases hstatic'
  · obtain ⟨ss, -, hconstructors⟩ := hd'.constructors
    exact ⟨ss, hconstructors⟩

/-- If no final field depends on itself, the initial value of a final field
that is not static and keeps it reads no final field that loses its own,
neither itself nor by the methods that it calls. The initial values of other
fields and what constructors do already take no part. -/
theorem orderFinals_reads_no_moved
    (hacyclic : ∀ key, ¬ TransGen (Needs root) key key) :
    (∀ key d f init e dep, FinalAt (orderFinals root).root key d f →
        f.modifiers.isStatic = false → f.init = some init →
        (ofType (orderFinals root).root).Evaluates init.subterms e →
        (ofType (orderFinals root).root).read? e = some dep →
        ¬ LosesInit root (orderFinals root).root dep)
      ∧ ∀ path, Option.Rel Retains (typeAt? path root)
        (typeAt? path (orderFinals root).root) := by
  have hsettles := orderFinals_settles hacyclic
  have hfaces := faces_orderFinals root
  refine ⟨fun key d' g init e dep hg hstatic hinit he hread hloses => ?_,
    hsettles.retains⟩
  obtain ⟨d, hd, hinitialized⟩ :=
    exists_of_rel_some (hg.type ▸ hsettles.types key.path)
  obtain ⟨hstays, f, hf, hmodifiers, hvalue⟩ :=
    hinitialized.stays hg.field hinit
  have hfinal : FinalAt root key d f := ⟨hd, hf, hmodifiers ▸ hg.isFinal⟩
  by_cases hself : dep = key
  · have hkept : initOf? (orderFinals root).root dep = some init := by
      unfold initOf?
      rw [hself, hg.type, Option.bind_some, hg.field, Option.bind_some, hinit]
    rw [LosesInit, hkept] at hloses
    cases hloses.2
  · -- what it reads it depends on, so it would have moved
    have hneeds : Needs root key dep :=
      ⟨hself, d, f, init, e, hfinal, hvalue,
        (he.congr hfaces).mono (subterms_subset_startExprs init),
        (read?_congr hfaces) ▸ hread⟩
    refine hstays ((hsettles.moves key).2 ⟨d, f, hfinal, hmodifiers ▸ hstatic,
      ?_, dep, hneeds⟩)
    rw [hvalue]
    exact Option.some_ne_none init

/-- The field that stays reads neither of the two that move. -/
theorem orderFinals_reads_no_moved_chained :
    (∀ key, ¬ TransGen (Needs chainedType) key key)
    ∧ ∃ f init, (orderFinals chainedType).root.fields[1]? = some f
    ∧ f.init = some init
      ∧ (∀ e dep, (ofType (orderFinals chainedType).root).Evaluates
        init.subterms e →
        (ofType (orderFinals chainedType).root).read? e = some dep →
        ¬ LosesInit chainedType (orderFinals chainedType).root dep)
      ∧ LosesInit chainedType (orderFinals chainedType).root ⟨[], 0⟩
      ∧ LosesInit chainedType (orderFinals chainedType).root ⟨[], 2⟩ := by
  have hacyclic : ∀ key, ¬ TransGen (Needs chainedType) key key :=
    acyclic_of_rank (fun key => [1, 0, 2].getD key.index 0) (by decide +kernel)
  obtain ⟨hreads, -⟩ := orderFinals_reads_no_moved hacyclic
  obtain ⟨f, hf, hstays⟩ := (Option.any_eq_true
    (fun f : Field =>
      f.modifiers.isFinal && !f.modifiers.isStatic && f.init.isSome)
    ((orderFinals chainedType).root.fields[1]?)).1 (by decide +kernel)
  simp only [Bool.and_eq_true, Bool.not_eq_true'] at hstays
  obtain ⟨⟨hfinal, hstatic⟩, hvalue⟩ := hstays
  obtain ⟨init, hinit⟩ := Option.isSome_iff_exists.1 hvalue
  refine ⟨hacyclic, f, init, hf, hinit,
    fun e dep => ?_, by decide +kernel, by decide +kernel⟩
  exact hreads ⟨[], 1⟩ _ f init e dep ⟨rfl, hf, hfinal⟩ hstatic hinit

/-- A type with a final field that moves, which a field that is not final, a
static one and a constructor read. -/
def overtakenType : TypeDecl :=
  let read (name : String) : Expr := .field none ⟨"Merged", name⟩
  { name := "Merged"
    fields := [finalInt "base" (.literal (.int 4)),
      finalInt "total" (read "base"),
      { name := "copy", type := .int, init := some (read "total") },
      { finalInt "shared" (read "total") with
        modifiers := { isStatic := true, isFinal := true } }]
    constructors :=
    [{ body := [.expr (.assign none (read "copy") (read "total"))] }] }

/-- Each of them reads it before it is assigned. -/
theorem orderFinals_reads_moved :
    (∀ key, ¬ TransGen (Needs overtakenType) key key)
    ∧ ∃ root' dep, root' = (orderFinals overtakenType).root ∧ dep.path = []
      ∧ LosesInit overtakenType root' dep
      ∧ (∃ f ∈ root'.fields, f.modifiers.isFinal = false
        ∧ f.modifiers.isStatic = false
        ∧ ∃ e ∈ Node.exprs f.nodes, (ofType root').read? e = some dep)
      ∧ (∃ f ∈ root'.fields, f.modifiers.isFinal = true
        ∧ f.modifiers.isStatic = true
        ∧ ∃ e ∈ Node.exprs f.nodes, (ofType root').read? e = some dep)
      ∧ ∃ c ∈ root'.constructors, ∃ s ∈ c.body.dropLast,
        ∃ e ∈ Node.exprs s.nodes, (ofType root').read? e = some dep := by
  refine ⟨acyclic_of_rank FinalField.index (by decide +kernel), _,
    ⟨[], 1⟩, rfl, ?_⟩
  decide +kernel

end Stagewise.Output
