/-
What replacing the formal parameters of a base comes to.

It is a change of types (`instantiate_eq_mapNames`), of which none shows where
a base is extended without arguments or passes its parameters on.
-/
import Stagewise.Merge.Instantiation
import Stagewise.Proofs.Program.Conversion

namespace Stagewise.Merge

variable {base derived : TypeDecl} {x : Script}

/-- What replaces a type when a base is merged into the declaration that
extends it. -/
def instantiated (base derived : TypeDecl) (t : TypeRef) : TypeRef :=
  ((substitute (substitutionOf base.typeParams
    ((derived.superclass.map TypeRef.args).getD []))).typeRef t).run

theorem substitute_renames (subst : TypeSubstitution) :
    Transformer.plainly.Renames (substitute subst)
      (NameMap.ofTypes fun t => ((substitute subst).typeRef t).run) where
  look := rfl
  enter := rfl
  leave e _ := by
    cases e with
    | self q => cases q <;> rfl
    | call t m args =>
        exact congrArg (Expr.call t · args) (MethodRef.mapTypes_id m).symm
    | _ => rfl
  types _ _ := rfl

/-- Where nothing is replaced a declaration stays as it is. -/
theorem substitute_nil (d : TypeDecl) :
    ((substitute []).typeDecl d).run = d := by
  have hwalk : substitute [] = Transformer.walk (m := Id) pure := by
    refine congrArg (fun enterType => ({ enterType } : Transformer Id))
      (funext fun t => ?_)
    split <;> rfl
  have hknows : Transformer.plainly.KnowsHook (m := Id) pure (fun _ e => e)
      fun _ _ => True :=
    fun e _ => ⟨rfl, fun _ _ _ => trivial⟩
  rw [hwalk]
  exact (Transformer.plainly.typeDecl_rewrites hknows.knows d ()).1.trans
    (d.rewrite_eq_self fun _ _ => rfl)

/-- Replacing formal parameters is a change of types. -/
theorem instantiate_eq_mapNames (base derived : TypeDecl) :
    (instantiate base derived).1
      = base.mapNames (NameMap.ofTypes (instantiated base derived)) := by
  have hrun : ∀ subst, ((substitute subst).typeDecl base).run
      = base.mapNames
        (NameMap.ofTypes fun t => ((substitute subst).typeRef t).run) :=
    fun subst =>
    (substitute_renames subst).typeDecl_holds base ()
  unfold instantiate instantiated
  dsimp only
  split
  · rename_i hempty
    have hnil : ∀ formals, substitutionOf formals [] = [] := fun formals => by
      unfold substitutionOf
      rw [List.zip_nil_right]
      rfl
    rw [List.isEmpty_iff.1 hempty, hnil, ← hrun, substitute_nil]
  · split
    · rename_i hnil
      rw [hnil, ← hrun, substitute_nil]
    · exact hrun _

theorem name_instantiate (base derived : TypeDecl) :
    (instantiate base derived).1.name = base.name := by
  rw [instantiate_eq_mapNames, TypeDecl.name_mapNames]

/-- The code of a base whose formal parameters have been replaced. -/
theorem mem_scripts_instantiate
    (hx : x ∈ (instantiate base derived).1.scripts) :
    ∃ y ∈ base.scripts, y.site = x.site
      ∧ x = y.convert { type := instantiated base derived } := by
  rw [instantiate_eq_mapNames, TypeDecl.scripts_mapNames] at hx
  obtain ⟨y, hy, rfl⟩ := List.mem_map.1 hx
  exact ⟨y, hy, rfl, rfl⟩

end Stagewise.Merge
