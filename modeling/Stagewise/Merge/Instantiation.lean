/-
Type arguments of an extends clause. Where a declaration extends its base
with arguments, the base's formal parameters are replaced by them
throughout the base. Where it extends the base without arguments, the
formal parameters stay and become parameters of the declaration.
-/
import Stagewise.Program.Transform

namespace Stagewise.Merge

/-- What replaces each formal parameter. -/
abbrev TypeSubstitution := List (String × TypeRef)

/-- Replaces formal parameters by their arguments, at once and without
going into an argument. -/
def substitute (subst : TypeSubstitution) : Transformer Id where
  enterType t := if t.isParam then subst.lookup t.name else none

/-- What an extends clause with these arguments replaces. A parameter
passed on under its own name needs no replacement; of two parameters of
one name the last one counts. -/
def substitutionOf (formals : List String) (args : List TypeRef) :
    TypeSubstitution :=
  ((formals.zip args).filter fun (formal, arg) =>
    !(arg.isParam && arg.name == formal)).reverse

/-- Append what a list does not hold yet, one by one. -/
def addNew {α : Type} [BEq α] (xs ys : List α) : List α :=
  ys.foldl (fun xs y => if xs.contains y then xs else xs ++ [y]) xs

theorem mem_addNew {α : Type} [BEq α] [LawfulBEq α] {x : α} {xs ys : List α} :
    x ∈ addNew xs ys ↔ x ∈ xs ∨ x ∈ ys := by
  induction ys generalizing xs with
  | nil => simp [addNew]
  | cons y ys ih =>
      rw [addNew, List.foldl_cons, ← addNew, ih]
      by_cases h : y ∈ xs
      · simp only [List.contains_iff_mem, h, if_true, List.mem_cons]
        constructor
        · rintro (hx | hx)
          · exact .inl hx
          · exact .inr (.inr hx)
        · rintro (hx | rfl | hx)
          · exact .inl hx
          · exact .inl h
          · exact .inr hx
      · simp [h, or_assoc]

theorem nodup_addNew {α : Type} [BEq α] [LawfulBEq α] {xs : List α}
    (h : xs.Nodup) (ys : List α) : (addNew xs ys).Nodup := by
  induction ys generalizing xs with
  | nil => exact h
  | cons y ys ih =>
      rw [addNew, List.foldl_cons, ← addNew]
      refine ih ?_
      split
      · exact h
      · rename_i hy
        simp only [List.contains_iff_mem] at hy
        refine List.nodup_append.2 ⟨h, by simp, ?_⟩
        rintro a ha b hb rfl
        exact hy (List.mem_singleton.1 hb ▸ ha)

/-- A base and the declaration extending it, with the base's formal
parameters replaced or passed on. -/
def instantiate (base derived : TypeDecl) : TypeDecl × TypeDecl :=
  let args := (derived.superclass.map TypeRef.args).getD []
  if args.isEmpty then
    (base, { derived with
      typeParams := addNew derived.typeParams base.typeParams })
  else
    match substitutionOf base.typeParams args with
    | [] => (base, derived)
    | subst => (((substitute subst).typeDecl base).run, derived)

end Stagewise.Merge
