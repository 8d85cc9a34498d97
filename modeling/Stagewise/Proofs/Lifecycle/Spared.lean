/-
Methods that no making of members changes.

A made member is appended, or it takes the place of an abstract method, or of
one that a field declares as its accessor. So a concrete method that no field
declares stays (`Spared`). What holds a body of a node stays too, being bound
as something else already. Both are `Fixed`.
-/
import Stagewise.Proofs.Lifecycle.Prepared
import Stagewise.Proofs.Lifecycle.Evolving

namespace Stagewise.Lifecycle

open Compilation Step

variable {K : Location → Prop} {c c' c₁ : Compilation} {n : DependencyId}
variable {l : Location}

-- ==================================================================== spared

/-- That no member is made of a method: it is concrete, and no field declares
it as its accessor. -/
structure Spared (c : Compilation) (l : Location) : Prop where
  has : c.sources.Has l
  concrete : (c.sources.method l).isAbstract = false
  undeclared : ∀ n i, c.declared? n (.accessor i) ≠ some l

theorem Spared.congr (h : Spared c l) (hhas : c'.sources.Has l)
    (hmethod : c'.sources.method l = c.sources.method l)
    (hnodes : SameNodes c c') :
    Spared c' l where
  has := hhas
  concrete := hmethod ▸ h.concrete
  undeclared n i := hnodes.declared? ▸ h.undeclared n i

/-- The making of members changes no such method. -/
theorem Makings.spares (h : Makings n c c') (hl : Spared c l) :
    c'.sources.Has l ∧ c'.sources.method l = c.sources.method l := by
  induction h with
  | refl => exact ⟨hl.has, rfl⟩
  | tail hbefore hchange ih =>
      obtain ⟨hhas, hmethod⟩ := ih
      have hl' := hl.congr hhas hmethod (Makings.sameNodes hbefore)
      cases hchange with
      | stage _ _ | bind _ _ => exact ⟨hhas, hmethod⟩
      | append hn _ _ _ =>
          refine ⟨?_, (Sources.method_addMethod_of_has hhas).trans hmethod⟩
          exact (Sources.Extends.addMethod _ _).has l hhas
      | @implement l' _ hawaits _ =>
          have hne : l ≠ l' := by
            rintro rfl
            rcases hawaits with habstract | ⟨i, hdeclared⟩
            · cases habstract.symm.trans hl'.concrete
            · exact hl'.undeclared n i hdeclared
          refine ⟨(Sources.has_modifyMethod _).2 hhas, Eq.trans ?_ hmethod⟩
          exact Sources.method_modifyMethod_of_ne hne _

-- ===================================================================== fixed

/-- That a location holds a body that is bound as such. -/
def BodyAt (c : Compilation) (l : Location) : Prop :=
  ∃ n r, c.Bound l n r ∧ r.isBody = true

/-- That no making of members changes a method. -/
def Fixed (c : Compilation) (l : Location) : Prop := BodyAt c l ∨ Spared c l

theorem Fixed.has (h : Fixed c l) : c.sources.Has l :=
  h.elim (fun ⟨_, _, hb, _⟩ => hb.1) Spared.has

theorem BodyAt.later (h : BodyAt c l) (hk : Later c c') : BodyAt c' l :=
  let ⟨n, r, hb, hr⟩ := h
  ⟨n, r, hb.keeps hk, hr⟩

theorem seated_bodyAt (h : Seated K c) : Seated (BodyAt c) c :=
  { h with bodies := fun _ hl => hl }

/-- That members were made, which changes no method that is fixed. -/
structure Fixes (c c' : Compilation) : Prop where
  later : Later c c'
  method : ∀ l, Fixed c l → c'.sources.method l = c.sources.method l

namespace Fixes

theorem fixed (h : Fixes c c') (hl : Fixed c l) : Fixed c' l := by
  refine Or.imp (fun hb => hb.later h.later) (fun hs => ?_) hl
  exact hs.congr (h.later.sources.heading l hs.has).1
    (h.method l hl) h.later.nodes

theorem trans (h : Fixes c c₁) (h' : Fixes c₁ c') : Fixes c c' where
  later := h.later.trans h'.later
  method l hl := (h'.method l (h.fixed hl)).trans (h.method l hl)

theorem refl (c : Compilation) : Fixes c c := ⟨.refl _ c, fun _ _ => rfl⟩

/-- Where no method is changed at all. -/
theorem ofKeeps (h : Keeps c.sources.Has c c') : Fixes c c' :=
  ⟨h.later, fun l hl => h.sources.kept l hl.has⟩

theorem ofMakings (hm : Makings n c c') (hk : Keeps (BodyAt c) c c') :
    Fixes c c' :=
  ⟨hk.later, fun l hl => hl.elim (hk.sources.kept l) fun hs =>
    (hm.spares hs).2⟩

end Fixes

theorem Makings.closing (h : Makings n c c') : c'.closing = c.closing :=
  (stable_closing c.closing).makings rfl h

theorem predicate_fixes (h : Seated K c) :
    Ensures (predicate n) c fun l c' =>
      Fixes c c' ∧ Makings n c c' ∧ c'.progress n .predicate = .done l :=
  ((predicate_keeps (seated_bodyAt h)).and (Makings.predicate .refl)).mono
    fun _ _ ⟨⟨hk, hl⟩, hm⟩ => ⟨.ofMakings hm hk, hm, hl⟩

theorem accessor_fixes (h : Seated K c) (field : Identity) :
    Ensures (accessor n field) c fun _ c' => Fixes c c' ∧ Makings n c c' :=
  ((accessor_keeps (seated_bodyAt h)).and (Makings.accessor .refl field)).mono
    fun _ _ ⟨⟨hk, _⟩, hm⟩ => ⟨.ofMakings hm hk, hm⟩

end Stagewise.Lifecycle
