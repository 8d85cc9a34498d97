/-
What the making of members can change.

A property that withstands the changes that the making of members comes to
(`Stable`) holds after the making of a member if it held before.

Such a property is that the declarations are those that there were, made
bodies apart (`Makes`).
-/
import Stagewise.Proofs.Lifecycle.Changes

namespace Stagewise.Lifecycle

open Compilation Step

-- ===================================================================== frames

/-- That a property withstands what the making of members does to the
stage at a node, to the bindings and to the declarations. -/
structure Stable (n : DependencyId) (I : Compilation → Prop) : Prop where
  stage : ∀ c f, I c → I (c.mapStage n f)
  bindings : ∀ c b, I c → I { c with bindings := b }
  append : ∀ c d (m : Method), (∀ body ∈ m.body, MadeBody c.sources body) →
    I c →
    I { c with sources := c.sources.modify d (·.addMethod m) }
  implement : ∀ c l body, MadeBody c.sources body → I c →
    I { c with sources := c.sources.modifyMethod l fun m =>
      { m.toConcrete with body := some body } }

namespace Stable

variable {n : DependencyId} {I : Compilation → Prop} {c c' : Compilation}

/-- What withstands each change withstands the making of a member. -/
theorem makings (h : Stable n I) (hc : I c) (hm : Makings n c c') : I c' := by
  induction hm with
  | refl => exact hc
  | tail _ hchange ih =>
      cases hchange with
      | stage _ _ => exact h.stage _ _ ih
      | bind _ _ => exact h.bindings _ _ ih
      | append _ hnew hbody _ =>
          refine h.bindings _ _ (h.append _ _ _ (fun body hmem => ?_) ih)
          obtain rfl := Option.some.inj (hnew.body.symm.trans hmem)
          exact hbody
      | implement _ hbody => exact h.implement _ _ _ hbody ih

theorem close (h : Stable n I) (hc : I c) :
    Ensures (close n) c fun _ c' => I c' :=
  (Makings.close .refl).mono fun _ _ hm => h.makings hc hm

theorem accessor (h : Stable n I) (hc : I c) (field : Identity) :
    Ensures (accessor n field) c fun _ c' => I c' :=
  (Makings.accessor .refl field).mono fun _ _ hm => h.makings hc hm

theorem guarded (h : Stable n I) (hc : I c) (method : Identity) :
    Ensures (guarded n method) c fun _ c' => I c' :=
  (Makings.guarded .refl method).mono fun _ _ hm => h.makings hc hm

end Stable

-- ===================================================== what declarations keep

/-- A made body depends on the names of the declarations and on their
fields. -/
theorem MadeBody.congr {s s' : Sources} {body : Block} (h : MadeBody s' body)
    (hname : ∀ d, s'.name d = s.name d)
    (hfield : ∀ l, s'.field l = s.field l) :
    MadeBody s body := by
  have hread : ∀ l, readOf s' l = readOf s l := fun l => by
    rw [readOf, readOf, hname, hfield]
  have hinit : ∀ l, initialOf s' l = initialOf s l := fun l => by
    rw [initialOf, initialOf, hfield]
  cases h with
  | predicate l type =>
      rw [hread, hinit]
      exact .predicate l type
  | reset l =>
      have hreset : resetOf s' l = resetOf s l := by
        rw [resetOf, resetOf, hread, hinit]
      rw [hreset]
      exact .reset l
  | accessor f hguard => exact .accessor f hguard
  | wrapper m params returns hguard => exact .wrapper m params returns hguard

/-- That declarations are as they were, but for bodies at some places and
for made ones. -/
structure Makes (P : Location → Prop) (s s' : Sources) : Prop where
  length : s'.decls.length = s.decls.length
  rest : ∀ d, { s'.get d with methods := [] } = { s.get d with methods := [] }
  body : ∀ l, s'.Has l →
    P l ∨ (s.Has l ∧ (s'.method l).body = (s.method l).body)
    ∨ ∀ body ∈ (s'.method l).body, MadeBody s body

namespace Makes

variable {P : Location → Prop} {s s' : Sources} {l : Location}

theorem refl (P : Location → Prop) (s : Sources) : Makes P s s :=
  ⟨rfl, fun _ => rfl, fun _ hl => Or.inr (Or.inl ⟨hl, rfl⟩)⟩

theorem name (h : Makes P s s') (d : DeclId) : s'.name d = s.name d := by
  have hname := congrArg TypeDecl.name (h.rest d)
  exact hname

theorem field (h : Makes P s s') (l : Location) : s'.field l = s.field l := by
  have hfields := congrArg TypeDecl.fields (h.rest l.decl)
  exact congrArg (·.getD l.index default) hfields

theorem madeBody (h : Makes P s s') {body : Block} (hbody : MadeBody s' body) :
    MadeBody s body :=
  hbody.congr h.name h.field

/-- A method with a made body may be appended. -/
theorem addMethod (h : Makes P s s') {m : Method}
    (hm : ∀ body ∈ m.body, MadeBody s' body) (d : DeclId) :
    Makes P s (s'.modify d (·.addMethod m)) := by
  by_cases hd : d.index < s'.decls.length
  · refine ⟨(Sources.length_modify d _).trans h.length, fun d' => ?_,
      fun l hl => ?_⟩
    · exact (Sources.get_modify_congr (f := (·.addMethod m))
        (g := fun t => { t with methods := [] }) (fun _ => rfl) d').trans
        (h.rest d')
    · rcases (Sources.has_addMethod hd).1 hl with hl | rfl
      · rw [Sources.method_addMethod_of_has hl]
        exact h.body l hl
      · rw [Sources.method_addMethod_next hd, Method.body_withIdentity]
        exact Or.inr (Or.inr fun body hbody => h.madeBody (hm body hbody))
  · rw [Sources.modify_of_not_lt hd]
    exact h

/-- The body at one of the places may change, and any may become a made
one. -/
theorem modifyMethod (h : Makes P s s') {f : Method → Method}
    (hf : P l ∨ ∀ body ∈ (f (s'.method l)).body, MadeBody s' body) :
    Makes P s (s'.modifyMethod l f) := by
  by_cases hhas : s'.Has l
  · refine ⟨(Sources.length_modify l.decl _).trans h.length, fun d' => ?_,
      fun l' hl' => ?_⟩
    · exact (Sources.get_modify_congr
        (f := fun t => { t with methods := t.methods.modify l.index f })
        (g := fun t => { t with methods := [] }) (fun _ => rfl) d').trans
        (h.rest d')
    · rw [Sources.method_modifyMethod hhas]
      split
      · rename_i he
        subst he
        exact hf.imp_right fun hmade => Or.inr fun body hbody =>
          h.madeBody (hmade body hbody)
      · exact h.body l' ((Sources.has_modifyMethod f).1 hl')
  · rw [Sources.modifyMethod_of_not_has hhas]
    exact h

end Makes

/-- The making of members makes bodies and changes nothing else. -/
theorem stable_makes (P : Location → Prop) (s : Sources) (n : DependencyId) :
    Stable n fun c => Makes P s c.sources where
  stage _ _ h := h
  bindings _ _ h := h
  append _ d _ hm h := h.addMethod hm d
  implement _ _ body hbody h := h.modifyMethod (Or.inr fun b hb => by
    obtain rfl : body = b := Option.some.inj hb
    exact hbody)

end Stagewise.Lifecycle
