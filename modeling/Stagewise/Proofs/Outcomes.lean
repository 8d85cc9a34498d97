/-
How a step can end.

`Outcome` speaks of both ends of a step: it fails only as `F` allows, and
what it leaves when it succeeds is `Q`. With nothing allowed it says that
the step succeeds. Its rules follow the ways in which steps are made, as
those of `Ensures` do, and what a step ensures may be added to what it
leaves (`Outcome.and_ensures`).
-/
import Stagewise.Proofs.Step

namespace Stagewise.Step

variable {α β : Type} {c c' : Compilation} {F G : Failure → Prop}
variable {x : Step α} {Q R : α → Compilation → Prop}

-- ================================================================== both ends

/-- That a step, run on `c`, fails only with a failure of `F`, and leaves an
answer and a state with `Q` when it succeeds. -/
def Outcome (x : Step α) (c : Compilation) (F : Failure → Prop)
    (Q : α → Compilation → Prop) : Prop :=
  match x.runOn c with
  | (.ok a, c') => Q a c'
  | (.error e, _) => F e

theorem outcome_iff : Outcome x c F Q ↔
    Ensures x c Q ∧ ∀ e, (x.runOn c).1 = .error e → F e := by
  unfold Outcome Ensures
  rcases x.runOn c with ⟨e | a, c'⟩
  · simp
  · simp

theorem Outcome.ensures (h : Outcome x c F Q) : Ensures x c Q :=
  (outcome_iff.1 h).1

/-- What a step ensures is its outcome where any failure is allowed. -/
theorem outcome_true : Outcome x c (fun _ => True) Q ↔ Ensures x c Q :=
  outcome_iff.trans (and_iff_left fun _ _ => trivial)

theorem Ensures.outcome (h : Ensures x c Q) : Outcome x c (fun _ => True) Q :=
  outcome_true.2 h

theorem Outcome.fails (h : Outcome x c F Q) {e : Failure}
    (he : (x.runOn c).1 = .error e) : F e :=
  (outcome_iff.1 h).2 e he

theorem Outcome.mono (h : Outcome x c F Q) (hF : ∀ e, F e → G e)
    (hQ : ∀ a c', Q a c' → R a c') : Outcome x c G R := by
  obtain ⟨hensures, hfails⟩ := outcome_iff.1 h
  exact outcome_iff.2 ⟨hensures.mono hQ, fun e he => hF e (hfails e he)⟩

/-- What is left may be weakened. -/
theorem Outcome.leave (h : Outcome x c F Q) (hQ : ∀ a c', Q a c' → R a c') :
    Outcome x c F R :=
  h.mono (fun _ he => he) hQ

theorem Outcome.and_ensures (h : Outcome x c F Q) (h' : Ensures x c R) :
    Outcome x c F fun a c' => Q a c' ∧ R a c' := by
  obtain ⟨hensures, hfails⟩ := outcome_iff.1 h
  exact outcome_iff.2 ⟨hensures.and h', hfails⟩

-- ================================================================= the rules

@[simp] theorem outcome_pure {a : α} : Outcome (pure a) c F Q ↔ Q a c :=
  Iff.rfl

@[simp] theorem outcome_get {Q : Compilation → Compilation → Prop} :
    Outcome get c F Q ↔ Q c c := Iff.rfl

@[simp] theorem outcome_modify {f : Compilation → Compilation}
    {Q : Unit → Compilation → Prop} :
    Outcome (modify f) c F Q ↔ Q () (f c) := Iff.rfl

@[simp] theorem outcome_throw {e : Failure} :
    Outcome (throw e : Step α) c F Q ↔ F e := Iff.rfl

theorem outcome_ofExcept {r : Except Failure α} : Outcome (ofExcept r) c F Q ↔
    (∀ a, r = .ok a → Q a c) ∧ ∀ e, r = .error e → F e := by
  unfold Outcome
  rw [runOn_ofExcept]
  cases r with
  | error e => simp
  | ok a => simp

/-- A sequence ends as its second part does after the first one, or as the
first one fails. -/
@[simp] theorem outcome_bind {f : α → Step β} {Q : β → Compilation → Prop} :
    Outcome (x >>= f) c F Q
      ↔ Outcome x c F fun a c' => Outcome (f a) c' F Q := by
  unfold Outcome
  rw [runOn_bind]
  rcases x.runOn c with ⟨e | a, c'⟩
  · exact Iff.rfl
  · exact Iff.rfl

theorem outcome_map {f : α → β} {Q : β → Compilation → Prop} :
    Outcome (f <$> x) c F Q ↔ Outcome x c F fun a c' => Q (f a) c' := by
  unfold Outcome
  rw [runOn_map]
  rcases x.runOn c with ⟨e | a, c'⟩
  · exact Iff.rfl
  · exact Iff.rfl

-- ------------------------------------------------------------------- loops

variable {as : List α}

/-- A loop ends as its turns do, which carry an invariant along the list. -/
theorem outcome_foldlM {f : β → α → Step β}
    {I : List α → β → Compilation → Prop} {b : β}
    (hturn : ∀ done a rest, done ++ a :: rest = as → ∀ b c, I done b c →
      Outcome (f b a) c F fun b' c' => I (done ++ [a]) b' c') (h : I [] b c) :
    Outcome (as.foldlM f b) c F fun b' c' => I as b' c' := by
  suffices hrest : ∀ rest done, done ++ rest = as → ∀ b c, I done b c →
      Outcome (rest.foldlM f b) c F fun b' c' => I as b' c' from hrest as
        [] rfl b c h
  intro rest
  induction rest with
  | nil =>
      intro done hdone b c h
      rw [List.append_nil] at hdone
      exact outcome_pure.2 (hdone ▸ h)
  | cons a rest ih =>
      intro done hdone b c h
      rw [List.foldlM_cons, outcome_bind]
      refine (hturn done a rest hdone b c h).leave fun b₁ c₁ h₁ => ?_
      exact ih (done ++ [a]) (by rw [List.append_assoc]; exact hdone) b₁ c₁ h₁

/-- `outcome_foldlM` for a loop that carries no value. -/
theorem outcome_forM {f : α → Step Unit} {I : List α → Compilation → Prop}
    (hturn : ∀ done a rest, done ++ a :: rest = as → ∀ c, I done c →
      Outcome (f a) c F fun _ c' => I (done ++ [a]) c') (h : I [] c) :
    Outcome (as.forM f) c F fun _ c' => I as c' := by
  suffices hrest : ∀ rest done, done ++ rest = as → ∀ c, I done c →
      Outcome (rest.forM f) c F fun _ c' => I as c' from hrest as [] rfl c h
  intro rest
  induction rest with
  | nil =>
      intro done hdone c h
      rw [List.append_nil] at hdone
      exact outcome_pure.2 (hdone ▸ h)
  | cons a rest ih =>
      intro done hdone c h
      refine outcome_bind.2 ((hturn done a rest hdone c h).leave
        fun _ c₁ h₁ => ?_)
      exact ih (done ++ [a]) (by rw [List.append_assoc]; exact hdone) c₁ h₁

/-- `outcome_forM` for a loop with answers. -/
theorem outcome_mapM {f : α → Step β} {I : List α → Compilation → Prop}
    (hturn : ∀ done a rest, done ++ a :: rest = as → ∀ c, I done c →
      Outcome (f a) c F fun _ c' => I (done ++ [a]) c') (h : I [] c) :
    Outcome (as.mapM f) c F fun _ c' => I as c' := by
  suffices hrest : ∀ rest done, done ++ rest = as → ∀ c, I done c →
      Outcome (rest.mapM f) c F fun _ c' => I as c' from hrest as [] rfl c h
  intro rest
  induction rest with
  | nil =>
      intro done hdone c h
      rw [List.append_nil] at hdone
      exact outcome_pure.2 (hdone ▸ h)
  | cons a rest ih =>
      intro done hdone c h
      rw [List.mapM_cons, outcome_bind]
      refine (hturn done a rest hdone c h).leave fun b c₁ h₁ => ?_
      rw [outcome_bind]
      refine (ih (done ++ [a]) (by rw [List.append_assoc]; exact hdone) c₁
        h₁).leave ?_
      exact fun bs c₂ h₂ => outcome_pure.2 h₂

/-- A loop of questions that are all answered has its answers. -/
theorem outcome_mapM_of_unchanged {f : α → Step β} {g : α → β}
    (h : ∀ a ∈ as, Outcome (f a) c F fun b c' => b = g a ∧ c' = c) :
    Outcome (as.mapM f) c F fun bs c' => bs = as.map g ∧ c' = c := by
  induction as with
  | nil => exact outcome_pure.2 ⟨rfl, rfl⟩
  | cons a as ih =>
      rw [List.mapM_cons, outcome_bind]
      refine (h a List.mem_cons_self).leave ?_
      rintro _ _ ⟨rfl, rfl⟩
      rw [outcome_bind]
      refine (ih fun a ha => h a (List.mem_cons_of_mem _ ha)).leave ?_
      rintro _ _ ⟨rfl, rfl⟩
      exact outcome_pure.2 ⟨rfl, rfl⟩

-- ------------------------------------------------------------ named changes

@[simp] theorem outcome_modifySources {f : Sources → Sources}
    {Q : Unit → Compilation → Prop} :
    Outcome (modifySources f) c F Q ↔ Q () { c with sources := f c.sources } :=
  Iff.rfl

theorem outcome_stage {n : DependencyId} {Q : Stage → Compilation → Prop} :
    Outcome (stage n) c F Q ↔ (∀ s, (c.graph.get n).stage? = some s → Q s c)
      ∧ ((c.graph.get n).stage? = none →
        F (.foreignMember (c.graph.name n) "stage")) := by
  unfold stage Compilation.stage
  rw [outcome_bind, outcome_get, outcome_ofExcept]
  cases (c.graph.get n).stage? with
  | none => simp
  | some s => simp

theorem outcome_bindMethod {method : Identity} {n : DependencyId} {role : Role}
    {Q : Unit → Compilation → Prop} :
    Outcome (bindMethod method n role) c F Q ↔
      (∀ b, c.bindings.bindMethod method n role = .ok b →
        Q () { c with bindings := b })
        ∧ ∀ e, c.bindings.bindMethod method n role = .error e → F e := by
  unfold bindMethod modifyBindings
  rw [outcome_bind, outcome_get, outcome_bind, outcome_ofExcept]
  rfl

end Stagewise.Step
