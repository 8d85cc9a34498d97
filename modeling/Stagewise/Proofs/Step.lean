/-
Running the steps of a compilation.

A step is a failure over state; `runOn` gives its outcome and the state it
leaves. The equations here compute it for each way in which steps are
made, so that no later proof opens the monad.

`Ensures` is partial correctness: what holds of the answer and of the
state left behind whenever a step succeeds. Its rules follow the ways in
which steps are made, and the loop rules carry an invariant along a list.
-/
import Stagewise.Compilation

namespace Stagewise.Step

variable {α β γ : Type} {c c' : Compilation}

-- ================================================================ equations

@[simp] theorem runOn_pure (a : α) (c : Compilation) :
    (pure a : Step α).runOn c = (.ok a, c) := rfl

@[simp] theorem runOn_get (c : Compilation) :
    (get : Step Compilation).runOn c = (.ok c, c) := rfl

@[simp] theorem runOn_modify (f : Compilation → Compilation)
    (c : Compilation) :
    (modify f : Step Unit).runOn c = (.ok (), f c) := rfl

@[simp] theorem runOn_throw (e : Failure) (c : Compilation) :
    (throw e : Step α).runOn c = (.error e, c) := rfl

@[simp] theorem runOn_ofExcept (r : Except Failure α) (c : Compilation) :
    (ofExcept r : Step α).runOn c = (r, c) := by
  cases r <;> rfl

/-- The first part of a sequence decides whether the second one runs. -/
theorem runOn_bind (x : Step α) (f : α → Step β) (c : Compilation) :
    (x >>= f).runOn c = match x.runOn c with
      | (.ok a, c₁) => (f a).runOn c₁
      | (.error e, c₁) => (.error e, c₁) := by
  show (ExceptT.bindCont f (x.runOn c).1 : StateM Compilation _)
    (x.runOn c).2 = _
  rcases x.runOn c with ⟨_ | a, c₁⟩
  · rfl
  · rfl

theorem runOn_map (f : α → β) (x : Step α) (c : Compilation) :
    (f <$> x).runOn c = match x.runOn c with
      | (.ok a, c₁) => (.ok (f a), c₁)
      | (.error e, c₁) => (.error e, c₁) := by
  rw [map_eq_pure_bind, runOn_bind]
  rcases x.runOn c with ⟨_ | a, c₁⟩
  · rfl
  · rfl

/-- A loop whose turns all do nothing does nothing. -/
theorem runOn_forM_of_unchanged {as : List α} {f : α → Step Unit}
    (h : ∀ a ∈ as, (f a).runOn c = (.ok (), c)) :
    (as.forM f).runOn c = (.ok (), c) := by
  induction as with
  | nil => rfl
  | cons a as ih =>
      show (f a >>= fun _ => as.forM f).runOn c = _
      rw [runOn_bind, h a List.mem_cons_self]
      exact ih fun a ha => h a (List.mem_cons_of_mem _ ha)

theorem exists_eq_ok {r : Except Failure α} (h : r.isOk = true) :
    ∃ a, r = .ok a := by
  cases r with
  | error e => cases h
  | ok a => exact ⟨a, rfl⟩

theorem eq_ok_of_toOption {r : Except Failure α} {a : α}
    (h : r.toOption = some a) :
    r = .ok a := by
  cases r with
  | error e => cases h
  | ok b => exact congrArg _ (Option.some.inj h)

/-- An answer of which something is known is there. -/
theorem exists_eq_ok_of_map {f : α → β} {r : Except Failure α} {b : β}
    (h : r.toOption.map f = some b) : ∃ a, r = .ok a ∧ f a = b := by
  obtain ⟨a, ha, hb⟩ := Option.map_eq_some_iff.1 h
  exact ⟨a, eq_ok_of_toOption ha, hb⟩

/-- A run that succeeds has an answer. -/
theorem exists_runOn_eq {x : Step α} (h : (x.runOn c).1.isOk = true) :
    ∃ a, x.runOn c = (.ok a, (x.runOn c).2) := by
  obtain ⟨a, ha⟩ := exists_eq_ok h
  exact ⟨a, Prod.ext ha rfl⟩

-- ================================================================= success

/-- That a step never fails. -/
def Succeeds (x : Step α) : Prop := ∀ c, (x.runOn c).1.isOk = true

theorem Succeeds.bind {x : Step α} {f : α → Step β} (hx : Succeeds x)
    (hf : ∀ a, Succeeds (f a)) : Succeeds (x >>= f) := by
  intro c
  obtain ⟨a, ha⟩ := exists_runOn_eq (hx c)
  rw [runOn_bind, ha]
  exact hf a _

theorem Succeeds.mapM {as : List α} {f : α → Step β}
    (hf : ∀ a, Succeeds (f a)) :
    Succeeds (as.mapM f) := by
  induction as with
  | nil => exact fun _ => rfl
  | cons a as ih =>
      rw [List.mapM_cons]
      exact (hf a).bind fun _ => ih.bind fun _ _ => rfl

-- ====================================================== partial correctness

/-- That a step, run on `c`, leaves an answer and a state with `Q` whenever
it succeeds. -/
def Ensures (x : Step α) (c : Compilation) (Q : α → Compilation → Prop) :
    Prop :=
  ∀ a c', x.runOn c = (.ok a, c') → Q a c'

variable {x : Step α} {Q R : α → Compilation → Prop}

/-- What is ensured may be weakened. -/
theorem Ensures.mono (h : Ensures x c Q) (hQR : ∀ a c', Q a c' → R a c') :
    Ensures x c R :=
  fun a c' hrun => hQR a c' (h a c' hrun)

theorem Ensures.and (h : Ensures x c Q) (h' : Ensures x c R) :
    Ensures x c fun a c' => Q a c' ∧ R a c' :=
  fun a c' hrun => ⟨h a c' hrun, h' a c' hrun⟩

@[simp] theorem ensures_pure {a : α} : Ensures (pure a) c Q ↔ Q a c := by
  unfold Ensures
  simp

@[simp] theorem ensures_get {Q : Compilation → Compilation → Prop} :
    Ensures get c Q ↔ Q c c := by
  unfold Ensures
  simp

@[simp] theorem ensures_modify {f : Compilation → Compilation}
    {Q : Unit → Compilation → Prop} : Ensures (modify f) c Q ↔ Q () (f c) := by
  unfold Ensures
  simp only [runOn_modify, Prod.mk.injEq]
  exact ⟨fun h => h () _ ⟨trivial, rfl⟩, fun h _ _ hrun => hrun.2 ▸ h⟩

@[simp] theorem ensures_throw {e : Failure} :
    Ensures (throw e : Step α) c Q := by
  intro a c' h
  simp at h

@[simp] theorem ensures_ofExcept {r : Except Failure α} :
    Ensures (ofExcept r) c Q ↔ ∀ a, r = .ok a → Q a c := by
  unfold Ensures
  simp only [runOn_ofExcept, Prod.mk.injEq, and_imp]
  exact ⟨fun h a hr => h a c hr rfl, fun h a c' hr hc => hc ▸ h a hr⟩

theorem ensures_map {f : α → β} {Q : β → Compilation → Prop} :
    Ensures (f <$> x) c Q ↔ Ensures x c fun a c' => Q (f a) c' := by
  unfold Ensures
  constructor
  · intro h a c' hx
    refine h (f a) c' ?_
    rw [runOn_map, hx]
  · intro h b c' hfx
    rw [runOn_map] at hfx
    split at hfx
    · rename_i a c₁ hx
      obtain ⟨ha, rfl⟩ := Prod.mk.inj hfx
      exact Except.ok.inj ha ▸ h a c₁ hx
    · cases hfx

/-- A sequence ensures what its second part ensures of the first one's
answer and state. -/
@[simp] theorem ensures_bind {f : α → Step β} {Q : β → Compilation → Prop} :
    Ensures (x >>= f) c Q ↔ Ensures x c fun a c' => Ensures (f a) c' Q := by
  unfold Ensures
  constructor
  · intro h a c₁ hx b c₂ hf
    refine h b c₂ ?_
    rw [runOn_bind, hx]
    exact hf
  · intro h b c₂ hxf
    rw [runOn_bind] at hxf
    split at hxf
    · rename_i a c₁ hx
      exact h a c₁ hx b c₂ hxf
    · cases hxf

-- =================================================================== loops

variable {as : List α}

/-- A loop ensures what each turn carries on. The invariant may speak of
the turns already made, and a turn knows them. -/
theorem ensures_forM_split {f : α → Step Unit}
    {I : List α → Compilation → Prop}
    (hturn : ∀ done a, done ++ [a] <+: as → ∀ c, I done c →
      Ensures (f a) c fun _ c' => I (done ++ [a]) c') (h : I [] c) :
    Ensures (as.forM f) c fun _ c' => I as c' := by
  suffices hrest : ∀ rest done, done ++ rest = as → ∀ c, I done c →
      Ensures (rest.forM f) c fun _ c' => I as c' from hrest as [] rfl c h
  intro rest
  induction rest with
  | nil =>
      intro done hdone c h
      rw [List.append_nil] at hdone
      exact ensures_pure.2 (hdone ▸ h)
  | cons a rest ih =>
      intro done hdone c h
      have hsplit : done ++ [a] ++ rest = as := by
        rw [List.append_assoc]; exact hdone
      refine ensures_bind.2 ((hturn done a ⟨rest, hsplit⟩ c h).mono
        fun _ c₁ h₁ => ?_)
      exact ih (done ++ [a]) hsplit c₁ h₁

/-- `ensures_forM_split` where no two turns are the same. -/
theorem ensures_forM_nodup {f : α → Step Unit}
    {I : List α → Compilation → Prop}
    (hnodup : as.Nodup) (hturn : ∀ done, ∀ a ∈ as, a ∉ done → ∀ c, I done c →
      Ensures (f a) c fun _ c' => I (done ++ [a]) c') (h : I [] c) :
    Ensures (as.forM f) c fun _ c' => I as c' := by
  refine ensures_forM_split (fun done a hdone c hc => ?_) h
  have hmem : a ∈ as :=
    hdone.subset (List.mem_append_right _ (List.mem_singleton_self a))
  have hnew : a ∉ done := fun ha =>
    (List.nodup_append.1 (hnodup.sublist hdone.sublist)).2.2 a ha a
      (List.mem_singleton_self a) rfl
  exact hturn done a hmem hnew c hc

/-- `ensures_forM_split` where a turn need not know the turns already made. -/
theorem ensures_forM {f : α → Step Unit} {I : List α → Compilation → Prop}
    (hturn : ∀ done, ∀ a ∈ as, ∀ c, I done c →
      Ensures (f a) c fun _ c' => I (done ++ [a]) c') (h : I [] c) :
    Ensures (as.forM f) c fun _ c' => I as c' :=
  ensures_forM_split (fun done a hdone c hc => hturn done a
    (hdone.subset (List.mem_append_right _ (List.mem_singleton_self a))) c hc)
    h

/-- `ensures_forM` for a loop that carries a value. -/
theorem ensures_foldlM {f : β → α → Step β}
    {I : List α → β → Compilation → Prop} {b : β}
    (hturn : ∀ done, ∀ a ∈ as, ∀ b c, I done b c →
      Ensures (f b a) c fun b' c' => I (done ++ [a]) b' c') (h : I [] b c) :
    Ensures (as.foldlM f b) c fun b' c' => I as b' c' := by
  suffices hrest : ∀ rest done, done ++ rest = as → ∀ b c, I done b c →
      Ensures (rest.foldlM f b) c fun b' c' => I as b' c' from hrest as
        [] rfl b c h
  intro rest
  induction rest with
  | nil =>
      intro done hdone b c h
      rw [List.append_nil] at hdone
      exact ensures_pure.2 (hdone ▸ h)
  | cons a rest ih =>
      intro done hdone b c h
      have ha : a ∈ as := hdone ▸ List.mem_append_right _ List.mem_cons_self
      rw [List.foldlM_cons, ensures_bind]
      refine (hturn done a ha b c h).mono fun b₁ c₁ h₁ => ?_
      exact ih (done ++ [a]) (by rw [List.append_assoc]; exact hdone) b₁ c₁ h₁

/-- A loop whose turns only answer leaves the list of the answers. -/
theorem ensures_mapM_of_unchanged {f : α → Step β} {g : α → β}
    (h : ∀ a ∈ as, Ensures (f a) c fun b c' => b = g a ∧ c' = c) :
    Ensures (as.mapM f) c fun bs c' => bs = as.map g ∧ c' = c := by
  induction as with
  | nil => exact ensures_pure.2 ⟨rfl, rfl⟩
  | cons a as ih =>
      rw [List.mapM_cons, ensures_bind]
      refine (h a List.mem_cons_self).mono ?_
      intro _ _ hc
      obtain ⟨rfl, rfl⟩ := hc
      rw [ensures_bind]
      refine (ih fun a ha => h a (List.mem_cons_of_mem _ ha)).mono ?_
      intro _ _ hc
      obtain ⟨rfl, rfl⟩ := hc
      exact ensures_pure.2 ⟨rfl, rfl⟩

/-- `ensures_mapM` where a turn also knows which turns have been made. -/
theorem ensures_mapM_split {f : α → Step β} {I : List α → Compilation → Prop}
    (hturn : ∀ done a, done ++ [a] <+: as → ∀ c, I done c →
      Ensures (f a) c fun _ c' => I (done ++ [a]) c') (h : I [] c) :
    Ensures (as.mapM f) c fun _ c' => I as c' := by
  suffices hrest : ∀ rest done, done ++ rest = as → ∀ c, I done c →
      Ensures (rest.mapM f) c fun _ c' => I as c' from hrest as [] rfl c h
  intro rest
  induction rest with
  | nil =>
      intro done hdone c h
      rw [List.append_nil] at hdone
      exact ensures_pure.2 (hdone ▸ h)
  | cons a rest ih =>
      intro done hdone c h
      have hsplit : done ++ [a] ++ rest = as := by
        rw [List.append_assoc]; exact hdone
      rw [List.mapM_cons, ensures_bind]
      refine (hturn done a ⟨rest, hsplit⟩ c h).mono fun b c₁ h₁ => ?_
      rw [ensures_bind]
      refine (ih (done ++ [a]) hsplit c₁ h₁).mono ?_
      exact fun bs c₂ h₂ => ensures_pure.2 h₂

/-- `ensures_forM` for a loop with answers. -/
theorem ensures_mapM {f : α → Step β} {I : List α → Compilation → Prop}
    (hturn : ∀ done, ∀ a ∈ as, ∀ c, I done c →
      Ensures (f a) c fun _ c' => I (done ++ [a]) c') (h : I [] c) :
    Ensures (as.mapM f) c fun _ c' => I as c' :=
  ensures_mapM_split (fun done a hdone c hc => hturn done a
    (hdone.subset (List.mem_append_right _ (List.mem_singleton_self a))) c hc)
    h

-- ============================================================ named changes

@[simp] theorem ensures_modifySources {f : Sources → Sources}
    {Q : Unit → Compilation → Prop} :
    Ensures (modifySources f) c Q ↔ Q () { c with sources := f c.sources } :=
  ensures_modify

@[simp] theorem ensures_modifyBindings {f : Bindings → Bindings}
    {Q : Unit → Compilation → Prop} :
    Ensures (modifyBindings f) c Q
      ↔ Q () { c with bindings := f c.bindings } :=
  ensures_modify

@[simp] theorem ensures_modifyTree {f : Composition → Composition}
    {Q : Unit → Compilation → Prop} :
    Ensures (modifyTree f) c Q ↔ Q () { c with tree := f c.tree } :=
  ensures_modify

@[simp] theorem ensures_stage {n : DependencyId}
    {Q : Stage → Compilation → Prop} :
    Ensures (stage n) c Q ↔ ∀ s, (c.graph.get n).stage? = some s → Q s c := by
  unfold stage Compilation.stage
  rw [ensures_bind, ensures_get, ensures_ofExcept]
  refine forall_congr' fun s => imp_congr_left ?_
  cases (c.graph.get n).stage? with
  | none => simp
  | some s' => simp

@[simp] theorem ensures_bindMethod {method : Identity} {n : DependencyId}
    {role : Role} {Q : Unit → Compilation → Prop} :
    Ensures (bindMethod method n role) c Q ↔
      ∀ b, c.bindings.bindMethod method n role = .ok b →
        Q () { c with bindings := b } := by
  unfold bindMethod
  simp

end Stagewise.Step
