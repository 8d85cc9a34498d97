/-
What the lifecycle leaves of the bodies of nodes.

When a node is prepared, its members are made, which keeps all bodies, and
statements are added to its init and close methods. The added statements
call made members and read local variables, so the fields that a body
accesses stay what they are (`Prepares`). This holds once every stage has
its close method, so that no close method is made on the way.
-/
import Stagewise.Lifecycle.Closing
import Stagewise.Proofs.Lifecycle.Bodies
import Stagewise.Proofs.Lifecycle.Runs
import Stagewise.Proofs.Program.Rewrite

namespace Stagewise

/-- The fields that a block accesses, in order. -/
def Block.fields (b : Block) : List FieldRef := b.exprs.filterMap Expr.field?

namespace Lifecycle

open Compilation Step

variable {K : Location → Prop} {c c' c₀ : Compilation} {n d : DependencyId}
variable {l : Location}

-- ============================================================ made members

theorem ensures_close_of_done (h : c.progress n .close = .done l) :
    Ensures (close n) c fun l' c' => l = l' ∧ c = c' := by
  intro l' c' hrun
  rw [runOn_close_of_done h] at hrun
  obtain ⟨hl, rfl⟩ := Prod.mk.inj hrun
  exact ⟨Except.ok.inj hl, rfl⟩

/-- Making the `doClose` method changes no method that is there, the close
method being so. What is made for the first time is new and copies the close
body. -/
theorem doClose_adds (h : Seated K c)
    (hclosed : ∀ s, (c.graph.get n).stage? = some s →
      ∃ l, c.progress n .close = .done l) :
    Ensures (doClose n) c fun l c' => Keeps c.sources.Has c c'
      ∧ c'.progress n .doClose = .done l ∧ c'.closing = c.closing
      ∧ (∀ m, m ≠ n → c'.progress m .doClose = c.progress m .doClose)
      ∧ ∀ close, c.progress n .close = .done close →
        c.progress n .doClose = .notStarted →
        ¬ c.sources.Has l
          ∧ (c'.sources.method l).body
            = some (c.sources.method close).bodyOrEmpty := by
  unfold doClose
  rw [ensures_bind]
  refine begin_ensures (a := .doClose) (fun _ => trivial) (fun _ => rfl)
    (fun _ _ => rfl) (fun l hl => ensures_pure.2 ?_) fun hn hnew => ?_
  · refine ⟨.refl _ c, hl, rfl, fun _ _ => rfl, fun _ _ hnew => ?_⟩
    cases hnew.symm.trans hl
  have hstart : Keeps c.sources.Has c (c.put n .inProgress .doClose) :=
    .start hn hnew
  obtain ⟨s, hs, -⟩ := hstart.nodes.offers hn
  obtain ⟨s₀, hs₀⟩ := hstart.nodes.stage_of_stage hs
  obtain ⟨made, hmade₀⟩ := hclosed s₀ hs₀
  have hmade := hstart.done hmade₀
  rw [ensures_bind]
  refine (ensures_close_of_done hmade).mono ?_
  rintro _ c₁ ⟨rfl, rfl⟩
  simp only [ensures_bind, ensures_get]
  have h₁ := h.keeps hstart
  have hids := mem_ids_of_stage? hs
  refine ((addMethod_adds h₁ hids rfl (by decide)).and
    ((addMethod_body h₁ hids).and addMethod_graph)).mono ?_
  rintro l c₂ ⟨⟨hk, hbound, hnot⟩, hbody, hgraph⟩
  have hnone : c₂.declared? n .doClose = none := by
    unfold declared?
    cases (c₂.graph.get n).stage? <;> rfl
  rw [ensures_modifyStage, ensures_pure]
  refine ⟨.finish hn hnew hk (made_of_undeclared hbound hnone (by simp)),
    progress_put_self ((hstart.trans hk).nodes.offers hn), ?_,
    fun m hm => ?_, ?_⟩
  · funext m
    rw [closing_mapStage]
    unfold closing
    rw [hgraph]
    exact closing_mapStage _ m
  · have hne : ¬ (m = n ∧ Artifact.doClose = .doClose) := fun he => hm he.1
    have hsame : c₂.progress m .doClose
        = (c.put n .inProgress .doClose).progress m .doClose := by
      unfold progress
      rw [hgraph]
    exact (progress_put_of_ne hne).trans (hsame.trans (progress_put_of_ne hne))
  · intro close hclose _
    obtain rfl := Progress.done.inj (hmade.symm.trans (hstart.done hclose))
    exact ⟨hnot, hbody⟩

theorem doClose_keeps (h : Seated K c) (hclosed : Closed c) :
    Ensures (doClose n) c fun _ c' => Keeps K c c' :=
  (doClose_adds h (hclosed n)).mono fun _ _ hadds =>
    hadds.1.weaken fun _ => h.has

/-- What closes one dependant leaves what the making of a method group's
answer leaves. -/
theorem closer_holds {within : Step (Option Location)} {I : Compilation → Prop}
    (hclosed : Closed c) (h : I c)
    (hwithin : Ensures within c fun _ c' => I c') :
    Ensures (if (c.graph.get d).isStage then some <$> close d else within) c
      fun _ c' => I c' := by
  split
  · rename_i hstage
    obtain ⟨s, hs⟩ := Option.isSome_iff_exists.1 hstage
    obtain ⟨l, hl⟩ := hclosed d s hs
    rw [ensures_map]
    exact (ensures_close_of_done hl).mono fun _ c' hc' => hc'.2 ▸ h
  · exact hwithin

/-- That a method closes the dependants of a node: it is bound as such, and has
the name of one. -/
structure IsCloser (c : Compilation) (n : DependencyId) (l : Location) :
    Prop where
  bound : c.Bound l n .closeDependants
  named : (c.sources.method l).name = Convention.closeDependantsName
    (c.graph.name n)

theorem IsCloser.keeps (h : IsCloser c n l) (hk : Keeps K c c') :
    IsCloser c' n l where
  bound := h.bound.keeps hk
  named := by rw [hk.methodName h.bound.1, hk.nodes.name, h.named]

theorem IsCloser.putClosing {m : DependencyId} {p : Progress (Option Location)}
    (h : IsCloser c m l) (hn : n ∈ c.graph.ids) :
    IsCloser (c.putClosing n p) m l where
  bound := h.bound
  named := by rw [(sameNodes_putClosing hn).name]; exact h.named

/-- That the close-dependants methods that are made are such. -/
def ClosersMade (c : Compilation) : Prop :=
  ∀ n l, c.closing n = .done (some l) → IsCloser c n l

theorem ClosersMade.keeps (h : ClosersMade c) (hk : Keeps K c c')
    (hclosing : c'.closing = c.closing) : ClosersMade c' :=
  fun n l hl => (h n l (by rwa [hclosing] at hl)).keeps hk

/-- Recording a close-dependants method that is one, or none. -/
theorem ClosersMade.putClosing {p : Progress (Option Location)}
    (h : ClosersMade c)
    (hn : n ∈ c.graph.ids) (hp : ∀ l, p = .done (some l) → IsCloser c n l) :
    ClosersMade (c.putClosing n p) := by
  intro m l hl
  by_cases hm : m = n
  · subst hm
    rw [closing_putClosing_self hn] at hl
    exact (hp l hl).putClosing hn
  · rw [closing_putClosing_of_ne hn hm] at hl
    exact (h m l hl).putClosing hn

/-- That methods were added, but no member of a stage made. -/
structure Appends (c c' : Compilation) : Prop where
  keeps : Keeps c.sources.Has c c'
  progress : c'.progress = c.progress
  closers : ClosersMade c → ClosersMade c'

theorem Appends.trans {c₁ : Compilation} (h : Appends c c₁)
    (h' : Appends c₁ c') :
    Appends c c' where
  keeps := h.keeps.trans (h'.keeps.weaken fun l hl =>
  (h.keeps.sources.heading l hl).1)
  progress := h'.progress.trans h.progress
  closers := h'.closers ∘ h.closers

theorem Appends.putClosing {c₁ : Compilation} {p : Progress (Option Location)}
    (h : Appends c c₁) (hn : n ∈ c.graph.ids)
    (hnew : c.closing n = .notStarted)
    (hp : ∀ l, p = .done (some l) → IsCloser c₁ n l) :
    Appends c (c₁.putClosing n p) where
  keeps := h.keeps.putClosing hn hnew
  progress := by
    funext m a
    rw [progress_putClosing (h.keeps.mem_ids.2 hn), h.progress]
  closers hc := (h.closers hc).putClosing (h.keeps.mem_ids.2 hn) hp

/-- Making a close-dependants method appends methods, the close methods being
there. -/
theorem closeDependantsWithin_appends {fuel : Nat} (h : Seated K c)
    (hclosed : Closed c) (hn : n ∈ c.graph.ids) :
    Ensures (closeDependantsWithin fuel n) c fun found c' =>
      Appends c c' ∧ (0 < fuel → c'.closing n = .done found) := by
  have hrefl : ∀ c, Appends c c := fun c => ⟨.refl _ c, rfl, id⟩
  induction fuel generalizing c n with
  | zero => exact ensures_pure.2 ⟨hrefl c,
      fun hlt => absurd hlt (Nat.lt_irrefl 0)⟩
  | succ fuel ih =>
      refine ensures_closeDependantsWithin
        (fun _ hfound => ⟨hrefl c, fun _ => hfound⟩)
        fun hnew => ?_
      have h₁ : Appends c (c.putClosing n .inProgress) :=
        (hrefl c).putClosing hn hnew nofun
      refine (ensures_closes (I := fun _ _ c' => Appends c c') ?_ h₁).mono
        fun closes c₂ h₂ => ?_
      · intro _ d hd closes c₂ h₂
        have hd₂ : d ∈ c₂.graph.ids :=
          h₂.keeps.mem_ids.2
            (h₁.keeps.mem_ids.1 (mem_ids_of_mem_sortedDependants hd))
        have hclosed₂ := hclosed.keeps h₂.keeps
        exact closer_holds hclosed₂ h₂
          ((ih (h.keeps h₂.keeps) hclosed₂ hd₂).mono
            fun _ c₃ h₃ => h₂.trans h₃.1)
      have hn₂ : n ∈ c₂.graph.ids := h₂.keeps.mem_ids.2 hn
      split
      · exact ⟨h₂.putClosing hn hnew nofun,
          fun _ => closing_putClosing_self hn₂⟩
      · have hw₂ := h.keeps h₂.keeps
        refine ((addMethod_adds hw₂ hn₂ rfl (by decide)).and
          ((addMethod_method hw₂ hn₂).and addMethod_graph)).mono ?_
        rintro l c₃ ⟨⟨hk, hbound, -⟩, ⟨-, hmethod⟩, hgraph⟩
        have hcloser : IsCloser c₃ n l := by
          refine ⟨hbound, ?_⟩
          rw [hmethod, Method.name_withIdentity, hk.nodes.name,
            h₂.keeps.nodes.name]
          rfl
        have h₃ : Appends c c₃ := by
          refine h₂.trans ⟨hk, ?_, fun hc => hc.keeps hk ?_⟩
          · unfold progress
            rw [hgraph]
          · unfold closing
            rw [hgraph]
        refine ⟨h₃.putClosing hn hnew fun l' hl' => ?_,
          fun _ => closing_putClosing_self (h₃.keeps.mem_ids.2 hn)⟩
        obtain rfl := Option.some.inj (Progress.done.inj hl')
        exact hcloser

theorem closeDependantsWithin_keeps {fuel : Nat} (h : Seated K c)
    (hclosed : Closed c) (hn : n ∈ c.graph.ids) :
    Ensures (closeDependantsWithin fuel n) c fun _ c' => Keeps K c c' :=
  (closeDependantsWithin_appends h hclosed hn).mono
    fun _ _ h' => h'.1.keeps.weaken fun _ => h.has

/-- A request for the close-dependants method of a node settles whether it
has one. -/
theorem closeDependants_appends (h : Seated K c) (hclosed : Closed c)
    (hn : n ∈ c.graph.ids) :
    Ensures (closeDependants n) c fun found c' =>
      Appends c c' ∧ c'.closing n = .done found := by
  unfold closeDependants
  rw [ensures_bind, ensures_get]
  exact (closeDependantsWithin_appends h hclosed hn).mono
    fun _ _ h' => ⟨h'.1, h'.2 (Nat.succ_pos _)⟩

theorem closeDependants_keeps (h : Seated K c) (hclosed : Closed c)
    (hn : n ∈ c.graph.ids) :
    Ensures (closeDependants n) c fun _ c' => Keeps K c c' :=
  (closeDependants_appends h hclosed hn).mono
    fun _ _ h' => h'.1.keeps.weaken fun _ => h.has

-- =========================================================== added statements

/-- That the bodies of `c₀` still access the same fields. -/
structure Prepares (c₀ c : Compilation) : Prop where
  later : Later c₀ c
  fields : ∀ l, HoldsBody c₀ l →
    (c.sources.method l).bodyOrEmpty.fields
    = (c₀.sources.method l).bodyOrEmpty.fields

theorem Prepares.keeps (h : Prepares c₀ c) (hk : Keeps (HoldsBody c₀) c c') :
    Prepares c₀ c' := by
  refine ⟨h.later.trans hk.later, fun l hl => ?_⟩
  rw [hk.sources.kept l hl]
  exact h.fields l hl

variable {f : Block → Block}

/-- A change of a body that adds no access of a field. -/
theorem Prepares.modifyBody (h : Prepares c₀ c)
    (hf : ∀ b, (f b).fields = b.fields) :
    Ensures (modifyBody l f) c fun _ c' => Prepares c₀ c' := by
  refine ensures_modifySources.2 ?_
  by_cases hl : c.sources.Has l
  · refine ⟨h.later.trans (.ofSources (.modifyMethod (fun _ => rfl) hl id)),
      fun l' hl' => ?_⟩
    show (((c.sources.modifyMethod l _).method l').bodyOrEmpty).fields = _
    rw [Sources.method_modifyMethod hl, ← h.fields l' hl']
    split
    · rename_i he
      rw [he]
      exact hf _
    · rfl
  · rw [Sources.modifyMethod_of_not_has hl]
    exact h

/-- Letting an init method close the dependants accesses no field. -/
theorem closeDependantsAfterInit_prepares (h : Prepares c₀ c)
    {predicate close init : Location} :
    Ensures (closeDependantsAfterInit n predicate close init) c fun _ c' =>
      Prepares c₀ c' := by
  refine ensures_closeDependantsAfterInit.2 (h.modifyBody fun b => ?_)
  simp [Block.fields, Stmt.nodes, Stmt.when, Stmt.nodesOfAll,
    Stmt.nodesOfBlock?, Expr.subterms, Expr.subtermsOfTarget,
    Expr.subtermsOfAll, Expr.field?, List.filterMap_cons]

/-- Letting the dependants be closed first accesses no field. -/
theorem closeDependantsFirst_prepares (h : Prepares c₀ c)
    {predicate close : Location} {dependants : Option Location} :
    Ensures (closeDependantsFirst n predicate close dependants) c fun _ c' =>
      Prepares c₀ c' := by
  refine ensures_closeDependantsFirst h fun d _ s _ => ?_
  refine Ensures.mono (ensures_forM (I := fun _ c' => Prepares c₀ c')
    (fun _ init _ c₁ h₁ => closeDependantsAfterInit_prepares h₁) h)
    fun _ c₁ h₁ => ?_
  refine h₁.modifyBody fun b => ?_
  simp [Block.fields, Stmt.nodes, Expr.subterms, Expr.subtermsOfTarget,
    Expr.subtermsOfAll, Expr.field?, List.filterMap_cons]

/-- Letting a close method return where the stage is not initialized
accesses no field. -/
theorem leave_prepares (h : Prepares c₀ c) {check : MethodRef} :
    Ensures (modifyBody l
      (.when (.unary .not (.call none check [])) (.ret none) :: ·)) c
        fun _ c' => Prepares c₀ c' := by
  refine h.modifyBody fun b => ?_
  simp [Block.fields, Stmt.nodes, Stmt.when, Stmt.nodesOfAll,
    Stmt.nodesOfBlock?, Expr.subterms, Expr.subtermsOfTarget,
    Expr.subtermsOfAll, Expr.field?, List.filterMap_cons]

/-- The last part of preparing a stage. -/
theorem leaveAndAccess_prepares (hw : Seated (HoldsBody c₀) c₀)
    (h : Prepares c₀ c) {predicate close doClose : Location} :
    Ensures (leaveAndAccess n predicate close doClose) c fun _ c' =>
      Prepares c₀ c' := by
  refine ensures_leaveAndAccess ?_ fun c₃ _ h₃ => ?_
  · exact (leave_prepares h).mono fun _ c₁ h₁ => leave_prepares h₁
  · exact (accessor_keeps (hw.keeps h₃.later)).mono fun _ c₄ hk =>
      h₃.keeps hk.1

/-- Preparing a node makes members and adds statements that access no
field. -/
theorem prepare_prepares (hw : Seated (HoldsBody c₀) c₀) (hclosed : Closed c₀)
    (hn : n ∈ c₀.graph.ids) (h : Prepares c₀ c) :
    Ensures (prepare n) c fun _ c' => Prepares c₀ c' := by
  have hdependants : ∀ {c}, Prepares c₀ c →
      Ensures (closeDependants n) c fun _ c' =>
      Keeps (HoldsBody c₀) c c' :=
        fun h => closeDependants_keeps (hw.keeps h.later)
    (hclosed.keeps h.later) (h.later.mem_ids.2 hn)
  refine ensures_prepare (fun _ => (hdependants h).mono fun _ _ hk =>
    h.keeps hk) fun s hs => ?_
  obtain ⟨l, hl⟩ := hclosed.keeps h.later n s hs
  refine (predicate_keeps (hw.keeps h.later)).mono fun predicate c₁ ⟨hk₁, _⟩ =>
    ?_
  have h₁ := h.keeps hk₁
  refine (hdependants h₁).mono fun dependants c₂ hk₂ => ?_
  have h₂ := h₁.keeps hk₂
  refine (ensures_close_of_done (hk₂.done (hk₁.done hl))).mono ?_
  rintro close c₂ ⟨-, rfl⟩
  refine (doClose_keeps (hw.keeps h₂.later) (hclosed.keeps h₂.later)).mono
    fun doClose c₃ hk₃ => ?_
  refine (closeDependantsFirst_prepares (h₂.keeps hk₃)).mono fun _ c₄ h₄ => ?_
  exact leaveAndAccess_prepares hw h₄

/-- Preparing all nodes leaves the bodies that there are with the fields
that they access. -/
theorem prepareNodes_prepares (hw : WellMade K c) (hclosed : Closed c) :
    Ensures prepareNodes c fun _ c' => Prepares c c' := by
  unfold prepareNodes
  simp only [ensures_bind, ensures_get, ensures_pure]
  have hbodies := hw.toSeated.ofBodies
  exact ensures_forM (I := fun _ c' => Prepares c c')
    (fun _ n hn c' h => prepare_prepares hbodies hclosed hn h)
    ⟨.refl _ c, fun _ _ => rfl⟩

end Lifecycle

end Stagewise
