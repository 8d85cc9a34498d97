/-
What the making of a stage's members changes.

The making of a member changes the stage's node, binds methods, appends
methods, and implements abstract ones; the bodies that it gives to methods
are of a few kinds (`MadeBody`). So a request leads from one state to
another by changes of four kinds (`Making`), whatever it does in which
order, and also where it makes further members on the way.
-/
import Mathlib.Logic.Relation
import Stagewise.Proofs.Lifecycle.Members

namespace Stagewise.Lifecycle

open Compilation Relation Step

-- ================================================================ made bodies

/-- The statements that make sure that a stage is initialized. -/
inductive IsGuard : Stmt → Prop
  | ensure (check init : MethodRef) :
      IsGuard (.when (.unary .not (.call none check []))
        (.expr (.call none init [])))
  | demand (check : MethodRef) (text : String) :
      IsGuard (.check (.call none check []) (some (.literal (.str text))))

/-- The bodies that are made for members: a predicate and a reset for a
sentinel, an accessor, and a wrapper that passes its parameters on. -/
inductive MadeBody (s : Sources) : Block → Prop
  | predicate (l : Location) (type : TypeRef) :
      MadeBody s [.ret
        (some (sentinelCheck (readOf s l) (initialOf s l) type))]
  | reset (l : Location) : MadeBody s (resetOf s l)
  | accessor {guard : Stmt} (f : FieldRef) :
      IsGuard guard → MadeBody s [guard, .ret (some (.field none f))]
  | wrapper {guard : Stmt} (m : MethodRef) (params : List Param)
      (returns : TypeRef) :
      IsGuard guard → MadeBody s [guard,
        if returns.isVoid
          then .expr (.call none m (params.map fun p => .var p.name))
        else .ret (some (.call none m (params.map fun p => .var p.name)))]

-- ================================================================ the changes

/-- A method as it is when it is appended: not identified yet, public, and
with a body. -/
structure IsNew (m : Method) (body : Block) : Prop where
  id : m.id = .unassigned
  modifiers : m.modifiers = .publicOnly
  body : m.body = some body

/-- That a method may get a body from a stage: it is abstract, or declared as
the accessor of a field. -/
def Awaits (c : Compilation) (n : DependencyId) (l : Location) : Prop :=
  (c.sources.method l).isAbstract = true ∨ ∃ i,
    c.declared? n (.accessor i) = some l

/-- One change in the making of a stage's members. The node stays as it was
discovered, and the `doClose` method is made apart from the others. A method
is bound to a node that there is, and a new one is so when it is appended to
the node's declaration. -/
inductive Making (n : DependencyId) (c : Compilation) : Compilation → Prop
  | stage {f : Stage → Stage} : (∀ s, (f s).unmade = s.unmade) →
      (∀ s, (f s).doClose = s.doClose) → Making n c (c.mapStage n f)
  | bind {method : Identity} {r : Role} {b : Bindings} : n ∈ c.graph.ids →
      c.bindings.bindMethod method n r = .ok b →
        Making n c { c with bindings := b }
  | append {m : Method} {body : Block} {r : Role} {b : Bindings} :
      n ∈ c.graph.ids → IsNew m body → MadeBody c.sources body →
      c.bindings.bindMethod
        ((c.sources.modify (c.graph.get n).decl (·.addMethod m)).method
          (c.sources.nextMethod (c.graph.get n).decl)).id n r = .ok b →
      Making n c { c with
        sources := c.sources.modify (c.graph.get n).decl (·.addMethod m),
          bindings := b }
  | implement {l : Location} {body : Block} :
      Awaits c n l → MadeBody c.sources body →
      Making n c { c with sources := c.sources.modifyMethod l fun m =>
        { m.toConcrete with body := some body } }

/-- What the making of a stage's members comes to. -/
abbrev Makings (n : DependencyId) : Compilation → Compilation → Prop :=
  ReflTransGen (Making n)

namespace Makings

variable {n : DependencyId} {c₀ c : Compilation} {l : Location} {r : Role}
variable {body : Block}

/-- The nodes stay. -/
theorem mem_ids (h : Makings n c₀ c) {m : DependencyId} :
    m ∈ c.graph.ids ↔ m ∈ c₀.graph.ids := by
  induction h with
  | refl => rfl
  | tail _ hchange ih =>
      cases hchange with
      | stage _ _ =>
          rw [← ih, DependencyGraph.mem_ids, DependencyGraph.mem_ids]
          exact Eq.to_iff
            (congrArg (m.index < ·) (DependencyGraph.length_modify _))
      | _ => exact ih

/-- Every node is the one that was discovered. -/
theorem sameNodes (h : Makings n c₀ c) : SameNodes c₀ c := by
  induction h with
  | refl => exact fun _ => rfl
  | tail _ hchange ih =>
      intro m
      refine Eq.trans ?_ (ih m)
      cases hchange with
      | stage hf _ => exact Compilation.unmade_mapStage hf m
      | _ => rfl

theorem modifyStage (h : Makings n c₀ c) {f : Stage → Stage}
    (hf : ∀ s, (f s).unmade = s.unmade)
    (hclose : ∀ s, (f s).doClose = s.doClose) :
    Ensures (modifyStage n f) c fun _ c' => Makings n c₀ c' :=
  ensures_modifyStage.2 (h.tail (.stage hf hclose))

theorem bindMethod (h : Makings n c₀ c) (hn : n ∈ c.graph.ids)
    (method : Identity) :
    Ensures (bindMethod method n r) c fun _ c' => Makings n c₀ c' :=
  ensures_bindMethod.2 fun _ hb => h.tail (.bind hn hb)

theorem addMethod (h : Makings n c₀ c) (hn : n ∈ c.graph.ids) {m : Method}
    (hm : IsNew m body) (hbody : MadeBody c.sources body) :
    Ensures (addMethod n m r) c fun _ c' => Makings n c₀ c' := by
  unfold Lifecycle.addMethod
  simp only [ensures_bind, ensures_get, ensures_modifySources,
    ensures_bindMethod, ensures_pure]
  exact fun _ hb => h.tail (.append hn hm hbody hb)

theorem implementBody (h : Makings n c₀ c) (hl : Awaits c n l)
    (hbody : MadeBody c.sources body) :
    Ensures (Lifecycle.implement l body) c fun _ c' => Makings n c₀ c' :=
  ensures_modifySources.2 (h.tail (.implement hl hbody))

/-- A procedure is new, with the body that it is given. -/
theorem isNew_procedure {name : String} {returns : TypeRef} :
    IsNew (procedure name returns body) body := ⟨rfl, rfl, rfl⟩

theorem begin (h : Makings n c₀ c) (artifact : String)
    {part : Stage → Progress Location}
    {put : Stage → Progress Location → Stage}
    (hput : ∀ s p, (put s p).unmade = s.unmade)
    (hclose : ∀ s p, (put s p).doClose = s.doClose) :
    Ensures (begin n artifact part put) c fun _ c' => Makings n c₀ c' := by
  unfold Lifecycle.begin
  simp only [ensures_bind, ensures_get, ensures_stage, ensures_ofExcept,
    ensures_pure]
  intro s _ q _
  exact modifyStage h (hput · _) (hclose · _)

theorem predicate (h : Makings n c₀ c) :
    Ensures (predicate n) c fun _ c' => Makings n c₀ c' := by
  have hend : ∀ l c, Makings n c₀ c → Ensures (do
      Step.modifyStage n fun s => { s with predicate := .done l }
      return l) c fun _ c' => Makings n c₀ c' := by
    intro l c hc
    simp only [ensures_bind, ensures_pure]
    exact modifyStage hc (fun _ => by rfl) fun _ => by rfl
  unfold Lifecycle.predicate
  rw [ensures_bind]
  refine (begin h _ (fun _ _ => by rfl) fun _ _ => by rfl).mono
    fun found c₁ h₁ => ?_
  cases found with
  | some l => exact ensures_pure.2 h₁
  | none =>
      simp only [ensures_bind, ensures_stage]
      intro s hs
      split
      · rename_i l hl
        simp only [ensures_bind, ensures_get]
        split
        · exact hend _ c₁ h₁
        · rename_i hconcrete
          have habstract : (c₁.sources.method l).isAbstract = true := by
            simpa [Stage.hasConcretePredicate, hl] using hconcrete
          rw [ensures_bind]
          refine sentinelParts_exact.mono ?_
          rintro _ c₂ ⟨rfl, s, f, -, -, rfl⟩
          rw [ensures_bind]
          exact (implementBody h₁ (.inl habstract)
            (.predicate f.location _)).mono
            fun _ c₃ h₃ => hend _ c₃ h₃
      · simp only [ensures_bind, ensures_get]
        refine sentinelParts_exact.mono ?_
        rintro _ c₂ ⟨rfl, s, f, -, -, rfl⟩
        refine (addMethod h₁ (mem_ids_of_stage? hs) isNew_procedure
          (.predicate f.location _)).mono ?_
        exact fun l c₃ h₃ => ensures_bind.1 (hend l c₃ h₃)

theorem close (h : Makings n c₀ c) :
    Ensures (close n) c fun _ c' => Makings n c₀ c' := by
  have hend : ∀ l c, Makings n c₀ c → Ensures (do
      Step.modifyStage n fun s => { s with close := .done l }
      return l) c fun _ c' => Makings n c₀ c' := by
    intro l c hc
    simp only [ensures_bind, ensures_pure]
    exact modifyStage hc (fun _ => by rfl) fun _ => by rfl
  have hmark : ∀ c, Makings n c₀ c → Ensures (Step.modifyStage n fun s =>
      { s with closeIsGenerated := true }) c fun _ c' => Makings n c₀ c' :=
    fun _ hc => modifyStage hc (fun _ => by rfl) fun _ => by rfl
  unfold Lifecycle.close
  rw [ensures_bind]
  refine (begin h _ (fun _ _ => by rfl) fun _ _ => by rfl).mono
    fun found c₁ h₁ => ?_
  cases found with
  | some l => exact ensures_pure.2 h₁
  | none =>
      simp only [ensures_bind, ensures_stage]
      intro s hs
      split
      · rename_i l hl
        simp only [ensures_bind, ensures_get]
        split
        · exact hend _ c₁ h₁
        · rename_i hconcrete
          have habstract : (c₁.sources.method l).isAbstract = true := by
            simpa [Stage.hasConcreteClose, hl] using hconcrete
          rw [ensures_bind]
          refine resetBody_exact.mono ?_
          rintro _ c₂ ⟨rfl, s, f, -, -, rfl⟩
          rw [ensures_bind]
          refine (implementBody h₁ (.inl habstract) (.reset f.location)).mono
            fun _ c₃ h₃ => ?_
          rw [ensures_bind]
          exact (hmark c₃ h₃).mono fun _ c₄ h₄ => hend _ c₄ h₄
      · simp only [ensures_bind, ensures_get]
        refine resetBody_exact.mono ?_
        rintro _ c₂ ⟨rfl, s, f, -, -, rfl⟩
        refine (addMethod h₁ (mem_ids_of_stage? hs) isNew_procedure
          (.reset f.location)).mono ?_
        intro l c₃ h₃
        refine (hmark c₃ h₃).mono fun _ c₄ h₄ => ?_
        exact ensures_pure.2 (ensures_bind.1 (hend l c₄ h₄))

theorem guardStatement (h : Makings n c₀ c) :
    Ensures (guardStatement n) c fun guard c' =>
      Makings n c₀ c' ∧ IsGuard guard := by
  refine ensures_guardStatement ((predicate h).mono fun l c₁ h₁ s _ => ?_)
  exact ⟨fun _ _ => ⟨h₁, .ensure _ _⟩, fun _ => ⟨h₁, .demand _ _⟩⟩

theorem accessor (h : Makings n c₀ c) (field : Identity) :
    Ensures (accessor n field) c fun _ c' => Makings n c₀ c' := by
  have hput : ∀ (i : Nat) p c, Makings n c₀ c →
      Ensures (Step.modifyStage n fun s =>
        s.put p (.accessor i)) c fun _ c' => Makings n c₀ c' :=
    fun _ _ _ hc => modifyStage hc (fun _ => Stage.unmade_put) fun _ => by rfl
  unfold Lifecycle.accessor
  simp only [ensures_bind, ensures_get, ensures_stage]
  intro s hs
  have hn := h.mem_ids.1 (mem_ids_of_stage? hs)
  split
  · exact ensures_throw
  rename_i i hi
  have hdeclared : c₀.declared? n (.accessor i)
      = (s.fields.getD i default).declaredAccessor := by
    rw [← Stage.declared?_accessor
      (Stage.offers_accessor hi), ← declared?_eq hs]
    exact h.sameNodes.declared?.symm
  simp only [ensures_bind, ensures_ofExcept]
  intro q _
  refine (hput _ _ _ h).mono fun _ c₁ h₁ => ?_
  split
  · simp only [ensures_bind, ensures_get, ensures_pure]
    exact h₁
  simp only [ensures_bind, ensures_get]
  refine (guardStatement h₁).mono fun guard c₂ h₂ => ?_
  obtain ⟨h₂, hguard⟩ := h₂
  split
  · rename_i l hl
    have hawaits : Awaits c₂ n l :=
      .inr ⟨i, h₂.sameNodes.declared?.trans (hdeclared.trans hl)⟩
    simp only [ensures_bind, ensures_get, ensures_pure]
    refine (implementBody h₂ hawaits (.accessor _ hguard)).mono
      fun _ c₃ h₃ => ?_
    refine (bindMethod h₃ (h₃.mem_ids.2 hn) _).mono fun _ c₄ h₄ => ?_
    exact hput _ _ _ h₄
  · simp only [ensures_bind, ensures_get, ensures_pure]
    refine (addMethod h₂ (h₂.mem_ids.2 hn) isNew_procedure
      (.accessor _ hguard)).mono ?_
    exact fun l c₃ h₃ => hput _ _ _ h₃

theorem guarded (h : Makings n c₀ c) (method : Identity) :
    Ensures (guarded n method) c fun _ c' => Makings n c₀ c' := by
  have hput : ∀ (i : Nat) p c, Makings n c₀ c →
      Ensures (Step.modifyStage n fun s =>
        s.put p (.guarded i)) c fun _ c' => Makings n c₀ c' :=
    fun _ _ _ hc => modifyStage hc (fun _ => Stage.unmade_put) fun _ => by rfl
  unfold Lifecycle.guarded
  simp only [ensures_bind, ensures_get, ensures_stage]
  intro s hs
  have hn := h.mem_ids.1 (mem_ids_of_stage? hs)
  split
  · exact ensures_throw
  simp only [ensures_bind, ensures_ofExcept]
  intro q _
  refine (hput _ _ _ h).mono fun _ c₁ h₁ => ?_
  split
  · simp only [ensures_bind, ensures_get, ensures_pure]
    exact h₁
  simp only [ensures_bind, ensures_get, ensures_pure]
  refine (guardStatement h₁).mono fun guard c₂ h₂ => ?_
  obtain ⟨h₂, hguard⟩ := h₂
  refine (addMethod h₂ (h₂.mem_ids.2 hn) (by exact ⟨rfl, rfl, rfl⟩) ?_).mono
    fun l c₃ h₃ => hput _ _ _ h₃
  exact .wrapper _ _ _ hguard

end Makings

end Stagewise.Lifecycle
