/-
What the making of a member does: it keeps what there is, and in the end
the member is made.

Each member has one lemma, from any compilation that is `Seated`. A
concrete declared method is taken as it is; an abstract one gets a body and
nothing else, and is none of the locations to be kept, being bound as
something else than a body or not bound before; otherwise a method is
appended.
-/
import Stagewise.Lifecycle.Members
import Stagewise.Proofs.Lifecycle.Making

namespace Stagewise.Lifecycle

open Compilation Step

variable {K : Location → Prop} {c c' : Compilation} {n : DependencyId}
variable {a : Artifact}
variable {l : Location} {r : Role}

-- ================================================================ small parts

@[simp] theorem ensures_modifyStage {f : Stage → Stage}
    {Q : Unit → Compilation → Prop} :
    Ensures (modifyStage n f) c Q ↔ Q () (c.mapStage n f) :=
  ensures_modify

theorem mem_ids_of_stage? {s : Stage} (h : (c.graph.get n).stage? = some s) :
    n ∈ c.graph.ids := by
  rw [DependencyGraph.mem_ids]
  rcases Nat.lt_or_ge n.index c.graph.nodes.length with hn | hn
  · exact hn
  · unfold DependencyGraph.get at h
    rw [List.getD_eq_getElem?_getD, List.getElem?_eq_none hn] at h
    cases h

/-- Appending a method to a node's leaf changes no method that is there. -/
theorem addMethod_adds {m : Method} (h : Seated K c) (hn : n ∈ c.graph.ids)
    (hm : m.id = .unassigned) (hr : r ≠ .stageMethod) :
    Ensures (addMethod n m r) c fun l c' =>
      Keeps c.sources.Has c c' ∧ c'.Bound l n r ∧ ¬ c.sources.Has l := by
  unfold addMethod
  simp only [ensures_bind, ensures_get, ensures_modifySources,
    ensures_bindMethod, ensures_pure]
  intro bindings hbind
  have hd : (c.graph.get n).decl.index < c.sources.decls.length := h.decl n hn
  have hadd := Keeps.ofSources (Sources.Keeps.addMethod hd hm fun _ hl => hl)
  refine ⟨hadd.trans (Keeps.bindMethod hbind hr), ⟨?_, ?_⟩, ?_⟩
  · exact (Sources.has_addMethod hd).2 (Or.inr rfl)
  · show bindings.roleOf? _ = _
    rw [Bindings.roleOf?_of_bindMethod hbind, if_pos rfl]
  · exact Nat.lt_irrefl _

/-- Appending a method to a node's leaf. -/
theorem addMethod_keeps {m : Method} (h : Seated K c) (hn : n ∈ c.graph.ids)
    (hm : m.id = .unassigned) (hr : r ≠ .stageMethod) :
    Ensures (addMethod n m r) c fun l c' => Keeps K c c' ∧ c'.Bound l n r :=
  (addMethod_adds h hn hm hr).mono fun _ _ hadds =>
    ⟨hadds.1.weaken fun _ => h.has, hadds.2.1⟩

/-- An appended method is the given one with its identity. -/
theorem addMethod_method {m : Method} (h : Seated K c) (hn : n ∈ c.graph.ids) :
    Ensures (addMethod n m r) c fun l c' => l.decl = (c.graph.get n).decl
      ∧ c'.sources.method l = m.withIdentity (c.sources.name l.decl) := by
  unfold addMethod
  simp only [ensures_bind, ensures_get, ensures_modifySources,
    ensures_bindMethod, ensures_pure]
  exact fun bindings _ =>
    ⟨trivial, Sources.method_addMethod_next (h.decl n hn)⟩

/-- An appended method has the body that it was given. -/
theorem addMethod_body {m : Method} (h : Seated K c) (hn : n ∈ c.graph.ids) :
    Ensures (addMethod n m r) c fun l c' => (c'.sources.method l).body
      = m.body := by
  refine (addMethod_method h hn).mono fun l c' hl => ?_
  rw [hl.2, Method.body_withIdentity]

/-- Giving an abstract method a body. -/
theorem implement_keeps {body : Block} (hl : c.sources.Has l) (hK : ¬ K l) :
    Ensures (implement l body) c fun _ c' =>
      Keeps K c c' ∧ c'.bindings = c.bindings := by
  unfold implement
  rw [ensures_modifySources]
  exact ⟨Keeps.ofSources (Sources.Keeps.modifyMethod (fun _ => rfl) hl hK),
    rfl⟩

/-- Giving a method a body and a role. That it can be bound shows that it
had no role before. -/
theorem implementAs_ensures {body : Block} {Q : Compilation → Prop}
    (h : Seated K c) (hl : c.sources.Has l) (hr : r ≠ .stageMethod)
    (hQ : ∀ c', Keeps K c c' → c'.Bound l n r → Q c') :
    Ensures (implement l body) c fun _ c₁ =>
      Ensures (bindMethod (c₁.sources.method l).id n r) c₁
        fun _ c' => Q c' := by
  unfold implement
  simp only [ensures_modifySources, ensures_bindMethod]
  intro bindings hbind
  have hid : ((c.sources.modifyMethod l fun m =>
      { m.toConcrete with body := some body }).method l).id
          = (c.sources.method l).id := by
    rw [Sources.method_modifyMethod hl, if_pos rfl]
    rfl
  rw [hid] at hbind
  have hK : ¬ K l :=
    h.not_kept_of_unbound (Bindings.bindMethod_isOk_iff.1 ⟨bindings, hbind⟩)
  have hsources :
      Keeps K c { c with sources := c.sources.modifyMethod l fun m =>
        { m.toConcrete with body := some body } } :=
    .ofSources (Sources.Keeps.modifyMethod (fun _ => rfl) hl hK)
  refine hQ _ (hsources.trans (Keeps.bindMethod hbind hr)) ⟨?_, ?_⟩
  · exact (Sources.has_modifyMethod _).2 hl
  · show bindings.roleOf? _ = _
    rw [hid, Bindings.roleOf?_of_bindMethod hbind, if_pos rfl]

@[simp] theorem ensures_call {Q : Expr → Compilation → Prop} :
    Ensures (call l) c Q ↔ Q (.call none (c.sources.methodRef l) []) c := by
  unfold call
  simp only [ensures_bind, ensures_get, ensures_pure]

/-- A read of the field at a location. -/
def readOf (s : Sources) (l : Location) : Expr :=
  .field none ((s.field l).ref (s.name l.decl))

/-- The initial value of the field at a location, an absent one counting as
null. -/
def initialOf (s : Sources) (l : Location) : Expr :=
  (s.field l).init.getD (.literal .null)

/-- The parts of the sentinel's checks and resets are those of a field of
the stage. -/
theorem sentinelParts_exact :
    Ensures (sentinelParts n) c fun p c' => c' = c
      ∧ ∃ s f, (c.graph.get n).stage? = some s ∧ s.sentinel? = some f
        ∧ p = (readOf c.sources f.location, initialOf c.sources f.location,
            (c.sources.field f.location).type) := by
  unfold sentinelParts sentinel
  simp only [ensures_bind, ensures_get, ensures_stage, ensures_pure]
  intro s hs
  split
  · rename_i f hf
    exact ensures_pure.2 ⟨rfl, s, f, hs, hf, rfl⟩
  · exact ensures_throw

theorem sentinelParts_ensures :
    Ensures (sentinelParts n) c fun _ c' => c' = c :=
  sentinelParts_exact.mono fun _ _ h => h.1

/-- The beginning of a member that a stage always offers. -/
theorem begin_ensures {artifact : String} {part : Stage → Progress Location}
    {put : Stage → Progress Location → Stage}
    {Q : Option Location → Compilation → Prop}
    (hoffers : ∀ s : Stage, s.Offers a) (hpart : ∀ s, part s = s.progress a)
    (hput : ∀ s p, put s p = s.put p a)
    (hdone : ∀ l, c.progress n a = .done l → Q (some l) c)
    (hnew : c.Offers n a → c.progress n a = .notStarted →
      Q none (c.put n .inProgress a)) :
    Ensures (begin n artifact part put) c Q := by
  unfold begin
  simp only [ensures_bind, ensures_get, ensures_stage, ensures_ofExcept,
    ensures_modifyStage, ensures_pure]
  intro s hs q hstart
  obtain ⟨found, p⟩ := q
  have hn : c.Offers n a := ⟨s, hs, hoffers s⟩
  have hprogress : c.progress n a = s.progress a := progress_eq hs
  have hmap : c.mapStage n (put · p) = c.put n p a := by
    unfold Compilation.put
    congr 1
    funext s
    exact hput s p
  rw [hpart, ← hprogress] at hstart
  rw [hmap]
  rcases start_cases hn hstart with ⟨l, rfl, hl, hput⟩ | ⟨rfl, hl, rfl⟩
  · rw [hput]
    exact hdone l hl
  · exact hnew hn hl

/-- The end of a member, which was put in progress at the beginning. -/
theorem finish_ensures {f : Stage → Stage} (hn : c.Offers n a)
    (hnew : c.progress n a = .notStarted)
    (hk : Keeps K (c.put n .inProgress a) c')
    (hm : c'.Made n a l) (hf : ∀ s, f s = s.put (.done l) a) :
    Ensures (modifyStage n f) c' fun _ c'' =>
      Keeps K c c'' ∧ c''.progress n a = .done l := by
  have hmap : c'.mapStage n f = c'.put n (.done l) a := by
    unfold Compilation.put
    congr 1
    funext s
    exact hf s
  rw [ensures_modifyStage, hmap]
  have hn' : c'.Offers n a := ((Keeps.start hn hnew).trans hk).nodes.offers hn
  exact ⟨.finish hn hnew hk hm, progress_put_self hn'⟩

/-- `finish_ensures` where the place of the member is the answer. -/
theorem finishAt_ensures {f : Stage → Stage} (hn : c.Offers n a)
    (hnew : c.progress n a = .notStarted)
    (hk : Keeps K (c.put n .inProgress a) c')
    (hm : c'.Made n a l) (hf : ∀ s, f s = s.put (.done l) a) :
    Ensures (do
      modifyStage n f
      return l) c' fun l' c'' =>
          Keeps K c c'' ∧ c''.progress n a = .done l' := by
  rw [ensures_bind]
  exact (finish_ensures hn hnew hk hm hf).mono fun _ _ hdone =>
    ensures_pure.2 hdone

/-- `finish_ensures` where a reference to the member is the answer. -/
theorem finishRef_ensures {f : Stage → Stage} (hn : c.Offers n a)
    (hnew : c.progress n a = .notStarted)
    (hk : Keeps K (c.put n .inProgress a) c')
    (hm : c'.Made n a l) (hf : ∀ s, f s = s.put (.done l) a) :
    Ensures (do
      modifyStage n f
      return (← get).sources.methodRef l) c' fun m c'' =>
        Keeps K c c'' ∧ c''.made? n a = some m := by
  rw [ensures_bind]
  refine (finish_ensures hn hnew hk hm hf).mono fun _ c'' ⟨hk, hl⟩ => ?_
  simp only [ensures_bind, ensures_get, ensures_pure]
  exact ⟨hk, made?_eq_some.2 ⟨l, hl, rfl⟩⟩

-- =================================================== predicate and close

/-- The declared predicate of a stage is bound as such. -/
theorem bound_declaredPredicate {s : Stage} (h : Seated K c)
    (hs : (c.graph.get n).stage? = some s)
    (hl : s.declaredPredicate = some l) :
    c.Bound l n .predicate := by
  refine h.members n (l, .predicate) ?_
  unfold DependencyNode.members
  rw [DependencyNode.stage?_eq_some.1 hs]
  simp [hl]

/-- The declared close method of a stage is bound as such. -/
theorem bound_declaredClose {s : Stage} (h : Seated K c)
    (hs : (c.graph.get n).stage? = some s) (hl : s.declaredClose = some l) :
    c.Bound l n .close := by
  refine h.members n (l, .close) ?_
  unfold DependencyNode.members
  rw [DependencyNode.stage?_eq_some.1 hs]
  simp [hl]

/-- The init methods of a stage are bound as such. -/
theorem bound_initMethod {s : Stage} (h : Seated K c)
    (hs : (c.graph.get n).stage? = some s) (hl : l ∈ s.initMethods) :
    c.Bound l n .init := by
  refine h.members n (l, .init) ?_
  unfold DependencyNode.members
  rw [DependencyNode.stage?_eq_some.1 hs]
  simp [hl]

/-- The methods that are tagged with a stage are bound as such. -/
theorem bound_taggedMethod {s : Stage} {m : StageMethod} (h : Seated K c)
    (hs : (c.graph.get n).stage? = some s) (hm : m ∈ s.methods) :
    c.Bound m.location n .stageMethod := by
  refine h.members n (m.location, .stageMethod) ?_
  unfold DependencyNode.members
  rw [DependencyNode.stage?_eq_some.1 hs]
  simp only [List.mem_append, List.mem_map]
  exact Or.inr ⟨m, hm, rfl⟩

theorem bound_of_declared (h : Seated K c)
    (hl : c.declared? n .close = some l) :
    c.Bound l n .close := by
  obtain ⟨s, hs, hl⟩ := Option.bind_eq_some_iff.1 hl
  exact bound_declaredClose h hs hl

/-- Making the predicate of a stage. -/
theorem predicate_keeps (h : Seated K c) :
    Ensures (predicate n) c fun l c' =>
      Keeps K c c' ∧ c'.progress n .predicate = .done l := by
  unfold predicate
  rw [ensures_bind]
  refine begin_ensures (a := .predicate) (fun _ => trivial) (fun _ => rfl)
    (fun _ _ => rfl) (fun l hl => ?_) fun hn hnew => ?_
  · exact ensures_pure.2 ⟨.refl K c, hl⟩
  have h₁ : Seated K (c.put n .inProgress .predicate) :=
    h.keeps (Keeps.start (K := K) hn hnew)
  simp only [ensures_bind, ensures_stage]
  intro s hs
  have hdeclared := declared?_eq (a := .predicate) hs
  have hids := mem_ids_of_stage? hs
  generalize hc₁ : c.put n .inProgress .predicate = c₁ at *
  have hend : ∀ l c₂, Keeps K c₁ c₂ → c₂.Made n .predicate l →
      Ensures (do
        modifyStage n fun s => { s with predicate := .done l }
        return l) c₂ fun l c' =>
          Keeps K c c' ∧ c'.progress n .predicate = .done l :=
    fun l c₂ hk hm => finishAt_ensures hn hnew (hc₁ ▸ hk) hm fun _ => rfl
  split
  · rename_i l hl
    have hbound : c₁.Bound l n .predicate := bound_declaredPredicate h₁ hs hl
    have hmade : c₁.Made n .predicate l :=
      made_of_declared hbound (hdeclared.trans hl)
    simp only [ensures_bind, ensures_get]
    split
    · exact hend l c₁ (.refl K c₁) hmade
    · rw [ensures_bind]
      refine sentinelParts_ensures.mono fun _ c₂ hc₂ => ?_
      subst hc₂
      have hK : ¬ K l := h₁.not_kept hbound rfl
      rw [ensures_bind]
      exact (implement_keeps hbound.1 hK).mono fun _ c₃ hk =>
        hend l c₃ hk.1 (hmade.keeps hk.1)
  · rename_i hl
    simp only [ensures_bind, ensures_get]
    refine sentinelParts_ensures.mono fun _ c₂ hc₂ => ?_
    subst hc₂
    refine ((addMethod_keeps h₁ hids rfl (by decide)).and
      (addMethod_method h₁ hids)).mono ?_
    rintro l c₃ ⟨hk, -, hmethod⟩
    have hnone : c₃.declared? n .predicate = none :=
      hk.1.nodes.declared?.trans (hdeclared.trans hl)
    have hname : (c₃.sources.method l).name = Convention.predicateName
        (c₃.graph.name n) := by
      rw [hmethod, Method.name_withIdentity, hk.1.nodes.name]
      rfl
    exact ensures_bind.1
      (hend l c₃ hk.1 (made_of_undeclared hk.2 hnone fun _ => hname))

/-- The body that resets a sentinel. -/
def resetOf (s : Sources) (l : Location) : Block :=
  [.expr (.assign none (readOf s l) (initialOf s l))]

/-- The reset that is made is that of a field of the stage. -/
theorem resetBody_exact :
    Ensures (resetBody n) c fun body c' => c' = c
      ∧ ∃ s f, (c.graph.get n).stage? = some s ∧ s.sentinel? = some f
        ∧ body = resetOf c.sources f.location := by
  unfold resetBody
  rw [ensures_bind]
  refine sentinelParts_exact.mono ?_
  rintro _ c' ⟨rfl, s, f, hs, hf, rfl⟩
  exact ensures_pure.2 ⟨rfl, s, f, hs, hf, rfl⟩

theorem resetBody_ensures : Ensures (resetBody n) c fun _ c' => c' = c :=
  resetBody_exact.mono fun _ _ h => h.1

/-- Noting that a close body was made from the sentinel. -/
theorem markGenerated_keeps :
    Ensures (modifyStage n fun s => { s with closeIsGenerated := true }) c
      fun _ c' => Keeps K c c' := by
  rw [ensures_modifyStage]
  refine Keeps.mapStage (fun _ => rfl) fun s a => ?_
  cases a <;> rfl

/-- Making the close method of a stage. Its declared close method must not
be one to keep as long as it is abstract. -/
theorem close_keeps (h : Seated K c)
    (hK : ∀ l ∈ c.declared? n .close, (c.sources.method l).isAbstract = true →
      ¬ K l) :
    Ensures (close n) c fun l c' =>
      Keeps K c c' ∧ c'.progress n .close = .done l := by
  unfold close
  rw [ensures_bind]
  refine begin_ensures (a := .close) (fun _ => trivial) (fun _ => rfl)
    (fun _ _ => rfl) (fun l hl => ?_) fun hn hnew => ?_
  · exact ensures_pure.2 ⟨.refl K c, hl⟩
  have hstart : Keeps K c (c.put n .inProgress .close) := .start hn hnew
  have h₁ : Seated K (c.put n .inProgress .close) := h.keeps hstart
  have hK₁ : ∀ l ∈ (c.put n .inProgress .close).declared? n .close,
      ((c.put n .inProgress .close).sources.method l).isAbstract = true →
      ¬ K l := by
    rw [hstart.nodes.declared?]
    exact hK
  simp only [ensures_bind, ensures_stage]
  intro s hs
  have hdeclared := declared?_eq (a := .close) hs
  have hids := mem_ids_of_stage? hs
  generalize hc₁ : c.put n .inProgress .close = c₁ at *
  have hend : ∀ l c₂, Keeps K c₁ c₂ → c₂.Made n .close l →
      Ensures (do
        modifyStage n fun s => { s with close := .done l }
        return l) c₂ fun l c' =>
          Keeps K c c' ∧ c'.progress n .close = .done l :=
    fun l c₂ hk hm => finishAt_ensures hn hnew (hc₁ ▸ hk) hm fun _ => rfl
  split
  · rename_i l hl
    have hbound : c₁.Bound l n .close := bound_declaredClose h₁ hs hl
    have hmade : c₁.Made n .close l :=
      made_of_declared hbound (hdeclared.trans hl)
    simp only [ensures_bind, ensures_get]
    split
    · exact hend l c₁ (.refl K c₁) hmade
    · rename_i hconcrete
      have habstract : (c₁.sources.method l).isAbstract = true := by
        simpa [Stage.hasConcreteClose, hl] using hconcrete
      have hnot : ¬ K l := hK₁ l (hdeclared.trans hl) habstract
      rw [ensures_bind]
      refine resetBody_ensures.mono fun _ c₂ hc₂ => ?_
      subst hc₂
      rw [ensures_bind]
      refine (implement_keeps hbound.1 hnot).mono fun _ c₃ hk => ?_
      rw [ensures_bind]
      refine (markGenerated_keeps (K := K)).mono fun _ c₄ hk' => ?_
      have hkeeps := hk.1.trans hk'
      exact hend l c₄ hkeeps (hmade.keeps hkeeps)
  · rename_i hl
    simp only [ensures_bind, ensures_get]
    refine resetBody_ensures.mono fun _ c₂ hc₂ => ?_
    subst hc₂
    refine (addMethod_keeps h₁ hids rfl (by decide)).mono fun l c₃ hk => ?_
    refine (markGenerated_keeps (K := K)).mono fun _ c₄ hk' => ?_
    have hmade : c₃.Made n .close l :=
      made_of_undeclared hk.2
        (hk.1.nodes.declared?.trans (hdeclared.trans hl)) (by simp)
    exact ensures_pure.2
      (ensures_bind.1 (hend l c₄ (hk.1.trans hk') (hmade.keeps hk')))

-- ================================================================ guards

/-- A guard asks for the predicate. It calls the init method that takes nothing
where the predicate does not hold, or fails if there is none. -/
theorem ensures_guardStatement {Q : Stmt → Compilation → Prop}
    (h : Ensures (predicate n) c fun l c' => ∀ s, (c'.graph.get n).stage?
      = some s →
      (∀ init, s.noArgInit = some init →
        Q (.when (.unary .not (.call none (c'.sources.methodRef l) []))
          (.expr (.call none (c'.sources.methodRef init) []))) c')
      ∧ (s.noArgInit = none →
        Q (.check (.call none (c'.sources.methodRef l) [])
          (some (.literal (.str (s.name ++ " should be init"))))) c')) :
    Ensures (guardStatement n) c Q := by
  unfold guardStatement
  rw [ensures_bind]
  refine h.mono fun l c' hguard => ?_
  simp only [ensures_bind, ensures_call, ensures_stage]
  intro s hs
  obtain ⟨hinit, hnone⟩ := hguard s hs
  split
  · rename_i init hsome
    simp only [ensures_bind, ensures_call, ensures_pure]
    exact hinit init hsome
  · rename_i habsent
    exact ensures_pure.2 (hnone habsent)

theorem guardStatement_keeps (h : Seated K c) :
    Ensures (guardStatement n) c fun _ c' => Keeps K c c' :=
  ensures_guardStatement ((predicate_keeps h).mono fun _ _ hk _ _ =>
    ⟨fun _ _ => hk.1, fun _ => hk.1⟩)

/-- Making the accessor of a field. -/
theorem accessor_keeps (h : Seated K c) {field : Identity} :
    Ensures (accessor n field) c fun m c' =>
      Keeps K c c' ∧ c'.accessor? n field = some m := by
  unfold accessor
  simp only [ensures_bind, ensures_get, ensures_stage]
  intro s hs
  split
  · exact ensures_throw
  rename_i i hi
  have hoffers : s.Offers (.accessor i) := Stage.offers_accessor hi
  have hn : c.Offers n (.accessor i) := ⟨s, hs, hoffers⟩
  suffices hmake : Ensures _ c fun m c' =>
      Keeps K c c' ∧ c'.made? n (.accessor i) = some m by
    refine hmake.mono fun m c' hmade => ?_
    obtain ⟨hk, hm⟩ := hmade
    refine ⟨hk, Option.bind_eq_some_iff.2 ⟨i, ?_, hm⟩⟩
    rw [hk.nodes.bind fun _ => Stage.fieldIndex?_unmade field, hs]
    exact hi
  rw [← Stage.progress_accessor hoffers, ← Stage.declared?_accessor hoffers,
    ← progress_eq hs, ← declared?_eq hs]
  simp only [ensures_bind, ensures_ofExcept, ensures_modifyStage]
  intro q hstart
  obtain ⟨found, p⟩ := q
  show Ensures _ (c.put n p (.accessor i)) _
  rcases start_cases hn hstart with ⟨l, rfl, hl, hput⟩ | ⟨rfl, hnew, rfl⟩
  · rw [hput]
    simp only [ensures_bind, ensures_get, ensures_pure]
    exact ⟨.refl K c, made?_eq_some.2 ⟨l, hl, rfl⟩⟩
  have hstart : Keeps K c (c.put n .inProgress (.accessor i)) := .start hn hnew
  have hend : ∀ l c₂, Keeps K (c.put n .inProgress (.accessor i)) c₂ →
      c₂.Made n (.accessor i) l →
      Ensures (do
        modifyStage n (·.put (.done l) (.accessor i))
        return (← get).sources.methodRef l) c₂ fun m c' =>
          Keeps K c c' ∧ c'.made? n (.accessor i) = some m :=
    fun l c₂ hk hm => finishRef_ensures hn hnew hk hm fun _ => rfl
  simp only [ensures_bind, ensures_get]
  refine (guardStatement_keeps (h.keeps hstart)).mono fun guard c₂ hk => ?_
  have h₂ : Seated K c₂ := h.keeps (hstart.trans hk)
  have hdeclared :=
    (hstart.trans hk).nodes.declared? (n := n) (a := .accessor i)
  split
  · rename_i l hl
    have hhas : c₂.sources.Has l :=
      h₂.declared n (.accessor i) l (hdeclared.trans hl)
    simp only [ensures_bind, ensures_get]
    refine implementAs_ensures h₂ hhas (by decide) fun c₃ hk' hbound => ?_
    have hmade : c₃.Made n (.accessor i) l :=
      made_of_declared hbound (hk'.nodes.declared?.trans (hdeclared.trans hl))
    exact ensures_pure.2 (ensures_bind.1 (hend l c₃ (hk.trans hk') hmade))
  · rename_i hl
    have hids : n ∈ c₂.graph.ids := by
      obtain ⟨s₂, hs₂, -⟩ := (hstart.trans hk).nodes.offers hn
      exact mem_ids_of_stage? hs₂
    rw [ensures_bind]
    refine (addMethod_keeps h₂ hids rfl (by decide)).mono fun l c₃ hk' => ?_
    have hmade : c₃.Made n (.accessor i) l :=
      made_of_undeclared hk'.2
        (hk'.1.nodes.declared?.trans (hdeclared.trans hl)) (by simp)
    exact hend l c₃ (hk.trans hk'.1) hmade

/-- Making the guarded wrapper of a tagged method. -/
theorem guarded_keeps (h : Seated K c) {method : Identity} :
    Ensures (guarded n method) c fun m c' =>
      Keeps K c c' ∧ c'.guarded? n method = some m := by
  unfold guarded
  simp only [ensures_bind, ensures_get, ensures_stage]
  intro s hs
  split
  · exact ensures_throw
  rename_i i hi
  have hoffers : s.Offers (.guarded i) := Stage.offers_guarded hi
  have hn : c.Offers n (.guarded i) := ⟨s, hs, hoffers⟩
  suffices hmake : Ensures _ c fun m c' =>
      Keeps K c c' ∧ c'.made? n (.guarded i) = some m by
    refine hmake.mono fun m c' hmade => ?_
    obtain ⟨hk, hm⟩ := hmade
    refine ⟨hk, Option.bind_eq_some_iff.2 ⟨i, ?_, hm⟩⟩
    rw [hk.nodes.bind fun _ => Stage.methodIndex?_unmade method, hs]
    exact hi
  rw [← Stage.progress_guarded hoffers, ← progress_eq hs]
  simp only [ensures_bind, ensures_ofExcept, ensures_modifyStage]
  intro q hstart
  obtain ⟨found, p⟩ := q
  show Ensures _ (c.put n p (.guarded i)) _
  rcases start_cases hn hstart with ⟨l, rfl, hl, hput⟩ | ⟨rfl, hnew, rfl⟩
  · rw [hput]
    simp only [ensures_bind, ensures_get, ensures_pure]
    exact ⟨.refl K c, made?_eq_some.2 ⟨l, hl, rfl⟩⟩
  have hstart : Keeps K c (c.put n .inProgress (.guarded i)) := .start hn hnew
  simp only [ensures_bind, ensures_get]
  refine (guardStatement_keeps (h.keeps hstart)).mono fun guard c₂ hk => ?_
  have h₂ : Seated K c₂ := h.keeps (hstart.trans hk)
  have hids : n ∈ c₂.graph.ids := by
    obtain ⟨s₂, hs₂, -⟩ := (hstart.trans hk).nodes.offers hn
    exact mem_ids_of_stage? hs₂
  refine (addMethod_keeps h₂ hids rfl (by decide)).mono fun l c₃ hk' => ?_
  have hnone : c₃.declared? n (.guarded i) = none := by
    unfold declared?
    cases (c₃.graph.get n).stage? <;> rfl
  have hmade : c₃.Made n (.guarded i) l :=
    made_of_undeclared hk'.2 hnone (by simp)
  have hend := finishRef_ensures (l := l) (f := (·.put (.done l) (.guarded i)))
    hn hnew (hk.trans hk'.1) hmade fun _ => rfl
  exact ensures_bind.1 hend

end Stagewise.Lifecycle
