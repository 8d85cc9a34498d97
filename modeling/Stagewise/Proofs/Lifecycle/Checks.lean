/-
The predicates that are made for stages, and what is in them.

A stage with a concrete predicate keeps it. Any other stage gets one that
checks its sentinel (`ChecksSentinel`), and this one stays as it was made:
guards are put into other bodies only, and so is what the preparation of a node
adds.

# The argument

The predicate of a stage is its only member that is bound as such. What else is
made or changed is bound with another role, or was bound to nothing before. So
every step but the making of a predicate leaves all predicates as they are,
whether made, declared or yet to be made (`Overlooks`), and the making of one
leaves those of the other stages. The invariant of all passes is `Checked`.
-/
import Stagewise.Proofs.Lifecycle.Prologues
import Stagewise.Proofs.Lifecycle.Resets

namespace Stagewise.Lifecycle

open Compilation Step

variable {P : DependencyId → Prop} {K : Location → Prop}
variable {c c' c₀ c₁ : Compilation}
variable {n : DependencyId} {a : Artifact} {l : Location} {r : Role}

/-- The body that checks the field at a location. -/
def checkOf (s : Sources) (l : Location) : Block :=
  [.ret (some (sentinelCheck (readOf s l) (initialOf s l) (s.field l).type))]

/-- That a method checks a stage's sentinel, in the place of a predicate that
is not declared or abstract. -/
def ChecksSentinel (c : Compilation) (n : DependencyId) (m : Method) : Prop :=
  ∃ s f, (c.graph.get n).stage? = some s
    ∧ s.hasConcretePredicate c.sources = false
    ∧ s.sentinel? = some f ∧ m.body = some (checkOf c.sources f.location)

theorem checkOf_congr {s s' : Sources} (h : Sources.Extends s s')
    (l : Location) :
    checkOf s' l = checkOf s l := by
  unfold checkOf readOf initialOf
  rw [h.field, h.name]

-- ================================================================== the frame

/-- That the predicates of some nodes are as they were, made ones and
others. -/
structure Overlooks (P : DependencyId → Prop) (c c' : Compilation) : Prop where
  nodes : SameNodes c c'
  sources : Sources.Extends c.sources c'.sources
  bound : ∀ l m, c.Bound l m .predicate → c'.Bound l m .predicate
  progress : ∀ m, P m → c'.progress m .predicate = c.progress m .predicate
  method : ∀ l m, P m → c.Bound l m .predicate →
    c'.sources.method l = c.sources.method l

/-- That all predicates are as they were. -/
abbrev OverlooksAll (c c' : Compilation) : Prop :=
  Overlooks (fun _ => True) c c'

namespace Overlooks

theorem refl (P : DependencyId → Prop) (c : Compilation) : Overlooks P c c :=
  ⟨fun _ => rfl, .refl _, fun _ _ hl => hl, fun _ _ => rfl, fun _ _ _ _ => rfl⟩

theorem trans (h : Overlooks P c c₁) (h' : Overlooks P c₁ c') :
    Overlooks P c c' where
  nodes m := (h'.nodes m).trans (h.nodes m)
  sources := h.sources.trans h'.sources
  bound l m hl := h'.bound l m (h.bound l m hl)
  progress m hm := (h'.progress m hm).trans (h.progress m hm)
  method l m hm hl :=
    (h'.method l m hm (h.bound l m hl)).trans (h.method l m hm hl)

/-- The progress of another member may change. -/
theorem put {p : Progress Location}
    (h : ∀ m, P m → ¬ (m = n ∧ Artifact.predicate = a)) :
    Overlooks P c (c.put n p a) where
  nodes := unmade_mapStage fun _ => Stage.unmade_put
  sources := .refl _
  bound _ _ hl := hl
  progress m hm := progress_put_of_ne (h m hm)
  method _ _ _ _ := rfl

theorem put_other {p : Progress Location} (ha : Artifact.predicate ≠ a) :
    Overlooks P c (c.put n p a) := put fun _ _ he => ha he.2

/-- A change of a stage that is seen in the progress of no member. -/
theorem mapStage {f : Stage → Stage} (hf : ∀ s, (f s).unmade = s.unmade)
    (hp : ∀ s, (f s).predicate = s.predicate) :
    Overlooks P c (c.mapStage n f) where
  nodes := unmade_mapStage hf
  sources := .refl _
  bound _ _ hl := hl
  progress m _ := by
    unfold Compilation.progress
    rw [get_mapStage]
    by_cases hm : m = n
    · subst hm
      rw [if_pos rfl, DependencyNode.stage?_mapStage, Option.map_map]
      exact congrArg (fun g => ((c.graph.get m).stage?.map g).getD .notStarted)
        (funext hp)
    · rw [if_neg hm]
  method _ _ _ _ := rfl

theorem bindings {id : Identity} {b : Bindings}
    (h : c.bindings.bindMethod id n r = .ok b) :
    Overlooks P c { c with bindings := b } where
  nodes _ := rfl
  sources := .refl _
  bound _ _ hl := ⟨hl.1, Bindings.roleOf?_mono h hl.2⟩
  progress _ _ := rfl
  method _ _ _ _ := rfl

/-- Methods may be added. -/
theorem ofKeeps (hk : Keeps c.sources.Has c c')
    (hs : Sources.Extends c.sources c'.sources)
    (hp : ∀ m, P m → c'.progress m .predicate = c.progress m .predicate) :
    Overlooks P c c' where
  nodes := hk.nodes
  sources := hs
  bound _ _ hl := hl.keeps hk
  progress := hp
  method l _ _ hl := hk.sources.kept l hl.1

/-- A method that is none of these predicates may change. -/
theorem modifyMethod {f : Method → Method}
    (hl : ∀ m, P m → ¬ c.Bound l m .predicate)
    (hsurface : ∀ m, (f m).surface = m.surface)
    (hmodifiers : ∀ m, m.modifiers.isAbstract = false →
      (f m).modifiers.isAbstract = false) :
    Overlooks P c { c with sources := c.sources.modifyMethod l f } where
  nodes _ := rfl
  sources := .modifyMethod hsurface hmodifiers l
  bound l' m hl' := by
    have hid : ((c.sources.modifyMethod l f).method l').id
        = (c.sources.method l').id := by
      have hsame := congrArg Method.id
        ((Sources.Extends.modifyMethod hsurface hmodifiers l).surface l' hl'.1)
      exact hsame
    exact ⟨(Sources.has_modifyMethod f).2 hl'.1, hid.symm ▸ hl'.2⟩
  progress _ _ := rfl
  method l' m hm hl' := by
    have hne : l' ≠ l := fun he => hl m hm (he ▸ hl')
    exact Sources.method_modifyMethod_of_ne hne f

/-- What is bound with another role is no predicate. -/
theorem not_predicate (hl : c.Bound l n r) (hr : r ≠ .predicate) :
    ∀ m, P m → ¬ c.Bound l m .predicate :=
  fun _ _ hl' => hr (hl.unique hl').2

theorem addMethod {m : Method} (h : Seated K c) (hn : n ∈ c.graph.ids)
    {body : Block} (hm : IsNew m body) (hr : r ≠ .stageMethod) :
    Ensures (addMethod n m r) c fun l c' => Overlooks P c c' ∧ c'.Bound l n r
      ∧ (c'.sources.method l).body = m.body := by
  have hadds := addMethod_adds h hn hm.id hr
  have hgraph := addMethod_graph (n := n) (c := c) (m := m) (r := r)
  have hevolves := addMethod_evolves (r := r) (.refl c) hn hm
  refine (hadds.and (hgraph.and (hevolves.and (addMethod_body h hn)))).mono ?_
  intro l c' hadded
  obtain ⟨⟨hk, hbound, -⟩, hgraph, hevolves, hbody⟩ := hadded
  refine ⟨.ofKeeps hk hevolves.sources fun m _ => ?_, hbound, hbody⟩
  unfold Compilation.progress
  rw [hgraph]

/-- A method that can still be bound is no predicate. -/
theorem implementAs {body : Block} (hl : c.sources.Has l) :
    Ensures (implement l body) c fun _ c₁ =>
      Ensures (bindMethod (c₁.sources.method l).id n r) c₁ fun _ c' =>
          Overlooks P c c' := by
  unfold implement
  simp only [ensures_modifySources, ensures_bindMethod]
  intro b hbind
  have hid : ((c.sources.modifyMethod l fun m =>
      { m.toConcrete with body := some body }).method l).id
          = (c.sources.method l).id := by
    rw [Sources.method_modifyMethod hl, if_pos rfl]
    rfl
  rw [hid] at hbind
  have hfree := Bindings.bindMethod_isOk_iff.1 ⟨b, hbind⟩
  have hnot : ∀ m, P m → ¬ c.Bound l m .predicate := fun m _ hbound => by
    rw [hbound.2] at hfree
    cases hfree
  have himplement : Overlooks P c { c with
      sources := c.sources.modifyMethod l fun m =>
      { m.toConcrete with body := some body } } :=
    modifyMethod hnot (fun _ => rfl) fun _ _ => rfl
  exact himplement.trans (.bindings hbind)

end Overlooks

-- ============================================================== the invariant

/-- What holds while members are made for the stages of `c₀`: a predicate that
is made is bound as such, and checks the sentinel unless a concrete one was
declared. One that is declared is as it was until then. -/
structure Checked (c₀ c : Compilation) : Prop where
  nodes : SameNodes c₀ c
  sources : Sources.Extends c₀.sources c.sources
  bound : ∀ l m, c₀.Bound l m .predicate → c.Bound l m .predicate
  waiting : ∀ l m, c₀.declared? m .predicate = some l →
    c.progress m .predicate = .notStarted →
    c.sources.method l = c₀.sources.method l
  made : ∀ l m, c.progress m .predicate = .done l → c.Bound l m .predicate
    ∧ ∀ s, (c₀.graph.get m).stage? = some s →
      s.hasConcretePredicate c₀.sources = false →
      ChecksSentinel c₀ m (c.sources.method l)

/-- A declared predicate is bound as such. -/
theorem bound_of_declaredPredicate (h : Seated K c)
    (hl : c.declared? n .predicate = some l) :
    c.Bound l n .predicate := by
  obtain ⟨s, hs, hl⟩ := Option.bind_eq_some_iff.1 hl
  exact bound_declaredPredicate h hs hl

namespace Checked

/-- What makes no predicate leaves them checked. -/
theorem overlooks (h : Checked c₀ c) (hc : Seated K c₀)
    (ho : OverlooksAll c c') :
    Checked c₀ c' where
  nodes m := (ho.nodes m).trans (h.nodes m)
  sources := h.sources.trans ho.sources
  bound l m hl := ho.bound l m (h.bound l m hl)
  waiting l m hl hp := by
    rw [ho.progress m trivial] at hp
    have hbound := h.bound l m (bound_of_declaredPredicate hc hl)
    exact (ho.method l m trivial hbound).trans (h.waiting l m hl hp)
  made l m hl := by
    rw [ho.progress m trivial] at hl
    obtain ⟨hbound, hmade⟩ := h.made l m hl
    rw [ho.method l m trivial hbound]
    exact ⟨ho.bound l m hbound, hmade⟩

/-- A predicate is made, and nothing happens to those of other stages. -/
theorem put_done (h : Checked c₀ c) (hc : Seated K c₀)
    (ho : Overlooks (· ≠ n) c c')
    (hn : c'.Offers n .predicate) (hl : c'.Bound l n .predicate)
    (hmade : ∀ s, (c₀.graph.get n).stage? = some s →
      s.hasConcretePredicate c₀.sources = false →
      ChecksSentinel c₀ n (c'.sources.method l)) :
    Checked c₀ (c'.put n (.done l) .predicate) := by
  have hput : ∀ m, m ≠ n →
      (c'.put n (.done l) .predicate).progress m .predicate
      = c.progress m .predicate :=
    fun m hm => (progress_put_of_ne fun he => hm he.1).trans (ho.progress m hm)
  refine ⟨fun m => ?_, h.sources.trans ho.sources, fun l m hl => ho.bound l m
    (h.bound l m hl),
    fun l' m hl' hp => ?_, fun l' m hl' => ?_⟩
  · exact (unmade_mapStage (fun _ => Stage.unmade_put) m).trans
      ((ho.nodes m).trans (h.nodes m))
  · by_cases hm : m = n
    · subst hm
      rw [progress_put_self hn] at hp
      cases hp
    · rw [hput m hm] at hp
      have hbound := h.bound l' m (bound_of_declaredPredicate hc hl')
      exact (ho.method l' m hm hbound).trans (h.waiting l' m hl' hp)
  · by_cases hm : m = n
    · subst hm
      rw [progress_put_self hn] at hl'
      obtain rfl := Progress.done.inj hl'
      exact ⟨hl, hmade⟩
    · rw [hput m hm] at hl'
      obtain ⟨hbound, hchecks⟩ := h.made l' m hl'
      refine ⟨ho.bound l' m hbound, ?_⟩
      show ∀ s, _ → _ → ChecksSentinel c₀ m (c'.sources.method l')
      rw [ho.method l' m hm hbound]
      exact hchecks

end Checked

-- =================================================================== requests

/-- The sentinel of a stage is where it was discovered. -/
theorem sentinel?_of_unmade {s s' : Stage} {f : StageField}
    (h : s'.unmade = s.unmade)
    (hf : s'.sentinel? = some f) :
    ∃ f₀, s.sentinel? = some f₀ ∧ f₀.location = f.location := by
  have hunmade : ∀ s : Stage,
      s.unmade.sentinel? = s.sentinel?.map StageField.unmade := by
    intro s
    unfold Stage.sentinel? Stage.unmade
    cases s.initialized with
    | sentinel i => exact List.getElem?_map
    | _ => rfl
  have hsame : s.sentinel?.map StageField.unmade = some f.unmade := by
    rw [← hunmade, ← h, hunmade, hf]
    rfl
  obtain ⟨f₀, hf₀, hlocation⟩ := Option.map_eq_some_iff.1 hsame
  have hplace := congrArg StageField.location hlocation
  exact ⟨f₀, hf₀, hplace⟩

namespace Checked

variable {s s₀ : Stage} {f : StageField}

/-- A check of the sentinel is one as it was discovered. -/
theorem checksSentinel {m : Method} (h : Checked c₀ c)
    (hs : (c.graph.get n).stage? = some s)
    (hf : s.sentinel? = some f)
    (hm : m.body = some (checkOf c.sources f.location))
    (hs₀ : (c₀.graph.get n).stage? = some s₀)
    (hconcrete : s₀.hasConcretePredicate c₀.sources = false) :
    ChecksSentinel c₀ n m := by
  obtain ⟨f₀, hf₀, hlocation⟩ :=
    sentinel?_of_unmade (h.nodes.unmade_stage hs₀ hs) hf
  refine ⟨s₀, f₀, hs₀, hconcrete, hf₀, ?_⟩
  rw [hm, hlocation, checkOf_congr h.sources]

/-- A predicate that is yet to be made is concrete if it was. -/
theorem hasConcretePredicate (h : Checked c₀ c)
    (hs : (c.graph.get n).stage? = some s)
    (hnew : c.progress n .predicate = .notStarted)
    (hs₀ : (c₀.graph.get n).stage? = some s₀) :
    s₀.hasConcretePredicate c₀.sources = s.hasConcretePredicate c.sources := by
  have hdeclared : s.declaredPredicate = s₀.declaredPredicate :=
    (congrArg Stage.declaredPredicate (h.nodes.unmade_stage hs₀ hs) :)
  unfold Stage.hasConcretePredicate
  rw [hdeclared]
  cases hl : s₀.declaredPredicate with
  | none => rfl
  | some l =>
      rw [Option.any_some, Option.any_some,
        h.waiting l n ((declared?_eq hs₀).trans hl) hnew]

end Checked

/-- Making the predicate of a stage. -/
theorem predicate_checked (hc : Seated K c₀) (h : Checked c₀ c)
    (hw : Seated (fun _ => False) c) :
    Ensures (predicate n) c fun _ c' => Checked c₀ c' := by
  refine ensures_request requests_predicate (fun _ _ => h) fun s hs hnew => ?_
  have hn : c.Offers n .predicate := ⟨s, hs, trivial⟩
  have hput : Overlooks (· ≠ n) c (c.put n .inProgress .predicate) :=
    .put fun _ hm he => hm he.1
  have hw₁ := hw.keeps (Keeps.start (K := fun _ => False) hn hnew)
  have hs₁ := stage?_put (p := .inProgress) (a := .predicate) hs
  have hdeclared : ∀ l, s.declaredPredicate = some l →
      c.Bound l n .predicate :=
    fun l hl => bound_declaredPredicate hw hs hl
  refine ensures_makeUnlessDeclared (fun l hl hconcrete => ?_)
    (fun l hl _ => ?_) fun _ => ?_
  · -- a concrete one is taken as it is
    refine h.put_done hc hput (hput.nodes.offers hn) (hdeclared l hl)
      fun s₀ hs₀ hnone => ?_
    rw [h.hasConcretePredicate hs hnew hs₀] at hnone
    cases hnone.symm.trans hconcrete
  · have hbound := hdeclared l hl
    rw [ensures_bind]
    refine sentinelParts_exact.mono ?_
    rintro _ c₂ ⟨rfl, s', f, hs', hf, rfl⟩
    obtain rfl := Option.some.inj (hs₁.symm.trans hs')
    unfold implement
    rw [ensures_modifySources]
    have himplement := hput.trans (.modifyMethod (l := l)
      (f := fun m => { m.toConcrete with
        body := some (checkOf (c.put n .inProgress .predicate).sources
          f.location) })
      (fun m hm hl' => hm (hl'.unique hbound).1) (fun _ => rfl) fun _ _ => rfl)
    refine h.put_done hc himplement (himplement.nodes.offers hn)
      (himplement.bound l n hbound)
      fun s₀ hs₀ => h.checksSentinel hs hf ?_ hs₀
    show ((c.sources.modifyMethod l _).method l).body = _
    rw [Sources.method_modifyMethod hbound.1, if_pos rfl]
    rfl
  · rw [ensures_bind]
    refine sentinelParts_exact.mono ?_
    rintro _ c₂ ⟨rfl, s', f, hs', hf, rfl⟩
    obtain rfl := Option.some.inj (hs₁.symm.trans hs')
    simp only [ensures_bind, ensures_get]
    refine (Overlooks.addMethod (P := (· ≠ n)) hw₁ (mem_ids_of_stage? hs₁)
      Makings.isNew_procedure (by decide)).mono fun l c₃ hadded => ?_
    obtain ⟨ho, hbound, hbody⟩ := hadded
    have hadd := hput.trans ho
    exact h.put_done hc hadd (hadd.nodes.offers hn) hbound
      fun s₀ hs₀ => h.checksSentinel hs hf hbody hs₀

/-- Making a close method concerns no predicate. -/
theorem close_overlooks (hw : Seated (fun _ => False) c) :
    Ensures (close n) c fun _ c' => OverlooksAll c c' := by
  refine ensures_request requests_close (fun _ _ => .refl _ c)
    fun s hs hnew => ?_
  have hn : c.Offers n .close := ⟨s, hs, trivial⟩
  have hput : ∀ {p c₁}, OverlooksAll c₁ (c₁.put n p .close) :=
    .put_other (by simp)
  have hmark : ∀ {c₁}, OverlooksAll c₁
      (c₁.mapStage n fun s => { s with closeIsGenerated := true }) :=
    .mapStage (fun _ => rfl) fun _ => rfl
  have hw₁ := hw.keeps (Keeps.start (K := fun _ => False) hn hnew)
  have hs₁ := stage?_put (p := .inProgress) (a := .close) hs
  refine ensures_makeUnlessDeclared (fun _ _ _ => hput.trans hput)
    (fun l hl _ => ?_) fun _ => ?_
  · have hbound : c.Bound l n .close := bound_declaredClose hw hs hl
    rw [ensures_bind]
    refine resetBody_ensures.mono ?_
    rintro body c₂ rfl
    unfold implement
    simp only [ensures_bind, ensures_modifySources, ensures_modifyStage]
    have himplement : ∀ {c₁ : Compilation}, c₁.Bound l n .close →
        OverlooksAll c₁ { c₁ with sources := c₁.sources.modifyMethod l fun m =>
            { m.toConcrete with body := some body } } := fun hl =>
      .modifyMethod (Overlooks.not_predicate hl (by simp)) (fun _ => rfl)
        fun _ _ => rfl
    exact ((hput.trans (himplement hbound)).trans hmark).trans hput
  · simp only [ensures_bind, ensures_get]
    refine resetBody_ensures.mono ?_
    rintro body c₂ rfl
    refine (Overlooks.addMethod (P := fun _ => True) hw₁
      (mem_ids_of_stage? hs₁) Makings.isNew_procedure (by decide)).mono
      fun l c₃ hadded => ?_
    simp only [ensures_modifyStage, ensures_pure]
    exact ((hput.trans hadded.1).trans hmark).trans hput

/-- Nor does the making of a `doClose` method, the close method being there. -/
theorem doClose_overlooks {closed : Location} (hw : Seated (fun _ => False) c)
    (hclosed : c.progress n .close = .done closed) :
    Ensures (doClose n) c fun _ c' => OverlooksAll c c' := by
  refine ensures_request requests_doClose (fun _ _ => .refl _ c)
    fun s hs hnew => ?_
  have hn : c.Offers n .doClose := ⟨s, hs, trivial⟩
  have hput : ∀ {p c₁}, OverlooksAll c₁ (c₁.put n p .doClose) :=
    .put_other (by simp)
  have hstart := Keeps.start (K := fun _ => False) hn hnew
  have hs₁ := stage?_put (p := .inProgress) (a := .doClose) hs
  unfold makeDoClose
  rw [ensures_bind]
  refine (ensures_close_of_done (hstart.done hclosed)).mono ?_
  rintro _ _ ⟨rfl, rfl⟩
  simp only [ensures_bind, ensures_get]
  refine (Overlooks.addMethod (P := fun _ => True) (hw.keeps hstart)
    (mem_ids_of_stage? hs₁) Makings.isNew_procedure (by decide)).mono
    fun l c₃ hadded => ?_
  exact (hput.trans hadded.1).trans hput

/-- Nor does the closing of dependants. -/
theorem closeDependants_overlooks (hw : Seated (fun _ => False) c)
    (hclosed : Closed c) (hn : n ∈ c.graph.ids) :
    Ensures (closeDependants n) c fun _ c' => OverlooksAll c c' := by
  refine ((closeDependants_appends hw hclosed hn).and
    (closeDependants_evolves (.refl c) hn)).mono fun _ c' h => ?_
  obtain ⟨⟨happends, -⟩, hevolves⟩ := h
  exact .ofKeeps happends.keeps hevolves.sources fun m _ => by
    rw [happends.progress]

/-- What holds before and after each request. -/
structure Checking (c₀ c : Compilation) : Prop extends Checked c₀ c where
  later : Later c₀ c

namespace Checking

theorem seated (hc : Seated K c₀) (h : Checking c₀ c) :
    Seated (fun _ => False) c :=
  Seated.keeps { hc with bodies := fun _ hl => hl.elim } h.later

/-- What keeps the rest and makes no predicate. -/
theorem overlooks (h : Checking c₀ c) (hc : Seated K c₀) (hk : Later c c')
    (ho : OverlooksAll c c') : Checking c₀ c' :=
  ⟨h.toChecked.overlooks hc ho, h.later.trans hk⟩

end Checking

theorem predicate_checking (hc : Seated K c₀) (h : Checking c₀ c) :
    Ensures (predicate n) c fun _ c' => Checking c₀ c' := by
  have hw := h.seated hc
  refine ((predicate_keeps hw).and (predicate_checked hc h.toChecked hw)).mono
    fun l c' hmade => ?_
  exact ⟨hmade.2, h.later.trans hmade.1.1⟩

theorem guardStatement_checking (hc : Seated K c₀) (h : Checking c₀ c) :
    Ensures (guardStatement n) c fun _ c' => Checking c₀ c' :=
  ensures_guardStatement ((predicate_checking hc h).mono fun _ _ h₁ _ _ =>
    ⟨fun _ _ => h₁, fun _ => h₁⟩)

/-- Making the accessor of a field. -/
theorem accessor_checking (hc : Seated K c₀) (h : Checking c₀ c)
    (field : Identity) :
    Ensures (accessor n field) c fun _ c' => Checking c₀ c' := by
  suffices hchecked : Ensures (accessor n field) c fun _ c' => Checked c₀ c' by
    refine ((accessor_keeps (h.seated hc)).and hchecked).mono
      fun _ c' hmade => ?_
    exact ⟨hmade.2, h.later.trans hmade.1.1⟩
  refine ensures_requestAt (requests_accessor field)
    (fun _ _ _ _ _ _ => h.toChecked) fun s i hs hi hnew => ?_
  have hn : c.Offers n (.accessor i) := ⟨s, hs, Stage.offers_accessor hi⟩
  have hput : ∀ {p c₁}, OverlooksAll c₁ (c₁.put n p (.accessor i)) :=
    .put_other (by simp)
  have h₁ : Checking c₀ (c.put n .inProgress (.accessor i)) :=
    h.overlooks hc (.start hn hnew) hput
  unfold makeAccessor
  rw [ensures_bind]
  refine (guardStatement_checking hc h₁).mono fun guard c₂ h₂ => ?_
  have hw₂ := h₂.seated hc
  simp only [ensures_bind, ensures_get]
  split
  · rename_i l hl
    have hhas : c₂.sources.Has l := by
      refine hw₂.declared n (.accessor i) l ?_
      rw [h₂.nodes.declared?, ← h.nodes.declared?, declared?_eq hs,
        Stage.declared?_accessor (Stage.offers_accessor hi)]
      exact hl
    simp only [ensures_bind, ensures_get, ensures_pure]
    refine (Overlooks.implementAs (P := fun _ => True) (n := n)
      (r := .accessor) hhas).mono
      fun _ c₃ h₃ => ?_
    exact h₃.mono fun _ c₄ ho => h₂.toChecked.overlooks hc (ho.trans hput)
  · have hids : n ∈ c₂.graph.ids := by
      obtain ⟨s₀, hs₀⟩ := h.nodes.stage_of_stage hs
      obtain ⟨s₂, hs₂, -⟩ := h₂.nodes.exists_stage hs₀
      exact mem_ids_of_stage? hs₂
    refine (Overlooks.addMethod (P := fun _ => True) hw₂ hids
      Makings.isNew_procedure (by decide)).mono fun l c₃ hadded => ?_
    exact h₂.toChecked.overlooks hc (hadded.1.trans hput)

/-- Making the wrapper of a tagged method. -/
theorem guarded_checking (hc : Seated K c₀) (h : Checking c₀ c)
    (method : Identity) :
    Ensures (guarded n method) c fun _ c' => Checking c₀ c' := by
  suffices hchecked : Ensures (guarded n method) c fun _ c' => Checked c₀ c' by
    refine ((guarded_keeps (h.seated hc)).and hchecked).mono
      fun _ c' hmade => ?_
    exact ⟨hmade.2, h.later.trans hmade.1.1⟩
  refine ensures_requestAt (requests_guarded method)
    (fun _ _ _ _ _ _ => h.toChecked) fun s i hs hi hnew => ?_
  have hn : c.Offers n (.guarded i) := ⟨s, hs, Stage.offers_guarded hi⟩
  have hput : ∀ {p c₁}, OverlooksAll c₁ (c₁.put n p (.guarded i)) :=
    .put_other (by simp)
  have h₁ : Checking c₀ (c.put n .inProgress (.guarded i)) :=
    h.overlooks hc (.start hn hnew) hput
  unfold makeGuarded
  rw [ensures_bind]
  refine (guardStatement_checking hc h₁).mono fun guard c₂ h₂ => ?_
  have hids : n ∈ c₂.graph.ids := by
    obtain ⟨s₀, hs₀⟩ := h.nodes.stage_of_stage hs
    obtain ⟨s₂, hs₂, -⟩ := h₂.nodes.exists_stage hs₀
    exact mem_ids_of_stage? hs₂
  simp only [ensures_bind, ensures_get]
  refine Ensures.mono (Overlooks.addMethod (P := fun _ => True)
    (h₂.seated hc) hids ⟨rfl, rfl, rfl⟩ (by decide)) fun l c₃ hadded => ?_
  exact h₂.toChecked.overlooks hc (hadded.1.trans hput)

-- ===================================================================== passes

namespace Checking

/-- A body may be changed that is bound as such. -/
theorem changeBody (h : Checking c₀ c) (hc : Seated K c₀) (hl : c.Bound l n r)
    (hr : r.isBody = true) (f : Method → Option Block) :
    Checking c₀ { c with
    sources := c.sources.modifyMethod l fun m => { m with body := f m } } := by
  have hne : r ≠ .predicate := by
    rintro rfl
    cases hr
  refine h.overlooks hc (.ofSources (.modifyMethod (fun _ => rfl) hl.1 id)) ?_
  exact .modifyMethod (Overlooks.not_predicate hl hne) (fun _ => rfl)
    fun _ hm => hm

end Checking

/-- Guarding carries the checks along. -/
theorem carries_checking (hc : WellMade (fun _ => False) c₀) :
    Carries (Checking c₀) where
  wellMade _ h := hc.keeps h.later
  close n c h := by
    have hw := h.seated hc.toSeated
    refine ((close_keeps hw fun _ _ _ => id).and (close_overlooks hw)).mono
      fun _ c' hmade => ?_
    exact h.overlooks hc.toSeated hmade.1.1 hmade.2
  accessor _ field _ h := accessor_checking hc.toSeated h field
  guarded _ method _ h := guarded_checking hc.toSeated h method
  detach _ _ _ _ h hl hr := h.changeBody hc.toSeated hl hr _
  attach _ _ _ _ _ _ _ _ h hlater hl hr _ :=
    h.changeBody hc.toSeated (hl.keeps hlater) hr _

variable {f : Block → Block}

theorem modifyBody_checking (hc : Seated K c₀) (h : Checking c₀ c)
    (hl : c.Bound l n r) (hr : r.isBody = true) :
    Ensures (modifyBody l f) c fun _ c' => Checking c₀ c' ∧ Later c c' :=
  ensures_modifySources.2 ⟨h.changeBody hc hl hr _,
    .ofSources (.modifyMethod (fun _ => rfl) hl.1 id)⟩

/-- Letting the init methods close the dependants. -/
theorem closeDependantsAfterInits_checking {predicate closer : Location}
    {s : Stage}
    (hc : Seated K c₀) (h : Checking c₀ c)
    (hs : (c.graph.get n).stage? = some s) :
    Ensures (s.initMethods.forM (closeDependantsAfterInit n predicate closer))
      c fun _ c' =>
      Checking c₀ c' ∧ Later c c' := by
  refine ensures_forM (I := fun _ c' => Checking c₀ c' ∧ Later c c')
    (fun _ init hinit c₁ h₁ => ?_) ⟨h, .refl _ c⟩
  obtain ⟨h₁, hlater⟩ := h₁
  have hbound : c₁.Bound init n .init :=
    (bound_initMethod (h.seated hc) hs hinit).keeps hlater
  refine ensures_closeDependantsAfterInit.2 ?_
  exact (modifyBody_checking hc h₁ hbound rfl).mono fun _ c₂ h₂ =>
    ⟨h₂.1, hlater.trans h₂.2⟩

theorem closeDependantsFirst_checking {predicate close : Location}
    {dependants : Option Location}
    (hc : Seated K c₀) (h : Checking c₀ c) (hclose : c.Bound close n .close) :
    Ensures (closeDependantsFirst n predicate close dependants) c fun _ c' =>
      Checking c₀ c' ∧ Later c c' := by
  refine ensures_closeDependantsFirst ⟨h, .refl _ c⟩ fun d _ s hs => ?_
  refine (closeDependantsAfterInits_checking hc h hs).mono fun _ c₁ h₁ => ?_
  exact (modifyBody_checking hc h₁.1 (hclose.keeps h₁.2) rfl).mono
    fun _ c₂ h₂ => ⟨h₂.1, h₁.2.trans h₂.2⟩

/-- The last part of preparing a stage. -/
theorem leaveAndAccess_checking {predicate close doClose : Location}
    (hc : Seated K c₀) (h : Checking c₀ c) (hclose : c.Bound close n .close)
    (hdoClose : c.Bound doClose n .doClose) :
    Ensures (leaveAndAccess n predicate close doClose) c fun _ c' =>
      Checking c₀ c' := by
  refine ensures_leaveAndAccess ?_ fun c₃ field h₃ =>
    accessor_checking hc h₃ field
  refine (modifyBody_checking hc h hclose rfl).mono fun _ c₁ h₁ => ?_
  exact (modifyBody_checking hc h₁.1 (hdoClose.keeps h₁.2) rfl).mono
    fun _ c₂ h₂ => h₂.1

/-- Preparing a node makes its predicate if it is not there, and changes
none. -/
theorem prepare_checking (hc : Seated K c₀) (h : Checking c₀ c)
    (hclosed : Closed c)
    (hn : n ∈ c.graph.ids) :
    Ensures (prepare n) c fun _ c' => Checking c₀ c' := by
  have hclosing : ∀ {c₁}, Checking c₀ c₁ → Later c c₁ →
      Ensures (closeDependants n) c₁
      fun _ c₂ => Checking c₀ c₂ ∧ Later c c₂ := by
    intro c₁ h₁ hlater
    have hw₁ := h₁.seated hc
    have hclosed₁ := hclosed.keeps hlater
    have hn₁ := hlater.mem_ids.2 hn
    refine ((closeDependants_keeps hw₁ hclosed₁ hn₁).and
      (closeDependants_overlooks hw₁ hclosed₁ hn₁)).mono fun _ c₂ h₂ => ?_
    exact ⟨h₁.overlooks hc h₂.1 h₂.2, hlater.trans h₂.1⟩
  refine ensures_prepare (fun _ => (hclosing h (.refl _ c)).mono fun _ _ h₁ =>
    h₁.1) fun s hs => ?_
  obtain ⟨closed, hdone⟩ := hclosed n s hs
  refine ((predicate_keeps (h.seated hc)).and (predicate_checking hc h)).mono
    fun predicate c₁ h₁ => ?_
  refine (hclosing h₁.2 h₁.1.1).mono fun dependants c₂ h₂ => ?_
  obtain ⟨h₂, hlater₂⟩ := h₂
  have hw₂ := h₂.seated hc
  refine (ensures_close_of_done (hlater₂.done hdone)).mono ?_
  rintro _ _ ⟨rfl, rfl⟩
  refine ((doClose_adds hw₂ (hclosed.keeps hlater₂ n)).and
    (doClose_overlooks hw₂ (hlater₂.done hdone))).mono
    fun doClose c₃ hmade => ?_
  obtain ⟨⟨hk₃, hdoClose, -⟩, ho⟩ := hmade
  have h₃ : Checking c₀ c₃ := h₂.overlooks hc hk₃.later ho
  have hclose₃ : c₃.Bound closed n .close :=
    ((h₃.seated hc).made n .close closed (hk₃.done (hlater₂.done hdone))).1
  have hdoClose₃ : c₃.Bound doClose n .doClose :=
    ((h₃.seated hc).made n .doClose doClose hdoClose).1
  refine (closeDependantsFirst_checking hc h₃ hclose₃).mono fun _ c₄ h₄ => ?_
  exact leaveAndAccess_checking hc h₄.1 (hclose₃.keeps h₄.2)
    (hdoClose₃.keeps h₄.2)

theorem prepareAll_checking {order : List DependencyId} (hc : Seated K c₀)
    (h : Checking c₀ c) (hclosed : Closed c)
    (horder : ∀ n ∈ order, n ∈ c.graph.ids) :
    Ensures (order.forM prepare) c fun _ c' => Checking c₀ c' := by
  have hw : Seated (HoldsBody c) c := (h.seated hc).ofBodies
  refine (ensures_forM (I := fun _ c' => Checking c₀ c' ∧ Prepares c c')
    (fun _ n hmem c₁ h₁ => ?_) ⟨h, .refl _ c, fun _ _ => rfl⟩).mono
    fun _ _ h' => h'.1
  obtain ⟨h₁, hprepares⟩ := h₁
  have hn := hprepares.later.mem_ids.2 (horder n hmem)
  exact (prepare_checking hc h₁ (hclosed.keeps hprepares.later) hn).and
    (prepare_prepares hw hclosed (horder n hmem) hprepares)

/-- After an analysis no predicate is made. -/
theorem checking_of_discovered (hc : Analysis.Discovered c) :
    Checking c c where
  nodes _ := rfl
  sources := .refl _
  bound _ _ hl := hl
  waiting _ _ _ _ := rfl
  made l m hl := by
    rw [hc.unstarted] at hl
    cases hl
  later := .refl _ c

-- ============================================================== close methods

/-- A close method that is declared with a body, or a body of another role, is
not what is made in the place of an abstract one. -/
theorem not_mem_bodyLocations (hc : Analysis.Discovered c)
    (hk : Keeps K c c') {s : Stage}
    (hs : (c.graph.get n).stage? = some s)
    (hconcrete : s.hasConcreteClose c.sources = false)
    (hl : c'.Bound l n .close) : l ∉ c.bodyLocations n := by
  intro hmem
  rcases mem_bodyLocations.1 hmem with hmember | hclose
  · obtain ⟨role, hmem, hrole, -⟩ :=
      DependencyNode.mem_members_of_mem_memberBodies hmember
    have hbound := (hc.seated.members n (l, role) hmem).keeps hk
    exact hrole (hbound.unique hl).2
  · unfold closeBody? at hclose
    rw [hc.unstarted, declared?_eq hs] at hclose
    obtain ⟨hdeclared, hbody⟩ := Option.filter_eq_some_iff.1 hclose
    have hdeclared : s.declaredClose = some l := hdeclared
    unfold Stage.hasConcreteClose at hconcrete
    rw [hdeclared, Option.any_some, hbody] at hconcrete
    cases hconcrete

/-- The close method that is made for a stage is a guarded reset of its
sentinel. -/
theorem guardNodes_resets (hc : Analysis.Discovered c) :
    Ensures guardNodes c fun _ c' => ∀ n s, (c.graph.get n).stage? = some s →
      s.hasConcreteClose c.sources = false →
        ∃ l f, c'.progress n .close = .done l
        ∧ s.sentinel? = some f ∧ (c'.sources.method l).body
          = some ((resetOf c.sources f.location).rewrite
            (guardedForm c' n)) := by
  refine (guardNodes_settles hc).mono fun _ c' hguarded n s hs hconcrete => ?_
  obtain ⟨c₁, hclose, hk, hclosed, hlater, hsettled⟩ := hguarded
  obtain ⟨-, hbodies⟩ := closeStages_bodies hc () c₁ hclose
  obtain ⟨s₁, hs₁, -⟩ := hk.nodes.exists_stage hs
  obtain ⟨l, hl⟩ := hclosed n s₁ hs₁
  have hmem : l ∈ c₁.bodyLocations n := by
    rw [mem_bodyLocations, hclosed.closeBody?_eq, hl]
    exact Or.inr rfl
  have hbound : c₁.Bound l n .close :=
    ((hc.seated.keeps hk).made n .close l hl).1
  rcases hbodies n l hmem with ⟨hthere, -⟩ | ⟨s', f, hs', -, hf, hbody⟩
  · exact absurd hthere (not_mem_bodyLocations hc hk hs hconcrete hbound)
  obtain rfl := Option.some.inj (hs.symm.trans hs')
  refine ⟨l, f, hlater.done hl, hf, ?_⟩
  rw [(hsettled n l hmem c' (.refl _ c')).rewritten, Method.rewrite, hbody]
  rfl

-- ================================================================= the result

/-- A stage after an analysis, the guarding and the preparation of all nodes,
each once and in any order. Where neither its predicate nor its close method is
declared with a body, the predicate checks its sentinel, and the close method
ends with resetting it. The reset has been guarded, and the check has not. -/
theorem prepareAll_checks {sources : Sources} {tree : Composition}
    {options : Options} {report : AnalysisReport} {counts : GuardReport}
    {order : List DependencyId} {c'' : Compilation} {s : Stage}
    (hid : ∀ d ∈ sources.decls, ∀ m ∈ d.methods, m.id = m.identityIn d.name)
    (hanalyse : analyse.runOn { sources, tree, options } = (.ok report, c))
    (hguard : guardNodes.runOn c = (.ok counts, c'))
    (horder : order.Perm c'.graph.ids)
    (hprepare : (order.forM prepare).runOn c' = (.ok (), c''))
    (hs : (c.graph.get n).stage? = some s)
    (hpredicate : s.hasConcretePredicate sources = false)
    (hclose : s.hasConcreteClose sources = false) :
    ∃ p l f, c''.progress n .predicate = .done p
      ∧ c''.progress n .close = .done l
      ∧ s.sentinel? = some f
      ∧ (c''.sources.method p).body = some (checkOf sources f.location)
      ∧ ∃ before, (c''.sources.method l).body
          = some (before ++ (resetOf sources f.location).rewrite
            (guardedForm c' n)) := by
  have hdiscovered : Analysis.Discovered c :=
    Analysis.analyse_discovered rfl (fun _ => Sources.identified_of_has hid)
      report c hanalyse
  have hall := prepareAll_treated hanalyse hguard horder hprepare
  obtain rfl := hall.sources
  have hchecking' : Checking c c' :=
    (carries_checking hdiscovered.wellMade).guardNodes_holds
    (checking_of_discovered hdiscovered) counts c' hguard
  have hchecking : Checking c c'' :=
    prepareAll_checking hdiscovered.seated hchecking'
    hall.ready.closed (fun n hn => horder.mem_iff.1 hn) () c'' hprepare
  obtain ⟨s'', hs'', -⟩ := hchecking.nodes.exists_stage hs
  obtain ⟨ms, h⟩ := hall.wrapped.of_stage (fun _ => horder.mem_iff.2) hs''
  obtain ⟨l, f, hl, hf, hreset⟩ :=
    guardNodes_resets hdiscovered counts c' hguard n s hs hclose
  obtain rfl :=
    Progress.done.inj (h.made.close.symm.trans (hall.wrapped.later.done hl))
  obtain ⟨s', f', hs', -, hf', hchecks⟩ :=
    (hchecking.made ms.predicate n h.made.predicate).2 s hs hpredicate
  obtain rfl := Option.some.inj (hs.symm.trans hs')
  obtain rfl := Option.some.inj (hf.symm.trans hf')
  refine ⟨ms.predicate, ms.close, f, h.made.predicate, h.made.close,
    hf, hchecks, leaving (c''.sources.methodRef ms.predicate)
      :: ms.closer.toList.map fun l => calling (c''.sources.methodRef l), ?_⟩
  rw [h.closeBody, Method.bodyOrEmpty, hreset]
  rfl

end Stagewise.Lifecycle
