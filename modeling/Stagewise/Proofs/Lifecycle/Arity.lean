/-
Every call that guarding makes has as many arguments as there are parameters.

Before guarding, all calls of the declarations are to fit. So they do
afterwards, and every accessor takes no parameters and answers with the type of
its field (`guardNodes_fits`), if that is so of the abstract methods which the
program declares to be implemented as accessors.

For this is not checked. Such a method is found by its name alone: it is the
first abstract one of the declaration that is named like the field
(`TypeDecl.declaredAccessor?`), whatever its parameters. A guard calls it
without arguments all the same (`guardNodes_calls_overload`).
-/
import Stagewise.Proofs.Analysis.StageNames
import Stagewise.Proofs.Lifecycle.Shapes

namespace Stagewise

-- =============================================================== declarations

/-- That all calls of all declarations fit, nested types and initial values
included. -/
def Sources.Fits (s : Sources) : Prop :=
  ∀ d ∈ s.decls, ∀ e ∈ d.exprs, e.fits = true

instance : DecidablePred Sources.Fits :=
  fun s => inferInstanceAs
    (Decidable (∀ d ∈ s.decls, ∀ e ∈ d.exprs, e.fits = true))

/-- Whether a call that names the identity of a method also names as many
parameters. -/
def Expr.agreesOn (m : Method) : Expr → Bool
  | .call _ r _ => m.id != r.identity || m.params.length == r.params.length
  | _ => true

/-- That the methods which the calls of the declarations name by their
identities have as many parameters as the calls say. -/
def Sources.CallsAgree (s : Sources) : Prop :=
  ∀ d ∈ s.decls, ∀ e ∈ d.exprs, ∀ t ∈ s.decls, ∀ m ∈ t.methods,
    e.agreesOn m = true

instance : DecidablePred Sources.CallsAgree :=
  fun s => inferInstanceAs (Decidable
    (∀ d ∈ s.decls, ∀ e ∈ d.exprs, ∀ t ∈ s.decls, ∀ m ∈ t.methods,
      e.agreesOn m = true))

/-- The method that is implemented as the accessor of a field of this name. -/
def TypeDecl.declaredAccessor? (d : TypeDecl) (name : String) :
    Option Method :=
  d.methods.find? fun m => m.name == name && m.isAbstract

/-- That the methods which are implemented as accessors have no parameters and
the types of their fields. -/
def Sources.DeclaresAccessors (s : Sources) : Prop :=
  ∀ d ∈ s.decls, ∀ f ∈ d.fields, f.isStageField = true →
    ∀ m ∈ d.declaredAccessor? f.name, m.params = [] ∧ m.returns = f.type

instance : DecidablePred Sources.DeclaresAccessors :=
  fun s => inferInstanceAs
    (Decidable (∀ d ∈ s.decls, ∀ f ∈ d.fields, f.isStageField = true →
      ∀ m ∈ d.declaredAccessor? f.name, m.params = [] ∧ m.returns = f.type))

-- ================================================================== one stage

namespace Stage

variable {s : Sources} {leaf : DeclId} {seed l : Location} {stage : Stage}

/-- The declared accessors are those that are found by name. -/
theorem declaredAccessor_of_discover (h : discover s leaf seed = .ok stage) :
    ∀ f ∈ stage.fields, (s.field f.location).isStageField = true
      ∧ f.declaredAccessor = declaredAccessor? s f.location := by
  obtain ⟨stage₁, stage₂, hmethods, hfields, -, rfl⟩ := discover_scans h
  have hempty : stage₁.fields = [] := by
    refine foldlM_invariant (I := fun stage => stage.fields = [])
      (fun l _ stage stage' hstage hscan => ?_) _ _ rfl hmethods
    rcases scanMethod_cases hscan with
      ⟨-, rfl⟩ | ⟨-, rfl⟩ | ⟨-, rfl⟩ | ⟨-, rfl⟩ | rfl <;> exact hstage
  refine foldlM_invariant (I := fun stage => ∀ f ∈ stage.fields,
      (s.field f.location).isStageField = true
        ∧ f.declaredAccessor = declaredAccessor? s f.location)
    (fun l _ stage stage' hstage hscan => ?_) _ _ ?_ hfields
  · rcases scanField_cases hscan with ⟨hbelongs, _, _, rfl⟩ | ⟨-, rfl⟩
    · exact List.forall_mem_append.2
        ⟨hstage, List.forall_mem_singleton.2 ⟨hbelongs.1, rfl⟩⟩
    · exact hstage
  · rw [hempty]
    exact List.forall_mem_nil _

/-- The init method that guards call is one without parameters. -/
theorem noArgInit_of_discover (h : discover s leaf seed = .ok stage)
    (hl : stage.noArgInit = some l) :
    l ∈ stage.initMethods ∧ (s.method l).params = [] := by
  obtain ⟨_, stage₂, -, -, -, rfl⟩ := discover_scans h
  have hfind : stage₂.initMethods.find? (fun l => (s.method l).params.isEmpty)
    = some l := hl
  have hnone := List.find?_some hfind
  exact ⟨List.mem_of_find?_eq_some hfind, List.isEmpty_iff.1 hnone⟩

/-- A method that is found by the name of a field is the one of the
declaration. -/
theorem declaredAccessor?_eq_some {field : Location}
    (h : declaredAccessor? s field = some l) :
    (s.get field.decl).declaredAccessor? (s.field field).name
      = some (s.method l) := by
  obtain ⟨i, hi, rfl⟩ := Option.map_eq_some_iff.1 h
  obtain ⟨hlt, hfound, hbefore⟩ := List.findIdx?_eq_some_iff_getElem.1 hi
  have hmethod : s.method ⟨field.decl, i⟩ = (s.get field.decl).methods[i] := by
    unfold Sources.method
    rw [List.getD_eq_getElem?_getD, List.getElem?_eq_getElem hlt]
    rfl
  unfold TypeDecl.declaredAccessor?
  rw [hmethod]
  refine List.find?_eq_some_iff_getElem.2 ⟨hfound, i, hlt, rfl, fun j hj => ?_⟩
  rw [Bool.eq_false_iff.2 (hbefore j hj)]
  rfl

end Stage

-- ================================================================= all stages

namespace Lifecycle

open Compilation Step

variable {c c' c₀ : Compilation} {n : DependencyId} {l : Location}
variable {e : Expr} {b : Block}

/-- The stages that an analysis leaves were discovered in the declarations,
which it leaves as they were. -/
theorem analyse_stages (hgraph : c.graph = {})
    (hfields : c.bindings.fieldStages = [])
    (hroles : c.bindings.methodRoles = []) :
    Ensures analyse c fun _ c' => c'.sources = c.sources ∧
      ∀ n s, (c'.graph.get n).stage? = some s →
        ∃ seed, Stage.discover c.sources s.decl seed = .ok s := by
  unfold analyse Stagewise.checkWrites
  simp only [ensures_bind, ensures_get, ensures_ofExcept, ensures_pure]
  refine Analysis.bindReferences_frame.mono fun _ c₁ h₁ => ?_
  obtain ⟨t, rs, rfl⟩ := h₁
  have hempty := Analysis.seeded_of_empty
    (c := { c with
    tree := t, bindings := { c.bindings with references := rs } })
    hgraph hfields hroles
  refine (Analysis.discoverNodes_seeded hempty).mono fun _ c₂ h₂ => ?_
  intro _ _
  refine Analysis.linkNodes_sameMembers.mono fun _ c₃ h₃ => ?_
  refine Analysis.placeNodes_sameMembers.mono fun _ c₄ h₄ => ?_
  refine ⟨h₄.sources.trans (h₃.sources.trans h₂.sources), fun n s hs => ?_⟩
  have hnodes : c₄.graph.get n = c₂.graph.get n := by
    unfold DependencyGraph.get
    rw [h₄.nodes, h₃.nodes]
  rw [hnodes] at hs
  obtain ⟨seed, -, -, hdiscover⟩ := h₂.stages n s hs
  exact ⟨seed, hdiscover⟩

/-- A call that names as many parameters as the method of its identity has
suits it. -/
theorem apt_of_agrees (hc : Analysis.Discovered c)
    (htagged : ∀ n s, (c.graph.get n).stage? = some s →
      ∀ m ∈ s.methods, m.id = (c.sources.method m.location).id)
    (hfits : e.fits = true)
    (hagrees : ∀ l, c.sources.Has l → e.agreesOn (c.sources.method l) = true) :
    Apt c e := by
  refine ⟨hfits, ?_⟩
  cases e with
  | call t f args =>
      intro n s i _ hs hi w hw
      obtain ⟨hlt, hid, -⟩ := List.findIdx?_eq_some_iff_getElem.1 hi
      unfold Compilation.methodAt? at hw
      rw [hs, Option.bind_some, List.getElem?_eq_getElem hlt] at hw
      obtain rfl := Option.some.inj hw
      have hhas := (bound_taggedMethod hc.seated hs (List.getElem_mem hlt)).1
      have hsame : (c.sources.method s.methods[i].location).id
          = f.identity := by
        rw [← htagged n s hs _ (List.getElem_mem hlt)]
        exact beq_iff_eq.1 hid
      have hlength := hagrees _ hhas
      simp only [Expr.agreesOn, hsame, bne_self_eq_false, Bool.false_or,
        beq_iff_eq] at hlength
      exact hlength.trans (beq_iff_eq.1 hfits).symm
  | _ => trivial

/-- After an analysis of declarations whose calls fit, and whose methods that
are taken for accessors are such. -/
theorem signed_of_stages (hc : Analysis.Discovered c)
    (hstages : ∀ n s, (c.graph.get n).stage? = some s →
      ∃ seed, Stage.discover c.sources s.decl seed = .ok s)
    (hfits : c.sources.Fits) (hagree : c.sources.CallsAgree)
    (haccessors : c.sources.DeclaresAccessors) :
    Signed c ∧ ∀ d ∈ c.sources.decls, ∀ e ∈ d.exprs, Apt c e := by
  have htagged : ∀ n s, (c.graph.get n).stage? = some s →
      ∀ m ∈ s.methods, m.id = (c.sources.method m.location).id := by
    intro n s hs m hm
    obtain ⟨seed, hdiscover⟩ := hstages n s hs
    exact ((Stage.found_discover hdiscover).methods m hm).2.1
  have hapt : ∀ d ∈ c.sources.decls, ∀ e ∈ d.exprs, Apt c e := by
    intro d hd e he
    refine apt_of_agrees hc htagged (hfits d hd e he) fun l hl => ?_
    exact hagree d hd e he _ (Sources.get_mem hl.decl) _
      (Sources.method_mem hl)
  refine ⟨⟨hc.wellMade, fun n a l hl => ?_, fun n s hs l hl => ?_,
    htagged, ?_⟩, hapt⟩
  · obtain ⟨s, hs, hl⟩ := Option.bind_eq_some_iff.1 hl
    obtain ⟨seed, hdiscover⟩ := hstages n s hs
    cases a with
    | predicate => exact ((Stage.discover_eq_ok hdiscover).2.predicate l hl).2
    | accessor i =>
        obtain ⟨f, hf, hl⟩ := Option.bind_eq_some_iff.1 hl
        obtain ⟨hfield, hdeclared⟩ :=
          Stage.declaredAccessor_of_discover hdiscover f
            (List.mem_of_getElem? hf)
        have hhas :=
          ((Stage.found_discover hdiscover).fields f
            (List.mem_of_getElem? hf)).1.1
        have hshape :=
          haccessors _ (Sources.get_mem hhas.decl) _
            (Sources.field_mem hhas) hfield
          _ (Stage.declaredAccessor?_eq_some (hdeclared.symm.trans hl))
        refine ⟨hshape.1, fun g hg => ?_⟩
        unfold Compilation.fieldAt? at hg
        rw [hs, Option.bind_some, hf] at hg
        obtain rfl := Option.some.inj hg
        exact hshape.2
    | close | doClose => trivial
    | guarded i => cases hl
  · obtain ⟨seed, hdiscover⟩ := hstages n s hs
    exact Stage.noArgInit_of_discover hdiscover hl
  · exact forall_initialOf hapt (apt_of_not_call (by simp))

-- =================================================================== the walk

/-- Guarding an expression makes a call that is apt: of an accessor without
arguments, or of a wrapper with those that the wrapped method was called
with. -/
theorem apt_guardedForm (hc : Signed c₀) (h : Fitting c₀ c) (he : Apt c₀ e) :
    Apt c₀ (guardedForm c n e) := by
  unfold guardedForm
  split
  · exact he
  · rename_i s hs
    split
    · rename_i t f
      cases hm : c.accessor? s f.identity with
      | none => exact he
      | some m =>
          obtain ⟨i, -, hmade⟩ := Option.bind_eq_some_iff.1 hm
          obtain ⟨l, hl, rfl⟩ := made?_eq_some.1 hmade
          have hparams : (c.sources.method l).params = [] :=
            (h.made s _ l hl).2.1
          refine h.apt_call_made hc hmade ?_
          show 0 = ((c.sources.method l).params.map Param.type).length
          rw [hparams]
          rfl
    · rename_i t f args
      cases hm : c.guarded? s f.identity with
      | none => exact he
      | some m =>
          obtain ⟨i, hi, hmade⟩ := Option.bind_eq_some_iff.1 hm
          obtain ⟨l, hl, rfl⟩ := made?_eq_some.1 hmade
          obtain ⟨stage, hstage, hi⟩ := Option.bind_eq_some_iff.1 hi
          obtain ⟨s₀, hs₀, hi₀, hw, -, -⟩ := h.tagged hc hstage hi
          have howner : c₀.bindings.stageOfMethod? f.identity = some s := by
            rw [← h.later.stageMethod]
            exact (Option.filter_eq_some_iff.1 hs).1
          have hlength := (h.made s _ l hl).2 _ hw
          have hsuits := he.suits s s₀ i howner hs₀ hi₀ _ hw
          refine h.apt_call_made hc hmade ?_
          show args.length
            = ((c.sources.method l).params.map Param.type).length
          rw [List.length_map, hlength, hsuits]
    · exact he

theorem apt_rewrite (hc : Signed c₀) (h : Fitting c₀ c)
    (hb : ∀ e ∈ b.exprs, Apt c₀ e) :
    ∀ e ∈ (b.rewrite (guardedForm c n)).exprs, Apt c₀ e := by
  rw [Block.exprs_rewrite keepsParts_guardedForm, List.forall_mem_map]
  intro e he
  rw [Expr.rewrite_eq]
  exact apt_guardedForm hc h ((hb e he).mapParts _)

/-- Another body of one method, if it is apt. -/
theorem Fitting.withBody {body : Option Block} (h : Fitting c₀ c)
    (hl : c.sources.Has l)
    (hbody : ∀ e ∈ (body.getD []).exprs, Apt c₀ e) :
    Fitting c₀ (withBody c l body) :=
  ⟨h.toFormed.withBody hbody,
    h.later.trans (withBody_keeps (K := fun _ => False) hl).later⟩

/-- What fits is carried along by the guarding of all bodies. -/
theorem carries_fitting (hc : Signed c₀) : Carries (Fitting c₀) where
  wellMade _ h := h.wellMade hc
  close _ _ h := close_fits hc h
  accessor _ field _ h := accessor_fits hc h field
  guarded _ method _ h := guarded_fits hc h method
  detach _ _ _ _ h hl _ := h.withBody hl.1 (List.forall_mem_nil _)
  attach c c' n l m r former h h' hlater hl _ hformer := by
    have hold : ∀ e ∈ former.exprs, Apt c₀ e := by
      have hexprs := h.bodies l hl.1
      rwa [Method.bodyOrEmpty, hformer] at hexprs
    exact h'.withBody (hl.keeps hlater).1 (apt_rewrite hc h' hold)

-- ================================================================= the result

/-- Guarding after an analysis, of declarations whose calls fit. Afterwards all
calls fit, those of guards and of made members included. And what is called in
the place of a read is a method without parameters that returns the type of the
field. The condition is that this holds of the methods which were declared to
become accessors. -/
theorem guardNodes_fits {sources : Sources} {tree : Composition}
    {options : Options} {report : AnalysisReport} {counts : GuardReport}
    (hid : ∀ d ∈ sources.decls, ∀ m ∈ d.methods, m.id = m.identityIn d.name)
    (hfits : sources.Fits) (hagree : sources.CallsAgree)
    (haccessors : sources.DeclaresAccessors)
    (hanalyse : analyse.runOn { sources, tree, options } = (.ok report, c))
    (hguard : guardNodes.runOn c = (.ok counts, c')) :
    c'.sources.Fits
      ∧ ∀ n id m, c'.accessor? n id = some m → ∃ l f,
          c'.sources.methodRef l = m ∧ c'.sources.HasField f
            ∧ (c'.sources.field f).id = id
            ∧ (c'.sources.method l).params = []
            ∧ (c'.sources.method l).returns = (c'.sources.field f).type := by
  have hdiscovered : Analysis.Discovered c :=
    Analysis.analyse_discovered rfl (fun _ => Sources.identified_of_has hid)
      report c hanalyse
  obtain ⟨hsources, hstages⟩ := analyse_stages rfl rfl rfl report c hanalyse
  dsimp only at hsources
  rw [← hsources] at hfits hagree haccessors hstages
  obtain ⟨hsigned, hapt⟩ :=
    signed_of_stages hdiscovered hstages hfits hagree haccessors
  have hstart : Fitting c c := by
    refine ⟨⟨fun _ => rfl, .refl _, fun l hl => forall_method hapt hl,
      fun n a l hl => ?_⟩, .refl _ c⟩
    rw [hdiscovered.unstarted] at hl
    cases hl
  have h : Fitting c c' :=
    (carries_fitting hsigned).guardNodes_holds hstart counts c' hguard
  refine ⟨?_, fun n id m hm => ?_⟩
  · have hall :=
      forall_exprs_of_rest h.sources.length h.sources.rest hapt h.bodies
    exact fun d hd e he => (hall d hd e he).fits
  · obtain ⟨i, hi, hmade⟩ := Option.bind_eq_some_iff.1 hm
    obtain ⟨l, hl, rfl⟩ := made?_eq_some.1 hmade
    obtain ⟨hhas, hparams, hreturns⟩ := h.made n (.accessor i) l hl
    rw [h.nodes.bind fun _ => Stage.fieldIndex?_unmade id] at hi
    obtain ⟨s, hs, hi⟩ := Option.bind_eq_some_iff.1 hi
    obtain ⟨hlt, hentry, -⟩ := List.findIdx?_eq_some_iff_getElem.1 hi
    obtain ⟨seed, hdiscover⟩ := hstages n s hs
    obtain ⟨⟨hfield, -⟩, hsame, -⟩ :=
      (Stage.found_discover hdiscover).fields _ (List.getElem_mem hlt)
    refine ⟨l, s.fields[i].location, rfl, h.sources.hasField hfield, ?_,
      hparams, ?_⟩
    · rw [h.sources.field, ← hsame]
      exact beq_iff_eq.1 hentry
    · rw [h.sources.field]
      refine hreturns _ ?_
      unfold Compilation.fieldAt?
      rw [hs, Option.bind_some, List.getElem?_eq_getElem hlt]
      rfl

/-- One type with a stage `A`, of which it has a tagged method, and a stage
`B`, which is made from the field of `A` by this method. -/
def overloadedSources (accessors : List Method) : Sources :=
  let a : Field :=
    { name := "a", type := .int, init := some (.literal (.int (-1))) }
  let b : Field :=
    { name := "b", type := .int, init := some (.literal (.int (-1))) }
  let put : Method :=
    { name := "put", params := [⟨"value", .int⟩], returns := .void,
      markers := [.stage "A"] }
  let initB : Method := { name := "initB", returns := .void, body := some [
    .expr (.assign none (.field none ⟨"P", "b"⟩) (.field none ⟨"P", "a"⟩)),
    .expr (.call none ⟨"P", "put", [.int]⟩ [.literal (.int 1)])] }
  let p : TypeDecl := { TypeDecl.participating "P" with
    fields := [a, b], methods := accessors ++ [put, initB] }
  { decls := [p.assignIdentities] }

/-- An abstract method named like the field of `A`. -/
def declaredA (params : List Param) : Method :=
  ({ name := "a", params, returns := .int } : Method).toAbstract

/-- These declarations with that type alone at the root. -/
def overloaded (accessors : List Method) : Compilation :=
  { sources := overloadedSources accessors, tree := pairTree }

/-- Both passes run on these declarations when they succeed and guard the read
and the call. -/
theorem overloaded_runs (accessors : List Method)
    (hanalysed : (analyse.runOn (overloaded accessors)).1.isOk = true)
    (hguarded : (guardNodes.runOn
      (analyse.runOn (overloaded accessors)).2).1.toOption.map
      (fun r => (r.reads, r.calls)) = some (1, 1)) :
    ∃ report c, analyse.runOn (overloaded accessors) = (.ok report, c)
      ∧ guardNodes.runOn c = (.ok ⟨1, 1⟩, (guardNodes.runOn c).2)
      ∧ c = (analyse.runOn (overloaded accessors)).2 := by
  rcases hanalyse : analyse.runOn (overloaded accessors) with ⟨_ | report, c⟩
  · rw [hanalyse] at hanalysed
    cases hanalysed
  rw [hanalyse] at hguarded
  rcases hguard : guardNodes.runOn c with ⟨_ | ⟨reads, calls⟩, c'⟩
  · rw [hguard] at hguarded
    cases hguarded
  rw [hguard] at hguarded
  obtain ⟨rfl, rfl⟩ := Prod.mk.inj (Option.some.inj hguarded)
  exact ⟨report, c, rfl, by rw [hguard], rfl⟩

/-- Where the declared accessor stands before its overload, it is called. -/
theorem guardNodes_fits_overloaded : ∃ report c c',
    analyse.runOn (overloaded [declaredA [], declaredA [⟨"index", .int⟩]])
      = (.ok report, c)
      ∧ guardNodes.runOn c = (.ok ⟨1, 1⟩, c') ∧ c'.sources.Fits
      ∧ c'.accessor? ⟨0⟩ (FieldRef.identity ⟨"P", "a"⟩)
        = some ⟨"P", "a", []⟩ := by
  obtain ⟨report, c, hanalyse, hguard, hc⟩ := overloaded_runs
    [declaredA [], declaredA [⟨"index", .int⟩]]
    (by decide +kernel) (by decide +kernel)
  refine ⟨report, c, _, hanalyse, hguard, ?_, ?_⟩
  · exact (guardNodes_fits (by decide +kernel) (by decide +kernel)
      (by decide +kernel) (by decide +kernel) hanalyse hguard).1
  · rw [hc]
    decide +kernel

/-- Where the overload stands first, it is implemented, and called without an
argument. -/
theorem guardNodes_calls_overload : ∃ report c c',
    (overloaded [declaredA [⟨"index", .int⟩], declaredA []]).sources.Fits
      ∧ analyse.runOn (overloaded [declaredA [⟨"index", .int⟩], declaredA []])
        = (.ok report, c)
      ∧ guardNodes.runOn c = (.ok ⟨1, 1⟩, c') ∧ ¬ c'.sources.Fits
      ∧ c'.accessor? ⟨0⟩ (FieldRef.identity ⟨"P", "a"⟩)
        = some ⟨"P", "a", [.int]⟩ := by
  obtain ⟨report, c, hanalyse, hguard, hc⟩ := overloaded_runs
    [declaredA [⟨"index", .int⟩], declaredA []]
    (by decide +kernel) (by decide +kernel)
  refine ⟨report, c, _, by decide +kernel, hanalyse, hguard, ?_, ?_⟩
  · rw [hc]
    decide +kernel
  · rw [hc]
    decide +kernel

end Lifecycle

end Stagewise
