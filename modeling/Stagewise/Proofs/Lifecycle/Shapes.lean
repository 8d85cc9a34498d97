/-
What guards call: the shapes of the members that are made for stages.

# Calls that fit

A call fits when it passes as many arguments as the method that it names has
parameters (`Expr.fits`). Guarding sends a call of a tagged method to the
wrapper of the method that has the named identity, with the arguments that it
had. So it matters too that they suit that method (`Suits`).

# Shapes

A guard calls a predicate, an accessor and an init method without arguments,
and passes to a wrapper what was passed to the wrapped method. `Shaped` says of
a made member that it can be called so. A compilation is `Signed` when the
methods that were declared for it are: the scan for stages looks at the
signatures of predicates (`Stage.Complete`), and at none of the methods that it
takes for accessors.

# The making of members

gives every member its shape, and to its body only calls that fit
(`predicate_fits`, `close_fits`, `accessor_fits`, `guarded_fits`). The one
invariant of all requests is `Fitting`; what is there besides, a request leaves
as it was.
-/
import Stagewise.Proofs.Lifecycle.Evolution
import Stagewise.Proofs.Lifecycle.Runs
import Stagewise.Proofs.Lifecycle.Writes

namespace Stagewise

-- ============================================================= calls that fit

/-- Whether an expression passes as many arguments as the method that it calls
has parameters, if it is a call. -/
def Expr.fits : Expr → Bool
  | .call _ m args => args.length == m.params.length
  | _ => true

namespace Compilation

/-- The field of a stage at a place. -/
def fieldAt? (c : Compilation) (n : DependencyId) (i : Nat) : Option Field :=
  ((c.graph.get n).stage?.bind fun s =>
    s.fields[i]?.map StageField.location).map c.sources.field

/-- The tagged method of a stage at a place. -/
def methodAt? (c : Compilation) (n : DependencyId) (i : Nat) : Option Method :=
  ((c.graph.get n).stage?.bind fun s =>
    s.methods[i]?.map StageMethod.location).map c.sources.method

end Compilation

namespace Lifecycle

open Compilation Step

variable {K : Location → Prop} {c c' c₀ : Compilation} {n : DependencyId}
variable {a : Artifact}
variable {l : Location} {r : Role} {m m' : Method} {body : Block} {e : Expr}

/-- That a call of a method that is tagged with a stage passes as many
arguments as this method has parameters. -/
def Suits (c : Compilation) : Expr → Prop
  | .call _ r args => ∀ n s i, c.bindings.stageOfMethod? r.identity = some n →
      (c.graph.get n).stage? = some s → s.methodIndex? r.identity = some i →
      ∀ w ∈ c.methodAt? n i, w.params.length = args.length
  | _ => True

/-- That an expression fits, and would after being guarded. -/
structure Apt (c : Compilation) (e : Expr) : Prop where
  fits : e.fits = true
  suits : Suits c e

/-- That a member has the parameters that it is called with, and an accessor
the type of its field. -/
def Shaped (c : Compilation) (n : DependencyId) : Artifact → Method → Prop
  | .predicate, m => m.params = []
  | .accessor i, m => m.params = [] ∧ ∀ f ∈ c.fieldAt? n i, m.returns = f.type
  | .guarded i, m => ∀ w ∈ c.methodAt? n i, m.params.length = w.params.length
  | _, _ => True

/-- That what was declared for the stages has its shape, and that initial
values are apt, like what they are put into. -/
structure Signed (c : Compilation) : Prop where
  wellMade : WellMade (fun _ => False) c
  declared : ∀ n a, ∀ l ∈ c.declared? n a, Shaped c n a (c.sources.method l)
  init : ∀ n s, (c.graph.get n).stage? = some s → ∀ l ∈ s.noArgInit,
    l ∈ s.initMethods ∧ (c.sources.method l).params = []
  tagged : ∀ n s, (c.graph.get n).stage? = some s →
    ∀ m ∈ s.methods, m.id = (c.sources.method m.location).id
  initial : ∀ l, ∀ e ∈ (initialOf c.sources l).subterms, Apt c e

/-- What holds while members are made for the stages of `c₀`: the bodies are
apt, and what is made has its shape. -/
structure Formed (c₀ c : Compilation) : Prop where
  nodes : SameNodes c₀ c
  sources : Sources.Extends c₀.sources c.sources
  bodies : ∀ l, c.sources.Has l → ∀ e ∈ (c.sources.method l).bodyOrEmpty.exprs,
    Apt c₀ e
  made : ∀ n a l, c.progress n a = .done l →
    c.sources.Has l ∧ Shaped c₀ n a (c.sources.method l)

/-- What holds before and after each request. -/
structure Fitting (c₀ c : Compilation) : Prop extends Formed c₀ c where
  later : Later c₀ c

-- ------------------------------------------------------------------ aptness

theorem apt_of_not_call (hcall : ∀ t r args, e ≠ .call t r args) :
    Apt c e := by
  cases e with
  | call t r args => exact absurd rfl (hcall t r args)
  | _ => exact ⟨rfl, trivial⟩

/-- A call of a method that is tagged with no stage is apt when it fits. -/
theorem apt_call {t : Option Expr} {f : MethodRef} {args : List Expr}
    (hlength : args.length = f.params.length)
    (hfree : c.bindings.stageOfMethod? f.identity = none) :
    Apt c (.call t f args) := by
  refine ⟨beq_iff_eq.2 hlength, fun n s i hn _ _ => ?_⟩
  rw [hfree] at hn
  cases hn

/-- Other parts make no call less apt. -/
theorem Apt.mapParts (h : Apt c e) (f : Expr → Expr) :
    Apt c (e.mapParts f) := by
  cases e with
  | call t r args =>
      have hlength : (args.map f).length = args.length := List.length_map f
      refine ⟨?_, fun n s i hn hs hi w hw => ?_⟩
      · show ((args.map f).length == r.params.length) = true
        rw [hlength]
        exact h.fits
      · rw [hlength]
        exact h.suits n s i hn hs hi w hw
  | _ => exact apt_of_not_call (by simp [Expr.mapParts])

theorem Shaped.congr (h : Shaped c n a m) (hparams : m'.params = m.params)
    (hreturns : m'.returns = m.returns) : Shaped c n a m' := by
  cases a with
  | predicate => exact hparams.trans h
  | accessor i =>
      exact ⟨hparams.trans h.1, fun f hf => hreturns.trans (h.2 f hf)⟩
  | guarded i => exact fun w hw =>
      (congrArg List.length hparams).trans (h w hw)
  | _ => trivial

theorem Shaped.extends {s s' : Sources} (h : Shaped c n a (s.method l))
    (hs : Sources.Extends s s') (hl : s.Has l) : Shaped c n a (s'.method l) :=
  h.congr (hs.params hl) (hs.returns hl)

-- ============================================================= single changes

namespace Formed

/-- The place of a field is known, and the field is what it was. -/
theorem fieldAt? (h : Formed c₀ c) (n : DependencyId) (i : Nat) :
    c.fieldAt? n i = c₀.fieldAt? n i := by
  have hplace :=
    h.nodes.bind (f := fun s => s.fields[i]?.map StageField.location)
    (fun s => by simp [Stage.unmade, StageField.unmade, Function.comp_def]) n
  have hfield : c.sources.field = c₀.sources.field := funext h.sources.field
  unfold Compilation.fieldAt?
  rw [hplace, hfield]

/-- A declared member has its shape at all times. -/
theorem declared (hc : Signed c₀) (h : Formed c₀ c)
    (hl : c.declared? n a = some l) :
    c.sources.Has l ∧ Shaped c₀ n a (c.sources.method l) := by
  rw [h.nodes.declared?] at hl
  have hhas := hc.wellMade.declared n a l hl
  exact ⟨h.sources.has l hhas, (hc.declared n a l hl).extends h.sources hhas⟩

theorem initial (hc : Signed c₀) (h : Formed c₀ c) (l : Location) :
    ∀ e ∈ (initialOf c.sources l).subterms, Apt c₀ e := by
  have hinitial : initialOf c.sources l = initialOf c₀.sources l := by
    unfold initialOf
    rw [h.sources.field]
  rw [hinitial]
  exact hc.initial l

/-- The progress of a member may be recorded, done only where it has its
shape. -/
theorem put {p : Progress Location} (h : Formed c₀ c) (hn : c.Offers n a)
    (hp : ∀ l, p = .done l →
      c.sources.Has l ∧ Shaped c₀ n a (c.sources.method l)) :
    Formed c₀ (c.put n p a) := by
  refine ⟨fun m => ?_, h.sources, h.bodies, fun m b l hl => ?_⟩
  · exact (unmade_mapStage (fun _ => Stage.unmade_put) m).trans (h.nodes m)
  · by_cases hmb : m = n ∧ b = a
    · obtain ⟨rfl, rfl⟩ := hmb
      rw [progress_put_self hn] at hl
      exact hp l hl
    · rw [progress_put_of_ne hmb] at hl
      exact h.made m b l hl

theorem start (h : Formed c₀ c) (hn : c.Offers n a) :
    Formed c₀ (c.put n .inProgress a) :=
  h.put hn fun _ hp => nomatch hp

/-- A change of a stage that is seen in the progress of no member. -/
theorem mapStage {f : Stage → Stage} (h : Formed c₀ c)
    (hf : ∀ s, (f s).unmade = s.unmade)
    (hp : ∀ s a, (f s).progress a = s.progress a) :
    Formed c₀ (c.mapStage n f) := by
  have hk : Later c (c.mapStage n f) := .mapStage hf hp
  refine ⟨fun m => (hk.nodes m).trans (h.nodes m), h.sources, h.bodies,
    fun m b l hl => ?_⟩
  refine h.made m b l ?_
  unfold Compilation.progress at hl ⊢
  rw [get_mapStage] at hl
  by_cases hm : m = n
  · subst hm
    rw [if_pos rfl, DependencyNode.stage?_mapStage, Option.map_map] at hl
    have hsame : (Stage.progress · b) ∘ f = (Stage.progress · b) :=
      funext fun s => hp s b
    rwa [hsame] at hl
  · rwa [if_neg hm] at hl

theorem bindings (h : Formed c₀ c) (b : Bindings) :
    Formed c₀ { c with bindings := b } :=
  ⟨h.nodes, h.sources, h.bodies, h.made⟩

/-- The declarations may gain methods and bodies that are apt. -/
theorem extend {s : Sources} (h : Formed c₀ c)
    (hs : Sources.Extends c.sources s)
    (hbodies : ∀ l, s.Has l → ∀ e ∈ (s.method l).bodyOrEmpty.exprs, Apt c₀ e) :
    Formed c₀ { c with sources := s } := by
  refine ⟨h.nodes, h.sources.trans hs, hbodies, fun n a l hl => ?_⟩
  obtain ⟨hhas, hshaped⟩ := h.made n a l hl
  exact ⟨hs.has l hhas, hshaped.extends hs hhas⟩

/-- A method may get a body that is apt. -/
theorem modifyMethod {f : Method → Method} (h : Formed c₀ c)
    (hsurface : ∀ m, (f m).surface = m.surface)
    (hmodifiers : ∀ m, m.modifiers.isAbstract = false →
      (f m).modifiers.isAbstract = false)
    (hbody : ∀ e ∈ (f (c.sources.method l)).bodyOrEmpty.exprs, Apt c₀ e) :
    Formed c₀ { c with sources := c.sources.modifyMethod l f } := by
  refine h.extend (.modifyMethod hsurface hmodifiers l) fun l' hl' => ?_
  have hl₀ : c.sources.Has l' := (Sources.has_modifyMethod f).1 hl'
  by_cases hhas : c.sources.Has l
  · rw [Sources.method_modifyMethod hhas]
    by_cases he : l' = l
    · rw [if_pos he]
      exact hbody
    · rw [if_neg he]
      exact h.bodies l' hl₀
  · rw [Sources.modifyMethod_of_not_has hhas]
    exact h.bodies l' hl₀

/-- A body may be taken away, and an apt one put in its place. -/
theorem withBody {b : Option Block} (h : Formed c₀ c)
    (hb : ∀ e ∈ (b.getD []).exprs, Apt c₀ e) : Formed c₀ (withBody c l b) :=
  h.modifyMethod (fun _ => rfl) (fun _ hm => hm) hb

/-- A method with an apt body may be appended. -/
theorem addMethod (h : Formed c₀ c) (hs : Seated K c) (hn : n ∈ c.graph.ids)
    (hm : m.body = some body) (hbody : ∀ e ∈ body.exprs, Apt c₀ e) :
    Ensures (addMethod n m r) c fun l c' => Formed c₀ c' ∧ c'.sources.Has l
      ∧ (c'.sources.method l).params = m.params
      ∧ (c'.sources.method l).returns = m.returns := by
  have hd := hs.decl n hn
  unfold Lifecycle.addMethod
  simp only [ensures_bind, ensures_get, ensures_modifySources,
    ensures_bindMethod, ensures_pure]
  intro b _
  have hnext := Sources.method_addMethod_next (m := m) hd
  have hgiven : ∀ owner, (m.withIdentity owner).params = m.params
      ∧ (m.withIdentity owner).returns = m.returns
      ∧ (m.withIdentity owner).bodyOrEmpty = m.bodyOrEmpty := by
    intro owner
    unfold Method.withIdentity
    split <;> exact ⟨rfl, rfl, rfl⟩
  refine ⟨(h.extend (.addMethod _ m) fun l hl => ?_).bindings b,
    (Sources.has_addMethod hd).2 (Or.inr rfl), ?_, ?_⟩
  · rcases (Sources.has_addMethod hd).1 hl with hl | rfl
    · rw [Sources.method_addMethod_of_has hl]
      exact h.bodies l hl
    · rw [hnext, (hgiven _).2.2, Method.bodyOrEmpty, hm]
      exact hbody
  · exact (congrArg Method.params hnext).trans (hgiven _).1
  · exact (congrArg Method.returns hnext).trans (hgiven _).2.1

theorem implementBody (h : Formed c₀ c) (hbody : ∀ e ∈ body.exprs, Apt c₀ e) :
    Ensures (implement l body) c fun _ c' => Formed c₀ c' :=
  ensures_modifySources.2
    (h.modifyMethod (fun _ => rfl) (fun _ _ => rfl) hbody)

end Formed

-- ================================================================ made bodies

theorem apt_readOf {s : Sources} : Apt c (readOf s l) :=
  apt_of_not_call (by simp [readOf])

/-- A check of a sentinel is apt if its initial value is. -/
theorem apt_sentinelCheck {s : Sources} {type : TypeRef}
    (hinitial : ∀ e ∈ (initialOf s l).subterms, Apt c e) :
    ∀ e ∈ Block.exprs [.ret (some (sentinelCheck (readOf s l)
      (initialOf s l) type))], Apt c e := by
  have hexprs : ∀ e : Expr, Block.exprs [.ret (some e)] = e.subterms := by
    intro e
    simp only [Block.exprs_cons, Block.exprs_nil, List.append_nil, Stmt.nodes,
      Node.exprs_stmt_cons, Node.exprs_nodesOf?, Expr.subtermsOfTarget]
  rw [hexprs]
  unfold sentinelCheck
  split
  · refine List.forall_mem_cons.2 ⟨apt_of_not_call (by simp), ?_⟩
    refine List.forall_mem_cons.2 ⟨apt_readOf, ?_⟩
    exact List.forall_mem_singleton.2 (apt_of_not_call (by simp))
  · exact List.forall_mem_cons.2 ⟨apt_of_not_call (by simp),
      List.forall_mem_cons.2 ⟨apt_readOf, hinitial⟩⟩

theorem apt_resetOf {s : Sources}
    (hinitial : ∀ e ∈ (initialOf s l).subterms, Apt c e) :
    ∀ e ∈ (resetOf s l).exprs, Apt c e := by
  rw [exprs_resetOf]
  exact List.forall_mem_cons.2 ⟨apt_of_not_call (by simp),
    List.forall_mem_cons.2 ⟨apt_readOf, hinitial⟩⟩

-- =================================================================== requests

/-- A member is recorded that has its shape. -/
theorem Formed.done (h : Formed c₀ c) (hn : c.Offers n a)
    (hl : c.sources.Has l ∧ Shaped c₀ n a (c.sources.method l)) :
    Formed c₀ (c.put n (.done l) a) := by
  refine h.put hn fun l' hl' => ?_
  obtain rfl := Progress.done.inj hl'
  exact hl

/-- What a stage offers once it offers always. -/
theorem Formed.offers (h : Formed c₀ c) (h' : Formed c₀ c')
    (hn : c.Offers n a) :
    c'.Offers n a := by
  have hback : SameNodes c c₀ := fun m => (h.nodes m).symm
  exact h'.nodes.offers (hback.offers hn)

/-- A declared member has its shape when it is recorded. -/
theorem Formed.done_declared (hc : Signed c₀) (h : Formed c₀ c)
    (h' : Formed c₀ c')
    (hn : c.Offers n a) (hl : c.declared? n a = some l) :
    Formed c₀ (c'.put n (.done l) a) := by
  refine h'.done (h.offers h' hn) (h'.declared hc ?_)
  rw [h'.nodes.declared?, ← h.nodes.declared?]
  exact hl

theorem predicate_formed (hc : Signed c₀) (h : Formed c₀ c)
    (hseated : Seated K c) :
    Ensures (predicate n) c fun _ c' => Formed c₀ c' := by
  refine ensures_request requests_predicate (fun _ _ => h) fun s hs hnew => ?_
  have hn : c.Offers n .predicate := ⟨s, hs, trivial⟩
  have h₁ := h.start hn
  have hseated₁ := hseated.keeps (Keeps.start (K := K) hn hnew)
  have hdeclared : ∀ l, s.declaredPredicate = some l →
      c.declared? n .predicate = some l :=
    fun l hl => (declared?_eq hs).trans hl
  refine ensures_makeUnlessDeclared (fun l hl _ => h.done_declared hc h₁ hn
    (hdeclared l hl)) (fun l hl _ => ?_) fun _ => ?_
  · rw [ensures_bind]
    refine sentinelParts_exact.mono fun _ c₂ hparts => ?_
    obtain ⟨rfl, _, f, -, -, rfl⟩ := hparts
    exact (h₁.implementBody (l := l)
      (apt_sentinelCheck (h₁.initial hc f.location))).mono
      fun _ c₃ h₃ => h.done_declared hc h₃ hn (hdeclared l hl)
  · simp only [ensures_bind, ensures_get]
    refine sentinelParts_exact.mono fun _ c₂ hparts => ?_
    obtain ⟨rfl, _, f, -, -, rfl⟩ := hparts
    refine (h₁.addMethod hseated₁ (mem_ids_of_stage? (stage?_put hs)) rfl
      (apt_sentinelCheck (h₁.initial hc f.location))).mono
      fun l c₃ hadded => ?_
    obtain ⟨h₃, hhas, hparams, -⟩ := hadded
    exact h₃.done (h.offers h₃ hn) ⟨hhas, hparams⟩

theorem close_formed (hc : Signed c₀) (h : Formed c₀ c)
    (hseated : Seated K c) :
    Ensures (close n) c fun _ c' => Formed c₀ c' := by
  refine ensures_request requests_close (fun _ _ => h) fun s hs hnew => ?_
  have hn : c.Offers n .close := ⟨s, hs, trivial⟩
  have h₁ := h.start hn
  have hseated₁ := hseated.keeps (Keeps.start (K := K) hn hnew)
  have hmark : ∀ c, Formed c₀ c → Ensures (modifyStage n fun s =>
      { s with closeIsGenerated := true }) c fun _ c' =>
          Formed c₀ c' ∧ c'.sources = c.sources :=
    fun c h => ensures_modifyStage.2
      ⟨h.mapStage (fun _ => rfl) fun _ a => by cases a <;> rfl, rfl⟩
  have hdeclared : ∀ l, s.declaredClose = some l →
      c.declared? n .close = some l :=
    fun l hl => (declared?_eq hs).trans hl
  refine ensures_makeUnlessDeclared (fun l hl _ => h.done_declared hc h₁ hn
    (hdeclared l hl)) (fun l hl _ => ?_) fun _ => ?_
  · rw [ensures_bind]
    refine resetBody_exact.mono fun _ c₂ hparts => ?_
    obtain ⟨rfl, _, f, -, -, rfl⟩ := hparts
    rw [ensures_bind]
    refine (h₁.implementBody (l := l)
      (apt_resetOf (h₁.initial hc f.location))).mono
      fun _ c₃ h₃ => (hmark c₃ h₃).mono fun _ c₄ hmarked => ?_
    exact h.done_declared hc hmarked.1 hn (hdeclared l hl)
  · simp only [ensures_bind, ensures_get]
    refine resetBody_exact.mono fun _ c₂ hparts => ?_
    obtain ⟨rfl, _, f, -, -, rfl⟩ := hparts
    refine (h₁.addMethod hseated₁ (mem_ids_of_stage? (stage?_put hs)) rfl
      (apt_resetOf (h₁.initial hc f.location))).mono fun l c₃ hadded => ?_
    refine (hmark c₃ hadded.1).mono fun _ c₄ hmarked => ensures_pure.2 ?_
    obtain ⟨h₄, hsources⟩ := hmarked
    have hhas : c₄.sources.Has l := hsources ▸ hadded.2.1
    exact h₄.done (h.offers h₄ hn) ⟨hhas, trivial⟩

-- ---------------------------------------------------------- whole requests

theorem Fitting.wellMade (hc : Signed c₀) (h : Fitting c₀ c) :
    WellMade (fun _ => False) c :=
  hc.wellMade.keeps h.later

/-- A member that is made is called like any method of its declaration. -/
theorem Fitting.apt_call_made {t : Option Expr} {f : MethodRef}
    {args : List Expr}
    (hc : Signed c₀) (h : Fitting c₀ c) (hf : c.made? n a = some f)
    (hlength : args.length = f.params.length) : Apt c₀ (.call t f args) := by
  refine apt_call hlength ?_
  rw [← h.later.stageMethod]
  exact (h.wellMade hc).stageOfMethod?_made hf

/-- Making the predicate of a stage. -/
theorem predicate_fits (hc : Signed c₀) (h : Fitting c₀ c) :
    Ensures (predicate n) c fun l c' =>
      Fitting c₀ c' ∧ c'.progress n .predicate = .done l := by
  have hseated := (h.wellMade hc).toSeated
  refine ((predicate_keeps hseated).and
    (predicate_formed hc h.toFormed hseated)).mono ?_
  intro l c' hmade
  obtain ⟨⟨hk, hl⟩, h'⟩ := hmade
  exact ⟨⟨h', h.later.trans hk⟩, hl⟩

/-- Making the close method of a stage. -/
theorem close_fits (hc : Signed c₀) (h : Fitting c₀ c) :
    Ensures (close n) c fun _ c' => Fitting c₀ c' := by
  have hseated := (h.wellMade hc).toSeated
  have hkeeps := close_keeps (n := n) hseated fun _ _ _ hK => hK
  refine (hkeeps.and (close_formed hc h.toFormed hseated)).mono ?_
  intro l c' hmade
  obtain ⟨⟨hk, -⟩, h'⟩ := hmade
  exact ⟨h', h.later.trans hk⟩

/-- The statements of a guard call a predicate and an init method without
parameters. -/
theorem guardStatement_fits (hc : Signed c₀) (h : Fitting c₀ c) :
    Ensures (guardStatement n) c fun guard c' =>
      Fitting c₀ c' ∧ ∀ e ∈ Node.exprs guard.nodes, Apt c₀ e := by
  refine ensures_guardStatement
    ((predicate_fits hc h).mono fun l c₁ hmade s hs => ?_)
  obtain ⟨h₁, hl⟩ := hmade
  have hparams : (c₁.sources.method l).params = [] :=
    (h₁.made n .predicate l hl).2
  have hcheck : Apt c₀ (.call none (c₁.sources.methodRef l) []) := by
    refine h₁.apt_call_made hc (made?_eq_some.2 ⟨l, hl, rfl⟩) ?_
    show 0 = ((c₁.sources.method l).params.map Param.type).length
    rw [hparams]
    rfl
  refine ⟨fun init hinit => ?_, fun _ => ?_⟩
  · obtain ⟨s₀, hs₀⟩ := h₁.nodes.stage_of_stage hs
    have hsame : s.unmade.noArgInit = s₀.unmade.noArgInit := by
      rw [h₁.nodes.unmade_stage hs₀ hs]
    obtain ⟨hmem, hnone⟩ := hc.init n s₀ hs₀ init (hsame.symm.trans hinit)
    have hbound := bound_initMethod hc.wellMade.toSeated hs₀ hmem
    have href : c₁.sources.methodRef init = c₀.sources.methodRef init :=
      h₁.sources.methodRef hbound.1
    have hcall : Apt c₀ (.call none (c₁.sources.methodRef init) []) := by
      rw [href]
      refine apt_call ?_ ?_
      · show 0 = ((c₀.sources.method init).params.map Param.type).length
        rw [hnone]
        rfl
      · have hid : (c₀.sources.method init).id
            = (c₀.sources.methodRef init).identity :=
          hc.wellMade.identified init hbound.1
        unfold Bindings.stageOfMethod? Bindings.nodeWithRole?
        rw [← hid, hbound.2]
        rfl
    refine ⟨h₁, ?_⟩
    simp [Stmt.when, Stmt.nodes, Stmt.nodesOfAll, Stmt.nodesOfBlock?,
      Expr.subterms, Expr.subtermsOfTarget, Expr.subtermsOfAll, hcheck, hcall,
      apt_of_not_call]
  · refine ⟨h₁, ?_⟩
    simp [Stmt.nodes, Expr.subterms, Expr.subtermsOfTarget,
      Expr.subtermsOfAll, hcheck, apt_of_not_call]

/-- The tagged method that a wrapper is made for, as it was discovered. -/
theorem Formed.tagged (hc : Signed c₀) (h : Formed c₀ c) {s : Stage}
    {id : Identity} {i : Nat}
    (hs : (c.graph.get n).stage? = some s) (hi : s.methodIndex? id = some i) :
    ∃ s₀, (c₀.graph.get n).stage? = some s₀ ∧ s₀.methodIndex? id = some i
      ∧ c₀.methodAt? n i
        = some (c₀.sources.method (s.methods.getD i default).location)
      ∧ c₀.Bound (s.methods.getD i default).location n .stageMethod
      ∧ (c₀.sources.method (s.methods.getD i default).location).id = id := by
  obtain ⟨s₀, hs₀⟩ := h.nodes.stage_of_stage hs
  have hunmade := h.nodes.unmade_stage hs₀ hs
  have hi₀ : s₀.methodIndex? id = some i := by
    rw [← Stage.methodIndex?_unmade, ← hunmade, Stage.methodIndex?_unmade]
    exact hi
  obtain ⟨hlt, hid, -⟩ := List.findIdx?_eq_some_iff_getElem.1 hi₀
  have hlocations : s.methods.map StageMethod.location
      = s₀.methods.map StageMethod.location := by
    have hmethods :=
      congrArg (fun s => s.methods.map StageMethod.location) hunmade
    simpa [Stage.unmade, StageMethod.unmade, Function.comp_def] using hmethods
  have hlocation : (s.methods.getD i default).location
      = s₀.methods[i].location := by
    have hplace := congrArg (·[i]?) hlocations
    simp only [List.getElem?_map, List.getElem?_eq_getElem hlt,
      Option.map_some] at hplace
    obtain ⟨m, hm, hsame⟩ := Option.map_eq_some_iff.1 hplace
    rw [List.getD_eq_getElem?_getD, hm]
    exact hsame
  rw [hlocation]
  refine ⟨s₀, hs₀, hi₀, ?_,
    bound_taggedMethod hc.wellMade.toSeated hs₀ (List.getElem_mem hlt), ?_⟩
  · unfold Compilation.methodAt?
    rw [hs₀, Option.bind_some, List.getElem?_eq_getElem hlt]
    rfl
  · rw [← hc.tagged n s₀ hs₀ _ (List.getElem_mem hlt)]
    exact beq_iff_eq.1 hid

/-- Making the accessor of a field. -/
theorem accessor_formed (hc : Signed c₀) (h : Fitting c₀ c)
    (field : Identity) :
    Ensures (accessor n field) c fun _ c' => Formed c₀ c' := by
  refine ensures_requestAt (requests_accessor field)
    (fun _ _ _ _ _ _ => h.toFormed) fun s i hs hi hnew => ?_
  have hoffers : s.Offers (.accessor i) := Stage.offers_accessor hi
  have hn : c.Offers n (.accessor i) := ⟨s, hs, hoffers⟩
  have hdeclared := (declared?_eq hs).trans (Stage.declared?_accessor hoffers)
  have hentry : c.fieldAt? n i
      = some (c.sources.field (s.fields.getD i default).location) := by
    unfold Compilation.fieldAt?
    rw [hs, Option.bind_some, List.getD_eq_getElem?_getD,
      List.getElem?_eq_getElem (show i < s.fields.length from hoffers)]
    rfl
  have h₁ : Fitting c₀ (c.put n .inProgress (.accessor i)) :=
    ⟨h.start hn, h.later.trans (.start hn hnew)⟩
  unfold makeAccessor
  rw [ensures_bind]
  refine (guardStatement_fits hc h₁).mono fun guard c₂ hguard => ?_
  obtain ⟨h₂, hguard⟩ := hguard
  -- the body calls what the guard calls
  have hbody : ∀ f, ∀ e ∈ Block.exprs [guard, .ret (some (.field none f))],
      Apt c₀ e := by
    intro f
    rw [Block.exprs_cons, List.forall_mem_append]
    refine ⟨hguard, ?_⟩
    simp [Stmt.nodes, Expr.subterms, Expr.subtermsOfTarget, apt_of_not_call]
  simp only [ensures_bind, ensures_get]
  split
  · rename_i l hl
    rw [ensures_bind]
    refine (h₂.implementBody (l := l) (hbody _)).mono fun _ c₃ h₃ => ?_
    simp only [ensures_bind, ensures_get, ensures_pure]
    rw [ensures_bindMethod]
    intro b _
    exact h.done_declared hc (h₃.bindings b) hn (hdeclared.trans hl)
  · have hids : n ∈ c₂.graph.ids := by
      obtain ⟨s₂, hs₂, -⟩ := h.offers h₂.toFormed hn
      exact mem_ids_of_stage? hs₂
    refine (h₂.addMethod (h₂.wellMade hc).toSeated hids rfl (hbody _)).mono
      fun l c₃ hadded => ?_
    obtain ⟨h₃, hhas, hparams, hreturns⟩ := hadded
    refine h₃.done (h.offers h₃ hn) ⟨hhas, hparams, fun f hf => ?_⟩
    rw [← h.fieldAt?, hentry] at hf
    obtain rfl := Option.some.inj hf
    refine hreturns.trans (congrArg Field.type ?_)
    exact (h₂.sources.field _).trans (h.sources.field _).symm

theorem accessor_fits (hc : Signed c₀) (h : Fitting c₀ c) (field : Identity) :
    Ensures (accessor n field) c fun _ c' => Fitting c₀ c' := by
  have hseated := (h.wellMade hc).toSeated
  have hkeeps := @accessor_keeps _ c n hseated field
  refine (hkeeps.and (accessor_formed hc h field)).mono fun _ c' hmade => ?_
  exact ⟨hmade.2, h.later.trans hmade.1.1⟩

/-- Making the wrapper of a tagged method. -/
theorem guarded_formed (hc : Signed c₀) (h : Fitting c₀ c)
    (method : Identity) :
    Ensures (guarded n method) c fun _ c' => Formed c₀ c' := by
  refine ensures_requestAt (requests_guarded method)
    (fun _ _ _ _ _ _ => h.toFormed) fun s i hs hi hnew => ?_
  have hn : c.Offers n (.guarded i) := ⟨s, hs, Stage.offers_guarded hi⟩
  obtain ⟨s₀, hs₀, hi₀, hw, hbound, hid⟩ := h.tagged hc hs hi
  generalize hentry : s.methods.getD i default = entry
  rw [hentry] at hw hbound hid
  have h₁ : Fitting c₀ (c.put n .inProgress (.guarded i)) :=
    ⟨h.start hn, h.later.trans (.start hn hnew)⟩
  unfold makeGuarded
  rw [ensures_bind]
  refine (guardStatement_fits hc h₁).mono fun guard c₂ hguard => ?_
  obtain ⟨h₂, hguard⟩ := hguard
  have hids : n ∈ c₂.graph.ids := by
    obtain ⟨s₂, hs₂, -⟩ := h.offers h₂.toFormed hn
    exact mem_ids_of_stage? hs₂
  simp only [ensures_bind, ensures_get]
  generalize entry.location = w at hw hbound hid ⊢
  have hparams := h₂.sources.params hbound.1
  have hlength :
      ((c₂.sources.method w).params.map fun p => Expr.var p.name).length
      = (c₀.sources.method w).params.length := by
    rw [List.length_map, hparams]
  -- the wrapper passes on its parameters, which are those of the method
  have hinner : Apt c₀ (.call none (c₂.sources.methodRef w)
      ((c₂.sources.method w).params.map fun p => .var p.name)) := by
    rw [h₂.sources.methodRef hbound.1]
    refine ⟨?_, fun m s' j hm hs' hj v hv => ?_⟩
    · refine beq_iff_eq.2 (hlength.trans ?_)
      exact (List.length_map Param.type).symm
    · have hnode : c₀.bindings.stageOfMethod? (c₀.sources.methodRef w).identity
          = some n := by
        have hidentified : (c₀.sources.method w).id
            = (c₀.sources.methodRef w).identity :=
          hc.wellMade.identified w hbound.1
        rw [← hidentified]
        exact Bindings.nodeWithRole?_eq_some_iff.2 hbound.2
      have hsame : (c₀.sources.methodRef w).identity = method :=
        (hc.wellMade.identified w hbound.1).symm.trans hid
      obtain rfl := Option.some.inj (hnode.symm.trans hm)
      obtain rfl := Option.some.inj (hs₀.symm.trans hs')
      rw [hsame] at hj
      obtain rfl := Option.some.inj (hi₀.symm.trans hj)
      obtain rfl := Option.some.inj (hw.symm.trans hv)
      exact hlength.symm
  have hvars : ∀ e ∈ Expr.subtermsOfAll
      ((c₂.sources.method w).params.map fun p => .var p.name), Apt c₀ e := by
    intro e he
    obtain ⟨p, -, rfl⟩ := mem_subtermsOfAll_params.1 he
    exact apt_of_not_call (by simp)
  refine Ensures.mono (h₂.addMethod (h₂.wellMade hc).toSeated hids rfl ?_)
    fun l c₃ hadded => ?_
  · rw [Block.exprs_cons, List.forall_mem_append]
    refine ⟨hguard, ?_⟩
    split
    all_goals
      simp only [Block.exprs_cons, Block.exprs_nil,
        List.append_nil, Stmt.nodes, Node.exprs_stmt_cons, Node.exprs_nodes,
        Node.exprs_nodesOf?, Expr.subtermsOfTarget,
        Expr.subterms, List.nil_append]
      exact List.forall_mem_cons.2 ⟨hinner, hvars⟩
  · obtain ⟨h₃, hhas, hsame, -⟩ := hadded
    have hshaped : Shaped c₀ n (.guarded i) (c₃.sources.method l) := by
      intro v hv
      obtain rfl := Option.some.inj (hw.symm.trans hv)
      rw [hsame]
      exact congrArg List.length hparams
    exact h₃.done (h.offers h₃ hn) ⟨hhas, hshaped⟩

theorem guarded_fits (hc : Signed c₀) (h : Fitting c₀ c) (method : Identity) :
    Ensures (guarded n method) c fun _ c' => Fitting c₀ c' := by
  have hseated := (h.wellMade hc).toSeated
  have hkeeps := @guarded_keeps _ c n hseated method
  refine (hkeeps.and (guarded_formed hc h method)).mono fun _ c' hmade => ?_
  exact ⟨hmade.2, h.later.trans hmade.1.1⟩

end Lifecycle

end Stagewise
