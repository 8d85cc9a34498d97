/-
What the preparation of nodes adds to the bodies that there are.

A close method first returns where its stage is not initialized, and then
closes the dependants if there is a method that does. The `doClose` method
copies the close body as it was and returns likewise, but spares the
dependants. An init method notes whether the stage is initialized, and if so
closes the dependants in the end (`Wrapped`). Nothing else is added to a
body, in whichever order the nodes are prepared (`prepare_wraps_bodies`).

# The argument

No making of members changes a method that is `Fixed`. So what one node's
preparation changes is what it adds itself, and that is found at the methods
of this node only (`prepare_wraps`): a method is bound to one node with one
role. The close body is copied when the `doClose` method is first asked for,
which is in the same preparation and before anything is added.
-/
import Stagewise.Proofs.Lifecycle.Additions
import Stagewise.Proofs.Lifecycle.Readiness
import Stagewise.Proofs.Lifecycle.Spared

namespace Stagewise.Lifecycle

open Compilation Step

variable {K : Location → Prop} {c c' c₀ c₁ : Compilation} {n m : DependencyId}
variable {l : Location}

-- ============================================================= changed bodies

/-- The change of the bodies at some locations. -/
def changeAt (ls : List Location) (f : Block → Block) (l : Location)
    (body : Option Block) :
    Option Block :=
  if l ∈ ls then some (f (body.getD [])) else body

/-- That a compilation is another one but for its bodies, and how these come
from the former ones. -/
structure Rebodied (f : Location → Option Block → Option Block)
    (c c' : Compilation) : Prop where
  later : Later c c'
  graph : c'.graph = c.graph
  method : ∀ l, c'.sources.method l
    = { c.sources.method l with body := f l (c.sources.method l).body }

namespace Rebodied

variable {f g : Location → Option Block → Option Block}

theorem refl (c : Compilation) : Rebodied (fun _ body => body) c c :=
  ⟨.refl _ c, rfl, fun _ => rfl⟩

theorem progress (h : Rebodied f c c') : c'.progress = c.progress := by
  unfold Compilation.progress
  rw [h.graph]

theorem closing (h : Rebodied f c c') : c'.closing = c.closing := by
  unfold Compilation.closing
  rw [h.graph]

theorem congr (h : Rebodied f c c') (hfg : ∀ l body, f l body = g l body) :
    Rebodied g c c' :=
  (funext fun l => funext (hfg l) : f = g) ▸ h

/-- One more body is changed. -/
theorem modifyBody (h : Rebodied f c c₁) (hl : c.sources.Has l)
    (change : Block → Block) :
    Ensures (modifyBody l change) c₁ fun _ c' =>
      Rebodied (fun l' body => changeAt [l] change l' (f l' body)) c c' := by
  have hl₁ : c₁.sources.Has l := (h.later.sources.heading l hl).1
  refine ensures_modifySources.2 ⟨?_, h.graph, fun l' => ?_⟩
  · exact h.later.trans (.ofSources (.modifyMethod (fun _ => rfl) hl₁ id))
  · refine (Sources.method_modifyMethod hl₁ _ l').trans ?_
    unfold changeAt
    simp only [List.mem_singleton]
    split
    · rename_i he
      subst he
      rw [h.method]
      rfl
    · exact h.method l'

end Rebodied

/-- To change the bodies at one more location. -/
theorem changeAt_concat {ls : List Location} (hl : l ∉ ls) (f : Block → Block)
    (l' : Location) (body : Option Block) :
    changeAt [l] f l' (changeAt ls f l' body)
      = changeAt (ls ++ [l]) f l' body := by
  unfold changeAt
  by_cases h : l' = l
  · subst h
    simp [hl]
  · simp [h]

-- ====================================================== what a stage is given

/-- To return where the stage is not initialized. -/
def leaving (predicate : MethodRef) : Stmt :=
  .when (.unary .not (.call none predicate [])) (.ret none)

/-- To call a method without arguments. -/
def calling (method : MethodRef) : Stmt := .expr (.call none method [])

/-- The body of an init method, with what closes the dependants in the end
if the stage was initialized before. -/
def reinitializing (was : String) (predicate closer : MethodRef)
    (body : Block) : Block :=
  .declare .boolean was (some (.call none predicate [])) :: body
    ++ [.when (.var was) (calling closer)]

/-- That the preparation of a node adds to the body of a method. -/
def Wraps (c : Compilation) (n : DependencyId) (l : Location) : Prop :=
  (∃ s, (c.graph.get n).stage? = some s ∧ l ∈ s.initMethods)
    ∨ c.progress n .close = .done l

/-- The members that belong to the lifecycle of a stage. There is a method
that closes the dependants if there is anything to close. -/
structure LifecycleMembers where
  predicate : Location
  close : Location
  doClose : Location
  closer : Option Location

/-- That these members are made for a stage. -/
structure AreMade (c : Compilation) (n : DependencyId)
    (ms : LifecycleMembers) : Prop where
  predicate : c.progress n .predicate = .done ms.predicate
  close : c.progress n .close = .done ms.close
  doClose : c.progress n .doClose = .done ms.doClose
  closer : c.closing n = .done ms.closer

/-- What the preparation of a stage makes of the bodies of `c₀`. -/
structure Wrapped (c₀ c : Compilation) (n : DependencyId)
    (ms : LifecycleMembers) : Prop where
  made : AreMade c n ms
  closeBody : (c.sources.method ms.close).body
    = some (leaving (c.sources.methodRef ms.predicate)
        :: (ms.closer.toList.map fun l => calling (c.sources.methodRef l))
        ++ (c₀.sources.method ms.close).bodyOrEmpty)
  doCloseBody : (c.sources.method ms.doClose).body
    = some (leaving (c.sources.methodRef ms.predicate)
        :: (c₀.sources.method ms.close).bodyOrEmpty)
  initBody : ∀ s, (c.graph.get n).stage? = some s → ∀ init ∈ s.initMethods,
    (c.sources.method init).body = match ms.closer with
      | none => (c₀.sources.method init).body
      | some l => some (reinitializing
          (Convention.wasInitName (c.graph.name n))
          (c.sources.methodRef ms.predicate) (c.sources.methodRef l)
          (c₀.sources.method init).bodyOrEmpty)

-- ============================================================ one preparation

/-- The bodies of a stage after its preparation. -/
def wrapBody (inits : List Location) (ms : LifecycleMembers) (was : String)
    (ref : Location → MethodRef) (l : Location) (body : Option Block) :
    Option Block :=
  changeAt [ms.doClose] (leaving (ref ms.predicate) :: ·) l <|
    changeAt [ms.close] (leaving (ref ms.predicate) :: ·) l <|
      match ms.closer with
      | none => body
      | some closer =>
          changeAt [ms.close] (calling (ref closer) :: ·) l <|
            changeAt inits (reinitializing was (ref ms.predicate)
              (ref closer)) l body

section

variable {inits : List Location} {ms : LifecycleMembers} {was : String}
variable {ref : Location → MethodRef} {body : Option Block}

theorem wrapBody_close (hinits : ms.close ∉ inits)
    (hne : ms.close ≠ ms.doClose) :
    wrapBody inits ms was ref ms.close body = some (leaving (ref ms.predicate)
      :: (ms.closer.toList.map fun l => calling (ref l)) ++ body.getD []) := by
  unfold wrapBody changeAt
  cases ms.closer with
  | none => simp [hne]
  | some closer => simp [hne, hinits]

theorem wrapBody_doClose (hinits : ms.doClose ∉ inits)
    (hne : ms.close ≠ ms.doClose) :
    wrapBody inits ms was ref ms.doClose body
      = some (leaving (ref ms.predicate) :: body.getD []) := by
  unfold wrapBody changeAt
  cases ms.closer with
  | none => simp [hne.symm]
  | some closer => simp [hne.symm, hinits]

theorem wrapBody_init (hclose : ms.close ∉ inits)
    (hdoClose : ms.doClose ∉ inits)
    (hl : l ∈ inits) : wrapBody inits ms was ref l body = match ms.closer with
      | none => body
      | some closer =>
          some (reinitializing was (ref ms.predicate) (ref closer)
              (body.getD [])) := by
  have hne : l ≠ ms.close := fun he => hclose (he ▸ hl)
  have hne' : l ≠ ms.doClose := fun he => hdoClose (he ▸ hl)
  unfold wrapBody changeAt
  cases ms.closer with
  | none => simp [hne, hne']
  | some closer => simp [hne, hne', hl]

theorem wrapBody_other (hl : l ∉ inits) (hclose : l ≠ ms.close)
    (hdoClose : l ≠ ms.doClose) :
    wrapBody inits ms was ref l body = body := by
  unfold wrapBody changeAt
  cases ms.closer with
  | none => simp [hclose, hdoClose]
  | some closer => simp [hl, hclose, hdoClose]

end

variable {f : Location → Option Block → Option Block} {ms : LifecycleMembers}

/-- Letting the init methods close the dependants. -/
theorem closeDependantsAfterInits_rebodies {predicate closer : Location}
    {inits : List Location}
    (hnodup : inits.Nodup) (hpredicate : c.sources.Has predicate)
    (hcloser : c.sources.Has closer) (hinits : ∀ l ∈ inits, c.sources.Has l) :
    Ensures (inits.forM (closeDependantsAfterInit n predicate closer))
      c fun _ c' =>
      Rebodied (changeAt inits
        (reinitializing (Convention.wasInitName (c.graph.name n))
          (c.sources.methodRef predicate) (c.sources.methodRef closer))) c
        c' := by
  refine ensures_forM_nodup hnodup (I := fun done c' =>
    Rebodied (changeAt done
      (reinitializing (Convention.wasInitName (c.graph.name n))
        (c.sources.methodRef predicate) (c.sources.methodRef closer))) c c')
    (fun done l hl hnew c₁ h => ?_) ((Rebodied.refl c).congr fun _ _ => rfl)
  rw [ensures_closeDependantsAfterInit, h.later.sources.methodRef hpredicate,
    h.later.sources.methodRef hcloser, h.graph]
  refine (h.modifyBody (hinits l hl) _).mono fun _ c₂ h₂ => ?_
  exact h₂.congr fun l' body => changeAt_concat hnew _ l' body

/-- Letting the dependants be closed first, if there is a method that does. -/
theorem closeDependantsFirst_rebodies {s : Stage} (hw : Seated K c)
    (hclosers : ClosersMade c)
    (hs : (c.graph.get n).stage? = some s) (hinits : s.initMethods.Nodup)
    (hmade : AreMade c n ms) :
    Ensures (closeDependantsFirst n ms.predicate ms.close ms.closer)
      c fun _ c' =>
      Rebodied (fun l body => match ms.closer with
        | none => body
        | some closer =>
            changeAt [ms.close]
                (calling (c.sources.methodRef closer) :: ·) l <|
              changeAt s.initMethods
                (reinitializing (Convention.wasInitName (c.graph.name n))
                  (c.sources.methodRef ms.predicate)
                  (c.sources.methodRef closer)) l body) c c' := by
  cases hcloser : ms.closer with
  | none => exact ensures_pure.2 (.refl c)
  | some closer =>
      have hhas : c.sources.Has closer :=
        (hclosers n closer (hcloser ▸ hmade.closer)).bound.1
      unfold closeDependantsFirst
      simp only [ensures_bind, ensures_call]
      refine ensures_stage.2 fun s' hs' => ?_
      obtain rfl := Option.some.inj (hs.symm.trans hs')
      refine (closeDependantsAfterInits_rebodies hinits
        (hw.made n _ _ hmade.predicate).1.1 hhas
        fun l hl => (bound_initMethod hw hs hl).1).mono fun _ c₁ h₁ => ?_
      rw [h₁.later.sources.methodRef hhas]
      exact h₁.modifyBody (hw.made n _ _ hmade.close).1.1 _

/-- The last part of preparing a stage: its close methods return where it is
not initialized, and accessors are made. -/
theorem leaveAndAccess_rebodies (hw : Seated K c) (h : Rebodied f c c₁)
    (hmade : AreMade c n ms) :
    Ensures (leaveAndAccess n ms.predicate ms.close ms.doClose) c₁
      fun _ c' => ∃ c₂,
        Rebodied (fun l body => changeAt [ms.doClose]
          (leaving (c.sources.methodRef ms.predicate) :: ·) l
          (changeAt [ms.close]
            (leaving (c.sources.methodRef ms.predicate) :: ·) l (f l body)))
          c c₂
        ∧ Fixes c₂ c' ∧ Makings n c₂ c' := by
  have hhas : ∀ {a l}, c.progress n a = .done l → c.sources.Has l :=
    fun hl => (hw.made n _ _ hl).1.1
  refine ensures_leaveAndAccess ?_ ?_
  · rw [h.later.sources.methodRef (hhas hmade.predicate)]
    refine (h.modifyBody (hhas hmade.close) _).mono fun _ c₂ h₂ => ?_
    exact (h₂.modifyBody (hhas hmade.doClose) _).mono fun _ c₃ h₃ =>
      ⟨c₃, h₃, .refl c₃, .refl⟩
  · rintro c₄ field ⟨c₃, h₃, hfix, hm⟩
    refine (accessor_fixes (hw.keeps (h₃.later.trans hfix.later)) field).mono
      ?_
    rintro _ c₅ ⟨hfix', hm'⟩
    exact ⟨c₃, h₃, hfix.trans hfix', hm.trans hm'⟩

/-- What the preparation of one node changes. -/
structure Prepared (n : DependencyId) (c c' : Compilation) : Prop where
  later : Later c c'
  closers : ClosersMade c'
  others : ∀ m, m ≠ n → c'.progress m .doClose = c.progress m .doClose
  method : ∀ l, Fixed c l → ¬ Wraps c n l →
    c'.sources.method l = c.sources.method l
  wrapped : (c.graph.get n).isStage = true → ∃ ms, Wrapped c c' n ms

/-- The init methods of a stage are those that were discovered. -/
theorem initMethods_eq {s s' : Stage} (h : SameNodes c c')
    (hs : (c.graph.get n).stage? = some s)
    (hs' : (c'.graph.get n).stage? = some s') :
    s'.initMethods = s.initMethods := by
  have hinits := congrArg Stage.initMethods (h.unmade_stage hs hs')
  exact hinits

/-- A stage once its members are made, its bodies changed and its accessors
made. The `doClose` method is new and copies the close body. -/
theorem prepared_of_rebodied {c₂ c₃ : Compilation} {s : Stage}
    {close : Location}
    (hw : Seated K c) (hclose : c.progress n .close = .done close)
    (hs : (c.graph.get n).stage? = some s) (hfix : Fixes c c₁)
    (hothers : ∀ m, m ≠ n → c₁.progress m .doClose = c.progress m .doClose)
    (hmade : AreMade c₁ n ms) (hclosers : ClosersMade c₁)
    (hnew : ¬ c.sources.Has ms.doClose)
    (hcopy : (c₁.sources.method ms.doClose).body
      = some (c.sources.method close).bodyOrEmpty)
    (hre : Rebodied
      (wrapBody s.initMethods ms (Convention.wasInitName (c₁.graph.name n))
        c₁.sources.methodRef) c₁ c₂)
    (hfix' : Fixes c₂ c₃) (hm : Makings n c₂ c₃) : Prepared n c c₃ := by
  have hw₁ := hw.keeps hfix.later
  have hlater : Later c₁ c₃ := hre.later.trans hfix'.later
  have hclosing : c₃.closing = c₁.closing :=
    (Makings.closing hm).trans hre.closing
  obtain rfl : ms.close = close :=
    Progress.done.inj (hmade.close.symm.trans (hfix.later.done hclose))
  -- the three kinds of methods that are changed differ by their roles
  have hinit : ∀ l ∈ s.initMethods, c.Bound l n .init :=
    fun l => bound_initMethod hw hs
  have hbclose : c.Bound ms.close n .close := (hw.made n _ _ hclose).1
  have hclose_init : ms.close ∉ s.initMethods := fun hl =>
    nomatch (hbclose.unique (hinit _ hl)).2
  have hdoClose_init : ms.doClose ∉ s.initMethods :=
    fun hl => hnew (hinit _ hl).1
  have hne : ms.close ≠ ms.doClose := fun he => hnew (he ▸ hbclose.1)
  have hsame : ∀ {l r}, c.Bound l n r → r.isBody = true →
      c₁.sources.method l = c.sources.method l :=
    fun hb hr => hfix.method _ (Or.inl ⟨_, _, hb, hr⟩)
  have hchanged : ∀ {l r}, c₁.Bound l n r → r.isBody = true →
      (c₃.sources.method l).body = wrapBody s.initMethods ms
        (Convention.wasInitName (c₁.graph.name n)) c₁.sources.methodRef l
          (c₁.sources.method l).body := by
    intro l r hb hr
    rw [hfix'.method l (Or.inl ⟨_, _, hb.keeps hre.later, hr⟩), hre.method]
  -- calls refer to the members as before
  have hpredicate : c₃.sources.methodRef ms.predicate
      = c₁.sources.methodRef ms.predicate :=
    hlater.sources.methodRef (hw₁.made n _ _ hmade.predicate).1.1
  have hcloser : ∀ l, ms.closer = some l →
      c₃.sources.methodRef l = c₁.sources.methodRef l :=
    fun l hl => hlater.sources.methodRef
      (hclosers n l (hl ▸ hmade.closer)).bound.1
  have hmade₃ : AreMade c₃ n ms :=
    ⟨hlater.done hmade.predicate, hlater.done hmade.close,
      hlater.done hmade.doClose, by rw [hclosing]; exact hmade.closer⟩
  refine ⟨hfix.later.trans hlater, hclosers.keeps hlater hclosing,
    fun m hmn => ?_,
    fun l hl hnot => ?_, fun _ => ⟨ms, hmade₃, ?_, ?_, ?_⟩⟩
  · rw [Makings.progress_doClose hm, hre.progress, hothers m hmn]
  · -- a method of another node, or of none
    have hkept : c₂.sources.method l = c₁.sources.method l := by
      rw [hre.method, wrapBody_other (fun hmem => hnot (Or.inl ⟨s, hs, hmem⟩))
        (fun he => hnot (Or.inr (he ▸ hclose))) fun he => hnew (he ▸ hl.has)]
    have hfixed : Fixed c₂ l :=
        (hfix.fixed hl).imp (fun hb => hb.later hre.later) fun hspared =>
      hspared.congr (hre.later.sources.heading l hspared.has).1 hkept
        hre.later.nodes
    rw [hfix'.method l hfixed, hkept, hfix.method l hl]
  · rw [hchanged (hbclose.keeps hfix.later) rfl,
      wrapBody_close hclose_init hne, hpredicate, hsame hbclose rfl]
    refine congrArg (fun calls => some (_ :: calls ++ _))
      (List.map_congr_left fun l hl => ?_)
    rw [hcloser l (Option.mem_toList.1 hl)]
  · rw [hchanged (hw₁.made n _ _ hmade.doClose).1 rfl,
      wrapBody_doClose hdoClose_init hne, hpredicate, hcopy]
    rfl
  · intro s' hs' l hl
    rw [initMethods_eq (hfix.later.trans hlater).nodes hs hs'] at hl
    rw [hchanged ((hinit l hl).keeps hfix.later) rfl,
      wrapBody_init hclose_init hdoClose_init hl,
      hpredicate, hsame (hinit l hl) rfl, hlater.nodes.name]
    cases hc : ms.closer with
    | none => rfl
    | some closer =>
        dsimp only
        rw [hcloser closer hc]
        rfl

/-- Preparing a node whose `doClose` method is not made yet adds to the bodies
of this node what belongs to a lifecycle, and changes no other. -/
theorem prepare_wraps (hw : Seated K c) (hclosed : Closed c)
    (hclosers : ClosersMade c)
    (hn : n ∈ c.graph.ids) (hnew : c.progress n .doClose = .notStarted)
    (hinits : ∀ s, (c.graph.get n).stage? = some s → s.initMethods.Nodup) :
    Ensures (prepare n) c fun _ c' => Prepared n c c' := by
  refine ensures_prepare (fun hgroup => ?_) fun s hs => ?_
  · refine (closeDependants_appends hw hclosed hn).mono fun _ c₁ ⟨h₁, _⟩ => ?_
    refine ⟨h₁.keeps.later, h₁.closers hclosers,
      fun m _ => by rw [h₁.progress],
      fun l hl _ => h₁.keeps.sources.kept l hl.has, fun hstage => ?_⟩
    rw [DependencyNode.isStage, hgroup] at hstage
    cases hstage
  obtain ⟨close, hclose⟩ := hclosed n s hs
  refine (predicate_fixes hw).mono ?_
  rintro predicate c₁ ⟨hfix₁, hm₁, hpredicate⟩
  have hw₁ := hw.keeps hfix₁.later
  have hclosed₁ := hclosed.keeps hfix₁.later
  refine (closeDependants_appends hw₁ hclosed₁ (hfix₁.later.mem_ids.2 hn)).mono
    ?_
  rintro closer c₂ ⟨h₂, hcloser⟩
  have hw₂ := hw₁.keeps h₂.keeps
  have hlater₂ : Later c c₂ := hfix₁.later.trans h₂.keeps.later
  have hnew₂ : c₂.progress n .doClose = .notStarted := by
    rw [h₂.progress, Makings.progress_doClose hm₁, hnew]
  refine (ensures_close_of_done (hlater₂.done hclose)).mono ?_
  rintro _ _ ⟨rfl, rfl⟩
  refine (doClose_adds hw₂ (hclosed₁.keeps h₂.keeps n)).mono ?_
  rintro doClose c₃ ⟨hk₃, hdoClose, hclosing₃, hothers₃, hcopies⟩
  obtain ⟨hnot, hcopy⟩ := hcopies close (hlater₂.done hclose) hnew₂
  let ms : LifecycleMembers := ⟨predicate, close, doClose, closer⟩
  have hfix₃ : Fixes c c₃ :=
    (hfix₁.trans (.ofKeeps h₂.keeps)).trans (.ofKeeps hk₃)
  have hw₃ := hw.keeps hfix₃.later
  have hmade : AreMade c₃ n ms := ⟨hk₃.done (h₂.keeps.done hpredicate),
    hfix₃.later.done hclose, hdoClose, by rw [hclosing₃]; exact hcloser⟩
  have hclosers₃ : ClosersMade c₃ :=
    (h₂.closers (hclosers.keeps hfix₁.later (Makings.closing hm₁))).keeps
      hk₃ hclosing₃
  have hothers : ∀ m, m ≠ n → c₃.progress m .doClose = c.progress m .doClose :=
      fun m hm => by
    rw [hothers₃ m hm, h₂.progress, Makings.progress_doClose hm₁]
  have hnew₃ : ¬ c.sources.Has doClose :=
    fun hl => hnot (hlater₂.sources.heading _ hl).1
  have hcopied : (c₃.sources.method doClose).body
      = some (c.sources.method close).bodyOrEmpty := by
    have hfixed : Fixed c close :=
      Or.inl ⟨n, .close, (hw.made n _ _ hclose).1, rfl⟩
    rw [hcopy, (hfix₁.trans (.ofKeeps h₂.keeps)).method close hfixed]
  obtain ⟨s₃, hs₃, -⟩ := hfix₃.later.nodes.exists_stage hs
  have hinits₃ : s₃.initMethods = s.initMethods :=
    initMethods_eq hfix₃.later.nodes hs hs₃
  refine (closeDependantsFirst_rebodies hw₃ hclosers₃ hs₃
    (hinits₃ ▸ hinits s hs) hmade).mono
    fun _ c₄ h₄ => ?_
  rw [hinits₃] at h₄
  refine (leaveAndAccess_rebodies hw₃ h₄ hmade).mono ?_
  rintro _ c₆ ⟨c₅, h₅, hfix₆, hm₆⟩
  exact prepared_of_rebodied hw hclose hs hfix₃ hothers hmade hclosers₃ hnew₃
    hcopied h₅ hfix₆ hm₆

-- =========================================================== all preparations

/-- The methods that a preparation adds to are bound to the node. -/
theorem bound_of_wraps (hw : Seated K c) (h : Wraps c n l) :
    ∃ r, c.Bound l n r ∧ r.isBody = true := by
  rcases h with ⟨s, hs, hl⟩ | hl
  · exact ⟨.init, bound_initMethod hw hs hl, rfl⟩
  · exact ⟨.close, (hw.made n _ _ hl).1, rfl⟩

/-- They are the same ever after. -/
theorem wraps_of_later (hclosed : Closed c) (hlater : Later c c')
    (h : Wraps c' n l) :
    Wraps c n l := by
  rcases h with ⟨s', hs', hl⟩ | hl
  · obtain ⟨s, hs⟩ := hlater.nodes.stage_of_stage hs'
    exact Or.inl ⟨s, hs, initMethods_eq hlater.nodes hs hs' ▸ hl⟩
  · obtain ⟨s', hs'⟩ := exists_stage_of_done hl
    obtain ⟨s, hs⟩ := hlater.nodes.stage_of_stage hs'
    obtain ⟨close, hclose⟩ := hclosed n s hs
    obtain rfl := Progress.done.inj ((hlater.done hclose).symm.trans hl)
    exact Or.inr hclose

/-- What one node was given stays while its methods do. -/
theorem Wrapped.later (h : Wrapped c₀ c n ms) (hw : Seated K c)
    (hclosers : ClosersMade c) (hlater : Later c c')
    (hmethod : ∀ l r, c.Bound l n r → r.isBody = true →
      c'.sources.method l = c.sources.method l) : Wrapped c₀ c' n ms := by
  have hpredicate : c'.sources.methodRef ms.predicate
      = c.sources.methodRef ms.predicate :=
    hlater.sources.methodRef (hw.made n _ _ h.made.predicate).1.1
  have hcloser : ∀ l, ms.closer = some l →
      c'.sources.methodRef l = c.sources.methodRef l :=
    fun l hl => hlater.sources.methodRef
      (hclosers n l (hl ▸ h.made.closer)).bound.1
  refine ⟨⟨hlater.done h.made.predicate, hlater.done h.made.close,
    hlater.done h.made.doClose, hlater.closing_done h.made.closer⟩, ?_, ?_,
    fun s' hs' l hl => ?_⟩
  · rw [hmethod _ _ (hw.made n _ _ h.made.close).1 rfl,
      h.closeBody, hpredicate]
    refine congrArg (fun calls => some (_ :: calls ++ _))
      (List.map_congr_left fun l hl => ?_)
    rw [hcloser l (Option.mem_toList.1 hl)]
  · rw [hmethod _ _ (hw.made n _ _ h.made.doClose).1 rfl,
      h.doCloseBody, hpredicate]
  · obtain ⟨s, hs⟩ := hlater.nodes.stage_of_stage hs'
    rw [initMethods_eq hlater.nodes hs hs'] at hl
    rw [hmethod _ _ (bound_initMethod hw hs hl) rfl,
      h.initBody s hs l hl, hpredicate, hlater.nodes.name]
    cases hc : ms.closer with
    | none => rfl
    | some closer =>
        dsimp only
        rw [hcloser closer hc]

/-- What holds while the nodes of `c₀` are prepared: those that had their turn
are wrapped, and no other method has changed that is fixed. -/
structure WrappedSoFar (c₀ : Compilation) (done : List DependencyId)
    (c : Compilation) :
    Prop where
  later : Later c₀ c
  closers : ClosersMade c
  pending : ∀ n, n ∉ done → c.progress n .doClose = .notStarted
  method : ∀ l, Fixed c₀ l → (∀ n ∈ done, ¬ Wraps c₀ n l) →
    c.sources.method l = c₀.sources.method l
  wrapped : ∀ n ∈ done, (c₀.graph.get n).isStage = true →
    ∃ ms, Wrapped c₀ c n ms

namespace WrappedSoFar

variable {done : List DependencyId}

/-- What is fixed in the beginning is so ever after. -/
theorem fixed (h : WrappedSoFar c₀ done c) (hw : Seated K c₀)
    (hl : Fixed c₀ l) :
    Fixed c l := by
  rcases hl with hbody | hspared
  · exact Or.inl (hbody.later h.later)
  by_cases hwraps : ∃ n ∈ done, Wraps c₀ n l
  · obtain ⟨n, -, hwraps⟩ := hwraps
    obtain ⟨r, hb, hr⟩ := bound_of_wraps hw hwraps
    exact Or.inl ⟨n, r, hb.keeps h.later, hr⟩
  · refine Or.inr (hspared.congr (h.later.sources.heading l hspared.has).1 ?_
      h.later.nodes)
    exact h.method l (Or.inr hspared) fun n hn hwraps' =>
      hwraps ⟨n, hn, hwraps'⟩

/-- The bodies of a node that is yet to be prepared are as in the
beginning. -/
theorem waiting (h : WrappedSoFar c₀ done c) (hw : Seated K c₀) (hn : n ∉ done)
    (hl : Wraps c₀ n l) : c.sources.method l = c₀.sources.method l := by
  obtain ⟨r, hb, hr⟩ := bound_of_wraps hw hl
  refine h.method l (Or.inl ⟨n, r, hb, hr⟩) fun m hm hwraps => ?_
  obtain ⟨_, hb', -⟩ := bound_of_wraps hw hwraps
  exact hn ((hb.unique hb').1 ▸ hm)

/-- The next turn. -/
theorem prepared (h : WrappedSoFar c₀ done c) (hw : Seated K c₀)
    (hclosed : Closed c₀)
    (hn : n ∉ done) (hp : Prepared n c c') :
    WrappedSoFar c₀ (done ++ [n]) c' := by
  have hw' := hw.keeps h.later
  refine ⟨h.later.trans hp.later, hp.closers, fun m hm => ?_,
    fun l hl hnot => ?_,
    List.forall_mem_append.2 ⟨fun m hm hstage => ?_,
      List.forall_mem_singleton.2 fun hstage => ?_⟩⟩
  · have hm' : m ∉ done ∧ m ≠ n := by simpa using hm
    rw [hp.others m hm'.2, h.pending m hm'.1]
  · obtain ⟨hdone, hlast⟩ := List.forall_mem_append.1 hnot
    rw [hp.method l (h.fixed hw hl) fun hwraps =>
      List.forall_mem_singleton.1 hlast
      (wraps_of_later hclosed h.later hwraps), h.method l hl hdone]
  · -- this turn concerns no method that is bound to another node
    obtain ⟨ms, hwrapped⟩ := h.wrapped m hm hstage
    refine ⟨ms, hwrapped.later hw' h.closers hp.later fun l r hb hr => ?_⟩
    refine hp.method l (Or.inl ⟨m, r, hb, hr⟩) fun hwraps => hn ?_
    obtain ⟨_, hb', -⟩ := bound_of_wraps hw' hwraps
    exact (hb.unique hb').1 ▸ hm
  · rw [← (h.later.sameShape ⟨rfl, rfl, fun _ => rfl⟩).isStage] at hstage
    obtain ⟨ms, hwrapped⟩ := hp.wrapped hstage
    have hclose : Wraps c₀ n ms.close :=
      wraps_of_later hclosed (h.later.trans hp.later)
        (Or.inr hwrapped.made.close)
    refine ⟨ms, hwrapped.made, ?_, ?_, fun s hs init hinit => ?_⟩
    · rw [hwrapped.closeBody, h.waiting hw hn hclose]
    · rw [hwrapped.doCloseBody, h.waiting hw hn hclose]
    · have hwraps : Wraps c₀ n init :=
        wraps_of_later hclosed (h.later.trans hp.later) (Or.inl ⟨s, hs, hinit⟩)
      rw [hwrapped.initBody s hs init hinit, h.waiting hw hn hwraps]

/-- A stage among the nodes is wrapped. -/
theorem of_stage {s : Stage} (h : WrappedSoFar c₀ done c)
    (hdone : ∀ n ∈ c₀.graph.ids, n ∈ done)
    (hs : (c.graph.get n).stage? = some s) : ∃ ms, Wrapped c₀ c n ms := by
  obtain ⟨s₀, hs₀⟩ := h.later.nodes.stage_of_stage hs
  refine h.wrapped n (hdone n (mem_ids_of_stage? hs₀)) ?_
  unfold DependencyNode.isStage
  rw [hs₀]
  rfl

end WrappedSoFar

/-- Preparing nodes in some order, each once. -/
theorem prepareAll_wraps {order : List DependencyId} (hw : Seated K c)
    (hclosed : Closed c)
    (hnew : ∀ n, c.progress n .doClose = .notStarted)
    (hunclosing : ∀ n, c.closing n = .notStarted)
    (hinits : ∀ n s, (c.graph.get n).stage? = some s → s.initMethods.Nodup)
    (hnodup : order.Nodup) (horder : ∀ n ∈ order, n ∈ c.graph.ids) :
    Ensures (order.forM prepare) c fun _ c' => WrappedSoFar c order c' := by
  refine ensures_forM_nodup hnodup (I := WrappedSoFar c)
    (fun done n hmem hn c₁ h => ?_) ?_
  · refine (prepare_wraps (hw.keeps h.later) (hclosed.keeps h.later) h.closers
      (h.later.mem_ids.2 (horder n hmem)) (h.pending n hn)
      fun s₁ hs₁ => ?_).mono fun _ c₂ hp => h.prepared hw hclosed hn hp
    obtain ⟨s, hs⟩ := h.later.nodes.stage_of_stage hs₁
    rw [initMethods_eq h.later.nodes hs hs₁]
    exact hinits n s hs
  · refine ⟨.refl _ c, fun n l hl => ?_, fun n _ => hnew n,
      fun _ _ _ => rfl, nofun⟩
    rw [hunclosing] at hl
    cases hl

-- ================================================================= the result

/-- Guarding makes no `doClose` method. -/
theorem guardNodes_progress_doClose
    (h : ∀ n, c.progress n .doClose = .notStarted) :
    Ensures guardNodes c fun _ c' => ∀ n,
      c'.progress n .doClose = .notStarted := by
  have hmakings : ∀ {n c c'}, Makings n c c' →
      (∀ m, c.progress m .doClose = .notStarted) →
      ∀ m, c'.progress m .doClose = .notStarted :=
    fun hm hc m => (Makings.progress_doClose hm m).trans (hc m)
  refine guardNodes_maintains (ensures_closeStages h fun n c hc => ?_)
    (fun n field c hc => ?_) (fun n method c hc => ?_) fun _ _ _ hc => hc
  · exact (Makings.close .refl).mono fun _ _ hm => hmakings hm hc
  · exact (Makings.accessor .refl field).mono fun _ _ hm => hmakings hm hc
  · exact (Makings.guarded .refl method).mono fun _ _ hm => hmakings hm hc

/-- What holds when nodes were prepared after an analysis of some declarations,
which led to `c`, and the guarding, which led to `c'`. -/
structure Treated (sources : Sources) (c c' : Compilation)
    (order : List DependencyId) (c'' : Compilation) : Prop where
  sources : c.sources = sources
  populated : Analysis.Populated c
  sound : Sound c
  later : Later c c'
  evolves : Evolves c c'
  ready : Ready c'
  wrapped : WrappedSoFar c' order c''

/-- Nodes that are prepared after an analysis and the guarding, each once. -/
theorem prepareAll_treated {sources : Sources} {tree : Composition}
    {options : Options} {report : AnalysisReport} {counts : GuardReport}
    {order : List DependencyId} {c'' : Compilation}
    (hanalyse : analyse.runOn { sources, tree, options } = (.ok report, c))
    (hguard : guardNodes.runOn c = (.ok counts, c'))
    (horder : order.Perm c'.graph.ids)
    (hprepare : (order.forM prepare).runOn c' = (.ok (), c'')) :
    Treated sources c c' order c'' := by
  obtain ⟨hpopulated, hsources⟩ :=
    Analysis.analyse_populated rfl report c hanalyse
  obtain ⟨hsound, hacyclic⟩ := analyse_sound rfl report c hanalyse
  obtain ⟨hlater, -⟩ := guardNodes_closed hpopulated counts c' hguard
  have hready := guardNodes_ready hpopulated hsound hacyclic counts c' hguard
  have hevolves : Evolves c c' := guardNodes_evolves counts c' hguard
  have hinits : ∀ n s, (c'.graph.get n).stage? = some s →
      s.initMethods.Nodup := by
    intro n s' hs'
    obtain ⟨s, hs⟩ := hevolves.sameNodes.stage_of_stage hs'
    rw [initMethods_eq hevolves.sameNodes hs hs']
    exact (hsound.proper n s hs).inits
  have hwrapped := prepareAll_wraps hready.seated hready.closed
    (guardNodes_progress_doClose (fun n => hpopulated.unstarted n _)
      counts c' hguard)
    hready.unclosing hinits (horder.nodup_iff.2 (DependencyGraph.nodup_ids _))
    (fun n hn => horder.mem_iff.1 hn) () c'' hprepare
  exact ⟨hsources, hpopulated, hsound, hlater, hevolves, hready, hwrapped⟩

/-- The methods that are declared with a body are spared. -/
theorem spared_of_declared (hproper : Sound c) (h : Evolves c c')
    (hl : c.sources.Has l)
    (hconcrete : (c.sources.method l).isAbstract = false) :
    Spared c' l := by
  refine ⟨h.sources.has l hl, h.isAbstract hl hconcrete,
    fun n i hdeclared => ?_⟩
  rw [h.sameNodes.declared?] at hdeclared
  obtain ⟨s, hs, hdeclared⟩ := Option.bind_eq_some_iff.1 hdeclared
  obtain ⟨f, hf, haccessor⟩ := Option.bind_eq_some_iff.1 hdeclared
  have habstract :=
    (hproper.proper n s hs).accessors f (List.mem_of_getElem? hf) l haccessor
  cases habstract.symm.trans hconcrete

/-- The name of a predicate ends otherwise than that of a method that closes
dependants. -/
theorem closeDependantsName_ne_predicateName (node stage : String) :
    Convention.closeDependantsName node ≠ Convention.predicateName stage := by
  intro h
  have hcloser : (Convention.closeDependantsName node).toList
      = ("close" ++ node ++ "Dependant").toList ++ ['s'] := by
    simp [Convention.closeDependantsName]
  have hpredicate : (Convention.predicateName stage).toList
      = (Text.decapitalize stage ++ "Ini").toList ++ ['t'] := by
    simp [Convention.predicateName]
  have hlists :=
    hcloser.symm.trans ((congrArg String.toList h).trans hpredicate)
  exact absurd (List.append_inj' hlists rfl).2 (by decide)

/-- Every predicate has the name of one: a declared one was found by it, and
any other was made with it. -/
theorem exists_name_predicate {p : Location}
    (hpopulated : Analysis.Populated c)
    (hsound : Sound c) (hlater : Later c c')
    (hp : c'.progress n .predicate = .done p) :
    ∃ stage, (c'.sources.method p).name = Convention.predicateName stage := by
  have hmade := (hpopulated.seated.keeps hlater).made n _ p hp
  cases hdeclared : c'.declared? n .predicate with
  | none => exact ⟨_, hmade.named rfl hdeclared⟩
  | some l =>
      obtain rfl := hmade.declared l hdeclared
      rw [hlater.nodes.declared?] at hdeclared
      have hhas := hpopulated.seated.declared n _ p hdeclared
      obtain ⟨s, hs, hpredicate⟩ := Option.bind_eq_some_iff.1 hdeclared
      have hname := (hsound.proper n s hs).predicate p hpredicate
      exact ⟨s.name, (hlater.methodName hhas).trans hname⟩

/-- The `doClose` method calls what closes the dependants only where the close
body did before. -/
theorem Wrapped.call_mem_close {closer : Location} {t : Option Expr}
    {args : List Expr}
    (h : Wrapped c₀ c n ms) (hclosers : ClosersMade c)
    (hcloser : ms.closer = some closer)
    (hpredicate : ∃ stage, (c.sources.method ms.predicate).name
      = Convention.predicateName stage)
    (hcall : .call t (c.sources.methodRef closer) args
      ∈ (c.sources.method ms.doClose).bodyOrEmpty.exprs) :
    .call t (c.sources.methodRef closer) args
      ∈ (c₀.sources.method ms.close).bodyOrEmpty.exprs := by
  have hbody : (c.sources.method ms.doClose).bodyOrEmpty
      = leaving (c.sources.methodRef ms.predicate)
        :: (c₀.sources.method ms.close).bodyOrEmpty := by
    rw [Method.bodyOrEmpty, h.doCloseBody]
    rfl
  have hne : c.sources.methodRef closer
      ≠ c.sources.methodRef ms.predicate := by
    intro he
    obtain ⟨stage, hname⟩ := hpredicate
    have hnames : (c.sources.method closer).name
        = (c.sources.method ms.predicate).name :=
      congrArg MethodRef.name he
    rw [(hclosers n closer (hcloser ▸ h.made.closer)).named, hname] at hnames
    exact closeDependantsName_ne_predicateName _ _ hnames
  rw [hbody, Block.exprs_cons] at hcall
  refine (List.mem_append.1 hcall).resolve_left fun hleave => hne ?_
  have hexprs : Node.exprs (leaving (c.sources.methodRef ms.predicate)).nodes
      = [.unary .not (.call none (c.sources.methodRef ms.predicate) []),
        .call none (c.sources.methodRef ms.predicate) []] := by
    simp [leaving, Stmt.when, Stmt.nodes, Stmt.nodesOfAll, Stmt.nodesOfBlock?,
      Expr.subterms, Expr.subtermsOfTarget, Expr.subtermsOfAll]
  rw [hexprs] at hleave
  have hcalls : t = none
      ∧ c.sources.methodRef closer = c.sources.methodRef ms.predicate
      ∧ args = [] := by simpa using hleave
  exact hcalls.2.1

/-- Nodes that are prepared after an analysis and the guarding, in any order
and each once. A stage's close method then returns where the stage is not
initialized, calls what closes the dependants if there is such a method, and
goes on as before. Its `doClose` method returns likewise and goes on as the
close method did, so it calls what closes the dependants only where that did.
Its init methods close the dependants in the end, if there is such a method,
and are as before otherwise. No other method that is declared with a body has
changed. -/
theorem prepare_wraps_bodies {sources : Sources} {tree : Composition}
    {options : Options} {report : AnalysisReport} {counts : GuardReport}
    {order : List DependencyId} {c'' : Compilation}
    (hanalyse : analyse.runOn { sources, tree, options } = (.ok report, c))
    (hguard : guardNodes.runOn c = (.ok counts, c'))
    (horder : order.Perm c'.graph.ids)
    (hprepare : (order.forM prepare).runOn c' = (.ok (), c'')) :
    (∀ n s, (c''.graph.get n).stage? = some s → ∃ ms, Wrapped c' c'' n ms
        ∧ ∀ closer ∈ ms.closer, ∀ t args,
        .call t (c''.sources.methodRef closer) args
            ∈ (c''.sources.method ms.doClose).bodyOrEmpty.exprs →
          .call t (c''.sources.methodRef closer) args
            ∈ (c'.sources.method ms.close).bodyOrEmpty.exprs)
      ∧ ∀ l, sources.Has l → (sources.method l).isAbstract = false →
        (∀ n, ¬ Wraps c' n l) →
        c''.sources.method l = c'.sources.method l := by
  have hall := prepareAll_treated hanalyse hguard horder hprepare
  refine ⟨fun n s hs => ?_, fun l hl hconcrete hnot => ?_⟩
  · obtain ⟨ms, h⟩ := hall.wrapped.of_stage (fun _ => horder.mem_iff.2) hs
    have hname := exists_name_predicate hall.populated hall.sound
      (hall.later.trans hall.wrapped.later) h.made.predicate
    exact ⟨ms, h, fun _ hcloser _ _ => h.call_mem_close hall.wrapped.closers
      hcloser hname⟩
  · obtain rfl := hall.sources
    have hspared := spared_of_declared hall.sound hall.evolves hl hconcrete
    exact hall.wrapped.method l (Or.inr hspared) fun n _ => hnot n

/-- One type with a stage `X` that has two init methods and a close method, a
stage `Y` whose init method reads the field of `X`, and a method of neither. -/
def reinitSources : Sources :=
  let field (name : String) : Field :=
    { name, type := .int, init := some (.literal (.int (-1))) }
  let set (name : String) (value : Expr) : Stmt :=
    .expr (.assign none (.field none ⟨"A", name⟩) value)
  let initX : Method :=
    { name := "initX", returns := .void,
      body := some [set "x" (.literal (.int 0))] }
  let initXTo : Method :=
    { name := "initX", returns := .void,
      params := [{ name := "n", type := .int }]
      body := some [set "x" (.var "n")] }
  let closeX : Method :=
    { name := "closeX", returns := .void,
      body := some [set "x" (.literal (.int (-1)))] }
  let initY : Method :=
    { name := "initY", returns := .void,
      body := some [set "y" (.field none ⟨"A", "x"⟩)] }
  let size : Method :=
    { name := "size", returns := .int,
      body := some [.ret (some (.literal (.int 2)))] }
  let a : TypeDecl :=
    { TypeDecl.participating "A" with
      fields := [field "x", field "y"]
      methods := [initX, initXTo, closeX, initY, size] }
  { decls := [a.assignIdentities] }

/-- The nodes are prepared in reverse. `X` has a method that closes `Y`, which
its close method and both its init methods call, and `size` is as before. -/
theorem prepare_wraps_bodies_reinit : ∃ report c counts c' c'' ms,
    analyse.runOn { sources := reinitSources, tree := pairTree }
      = (.ok report, c)
      ∧ guardNodes.runOn c = (.ok counts, c')
      ∧ (c'.graph.ids.reverse.forM prepare).runOn c' = (.ok (), c'')
      ∧ Wrapped c' c'' ⟨0⟩ ms ∧ ms.close = ⟨⟨0⟩, 2⟩ ∧ ms.closer.isSome = true
      ∧ (c''.graph.get ⟨0⟩).stage?.map Stage.initMethods
        = some [⟨⟨0⟩, 0⟩, ⟨⟨0⟩, 1⟩]
      ∧ c''.sources.method ⟨⟨0⟩, 4⟩ = c'.sources.method ⟨⟨0⟩, 4⟩ := by
  let c := (analyse.runOn { sources := reinitSources, tree := pairTree }).2
  let c' := (guardNodes.runOn c).2
  let c'' := ((c'.graph.ids.reverse.forM prepare).runOn c').2
  obtain ⟨report, hanalyse⟩ := exists_runOn_eq (x := analyse)
    (c := { sources := reinitSources, tree := pairTree }) (by decide +kernel)
  obtain ⟨counts, hguard⟩ :=
    exists_runOn_eq (x := guardNodes) (c := c) (by decide +kernel)
  obtain ⟨⟨⟩, hprepare⟩ :=
    exists_runOn_eq (x := c'.graph.ids.reverse.forM prepare) (c := c')
    (by decide +kernel)
  obtain ⟨hwrapped, hother⟩ := prepare_wraps_bodies hanalyse hguard
    (List.reverse_perm _) hprepare
  have hinits : (c''.graph.get ⟨0⟩).stage?.map Stage.initMethods
      = some [⟨⟨0⟩, 0⟩, ⟨⟨0⟩, 1⟩] := by decide +kernel
  have hclose : c''.progress ⟨0⟩ .close = .done ⟨⟨0⟩, 2⟩ := by decide +kernel
  have hcloser : (c''.closing ⟨0⟩).value?.any Option.isSome = true := by
    decide +kernel
  obtain ⟨s, hs, -⟩ := Option.map_eq_some_iff.1 hinits
  obtain ⟨ms, h, -⟩ := hwrapped ⟨0⟩ s hs
  rw [h.made.closer] at hcloser
  refine ⟨report, c, counts, c', c'', ms, hanalyse, hguard, hprepare, h,
    Progress.done.inj (h.made.close.symm.trans hclose), hcloser, hinits, ?_⟩
  have hhas : reinitSources.Has ⟨⟨0⟩, 4⟩ := by
    unfold Sources.Has
    decide
  have hnone : ∀ n ∈ c'.graph.ids, ∀ s ∈ (c'.graph.get n).stage?,
      (⟨⟨0⟩, 4⟩ : Location) ∉ s.initMethods ∧ s.close ≠ .done ⟨⟨0⟩, 4⟩ := by
    decide +kernel
  refine hother ⟨⟨0⟩, 4⟩ hhas (by decide +kernel) fun n hwraps => ?_
  rcases hwraps with ⟨s, hs, hl⟩ | hl
  · exact (hnone n (mem_ids_of_stage? hs) s hs).1 hl
  · obtain ⟨s, hs⟩ := exists_stage_of_done hl
    exact (hnone n (mem_ids_of_stage? hs) s hs).2
      ((progress_eq hs).symm.trans hl)

end Stagewise.Lifecycle
