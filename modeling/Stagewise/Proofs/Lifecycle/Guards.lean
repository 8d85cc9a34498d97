/-
What the guarding of bodies leaves: in the bodies of a node nothing foreign
is read or called directly, each such access having become one of its
guarded member, and all else is as before.

# One expression

An expression is seen with the members that there are in the end: its
guarded form in a later compilation is what the hook yields now, since a
made member stays made (`knows_guardExpr`). The walk carries this to a
whole body.

# All bodies

While one body is detached, members are made, which changes no other body
of a node. So between two turns each body is guarded or as it was
(`InTurn`), and in the end all are guarded (`guardNodes_guards`).

# Once more

What is guarded consists of own expressions only, which the hook hands back
as they are. So guarding again changes nothing (`runOn_guardNodes_of_own`).
-/
import Stagewise.Proofs.Lifecycle.Bodies
import Stagewise.Proofs.Lifecycle.Changes
import Stagewise.Proofs.Program.Transform

namespace Stagewise.Lifecycle

open Compilation Step

variable {α β : Type} {K : Location → Prop} {c c' c₁ : Compilation}
variable {n m : DependencyId} {l : Location} {r : GuardReport}

-- ============================================================ guarding steps

@[simp] theorem ensures_run_pure {a : α}
    {Q : α × GuardReport → Compilation → Prop} :
    Ensures ((pure a : Guarding α).run r) c Q ↔ Q (a, r) c :=
  ensures_pure

@[simp] theorem ensures_run_bind {x : Guarding α} {f : α → Guarding β}
    {Q : β × GuardReport → Compilation → Prop} :
    Ensures ((x >>= f).run r) c Q
      ↔ Ensures (x.run r) c fun a c' => Ensures ((f a.1).run a.2) c' Q :=
  ensures_bind

@[simp] theorem ensures_run_count {f : GuardReport → GuardReport}
    {Q : Unit × GuardReport → Compilation → Prop} :
    Ensures ((modify f : Guarding Unit).run r) c Q ↔ Q ((), f r) c :=
  ensures_pure

@[simp] theorem ensures_run_lift {x : Step α}
    {Q : α × GuardReport → Compilation → Prop} :
    Ensures ((liftM x : Guarding α).run r) c Q
      ↔ Ensures x c fun a c' => Q (a, r) c' :=
  ensures_bind.trans (by simp only [ensures_pure])

@[simp] theorem ensures_run_get
    {Q : Compilation × GuardReport → Compilation → Prop} :
    Ensures ((getThe Compilation : Guarding Compilation).run r) c Q
      ↔ Q (c, r) c := by
  show Ensures ((get : Step Compilation) >>= fun a => pure (a, r)) c Q ↔ _
  rw [ensures_bind, ensures_get, ensures_pure]

/-- `ensures_forM` with a count. -/
theorem ensures_run_forM {as : List α} {f : α → Guarding Unit}
    {I : List α → Compilation → Prop}
    (hturn : ∀ done, ∀ a ∈ as, ∀ c r, I done c →
      Ensures ((f a).run r) c fun _ c' => I (done ++ [a]) c') (h : I [] c) :
    Ensures ((as.forM f).run r) c fun _ c' => I as c' := by
  suffices hrest : ∀ rest done, done ++ rest = as → ∀ c r, I done c →
      Ensures ((rest.forM f).run r) c fun _ c' =>
        I as c' from hrest as [] rfl c r h
  intro rest
  induction rest with
  | nil =>
      intro done hdone c r h
      rw [List.append_nil] at hdone
      exact ensures_run_pure.2 (hdone ▸ h)
  | cons a rest ih =>
      intro done hdone c r h
      have ha : a ∈ as := hdone ▸ List.mem_append_right _ List.mem_cons_self
      refine ensures_run_bind.2
        ((hturn done a ha c r h).mono fun b c₁ h₁ => ?_)
      exact ih (done ++ [a]) (by rw [List.append_assoc]; exact hdone) c₁ b.2 h₁

-- ======================================================= own and foreign

/-- That an expression of `n` reads no field and calls no tagged method of
another stage. -/
def Own (b : Bindings) (n : DependencyId) : Expr → Prop
  | .field _ f => ∀ s, b.stageOfField? f.identity = some s → s = n
  | .call _ m _ => ∀ s, b.stageOfMethod? m.identity = some s → s = n
  | _ => True

/-- An expression of `n` whose parts are guarded, with the members that a
compilation has. A foreign access whose guarded member is not made would
stay as it is. -/
def guardedForm (c : Compilation) (n : DependencyId) (e : Expr) : Expr :=
  match foreignOwner? c.bindings n e with
  | none => e
  | some s =>
      match e with
      | .field t f => (c.accessor? s f.identity).elim e (.call t · [])
      | .call t m args => (c.guarded? s m.identity).elim e (.call t · args)
      | e => e

/-- A method of `n` after its body was guarded, nothing else changed. -/
structure Guarded (c : Compilation) (n : DependencyId) (former m : Method) :
    Prop where
  rewritten : m = former.rewrite (guardedForm c n)
  own : ∀ e ∈ m.bodyOrEmpty.exprs, Own c.bindings n e

theorem own_iff {b : Bindings} {e : Expr} :
    Own b n e ↔ foreignOwner? b n e = none := by
  unfold Own foreignOwner?
  cases e <;> simp [Option.filter_eq_none_iff]

/-- A call of a method that is tagged with no stage is own. -/
theorem own_call {b : Bindings} {t : Option Expr} {f : MethodRef}
    {args : List Expr}
    (h : b.stageOfMethod? f.identity = none) : Own b n (.call t f args) := by
  intro s hs
  rw [h] at hs
  cases hs

theorem guardedForm_eq_self {e : Expr} (h : Own c.bindings n e) :
    guardedForm c n e = e := by
  unfold guardedForm
  rw [own_iff.1 h]

/-- Guarding what is guarded changes nothing. -/
theorem Guarded.rewrite_eq_self {former m : Method}
    (h : Guarded c n former m) :
    m.rewrite (guardedForm c n) = m :=
  Method.rewrite_eq_self fun e he => guardedForm_eq_self (h.own e he)

-- =========================================================== one expression

/-- That a guarding step keeps what there is, with an answer of which
something is known in every later compilation. -/
def Yields (K : Location → Prop) (x : Guarding α)
    (P : Compilation → α → Prop) : Prop :=
  ∀ c r, WellMade K c → Ensures (x.run r) c fun a c' =>
    Keeps K c c' ∧ ∀ c'', Later c' c'' → P c'' a.1

/-- To reason about guarding steps by what they yield. -/
def yielding (K : Location → Prop) :
    Transformer.Reasoning Guarding Compilation where
  holds := Yields K
  mono h hPQ c r hc :=
    (h c r hc).mono fun _ _ hk => ⟨hk.1, fun c'' hl => hPQ c'' _ (hk.2 c'' hl)⟩
  ofPure hQ c _ _ := ensures_run_pure.2 ⟨.refl K c, fun c'' _ => hQ c''⟩
  ofBind hx hf c r hc := by
    refine ensures_run_bind.2 ((hx c r hc).mono fun a c₁ ⟨hk, ha⟩ => ?_)
    refine (hf a.1 c₁ a.2 (hc.keeps hk)).mono fun b c₂ ⟨hk', hb⟩ => ?_
    refine ⟨hk.trans hk', fun c'' hl => hb c'' hl (ha c'' ?_)⟩
    exact hk'.later.trans hl

/-- What is foreign stays so. -/
theorem foreignOwner?_of_keeps (h : Keeps K c c') (e : Expr) :
    foreignOwner? c'.bindings n e = foreignOwner? c.bindings n e := by
  unfold foreignOwner?
  cases e <;> simp only [h.field, h.stageMethod]

/-- The hook yields the guarded form of an expression, and with its parts
all of it is own. -/
theorem knows_guardExpr : (yielding K).KnowsHook (guardExpr n)
    (fun c => guardedForm c n) (fun c => Own c.bindings n) := by
  intro e c r hc
  unfold guardExpr
  rw [ensures_run_bind, ensures_run_get]
  split
  · rename_i hown
    refine ensures_run_pure.2 ⟨.refl K c, fun c'' hl => ?_⟩
    have he : Own c''.bindings n e := by
      rw [own_iff, foreignOwner?_of_keeps hl, hown]
    exact ⟨(guardedForm_eq_self he).symm, Expr.forall_mem_subterms he⟩
  · rename_i s hs
    split
    · rename_i t f
      simp only [ensures_run_bind, ensures_run_lift, ensures_run_count,
        ensures_run_pure]
      refine (accessor_keeps hc.toSeated).mono fun m c' ⟨hk, hm⟩ =>
        ⟨hk, fun c'' hl => ?_⟩
      have hs'' : foreignOwner? c''.bindings n (.field t f) = some s := by
        rw [foreignOwner?_of_keeps hl, foreignOwner?_of_keeps hk, hs]
      have hm'' : c''.accessor? s f.identity = some m :=
        hl.accessor? (hc.keeps hk).toSeated hm
      have hown : Own c''.bindings n (.call t m []) :=
        own_call (((hc.keeps hk).keeps hl).stageOfMethod?_accessor hm'')
      refine ⟨by simp only [guardedForm, hs'', hm'', Option.elim],
        fun hparts => ?_⟩
      refine Expr.forall_mem_subterms hown fun x hx => hparts x ?_
      simpa [Expr.parts, Expr.subterms, Expr.subtermsOfAll] using hx
    · rename_i t m args
      simp only [ensures_run_bind, ensures_run_lift, ensures_run_count,
        ensures_run_pure]
      refine (guarded_keeps hc.toSeated).mono fun f c' ⟨hk, hf⟩ =>
        ⟨hk, fun c'' hl => ?_⟩
      have hs'' : foreignOwner? c''.bindings n (.call t m args) = some s := by
        rw [foreignOwner?_of_keeps hl, foreignOwner?_of_keeps hk, hs]
      have hf'' : c''.guarded? s m.identity = some f :=
        hl.guarded? (hc.keeps hk).toSeated hf
      have hown : Own c''.bindings n (.call t f args) :=
        own_call (((hc.keeps hk).keeps hl).stageOfMethod?_guarded hf'')
      refine ⟨by simp only [guardedForm, hs'', hf'', Option.elim],
        fun hparts => ?_⟩
      exact Expr.forall_mem_subterms hown hparts
    · rename_i hfield hcall
      cases e with
      | field t f => exact absurd rfl (hfield t f)
      | call t m args => exact absurd rfl (hcall t m args)
      | _ => cases hs

/-- To reason about guarding steps by what they maintain. -/
def maintaining (I : Compilation → Prop) :
    Transformer.Reasoning Guarding Unit where
  holds x _ := ∀ c r, I c → Ensures (x.run r) c fun _ c' => I c'
  mono h _ := h
  ofPure _ _ _ hc := ensures_run_pure.2 hc
  ofBind hx hf c r hc :=
    ensures_run_bind.2 ((hx c r hc).mono fun a c₁ hc₁ => hf a.1 c₁ a.2 hc₁)

/-- Guarding an expression leaves what the making of the member that it asks
for leaves. -/
theorem ensures_guardExpr {I : Compilation → Prop} {e : Expr} (h : I c)
    (haccessor : ∀ d field, Ensures (accessor d field) c fun _ c' => I c')
    (hguarded : ∀ d method, Ensures (guarded d method) c fun _ c' => I c') :
    Ensures ((guardExpr n e).run r) c fun _ c' => I c' := by
  unfold guardExpr
  rw [ensures_run_bind, ensures_run_get]
  split
  · exact ensures_run_pure.2 h
  · split
    · simp only [ensures_run_bind, ensures_run_lift, ensures_run_count,
        ensures_run_pure]
      exact haccessor _ _
    · simp only [ensures_run_bind, ensures_run_lift, ensures_run_count,
        ensures_run_pure]
      exact hguarded _ _
    · exact ensures_run_pure.2 h

/-- A guard comes to the making of members of one stage. -/
theorem guardExpr_makings {e : Expr} :
    Ensures ((guardExpr n e).run r) c fun _ c' => ∃ m, Makings m c c' :=
  ensures_guardExpr ⟨n, .refl⟩
    (fun d field => (Makings.accessor .refl field).mono fun _ _ hm => ⟨d, hm⟩)
    fun d method => (Makings.guarded .refl method).mono fun _ _ hm => ⟨d, hm⟩

-- ================================================================= one body

/-- The compilation in which a method has another body. -/
def withBody (c : Compilation) (l : Location) (body : Option Block) :
    Compilation :=
  { c with sources := c.sources.modifyMethod l fun m => { m with body } }

variable {body : Option Block}

@[simp] theorem ensures_setBody {Q : Unit → Compilation → Prop} :
    Ensures (setBody l body) c Q ↔ Q () (withBody c l body) :=
  ensures_modifySources

theorem runOn_run_setBody :
    ((liftM (setBody l body) : Guarding Unit).run r).runOn c
      = (.ok ((), r), withBody c l body) := rfl

/-- Another body of one method keeps all others. -/
theorem withBody_keeps (hl : c.sources.Has l) :
    Keeps (fun l' => K l' ∧ l' ≠ l) c (withBody c l body) :=
  .ofSources (.modifyMethod (fun _ => rfl) hl fun hK => hK.2 rfl)

theorem method_withBody (hl : c.sources.Has l) :
    (withBody c l body).sources.method l = { c.sources.method l with body } :=
  (Sources.method_modifyMethod hl _ l).trans (if_pos rfl)

/-- A body that is detached and put back is where it was. -/
theorem withBody_withBody (h : (c.sources.method l).body = body) :
    withBody (withBody c l none) l body = c := by
  have hsources : (withBody (withBody c l none) l body).sources
      = c.sources := by
    refine (Sources.modifyMethod_modifyMethod _ _).trans
      (Sources.modifyMethod_eq_self ?_)
    rw [← h]
  exact congrArg (fun s => { c with sources := s }) hsources

/-- While a body is detached the guarding of its expressions maintains `I`, and
what is left when it is put back is `J`. -/
theorem ensures_guardBody {I J : Compilation → Prop}
    (hexpr : ∀ e c r, I c → Ensures ((guardExpr n e).run r) c fun _ c' => I c')
    (hnone : J c) (hdetach : I (withBody c l none))
    (hattach : ∀ c' body, I c' → J (withBody c' l (some body))) :
    Ensures ((guardBody n l).run r) c fun _ c' => J c' := by
  unfold guardBody
  rw [ensures_run_bind, ensures_run_get]
  split
  · exact ensures_run_pure.2 hnone
  · rename_i body _
    simp only [ensures_run_bind, ensures_run_lift, ensures_setBody]
    have hwalk :=
      (maintaining I).block_holds (h := guardExpr n) (F := fun _ => id)
      (G := fun _ _ => True) hexpr body _ r hdetach
    exact hwalk.mono fun b c' hc' => hattach c' b.1 hc'

/-- Guarding a body keeps all others, and it is guarded in every later
compilation. -/
theorem guardBody_guards (h : WellMade K c) (hl : K l) :
    Ensures ((guardBody n l).run r) c fun _ c' =>
      Keeps (fun l' => K l' ∧ l' ≠ l) c c'
        ∧ ∀ c'', Later c' c'' →
          Guarded c'' n (c.sources.method l) (c'.sources.method l) := by
  obtain ⟨_, _, ⟨hhas, -⟩, -⟩ := h.bodies l hl
  unfold guardBody
  rw [ensures_run_bind, ensures_run_get]
  split
  · rename_i hnone
    have hempty : (c.sources.method l).bodyOrEmpty = [] := by
      rw [Method.bodyOrEmpty, hnone, Option.getD_none]
    refine ensures_run_pure.2 ⟨.refl _ c, fun c'' _ => ⟨?_, ?_⟩⟩
    · refine (Method.rewrite_eq_self ?_).symm
      rw [hempty]
      exact nofun
    · rw [hempty]
      exact nofun
  · rename_i body hbody
    simp only [ensures_run_bind, ensures_run_lift, ensures_setBody]
    have hdetach : Keeps (fun l' => K l' ∧ l' ≠ l) c (withBody c l none) :=
      withBody_keeps hhas
    have hwalk := (yielding K).block_holds (knows_guardExpr (n := n)) body _ r
      (h.keeps hdetach)
    refine hwalk.mono fun b c₂ ⟨hk, hb⟩ => ?_
    have hhas₂ : c₂.sources.Has l :=
      (hk.sources.heading l (hdetach.sources.heading l hhas).1).1
    have hattach : Keeps (fun l' => K l' ∧ l' ≠ l) c₂
        (withBody c₂ l (some b.1)) :=
      withBody_keeps hhas₂
    refine ⟨(hdetach.trans (hk.weaken fun _ hK => hK.1)).trans hattach,
      fun c'' hl'' => ?_⟩
    obtain ⟨hrewrite, hown⟩ := hb c'' (hattach.later.trans hl'')
    have hmethod : (withBody c₂ l (some b.1)).sources.method l
        = { c.sources.method l with body := some b.1 } := by
      rw [method_withBody hhas₂, hk.sources.kept l hl, method_withBody hhas]
    rw [hmethod]
    refine ⟨?_, hown⟩
    rw [Method.rewrite, hbody, Option.map_some, ← hrewrite]

-- =============================================================== all bodies

/-- Guarding a node maintains what the guarding of each of its bodies does. -/
theorem ensures_guardNode {I : Compilation → Prop} (h : I c)
    (hbody : ∀ l ∈ c.bodyLocations n, ∀ c' r, I c' →
      Ensures ((guardBody n l).run r) c' fun _ c'' => I c'') :
    Ensures ((guardNode n).run r) c fun _ c' => I c' := by
  unfold guardNode
  rw [ensures_run_bind, ensures_run_get]
  exact ensures_run_forM (I := fun _ c' => I c')
    (fun _ l hl c' r hc' => hbody l hl c' r hc') h

/-- Giving every stage its close method maintains what the making of one
does. -/
theorem ensures_closeStages {I : Compilation → Prop} (h : I c)
    (hclose : ∀ n c, I c → Ensures (close n) c fun _ c' => I c') :
    Ensures closeStages c fun _ c' => I c' := by
  unfold closeStages
  rw [ensures_bind, ensures_get]
  refine ensures_forM (I := fun _ c' => I c') (fun _ n _ c₁ h₁ => ?_) h
  rw [ensures_bind]
  exact (hclose n c₁ h₁).mono fun _ _ h₂ => ensures_pure.2 h₂

/-- Guarding all nodes maintains what holds once every stage has its close
method and what the guarding of one node maintains. -/
theorem ensures_guardNodes {I : Compilation → Prop}
    (hstages : Ensures closeStages c fun _ c' => I c')
    (hguard : ∀ n c r, I c →
      Ensures ((guardNode n).run r) c fun _ c' => I c') :
    Ensures guardNodes c fun _ c' => I c' := by
  unfold guardNodes
  simp only [ensures_bind, ensures_get]
  refine hstages.mono fun _ c₁ h₁ => ?_
  refine (ensures_run_forM (I := fun _ c' => I c')
    (fun _ n _ c₂ r h₂ => ?_) h₁).mono
    fun _ c' h' => ensures_pure.2 h'
  exact hguard n c₂ r h₂

/-- That a body of `c₁` is guarded from now on. -/
def Settled (c₁ c : Compilation) (n : DependencyId) (l : Location) : Prop :=
  ∀ c', Later c c' → Guarded c' n (c₁.sources.method l) (c.sources.method l)

/-- Between two turns, each body of `c₁` is guarded or as it was. Those of
`S` had their turn. -/
structure InTurn (c₁ : Compilation) (S : DependencyId → Location → Prop)
    (c : Compilation) : Prop where
  later : Later c₁ c
  bodies : ∀ n, ∀ l ∈ c₁.bodyLocations n, Settled c₁ c n l
    ∨ ¬ S n l ∧ c.sources.method l = c₁.sources.method l

variable {S S' : DependencyId → Location → Prop}

theorem InTurn.mono (h : InTurn c₁ S c)
    (hS : ∀ n, ∀ l ∈ c₁.bodyLocations n, S' n l → S n l) : InTurn c₁ S' c :=
  ⟨h.later, fun n l hl => (h.bodies n l hl).imp_right fun hkept =>
    ⟨fun hS' => hkept.1 (hS n l hl hS'), hkept.2⟩⟩

/-- One turn guards one body. A body that had its turn stays as it is. -/
theorem guardBody_inTurn (hw : WellMade (HoldsBody c₁) c₁) (h : InTurn c₁ S c)
    (hl : l ∈ c₁.bodyLocations n) :
    Ensures ((guardBody n l).run r) c fun _ c' =>
      InTurn c₁ (fun m l' => S m l' ∨ m = n ∧ l' = l) c' := by
  refine (guardBody_guards (hw.keeps h.later) ⟨n, hl⟩).mono
    fun _ c' ⟨hk, hg⟩ => ?_
  refine ⟨h.later.trans hk.later, fun m l' hm => ?_⟩
  by_cases hll : l' = l
  · subst hll
    obtain rfl := node_unique hw.toSeated hl hm
    refine Or.inl fun c'' hl'' => ?_
    rcases h.bodies n l' hl with hs | ⟨-, hsame⟩
    · have hbefore := hs c'' (hk.later.trans hl'')
      rw [(hg c'' hl'').rewritten, hbefore.rewrite_eq_self]
      exact hbefore
    · rw [← hsame]
      exact hg c'' hl''
  · have hkept : c'.sources.method l' = c.sources.method l' :=
      hk.sources.kept l' ⟨⟨m, hm⟩, hll⟩
    rcases h.bodies m l' hm with hs | ⟨hS, hsame⟩
    · refine Or.inl fun c'' hl'' => ?_
      rw [hkept]
      exact hs c'' (hk.later.trans hl'')
    · exact Or.inr ⟨fun hor => hor.elim hS fun he => hll he.2,
        hkept.trans hsame⟩

/-- The turns of one node guard all its bodies. -/
theorem guardNode_inTurn (hw : WellMade (HoldsBody c₁) c₁)
    (hclosed : Closed c₁) (h : InTurn c₁ S c) :
    Ensures ((guardNode n).run r) c fun _ c' =>
      InTurn c₁ (fun m l => S m l ∨ m = n) c' := by
  unfold guardNode
  rw [ensures_run_bind, ensures_run_get, hclosed.bodyLocations_eq h.later]
  refine (ensures_run_forM (I := fun done c' =>
    InTurn c₁ (fun m l => S m l ∨ m = n ∧ l ∈ done) c') ?_ ?_).mono ?_
  · intro done l hl c r h
    refine (guardBody_inTurn hw h hl).mono fun _ c' h' => h'.mono ?_
    intro m l' _ hS
    rcases hS with hS | ⟨rfl, hmem⟩
    · exact Or.inl (Or.inl hS)
    · rcases List.mem_append.1 hmem with hmem | hmem
      · exact Or.inl (Or.inr ⟨rfl, hmem⟩)
      · exact Or.inr ⟨rfl, List.mem_singleton.1 hmem⟩
  · exact h.mono fun m l _ hS => hS.resolve_right nofun
  · intro _ c' h'
    refine h'.mono fun m l hl hS => hS.imp_right ?_
    intro hm
    subst hm
    exact ⟨rfl, hl⟩

/-- The turns of all nodes guard all bodies. -/
theorem guardNode_forM_inTurn (hw : WellMade (HoldsBody c₁) c₁)
    (hclosed : Closed c₁) :
    Ensures ((c₁.graph.ids.forM guardNode).run r) c₁ fun _ c' =>
      Later c₁ c' ∧ ∀ n, ∀ l ∈ c₁.bodyLocations n, Settled c₁ c' n l := by
  refine (ensures_run_forM
    (I := fun done c' => InTurn c₁ (fun m _ => m ∈ done) c')
    ?_ ?_).mono ?_
  · intro done n _ c r h
    refine (guardNode_inTurn hw hclosed h).mono fun _ c' h' => h'.mono ?_
    intro m l _ hm
    exact (List.mem_append.1 hm).imp_right List.mem_singleton.1
  · exact ⟨.refl _ c₁, fun _ _ _ => Or.inr ⟨nofun, rfl⟩⟩
  · intro _ c' h
    refine ⟨h.later, fun n l hl => (h.bodies n l hl).resolve_right
      fun hleft => ?_⟩
    exact hleft.1 (mem_ids_of_mem_bodyLocations hl)

-- ================================================================ once more

theorem runOn_closeStages_of_closed (h : Closed c) :
    closeStages.runOn c = (.ok (), c) := by
  unfold closeStages
  rw [runOn_bind, runOn_get]
  refine runOn_forM_of_unchanged fun n hn => ?_
  obtain ⟨s, hs⟩ := Option.isSome_iff_exists.1 (List.mem_filter.1 hn).2
  obtain ⟨l, hl⟩ := h n s hs
  rw [runOn_bind, runOn_close_of_done hl]
  rfl

theorem runOn_run_bind {x : Guarding α} {f : α → Guarding β} {a : α}
    {r' : GuardReport} (h : (x.run r).runOn c = (.ok (a, r'), c')) :
    ((x >>= f).run r).runOn c = ((f a).run r').runOn c' := by
  rw [StateT.run_bind, runOn_bind, h]

/-- Guarding steps that change and count nothing. -/
def answering (c : Compilation) : Transformer.Answering Guarding where
  returns x a := ∀ r, (x.run r).runOn c = (.ok (a, r), c)
  ofPure _ _ := rfl
  ofBind hx hf r := (runOn_run_bind (hx r)).trans (hf r)

theorem guardExpr_returns {e : Expr} (h : Own c.bindings n e) :
    (answering c).returns (guardExpr n e) e := by
  unfold guardExpr
  refine (answering c).ofBind (a := c) (fun _ => rfl) ?_
  rw [own_iff.1 h]
  exact (answering c).ofPure e

theorem runOn_guard_block {b : Block} (h : ∀ e ∈ b.exprs, Own c.bindings n e)
    (r : GuardReport) :
    (((guard n).block b).run r).runOn c = (.ok (b, r), c) :=
  (answering c).block_returns (h := guardExpr n)
    (fun e he => guardExpr_returns (h e he)) r

/-- A body of own expressions is put back as it was. -/
theorem guardBody_returns
    (h : ∀ e ∈ (c.sources.method l).bodyOrEmpty.exprs, Own c.bindings n e) :
    (answering c).returns (guardBody n l) () := by
  unfold guardBody
  refine (answering c).ofBind (a := c) (fun _ => rfl) ?_
  split
  · exact (answering c).ofPure ()
  · rename_i body hbody
    rw [Method.bodyOrEmpty, hbody, Option.getD_some] at h
    intro r
    have hwalk : (((guard n).block body).run r).runOn (withBody c l none)
        = (.ok (body, r), withBody c l none) :=
      runOn_guard_block (c := withBody c l none) h r
    have hattach :
        ((liftM (setBody l (some body)) : Guarding Unit).run r).runOn
        (withBody c l none) = (.ok ((), r), c) := by
      rw [runOn_run_setBody, withBody_withBody hbody]
    exact (runOn_run_bind runOn_run_setBody).trans
      ((runOn_run_bind hwalk).trans hattach)

theorem guardNode_returns (h : ∀ l ∈ c.bodyLocations n,
      ∀ e ∈ (c.sources.method l).bodyOrEmpty.exprs, Own c.bindings n e) :
    (answering c).returns (guardNode n) () := by
  unfold guardNode
  refine (answering c).ofBind (a := c) (fun _ => rfl) ?_
  exact (answering c).forM_returns fun l hl => guardBody_returns (h l hl)

/-- Where every stage has its close method and every body consists of own
expressions, guarding changes and counts nothing. -/
theorem runOn_guardNodes_of_own (hclosed : Closed c)
    (h : ∀ n, ∀ l ∈ c.bodyLocations n,
      ∀ e ∈ (c.sources.method l).bodyOrEmpty.exprs, Own c.bindings n e) :
    guardNodes.runOn c = (.ok {}, c) := by
  have hturns : ((c.graph.ids.forM guardNode).run {}).runOn c
      = (.ok ((), {}), c) :=
    (answering c).forM_returns (fun n _ => guardNode_returns (h n)) {}
  unfold guardNodes
  simp only [runOn_bind, runOn_closeStages_of_closed hclosed, runOn_get,
    hturns, runOn_pure]

-- ================================================ what guarding carries along

/-- That a property of well-made compilations withstands what guarding does:
the members that are made for it, and a body that is detached and put back
guarded. -/
structure Carries (I : Compilation → Prop) : Prop where
  wellMade : ∀ c, I c → WellMade (fun _ => False) c
  close : ∀ n c, I c → Ensures (close n) c fun _ c' => I c'
  accessor : ∀ n field c, I c → Ensures (accessor n field) c fun _ c' => I c'
  guarded : ∀ n method c, I c → Ensures (guarded n method) c fun _ c' => I c'
  detach : ∀ c l m r, I c → c.Bound l m r → r.isBody = true →
    I (withBody c l none)
  attach : ∀ c c' n l m r former, I c → I c' → Later c c' → c.Bound l m r →
    r.isBody = true →
    (c.sources.method l).body = some former →
      I (withBody c' l (some (former.rewrite (guardedForm c' n))))

namespace Carries

variable {I : Compilation → Prop}

theorem guardExpr_holds (hI : Carries I) {e : Expr} (h : I c) :
    Ensures ((guardExpr n e).run r) c fun _ c' => I c' :=
  ensures_guardExpr h (fun d field => hI.accessor d field c h) fun d method =>
    hI.guarded d method c h

theorem guardBody_holds (hI : Carries I) {role : Role} (h : I c)
    (hl : c.Bound l m role) (hrole : role.isBody = true) :
    Ensures ((guardBody n l).run r) c fun _ c' => I c' ∧ Later c c' := by
  unfold guardBody
  rw [ensures_run_bind, ensures_run_get]
  split
  · exact ensures_run_pure.2 ⟨h, .refl _ c⟩
  rename_i former hformer
  simp only [ensures_run_bind, ensures_run_lift, ensures_setBody]
  have hdetached : I (withBody c l none) := hI.detach c l m role h hl hrole
  have hdetach : Later c (withBody c l none) :=
    (withBody_keeps (K := fun _ => False) hl.1).later
  have hyields :=
    (yielding fun _ => False).block_holds (knows_guardExpr (n := n)) former _ r
    (hI.wellMade _ hdetached)
  have hmaintains :=
    (maintaining I).block_holds (h := guardExpr n) (F := fun _ => id)
    (G := fun _ _ => True) (fun _ _ _ hc => hI.guardExpr_holds hc) former
    _ r hdetached
  refine (hyields.and hmaintains).mono fun b c₂ hwalk => ?_
  obtain ⟨⟨hk, hb⟩, h₂⟩ := hwalk
  have hlater : Later c c₂ := hdetach.trans hk.later
  have hattach : Later c₂ (withBody c₂ l (some b.1)) :=
    (withBody_keeps (K := fun _ => False) (hl.keeps hlater).1).later
  refine ⟨?_, hlater.trans hattach⟩
  rw [(hb c₂ (.refl _ c₂)).1]
  exact hI.attach c c₂ n l m role former h h₂ hlater hl hrole hformer

theorem guardNode_holds (hI : Carries I) (h : I c) :
    Ensures ((guardNode n).run r) c fun _ c' => I c' := by
  refine (ensures_guardNode (I := fun c' => I c' ∧ Later c c') ⟨h, .refl _ c⟩
    fun l hl c₁ r h₁ => ?_).mono fun _ _ h' => h'.1
  obtain ⟨role, hbound, hrole⟩ :=
    bound_of_mem_bodyLocations (hI.wellMade c h) hl
  refine (hI.guardBody_holds h₁.1 (hbound.keeps h₁.2) hrole).mono
    fun _ c₂ h₂ => ?_
  exact ⟨h₂.1, h₁.2.trans h₂.2⟩

/-- It holds after the guarding of all bodies. -/
theorem guardNodes_holds (hI : Carries I) (h : I c) :
    Ensures guardNodes c fun _ c' => I c' :=
  ensures_guardNodes (ensures_closeStages h hI.close) fun _ _ _ =>
    hI.guardNode_holds

end Carries

-- =============================================================== the result

/-- Guarding what was discovered first makes every close method, and each body
from then on is one of a node. -/
theorem ensures_guardNodes_of_discovered (h : Analysis.Discovered c)
    {Q : GuardReport → Compilation → Prop}
    (hguard : ∀ c₁, closeStages.runOn c = (.ok (), c₁) →
      Keeps (HoldsBody c) c c₁ → Closed c₁ →
      WellMade (HoldsBody c₁) c₁ →
        Ensures ((c₁.graph.ids.forM guardNode).run {}) c₁ fun b c' =>
          Q b.2 c') :
    Ensures guardNodes c Q := by
  unfold guardNodes
  rw [ensures_bind]
  intro _ c₁ hclose
  obtain ⟨hk, hclosed⟩ := closeStages_keeps h.toPopulated () c₁ hclose
  simp only [ensures_bind, ensures_get]
  exact (hguard c₁ hclose hk hclosed (.ofBodies (h.wellMade.keeps hk))).mono
    fun _ _ hQ => ensures_pure.2 hQ

/-- Guarding what was discovered makes every close method and then settles
every body. -/
theorem guardNodes_settles (h : Analysis.Discovered c) :
    Ensures guardNodes c fun _ c' => ∃ c₁, closeStages.runOn c = (.ok (), c₁)
      ∧ Keeps (HoldsBody c) c c₁ ∧ Closed c₁ ∧ Later c₁ c'
      ∧ ∀ n, ∀ l ∈ c₁.bodyLocations n, Settled c₁ c' n l := by
  refine ensures_guardNodes_of_discovered h fun c₁ hclose hk hclosed hw => ?_
  exact (guardNode_forM_inTurn hw hclosed).mono fun _ c' ⟨hlater, hsettled⟩ =>
    ⟨c₁, hclose, hk, hclosed, hlater, hsettled⟩

/-- Guarding after an analysis. At first every stage gets its close method,
one of its bodies from then on, which changes no body that there was.
Then every body of a node is guarded: it is the former one with each
access of another stage's field or tagged method replaced by one of the
member made for it, at any depth, and no such access is left. Whose a field
or method is stays as the analysis found it. Guarding again changes
nothing. -/
theorem guardNodes_guards {sources : Sources} {tree : Composition}
    {options : Options} {report : AnalysisReport} {counts : GuardReport}
    (hid : ∀ d ∈ sources.decls, ∀ m ∈ d.methods, m.id = m.identityIn d.name)
    (hanalyse : analyse.runOn { sources, tree, options } = (.ok report, c))
    (hguard : guardNodes.runOn c = (.ok counts, c')) :
    ∃ c₁, closeStages.runOn c = (.ok (), c₁)
      ∧ (∀ n, c'.bodyLocations n = c₁.bodyLocations n)
      ∧ (∀ n, ∀ l ∈ c.bodyLocations n,
          l ∈ c'.bodyLocations n ∧ c₁.sources.method l = c.sources.method l)
      ∧ (∀ n s, (c'.graph.get n).stage? = some s →
          ∃ l ∈ c'.bodyLocations n, s.close = .done l)
      ∧ (∀ id, c'.bindings.stageOfField? id = c.bindings.stageOfField? id
          ∧ c'.bindings.stageOfMethod? id = c.bindings.stageOfMethod? id)
      ∧ (∀ n, ∀ l ∈ c'.bodyLocations n,
          Guarded c' n (c₁.sources.method l) (c'.sources.method l))
      ∧ guardNodes.runOn c' = (.ok {}, c') := by
  have hdiscovered : Analysis.Discovered c :=
    Analysis.analyse_discovered rfl (fun _ => Sources.identified_of_has hid)
      report c hanalyse
  obtain ⟨c₁, hclose, hk, hclosed, hlater, hsettled⟩ :=
    guardNodes_settles hdiscovered counts c' hguard
  have hlocations : ∀ n, c'.bodyLocations n = c₁.bodyLocations n :=
    hclosed.bodyLocations_eq hlater
  have hclosed' : Closed c' := hclosed.keeps hlater
  have hguarded : ∀ n, ∀ l ∈ c'.bodyLocations n,
      Guarded c' n (c₁.sources.method l) (c'.sources.method l) := by
    intro n l hl
    rw [hlocations] at hl
    exact hsettled n l hl c' (.refl _ c')
  refine ⟨c₁, hclose, hlocations,
    fun n l hl => ⟨?_, hk.sources.kept l ⟨n, hl⟩⟩, fun n s hs => ?_,
    fun id => ⟨?_, ?_⟩, hguarded, ?_⟩
  · rw [hlocations]
    exact mem_bodyLocations_of_closed hdiscovered.toPopulated hk hclosed hl
  · obtain ⟨l, hl⟩ := hclosed' n s hs
    refine ⟨l, mem_bodyLocations.2 (Or.inr ?_), (progress_eq hs).symm.trans hl⟩
    rw [hclosed'.closeBody?_eq, hl]
    rfl
  · rw [hlater.field, hk.field]
  · rw [hlater.stageMethod, hk.stageMethod]
  · exact runOn_guardNodes_of_own hclosed' fun n l hl => (hguarded n l hl).own

/-- One type with a stage `X` and a stage `Y`, which is made from the field
of `X`. -/
def pairSources : Sources :=
  let x : Field :=
    { name := "x", type := .int, init := some (.literal (.int 0)) }
  let y : Field :=
    { name := "y", type := .int, init := some (.literal (.int 0)) }
  let initY : Method :=
    { name := "initY", returns := .void, body := some [.expr
      (.assign none (.field none ⟨"A", "y"⟩) (.field none ⟨"A", "x"⟩))] }
  let a : TypeDecl :=
    { TypeDecl.participating "A" with fields := [x, y], methods := [initY] }
  { decls := [a.assignIdentities] }

/-- That type alone at the root. -/
def pairTree : Composition :=
  { nodes := [{ decls := [⟨0⟩] }]
    leafNodes := [(⟨0⟩, Composition.root)]
    linkNodes := [(⟨0⟩, Composition.root)] }

/-- The read of `x` in the init method of `Y` is guarded, once. -/
theorem guardNodes_guards_pair : ∃ report c c',
    analyse.runOn { sources := pairSources, tree := pairTree }
      = (.ok report, c)
      ∧ guardNodes.runOn c = (.ok ⟨1, 0⟩, c')
      ∧ guardNodes.runOn c' = (.ok ⟨0, 0⟩, c') := by
  have hid : ∀ d ∈ pairSources.decls, ∀ m ∈ d.methods,
      m.id = m.identityIn d.name := by
    decide +kernel
  have hanalysed :
      (analyse.runOn { sources := pairSources, tree := pairTree }).1.isOk
      = true := by
    decide +kernel
  have hguarded : (guardNodes.runOn
      (analyse.runOn
        { sources := pairSources, tree := pairTree }).2).1.toOption.map
        (fun r => (r.reads, r.calls)) = some (1, 0) := by
    decide +kernel
  rcases ha : analyse.runOn
    { sources := pairSources, tree := pairTree } with ⟨_ | report, c⟩
  · rw [ha] at hanalysed
    cases hanalysed
  rw [ha] at hguarded
  rcases hg : guardNodes.runOn c with ⟨_ | counts, c'⟩
  · rw [hg] at hguarded
    cases hguarded
  rw [hg] at hguarded
  obtain ⟨reads, calls⟩ := counts
  obtain ⟨rfl, rfl⟩ := Prod.mk.inj (Option.some.inj hguarded)
  obtain ⟨c₁, -, -, -, -, -, -, hagain⟩ := guardNodes_guards hid ha hg
  exact ⟨report, c, c', rfl, hg, hagain⟩

end Stagewise.Lifecycle
