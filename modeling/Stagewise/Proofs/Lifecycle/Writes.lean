/-
Guarding makes no write a call.

A guard puts a call in the place of a foreign field, wherever it stands,
so a written field is spared only because it is not foreign. For a body
that was there, the check of writes says so; for a reset made from a
sentinel, the sentinel is the stage's own, and the check has seen its
initial value (`writesOwn_of_closed`). So what the body of a node writes to
is a call after the guarding just where it was one before
(`Guarded.isCall_writeTargets`).

Everything else that is new in the declarations is a made body, which
writes to no call unless an initial value does (`Makes.writesNoCall`).

The sentinel is the stage's own when its identity is that of its name, and
neither this nor the initial values can be left out (`HidesWrites`).
-/
import Stagewise.Proofs.Analysis.Passes
import Stagewise.Proofs.Lifecycle.Guards
import Stagewise.Proofs.Lifecycle.Resets

namespace Stagewise

-- ==================================================================== writes

namespace Expr

/-- What an expression writes to at its top. -/
def writeTarget? : Expr → Option Expr
  | .assign _ target _ => some target
  | .unary op e => if op.isMutation then some e else none
  | _ => none

/-- Whether this is a call. -/
def isCall : Expr → Bool
  | .call .. => true
  | _ => false

/-- That an expression does not write to a call at its top. -/
def WritesNoCall (e : Expr) : Prop := ∀ t ∈ e.writeTarget?, t.isCall = false

instance : DecidablePred WritesNoCall :=
  fun e => inferInstanceAs (Decidable (∀ t ∈ e.writeTarget?, t.isCall = false))

/-- What is no write writes to no call. -/
theorem WritesNoCall.of_none {e : Expr} (h : e.writeTarget? = none) :
    e.WritesNoCall := by
  intro t ht
  rw [h] at ht
  cases ht

theorem writtenField?_eq (e : Expr) :
    Analysis.writtenField? e = e.writeTarget?.bind field? := by
  cases e with
  | unary op e => cases op <;> rfl
  | _ => rfl

end Expr

/-- What the expressions of a block write to, in order. -/
def Block.writeTargets (b : Block) : List Expr :=
  b.exprs.filterMap Expr.writeTarget?

/-- That no expression of any declaration writes to a call, nested types
and initial values included. -/
def Sources.WritesNoCall (s : Sources) : Prop :=
  ∀ d ∈ s.decls, ∀ e ∈ Node.exprs d.nodes, e.WritesNoCall

instance : DecidablePred Sources.WritesNoCall :=
  fun s => inferInstanceAs (Decidable (∀ d ∈ s.decls, ∀ e ∈ Node.exprs d.nodes,
    e.WritesNoCall))

namespace Lifecycle

open Compilation Step

variable {c c' c₁ : Compilation} {n : DependencyId} {l : Location} {e : Expr}
variable {former m : Method} {b : Bindings}

-- ============================================================= guarded writes

/-- Guarding changes what an expression is at its top only. -/
theorem keepsParts_guardedForm : Expr.KeepsParts (guardedForm c n) := by
  intro e
  unfold guardedForm
  split
  · rfl
  · split
    · cases c.accessor? _ _ with
      | none => rfl
      | some m => simp [Expr.parts, Expr.subterms, Expr.subtermsOfAll]
    · cases c.guarded? _ _ <;> rfl
    · rfl

/-- Guarding changes no expression that writes. -/
theorem writeTarget?_guardedForm :
    (guardedForm c n e).writeTarget? = e.writeTarget? := by
  unfold guardedForm
  split
  · rfl
  · split
    · cases c.accessor? _ _ <;> rfl
    · cases c.guarded? _ _ <;> rfl
    · rfl

theorem writeTarget?_rewrite (e : Expr) :
    (e.rewrite (guardedForm c n)).writeTarget?
    = e.writeTarget?.map (Expr.rewrite (guardedForm c n)) := by
  cases e with
  | unary op e =>
      rw [Expr.rewrite, writeTarget?_guardedForm]
      cases op <;> rfl
  | _ =>
      rw [Expr.rewrite, writeTarget?_guardedForm]
      rfl

/-- What is own stays a call or no call. -/
theorem isCall_guardedForm (h : ∀ t f, e = .field t f → Own c.bindings n e) :
    (guardedForm c n e).isCall = e.isCall := by
  cases e with
  | call t m args =>
      simp only [guardedForm]
      split
      · rfl
      · cases c.guarded? _ _ <;> rfl
  | field t f => rw [guardedForm_eq_self (h t f rfl)]
  | _ => rw [guardedForm_eq_self (by trivial)]

theorem isCall_rewrite (h : ∀ f ∈ e.field?, ∀ d,
      c.bindings.stageOfField? f.identity = some d → d = n) :
    (e.rewrite (guardedForm c n)).isCall = e.isCall := by
  cases e with
  | field t f =>
      refine isCall_guardedForm fun t' f' he => ?_
      obtain ⟨-, rfl⟩ := Expr.field.inj he
      exact h f rfl
  | _ => exact isCall_guardedForm nofun

/-- That a method of a node writes to no field of another stage. -/
def WritesOwn (b : Bindings) (n : DependencyId) (m : Method) : Prop :=
  ∀ e ∈ m.bodyOrEmpty.exprs, ∀ f, Analysis.writtenField? e = some f →
    ∀ d, b.stageOfField? f.identity = some d → d = n

/-- Guarding leaves own writes what they are. -/
theorem Guarded.isCall_writeTargets (h : Guarded c n former m)
    (hown : WritesOwn c.bindings n former) :
    m.bodyOrEmpty.writeTargets.map Expr.isCall
      = former.bodyOrEmpty.writeTargets.map Expr.isCall := by
  have htargets : m.bodyOrEmpty.writeTargets
      = former.bodyOrEmpty.writeTargets.map
        (Expr.rewrite (guardedForm c n)) := by
    unfold Block.writeTargets
    rw [h.rewritten, Method.exprs_rewrite keepsParts_guardedForm,
      List.filterMap_map, List.map_filterMap]
    exact congrArg (List.filterMap · _) (funext writeTarget?_rewrite)
  rw [htargets, List.map_map]
  refine List.map_congr_left fun t ht => isCall_rewrite fun f hf d hd => ?_
  obtain ⟨e, he, htarget⟩ := List.mem_filterMap.1 ht
  refine hown e he f ?_ d hd
  rw [Expr.writtenField?_eq, htarget, Option.bind_some, hf]

-- ================================================================ own writes

/-- A body that was there when the writes were checked writes own fields
only. -/
theorem writesOwn_of_mem_bodyLocations (h : Analysis.Analysed c)
    (hl : l ∈ c.bodyLocations n) :
    WritesOwn c.bindings n (c.sources.method l) := by
  intro e he f hf d hd
  obtain ⟨r, hmember⟩ := h.assigned.mem_members hl
  obtain ⟨leaf, hleaf, hhas, hlink⟩ := h.assigned.method n _ hmember
  have hcode : Analysis.HasCode (c.sources.get l.decl)
      (some (c.sources.method l)) e :=
    .method (Sources.method_mem hhas) (by rwa [Method.exprs_nodes])
  -- a foreign write would trespass unless the method may write there
  by_cases hmay : Analysis.MayWrite c.bindings (c.sources.method l) d
  · obtain ⟨r', -, hrole⟩ := hmay
    have hown := (h.assigned.role _ n r).2 ⟨l, hmember, rfl⟩
    exact (Prod.mk.inj (Option.some.inj (hrole.symm.trans hown))).1
  · refine absurd ⟨_, e, f, d, hcode, hf, hd, ?_⟩
      (h.written leaf hleaf _ hlink)
    rintro _ ⟨⟩
    exact hmay

/-- The initial value of a field in a chain writes to no field of a
stage. -/
theorem stageOfField?_of_initial (h : Analysis.Analysed c) {leaf : DeclId}
    (hleaf : leaf ∈ c.tree.leaves) (hl : c.sources.HasFieldIn leaf l)
    (he : e ∈ (initialOf c.sources l).subterms) {f : FieldRef}
    (hf : Analysis.writtenField? e = some f) :
    c.bindings.stageOfField? f.identity = none := by
  rw [Option.eq_none_iff_forall_ne_some]
  intro d hd
  refine h.written leaf hleaf _ hl.2 ⟨none, e, f, d,
    .field (Sources.field_mem hl.1) ?_, hf, hd, nofun⟩
  unfold initialOf at he
  cases hinit : (c.sources.field l).init with
  | none =>
      rw [hinit] at he
      obtain rfl := List.mem_singleton.1 he
      cases hf
  | some value =>
      rw [hinit] at he
      rwa [Field.exprs_nodes, hinit]

/-- A reset that is made for a stage writes own fields only. -/
theorem writesOwn_of_resetsSentinel (h : Analysis.Analysed c)
    (hid : c.sources.Derived)
    (hm : ResetsSentinel c n m) : WritesOwn c.bindings n m := by
  obtain ⟨s, f, hs, -, hf, hbody⟩ := hm
  obtain ⟨⟨leaf, hleaf, hl⟩, hstage⟩ :=
    stageOfField?_sentinel h.assigned hid hs hf
  intro e he w hw d hd
  rw [Method.bodyOrEmpty, hbody, Option.getD_some, exprs_resetOf] at he
  rcases List.mem_cons.1 he with rfl | he
  · obtain rfl := Option.some.inj hw
    exact Option.some.inj (hd.symm.trans hstage)
  · rcases List.mem_cons.1 he with rfl | he
    · cases hw
    · rw [stageOfField?_of_initial h hleaf hl he hw] at hd
      cases hd

-- =========================================================== what is made

variable {P : Location → Prop} {s s' : Sources} {r : GuardReport}

/-- What withstands the making of members withstands a guard. -/
theorem guardExpr_maintains {I : Compilation → Prop}
    (h : ∀ n, Stable n I) (hc : I c)
    (e : Expr) : Ensures ((guardExpr n e).run r) c fun _ c' => I c' :=
  guardExpr_makings.mono fun _ _ ⟨m, hm⟩ => (h m).makings hc hm

theorem closeStages_makes (h : Makes P s c.sources) :
    Ensures closeStages c fun _ c' => Makes P s c'.sources := by
  unfold closeStages
  rw [ensures_bind, ensures_get]
  refine ensures_forM (I := fun _ c' => Makes P s c'.sources)
    (fun _ n _ c' h' => ?_) h
  rw [ensures_bind]
  exact ((stable_makes P s n).close h').mono fun _ _ h'' => ensures_pure.2 h''

theorem Makes.withBody (h : Makes P s c.sources) (hl : P l)
    (body : Option Block) :
    Makes P s (withBody c l body).sources :=
  h.modifyMethod (Or.inl hl)

/-- Guarding one of the bodies makes members and changes that body. -/
theorem guardBody_makes (h : Makes P s c.sources) (hl : P l) :
    Ensures ((guardBody n l).run r) c fun _ c' => Makes P s c'.sources :=
  ensures_guardBody (I := fun c => Makes P s c.sources)
    (fun e _ _ hc => guardExpr_maintains (stable_makes P s) hc e) h
    (h.withBody hl none)
    fun _ _ h' => h'.withBody hl _

/-- Guarding makes members, and changes the bodies of nodes. -/
theorem guardNodes_makes (h : Analysis.Discovered c) :
    Ensures guardNodes c fun _ c' => ∃ c₁, closeStages.runOn c = (.ok (), c₁)
      ∧ Makes (fun _ => False) c.sources c₁.sources
      ∧ Makes (HoldsBody c₁) c.sources c'.sources := by
  refine ensures_guardNodes_of_discovered h fun c₁ hclose _ hclosed hw => ?_
  have hmade : ∀ P, Makes P c.sources c₁.sources := fun P =>
    closeStages_makes (.refl P _) () c₁ hclose
  refine Ensures.mono (ensures_run_forM (I := fun _ c' => Later c₁ c'
    ∧ Makes (HoldsBody c₁) c.sources c'.sources) ?_ ⟨.refl _ c₁, hmade _⟩)
    fun _ c' h' => ⟨c₁, hclose, hmade _, h'.2⟩
  intro _ n _ c' r h'
  refine ensures_guardNode
    (I := fun c' => Later c₁ c' ∧ Makes (HoldsBody c₁) c.sources c'.sources)
    h' fun l hl c₂ r h₂ => ?_
  rw [hclosed.bodyLocations_eq h'.1] at hl
  exact ((guardBody_guards (hw.keeps h₂.1) ⟨n, hl⟩).and
    (guardBody_makes h₂.2 ⟨n, hl⟩)).mono
    fun _ c₃ h₃ => ⟨h₂.1.trans h₃.1.1.later, h₃.2⟩

-- ======================================================== no write to a call

/-- The expressions of a type are those of its own members and those of the
types nested in it. -/
theorem mem_exprs_typeDecl {d : TypeDecl} : e ∈ Node.exprs d.nodes
    ↔ (∃ m, Analysis.HasCode d m e)
    ∨ e ∈ Node.exprs (TypeDecl.nodesOfAll d.nested) := by
  have hflat : ∀ {α : Type} {as : List α} {f : α → List Node},
      e ∈ Node.exprs (as.flatMap f) ↔ ∃ a ∈ as, e ∈ Node.exprs (f a) := by
    intro α as f
    rw [Node.exprs, List.filterMap_flatMap, List.mem_flatMap]
    rfl
  have hnodes : e ∈ Node.exprs d.nodes
      ↔ (((∃ f ∈ d.fields, e ∈ Node.exprs f.nodes)
        ∨ ∃ k ∈ d.constructors, e ∈ Node.exprs k.nodes) ∨ ∃ m ∈ d.methods,
      e ∈ Node.exprs m.nodes)
      ∨ e ∈ Node.exprs (TypeDecl.nodesOfAll d.nested) := by
    cases d
    rw [TypeDecl.nodes, ← hflat, ← hflat, ← hflat, ← List.mem_append,
      ← List.mem_append, ← List.mem_append, ← Node.exprs_append,
      ← Node.exprs_append, ← Node.exprs_append]
    exact Iff.rfl
  rw [hnodes]
  refine or_congr_left ⟨?_, ?_⟩
  · rintro ((⟨f, hf, he⟩ | ⟨k, hk, he⟩) | ⟨m, hm, he⟩)
    · exact ⟨none, .field hf he⟩
    · exact ⟨none, .constructor hk he⟩
    · exact ⟨some m, .method hm he⟩
  · rintro ⟨_, hm, he⟩
    · exact Or.inr ⟨_, hm, he⟩
    · rename_i k hk he
      exact Or.inl (Or.inr ⟨k, hk, he⟩)
    · rename_i f hf he
      exact Or.inl (Or.inl ⟨f, hf, he⟩)

section

variable {P : Expr → Prop}

/-- The body of a method is part of its declaration. -/
theorem forall_method (hs : ∀ d ∈ s.decls, ∀ e ∈ Node.exprs d.nodes, P e)
    (hl : s.Has l) :
    ∀ e ∈ (s.method l).bodyOrEmpty.exprs, P e := by
  intro e he
  have hcode : Analysis.HasCode (s.get l.decl) (some (s.method l)) e :=
    .method (Sources.method_mem hl) (by rwa [Method.exprs_nodes])
  exact hs _ (Sources.get_mem hl.decl) e
    (mem_exprs_typeDecl.2 (Or.inl ⟨_, hcode⟩))

/-- The initial value of a field is part of its declaration. -/
theorem forall_initialOf (hs : ∀ d ∈ s.decls, ∀ e ∈ Node.exprs d.nodes, P e)
    (hnull : P (.literal .null)) (l : Location) :
    ∀ e ∈ (initialOf s l).subterms, P e := by
  intro e he
  unfold initialOf at he
  cases hinit : (s.field l).init with
  | none =>
      rw [hinit] at he
      obtain rfl := List.mem_singleton.1 he
      exact hnull
  | some value =>
      rw [hinit] at he
      have hl : s.HasField l := by
        refine Classical.byContradiction fun hl => ?_
        unfold Sources.field at hinit
        rw [List.getD_eq_getElem?_getD,
          List.getElem?_eq_none (Nat.not_lt.1 hl)] at hinit
        cases hinit
      refine hs _ (Sources.get_mem hl.decl) e
        (mem_exprs_typeDecl.2 (Or.inl ⟨none, ?_⟩))
      refine .field (Sources.field_mem hl) ?_
      rwa [Field.exprs_nodes, hinit]

/-- Where declarations differ in their methods only, what holds of all
expressions that there were and of all bodies that there are holds of all
expressions. -/
theorem forall_exprs_of_rest (hlength : s'.decls.length = s.decls.length)
    (hrest : ∀ d, { s'.get d with methods := [] } = { s.get d with
    methods := [] })
    (hs : ∀ d ∈ s.decls, ∀ e ∈ Node.exprs d.nodes, P e)
    (hbodies : ∀ l, s'.Has l → ∀ e ∈ (s'.method l).bodyOrEmpty.exprs, P e) :
    ∀ d ∈ s'.decls, ∀ e ∈ Node.exprs d.nodes, P e := by
  intro t ht e he
  obtain ⟨i, hi, rfl⟩ := List.getElem_of_mem ht
  have hget : s'.decls[i] = s'.get ⟨i⟩ := by
    unfold Sources.get
    simp [hi]
  have hold : s.get ⟨i⟩ ∈ s.decls := Sources.get_mem (hlength ▸ hi)
  have hfields := congrArg TypeDecl.fields (hrest ⟨i⟩)
  have hconstructors := congrArg TypeDecl.constructors (hrest ⟨i⟩)
  have hnested := congrArg TypeDecl.nested (hrest ⟨i⟩)
  dsimp only at hfields hconstructors hnested
  rw [hget] at he
  rcases mem_exprs_typeDecl.1 he with ⟨m, hcode⟩ | he
  · cases hcode with
    | constructor hk he =>
        rw [hconstructors] at hk
        exact hs _ hold e
          (mem_exprs_typeDecl.2 (Or.inl ⟨none, .constructor hk he⟩))
    | field hf he =>
        rw [hfields] at hf
        exact hs _ hold e (mem_exprs_typeDecl.2 (Or.inl ⟨none, .field hf he⟩))
    | @method m _ hm he =>
        obtain ⟨j, hj, rfl⟩ := List.getElem_of_mem hm
        have hmethod : (s'.get ⟨i⟩).methods[j] = s'.method ⟨⟨i⟩, j⟩ := by
          unfold Sources.method
          simp [hj]
        rw [Method.exprs_nodes, hmethod] at he
        exact hbodies ⟨⟨i⟩, j⟩ hj e he
  · rw [hnested] at he
    exact hs _ hold e (mem_exprs_typeDecl.2 (Or.inr he))

end

theorem method_writesNoCall (hs : s.WritesNoCall) (hl : s.Has l) :
    ∀ e ∈ (s.method l).bodyOrEmpty.exprs, e.WritesNoCall :=
  forall_method hs hl

theorem initialOf_writesNoCall (hs : s.WritesNoCall) (l : Location) :
    ∀ e ∈ (initialOf s l).subterms, e.WritesNoCall :=
  forall_initialOf hs (.of_none rfl) l

theorem IsGuard.writesNoCall {guard : Stmt} (h : IsGuard guard) :
    ∀ e ∈ Node.exprs guard.nodes, e.WritesNoCall := by
  cases h <;>
    simp [Stmt.when, Stmt.nodes, Stmt.nodesOfAll, Stmt.nodesOfBlock?,
      Expr.subterms, Expr.subtermsOfTarget, Expr.subtermsOfAll,
      Expr.WritesNoCall, Expr.writeTarget?, UnaryOp.isMutation]

theorem mem_subtermsOfAll_params {params : List Param} :
    e ∈ Expr.subtermsOfAll (params.map fun p => .var p.name)
      ↔ ∃ p ∈ params, .var p.name = e := by
  induction params with
  | nil => simp [Expr.subtermsOfAll]
  | cons p params ih => simp [Expr.subtermsOfAll, Expr.subterms, ih, eq_comm]

/-- A made body writes to no call unless an initial value does. -/
theorem MadeBody.writesNoCall {body : Block} (h : MadeBody s body)
    (hs : s.WritesNoCall) :
    ∀ e ∈ body.exprs, e.WritesNoCall := by
  cases h with
  | predicate l type =>
      have hinit := initialOf_writesNoCall hs l
      intro e he
      simp only [Block.exprs_cons, Block.exprs_nil,
        List.append_nil, Stmt.nodes, Node.exprs_stmt_cons, Node.exprs_nodesOf?,
        Expr.subtermsOfTarget] at he
      unfold sentinelCheck at he
      split at he
      · simp [Expr.subterms, readOf, Expr.subtermsOfTarget] at he
        rcases he with rfl | rfl | rfl <;> exact .of_none rfl
      · simp [Expr.subterms, readOf, Expr.subtermsOfTarget] at he
        rcases he with rfl | rfl | he
        · exact .of_none rfl
        · exact .of_none rfl
        · exact hinit e he
  | reset l =>
      have hinit := initialOf_writesNoCall hs l
      rw [exprs_resetOf]
      refine List.forall_mem_cons.2
        ⟨?_, List.forall_mem_cons.2 ⟨.of_none rfl, hinit⟩⟩
      rintro _ ⟨⟩
      rfl
  | accessor f hguard =>
      rw [Block.exprs_cons, List.forall_mem_append]
      refine ⟨hguard.writesNoCall, ?_⟩
      simp [Stmt.nodes, Expr.subterms, Expr.subtermsOfTarget,
        Expr.WritesNoCall, Expr.writeTarget?]
  | wrapper m params returns hguard =>
      rw [Block.exprs_cons, List.forall_mem_append]
      refine ⟨hguard.writesNoCall, ?_⟩
      split <;> simp [Stmt.nodes, Expr.subterms, Expr.subtermsOfTarget,
        mem_subtermsOfAll_params, Expr.WritesNoCall, Expr.writeTarget?]

/-- Where only bodies at some places differ, made ones apart, and those
write to no call, no expression does unless one did before. -/
theorem Makes.writesNoCall (h : Makes P s s') (hs : s.WritesNoCall)
    (hP : ∀ l, P l → ∀ e ∈ (s'.method l).bodyOrEmpty.exprs, e.WritesNoCall) :
    s'.WritesNoCall := by
  refine forall_exprs_of_rest h.length h.rest hs fun l hl e he => ?_
  rcases h.body l hl with hplace | ⟨hhas, hbody⟩ | hmade
  · exact hP l hplace e he
  · rw [Method.bodyOrEmpty, hbody] at he
    exact method_writesNoCall hs hhas e he
  · unfold Method.bodyOrEmpty at he
    cases hb : (s'.method l).body with
    | none =>
        rw [hb] at he
        cases he
    | some body =>
        rw [hb] at he hmade
        exact (hmade body rfl).writesNoCall hs e he

-- ================================================================ the result

/-- A block writes to no call when none of what it writes to is one. -/
theorem forall_writesNoCall_iff {body : Block} :
    (∀ e ∈ body.exprs, e.WritesNoCall)
    ↔ ∀ x ∈ body.writeTargets.map Expr.isCall, x = false := by
  unfold Block.writeTargets Expr.WritesNoCall
  simp only [List.forall_mem_map, List.mem_filterMap]
  constructor
  · rintro h t ⟨e, he, ht⟩
    exact h e he t ht
  · intro h e he t ht
    exact h t ⟨e, he, ht⟩

/-- Once the close methods are made, the bodies of a node write to no field
of another stage. -/
theorem writesOwn_of_closed (h : Analysis.Analysed c) (hid : c.sources.Derived)
    (hclose : closeStages.runOn c = (.ok (), c₁))
    (hl : l ∈ c₁.bodyLocations n) :
    WritesOwn c.bindings n (c₁.sources.method l) := by
  rcases (closeStages_bodies h.discovered () c₁ hclose).2 n l hl with ⟨hbody,
    hsame⟩ | hreset
  · rw [hsame]
    exact writesOwn_of_mem_bodyLocations h hbody
  · exact writesOwn_of_resetsSentinel h hid hreset

/-- Guarding after discovery, check of writes, linking and placing, of
members with derived identities. In the bodies of nodes, close methods that
are made first included, the same writes go to a call after the guarding as
before. And where no expression of any declaration wrote to a call, none
does. -/
theorem guardNodes_spares_writes {c₀ c₁ c₂ c c' : Compilation}
    {nodes : Analysis.NodeReport} {checked edges : Nat}
    {order : List DependencyId} {counts : GuardReport}
    (hfresh : Analysis.Fresh c₀) (hid : c₀.sources.Derived)
    (hnodes : Analysis.discoverNodes.runOn c₀ = (.ok nodes, c₁))
    (hwrites : Analysis.checkWrites c₁ = .ok checked)
    (hlinks : Analysis.linkNodes.runOn c₁ = (.ok edges, c₂))
    (hplaces : Analysis.placeNodes.runOn c₂ = (.ok order, c))
    (hguard : guardNodes.runOn c = (.ok counts, c')) :
    (∃ closed, closeStages.runOn c = (.ok (), closed)
      ∧ (∀ n, ∀ l ∈ c.bodyLocations n, closed.sources.method l
        = c.sources.method l)
      ∧ ∀ n, ∀ l ∈ c'.bodyLocations n,
          (c'.sources.method l).bodyOrEmpty.writeTargets.map Expr.isCall
            = (closed.sources.method l).bodyOrEmpty.writeTargets.map
              Expr.isCall)
    ∧ (c.sources.WritesNoCall → c'.sources.WritesNoCall) := by
  obtain ⟨hanalysed, hsources⟩ := Analysis.passes_analysed hfresh
    (fun _ => Sources.identified_of_has hid.methods) nodes c₁ hnodes
    checked hwrites
    edges c₂ hlinks order c hplaces
  rw [← hsources] at hid
  obtain ⟨closed, hclose, hk, hclosed, hlater, hsettled⟩ :=
    guardNodes_settles hanalysed.discovered counts c' hguard
  have htargets : ∀ n, ∀ l ∈ closed.bodyLocations n,
      (c'.sources.method l).bodyOrEmpty.writeTargets.map Expr.isCall
        = (closed.sources.method l).bodyOrEmpty.writeTargets.map
          Expr.isCall := by
    intro n l hl
    refine (hsettled n l hl c' (.refl _ c')).isCall_writeTargets
      fun e he f hf d hd => ?_
    rw [hlater.field, hk.field] at hd
    exact writesOwn_of_closed hanalysed hid hclose hl e he f hf d hd
  refine ⟨⟨closed, hclose, fun n l hl => hk.sources.kept l ⟨n, hl⟩,
    fun n l hl => ?_⟩,
    fun hclean => ?_⟩
  · rw [hclosed.bodyLocations_eq hlater] at hl
    exact htargets n l hl
  · obtain ⟨closed', hclose', hmade, hmakes⟩ :=
      guardNodes_makes hanalysed.discovered counts c' hguard
    obtain rfl : closed' = closed :=
      (Prod.mk.inj (hclose'.symm.trans hclose)).2
    refine hmakes.writesNoCall hclean fun l hl => ?_
    obtain ⟨n, hl⟩ := hl
    rw [forall_writesNoCall_iff, htargets n l hl, ← forall_writesNoCall_iff]
    have hw : WellMade (HoldsBody closed') closed' :=
      .ofBodies (hanalysed.discovered.wellMade.keeps hk)
    obtain ⟨_, ⟨hhas, -⟩, -⟩ := bound_of_mem_bodyLocations hw hl
    exact method_writesNoCall (hmade.writesNoCall hclean fun _ =>
      False.elim) hhas

/-- The writes of a type with two stages, one of which is made from the
field of the other, go to fields after all passes. -/
theorem guardNodes_spares_writes_pair :
    ∃ nodes c₁ checked edges c₂ order c counts c',
    Analysis.discoverNodes.runOn { sources := pairSources, tree := pairTree }
      = (.ok nodes, c₁)
      ∧ Analysis.checkWrites c₁ = .ok checked
      ∧ Analysis.linkNodes.runOn c₁ = (.ok edges, c₂)
      ∧ Analysis.placeNodes.runOn c₂ = (.ok order, c)
      ∧ guardNodes.runOn c = (.ok counts, c') ∧ c'.sources.WritesNoCall := by
  let c₀ : Compilation := { sources := pairSources, tree := pairTree }
  let c₁ := (Analysis.discoverNodes.runOn c₀).2
  let c₂ := (Analysis.linkNodes.runOn c₁).2
  let c := (Analysis.placeNodes.runOn c₂).2
  have hfresh : Analysis.Fresh c₀ := ⟨rfl, rfl, rfl⟩
  have hid : pairSources.Derived := ⟨by decide +kernel, by decide +kernel⟩
  obtain ⟨nodes, hnodes⟩ :=
    exists_runOn_eq (x := Analysis.discoverNodes) (c := c₀)
    (by decide +kernel)
  obtain ⟨edges, hlinks⟩ := exists_runOn_eq (x := Analysis.linkNodes) (c := c₁)
    (by decide +kernel)
  obtain ⟨order, hplaces⟩ :=
    exists_runOn_eq (x := Analysis.placeNodes) (c := c₂)
    (by decide +kernel)
  obtain ⟨counts, hguard⟩ :=
    exists_runOn_eq (x := guardNodes) (c := c) (by decide +kernel)
  obtain ⟨checked, hwrites⟩ :=
    exists_eq_ok (r := Analysis.checkWrites c₁) (by decide +kernel)
  have hclean : c.sources.WritesNoCall := by decide +kernel
  obtain ⟨-, hspared⟩ :=
    guardNodes_spares_writes hfresh hid hnodes hwrites hlinks hplaces hguard
  exact ⟨nodes, c₁, checked, edges, c₂, order, c, counts, _, hnodes, hwrites,
    hlinks, hplaces, hguard, hspared hclean⟩

-- ============================================================== hidden writes

/-- One type with two stages of one field each, where each field carries the
identity that the name of the other gives. -/
def swappedSources : Sources :=
  let field (name other : String) : Field :=
    { name, id := .ofField "A" other, type := .int,
      init := some (.literal (.int (-1))) }
  { decls := [{ TypeDecl.participating "A" with
    fields := [field "x" "y", field "y" "x"] }] }

/-- One type with a field whose initial value writes to a call. -/
def callWritingSources : Sources :=
  let write : Expr :=
    .assign none (.call none ⟨"A", "f", []⟩ []) (.literal (.int 1))
  let x : Field := { name := "x", type := .int, init := some write }
  let a : TypeDecl := { TypeDecl.participating "A" with fields := [x] }
  { decls := [a.assignIdentities] }

/-- That no body of a method or constructor writes to a call. -/
def BodiesWriteNoCall (s : Sources) : Prop :=
  ∀ d ∈ s.decls, (∀ m ∈ d.methods, ∀ e ∈ Node.exprs m.nodes, e.WritesNoCall)
    ∧ ∀ k ∈ d.constructors, ∀ e ∈ Node.exprs k.nodes, e.WritesNoCall

instance : DecidablePred BodiesWriteNoCall := fun s =>
  inferInstanceAs (Decidable (∀ d ∈ s.decls,
    (∀ m ∈ d.methods, ∀ e ∈ Node.exprs m.nodes, e.WritesNoCall)
      ∧ ∀ k ∈ d.constructors, ∀ e ∈ Node.exprs k.nodes, e.WritesNoCall))

/-- That guarding after an analysis leaves a body that writes to a call,
where none did. -/
def HidesWrites (s : Sources) (t : Composition) : Prop :=
  ∃ report c counts c', analyse.runOn { sources := s, tree := t }
    = (.ok report, c)
    ∧ guardNodes.runOn c = (.ok counts, c')
    ∧ BodiesWriteNoCall c.sources ∧ ¬ BodiesWriteNoCall c'.sources

/-- What an analysis leaves. -/
def analysedOf (s : Sources) (t : Composition) : Compilation :=
  (analyse.runOn { sources := s, tree := t }).2

theorem hidesWrites_of_isOk {s : Sources} {t : Composition}
    (hruns : (analyse.runOn { sources := s, tree := t }).1.isOk = true
      ∧ (guardNodes.runOn (analysedOf s t)).1.isOk = true)
    (hbodies : BodiesWriteNoCall (analysedOf s t).sources
      ∧ ¬ BodiesWriteNoCall (guardNodes.runOn (analysedOf s t)).2.sources) :
    HidesWrites s t := by
  obtain ⟨report, hanalyse⟩ := exists_runOn_eq hruns.1
  obtain ⟨counts, hguard⟩ := exists_runOn_eq hruns.2
  exact ⟨report, analysedOf s t, counts, _, hanalyse, hguard, hbodies⟩

/-- A reset is made after the check of writes. It writes to a call if the
identity of the sentinel is not that of its name, and if the initial value
that it takes over does. -/
theorem guardNodes_writes_calls :
    HidesWrites swappedSources pairTree
      ∧ HidesWrites callWritingSources pairTree :=
  ⟨hidesWrites_of_isOk (by decide +kernel) (by decide +kernel),
    hidesWrites_of_isOk (by decide +kernel) (by decide +kernel)⟩

end Lifecycle

end Stagewise
