/-
How init methods run that close the dependants in the end.

Such a method asks whether the stage is initialized, runs its body as it was,
and then closes the dependants if the answer was yes (`Reinitializes`).
Nothing is put before the return statements in the body. So a run that ends
by one of them leaves the dependants as they are, whatever the answer was,
and only a run that comes to the end of the body closes them
(`run_prepared_init_iff`).
-/
import Stagewise.Proofs.Lifecycle.Prologues
import Stagewise.Proofs.Program.Effects

namespace Stagewise.Lifecycle

open Compilation Stagewise.Computation Step

variable {M : Machine} {x was : String} {m predicate closer : MethodRef}
variable {body : Block}
variable {σ τ : M.State} {w : Flow M.Value}

-- ==================================================================== calls

/-- A call without arguments answers what the machine answers for the object at
hand. -/
theorem value_call_iff {v : M.Value} :
    (Expr.call none m []).value M σ (.ok v) τ ↔
    ∃ o μ, M.performs (.self none) [] σ.memory (.ok o) μ
      ∧ M.performs (.call m) [o] μ (.ok v) τ.memory
      ∧ τ.locals = σ.locals ∧ τ.calls = m :: σ.calls := by
  constructor
  · intro h
    obtain ⟨o, _, ⟨μ, hself, rfl⟩, h⟩ := bind_ok_iff.1 h
    obtain ⟨vs, _, ⟨hvs, rfl⟩, h⟩ := bind_ok_iff.1 h
    obtain ⟨_, _, ⟨-, rfl⟩, ⟨μ', hcall, rfl⟩⟩ := bind_ok_iff.1 h
    cases hvs
    exact ⟨o, μ, hself, hcall, rfl, rfl⟩
  · rintro ⟨o, μ, hself, hcall, hlocals, hcalls⟩
    refine bind_ok_iff.2 ⟨o, { σ with memory := μ }, ⟨μ, hself, rfl⟩, ?_⟩
    refine bind_ok_iff.2 ⟨[], _, ⟨rfl, rfl⟩,
      bind_ok_iff.2 ⟨(), _, ⟨rfl, rfl⟩, τ.memory, hcall, ?_⟩⟩
    cases τ
    cases hlocals
    cases hcalls
    rfl

theorem run_calling_iff : Stmt.run M (calling m) σ (.ok w) τ ↔
    w = .next ∧ ∃ v, (Expr.call none m []).value M σ (.ok v) τ := by
  refine bind_ok_iff.trans ⟨?_, ?_⟩
  · rintro ⟨v, ρ, h, ⟨hw, rfl⟩⟩
    cases hw
    exact ⟨rfl, v, h⟩
  · rintro ⟨rfl, v, h⟩
    exact ⟨v, τ, h, rfl, rfl⟩

theorem run_declare_iff {type : TypeRef} {e : Expr} :
    Stmt.run M (.declare type x (some e)) σ (.ok w) τ ↔
      w = .next ∧ ∃ v ρ, e.value M σ (.ok v) ρ ∧ τ = ρ.declare x (some v) := by
  constructor
  · intro h
    obtain ⟨_, ρ, hinit, h⟩ := bind_ok_iff.1 h
    obtain ⟨v, _, hvalue, ⟨ho, rfl⟩⟩ := bind_ok_iff.1 hinit
    obtain ⟨_, _, ⟨-, rfl⟩, ⟨hw, rfl⟩⟩ := bind_ok_iff.1 h
    cases ho
    cases hw
    exact ⟨rfl, v, _, hvalue, rfl⟩
  · rintro ⟨rfl, v, ρ, hvalue, rfl⟩
    refine bind_ok_iff.2
      ⟨some v, ρ, bind_ok_iff.2 ⟨v, ρ, hvalue, rfl, rfl⟩, ?_⟩
    exact bind_ok_iff.2 ⟨(), _, ⟨rfl, rfl⟩, rfl, rfl⟩

/-- A call under the condition that a variable holds. -/
theorem run_when_iff : Stmt.run M (.when (.var x) (calling m)) σ (.ok w) τ ↔
    w = .next ∧ ∃ u, σ.local? x = some u
      ∧ ((M.truth u = some true ∧ ∃ v,
        (Expr.call none m []).value M σ (.ok v) τ)
        ∨ (M.truth u = some false ∧ τ = σ)) := by
  have hblock : ∀ {τ}, inScope (Stmt.runAll M [calling m]) σ (.ok w) τ ↔
      w = .next ∧ ∃ v, (Expr.call none m []).value M σ (.ok v) τ := by
    intro τ
    rw [Stmt.runAll_singleton, inScope_iff, run_calling_iff]
    intro ρ h
    obtain ⟨-, v, hcall⟩ := run_calling_iff.1 h
    obtain ⟨_, _, -, -, hlocals, -⟩ := value_call_iff.1 hcall
    exact hlocals
  constructor
  · intro h
    obtain ⟨b, _, hcond, h⟩ := bind_ok_iff.1 h
    obtain ⟨u, _, ⟨_, hu, hanswer, rfl⟩, ⟨_, hb, htest, rfl⟩⟩ :=
      bind_ok_iff.1 hcond
    cases hanswer
    cases htest
    cases b with
    | true =>
        obtain ⟨hw, hcall⟩ := hblock.1 h
        exact ⟨hw, u, hu, Or.inl ⟨hb, hcall⟩⟩
    | false =>
        obtain ⟨hw, rfl⟩ := h
        cases hw
        exact ⟨rfl, u, hu, Or.inr ⟨hb, rfl⟩⟩
  · rintro ⟨hw, u, hu, hcases⟩
    have hcond : ∀ {b}, M.truth u = some b →
        Stmt.holds M (.var x) σ (.ok b) σ := fun hb =>
      bind_ok_iff.2 ⟨u, σ, ⟨u, hu, rfl, rfl⟩, ⟨_, hb, rfl, rfl⟩⟩
    rcases hcases with ⟨hb, hcall⟩ | ⟨hb, rfl⟩
    · exact bind_ok_iff.2 ⟨true, σ, hcond hb, hblock.2 ⟨hw, hcall⟩⟩
    · exact bind_ok_iff.2 ⟨false, τ, hcond hb, congrArg _ hw, rfl⟩

-- ============================================================== init methods

/-- How an init method runs that closes the dependants in the end: it returns
from within its body, or it comes to the end of it and closes the dependants,
or spares them there. -/
inductive Reinitializes (M : Machine) (was : String)
    (predicate closer : MethodRef) (body : Block)
    (σ : M.State) : Flow M.Value → M.State → Prop where
  | leaves {v ρ a τ} : (Expr.call none predicate []).value M σ (.ok v) ρ →
      body.run M (ρ.declare was (some v)) (.ok (.returned a)) τ →
      Reinitializes M was predicate closer body σ (.returned a) τ
  | closes {v ρ υ u a τ} : (Expr.call none predicate []).value M σ (.ok v) ρ →
      body.run M (ρ.declare was (some v)) (.ok .next) υ →
      υ.local? was = some u → M.truth u = some true →
      (Expr.call none closer []).value M υ (.ok a) τ →
      Reinitializes M was predicate closer body σ .next τ
  | spares {v ρ u τ} : (Expr.call none predicate []).value M σ (.ok v) ρ →
      body.run M (ρ.declare was (some v)) (.ok .next) τ →
      τ.local? was = some u → M.truth u = some false →
      Reinitializes M was predicate closer body σ .next τ

theorem run_reinitializing_iff :
    (reinitializing was predicate closer body).run M σ (.ok w) τ ↔
      Reinitializes M was predicate closer body σ w τ := by
  have hrun : (reinitializing was predicate closer body).run M
      = ((Stmt.run M
        (.declare .boolean was (some (.call none predicate [])))).andThen
          (body.run M)).andThen
        (Stmt.run M (.when (.var was) (calling closer))) := by
    unfold Block.run reinitializing
    rw [Stmt.runAll_append, Stmt.runAll_cons, Stmt.runAll_singleton]
  -- only what comes to the end of the body is followed by the last statement
  rw [hrun, andThen_iff]
  constructor
  · rintro (⟨υ, h, hlast⟩ | ⟨hw, h⟩)
    · obtain ⟨_, hfirst, hbody⟩ := andThen_next_iff.1 h
      obtain ⟨-, v, ρ, hcall, rfl⟩ := run_declare_iff.1 hfirst
      obtain ⟨rfl, u, hu, ⟨htrue, a, hclose⟩ | ⟨hfalse, rfl⟩⟩ :=
        run_when_iff.1 hlast
      · exact .closes hcall hbody hu htrue hclose
      · exact .spares hcall hbody hu hfalse
    · rcases andThen_iff.1 h with ⟨_, hfirst, hbody⟩ | ⟨-, hfirst⟩
      · obtain ⟨-, v, ρ, hcall, rfl⟩ := run_declare_iff.1 hfirst
        cases w with
        | next => exact absurd rfl hw
        | returned a => exact .leaves hcall hbody
      · obtain ⟨rfl, -⟩ := run_declare_iff.1 hfirst
        exact absurd rfl hw
  · have hstart : ∀ {r v ρ υ},
        (Expr.call none predicate []).value M σ (.ok v) ρ →
        body.run M (ρ.declare was (some v)) r υ →
        ((Stmt.run M
          (.declare .boolean was (some (.call none predicate [])))).andThen
          (body.run M)) σ r υ := fun {_ v ρ _} hcall hbody =>
      andThen_iff.2
        (Or.inl ⟨_, run_declare_iff.2 ⟨rfl, v, ρ, hcall, rfl⟩, hbody⟩)
    intro h
    cases h with
    | leaves hcall hbody => exact Or.inr ⟨nofun, hstart hcall hbody⟩
    | closes hcall hbody hu htrue hclose =>
        exact Or.inl ⟨_, hstart hcall hbody,
          run_when_iff.2 ⟨rfl, _, hu, Or.inl ⟨htrue, _, hclose⟩⟩⟩
    | spares hcall hbody hu hfalse => exact Or.inl ⟨_, hstart hcall hbody,
        run_when_iff.2 ⟨rfl, _, hu, Or.inr ⟨hfalse, rfl⟩⟩⟩

/-- That a predicate answers yes and nothing else. -/
def Affirms (M : Machine) (σ : M.State) (predicate : MethodRef) : Prop :=
  ∀ v ρ, (Expr.call none predicate []).value M σ (.ok v) ρ →
    M.truth v = some true

/-- A body that does not name a variable keeps its value. -/
theorem local?_of_run {v : M.Value} {r : Except M.Value (Flow M.Value)}
    (hnames : body.namesLocal x = false)
    (h : body.run M (σ.declare x (some v)) r τ) :
    τ.local? x = some v := by
  unfold Machine.State.local?
  rw [(Block.run_spares hnames _ _ _ h).1]
  simp [Machine.State.declare]

namespace Reinitializes

theorem eq_next (h : Reinitializes M was predicate closer body σ w τ)
    (hreturns : body.returns = false) : w = .next := by
  cases h with
  | leaves _ hbody => exact (Block.run_goesOn hreturns _ _ _ hbody).elim
  | closes | spares => rfl

/-- The dependants are closed at the end of a body that does not meddle. -/
theorem calls_head (h : Reinitializes M was predicate closer body σ .next τ)
    (hnames : body.namesLocal was = false) (haffirms : Affirms M σ predicate) :
    τ.calls.head? = some closer := by
  cases h with
  | closes _ _ _ _ hclose =>
      obtain ⟨_, _, -, -, -, hcalls⟩ := value_call_iff.1 hclose
      rw [hcalls]
      rfl
  | spares hcall hbody hu hfalse =>
      obtain rfl :=
        Option.some.inj ((local?_of_run hnames hbody).symm.trans hu)
      cases (haffirms _ _ hcall).symm.trans hfalse

end Reinitializes

/-- So runs an init method of a stage that was wrapped. -/
theorem Wrapped.run_init_iff {c₀ c : Compilation} {n : DependencyId}
    {ms : LifecycleMembers} {s : Stage} {p l init : Location}
    (h : Wrapped c₀ c n ms)
    (hs : (c.graph.get n).stage? = some s)
    (hpredicate : c.progress n .predicate = .done p)
    (hcloser : c.closing n = .done (some l)) (hinit : init ∈ s.initMethods) :
    (c.sources.method init).bodyOrEmpty.run M σ (.ok w) τ ↔
      Reinitializes M (Convention.wasInitName (c.graph.name n))
        (c.sources.methodRef p) (c.sources.methodRef l)
        (c₀.sources.method init).bodyOrEmpty σ w τ := by
  obtain rfl := Progress.done.inj (h.made.predicate.symm.trans hpredicate)
  have hsome : ms.closer = some l :=
    Progress.done.inj (h.made.closer.symm.trans hcloser)
  have hbody := h.initBody s hs init hinit
  rw [hsome] at hbody
  rw [Method.bodyOrEmpty, hbody]
  exact run_reinitializing_iff

-- ================================================================= the result

/-- Nodes that are prepared after an analysis and the guarding, in any order
and each once. Where a stage has a method that closes its dependants, its init
methods run as `Reinitializes` says: a run that returns from within the former
body has called nothing else than the predicate and what the body calls. A
run that comes to the end of a body, as it always does without return
statements, closes the dependants if the predicate was true on entry. -/
theorem run_prepared_init_iff {sources : Sources} {tree : Composition}
    {options : Options} {report : AnalysisReport} {counts : GuardReport}
    {order : List DependencyId} {c c' c'' : Compilation} {n : DependencyId}
    {s : Stage} {closer : Location}
    (hanalyse : analyse.runOn { sources, tree, options } = (.ok report, c))
    (hguard : guardNodes.runOn c = (.ok counts, c'))
    (horder : order.Perm c'.graph.ids)
    (hprepare : (order.forM prepare).runOn c' = (.ok (), c''))
    (hs : (c''.graph.get n).stage? = some s)
    (hcloser : c''.closing n = .done (some closer)) :
    ∃ predicate, c''.progress n .predicate = .done predicate ∧
      ∀ init ∈ s.initMethods,
        ∀ (M : Machine) (σ τ : M.State) (w : Flow M.Value),
        let was := Convention.wasInitName (c''.graph.name n)
        let body := (c'.sources.method init).bodyOrEmpty
        ((c''.sources.method init).bodyOrEmpty.run M σ (.ok w) τ ↔
            Reinitializes M was (c''.sources.methodRef predicate)
              (c''.sources.methodRef closer) body σ w τ)
          ∧ ((c''.sources.method init).bodyOrEmpty.run M σ (.ok w) τ →
            (body.returns = false → w = .next)
              ∧ (w = .next → body.namesLocal was = false →
                Affirms M σ (c''.sources.methodRef predicate) →
                  τ.calls.head? = some (c''.sources.methodRef closer))) := by
  have hall := prepareAll_treated hanalyse hguard horder hprepare
  obtain ⟨ms, h⟩ := hall.wrapped.of_stage (fun _ => horder.mem_iff.2) hs
  refine ⟨ms.predicate, h.made.predicate, fun init hinit M σ τ w => ?_⟩
  refine ⟨h.run_init_iff hs h.made.predicate hcloser hinit, fun hrun => ?_⟩
  have hcases := (h.run_init_iff hs h.made.predicate hcloser hinit).1 hrun
  refine ⟨hcases.eq_next, ?_⟩
  rintro rfl hnames haffirms
  exact hcases.calls_head hnames haffirms

-- ============================================================ an early return

/-- What is answered where the memory is one number, which is written and
read, and calls ask whether it is zero or above. -/
def cellAnswer : Operation → List Int → Int → Option (Int × Int)
  | .literal (.int v), _, μ => some (v, μ)
  | .self _, _, μ => some (0, μ)
  | .read _, _, μ => some (μ, μ)
  | .write _, [_, v], _ => some (v, v)
  | .call _, _, μ => some (if 0 ≤ μ then 1 else 0, μ)
  | _, _, _ => none

/-- The machine with these answers. A number is true if it is not zero. -/
abbrev cell : Machine where
  Value := Int
  Memory := Int
  performs op vs μ r μ' := ∃ v, cellAnswer op vs μ = some (v, μ') ∧ r = .ok v
  truth v := some (v != 0)

/-- To assign a number to the field `x`. -/
def setX (v : Int) : Stmt :=
  .expr (.assign none (.field none ⟨"A", "x"⟩) (.literal (.int v)))

/-- To return from between two assignments if a parameter holds. -/
def quickBody : Block :=
  [setX 1, .branch (.var "quick") [.ret none] none, setX 2]

/-- A type with a stage `X`, which has two init methods, and a stage `Y` whose
init method reads the field of `X`. -/
def quickSources : Sources :=
  let field (name : String) : Field :=
    { name, type := .int, init := some (.literal (.int (-1))) }
  let initX : Method :=
    { name := "initX", returns := .void, body := some [setX 0] }
  let initXQuick : Method :=
    { name := "initX", returns := .void,
      params := [{ name := "quick", type := .boolean }]
      body := some quickBody }
  let initY : Method :=
    { name := "initY", returns := .void
      body := some [.expr (.assign none (.field none ⟨"A", "y"⟩)
        (.field none ⟨"A", "x"⟩))] }
  let a : TypeDecl :=
    { TypeDecl.participating "A" with
      fields := [field "x", field "y"]
      methods := [initX, initXQuick, initY] }
  { decls := [a.assignIdentities] }

theorem perform_cell {σ : cell.State} {op : Operation}
    {vs : List Int} {v μ : Int} (h : cellAnswer op vs σ.memory = some (v, μ)) :
    (perform op vs : Computation cell Int) σ (.ok v) { σ with memory := μ } :=
  ⟨μ, ⟨v, h, rfl⟩, rfl⟩

theorem call_cell (m : MethodRef) (σ : cell.State) :
    (Expr.call none m []).value cell σ (.ok (if 0 ≤ σ.memory then 1 else 0))
      (σ.recordCall m) :=
  value_call_iff.2 ⟨(0 : Int), σ.memory, ⟨(0 : Int), rfl, rfl⟩,
    ⟨_, rfl, rfl⟩, rfl, rfl⟩

theorem affirms_cell {σ : cell.State} (h : 0 ≤ σ.memory) :
    Affirms cell σ m := by
  intro v ρ hcall
  obtain ⟨_, μ, ⟨_, hself, -⟩, ⟨_, hanswer, hv⟩, -, -⟩ :=
    value_call_iff.1 hcall
  obtain ⟨-, rfl⟩ := Prod.mk.inj (Option.some.inj hself)
  obtain ⟨hanswer, -⟩ := Prod.mk.inj (Option.some.inj hanswer)
  rw [Except.ok.inj hv, ← hanswer, if_pos h]
  rfl

theorem run_setX (v : Int) (σ : cell.State) :
    Stmt.run cell (setX v) σ (.ok .next) { σ with memory := v } := by
  have hplace : Expr.place cell (.field none ⟨"A", "x"⟩) σ
      (.ok (.field (0 : Int) ⟨"A", "x"⟩)) σ :=
    bind_ok_iff.2 ⟨0, σ, perform_cell rfl, rfl, rfl⟩
  have hvalue : (Expr.literal (.int v)).value cell σ (.ok v) σ :=
    perform_cell rfl
  have hwrite : Place.write (M := cell) v (.field (0 : Int) ⟨"A", "x"⟩) σ
      (.ok ()) { σ with memory := v } :=
    bind_ok_iff.2 ⟨v, _, perform_cell rfl, rfl, rfl⟩
  exact bind_ok_iff.2
    ⟨v, _, bind_ok_iff.2 ⟨_, σ, hplace, bind_ok_iff.2 ⟨v, σ, hvalue,
      bind_ok_iff.2 ⟨(), _, hwrite, rfl, rfl⟩⟩⟩, rfl, rfl⟩

theorem run_returnIf {σ : cell.State} (h : σ.local? x = some 1) :
    Stmt.run cell (.branch (.var x) [.ret none] none) σ
      (.ok (.returned none)) σ := by
  have hcond : Stmt.holds cell (.var x) σ (.ok true) σ :=
    bind_ok_iff.2 ⟨1, σ, ⟨1, h, rfl, rfl⟩, ⟨true, rfl, rfl, rfl⟩⟩
  have hreturn : Stmt.run cell (.ret none) σ (.ok (.returned none)) σ :=
    bind_ok_iff.2 ⟨none, σ, ⟨rfl, rfl⟩, rfl, rfl⟩
  refine bind_ok_iff.2 ⟨true, σ, hcond, σ, ?_, ?_⟩
  · rw [Stmt.runAll_singleton]
    exact hreturn
  · unfold Machine.State.keepLocals
    rw [Nat.sub_self, List.drop_zero]

/-- The body returns before its second assignment where the parameter holds. -/
theorem run_quickBody {σ : cell.State} (h : σ.local? "quick" = some 1) :
    quickBody.run cell σ (.ok (.returned none)) { σ with memory := 1 } := by
  have hreturn : Stmt.run cell (.branch (.var "quick") [.ret none] none)
      { σ with memory := 1 } (.ok (.returned none)) { σ with memory := 1 } :=
    run_returnIf h
  exact andThen_iff.2
    (Or.inl ⟨_, run_setX 1 σ, andThen_iff.2 (Or.inr ⟨nofun, hreturn⟩)⟩)

/-- Where the stage was initialized, the assignment is followed by the call. -/
theorem setX_closes : Reinitializes cell was predicate closer [setX 0]
    { locals := [], memory := 3 } .next
    { locals := [(was, some 1)], memory := 0,
      calls := [closer, predicate] } := by
  have hbody : Block.run cell [setX 0]
      { locals := [(was, some 1)], memory := 3, calls := [predicate] }
      (.ok .next)
      { locals := [(was, some 1)], memory := 0, calls := [predicate] } := by
    rw [Block.run, Stmt.runAll_singleton]
    exact run_setX 0 _
  have hwas : Machine.State.local? (M := cell)
      { locals := [(was, some 1)], memory := 0, calls := [predicate] } was
      = some 1 := by
    simp [Machine.State.local?]
  exact .closes (call_cell predicate _) hbody hwas rfl (call_cell closer _)

/-- The return statement leaves without it. -/
theorem quickBody_leaves :
    Reinitializes cell "wasXInit" predicate closer quickBody
    { locals := [("quick", some 1)], memory := 3 } (.returned none)
    { locals := [("wasXInit", some 1), ("quick", some 1)], memory := 1,
      calls := [predicate] } :=
  .leaves (call_cell predicate _) (run_quickBody rfl)

/-- The number that a statement assigns to the field `x`, if it does nothing
else. -/
def setX? : Stmt → Option Int
  | .expr (.assign none (.field none f) (.literal (.int v))) =>
      if f = ⟨"A", "x"⟩ then some v else none
  | _ => none

theorem eq_setX {s : Stmt} {v : Int} (h : setX? s = some v) : s = setX v := by
  unfold setX? at h
  split at h
  · split at h
    · rename_i hf
      cases h
      rw [hf]
      rfl
    · cases h
  · cases h

def isQuickBody : Block → Bool
  | [s, .branch (.var "quick") [.ret none] none, t] =>
      setX? s == some 1 && setX? t == some 2
  | _ => false

theorem eq_quickBody {b : Block} (h : isQuickBody b = true) :
    b = quickBody := by
  unfold isQuickBody at h
  split at h
  · rw [Bool.and_eq_true, beq_iff_eq, beq_iff_eq] at h
    rw [eq_setX h.1, eq_setX h.2]
    rfl
  · cases h

/-- What becomes of the type when it is prepared. -/
theorem quickSources_prepared : ∃ report c counts c' c'' s,
    analyse.runOn { sources := quickSources, tree := pairTree }
      = (.ok report, c)
      ∧ guardNodes.runOn c = (.ok counts, c')
      ∧ (c'.graph.ids.forM prepare).runOn c' = (.ok (), c'')
      ∧ (c''.graph.get ⟨0⟩).stage? = some s
      ∧ s.initMethods = [⟨⟨0⟩, 0⟩, ⟨⟨0⟩, 1⟩]
      ∧ c''.progress ⟨0⟩ .predicate = .done ⟨⟨0⟩, 5⟩
      ∧ c''.closing ⟨0⟩ = .done (some ⟨⟨0⟩, 7⟩)
      ∧ Convention.wasInitName (c''.graph.name ⟨0⟩) = "wasXInit"
      ∧ c''.sources.methodRef ⟨⟨0⟩, 5⟩ = ⟨"A", "xInit", []⟩
      ∧ c''.sources.methodRef ⟨⟨0⟩, 7⟩ = ⟨"A", "closeXDependants", []⟩
      ∧ (c'.sources.method ⟨⟨0⟩, 0⟩).bodyOrEmpty = [setX 0]
      ∧ (c'.sources.method ⟨⟨0⟩, 1⟩).bodyOrEmpty = quickBody := by
  let c := (analyse.runOn { sources := quickSources, tree := pairTree }).2
  let c' := (guardNodes.runOn c).2
  let c'' := ((c'.graph.ids.forM prepare).runOn c').2
  obtain ⟨report, hanalyse⟩ := exists_runOn_eq (x := analyse)
    (c := { sources := quickSources, tree := pairTree }) (by decide +kernel)
  obtain ⟨counts, hguard⟩ :=
    exists_runOn_eq (x := guardNodes) (c := c) (by decide +kernel)
  obtain ⟨⟨⟩, hprepare⟩ :=
    exists_runOn_eq (x := c'.graph.ids.forM prepare) (c := c')
    (by decide +kernel)
  have hinits : (c''.graph.get ⟨0⟩).stage?.map Stage.initMethods
      = some [⟨⟨0⟩, 0⟩, ⟨⟨0⟩, 1⟩] := by decide +kernel
  obtain ⟨s, hs, hinits⟩ := Option.map_eq_some_iff.1 hinits
  have hmade : c''.progress ⟨0⟩ .predicate = .done ⟨⟨0⟩, 5⟩
      ∧ c''.closing ⟨0⟩ = .done (some ⟨⟨0⟩, 7⟩)
      ∧ Convention.wasInitName (c''.graph.name ⟨0⟩) = "wasXInit"
      ∧ c''.sources.methodRef ⟨⟨0⟩, 5⟩ = ⟨"A", "xInit", []⟩
      ∧ c''.sources.methodRef ⟨⟨0⟩, 7⟩ = ⟨"A", "closeXDependants", []⟩ := by
    decide +kernel
  have hbody : (c'.sources.method ⟨⟨0⟩, 0⟩).bodyOrEmpty.map setX?
    = [some 0] := by decide +kernel
  have hquick : isQuickBody (c'.sources.method ⟨⟨0⟩, 1⟩).bodyOrEmpty
    = true := by decide +kernel
  obtain ⟨t, ht, hset⟩ := List.map_eq_singleton_iff.1 hbody
  obtain ⟨hpredicate, hcloser, hwas, hpredicateRef, hcloserRef⟩ := hmade
  exact ⟨report, c, counts, c', c'', s, hanalyse, hguard, hprepare, hs,
    hinits, hpredicate, hcloser, hwas, hpredicateRef, hcloserRef,
    eq_setX hset ▸ ht, eq_quickBody hquick⟩

/-- The init method without a return statement closes the dependants of an
initialized stage. -/
theorem run_prepared_init_iff_setX : ∃ report c counts c' c'' s,
    analyse.runOn { sources := quickSources, tree := pairTree }
      = (.ok report, c)
      ∧ guardNodes.runOn c = (.ok counts, c')
      ∧ (c'.graph.ids.forM prepare).runOn c' = (.ok (), c'')
      ∧ (c''.graph.get ⟨0⟩).stage? = some s ∧ ⟨⟨0⟩, 0⟩ ∈ s.initMethods
      ∧ (c'.sources.method ⟨⟨0⟩, 0⟩).bodyOrEmpty.returns = false
      ∧ ∃ σ τ : cell.State, Affirms cell σ ⟨"A", "xInit", []⟩
        ∧ (c''.sources.method ⟨⟨0⟩, 0⟩).bodyOrEmpty.run cell σ (.ok .next) τ
        ∧ τ.calls.head? = some ⟨"A", "closeXDependants", []⟩ := by
  obtain ⟨report, c, counts, c', c'', s, hanalyse, hguard, hprepare, hs,
    hinits, hpredicate, hcloser, -, hpredicateRef, hcloserRef, hbody, -⟩ :=
    quickSources_prepared
  obtain ⟨predicate, hpredicate', hruns⟩ :=
    run_prepared_init_iff hanalyse hguard (.refl _) hprepare hs hcloser
  obtain rfl := Progress.done.inj (hpredicate.symm.trans hpredicate')
  have hinit : ⟨⟨0⟩, 0⟩ ∈ s.initMethods := by simp [hinits]
  have hreturns : (c'.sources.method ⟨⟨0⟩, 0⟩).bodyOrEmpty.returns = false :=
    hbody ▸ rfl
  have haffirms : Affirms cell { locals := [], memory := 3 }
      ⟨"A", "xInit", []⟩ :=
    affirms_cell (by decide)
  obtain ⟨hiff, hlast⟩ :=
    hruns _ hinit cell { locals := [], memory := 3 } _ .next
  rw [hpredicateRef, hcloserRef, hbody] at hiff hlast
  have hrun := hiff.2 setX_closes
  exact ⟨report, c, counts, c', c'', s, hanalyse, hguard, hprepare, hs, hinit,
    hreturns, _, _, haffirms, hrun, (hlast hrun).2 rfl rfl haffirms⟩

/-- The other one leaves the dependants as they are where its parameter holds:
it returns, and has called nothing but the predicate, which was true. -/
theorem quickBody_skips_dependants : ∃ report c counts c' c'' s closer,
    analyse.runOn { sources := quickSources, tree := pairTree }
      = (.ok report, c)
      ∧ guardNodes.runOn c = (.ok counts, c')
      ∧ (c'.graph.ids.forM prepare).runOn c' = (.ok (), c'')
      ∧ (c''.graph.get ⟨0⟩).stage? = some s
      ∧ c''.closing ⟨0⟩ = .done (some closer)
      ∧ ∃ predicate, c''.progress ⟨0⟩ .predicate = .done predicate
      ∧ ∃ init ∈ s.initMethods, ∃ σ τ : cell.State,
        Affirms cell σ (c''.sources.methodRef predicate)
        ∧ (c''.sources.method init).bodyOrEmpty.run cell σ
          (.ok (.returned none)) τ
        ∧ c''.sources.methodRef closer ∉ τ.calls := by
  obtain ⟨report, c, counts, c', c'', s, hanalyse, hguard, hprepare, hs,
    hinits, hpredicate, hcloser, hwas, hpredicateRef, hcloserRef, -, hbody⟩ :=
    quickSources_prepared
  have hall := prepareAll_treated hanalyse hguard (.refl _) hprepare
  obtain ⟨ms, h⟩ := hall.wrapped.of_stage (fun _ => id) hs
  have hinit : ⟨⟨0⟩, 1⟩ ∈ s.initMethods := by simp [hinits]
  refine ⟨report, c, counts, c', c'', s, ⟨⟨0⟩, 7⟩, hanalyse, hguard, hprepare,
    hs, hcloser, ⟨⟨0⟩, 5⟩, hpredicate, ⟨⟨0⟩, 1⟩, hinit,
    { locals := [("quick", some 1)], memory := 3 },
    ⟨[("wasXInit", some 1), ("quick", some 1)], 1, [⟨"A", "xInit", []⟩]⟩,
    affirms_cell (by decide), ?_, ?_⟩
  · rw [h.run_init_iff hs hpredicate hcloser hinit, hwas, hpredicateRef,
      hcloserRef, hbody]
    exact quickBody_leaves
  · rw [hcloserRef]
    decide

end Stagewise.Lifecycle
