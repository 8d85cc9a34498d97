/-
That a stage is not initialized once its sentinel is reset.

The predicate that is made for a stage compares the sentinel with the initial
value, and the close method that is made assigns the initial value. Both
evaluate it anew. So the predicate denies where the second value is, for its
comparison, what the field holds of the first one (`Cell.Reproduces`). For a
minus one in a field of integers this is so as integers behave, since the
predicate asks for the sign only.

The reset is guarded, and the predicate and the construction are not. So it may
call an accessor for what the predicate reads (`guarding`).

# The argument

What is evaluated for the assignment has its value again in all memories in
which the field holds that value (`Expr.value_repeats`), so the comparison is
made with the same value (`Cell.denied`). And these are the bodies that the
stages have in the end (`prepareAll_checks`), after which nothing is added but
what stands before the reset (`reset_uninitializes`).

# What this does not say

The predicate denies as long as the field holds what the reset left there, and
what the initial value is made from stays as it was. A new object is made from
nothing that stays: a stage that starts from one is initialized right after its
reset (`newFoo_affirmed`).
-/
import Stagewise.Proofs.Lifecycle.Arity
import Stagewise.Proofs.Lifecycle.Checks
import Stagewise.Proofs.Lifecycle.Reinitialization
import Stagewise.Proofs.Lifecycle.Writes
import Stagewise.Proofs.Program.Repetition

namespace Stagewise.Lifecycle

open Compilation Stagewise.Computation Step
open Machine (Bare)

variable {M : Machine} {c c' : Compilation} {n : DependencyId}
variable {g : Redirection}
variable {f : FieldRef} {type : TypeRef} {e : Expr} {σ τ : M.State}
variable {v w : M.Value}

-- ================================================================ redirection

/-- The accessor that a node calls to read a field of another stage. -/
def foreignAccessor? (c : Compilation) (n : DependencyId) (f : FieldRef) :
    Option MethodRef :=
  ((c.bindings.stageOfField? f.identity).filter (· != n)).bind
    (c.accessor? · f.identity)

/-- The wrapper that a node calls in the place of a method of another stage. -/
def foreignWrapper? (c : Compilation) (n : DependencyId) (m : MethodRef) :
    Option MethodRef :=
  ((c.bindings.stageOfMethod? m.identity).filter (· != n)).bind
    (c.guarded? · m.identity)

theorem guardedForm_field (t : Option Expr) (f : FieldRef) :
    guardedForm c n (.field t f) = (foreignAccessor? c n f).elim (.field t f)
      (.call t · []) := by
  unfold guardedForm foreignOwner? foreignAccessor?
  cases (c.bindings.stageOfField? f.identity).filter (· != n) with
  | none => rfl
  | some s => rfl

theorem guardedForm_call (t : Option Expr) (m : MethodRef) (args : List Expr) :
    guardedForm c n (.call t m args)
      = (foreignWrapper? c n m).elim (.call t m args) (.call t · args) := by
  unfold guardedForm foreignOwner? foreignWrapper?
  cases (c.bindings.stageOfMethod? m.identity).filter (· != n) with
  | none => rfl
  | some s => rfl

/-- The guarding of the bodies of a node: a field of another stage is read by
its accessor, and a method of another stage is called by its wrapper. -/
def guarding (c : Compilation) (n : DependencyId) : Redirection where
  expr := guardedForm c n
  operation
    | .read f => (foreignAccessor? c n f).elim (.read f) .call
    | .call m => (foreignWrapper? c n m).elim (.call m) .call
    | op => op
  field t f := by
    rw [guardedForm_field]
    cases h : foreignAccessor? c n f with
    | none => exact .inl ⟨rfl, by simp [h]⟩
    | some m => exact .inr ⟨m, rfl, by simp [h]⟩
  call t m args := by
    rw [guardedForm_call]
    cases h : foreignWrapper? c n m with
    | none => exact ⟨m, rfl, by simp [h]⟩
    | some m' => exact ⟨m', rfl, by simp [h]⟩
  expr_of_not_access {e} he := by
    cases e with
    | field | call => cases he
    | _ => rfl
  operation_of_not_access {op} hop := by
    cases op with
    | read | call => cases hop
    | _ => rfl

-- ================================================================== minus one

theorem minusOne_cases (he : e.isMinusOne = true) :
    (∃ t, (t = .int (-1) ∨ t = .long (-1)) ∧ e = .literal t)
      ∨ ∃ t, (t = .int 1 ∨ t = .long 1) ∧ e = .unary .neg (.literal t) := by
  unfold Expr.isMinusOne at he
  split at he
  · exact .inl ⟨_, .inl (congrArg _ (beq_iff_eq.1 he)), rfl⟩
  · exact .inl ⟨_, .inr (congrArg _ (beq_iff_eq.1 he)), rfl⟩
  · exact .inr ⟨_, .inl (congrArg _ (beq_iff_eq.1 he)), rfl⟩
  · exact .inr ⟨_, .inr (congrArg _ (beq_iff_eq.1 he)), rfl⟩
  · cases he

/-- A minus one is not redirected. -/
theorem rewrite_minusOne (he : e.isMinusOne = true) :
    e.rewrite g.expr = e := by
  rcases minusOne_cases he with ⟨t, -, rfl⟩ | ⟨t, -, rfl⟩
  · rw [Expr.rewrite, g.expr_of_not_access rfl]
  · rw [Expr.rewrite, Expr.rewrite, g.expr_of_not_access rfl,
      g.expr_of_not_access rfl]

-- ====================================================================== cells

/-- A field of the object at hand, how it is written and read, and how integers
are compared. Some memories are those before it is written, in the others it
holds a value. -/
structure Cell (M : Machine) (f : FieldRef) (type : TypeRef) where
  object : M.Value
  before : M.Memory → Prop
  held : M.Value → M.Memory → Prop
  /-- What the field holds of a value that is written to it. -/
  kept : M.Value → M.Value
  /-- The integer that a value stands for. -/
  number : M.Value → Option Int
  self_before : ∀ v μ μ', before μ → M.performs (.self none) [] μ (.ok v) μ' →
    v = object ∧ before μ'
  write : ∀ v u μ μ', before μ →
    M.performs (.write f) [object, v] μ (.ok u) μ' →
    held (kept v) μ'
  self_held : ∀ w, Machine.Settles (held w) (.self none) [] object
  read : ∀ w, Machine.Settles (held w) (.read f) [object] w
  literal : ∀ t i v μ μ', t = .int i ∨ t = .long i → before μ →
    M.performs (.literal t) [] μ (.ok v) μ' → number v = some i ∧ before μ'
  negate : ∀ v u μ μ', before μ → number v = some 1 →
    M.performs (.unary .neg) [v] μ (.ok u) μ' →
      number u = some (-1) ∧ before μ'
  integral : ∀ v, type.isIntegral = true → number v = some (-1) →
    number (kept v) = some (-1)
  zero : ∀ w, ∃ z, number z = some 0
    ∧ Machine.Settles (held w) (.literal (.int 0)) [] z
  compare : ∀ w z, number w = some (-1) → number z = some 0 →
    ∃ t, M.truth t = some false
      ∧ Machine.Settles (held w) (.binary .ge) [w, z] t

/-- To assign a value to a field of the object at hand. -/
def setting (f : FieldRef) (e : Expr) : Stmt :=
  .expr (.assign none (.field none f) e)

namespace Cell

/-- That an initial value can be evaluated a second time: each operation
answers what the one in its place has answered, and the value is not told apart
from what the field holds of it. -/
structure Reproduces (cell : Cell M f type) (g : Redirection) (e : Expr)
    (v : M.Value) :
    Prop where
  operations : ∀ op ∈ e.operations,
    Machine.Repeats cell.before (cell.held (cell.kept v)) (g.operation op) op
  alike : ∃ t, M.truth t = some false
    ∧ Machine.Settles (cell.held (cell.kept v)) (.binary .ne)
      [cell.kept v, v] t

/-- That an initial value is reproduced whenever it has been evaluated. -/
def Reproducing (cell : Cell M f type) (g : Redirection) (e : Expr) : Prop :=
  ∀ σ v τ, Bare cell.before σ → (e.rewrite g.expr).value M σ (.ok v) τ →
    cell.Reproduces g e v

/-- That a body, run while the field holds a value, returns what is false and
does nothing else, and that the field holds the value still. -/
def Denies (cell : Cell M f type) (w : M.Value) (b : Block) : Prop :=
  ∀ μ calls, cell.held w μ → ∃ t, M.truth t = some false
    ∧ Computation.Gives (Bare (cell.held w)) (b.run M) ⟨[], μ, calls⟩
      (.returned (some t))

variable (cell : Cell M f type)

/-- The field is read where it holds a value. -/
theorem value_field (hσ : Bare (cell.held w) σ) :
    Computation.Gives (Bare (cell.held w))
      ((Expr.field none f).value M) σ w := by
  have hself : Computation.Gives (Bare (cell.held w)) (Expr.object M none) σ
      cell.object :=
    .perform (cell.self_held w σ.memory hσ.memory) hσ.locals
  exact hself.bind fun ρ hρ =>
    .perform (cell.read w ρ.memory hρ.memory) hρ.locals

/-- A predicate denies where its check is false. -/
theorem denies_of_check {check : Expr} {t : M.Value}
    (ht : M.truth t = some false) (h : ∀ ρ, Bare (cell.held w) ρ →
      Computation.Gives (Bare (cell.held w)) (check.value M) ρ t) :
    cell.Denies w [.ret (some check)] := by
  intro μ calls hμ
  have hcheck := h ⟨[], μ, calls⟩ ⟨rfl, hμ⟩
  have hvalue : Computation.Gives (Bare (cell.held w))
      (Expr.value? M (some check)) ⟨[], μ, calls⟩ (some t) :=
    hcheck.bind fun ρ hρ => .pure hρ
  refine ⟨t, ht, ?_⟩
  rw [Block.run, Stmt.runAll_singleton]
  exact hvalue.bind fun ρ hρ => .pure hρ

/-- An assignment to the field leaves it with what it holds of the value. -/
theorem held_of_run {value : Expr} (hσ : Bare cell.before σ)
    (hrun : (setting f value).run M σ (.ok .next) τ) :
    ∃ v ρ υ, Bare cell.before ρ ∧ value.value M ρ (.ok v) υ
      ∧ (cell.before υ.memory → cell.held (cell.kept v) τ.memory) := by
  obtain ⟨_, _, hassign, ⟨-, rfl⟩⟩ := bind_ok_iff.1 hrun
  obtain ⟨p, ρ, hplace, hassign⟩ := bind_ok_iff.1 hassign
  obtain ⟨o, _, ⟨μ, hself, hρ'⟩, ⟨hp, rfl⟩⟩ := bind_ok_iff.1 hplace
  obtain ⟨v, υ, hvalue, hassign⟩ := bind_ok_iff.1 hassign
  obtain ⟨_, _, hwrite, ⟨-, rfl⟩⟩ := bind_ok_iff.1 hassign
  cases hp
  obtain ⟨u, _, ⟨μ', hwritten, rfl⟩, ⟨-, rfl⟩⟩ := bind_ok_iff.1 hwrite
  obtain ⟨rfl, hμ⟩ := cell.self_before o σ.memory μ hσ.memory hself
  refine ⟨v, ρ, υ, ?_, hvalue,
    fun hυ => cell.write v u υ.memory μ' hυ hwritten⟩
  rw [hρ']
  exact ⟨hσ.locals, hμ⟩

-- ------------------------------------------------------------------ minus one

theorem number_literal {t : Literal} {i : Int} (ht : t = .int i ∨ t = .long i)
    (hσ : Bare cell.before σ) (h : (Expr.literal t).value M σ (.ok v) τ) :
    cell.number v = some i ∧ cell.before τ.memory := by
  obtain ⟨μ, hμ, rfl⟩ := h
  exact cell.literal t i v σ.memory μ ht hσ.memory hμ

/-- The value of a minus one stands for this number. -/
theorem number_minusOne (he : e.isMinusOne = true) (hσ : Bare cell.before σ)
    (h : e.value M σ (.ok v) τ) :
    cell.number v = some (-1) ∧ cell.before τ.memory := by
  rcases minusOne_cases he with ⟨t, ht, rfl⟩ | ⟨t, ht, rfl⟩
  · exact cell.number_literal ht hσ h
  · obtain ⟨u, ρ, hu, ⟨μ, hμ, rfl⟩⟩ := bind_ok_iff.1 h
    obtain ⟨hone, hρ⟩ := cell.number_literal ht hσ hu
    exact cell.negate u v ρ.memory μ hρ hone hμ

/-- A minus one that is held is not zero or above. -/
theorem denies_minusOne (hw : cell.number w = some (-1)) :
    cell.Denies w
      [.ret (some (.binary .ge (.field none f) (.literal (.int 0))))] := by
  obtain ⟨z, hz, hzero⟩ := cell.zero w
  obtain ⟨t, ht, hcompare⟩ := cell.compare w z hw hz
  refine cell.denies_of_check ht fun ρ hρ => ?_
  exact (cell.value_field hρ).bind fun ρ' hρ' =>
    (Computation.Gives.perform (hzero ρ'.memory hρ'.memory)
        hρ'.locals).bind fun ρ'' hρ'' =>
      .perform (hcompare ρ''.memory hρ''.memory) hρ''.locals

-- ------------------------------------------------------------------ the reset

/-- That a body denies after a statement, as long as the field holds what it
then holds. -/
def DeniesAfter (b : Block) (set : Stmt) : Prop :=
  ∀ σ τ, Bare cell.before σ → set.run M σ (.ok .next) τ →
    ∃ w, cell.held w τ.memory ∧ cell.Denies w b

/-- The predicate denies after the assignment of a value that is reproduced. -/
theorem denied
    (h : (e.isMinusOne && type.isIntegral) = true ∨ cell.Reproducing g e) :
    cell.DeniesAfter [.ret (some (sentinelCheck (.field none f) e type))]
      (setting f (e.rewrite g.expr)) := by
  intro σ τ hσ hrun
  obtain ⟨v, ρ, υ, hρ, hvalue, hheld⟩ := cell.held_of_run hσ hrun
  refine ⟨cell.kept v, ?_⟩
  unfold sentinelCheck
  by_cases hminus : (e.isMinusOne && type.isIntegral) = true
  · rw [if_pos hminus]
    obtain ⟨hone, hintegral⟩ := Bool.and_eq_true_iff.1 hminus
    rw [rewrite_minusOne hone] at hvalue
    obtain ⟨hv, hυ⟩ := cell.number_minusOne hone hρ hvalue
    exact ⟨hheld hυ, cell.denies_minusOne (cell.integral v hintegral hv)⟩
  · rw [if_neg hminus]
    have hreproducing := h.resolve_left hminus
    obtain ⟨hrepeats, t, ht, hcompare⟩ := hreproducing ρ v υ hρ hvalue
    obtain ⟨hυ, hvalue'⟩ := Expr.value_repeats e hrepeats ρ v υ hρ hvalue
    refine ⟨hheld hυ.memory, cell.denies_of_check ht fun ρ₁ hρ₁ => ?_⟩
    exact (cell.value_field hρ₁).bind fun ρ₂ hρ₂ =>
        (hvalue' ρ₂ hρ₂).bind fun ρ₃ hρ₃ =>
      .perform (hcompare ρ₃.memory hρ₃.memory) hρ₃.locals

end Cell

-- ================================================================= the result

/-- The sentinel of a stage that was discovered has an initial value. -/
theorem exists_init_of_sentinel {s : Sources} {stage : Stage} {leaf : DeclId}
    {seed : Location} {field : StageField}
    (h : Stage.discover s leaf seed = .ok stage)
    (hf : stage.sentinel? = some field) :
    ∃ e, (s.field field.location).init = some e := by
  have hcomplete : stage.Complete s leaf := by
    rcases Stage.discover_cases s leaf seed with
      ⟨e, herror, -⟩ | ⟨⟨stage', hok, -, hcomplete, -⟩, -⟩
        | ⟨⟨detail, herror⟩, -⟩
    · cases herror.symm.trans h
    · cases hok.symm.trans h
      exact hcomplete
    · cases herror.symm.trans h
  unfold Stage.sentinel? at hf
  split at hf
  · rename_i i hi
    obtain ⟨f', hf', hinitialized⟩ := (hcomplete.sentinel i).1 hi
    cases hf.symm.trans hf'
    have hmem : field.location ∈ Stage.initializedFields s leaf
        stage.name := by
      rw [hinitialized]
      exact List.mem_singleton_self _
    exact Option.isSome_iff_exists.1 (List.mem_filter.1 hmem).2
  · cases hf

/-- A guarded reset assigns to the sentinel, which is the stage's own, the
guarded initial value. -/
theorem rewrite_resetOf {s : Sources} {l : Location}
    (hown : c.bindings.stageOfField? ((s.field l).ref (s.name l.decl)).identity
      = some n) :
    (resetOf s l).rewrite (guardedForm c n)
      = [setting ((s.field l).ref (s.name l.decl))
          ((initialOf s l).rewrite (guardedForm c n))] := by
  have hread : (readOf s l).rewrite (guardedForm c n) = readOf s l := by
    unfold readOf
    rw [Expr.rewrite, Expr.rewriteTarget]
    refine guardedForm_eq_self fun d hd => ?_
    exact Option.some.inj (hd.symm.trans hown)
  show [Stmt.expr ((Expr.assign none (readOf s l) (initialOf s l)).rewrite
    (guardedForm c n))] = _
  rw [Expr.rewrite, hread]
  rfl

/-- A stage after an analysis, the guarding and the preparation of all nodes,
whose predicate and close method are made for its sentinel. The close method
ends with the reset, an assignment of the guarded initial value, and the
predicate denies after it, and after the construction likewise, if the initial
value is reproduced. Of a minus one in a field of integers nothing is asked but
what holds of integers (`Cell`). -/
theorem reset_uninitializes {sources : Sources} {tree : Composition}
    {options : Options} {report : AnalysisReport} {counts : GuardReport}
    {order : List DependencyId} {c'' : Compilation} {s : Stage}
    (hid : sources.Derived)
    (hanalyse : analyse.runOn { sources, tree, options } = (.ok report, c))
    (hguard : guardNodes.runOn c = (.ok counts, c'))
    (horder : order.Perm c'.graph.ids)
    (hprepare : (order.forM prepare).runOn c' = (.ok (), c''))
    (hs : (c.graph.get n).stage? = some s)
    (hpredicate : s.hasConcretePredicate sources = false)
    (hclose : s.hasConcreteClose sources = false) :
    ∃ p l sentinel e before, c''.progress n .predicate = .done p
      ∧ c''.progress n .close = .done l ∧ s.sentinel? = some sentinel
      ∧ (sources.field sentinel.location).init = some e
      ∧ let field := sources.field sentinel.location
        let f := field.ref (sources.name sentinel.location.decl)
        let check := (c''.sources.method p).bodyOrEmpty
        let reset := setting f (e.rewrite (guardedForm c' n))
        (c''.sources.method l).body = some (before ++ [reset])
          ∧ ∀ (M : Machine) (cell : Cell M f field.type),
            ((e.isMinusOne && field.type.isIntegral) = true
                ∨ cell.Reproducing (guarding c' n) e →
              cell.DeniesAfter check reset)
            ∧ ((e.isMinusOne && field.type.isIntegral) = true
              ∨ cell.Reproducing .none e →
              cell.DeniesAfter check (setting f e)) := by
  obtain ⟨p, l, sentinel, hp, hl, hsentinel, hcheck, before, hreset⟩ :=
    prepareAll_checks hid.methods hanalyse hguard horder hprepare hs
      hpredicate hclose
  obtain ⟨-, hstages⟩ := analyse_stages rfl rfl rfl report c hanalyse
  obtain ⟨seed, hdiscover⟩ := hstages n s hs
  obtain ⟨e, hinit⟩ := exists_init_of_sentinel hdiscover hsentinel
  have hinitial : initialOf sources sentinel.location = e := by
    unfold initialOf
    rw [hinit]
    rfl
  have hown : c'.bindings.stageOfField? ((sources.field sentinel.location).ref
      (sources.name sentinel.location.decl)).identity = some n := by
    obtain ⟨hanalysed, rfl⟩ := Analysis.analyse_analysed ⟨rfl, rfl, rfl⟩
      (fun _ => Sources.identified_of_has hid.methods) report c hanalyse
    obtain ⟨c₁, -, hk, -, hlater, -⟩ :=
      guardNodes_settles hanalysed.discovered counts c' hguard
    rw [hlater.field, hk.field]
    exact (stageOfField?_sentinel hanalysed.assigned hid hs hsentinel).2
  rw [rewrite_resetOf hown, hinitial] at hreset
  refine ⟨p, l, sentinel, e, before, hp, hl, hsentinel, hinit, hreset,
    fun M cell => ?_⟩
  have hbody : (c''.sources.method p).bodyOrEmpty = [.ret (some (sentinelCheck
      (.field none ((sources.field sentinel.location).ref
        (sources.name sentinel.location.decl))) e
    (sources.field sentinel.location).type))] := by
    rw [Method.bodyOrEmpty, hcheck, Option.getD_some, checkOf, hinitial]
    rfl
  rw [hbody]
  refine ⟨cell.denied (g := guarding c' n), fun h => ?_⟩
  have hconstructed := cell.denied (g := .none) h
  rwa [Redirection.rewrite_none] at hconstructed

-- =============================================================== a new object

/-- What is answered where the field `b` is remembered, any other field and
call answers seven, and objects are numbered as they are made. -/
def shelfAnswer : Operation → List Int → Int × Int → Option (Int × Int × Int)
  | .literal (.int v), _, μ => some (v, μ)
  | .self _, _, μ => some (0, μ)
  | .read f, _, μ => some (if f = ⟨"P", "b"⟩ then μ.2 else 7, μ)
  | .write _, [_, v], μ => some (v, μ.1, v)
  | .call _, _, μ => some (7, μ)
  | .new _, _, μ => some (μ.1, μ.1 + 1, μ.2)
  | .unary .neg, [v], μ => some (-v, μ)
  | .binary .ne, [v, w], μ => some (if v = w then 0 else 1, μ)
  | .binary .ge, [v, w], μ => some (if w ≤ v then 1 else 0, μ)
  | _, _, _ => none

/-- The machine with these answers. A number is true if it is not zero. -/
abbrev shelf : Machine where
  Value := Int
  Memory := Int × Int
  performs op vs μ r μ' := ∃ v, shelfAnswer op vs μ = some (v, μ') ∧ r = .ok v
  truth v := some (v != 0)

variable {op op' : Operation} {vs : List Int} {i : Int} {μ μ' : Int × Int}

theorem perform_shelf {σ : shelf.State}
    (h : shelfAnswer op vs σ.memory = some (i, μ)) :
    (perform op vs : Computation shelf Int) σ (.ok i) { σ with memory := μ } :=
  ⟨μ, ⟨i, h, rfl⟩, rfl⟩

theorem settles_shelf {Q : Int × Int → Prop}
    (h : ∀ μ, Q μ → shelfAnswer op vs μ = some (i, μ)) :
    Machine.Settles (M := shelf) Q op vs i := by
  intro μ hμ
  refine ⟨⟨μ, i, h μ hμ, rfl⟩, fun r μ' hr => ?_⟩
  obtain ⟨j, hj, rfl⟩ := hr
  obtain ⟨rfl, rfl⟩ := Prod.mk.inj (Option.some.inj (hj.symm.trans (h μ hμ)))
  exact ⟨rfl, hμ⟩

/-- The field `b` as a cell. -/
def shelfCell (type : TypeRef) : Cell shelf ⟨"P", "b"⟩ type where
  object := (0 : Int)
  before _ := True
  held w μ := μ.2 = w
  kept := id
  number := some
  self_before v μ μ' _ h := by
    obtain ⟨u, hu, hv⟩ := h
    cases hu
    cases hv
    exact ⟨rfl, trivial⟩
  write v u μ μ' _ h := by
    obtain ⟨w, hw, -⟩ := h
    cases hw
    rfl
  self_held w := settles_shelf fun μ _ => rfl
  read w := settles_shelf fun μ hμ => congrArg (fun b => some (b, μ)) hμ
  literal t j v μ μ' ht _ h := by
    obtain ⟨u, hu, hv⟩ := h
    cases hv
    rcases ht with rfl | rfl
    · cases hu
      exact ⟨rfl, trivial⟩
    · cases hu
  negate v u μ μ' _ hv h := by
    obtain ⟨w, hw, hu⟩ := h
    cases hv
    cases hw
    cases hu
    exact ⟨rfl, trivial⟩
  integral v _ hv := hv
  zero w := ⟨(0 : Int), rfl, settles_shelf fun _ _ => rfl⟩
  compare w z hw hz := by
    cases hw
    cases hz
    exact ⟨(0 : Int), rfl, settles_shelf fun _ _ => rfl⟩

theorem run_setting {e : Expr} {σ ρ : shelf.State}
    (h : e.value shelf σ (.ok i) ρ) :
    (setting ⟨"P", "b"⟩ e).run shelf σ (.ok .next) { ρ with
      memory := (ρ.memory.1, i) } := by
  have hplace : Expr.place shelf (.field none ⟨"P", "b"⟩) σ
      (.ok (.field (0 : Int) ⟨"P", "b"⟩)) σ :=
    bind_ok_iff.2 ⟨0, σ, perform_shelf rfl, rfl, rfl⟩
  have hwrite : Place.write (M := shelf) i (.field (0 : Int) ⟨"P", "b"⟩) ρ
      (.ok ()) { ρ with memory := (ρ.memory.1, i) } :=
    bind_ok_iff.2 ⟨i, _, perform_shelf rfl, rfl, rfl⟩
  exact bind_ok_iff.2
    ⟨i, _, bind_ok_iff.2 ⟨_, σ, hplace, bind_ok_iff.2 ⟨i, ρ, h,
      bind_ok_iff.2 ⟨(), _, hwrite, rfl, rfl⟩⟩⟩, rfl, rfl⟩

/-- One type with a stage `A` and a stage `B`, whose field has an initial
value. -/
def defaultSources (type : TypeRef) (e : Expr) : Sources :=
  let a : Field :=
    { name := "a", type := .int, init := some (.literal (.int (-1))) }
  let b : Field := { name := "b", type, init := some e }
  let p : TypeDecl := { TypeDecl.participating "P" with fields := [a, b] }
  { decls := [p.assignIdentities] }

/-- These declarations with that type alone at the root. -/
def defaults (type : TypeRef) (e : Expr) : Compilation :=
  { sources := defaultSources type e, tree := pairTree }

/-- The initial value of `B` that is the field of `A`. -/
def readA : Expr := .field none ⟨"P", "a"⟩

/-- Its guarded form. -/
def callA : Expr := .call none ⟨"P", "a", []⟩ []

/-- An initial value of `B` that is a new object. -/
def newFoo : Expr := .new (.named "Foo") []

/-- The accessor of `A` answers what its field holds. -/
theorem reproducing_readA
    (ha : foreignAccessor? c n ⟨"P", "a"⟩ = some ⟨"P", "a", []⟩) :
    (shelfCell .int).Reproducing (guarding c n) readA := by
  intro σ v τ hσ hvalue
  refine ⟨fun op hop => ?_, (0 : Int), rfl, settles_shelf fun μ _ => ?_⟩
  · have hops : op = .self none ∨ op = .read ⟨"P", "a"⟩ := by
      simpa [readA, Expr.operations, Expr.operationsOfTarget] using hop
    intro vs w μ μ' _ hanswer
    obtain ⟨u, hu, hw⟩ := hanswer
    cases hw
    refine ⟨trivial, ?_⟩
    rcases hops with rfl | rfl
    · cases hu
      exact settles_shelf fun _ _ => rfl
    · have hcall : (guarding c n).operation (.read ⟨"P", "a"⟩)
          = .call ⟨"P", "a", []⟩ := by
        show (foreignAccessor? c n ⟨"P", "a"⟩).elim _ _ = _
        rw [ha]
        rfl
      rw [hcall] at hu
      cases hu
      exact settles_shelf fun _ _ => rfl
  · show some (if v = v then (0 : Int) else 1, μ) = some (0, μ)
    rw [if_pos rfl]

/-- How the stage `B` fares when these passes succeed. -/
theorem defaults_prepared (type : TypeRef) (e : Expr)
    (hanalyse : (analyse.runOn (defaults type e)).1.isOk = true)
    (hguard : (guardNodes.runOn (analyse.runOn (defaults type e)).2).1.isOk
      = true)
    (hprepare :
      let c' := (guardNodes.runOn (analyse.runOn (defaults type e)).2).2
      ((c'.graph.ids.forM prepare).runOn c').1.isOk = true)
    (hstage : ((analyse.runOn (defaults type e)).2.graph.get ⟨1⟩).stage?.map
      (fun s =>
        (s.hasConcretePredicate (defaultSources type e),
          s.hasConcreteClose (defaultSources type e),
          s.sentinel?.map StageField.location)) = some (false, false,
          some ⟨⟨0⟩, 1⟩)) :
    ∃ report c counts c' c'' s, analyse.runOn (defaults type e)
      = (.ok report, c)
      ∧ guardNodes.runOn c = (.ok counts, c')
      ∧ (c'.graph.ids.forM prepare).runOn c' = (.ok (), c'')
      ∧ (c.graph.get ⟨1⟩).stage? = some s
      ∧ s.hasConcretePredicate (defaultSources type e) = false
      ∧ s.hasConcreteClose (defaultSources type e) = false
      ∧ s.sentinel?.map StageField.location = some ⟨⟨0⟩, 1⟩
      ∧ c' = (guardNodes.runOn (analyse.runOn (defaults type e)).2).2 := by
  obtain ⟨report, hanalyse⟩ := exists_runOn_eq hanalyse
  obtain ⟨counts, hguard⟩ := exists_runOn_eq hguard
  obtain ⟨⟨⟩, hprepare⟩ := exists_runOn_eq hprepare
  obtain ⟨s, hs, hmade⟩ := Option.map_eq_some_iff.1 hstage
  simp only [Prod.mk.injEq] at hmade
  exact ⟨report, _, counts, _, _, s, hanalyse, hguard, hprepare, hs,
    hmade.1, hmade.2.1, hmade.2.2, rfl⟩

/-- Where a stage starts from the field of another one, its reset calls the
accessor, and its predicate denies after it. -/
theorem reset_uninitializes_readA : ∃ report c counts c' c'' s p l before,
    analyse.runOn (defaults .int readA) = (.ok report, c)
      ∧ guardNodes.runOn c = (.ok counts, c')
      ∧ (c'.graph.ids.forM prepare).runOn c' = (.ok (), c'')
      ∧ (c.graph.get ⟨1⟩).stage? = some s
      ∧ s.hasConcretePredicate (defaultSources .int readA) = false
      ∧ s.hasConcreteClose (defaultSources .int readA) = false
      ∧ (c''.sources.method l).body
        = some (before ++ [setting ⟨"P", "b"⟩ callA])
      ∧ (shelfCell .int).DeniesAfter (c''.sources.method p).bodyOrEmpty
        (setting ⟨"P", "b"⟩ callA)
      ∧ ∃ σ τ : shelf.State, Bare (shelfCell .int).before σ
        ∧ (setting ⟨"P", "b"⟩ callA).run shelf σ (.ok .next) τ := by
  obtain ⟨report, c, counts, c', c'', s, hanalyse, hguard, hprepare, hs,
    hpredicate, hclose, hlocation, hc'⟩ :=
    defaults_prepared .int readA (by decide +kernel)
      (by decide +kernel) (by decide +kernel) (by decide +kernel)
  have ha : foreignAccessor? c' ⟨1⟩ ⟨"P", "a"⟩ = some ⟨"P", "a", []⟩ := by
    rw [hc']
    decide +kernel
  clear hc'
  have hid : (defaultSources .int readA).Derived :=
    ⟨by decide +kernel, by decide +kernel⟩
  obtain ⟨p, l, sentinel, e, before, -, -, hsentinel, hinit, hbody, hdenies⟩ :=
    reset_uninitializes hid hanalyse hguard (.refl _) hprepare hs
      hpredicate hclose
  rw [hsentinel] at hlocation
  have hlocation : sentinel.location = ⟨⟨0⟩, 1⟩ := Option.some.inj hlocation
  rw [hlocation] at hinit hbody hdenies
  obtain rfl : readA = e := Option.some.inj hinit
  have hcall : readA.rewrite (guardedForm c' ⟨1⟩) = callA := by
    show guardedForm c' ⟨1⟩ readA = callA
    unfold readA
    rw [guardedForm_field, ha]
    rfl
  rw [hcall] at hbody hdenies
  have hvalue : callA.value shelf ⟨[], (0, 3), []⟩ (.ok (7 : Int))
      ⟨[], (0, 3), [⟨"P", "a", []⟩]⟩ :=
    value_call_iff.2 ⟨(0 : Int), (0, 3), ⟨(0 : Int), rfl, rfl⟩,
      ⟨(7 : Int), rfl, rfl⟩, rfl, rfl⟩
  exact ⟨report, c, counts, c', _, s, p, l, before, hanalyse, hguard, hprepare,
    hs, hpredicate, hclose, hbody,
    (hdenies shelf (shelfCell .int)).1 (.inr (reproducing_readA ha)),
    ⟨[], (0, 3), []⟩, _, ⟨rfl, trivial⟩, run_setting hvalue⟩

theorem value_newFoo (σ : shelf.State) : newFoo.value shelf σ (.ok σ.memory.1)
    { σ with memory := (σ.memory.1 + 1, σ.memory.2) } :=
  bind_ok_iff.2 ⟨[], σ, ⟨rfl, rfl⟩, perform_shelf rfl⟩

/-- Where two fields have the identities of one another, the close method that
is made for one of them writes no field at all: its reset is guarded as if the
field were that of the other stage. -/
theorem swapped_resets_nothing : ∃ report c counts c' c'' s l,
    analyse.runOn { sources := swappedSources, tree := pairTree }
      = (.ok report, c)
      ∧ guardNodes.runOn c = (.ok counts, c')
      ∧ (c'.graph.ids.forM prepare).runOn c' = (.ok (), c'')
      ∧ (c.graph.get ⟨0⟩).stage? = some s
      ∧ s.hasConcretePredicate swappedSources = false
      ∧ s.hasConcreteClose swappedSources = false
      ∧ c''.progress ⟨0⟩ .close = .done l
      ∧ Analysis.writtenFields (c''.sources.method l).nodes = [] := by
  let c := (analyse.runOn { sources := swappedSources, tree := pairTree }).2
  let c' := (guardNodes.runOn c).2
  let c'' := ((c'.graph.ids.forM prepare).runOn c').2
  obtain ⟨report, hanalyse⟩ := exists_runOn_eq (x := analyse)
    (c := { sources := swappedSources, tree := pairTree }) (by decide +kernel)
  obtain ⟨counts, hguard⟩ :=
    exists_runOn_eq (x := guardNodes) (c := c) (by decide +kernel)
  obtain ⟨⟨⟩, hprepare⟩ :=
    exists_runOn_eq (x := c'.graph.ids.forM prepare) (c := c')
    (by decide +kernel)
  have hstage :
      (c.graph.get ⟨0⟩).stage?.map
      (fun s => (s.hasConcretePredicate swappedSources,
        s.hasConcreteClose swappedSources)) = some (false, false) := by
    decide +kernel
  have hclose : (c''.progress ⟨0⟩ .close).value?.map (fun l =>
      Analysis.writtenFields (c''.sources.method l).nodes) = some [] := by
        decide +kernel
  obtain ⟨s, hs, hdeclared⟩ := Option.map_eq_some_iff.1 hstage
  obtain ⟨l, hl, hwritten⟩ := Option.map_eq_some_iff.1 hclose
  obtain ⟨hpredicate, hconcrete⟩ := Prod.mk.inj hdeclared
  exact ⟨report, c, counts, c', c'', s, l, hanalyse, hguard, hprepare, hs,
    hpredicate, hconcrete, Progress.value?_eq_some.1 hl, hwritten⟩

/-- Where a stage starts from a new object, its predicate makes another one. So
it affirms right after the reset. And where identities are not those of the
names, the close method may reset nothing. -/
theorem newFoo_affirmed : (∃ report c counts c' c'' s p l before,
      analyse.runOn (defaults (.named "Foo") newFoo) = (.ok report, c)
        ∧ guardNodes.runOn c = (.ok counts, c')
        ∧ (c'.graph.ids.forM prepare).runOn c' = (.ok (), c'')
        ∧ (c.graph.get ⟨1⟩).stage? = some s
        ∧ s.hasConcretePredicate (defaultSources (.named "Foo") newFoo) = false
        ∧ s.hasConcreteClose (defaultSources (.named "Foo") newFoo) = false
        ∧ c''.progress ⟨1⟩ .predicate = .done p
        ∧ c''.progress ⟨1⟩ .close = .done l
        ∧ (c''.sources.method l).body
          = some (before ++ [setting ⟨"P", "b"⟩ newFoo])
        ∧ ∃ (σ τ υ : shelf.State) (v : shelf.Value),
          (setting ⟨"P", "b"⟩ newFoo).run shelf σ (.ok .next) τ
            ∧ (c''.sources.method p).bodyOrEmpty.run shelf τ
              (.ok (.returned (some v))) υ
            ∧ shelf.truth v = some true)
    ∧ ∃ report c counts c' c'' s l,
      analyse.runOn { sources := swappedSources, tree := pairTree }
        = (.ok report, c)
        ∧ guardNodes.runOn c = (.ok counts, c')
        ∧ (c'.graph.ids.forM prepare).runOn c' = (.ok (), c'')
        ∧ (c.graph.get ⟨0⟩).stage? = some s
        ∧ s.hasConcretePredicate swappedSources = false
        ∧ s.hasConcreteClose swappedSources = false
        ∧ c''.progress ⟨0⟩ .close = .done l
        ∧ Analysis.writtenFields (c''.sources.method l).nodes = [] := by
  refine ⟨?_, swapped_resets_nothing⟩
  obtain ⟨report, c, counts, c', c'', s, hanalyse, hguard, hprepare, hs,
    hpredicate, hclose, hlocation, hc'⟩ :=
    defaults_prepared (.named "Foo") newFoo (by decide +kernel)
      (by decide +kernel) (by decide +kernel) (by decide +kernel)
  have hown : c'.bindings.stageOfField?
      (((defaultSources (.named "Foo") newFoo).field ⟨⟨0⟩, 1⟩).ref
        ((defaultSources (.named "Foo") newFoo).name ⟨0⟩)).identity
      = some ⟨1⟩ := by
    rw [hc']
    decide +kernel
  clear hc'
  have hid : (defaultSources (.named "Foo") newFoo).Derived :=
    ⟨by decide +kernel, by decide +kernel⟩
  obtain ⟨p, l, sentinel, hp, hl, hsentinel, hcheck, before, hreset⟩ :=
    prepareAll_checks hid.methods hanalyse hguard (.refl _) hprepare hs
      hpredicate hclose
  rw [hsentinel] at hlocation
  have hlocation : sentinel.location = ⟨⟨0⟩, 1⟩ := Option.some.inj hlocation
  rw [hlocation] at hcheck hreset
  rw [rewrite_resetOf hown] at hreset
  have hcheck : (c''.sources.method p).bodyOrEmpty
      = [.ret (some (.binary .ne (.field none ⟨"P", "b"⟩) newFoo))] := by
    rw [Method.bodyOrEmpty, hcheck]
    rfl
  refine ⟨report, c, counts, c', c'', s, p, l, before, hanalyse, hguard,
    hprepare, hs, hpredicate, hclose, hp, hl, hreset, ⟨[], (0, 9), []⟩,
    ⟨[], (1, 0), []⟩, ⟨[], (2, 0), []⟩, (1 : Int),
    run_setting (value_newFoo _), ?_, rfl⟩
  rw [hcheck, Block.run, Stmt.runAll_singleton]
  have hread : (Expr.field none ⟨"P", "b"⟩).value shelf ⟨[], (1, 0), []⟩
      (.ok (0 : Int)) ⟨[], (1, 0), []⟩ :=
    bind_ok_iff.2 ⟨(0 : Int), _, perform_shelf rfl, perform_shelf rfl⟩
  have hvalue : (Expr.binary .ne (.field none ⟨"P", "b"⟩) newFoo).value shelf
      ⟨[], (1, 0), []⟩ (.ok (1 : Int)) ⟨[], (2, 0), []⟩ :=
    bind_ok_iff.2 ⟨(0 : Int), _, hread,
      bind_ok_iff.2 ⟨(1 : Int), _, value_newFoo _, perform_shelf rfl⟩⟩
  exact bind_ok_iff.2 ⟨some (1 : Int), _,
    bind_ok_iff.2 ⟨(1 : Int), _, hvalue, rfl, rfl⟩, rfl, rfl⟩

end Stagewise.Lifecycle
