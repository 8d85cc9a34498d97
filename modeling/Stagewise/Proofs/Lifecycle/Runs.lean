/-
How the requests for members end.

A request takes one course, whatever makes its member: the member is there
already; or it is in progress, which is a failure; or it is put in progress,
made, and recorded as done. There is a rule for the members that every stage
offers (`outcome_request`) and one for those of a stage's fields and methods
(`outcome_requestAt`). They say which failures are met on the way, so that a
property of all runs is shown case by case and no request is taken apart
again.
-/
import Stagewise.Proofs.Lifecycle.Requests
import Stagewise.Proofs.Outcomes

namespace Stagewise.Lifecycle

open Compilation Step

variable {F : Failure → Prop} {c : Compilation} {n : DependencyId}
variable {a : Artifact}
variable {l : Location} {r : Role}

-- ================================================================ small parts

@[simp] theorem outcome_modifyStage {f : Stage → Stage}
    {Q : Unit → Compilation → Prop} :
    Outcome (modifyStage n f) c F Q ↔ Q () (c.mapStage n f) := Iff.rfl

@[simp] theorem outcome_putClosing {p : Progress (Option Location)}
    {Q : Unit → Compilation → Prop} :
    Outcome (modifyNode n fun d => { d with closeDependants := p }) c F Q
      ↔ Q () (c.putClosing n p) := Iff.rfl

@[simp] theorem outcome_implement {body : Block}
    {Q : Unit → Compilation → Prop} :
    Outcome (implement l body) c F Q
      ↔ Q () { c with sources := c.sources.modifyMethod l fun m =>
        { m.toConcrete with body := some body } } := Iff.rfl

@[simp] theorem outcome_call {Q : Expr → Compilation → Prop} :
    Outcome (call l) c F Q ↔ Q (.call none (c.sources.methodRef l) []) c :=
  Iff.rfl

@[simp] theorem outcome_closeCall {d : DependencyId}
    {Q : Stmt → Compilation → Prop} :
    Outcome (closeCall n d l) c F Q
      ↔ Q (.expr (.call (some (c.accessBetween n d))
        (c.sources.methodRef l) [])) c := Iff.rfl

/-- Appending a method fails where its identity is bound. -/
theorem outcome_addMethod {m : Method} {Q : Location → Compilation → Prop}
    (hQ : ∀ b, c.bindings.bindMethod ((c.sources.modify (c.graph.get n).decl
        (·.addMethod m)).method ⟨(c.graph.get n).decl,
          (c.sources.get (c.graph.get n).decl).methods.length⟩).id n r
      = .ok b →
      Q ⟨(c.graph.get n).decl,
        (c.sources.get (c.graph.get n).decl).methods.length⟩
        { c with
          sources := c.sources.modify (c.graph.get n).decl (·.addMethod m),
            bindings := b })
    (hF : ∀ e, c.bindings.bindMethod ((c.sources.modify (c.graph.get n).decl
        (·.addMethod m)).method ⟨(c.graph.get n).decl,
          (c.sources.get (c.graph.get n).decl).methods.length⟩).id n r
      = .error e → F e) :
    Outcome (addMethod n m r) c F Q := by
  unfold addMethod
  simp only [outcome_bind, outcome_get, outcome_modifySources,
    outcome_bindMethod, outcome_pure]
  exact ⟨hQ, hF⟩

/-- The parts of the sentinel's checks and resets are found if the stage has
a sentinel. -/
theorem outcome_sentinelParts {Q : Expr × Expr × TypeRef → Compilation → Prop}
    (hnone : (c.graph.get n).stage? = none → ∀ m t, F (.foreignMember m t))
    (hmissing : ∀ s, (c.graph.get n).stage? = some s → s.sentinel? = none →
      ∀ m t, F (.lifecycleConflict m t))
    (hfound : ∀ s f, (c.graph.get n).stage? = some s → s.sentinel? = some f →
      Q (readOf c.sources f.location, initialOf c.sources f.location,
        (c.sources.field f.location).type) c) :
    Outcome (sentinelParts n) c F Q := by
  unfold sentinelParts sentinel
  simp only [outcome_bind, outcome_stage]
  refine ⟨fun s hs => ?_, fun hs => hnone hs _ _⟩
  split
  · rename_i f hf
    exact hfound s f hs hf
  · rename_i hf
    exact hmissing s hs hf _ _

/-- What reads a stage and goes on with it goes on with the stage that is
there. -/
theorem runOn_stage_bind {α : Type} {f : Stage → Step α} {s : Stage}
    (hs : (c.graph.get n).stage? = some s) :
    (stage n >>= f).runOn c = (f s).runOn c := by
  unfold Step.stage Compilation.stage
  simp only [runOn_bind, runOn_get, runOn_ofExcept, hs]

/-- A stage with the progress of a member. -/
theorem stage?_put {p : Progress Location} {s : Stage}
    (hs : (c.graph.get n).stage? = some s) :
    ((c.put n p a).graph.get n).stage? = some (s.put p a) := by
  unfold Compilation.put
  rw [get_mapStage, if_pos rfl, DependencyNode.stage?_mapStage, hs]
  rfl

/-- The beginning of a member that a stage always offers. -/
theorem outcome_begin {artifact : String} {part : Stage → Progress Location}
    {put : Stage → Progress Location → Stage}
    {Q : Option Location → Compilation → Prop}
    (hoffers : ∀ s : Stage, s.Offers a) (hpart : ∀ s, part s = s.progress a)
    (hput : ∀ s p, put s p = s.put p a)
    (hnone : (c.graph.get n).stage? = none → ∀ m t, F (.foreignMember m t))
    (hbusy : c.progress n a = .inProgress → ∀ m t, F (.reentrantSynthesis m t))
    (hdone : ∀ l, c.progress n a = .done l → Q (some l) c)
    (hnew : ∀ s, (c.graph.get n).stage? = some s →
      c.progress n a = .notStarted →
      Q none (c.put n .inProgress a)) :
    Outcome (begin n artifact part put) c F Q := by
  unfold begin
  simp only [outcome_bind, outcome_get, outcome_stage]
  refine ⟨fun s hs => ?_, fun hs => hnone hs _ _⟩
  have hn : c.Offers n a := ⟨s, hs, hoffers s⟩
  have hprogress : part s = c.progress n a :=
    (hpart s).trans (progress_eq hs).symm
  have hmap : ∀ p, c.mapStage n (put · p) = c.put n p a := by
    intro p
    unfold Compilation.put
    congr 1
    funext s
    exact hput s p
  refine outcome_ofExcept.2 ⟨fun q hstart => ?_, fun e he => ?_⟩
  · obtain ⟨found, p⟩ := q
    rw [hprogress] at hstart
    rw [outcome_modifyStage, hmap]
    rcases start_cases hn hstart with ⟨l, rfl, hl, hput⟩ | ⟨rfl, hl, rfl⟩
    · rw [hput]
      exact hdone l hl
    · exact hnew s hs hl
  · rw [hprogress] at he
    obtain ⟨hp, rfl⟩ := Progress.start_eq_error_iff.1 he
    exact hbusy hp _ _

-- ================================================================= the making

/-- The making of a member that may be declared. A concrete declaration is
taken as it is, an abstract one is implemented, and where there is none a
method is added. -/
def makeUnlessDeclared (declared? : Option Location)
    (isConcrete : Sources → Bool)
    (implemented : Location → Step Unit) (added : Step Location) :
    Step Location := do
  match declared? with
  | some l =>
      if isConcrete (← get).sources then return l
      else do
        implemented l
        return l
  | none => added

/-- The making of a predicate that is not there yet. -/
def makePredicate (n : DependencyId) (s : Stage) : Step Location :=
  makeUnlessDeclared s.declaredPredicate s.hasConcretePredicate
    (fun l => do
      let (read, default, type) ← sentinelParts n
      implement l [.ret (some (sentinelCheck read default type))])
    (do
      let (read, default, type) ← sentinelParts n
      addMethod n
        (procedure (Convention.predicateName ((← get).graph.name n)) .boolean
          [.ret (some (sentinelCheck read default type))]) .predicate)

/-- The making of a close method that is not there yet. -/
def makeClose (n : DependencyId) (s : Stage) : Step Location :=
  makeUnlessDeclared s.declaredClose s.hasConcreteClose
    (fun l => do
      implement l (← resetBody n)
      modifyStage n fun s => { s with closeIsGenerated := true })
    (do
      let l ← addMethod n
        (procedure (Convention.closeName ((← get).graph.name n)) .void
          (← resetBody n)) .close
      modifyStage n fun s => { s with closeIsGenerated := true }
      return l)

/-- The making of a `doClose` method. -/
def makeDoClose (n : DependencyId) : Step Location := do
  let closeMethod ← close n
  let body := ((← get).sources.method closeMethod).bodyOrEmpty
  addMethod n (procedure (Convention.doCloseName ((← get).graph.name n)) .void
    body) .doClose

/-- The making of the accessor of a stage's field. -/
def makeAccessor (n : DependencyId) (entry : StageField) : Step Location := do
  let guard ← guardStatement n
  let f := (← get).sources.field entry.location
  let owner := (← get).sources.name entry.location.decl
  let body : Block := [guard, .ret (some (.field none (f.ref owner)))]
  match entry.declaredAccessor with
  | some l => do
      implement l body
      bindMethod ((← get).sources.method l).id n .accessor
      return l
  | none => addMethod n (procedure f.name f.type body) .accessor

/-- The making of the guarded wrapper of a stage's method. -/
def makeGuarded (n : DependencyId) (entry : StageMethod) : Step Location := do
  let guard ← guardStatement n
  let wrapped := (← get).sources.method entry.location
  let inner : Expr := .call none ((← get).sources.methodRef entry.location)
    (wrapped.params.map fun p => .var p.name)
  let result : Stmt :=
    if wrapped.returns.isVoid then .expr inner else .ret (some inner)
  addMethod n
    { procedure (Convention.guardedName wrapped.name) wrapped.returns
        [guard, result] with params := wrapped.params } .guarded

/-- The making of a close-dependants method that calls what closes some
nodes. -/
def makeCloseDependants (n : DependencyId) (name : String)
    (closes : List (DependencyId × Location)) : Step (Option Location) := do
  if closes.isEmpty then return none
  else do
    let body ← closes.mapM fun (d, close) => closeCall n d close
    some <$> addMethod n
      (procedure (Convention.closeDependantsName name) .void body)
      .closeDependants

-- -------------------------------------------------------- requests by making

section

variable {d : Option Location} {isConcrete : Sources → Bool}
variable {implemented : Location → Step Unit} {added : Step Location}

/-- What follows the making of a member follows it in each of the three
cases. -/
theorem makeUnlessDeclared_bind {k : Location → Step Location} :
    makeUnlessDeclared d isConcrete implemented added >>= k = (do
      match d with
      | some l =>
          if isConcrete (← get).sources then k l
          else do
            implemented l
            k l
      | none => added >>= k) := by
  unfold makeUnlessDeclared
  cases d with
  | none => rfl
  | some l =>
      simp only [bind_assoc]
      refine bind_congr fun c => ?_
      split
      · rfl
      · simp only [bind_assoc, pure_bind]

theorem outcome_makeUnlessDeclared {Q : Location → Compilation → Prop}
    (htaken : ∀ l, d = some l → isConcrete c.sources = true → Q l c)
    (himplemented : ∀ l, d = some l → isConcrete c.sources = false →
      Outcome (implemented l) c F fun _ c' => Q l c')
    (hadded : d = none → Outcome added c F Q) :
    Outcome (makeUnlessDeclared d isConcrete implemented added) c F Q := by
  unfold makeUnlessDeclared
  cases d with
  | none => exact hadded rfl
  | some l =>
      rw [outcome_bind, outcome_get]
      split
      · exact htaken l rfl ‹_›
      · exact outcome_bind.2 (himplemented l rfl (Bool.eq_false_iff.2 ‹_›))

theorem ensures_makeUnlessDeclared {Q : Location → Compilation → Prop}
    (htaken : ∀ l, d = some l → isConcrete c.sources = true → Q l c)
    (himplemented : ∀ l, d = some l → isConcrete c.sources = false →
      Ensures (implemented l) c fun _ c' => Q l c')
    (hadded : d = none → Ensures added c Q) :
    Ensures (makeUnlessDeclared d isConcrete implemented added) c Q :=
  (outcome_makeUnlessDeclared htaken
    (fun l hl hc => (himplemented l hl hc).outcome)
    fun hd => (hadded hd).outcome).ensures

end

/-- The course of a request for a member, over what makes it. -/
def request (n : DependencyId) (a : Artifact) (word : String)
    (make : Step Location) :
    Step Location := do
  match ← begin n word (·.progress a) (·.put · a) with
  | some l => return l
  | none =>
      let l ← make
      modifyStage n (·.put (.done l) a)
      return l

/-- That `x` requests a member that every stage offers, and that `make` makes
it of the stage where it is not there yet. -/
structure Requests (x : Step Location) (n : DependencyId) (a : Artifact)
    (make : Stage → Step Location) : Prop where
  offers : ∀ s : Stage, s.Offers a
  course : ∃ word maker, x = request n a word maker
    ∧ ∀ c s, (c.graph.get n).stage? = some s → maker.runOn c = (make s).runOn c

theorem requests_predicate :
    Requests (predicate n) n .predicate (makePredicate n) := by
  refine ⟨fun _ => trivial, "predicate", stage n >>= makePredicate n, ?_,
    fun _ _ hs => runOn_stage_bind hs⟩
  unfold predicate request makePredicate
  simp only [bind_assoc, makeUnlessDeclared_bind]
  rfl

theorem requests_close : Requests (close n) n .close (makeClose n) := by
  refine ⟨fun _ => trivial, "close", stage n >>= makeClose n, ?_,
    fun _ _ hs => runOn_stage_bind hs⟩
  unfold close request makeClose
  simp only [bind_assoc, makeUnlessDeclared_bind]
  rfl

theorem requests_doClose :
    Requests (doClose n) n .doClose fun _ => makeDoClose n := by
  refine ⟨fun _ => trivial, "doClose", makeDoClose n, ?_, fun _ _ _ => rfl⟩
  unfold doClose request makeDoClose
  simp only [bind_assoc]
  rfl

/-- The course of a request for a member of a field or method of a stage, which
is found by an index. -/
def requestAt (n : DependencyId) (index? : Stage → Option Nat)
    (mark : Nat → Artifact) (kind : String) (word : Stage → Nat → String)
    (make : Stage → Nat → Step Location) : Step MethodRef := do
  let name := (← get).graph.name n
  let s ← stage n
  match index? s with
  | none => throw (.foreignMember kind name)
  | some i =>
      let (finished, p) ← ofExcept
        ((s.progress (mark i)).start name (word s i))
      modifyStage n (·.put p (mark i))
      match finished with
      | some l => return (← get).sources.methodRef l
      | none =>
          let l ← make s i
          modifyStage n (·.put (.done l) (mark i))
          return (← get).sources.methodRef l

/-- That `x` requests a member of the field or method that `index?` finds in a
stage, and that `make` makes it where it is not there yet. -/
structure RequestsAt (x : Step MethodRef) (n : DependencyId)
    (index? : Stage → Option Nat) (mark : Nat → Artifact)
    (make : Stage → Nat → Step Location) : Prop where
  offers : ∀ {s : Stage} {i : Nat}, index? s = some i → s.Offers (mark i)
  course : ∃ kind word, x = requestAt n index? mark kind word make

theorem requests_accessor (field : Identity) :
    RequestsAt (accessor n field) n (·.fieldIndex? field) .accessor
      fun s i => makeAccessor n (s.fields.getD i default) := by
  refine ⟨Stage.offers_accessor, "field " ++ field.text,
    fun s i => "accessor " ++ (s.fields.getD i default).name, ?_⟩
  unfold accessor requestAt
  refine bind_congr fun c => bind_congr fun s => ?_
  dsimp only
  cases hi : s.fieldIndex? field with
  | none => rfl
  | some i =>
      have hprogress : s.progress (.accessor i)
          = (s.fields.getD i default).accessor :=
        Stage.progress_accessor (Stage.offers_accessor hi)
      simp only [hprogress, makeAccessor, bind_assoc]
      refine bind_congr fun q => bind_congr fun _ => ?_
      cases q.1 with
      | some l => rfl
      | none =>
          refine bind_congr fun guard => bind_congr fun c₁ =>
            bind_congr fun c₂ => ?_
          cases (s.fields.getD i default).declaredAccessor with
          | some l =>
              simp only [bind_assoc]
              rfl
          | none => rfl

theorem requests_guarded (method : Identity) :
    RequestsAt (guarded n method) n (·.methodIndex? method) .guarded
      fun s i => makeGuarded n (s.methods.getD i default) := by
  refine ⟨Stage.offers_guarded, "method " ++ method.text,
    fun _ _ => "guarded", ?_⟩
  unfold guarded requestAt
  refine bind_congr fun c => bind_congr fun s => ?_
  dsimp only
  cases hi : s.methodIndex? method with
  | none => rfl
  | some i =>
      have hprogress : s.progress (.guarded i)
          = (s.methods.getD i default).guarded :=
        Stage.progress_guarded (Stage.offers_guarded hi)
      simp only [hprogress, makeGuarded, bind_assoc]
      rfl

-- =============================================================== the requests

variable {Q : Location → Compilation → Prop}
variable {R : MethodRef → Compilation → Prop}

/-- A request finds its member done, or in progress, which is a failure, or it
puts it in progress, has it made and records it. -/
theorem outcome_request {x : Step Location} {make : Stage → Step Location}
    (hx : Requests x n a make)
    (hnone : (c.graph.get n).stage? = none → ∀ m t, F (.foreignMember m t))
    (hbusy : c.progress n a = .inProgress → ∀ m t, F (.reentrantSynthesis m t))
    (hdone : ∀ l, c.progress n a = .done l → Q l c)
    (hmake : ∀ s, (c.graph.get n).stage? = some s →
      c.progress n a = .notStarted →
      Outcome (make (s.put .inProgress a)) (c.put n .inProgress a) F
        fun l c' => Q l (c'.put n (.done l) a)) :
    Outcome x c F Q := by
  obtain ⟨word, maker, rfl, hmaker⟩ := hx.course
  unfold request
  rw [outcome_bind]
  refine outcome_begin (a := a) hx.offers (fun _ => rfl)
    (fun _ _ => rfl) hnone hbusy hdone
    fun s hs hnew => ?_
  have hrun := hmaker _ _ (stage?_put (p := .inProgress) (a := a) hs)
  have hmade := hmake s hs hnew
  refine outcome_bind.2 ?_
  unfold Outcome at hmade ⊢
  rw [hrun]
  exact hmade

/-- A guard is made with the predicate. -/
theorem outcome_guardStatement {P : Stmt → Compilation → Prop}
    (hpredicate : Outcome (predicate n) c F fun _ c' => (∀ guard, P guard c')
      ∧ ((c'.graph.get n).stage? = none → ∀ m t, F (.foreignMember m t))) :
    Outcome (guardStatement n) c F P := by
  unfold guardStatement
  rw [outcome_bind]
  refine hpredicate.leave fun l c' hl => ?_
  simp only [outcome_bind, outcome_call, outcome_stage]
  refine ⟨fun s _ => ?_, fun hnone => hl.2 hnone _ _⟩
  split
  · simp only [outcome_bind, outcome_call, outcome_pure]
    exact hl.1 _
  · exact outcome_pure.2 (hl.1 _)

/-- A request for a member of a field or method fails where the stage has none
such, and else takes the course of the other requests. -/
theorem outcome_requestAt {x : Step MethodRef} {index? : Stage → Option Nat}
    {mark : Nat → Artifact} {make : Stage → Nat → Step Location}
    (hx : RequestsAt x n index? mark make)
    (hnone : (c.graph.get n).stage? = none → ∀ m t, F (.foreignMember m t))
    (hforeign : ∀ s, (c.graph.get n).stage? = some s → index? s = none →
      ∀ m t, F (.foreignMember m t))
    (hbusy : ∀ s i, (c.graph.get n).stage? = some s → index? s = some i →
      c.progress n (mark i) = .inProgress →
        ∀ m t, F (.reentrantSynthesis m t))
    (hdone : ∀ s i l, (c.graph.get n).stage? = some s → index? s = some i →
      c.progress n (mark i) = .done l → R (c.sources.methodRef l) c)
    (hmake : ∀ s i, (c.graph.get n).stage? = some s → index? s = some i →
      c.progress n (mark i) = .notStarted →
        Outcome (make s i) (c.put n .inProgress (mark i)) F
          fun l c' =>
            R (c'.sources.methodRef l) (c'.put n (.done l) (mark i))) :
    Outcome x c F R := by
  obtain ⟨kind, word, rfl⟩ := hx.course
  unfold requestAt
  simp only [outcome_bind, outcome_get, outcome_stage]
  refine ⟨fun s hs => ?_, fun hs => hnone hs _ _⟩
  split
  · rename_i hi
    exact hforeign s hs hi _ _
  rename_i i hi
  have hn : c.Offers n (mark i) := ⟨s, hs, hx.offers hi⟩
  rw [← progress_eq hs]
  refine outcome_bind.2
    (outcome_ofExcept.2 ⟨fun q hstart => ?_, fun e he => ?_⟩)
  · obtain ⟨found, p⟩ := q
    rw [outcome_bind, outcome_modifyStage]
    show Outcome _ (c.put n p (mark i)) _ _
    rcases start_cases hn hstart with ⟨l, rfl, hl, hput⟩ | ⟨rfl, hnew, rfl⟩
    · rw [hput]
      exact hdone s i l hs hi hl
    · exact outcome_bind.2 (hmake s i hs hi hnew)
  · obtain ⟨hp, rfl⟩ := Progress.start_eq_error_iff.1 he
    exact hbusy s i hs hi hp _ _

-- ------------------------------------------------- what the requests ensure

theorem ensures_request {x : Step Location} {make : Stage → Step Location}
    (hx : Requests x n a make) (hdone : ∀ l, c.progress n a = .done l → Q l c)
    (hmake : ∀ s, (c.graph.get n).stage? = some s →
      c.progress n a = .notStarted →
      Ensures (make (s.put .inProgress a)) (c.put n .inProgress a)
        fun l c' => Q l (c'.put n (.done l) a)) :
    Ensures x c Q :=
  (outcome_request hx (fun _ _ _ => trivial) (fun _ _ _ => trivial) hdone
    fun s hs hnew => (hmake s hs hnew).outcome).ensures

theorem ensures_requestAt {x : Step MethodRef} {index? : Stage → Option Nat}
    {mark : Nat → Artifact} {make : Stage → Nat → Step Location}
    (hx : RequestsAt x n index? mark make)
    (hdone : ∀ s i l, (c.graph.get n).stage? = some s → index? s = some i →
      c.progress n (mark i) = .done l → R (c.sources.methodRef l) c)
    (hmake : ∀ s i, (c.graph.get n).stage? = some s → index? s = some i →
      c.progress n (mark i) = .notStarted →
        Ensures (make s i) (c.put n .inProgress (mark i))
          fun l c' =>
            R (c'.sources.methodRef l) (c'.put n (.done l) (mark i))) :
    Ensures x c R :=
  (outcome_requestAt hx (fun _ _ _ => trivial) (fun _ _ _ _ _ => trivial)
    (fun _ _ _ _ _ _ _ => trivial) hdone
    fun s i hs hi hnew => (hmake s i hs hi hnew).outcome).ensures

/-- The making of a close-dependants method: what closes the dependants is
found, one after the other, and then a method appended that calls it. -/
theorem outcome_closeDependantsWithin {fuel : Nat}
    {P : Option Location → Compilation → Prop}
    (hbusy : c.closing n = .inProgress → ∀ m t, F (.reentrantSynthesis m t))
    (hdone : ∀ found, c.closing n = .done found → P found c)
    (hmake : c.closing n = .notStarted →
      Outcome (closesBy (closeDependantsWithin fuel)
        ((c.putClosing n .inProgress).graph.sortedDependants n))
      (c.putClosing n .inProgress) F
        fun closes c₁ =>
          Outcome (makeCloseDependants n (c.graph.name n) closes) c₁ F
          fun l c₂ => P l (c₂.putClosing n (.done l))) :
    Outcome (closeDependantsWithin (fuel + 1) n) c F P := by
  unfold closeDependantsWithin
  simp only [outcome_bind, outcome_get]
  refine outcome_ofExcept.2 ⟨fun q hstart => ?_, fun e he => ?_⟩
  · obtain ⟨found, p⟩ := q
    change (c.closing n).start _ _ = _ at hstart
    rw [outcome_putClosing]
    rcases Progress.start_eq_ok_iff.1 hstart with ⟨answer, hp, rfl, rfl⟩
      | ⟨hp, rfl, rfl⟩
    · rw [← hp, putClosing_closing]
      exact hdone answer hp
    · simp only [outcome_bind, outcome_get]
      refine (hmake hp).leave fun closes c₁ hclosed => ?_
      unfold makeCloseDependants at hclosed
      split at hclosed
      · rename_i hempty
        rw [if_pos hempty]
        exact hclosed
      · rename_i hne
        rw [if_neg hne]
        simp only [outcome_bind] at hclosed ⊢
        exact hclosed
  · change (c.closing n).start _ _ = _ at he
    obtain ⟨hp, rfl⟩ := Progress.start_eq_error_iff.1 he
    exact hbusy hp _ _

-- ------------------------------------------------------------ preparations

/-- To let the init methods and the close method of a stage close its
dependants first, if there is a method that does. -/
def closeDependantsFirst (n : DependencyId) (predicate close : Location) :
    Option Location → Step Unit
  | some dependants => do
      (← stage n).initMethods.forM
        (closeDependantsAfterInit n predicate dependants)
      let closeCall ← call dependants
      modifyBody close (.expr closeCall :: ·)
  | none => pure ()

/-- To let both close methods of a stage return where it is not initialized,
and then to make the accessors that are called for. -/
def leaveAndAccess (n : DependencyId) (predicate close doClose : Location) :
    Step Unit := do
  let leave : Stmt := .when (.unary .not (← call predicate)) (.ret none)
  modifyBody close (leave :: ·)
  modifyBody doClose (leave :: ·)
  ((← stage n).fields.filter StageField.forcesAccessor).forM fun f => do
    let _ ← accessor n f.id

/-- To let the dependants be closed first is to change bodies if there is a
method that closes them, and nothing otherwise. -/
theorem outcome_closeDependantsFirst {predicate close : Location}
    {dependants : Option Location} {Q : Unit → Compilation → Prop}
    (hnone : Q () c)
    (hgroup : (c.graph.get n).stage? = none →
      F (.foreignMember (c.graph.name n) "stage"))
    (hstage : ∀ d ∈ dependants, ∀ s, (c.graph.get n).stage? = some s →
      Outcome (s.initMethods.forM (closeDependantsAfterInit n predicate d)) c
        F fun _ c' =>
        Outcome (modifyBody close
          (.expr (.call none (c'.sources.methodRef d) []) :: ·)) c' F Q) :
    Outcome (closeDependantsFirst n predicate close dependants) c F Q := by
  cases dependants with
  | none => exact outcome_pure.2 hnone
  | some d =>
      unfold closeDependantsFirst
      simp only [outcome_bind, outcome_call]
      exact outcome_stage.2 ⟨hstage d rfl, hgroup⟩

theorem ensures_closeDependantsFirst {predicate close : Location}
    {dependants : Option Location} {Q : Unit → Compilation → Prop}
    (hnone : Q () c)
    (hstage : ∀ d ∈ dependants, ∀ s, (c.graph.get n).stage? = some s →
      Ensures (s.initMethods.forM (closeDependantsAfterInit n predicate d))
        c fun _ c' =>
        Ensures (modifyBody close
          (.expr (.call none (c'.sources.methodRef d) []) :: ·)) c' Q) :
    Ensures (closeDependantsFirst n predicate close dependants) c Q := by
  simp only [← outcome_true] at hstage ⊢
  exact outcome_closeDependantsFirst hnone (fun _ => trivial) hstage

/-- To close the dependants after an init method is to change its body: it
takes note on entry whether the stage is initialized, and calls at its end. -/
theorem ensures_closeDependantsAfterInit {predicate closer init : Location}
    {Q : Unit → Compilation → Prop} :
    Ensures (closeDependantsAfterInit n predicate closer init) c Q
      ↔ Ensures (modifyBody init fun body =>
          .declare .boolean (Convention.wasInitName (c.graph.name n))
              (some (.call none (c.sources.methodRef predicate) [])) :: body
            ++ [Stmt.when (.var (Convention.wasInitName (c.graph.name n)))
              (.expr (.call none (c.sources.methodRef closer) []))]) c Q := by
  unfold closeDependantsAfterInit
  simp only [ensures_bind, ensures_get, ensures_call]

/-- Once both close methods return where the stage is not initialized, there
holds at the end what the making of any accessor preserves. -/
theorem ensures_leaveAndAccess {predicate close doClose : Location}
    {I : Compilation → Prop} (hleave : Ensures (modifyBody close
          (.when (.unary .not (.call none (c.sources.methodRef predicate) []))
            (.ret none) :: ·)) c
        fun _ c₁ => Ensures (modifyBody doClose
          (.when (.unary .not (.call none (c.sources.methodRef predicate) []))
            (.ret none) :: ·)) c₁
        fun _ c₂ => I c₂)
    (haccess : ∀ c₁ field, I c₁ →
      Ensures (accessor n field) c₁ fun _ c₂ => I c₂) :
    Ensures (leaveAndAccess n predicate close doClose) c fun _ c' => I c' := by
  unfold leaveAndAccess
  simp only [ensures_bind, ensures_call]
  refine hleave.mono fun _ c₁ h₁ => h₁.mono fun _ c₂ h₂ => ?_
  refine ensures_stage.2 fun s _ => ?_
  refine ensures_forM (I := fun _ c' => I c') (fun _ f _ c₃ h₃ => ?_) h₂
  exact ensures_bind.2 ((haccess c₃ f.id h₃).mono fun _ _ h₄ =>
    ensures_pure.2 h₄)

/-- The preparation of a node: without a stage only the dependants are seen to;
for a stage its members are made, and then its bodies are changed in two
parts. -/
theorem outcome_prepare {Q : Unit → Compilation → Prop}
    (hgroup : (c.graph.get n).stage? = none →
      Outcome (closeDependants n) c F fun _ c' => Q () c')
    (hstage : ∀ s, (c.graph.get n).stage? = some s →
      Outcome (predicate n) c F fun predicate c₁ =>
        Outcome (closeDependants n) c₁ F fun dependants c₂ =>
          Outcome (close n) c₂ F fun close c₃ =>
            Outcome (doClose n) c₃ F fun doClose c₄ =>
              Outcome (closeDependantsFirst n predicate close dependants) c₄
                  F fun _ c₅ =>
                Outcome (leaveAndAccess n predicate close doClose) c₅ F Q) :
    Outcome (prepare n) c F Q := by
  unfold prepare DependencyNode.isStage
  rw [outcome_bind, outcome_get]
  cases hs : (c.graph.get n).stage? with
  | none => exact outcome_bind.2 (hgroup hs)
  | some s =>
      refine outcome_bind.2 ((hstage s hs).leave fun predicate c₁ h₁ => ?_)
      refine outcome_bind.2 (h₁.leave fun dependants c₂ h₂ => ?_)
      refine outcome_bind.2 (h₂.leave fun close c₃ h₃ => ?_)
      refine outcome_bind.2 (h₃.leave fun doClose c₄ h₄ => ?_)
      cases dependants with
      | none => exact h₄
      | some dependants =>
          simp only [closeDependantsFirst, leaveAndAccess,
            outcome_bind] at h₄ ⊢
          exact h₄

theorem ensures_prepare {Q : Unit → Compilation → Prop}
    (hgroup : (c.graph.get n).stage? = none →
      Ensures (closeDependants n) c fun _ c' => Q () c')
    (hstage : ∀ s, (c.graph.get n).stage? = some s →
      Ensures (predicate n) c fun predicate c₁ =>
        Ensures (closeDependants n) c₁ fun dependants c₂ =>
          Ensures (close n) c₂ fun close c₃ =>
            Ensures (doClose n) c₃ fun doClose c₄ =>
              Ensures (closeDependantsFirst n predicate close dependants)
                  c₄ fun _ c₅ =>
                Ensures (leaveAndAccess n predicate close doClose) c₅ Q) :
    Ensures (prepare n) c Q := by
  simp only [← outcome_true] at hgroup hstage ⊢
  exact outcome_prepare hgroup hstage

end Stagewise.Lifecycle
