/-
The requests that the preparation of nodes consists of, as far as they
bind members.

While nodes are prepared, the bindings are those that there were and those
of the members made so far, and a close-dependants method is there exactly
if it has something to call (`Underway`). Each request keeps this. Nothing
goes wrong in it but the binding of the member that it adds, and only if
the additions are not apart.
-/
import Stagewise.Proofs.Lifecycle.Additions
import Stagewise.Proofs.Lifecycle.Readiness

namespace Stagewise.Lifecycle

open Compilation Step

variable {c c' c₀ : Compilation} {n : DependencyId} {a : Artifact}
variable {l : Location}
variable {x : Addition} {s : Stage} {r : Role}

-- ============================================================== the invariant

/-- The additions that are made by now. -/
def Counted (c₀ c : Compilation) (x : Addition) : Prop :=
  x ∈ additions c₀ ∧ x.isMade c = true

/-- What holds while the nodes of `c₀` are prepared. A close-dependants
method is there exactly if it has something to call. -/
structure Underway (c₀ c : Compilation) : Prop where
  later : Later c₀ c
  evolves : Evolves c₀ c
  recorded : Recorded c₀ (Counted c₀ c) c.bindings
  answers : ∀ n found, c.closing n = .done found →
    (found = none ↔ closeCalls c₀.graph n = [])

namespace Underway

theorem refl (h₀ : Ready c₀) : Underway c₀ c₀ := by
  have hnone : ∀ x, ¬ Counted c₀ c₀ x := by
    rintro x ⟨hx, hmade⟩
    cases (mem_additions.1 hx).2.symm.trans hmade
  refine ⟨.refl _ c₀, .refl c₀, ⟨fun id => ?_, fun x hx => (hnone x hx).elim⟩,
    fun n found hn => ?_⟩
  · exact ⟨Or.inl, fun h => h.elim (fun h => h) fun ⟨x, hx, _⟩ =>
      (hnone x hx).elim⟩
  · cases (h₀.unclosing n).symm.trans hn

/-- A request that makes other members than close-dependants methods. -/
theorem after (h : Underway c₀ c) (hlater : Later c c')
    (hevolves : Evolves c c')
    (hclosing : c'.closing = c.closing)
    (hrecorded : Recorded c₀ (Counted c₀ c') c'.bindings) :
    Underway c₀ c' :=
  ⟨h.later.trans hlater, h.evolves.trans hevolves, hrecorded,
    hclosing ▸ h.answers⟩

theorem seated (h : Underway c₀ c) (h₀ : Ready c₀) :
    Seated (fun _ => False) c :=
  h₀.seated.keeps h.later

theorem closed (h : Underway c₀ c) (h₀ : Ready c₀) : Closed c :=
  h₀.closed.keeps h.later

theorem identity?_eq (h : Underway c₀ c) (h₀ : Ready c₀) (x : Addition) :
    x.identity? c = x.identity? c₀ :=
  x.identity?_congr h.evolves h₀.seated.declared

/-- What is asked for and not made yet is one of the additions. -/
theorem mem_additions (h : Underway c₀ c) (hn : n ∈ c.graph.ids)
    (hx : x ∈ additionsOf c n)
    (hnew : x.isMade c = false) : x ∈ additions c₀ := by
  rw [additionsOf_congr h.evolves.sameNodes] at hx
  refine Lifecycle.mem_additions.2 ⟨⟨n, h.later.mem_ids.1 hn, hx⟩,
    Bool.eq_false_iff.2 ?_⟩
  intro hmade
  cases hnew.symm.trans (x.isMade_later h.later hmade)

end Underway

-- ---------------------------------------------------------- progress recorded

theorem isMade_of_graph (h : c'.graph = c.graph) (x : Addition) :
    x.isMade c' = x.isMade c := by
  cases x with
  | member n a =>
      unfold Addition.isMade Compilation.progress
      rw [h]
  | closing n =>
      unfold Addition.isMade Compilation.closing
      rw [h]

theorem counted_of_graph (h : c'.graph = c.graph) :
    Counted c₀ c' x ↔ Counted c₀ c x := by
  unfold Counted
  rw [isMade_of_graph h]

theorem isMade_member_of_new (h : c.progress n a = .notStarted) :
    (Addition.member n a).isMade c = false := by
  rw [isMade_member, h]
  rfl

/-- A member is not there yet while it is in progress. -/
theorem isMade_put_inProgress (hn : c.Offers n a)
    (hnew : c.progress n a = .notStarted)
    (x : Addition) : x.isMade (c.put n .inProgress a) = x.isMade c := by
  cases x with
  | member m b =>
      by_cases hmb : m = n ∧ b = a
      · obtain ⟨rfl, rfl⟩ := hmb
        rw [isMade_member_of_new hnew]
        rw [isMade_member, progress_put_self hn]
        rfl
      · rw [isMade_member, isMade_member, progress_put_of_ne hmb]
  | closing m =>
      unfold Compilation.put
      rw [isMade_closing, isMade_closing, closing_mapStage]

/-- The record with a member that is done. -/
theorem Recorded.finish {c₁ : Compilation}
    (h : Recorded c₀ (fun y => Counted c₀ c₁ y ∨ y = .member n a) c.bindings)
    (hgraph : c.graph = c₁.graph) (hx : .member n a ∈ additions c₀)
    (hn : c.Offers n a) :
    Recorded c₀ (Counted c₀ (c.put n (.done l) a))
      (c.put n (.done l) a).bindings := by
  have hcounted : ∀ y, Counted c₀ c₁ y ↔ Counted c₀ c y :=
    fun _ => (counted_of_graph hgraph).symm
  simp only [hcounted] at h
  refine h.congr fun y => ⟨fun ⟨hy, hmade⟩ => ?_, ?_⟩
  · by_cases he : y = .member n a
    · exact Or.inr he
    · refine Or.inl ⟨hy, ?_⟩
      cases y with
      | member m b =>
          rwa [isMade_member, progress_put_of_ne fun hmb =>
            he (by rw [hmb.1, hmb.2])] at hmade
      | closing m =>
          unfold Compilation.put at hmade
          rwa [isMade_closing, closing_mapStage] at hmade
  · rintro (⟨hy, hmade⟩ | rfl)
    · refine ⟨hy, ?_⟩
      cases y with
      | member m b =>
          by_cases hmb : m = n ∧ b = a
          · obtain ⟨rfl, rfl⟩ := hmb
            exact isMade_member_iff.2 ⟨l, progress_put_self hn⟩
          · rwa [isMade_member, progress_put_of_ne hmb]
      | closing m =>
          unfold Compilation.put
          rwa [isMade_closing, closing_mapStage]
    · exact ⟨hx, isMade_member_iff.2 ⟨l, progress_put_self hn⟩⟩

/-- The record with a close-dependants method that is done. -/
theorem Recorded.finishClosing {c₁ : Compilation} {found : Option Location}
    (h : Recorded c₀ (fun y => Counted c₀ c₁ y ∨ y = .closing n) c.bindings)
    (hgraph : c.graph = c₁.graph) (hx : .closing n ∈ additions c₀)
    (hn : n ∈ c.graph.ids) :
    Recorded c₀ (Counted c₀ (c.putClosing n (.done found)))
      (c.putClosing n (.done found)).bindings := by
  have hcounted : ∀ y, Counted c₀ c₁ y ↔ Counted c₀ c y :=
    fun _ => (counted_of_graph hgraph).symm
  simp only [hcounted] at h
  have hself :
      (Addition.closing n).isMade (c.putClosing n (.done found)) = true :=
    isMade_closing_iff.2 ⟨found, closing_putClosing_self hn⟩
  have hother : ∀ y : Addition, y ≠ .closing n →
      y.isMade (c.putClosing n (.done found)) = y.isMade c := by
    intro y hy
    cases y with
    | member m b =>
        rw [isMade_member, isMade_member, progress_putClosing_eq]
    | closing m =>
        rw [isMade_closing, isMade_closing, closing_putClosing_of_ne hn
          fun hm => hy (hm ▸ rfl)]
  refine h.congr fun y => ?_
  by_cases he : y = .closing n
  · subst he
    exact ⟨fun _ => Or.inr rfl, fun _ => ⟨hx, hself⟩⟩
  · unfold Counted
    rw [hother y he]
    exact ⟨Or.inl, fun h => h.resolve_right he⟩

/-- The beginning of a member. -/
theorem Underway.start (h : Underway c₀ c) (hn : c.Offers n a)
    (hnew : c.progress n a = .notStarted) :
    Underway c₀ (c.put n .inProgress a) := by
  have hevolves : Evolves c (c.put n .inProgress a) := by
    cases a with
    | doClose => exact .change (.start hnew)
    | predicate | close | accessor i | guarded i =>
        exact .change
          (.making (.stage (fun _ => Stage.unmade_put) fun _ => rfl))
  refine h.after (.start hn hnew) hevolves (funext (closing_mapStage _)) ?_
  refine h.recorded.congr fun y => ?_
  unfold Counted
  rw [isMade_put_inProgress hn hnew]

-- =============================================================== the requests

/-- An added method is bound by the identity that was told beforehand. -/
theorem addMethod_recorded {name : String} {returns : TypeRef} {body : Block}
    (hevolves : Evolves c₀ c) (hsited : c.Sited n)
    (h : Recorded c₀ (Counted c₀ c) c.bindings) (hx : x ∈ additions c₀)
    (hnew : x.isMade c = false)
    (hid : x.identity? c₀ = some (newIdentity c₀ n name)) :
    Outcome (addMethod n (procedure name returns body) r) c
      (Refuses c₀) fun _ c' =>
      c'.graph = c.graph
          ∧ Recorded c₀ (fun y => Counted c₀ c y ∨ y = x) c'.bindings := by
  have hmethod : ((c.sources.modify (c.graph.get n).decl
      (·.addMethod (procedure name returns body))).method
        (c.sources.nextMethod (c.graph.get n).decl)).id
      = newIdentity c₀ n name := by
    rw [Sources.method_addMethod_next hsited, ← newIdentity_congr hevolves]
    unfold Method.withIdentity
    rw [if_pos (by rfl)]
    rfl
  have hbind := h.bind (n := n) (r := r) (fun y hy => hy.1) hx
    (fun hy => Bool.false_ne_true (hnew.symm.trans hy.2)) hid
  refine outcome_addMethod (fun b hb => ⟨rfl, ?_⟩) fun e he => ?_
  · exact hbind.1 b (hmethod ▸ hb)
  · exact hbind.2 e (hmethod ▸ he)

theorem Underway.sited (h : Underway c₀ c) (h₀ : Ready c₀)
    (hn : n ∈ c.graph.ids) : c.Sited n :=
  (h.seated h₀).decl n hn

theorem Ready.sentinelParts {Q : Expr × Expr × TypeRef → Compilation → Prop}
    (h₀ : Ready c₀) (h : Underway c₀ c) (hs : (c.graph.get n).stage? = some s)
    (hconcrete : s.hasConcretePredicate c.sources = false) (hQ : ∀ p, Q p c) :
    Outcome (sentinelParts n) c (Refuses c₀) Q := by
  have hsupported :=
    supported_evolves h.evolves h₀.seated.declared h₀.supported n s
      hs hconcrete
  refine outcome_sentinelParts (fun hnone => nomatch hs.symm.trans hnone)
    (fun s' hs' hmissing => ?_) fun _ _ _ _ => hQ _
  obtain rfl := Option.some.inj (hs.symm.trans hs')
  rw [hmissing] at hsupported
  cases hsupported

/-- The making of a predicate finds a sentinel where it needs one. -/
theorem makePredicate_recorded (h₀ : Ready c₀) (h : Underway c₀ c)
    (hs : (c.graph.get n).stage? = some s)
    (hx : .member n .predicate ∈ additions c₀)
    (hnew : (Addition.member n .predicate).isMade c = false) :
    Outcome (makePredicate n s) c (Refuses c₀) fun _ c' => c'.graph = c.graph
      ∧ Recorded c₀ (fun y => Counted c₀ c y ∨ y = .member n .predicate)
        c'.bindings := by
  have hid : (Addition.member n .predicate).identity? c₀
      = if s.declaredPredicate.isSome then none
      else some (newIdentity c n
        (Convention.predicateName (c.graph.name n))) := by
    rw [← h.identity?_eq h₀]
    unfold Addition.identity?
    dsimp only
    rw [hs, Option.bind_some]
  refine outcome_makeUnlessDeclared (fun l hl _ => ?_)
    (fun l hl hconcrete => ?_) fun hl => ?_
  · rw [hl, Option.isSome_some, if_pos rfl] at hid
    exact ⟨rfl, h.recorded.unbound hid⟩
  · rw [hl, Option.isSome_some, if_pos rfl] at hid
    rw [outcome_bind]
    refine h₀.sentinelParts h hs hconcrete fun p => ?_
    exact ⟨rfl, h.recorded.unbound hid⟩
  · rw [hl, Option.isSome_none, if_neg Bool.false_ne_true] at hid
    have hconcrete : s.hasConcretePredicate c.sources = false := by
      unfold Stage.hasConcretePredicate
      rw [hl]
      rfl
    rw [outcome_bind]
    refine h₀.sentinelParts h hs hconcrete fun p => ?_
    rw [outcome_bind, outcome_get]
    rw [newIdentity_congr h.evolves] at hid
    exact addMethod_recorded h.evolves (h.sited h₀ (mem_ids_of_stage? hs))
      h.recorded hx hnew hid

theorem fieldIndex?_eq_of_unmade {s' : Stage} (h : s'.unmade = s.unmade)
    (id : Identity) :
    s'.fieldIndex? id = s.fieldIndex? id := by
  rw [← Stage.fieldIndex?_unmade, h, Stage.fieldIndex?_unmade]

/-- A field is the one that was discovered, however far its accessor is. -/
theorem exists_field_of_unmade {s' : Stage} {f : StageField}
    (h : s'.unmade = s.unmade) (hf : f ∈ s.fields) :
    ∃ g ∈ s'.fields, g.id = f.id ∧ g.forcesAccessor = f.forcesAccessor := by
  have hmem : f.unmade ∈ s'.unmade.fields := h ▸ List.mem_map_of_mem hf
  obtain ⟨g, hg, hgf⟩ := List.mem_map.1 hmem
  have hid := congrArg StageField.id hgf
  have hforces := congrArg StageField.forcesAccessor hgf
  exact ⟨g, hg, hid, hforces⟩

theorem additionsOf_eq (hs : (c.graph.get n).stage? = some s) :
    additionsOf c n = .closing n :: stageAdditions n s := by
  unfold additionsOf
  rw [hs]
  rfl

/-- Making the predicate of a stage. -/
theorem predicate_underway (h₀ : Ready c₀) (h : Underway c₀ c)
    (hs : (c.graph.get n).stage? = some s) :
    Outcome (predicate n) c (Refuses c₀) fun l c' =>
      Underway c₀ c' ∧ Later c c' ∧ c'.progress n .predicate = .done l := by
  have hrecorded : Outcome (predicate n) c (Refuses c₀) fun _ c' =>
      Recorded c₀ (Counted c₀ c') c'.bindings := by
    refine outcome_request requests_predicate
      (fun hnone => nomatch hs.symm.trans hnone)
      (fun _ m t => refuses_reentrant m t) (fun _ _ => h.recorded)
      fun s' hs' hnew => ?_
    obtain rfl := Option.some.inj (hs.symm.trans hs')
    have hn : c.Offers n .predicate := ⟨s, hs, trivial⟩
    have hx : .member n .predicate ∈ additions c₀ :=
      h.mem_additions (mem_ids_of_stage? hs)
        (by simp [additionsOf_eq hs, stageAdditions])
        (isMade_member_of_new hnew)
    have h₁ := h.start hn hnew
    have hnew₁ : (Addition.member n .predicate).isMade
        (c.put n .inProgress .predicate)
        = false := by
      rw [isMade_put_inProgress hn hnew, isMade_member_of_new hnew]
    refine (makePredicate_recorded h₀ h₁ (stage?_put hs) hx hnew₁).leave ?_
    rintro l c' ⟨hgraph, hrecorded⟩
    have hn' : c'.Offers n .predicate := by
      refine ⟨s.put .inProgress .predicate, ?_, trivial⟩
      rw [hgraph]
      exact stage?_put hs
    exact hrecorded.finish hgraph hx hn'
  refine (hrecorded.and_ensures ((predicate_keeps (h.seated h₀)).and
    (Makings.predicate .refl))).leave ?_
  rintro l c' ⟨hrecorded, ⟨hk, hl⟩, hm⟩
  exact ⟨h.after hk ((Evolves.refl c).makings hm)
    ((stable_closing c.closing).makings rfl hm) hrecorded, hk, hl⟩

/-- The close method of a stage is there. -/
theorem close_there {Q : Location → Compilation → Prop} (h₀ : Ready c₀)
    (h : Underway c₀ c)
    (hs : (c.graph.get n).stage? = some s) (hQ : ∀ l, Q l c) :
    Outcome (close n) c (Refuses c₀) Q := by
  obtain ⟨l, hl⟩ := h.closed h₀ n s hs
  refine outcome_request requests_close
    (fun hnone => nomatch hs.symm.trans hnone)
    (fun _ => refuses_reentrant) (fun _ _ => hQ _) fun _ _ hnew => ?_
  cases hnew.symm.trans hl

/-- Making the `doClose` method of a stage. -/
theorem doClose_underway (h₀ : Ready c₀) (h : Underway c₀ c)
    (hs : (c.graph.get n).stage? = some s) :
    Outcome (doClose n) c (Refuses c₀) fun l c' =>
      Underway c₀ c' ∧ Later c c' ∧ c'.progress n .doClose = .done l := by
  have hrecorded : Outcome (doClose n) c (Refuses c₀) fun _ c' =>
      Recorded c₀ (Counted c₀ c') c'.bindings ∧ c'.closing = c.closing := by
    refine outcome_request requests_doClose
      (fun hnone => nomatch hs.symm.trans hnone)
      (fun _ => refuses_reentrant) (fun _ _ => ⟨h.recorded, rfl⟩)
      fun _ _ hnew => ?_
    have hn : c.Offers n .doClose := ⟨s, hs, trivial⟩
    have hx : .member n .doClose ∈ additions c₀ :=
      h.mem_additions (mem_ids_of_stage? hs)
        (by simp [additionsOf_eq hs, stageAdditions])
        (isMade_member_of_new hnew)
    have h₁ := h.start hn hnew
    have hs₁ := stage?_put (p := .inProgress) (a := .doClose) hs
    have hclosing₁ : (c.put n .inProgress .doClose).closing = c.closing :=
      funext (closing_mapStage _)
    have hnew₁ : (Addition.member n .doClose).isMade
        (c.put n .inProgress .doClose) = false := by
      rw [isMade_put_inProgress hn hnew, isMade_member_of_new hnew]
    generalize c.put n .inProgress .doClose = c₁ at *
    unfold makeDoClose
    rw [outcome_bind]
    refine close_there h₀ h₁ hs₁ fun close => ?_
    simp only [outcome_bind, outcome_get]
    have hid : (Addition.member n .doClose).identity? c₀
        = some (newIdentity c₀ n
          (Convention.doCloseName (c₁.graph.name n))) := by
      rw [h₁.evolves.sameNodes.name]
      rfl
    refine (addMethod_recorded h₁.evolves (h₁.sited h₀ (mem_ids_of_stage? hs₁))
      h₁.recorded hx hnew₁ hid).leave ?_
    rintro l c' ⟨hgraph, hrecorded⟩
    have hn' : c'.Offers n .doClose := ⟨_, by rw [hgraph]; exact hs₁, trivial⟩
    refine ⟨hrecorded.finish hgraph hx hn', funext fun m => ?_⟩
    refine (closing_mapStage _ m).trans ?_
    unfold Compilation.closing at hclosing₁ ⊢
    rw [hgraph]
    exact congrFun hclosing₁ m
  refine (hrecorded.and_ensures
    ((doClose_keeps (h.seated h₀) (h.closed h₀)).and
      doClose_evolves)).leave ?_
  rintro l c' ⟨⟨hrecorded, hclosing⟩, hk, hevolves, hl⟩
  exact ⟨h.after hk hevolves hclosing hrecorded, hk, hl⟩

-- ----------------------------------------------------------------- dependants

/-- What closes the dependants of a node is something exactly if the node
has anything to call. -/
theorem closeCalls_eq_nil_iff {g : DependencyGraph} (hg : g.Acyclic)
    (hn : n ∈ g.ids) :
    closeCalls g n = []
      ↔ ∀ d ∈ g.sortedDependants n, (g.get d).isStage = false
      ∧ closeCalls g d = [] := by
  rw [closeCalls_eq hg hn, List.filter_eq_nil_iff]
  refine forall_congr' fun d => imp_congr_right fun _ => ?_
  rw [Bool.or_eq_true, not_or, Bool.not_eq_true, Bool.not_eq_true',
    Bool.not_eq_false, List.isEmpty_iff]

/-- The beginning of a close-dependants method. -/
theorem Underway.startClosing (h₀ : Ready c₀) (h : Underway c₀ c)
    (hn : n ∈ c.graph.ids)
    (hnew : c.closing n = .notStarted) :
    Underway c₀ (c.putClosing n .inProgress) := by
  have hsame : ∀ x : Addition, x.isMade (c.putClosing n .inProgress)
      = x.isMade c := by
    intro x
    cases x with
    | member m b => rw [isMade_member, isMade_member, progress_putClosing_eq]
    | closing m =>
        by_cases hm : m = n
        · rw [isMade_closing, isMade_closing, hm,
            closing_putClosing_self hn, hnew]
          rfl
        · rw [isMade_closing, isMade_closing, closing_putClosing_of_ne hn hm]
  refine ⟨h.later.putClosing (h.later.mem_ids.1 hn) (h₀.unclosing n),
    h.evolves.step (.closing n _), h.recorded.congr fun x => ?_,
    fun m found hm => ?_⟩
  · unfold Counted
    rw [hsame]
  · by_cases hmn : m = n
    · rw [hmn, closing_putClosing_self hn] at hm
      cases hm
    · rw [closing_putClosing_of_ne hn hmn] at hm
      exact h.answers m found hm

/-- What closes the dependants of a node is found, if what closes one of them
is. -/
theorem closesBy_underway {rest : DependencyId → Step (Option Location)}
    {ds : List DependencyId} (h₀ : Ready c₀) (h : Underway c₀ c)
    (hrest : ∀ d ∈ ds, ∀ c, Underway c₀ c →
      Outcome (rest d) c (Refuses c₀) fun found c' =>
      Underway c₀ c' ∧ Later c c' ∧ c'.closing d = .done found) :
    Outcome (closesBy rest ds) c (Refuses c₀) fun closes c' =>
      Underway c₀ c' ∧ Later c c'
      ∧ (closes = [] ↔
        ∀ d ∈ ds, (c₀.graph.get d).isStage = false
          ∧ closeCalls c₀.graph d = []) := by
  unfold closesBy
  refine outcome_foldlM (I := fun done closes c' => Underway c₀ c' ∧ Later c c'
    ∧ (closes = [] ↔ ∀ d ∈ done, (c₀.graph.get d).isStage = false
      ∧ closeCalls c₀.graph d = [])) ?_ ⟨h, .refl _ c, by simp⟩
  rintro done d after hds closes c₁ ⟨h₁, hk₁, hcloses⟩
  have hd : d ∈ ds := hds ▸ List.mem_append_right _ List.mem_cons_self
  have hstage : (c₁.graph.get d).isStage = (c₀.graph.get d).isStage :=
    h₁.evolves.sameShape.isStage d
  rw [outcome_bind, outcome_get, hstage]
  split
  · rename_i hisStage
    rw [outcome_bind, outcome_map]
    obtain ⟨s, hs⟩ := Option.isSome_iff_exists.1 (hstage.trans hisStage)
    refine close_there h₀ h₁ hs fun l => outcome_pure.2 ⟨h₁, hk₁, ?_⟩
    simp [hisStage]
  · rename_i hgroup
    rw [outcome_bind]
    refine (hrest d hd c₁ h₁).leave ?_
    rintro found c₂ ⟨h₂, hk₂, hfound⟩
    have hanswer := h₂.answers d found hfound
    refine outcome_pure.2 ⟨h₂, hk₁.trans hk₂, ?_⟩
    rw [List.forall_mem_append, ← hcloses,
      List.forall_mem_singleton, ← hanswer]
    cases found <;> simp [hgroup]

/-- That the answer for the close-dependants method of a node is noted, and
is as it has to be. -/
structure Concluded (c₀ c : Compilation) (n : DependencyId)
    (found : Option Location) : Prop where
  recorded : Recorded c₀ (Counted c₀ c) c.bindings
  answers : ∀ m found, c.closing m = .done found →
    (found = none ↔ closeCalls c₀.graph m = [])
  closing : c.closing n = .done found

theorem Underway.conclude {c₁ : Compilation} {found : Option Location}
    (h : Underway c₀ c)
    (hx : .closing n ∈ additions c₀) (hn : n ∈ c.graph.ids)
    (hgraph : c₁.graph = c.graph)
    (hrecorded : Recorded c₀ (fun y => Counted c₀ c y ∨ y = .closing n)
      c₁.bindings)
    (hanswer : found = none ↔ closeCalls c₀.graph n = []) :
    Concluded c₀ (c₁.putClosing n (.done found)) n found := by
  have hn₁ : n ∈ c₁.graph.ids := hgraph ▸ hn
  refine ⟨hrecorded.finishClosing hgraph hx hn₁, fun m found' hm => ?_,
    closing_putClosing_self hn₁⟩
  by_cases hmn : m = n
  · subst hmn
    rw [closing_putClosing_self hn₁] at hm
    exact Progress.done.inj hm ▸ hanswer
  · rw [closing_putClosing_of_ne hn₁ hmn] at hm
    refine h.answers m found' ?_
    unfold Compilation.closing at hm ⊢
    rwa [← hgraph]

/-- A close-dependants method is appended if there is anything to call. -/
theorem makeCloseDependants_underway {closes : List (DependencyId × Location)}
    (h₀ : Ready c₀)
    (h : Underway c₀ c) (hx : .closing n ∈ additions c₀) (hn : n ∈ c.graph.ids)
    (hp : c.closing n = .inProgress)
    (hcloses : closes = [] ↔ closeCalls c₀.graph n = []) :
    Outcome (makeCloseDependants n (c₀.graph.name n) closes) c
      (Refuses c₀) fun found c' =>
      Concluded c₀ (c'.putClosing n (.done found)) n found := by
  have hnew : (Addition.closing n).isMade c = false := by
    rw [isMade_closing, hp]
    rfl
  unfold makeCloseDependants
  split
  · rename_i hempty
    have hnil := hcloses.1 (List.isEmpty_iff.1 hempty)
    refine outcome_pure.2 (h.conclude hx hn rfl (h.recorded.unbound ?_) ?_)
    · simp [Addition.identity?, hnil]
    · simp [hnil]
  · rename_i hne
    have hcalls : closeCalls c₀.graph n ≠ [] :=
      fun hnil => hne (List.isEmpty_iff.2 (hcloses.2 hnil))
    rw [outcome_bind]
    refine (outcome_mapM_of_unchanged fun p _ => outcome_closeCall.2
      ⟨rfl, rfl⟩).leave ?_
    rintro _ _ ⟨-, rfl⟩
    rw [outcome_map]
    refine (addMethod_recorded h.evolves (h.sited h₀ hn) h.recorded hx hnew
      ?_).leave ?_
    · simp [Addition.identity?, hcalls]
    · rintro l c₁ ⟨hgraph, hrecorded⟩
      exact h.conclude hx hn hgraph hrecorded (by simp [hcalls])

/-- Making the close-dependants method of a node, which is one of the
additions if it has anything to call. -/
theorem closeDependantsWithin_underway (h₀ : Ready c₀) {fuel : Nat}
    (h : Underway c₀ c) (hn : n ∈ c.graph.ids)
    (hfuel : c₀.graph.nodes.length ≤ fuel
      + c₀.graph.topologicalOrder.idxOf n) :
    Outcome (closeDependantsWithin fuel n) c (Refuses c₀) fun found c' =>
      Underway c₀ c' ∧ Later c c' ∧ c'.closing n = .done found := by
  induction fuel generalizing n c with
  | zero =>
      have := DependencyGraph.idxOf_topologicalOrder_lt_length h₀.acyclic
        (h.later.mem_ids.1 hn)
      omega
  | succ fuel ih =>
      have hn₀ : n ∈ c₀.graph.ids := h.later.mem_ids.1 hn
      have hmade : Outcome (closeDependantsWithin (fuel + 1) n) c
          (Refuses c₀) fun found c' =>
          Concluded c₀ c' n found := by
        refine outcome_closeDependantsWithin (fun _ => refuses_reentrant)
          (fun found hfound => ⟨h.recorded, h.answers, hfound⟩) fun hnew => ?_
        have hx : .closing n ∈ additions c₀ :=
          h.mem_additions hn List.mem_cons_self
            (by rw [isMade_closing, hnew]; rfl)
        have h₁ := h.startClosing h₀ hn hnew
        have hn₁ : n ∈ (c.putClosing n .inProgress).graph.ids :=
          h₁.later.mem_ids.2 hn₀
        have hp₁ : (c.putClosing n .inProgress).closing n = .inProgress :=
          closing_putClosing_self hn
        generalize c.putClosing n .inProgress = c₁ at *
        have hsorted : c₁.graph.sortedDependants n
            = c₀.graph.sortedDependants n :=
          congrFun h₁.evolves.sameShape.links.sortedDependants n
        refine Outcome.leave (closesBy_underway h₀ h₁ fun d hd c₂ h₂ => ?_) ?_
        · -- a dependant comes later in the order, so less fuel is enough
          have hdn : d ∈ c₀.graph.dependants n :=
            (DependencyGraph.mem_sortedDependants h₀.acyclic hn₀).1
              (hsorted ▸ hd)
          have hd₀ : d ∈ c₀.graph.ids :=
            DependencyGraph.mem_ids_of_mem_dependants hdn
          have hlt := DependencyGraph.idxOf_topologicalOrder_lt h₀.acyclic
            (.single (DependencyGraph.depends_iff_mem_dependants.2 ⟨hn₀, hdn⟩))
          exact ih h₂ (h₂.later.mem_ids.2 hd₀) (by omega)
        · rintro closes c₂ ⟨h₂, hk₂, hcloses⟩
          rw [hsorted, ← closeCalls_eq_nil_iff h₀.acyclic hn₀] at hcloses
          rw [h.evolves.sameNodes.name]
          exact makeCloseDependants_underway h₀ h₂ hx (hk₂.mem_ids.2 hn₁)
            (hk₂.closing_inProgress hp₁) hcloses
      refine (hmade.and_ensures
        ((closeDependantsWithin_keeps (h.seated h₀) (h.closed h₀) hn).and
          (closeDependantsWithin_evolves (.refl c) hn))).leave ?_
      rintro found c' ⟨hconcluded, hk, hevolves⟩
      exact ⟨⟨h.later.trans hk, h.evolves.trans hevolves, hconcluded.recorded,
        hconcluded.answers⟩, hk, hconcluded.closing⟩

theorem closeDependants_underway (h₀ : Ready c₀) (h : Underway c₀ c)
    (hn : n ∈ c.graph.ids) :
    Outcome (closeDependants n) c (Refuses c₀) fun found c' =>
      Underway c₀ c' ∧ Later c c' ∧ c'.closing n = .done found := by
  unfold closeDependants
  rw [outcome_bind, outcome_get]
  refine closeDependantsWithin_underway h₀ h hn ?_
  rw [h.later.length]
  omega

-- ------------------------------------------------------------------ accessors

/-- The guard of an accessor is made with the predicate. -/
theorem guardStatement_underway (h₀ : Ready c₀) (h : Underway c₀ c)
    (hs : (c.graph.get n).stage? = some s) :
    Outcome (guardStatement n) c (Refuses c₀) fun _ c' =>
      Underway c₀ c' ∧ Later c c' := by
  refine outcome_guardStatement ((predicate_underway h₀ h hs).leave ?_)
  rintro l c' ⟨h', hk, -⟩
  refine ⟨fun _ => ⟨h', hk⟩, fun hnone => ?_⟩
  obtain ⟨s', hs', -⟩ := hk.nodes.exists_stage hs
  cases hs'.symm.trans hnone

theorem identity?_accessor {entry : StageField} {i : Nat} (h₀ : Ready c₀)
    (h : Underway c₀ c)
    (hs : (c.graph.get n).stage? = some s) (hi : s.fields[i]? = some entry) :
    (Addition.member n (.accessor i)).identity? c₀
    = some (accessorIdentity c n entry) := by
  rw [← h.identity?_eq h₀]
  unfold Addition.identity?
  dsimp only
  rw [hs, Option.bind_some, hi, Option.map_some]

/-- The making of an accessor, which is in progress. -/
theorem makeAccessor_recorded {entry : StageField} {i : Nat} (h₀ : Ready c₀)
    (h : Underway c₀ c)
    (hs : (c.graph.get n).stage? = some s) (hi : s.fields[i]? = some entry)
    (hx : .member n (.accessor i) ∈ additions c₀)
    (hp : c.progress n (.accessor i) = .inProgress) :
    Outcome (makeAccessor n entry) c (Refuses c₀) fun _ c' => ∃ c₁,
    c'.graph = c₁.graph
      ∧ Later c c₁
      ∧ Recorded c₀ (fun y => Counted c₀ c₁ y ∨ y = .member n (.accessor i))
        c'.bindings := by
  have hid := identity?_accessor h₀ h hs hi
  unfold makeAccessor
  rw [outcome_bind]
  refine (guardStatement_underway h₀ h hs).leave ?_
  rintro guard c₁ ⟨h₁, hk₁⟩
  have hnew : (Addition.member n (.accessor i)).isMade c₁ = false := by
    rcases hk₁.progress n (.accessor i) with hn | hsame
    · cases hp.symm.trans hn
    · rw [isMade_member, hsame, hp]
      rfl
  obtain ⟨s₁, hs₁, -⟩ := hk₁.nodes.exists_stage hs
  simp only [outcome_bind, outcome_get]
  split
  · rename_i l hl
    have hhas : c.sources.Has l := by
      refine (h.seated h₀).declared n (.accessor i) l ?_
      rw [declared?_eq hs]
      exact Option.bind_eq_some_iff.2 ⟨entry, hi, hl⟩
    have hhas₁ : c₁.sources.Has l := (hk₁.sources.heading l hhas).1
    have hmethod : accessorIdentity c n entry = (c₁.sources.method l).id := by
      unfold accessorIdentity
      rw [hl, hk₁.sources.id hhas]
    rw [hmethod] at hid
    have hbind :=
      h₁.recorded.bind (n := n) (r := .accessor) (fun y hy => hy.1) hx
      (fun hy => Bool.false_ne_true (hnew.symm.trans hy.2)) hid
    simp only [outcome_bind, outcome_implement, outcome_get]
    rw [Sources.method_modifyMethod hhas₁, if_pos rfl, outcome_bindMethod]
    exact ⟨fun b hb => ⟨c₁, rfl, hk₁, hbind.1 b hb⟩, hbind.2⟩
  · rename_i hl
    have hfield : c₁.sources.field entry.location
        = c.sources.field entry.location := by
      have hevolved : ∀ {c}, Underway c₀ c →
          c.sources.field entry.location
            = c₀.sources.field entry.location := by
        intro c h
        have hfields :=
          congrArg TypeDecl.fields (h.evolves.sources.rest entry.location.decl)
        exact congrArg (·.getD entry.location.index default) hfields
      rw [hevolved h₁, hevolved h]
    have hname : accessorIdentity c n entry
        = newIdentity c₀ n (c₁.sources.field entry.location).name := by
      unfold accessorIdentity
      rw [hl, hfield, newIdentity_congr h.evolves]
    rw [hname] at hid
    refine (addMethod_recorded h₁.evolves (h₁.sited h₀ (mem_ids_of_stage? hs₁))
      h₁.recorded hx hnew hid).leave ?_
    rintro _ c' ⟨hgraph, hrecorded⟩
    exact ⟨c₁, hgraph, hk₁, hrecorded⟩

/-- Making the accessor of a field that needs one in any case. -/
theorem accessor_underway {f : StageField} (h₀ : Ready c₀) (h : Underway c₀ c)
    (hs : (c.graph.get n).stage? = some s) (hf : f ∈ s.fields)
    (hforced : f.forcesAccessor = true) :
    Outcome (accessor n f.id) c (Refuses c₀) fun _ c' =>
      Underway c₀ c' ∧ Later c c'
      ∧ ∀ i, s.fieldIndex? f.id = some i →
        ∃ l, c'.progress n (.accessor i) = .done l := by
  have hrecorded : Outcome (accessor n f.id) c (Refuses c₀) fun _ c' =>
      Recorded c₀ (Counted c₀ c') c'.bindings := by
    refine outcome_requestAt (requests_accessor f.id)
      (fun hnone => nomatch hs.symm.trans hnone) (fun s' hs' hnone => ?_)
      (fun _ _ _ _ _ => refuses_reentrant) (fun _ _ _ _ _ _ => h.recorded)
      fun s' i hs' hi hnew => ?_
    · obtain rfl := Option.some.inj (hs.symm.trans hs')
      have hnot := List.findIdx?_eq_none_iff.1 hnone f hf
      simp at hnot
    · obtain rfl := Option.some.inj (hs.symm.trans hs')
      have hoffers : s.Offers (.accessor i) := Stage.offers_accessor hi
      have hn : c.Offers n (.accessor i) := ⟨s, hs, hoffers⟩
      have hx : .member n (.accessor i) ∈ additions c₀ := by
        refine h.mem_additions (mem_ids_of_stage? hs) ?_
          (isMade_member_of_new hnew)
        rw [additionsOf_eq hs]
        refine List.mem_cons_of_mem _
          (List.mem_cons_of_mem _ (List.mem_cons_of_mem _ ?_))
        exact List.mem_filterMap.2
          ⟨f, List.mem_filter.2 ⟨hf, hforced⟩, by rw [hi]; rfl⟩
      have h₁ := h.start hn hnew
      have hs₁ := stage?_put (p := .inProgress) (a := .accessor i) hs
      have hp₁ : (c.put n .inProgress (.accessor i)).progress n (.accessor i)
          = .inProgress :=
        progress_put_self hn
      -- what the field is has nothing to do with the progress of its accessor
      have hentry : (s.put .inProgress (.accessor i)).fields[i]?
          = some { s.fields.getD i default with accessor := .inProgress } := by
        have hlt : i < s.fields.length := hoffers
        simp [Stage.put, List.getD_eq_getElem?_getD, hlt]
      have hmake : makeAccessor n (s.fields.getD i default)
          = makeAccessor n { s.fields.getD i default with
            accessor := .inProgress } := rfl
      rw [hmake]
      refine (makeAccessor_recorded h₀ h₁ hs₁ hentry hx hp₁).leave ?_
      rintro l c' ⟨c₁, hgraph, hk₁, hrecorded⟩
      have hn' : c'.Offers n (.accessor i) := by
        have hoffers₁ : (c.put n .inProgress (.accessor i)).Offers n
            (.accessor i) :=
          ⟨_, hs₁, by simpa [Stage.Offers, Stage.put] using hoffers⟩
        obtain ⟨s₁, hs₁, ho₁⟩ := hk₁.nodes.offers hoffers₁
        exact ⟨s₁, hgraph ▸ hs₁, ho₁⟩
      exact hrecorded.finish hgraph hx hn'
  refine (hrecorded.and_ensures ((accessor_keeps (h.seated h₀)).and
    (Makings.accessor .refl f.id))).leave ?_
  rintro _ c' ⟨hrecorded, ⟨hk, hmade⟩, hm⟩
  refine ⟨h.after hk ((Evolves.refl c).makings hm)
    ((stable_closing c.closing).makings rfl hm) hrecorded, hk, fun i hi => ?_⟩
  obtain ⟨j, hj, hmade⟩ := Option.bind_eq_some_iff.1 hmade
  rw [hk.nodes.bind (fun _ => Stage.fieldIndex?_unmade f.id), hs,
    Option.bind_some, hi] at hj
  obtain rfl := Option.some.inj hj
  obtain ⟨l, hl, -⟩ := made?_eq_some.1 hmade
  exact ⟨l, hl⟩

end Stagewise.Lifecycle
