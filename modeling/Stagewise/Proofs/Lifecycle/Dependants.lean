/-
What the close-dependants methods that are made call: the close methods of
the stages among the dependants and the close-dependants methods of the
method groups that have one, in the order that `closeCalls` lists.

# The argument

A method that is made once is handed out at every later request. So the
making of one node's method finds those of some dependants done and makes
the others on the way. `Closing` is what holds at each moment: whatever is
done calls what it should. Making a stage's close method in between
concerns none of them (`stable_closing`), and their bodies are kept.

The depth of the requests is bounded as that of the calls is, by the places
that are left in the topological order.
-/
import Stagewise.Proofs.Dependency.Alike
import Stagewise.Proofs.Lifecycle.Cascade
import Stagewise.Proofs.Lifecycle.Frame

namespace Stagewise

-- ============================================================ same shape

/-- That two graphs have the same edges, and stages at the same places. -/
structure DependencyGraph.SameShape (g g' : DependencyGraph) : Prop where
  edges : g'.edges = g.edges
  length : g'.nodes.length = g.nodes.length
  isStage : ∀ n, (g'.get n).isStage = (g.get n).isStage

namespace DependencyGraph.SameShape

variable {g g' : DependencyGraph} {n : DependencyId}

theorem refl (g : DependencyGraph) : SameShape g g := ⟨rfl, rfl, fun _ => rfl⟩

theorem trans {g₁ : DependencyGraph} (h : SameShape g g₁)
    (h' : SameShape g₁ g') :
    SameShape g g' :=
  ⟨h'.edges.trans h.edges, h'.length.trans h.length,
    fun n => (h'.isStage n).trans (h.isStage n)⟩

theorem links (h : SameShape g g') : SameLinks g g' := by
  refine ⟨h.length, ?_⟩
  funext a b
  unfold dependsOn route?
  rw [h.edges]

theorem stages (h : SameShape g g') : g'.stages = g.stages := by
  unfold DependencyGraph.stages
  rw [h.links.ids, funext h.isStage]

/-- What close-dependants methods call is told by the links and by which
nodes are stages. -/
theorem closeCalls (h : SameShape g g') :
    Lifecycle.closeCalls g' = Lifecycle.closeCalls g := by
  have hwithin : ∀ fuel n, Lifecycle.closeCallsWithin g' fuel n
      = Lifecycle.closeCallsWithin g fuel n := by
    intro fuel
    induction fuel with
    | zero => exact fun _ => rfl
    | succ fuel ih =>
        intro n
        unfold Lifecycle.closeCallsWithin
        rw [h.links.sortedDependants]
        exact List.filter_congr fun d _ => by rw [h.isStage, ih]
  funext n
  unfold Lifecycle.closeCalls depth
  rw [hwithin, h.length]

end DependencyGraph.SameShape

theorem DependencyNode.unmade_closeDependants {d : DependencyNode}
    {p : Progress (Option Location)} :
    { d with closeDependants := p }.unmade = d.unmade := by
  unfold unmade mapStage
  cases h : d.kind <;> simp only [h]

namespace DependencyGraph

variable {g : DependencyGraph} {n m : DependencyId}

/-- A change of one node is seen there and nowhere else. -/
theorem get_modify (hn : n ∈ g.ids) (f : DependencyNode → DependencyNode)
    (m : DependencyId) :
    (g.modify n f).get m = if m = n then f (g.get n) else g.get m := by
  by_cases h : m = n
  · subst h
    have hlt := mem_ids.1 hn
    unfold get modify
    rw [List.getD_eq_getElem?_getD, List.getElem?_modify]
    simp [hlt]
  · rw [if_neg h, get_modify_of_ne h]

end DependencyGraph

namespace Compilation

variable {K : Location → Prop} {c c' c₁ : Compilation} {n m d : DependencyId}
variable {l : Location} {p : Progress (Option Location)}
variable {found : Option Location}

theorem Keeps.sameShape {g : DependencyGraph} (hk : Keeps K c c')
    (h : g.SameShape c.graph) : g.SameShape c'.graph := by
  refine ⟨hk.edges.trans h.edges, hk.length.trans h.length, fun n => ?_⟩
  have hstage := congrArg Option.isSome (hk.nodes.stage? n)
  rw [Option.isSome_map, Option.isSome_map] at hstage
  exact hstage.trans (h.isStage n)

-- ============================================== the progress of a closing

/-- Record how far the making of a close-dependants method is. -/
def putClosing (c : Compilation) (n : DependencyId)
    (p : Progress (Option Location)) :
    Compilation :=
  { c with graph := c.graph.modify n fun d => { d with closeDependants := p } }

theorem closing_putClosing_self (hn : n ∈ c.graph.ids) :
    (c.putClosing n p).closing n = p := by
  unfold closing putClosing
  rw [DependencyGraph.get_modify hn, if_pos rfl]

theorem closing_putClosing_of_ne (hn : n ∈ c.graph.ids) (h : m ≠ n) :
    (c.putClosing n p).closing m = c.closing m := by
  unfold closing putClosing
  rw [DependencyGraph.get_modify hn, if_neg h]

theorem stage?_putClosing (hn : n ∈ c.graph.ids) :
    ((c.putClosing n p).graph.get m).stage? = (c.graph.get m).stage? := by
  unfold putClosing
  rw [DependencyGraph.get_modify hn]
  split
  · rename_i h
    rw [h]
    rfl
  · rfl

theorem progress_putClosing (hn : n ∈ c.graph.ids) {a : Artifact} :
    (c.putClosing n p).progress m a = c.progress m a := by
  unfold progress
  rw [stage?_putClosing hn]

/-- Recording what is known already changes nothing. -/
theorem putClosing_closing (c : Compilation) (n : DependencyId) :
    c.putClosing n (c.closing n) = c := by
  have hsame : ∀ d, c.graph.nodes[n.index]? = some d →
      { d with closeDependants := c.closing n } = d := by
    intro d hd
    have hget : c.graph.get n = d := by
      unfold DependencyGraph.get
      rw [List.getD_eq_getElem?_getD, hd]
      rfl
    unfold closing
    rw [hget]
  unfold putClosing DependencyGraph.modify
  rw [modify_eq_self hsame]

theorem sameNodes_putClosing (hn : n ∈ c.graph.ids) :
    SameNodes c (c.putClosing n p) := by
  intro m
  unfold putClosing
  rw [DependencyGraph.get_modify hn]
  split
  · rename_i hm
    rw [hm, DependencyNode.unmade_closeDependants]
  · rfl

/-- What was not started when all was kept may be recorded now. -/
theorem Keeps.putClosing (h : Keeps K c c₁) (hn : n ∈ c.graph.ids)
    (hnew : c.closing n = .notStarted) : Keeps K c (c₁.putClosing n p) := by
  have hn₁ : n ∈ c₁.graph.ids := h.mem_ids.2 hn
  have hnodes : SameNodes c₁ (c₁.putClosing n p) := sameNodes_putClosing hn₁
  refine ⟨h.sources, h.field, h.role, h.stageMethod, h.tree, h.edges,
    (List.length_modify ..).trans h.length,
    fun m => (hnodes m).trans (h.nodes m),
    fun m a => ?_, fun m a l hl => ?_, fun m => ?_⟩
  · rw [progress_putClosing hn₁]
    exact h.progress m a
  · rw [progress_putClosing hn₁] at hl
    exact (h.made m a l hl).imp_right fun hm => hm.of_sameNodes hnodes rfl rfl
  · by_cases hm : m = n
    · exact Or.inl (hm ▸ hnew)
    · rw [closing_putClosing_of_ne hn₁ hm]
      exact h.closing m

theorem Keeps.closing_done (hk : Keeps K c c')
    (h : c.closing n = .done found) :
    c'.closing n = .done found := by
  rcases hk.closing n with hn | hsame
  · rw [hn] at h
    cases h
  · rw [hsame, h]

theorem Keeps.closing_inProgress (hk : Keeps K c c')
    (h : c.closing n = .inProgress) :
    c'.closing n = .inProgress := by
  rcases hk.closing n with hn | hsame
  · rw [hn] at h
    cases h
  · rw [hsame, h]

-- ============================================================ what is called

/-- The method that closes a node, as far as it is made: the close method of
a stage, or the close-dependants method of a method group. -/
def closer? (c : Compilation) (n : DependencyId) : Option Location :=
  if (c.graph.get n).isStage then (c.progress n .close).value?
  else (c.closing n).value?.join

/-- The call by which a node closes a dependant. -/
def callOf? (c : Compilation) (n d : DependencyId) : Option Stmt :=
  (closer? c d).map fun l =>
    .expr (.call (some (c.accessBetween n d)) (c.sources.methodRef l) [])

/-- Names are all that an access tells of the sources. -/
theorem access_congr {t : Composition} {s s' : Sources}
    (h : ∀ d, s'.name d = s.name d)
    (source target : CompositionId) :
    t.access s' source target = t.access s source target := by
  unfold Composition.access Composition.declNames
  rw [funext h]

theorem Keeps.accessBetween (hk : Keeps K c c') (n m : DependencyId) :
    c'.accessBetween n m = c.accessBetween n m := by
  unfold Compilation.accessBetween compositionOf
  rw [hk.nodes.decl, hk.nodes.decl, hk.tree, access_congr hk.sources.name]

theorem Keeps.closer? (hk : Keeps K c c') (hl : closer? c n = some l) :
    closer? c' n = some l := by
  have hstage : (c'.graph.get n).isStage = (c.graph.get n).isStage :=
    (hk.sameShape ⟨rfl, rfl, fun _ => rfl⟩).isStage n
  unfold Compilation.closer? at hl ⊢
  rw [hstage]
  split at hl
  · rename_i h
    rw [if_pos h]
    cases hp : c.progress n .close with
    | done made => rwa [hp, ← hk.done hp] at hl
    | notStarted | inProgress => rw [hp] at hl; cases hl
  · rename_i h
    rw [if_neg h]
    cases hp : c.closing n with
    | done made => rwa [hp, ← hk.closing_done hp] at hl
    | notStarted | inProgress => rw [hp] at hl; cases hl

end Compilation

namespace Lifecycle

open Compilation Step

-- ============================================================= the invariant

variable {K : Location → Prop} {g : DependencyGraph} {c c' : Compilation}
variable {n d : DependencyId} {l : Location} {found : Option Location}
variable {p : Progress (Option Location)} {s : Stmt}

/-- That a location holds the close-dependants method of a node: a method of
its leaf that calls in order what closes the given dependants. -/
structure ClosesInOrder (c : Compilation) (n : DependencyId)
    (ds : List DependencyId) (l : Location) : Prop where
  bound : c.Bound l n .closeDependants
  decl : l.decl = (c.graph.get n).decl
  method : ∃ body, body.map some = ds.map (callOf? c n) ∧ c.sources.method l
    = (procedure (Convention.closeDependantsName (c.graph.name n)) .void
      body).withIdentity
        (c.sources.name l.decl)

/-- What is made to close the dependants of a node: nothing if there is
nothing to call, else a method that calls in order what closes them. -/
def ClosesDependants (g : DependencyGraph) (c : Compilation)
    (n : DependencyId) :
    Option Location → Prop
  | none => closeCalls g n = []
  | some l => closeCalls g n ≠ [] ∧ ClosesInOrder c n (closeCalls g n) l

/-- That a location holds a close-dependants method. -/
def ClosesAt (c : Compilation) (l : Location) : Prop :=
  ∃ n, c.closing n = .done (some l)

/-- What holds while close-dependants methods are made for the nodes of
`g`. -/
structure Closing (g : DependencyGraph) (c : Compilation) : Prop where
  seated : Seated (ClosesAt c) c
  shape : g.SameShape c.graph
  answers : ∀ n found, c.closing n = .done found → ClosesDependants g c n found

-- ------------------------------------------------------------- what is kept

/-- What closes a node is there. -/
theorem Closing.has_of_closer? (h : Closing g c) (hl : closer? c n = some l) :
    c.sources.Has l := by
  unfold closer? at hl
  split at hl
  · cases hp : c.progress n .close with
    | done made =>
        rw [hp] at hl
        obtain rfl := Option.some.inj hl
        exact (h.seated.made n .close _ hp).1.1
    | notStarted | inProgress => rw [hp] at hl; cases hl
  · cases hp : c.closing n with
    | done found =>
        rw [hp] at hl
        obtain rfl : found = some l :=
          Option.join_eq_some_iff.1 hl |> Option.some.inj
        exact (h.answers n _ hp).2.bound.1
    | notStarted | inProgress => rw [hp] at hl; cases hl

theorem Closing.callOf?_keeps (h : Closing g c) (hk : Keeps K c c')
    (hs : callOf? c n d = some s) : callOf? c' n d = some s := by
  obtain ⟨l, hl, rfl⟩ := Option.map_eq_some_iff.1 hs
  unfold callOf?
  rw [hk.closer? hl, hk.accessBetween, Option.map_some,
    hk.sources.methodRef (h.has_of_closer? hl)]

/-- What a method calls stays so while the method and its calls stay. -/
theorem ClosesDependants.mono (h : ClosesDependants g c n found)
    (hnodes : SameNodes c c')
    (hnames : ∀ d, c'.sources.name d = c.sources.name d)
    (hb : ∀ l, found = some l → c.Bound l n .closeDependants →
      c'.Bound l n .closeDependants ∧ c'.sources.method l = c.sources.method l)
    (hcalls : ∀ d s, callOf? c n d = some s → callOf? c' n d = some s) :
    ClosesDependants g c' n found := by
  cases found with
  | none => exact h
  | some l =>
      obtain ⟨hne, hbound, hdecl, body, hmap, hmethod⟩ := h
      obtain ⟨hbound', hsame⟩ := hb l rfl hbound
      refine ⟨hne, hbound', hdecl.trans (hnodes.decl n).symm, body,
        hmap.trans ?_, ?_⟩
      · refine List.map_congr_left fun d hd => ?_
        have hmem : callOf? c n d ∈ body.map some := by
          rw [hmap]
          exact List.mem_map_of_mem hd
        obtain ⟨s, -, hs⟩ := List.mem_map.1 hmem
        rw [← hs, hcalls d s hs.symm]
      · rw [hsame, hmethod, hnodes.name, hnames]

/-- What is done already stays an answer, so only new ones need be looked
at. -/
theorem Closing.keeps (h : Closing g c) (hk : Keeps (ClosesAt c) c c')
    (hnew : ∀ n found, c'.closing n = .done found →
      c.closing n = .done found ∨ ClosesDependants g c' n found) :
    Closing g c' := by
  have hanswers : ∀ n found, c'.closing n = .done found →
      ClosesDependants g c' n found := by
    intro n found hn
    rcases hnew n found hn with hold | hans
    · refine (h.answers n found hold).mono hk.nodes hk.sources.name ?_
        fun d s => h.callOf?_keeps hk
      intro l hfound hb
      subst hfound
      exact ⟨hb.keeps hk, hk.sources.kept l ⟨n, hold⟩⟩
    · exact hans
  refine ⟨{ h.seated.keeps hk with bodies := ?_ },
    hk.sameShape h.shape, hanswers⟩
  intro l hl
  obtain ⟨n, hn⟩ := hl
  exact ⟨n, .closeDependants, (hanswers n _ hn).2.bound, rfl⟩

/-- Where no answer is added nothing need be looked at. -/
theorem Closing.unanswered (h : Closing g c) (hk : Keeps (ClosesAt c) c c')
    (hsame : c'.closing = c.closing) : Closing g c' :=
  h.keeps hk fun n _ hn => Or.inl (by rwa [← congrFun hsame n])

/-- What is kept in two steps, new methods included. -/
theorem keeps_trans {c₁ c₂ : Compilation} (h : Keeps (ClosesAt c) c c₁)
    (h' : Keeps (ClosesAt c₁) c₁ c₂) : Keeps (ClosesAt c) c c₂ :=
  h.trans (h'.weaken fun _ ⟨n, hn⟩ => ⟨n, h.closing_done hn⟩)

/-- The making of other members changes the progress of no close-dependants
method. -/
theorem stable_closing (closing : DependencyId → Progress (Option Location)) :
    Stable n fun c => c.closing = closing where
  stage _ f h := (funext (closing_mapStage f)).trans h
  bindings _ _ h := h
  append _ _ _ _ h := h
  implement _ _ _ _ h := h

/-- What is bound with another role is no close-dependants method. -/
theorem Closing.not_closesAt {r : Role} (h : Closing g c) (hb : c.Bound l d r)
    (hr : r ≠ .closeDependants) : ¬ ClosesAt c l := by
  intro hat
  obtain ⟨n, hn⟩ := hat
  exact hr (hb.unique (h.answers n _ hn).2.bound).2

/-- Making a close method on the way. -/
theorem close_closing (h : Closing g c) :
    Ensures (close d) c fun l c' =>
      Keeps (ClosesAt c) c c' ∧ Closing g c'
          ∧ c'.progress d .close = .done l := by
  have hK : ∀ l ∈ c.declared? d .close,
      (c.sources.method l).isAbstract = true →
      ¬ ClosesAt c l := fun l hl _ =>
    h.not_closesAt (bound_of_declared h.seated hl) (by decide)
  refine ((close_keeps h.seated hK).and
    ((stable_closing c.closing).close rfl)).mono ?_
  intro l c' hc
  obtain ⟨⟨hk, hl⟩, hsame⟩ := hc
  exact ⟨hk, h.unanswered hk hsame, hl⟩

-- ================================================================= dependants

/-- That what closes a node is settled: a stage has its close method, a method
group its answer. -/
def Answered (c : Compilation) (d : DependencyId) : Prop :=
  if (c.graph.get d).isStage then ∃ l, c.progress d .close = .done l
  else ∃ found, c.closing d = .done found

theorem Answered.keeps (h : Answered c d) (hk : Keeps K c c') :
    Answered c' d ∧ closer? c' d = closer? c d := by
  have hstage : (c'.graph.get d).isStage = (c.graph.get d).isStage :=
    (hk.sameShape ⟨rfl, rfl, fun _ => rfl⟩).isStage d
  unfold Answered closer? at *
  rw [hstage]
  split at h
  · rename_i hs
    obtain ⟨l, hl⟩ := h
    rw [if_pos hs, if_pos hs, if_pos hs, hl, hk.done hl]
    exact ⟨⟨l, rfl⟩, rfl⟩
  · rename_i hs
    obtain ⟨found, hf⟩ := h
    rw [if_neg hs, if_neg hs, if_neg hs, hf, hk.closing_done hf]
    exact ⟨⟨found, rfl⟩, rfl⟩

/-- Something closes a node exactly when a close-dependants method calls
it. -/
theorem Closing.closer?_isSome (h : Closing g c) (hd : Answered c d) :
    (closer? c d).isSome
      = ((g.get d).isStage || !(closeCalls g d).isEmpty) := by
  unfold Answered at hd
  unfold closer?
  rw [← h.shape.isStage]
  split at hd
  · rename_i hs
    obtain ⟨l, hl⟩ := hd
    rw [hs, if_pos rfl, hl]
    rfl
  · rename_i hs
    obtain ⟨found, hf⟩ := hd
    have hans := h.answers d found hf
    rw [if_neg hs, hf, Bool.not_eq_true] at *
    rw [hs, Bool.false_or]
    cases found with
    | none =>
        rw [show closeCalls g d = [] from hans]
        rfl
    | some l =>
        rw [List.isEmpty_eq_false_iff.2 hans.1]
        rfl

-- ---------------------------------------------------------------- one record

@[simp] theorem ensures_putClosing {Q : Unit → Compilation → Prop} :
    Ensures (modifyNode n fun d => { d with closeDependants := p }) c Q
      ↔ Q () (c.putClosing n p) :=
  ensures_modify

theorem callOf?_putClosing {m : DependencyId} (hn : n ∈ c.graph.ids)
    (hnew : (c.closing n).value? = none) (hs : callOf? c m d = some s) :
    callOf? (c.putClosing n p) m d = some s := by
  have hdecl : ∀ m, ((c.putClosing n p).graph.get m).decl
      = (c.graph.get m).decl := by
    intro m
    unfold Compilation.putClosing
    rw [DependencyGraph.get_modify hn]
    split
    · rename_i h
      rw [h]
    · rfl
  have haccess : (c.putClosing n p).accessBetween m d
      = c.accessBetween m d := by
    unfold Compilation.accessBetween compositionOf
    rw [hdecl, hdecl]
    rfl
  obtain ⟨l, hl, rfl⟩ := Option.map_eq_some_iff.1 hs
  refine Option.map_eq_some_iff.2 ⟨l, ?_, by rw [haccess]; rfl⟩
  unfold closer? DependencyNode.isStage at *
  rw [stage?_putClosing hn, progress_putClosing hn]
  split at hl
  · rename_i hstage
    rw [if_pos hstage, hl]
  · rename_i hstage
    have hd : d ≠ n := by
      intro he
      subst he
      rw [hnew] at hl
      cases hl
    rw [if_neg hstage, closing_putClosing_of_ne hn hd, hl]

/-- Recording an answer that is right, or none. -/
theorem Closing.putClosing (h : Closing g c) (hn : n ∈ c.graph.ids)
    (hnew : (c.closing n).value? = none) (hw : Seated K (c.putClosing n p))
    (hans : ∀ found, p = .done found → ClosesDependants g c n found) :
    Closing g (c.putClosing n p) := by
  have hanswers : ∀ m found, (c.putClosing n p).closing m = .done found →
      ClosesDependants g (c.putClosing n p) m found := by
    intro m found hm
    have hold : ClosesDependants g c m found := by
      by_cases hmn : m = n
      · subst hmn
        rw [closing_putClosing_self hn] at hm
        exact hans found hm
      · rw [closing_putClosing_of_ne hn hmn] at hm
        exact h.answers m found hm
    exact hold.mono (sameNodes_putClosing hn) (fun _ => rfl)
      (fun _ _ hb => ⟨hb, rfl⟩)
      fun _ _ => callOf?_putClosing hn hnew
  refine ⟨{ hw with bodies := ?_ }, ?_, hanswers⟩
  · intro l hl
    obtain ⟨m, hm⟩ := hl
    exact ⟨m, .closeDependants, (hanswers m _ hm).2.bound, rfl⟩
  · refine ⟨h.shape.edges, (List.length_modify ..).trans h.shape.length,
      fun m => ?_⟩
    unfold DependencyNode.isStage
    rw [stage?_putClosing hn]
    exact h.shape.isStage m

-- ================================================================= the making

/-- That the making of a close-dependants method, run on `c`, leaves an
answer for the node. -/
def Answers (g : DependencyGraph) (n : DependencyId)
    (x : Step (Option Location)) (c : Compilation) : Prop :=
  Ensures x c fun found c' =>
    Keeps (ClosesAt c) c c' ∧ Closing g c' ∧ c'.closing n = .done found

/-- What closes one dependant. -/
theorem closer_ensures {fuel : Nat} (h : Closing g c)
    (hwithin : Answers g d (closeDependantsWithin fuel d) c) :
    Ensures (if (c.graph.get d).isStage then some <$> close d
      else closeDependantsWithin fuel d) c fun found c' =>
        Keeps (ClosesAt c) c c' ∧ Closing g c' ∧ Answered c' d
            ∧ closer? c' d = found := by
  have hstage : ∀ {c'}, Closing g c' →
      (c'.graph.get d).isStage = (c.graph.get d).isStage :=
    fun h' => (h'.shape.isStage d).trans (h.shape.isStage d).symm
  split
  · rename_i hs
    rw [ensures_map]
    refine (close_closing h).mono fun l c' ⟨hk, h', hl⟩ => ⟨hk, h', ?_⟩
    unfold Answered closer?
    rw [hstage h', if_pos hs, if_pos hs, hl]
    exact ⟨⟨l, rfl⟩, rfl⟩
  · rename_i hs
    refine hwithin.mono fun found c' ⟨hk, h', hf⟩ => ⟨hk, h', ?_⟩
    unfold Answered closer?
    rw [hstage h', if_neg hs, if_neg hs, hf]
    exact ⟨⟨found, rfl⟩, Option.join_some⟩

theorem map_fst_filterMap {α β : Type} (f : α → Option β) (as : List α) :
    (as.filterMap fun a => (f a).map (a, ·)).map Prod.fst = as.filter fun a =>
      (f a).isSome := by
  induction as with
  | nil => rfl
  | cons a as ih =>
      rw [List.filterMap_cons, List.filter_cons]
      cases f a with
      | none => exact ih
      | some b => exact congrArg (a :: ·) ih

theorem mem_ids_of_mem_sortedDependants {g : DependencyGraph}
    (hd : d ∈ g.sortedDependants n) : d ∈ g.ids := by
  have hdependant := (List.mem_filter.1 hd).2
  exact DependencyGraph.mem_ids_of_mem_dependants
    (List.contains_iff_mem.1 hdependant)

/-- To go through dependants, by what closes each of them. -/
theorem ensures_closes {fuel : Nat} {ds : List DependencyId}
    {I : List DependencyId → List (DependencyId
      × Location) → Compilation → Prop}
    (hcloser : ∀ done, ∀ d ∈ ds, ∀ closes c, I done closes c →
      Ensures (if (c.graph.get d).isStage then some <$> close d
        else closeDependantsWithin fuel d) c fun found c' =>
          I (done ++ [d]) (closes ++ found.toList.map (d, ·)) c')
            (h : I [] [] c) :
    Ensures (ds.foldlM (fun closes d => do
      let close ←
        if ((← get).graph.get d).isStage then some <$> close d
        else closeDependantsWithin fuel d
      return closes ++ close.toList.map (d, ·)) []) c fun closes c' =>
          I ds closes c' := by
  refine ensures_foldlM (I := I) (fun done d hd closes c₁ h₁ => ?_) h
  have hfound := hcloser done d hd closes c₁ h₁
  rw [ensures_bind, ensures_get]
  split
  · rename_i hs
    rw [if_pos hs] at hfound
    exact ensures_bind.2 (hfound.mono fun _ _ h₂ => ensures_pure.2 h₂)
  · rename_i hs
    rw [if_neg hs] at hfound
    exact ensures_bind.2 (hfound.mono fun _ _ h₂ => ensures_pure.2 h₂)

/-- All that closes the dependants of a node, in the order of its calls. -/
theorem closes_ensures {fuel : Nat} (hg : g.Acyclic) (hn : n ∈ g.ids)
    (h : Closing g c) (hwithin : ∀ d ∈ g.dependants n, ∀ c, Closing g c →
      Answers g d (closeDependantsWithin fuel d) c) :
    Ensures ((g.sortedDependants n).foldlM (fun closes d => do
      let close ←
        if ((← get).graph.get d).isStage then some <$> close d
        else closeDependantsWithin fuel d
      return closes ++ close.toList.map (d, ·)) []) c fun closes c' =>
        Keeps (ClosesAt c) c c' ∧ Closing g c'
          ∧ closes.map Prod.fst = closeCalls g n
          ∧ ∀ p ∈ closes, closer? c' p.1 = some p.2 := by
  refine (ensures_closes (I := fun done closes c' => Keeps (ClosesAt c) c c'
    ∧ Closing g c'
    ∧ (∀ d ∈ done, Answered c' d)
    ∧ closes = done.filterMap fun d => (closer? c' d).map (d, ·)) ?_ ?_).mono
    ?_
  · intro done d hd closes c₁ hI
    obtain ⟨hk, h₁, hdone, rfl⟩ := hI
    have hdn : d ∈ g.dependants n :=
      (DependencyGraph.mem_sortedDependants hg hn).1 hd
    refine (closer_ensures h₁ (hwithin d hdn c₁ h₁)).mono fun found c₂ hc => ?_
    obtain ⟨hk', h₂, hd, rfl⟩ := hc
    refine ⟨keeps_trans hk hk', h₂, ?_, ?_⟩
    · refine List.forall_mem_append.2
        ⟨fun e he => ((hdone e he).keeps hk').1, ?_⟩
      exact List.forall_mem_singleton.2 hd
    · have hsame : done.filterMap (fun e => (closer? c₂ e).map (e, ·))
          = done.filterMap fun e => (closer? c₁ e).map (e, ·) :=
        List.filterMap_congr fun e he => by rw [((hdone e he).keeps hk').2]
      rw [List.filterMap_append, hsame]
      cases hd : closer? c₂ d <;> simp [hd]
  · exact ⟨.refl _ c, h, nofun, rfl⟩
  · intro closes c' hI
    obtain ⟨hk, h', hdone, rfl⟩ := hI
    refine ⟨hk, h', ?_, ?_⟩
    · rw [map_fst_filterMap, closeCalls_eq hg hn]
      exact List.filter_congr fun d hd => h'.closer?_isSome (hdone d hd)
    · intro p hp
      obtain ⟨d, -, hd⟩ := List.mem_filterMap.1 hp
      obtain ⟨l, hl, rfl⟩ := Option.map_eq_some_iff.1 hd
      exact hl

theorem closeCall_ensures :
    Ensures (closeCall n d l) c fun s c' =>
      s = .expr (.call (some (c.accessBetween n d))
        (c.sources.methodRef l) []) ∧ c' = c := by
  unfold closeCall
  simp only [ensures_bind, ensures_get, ensures_pure, and_self]

theorem addMethod_graph {m : Method} {r : Role} :
    Ensures (addMethod n m r) c fun _ c' => c'.graph = c.graph := by
  unfold addMethod
  simp only [ensures_bind, ensures_get, ensures_modifySources, ensures_pure]
  exact ensures_bindMethod.2 fun _ _ => rfl

theorem addMethod_closing {m : Method} {r : Role} :
    Ensures (addMethod n m r) c fun _ c' => c'.closing = c.closing := by
  refine addMethod_graph.mono fun _ c' hgraph => ?_
  unfold closing
  rw [hgraph]

/-- Appending the method that makes the calls. -/
theorem addCloseDependants_ensures {closes : List (DependencyId × Location)}
    {name : String}
    (h : Closing g c) (hn : n ∈ c.graph.ids) (hp : c.closing n = .inProgress)
    (hfst : closes.map Prod.fst = closeCalls g n)
    (hclosers : ∀ p ∈ closes, closer? c p.1 = some p.2)
    (hne : ¬ closes.isEmpty = true)
    (hname : c.graph.name n = name) :
    Ensures (addMethod n (procedure (Convention.closeDependantsName name) .void
      (closes.map fun p => .expr (.call (some (c.accessBetween n p.1))
        (c.sources.methodRef p.2) []))) .closeDependants) c fun l c' =>
          Keeps (ClosesAt c) c c' ∧ Closing g c' ∧ c'.closing n = .inProgress
            ∧ ClosesDependants g c' n (some l) := by
  refine ((addMethod_keeps h.seated hn rfl (by decide)).and
    ((addMethod_method h.seated hn).and addMethod_closing)).mono ?_
  intro l c' hc
  obtain ⟨⟨hk, hbound⟩, ⟨hdecl, hmethod⟩, hsame⟩ := hc
  rw [← hname, ← hk.nodes.name, ← hk.sources.name] at hmethod
  refine ⟨hk, h.unanswered hk hsame, (congrFun hsame n).trans hp, ?_, hbound,
    hdecl.trans (hk.nodes.decl n).symm, _, ?_, hmethod⟩
  · rw [← hfst]
    simpa using hne
  · rw [← hfst, List.map_map, List.map_map]
    refine List.map_congr_left fun p hp => (h.callOf?_keeps hk ?_).symm
    unfold callOf?
    rw [hclosers p hp]
    rfl

/-- The end of the making, which was in progress all the time. -/
theorem finish_closing (h₀ : Closing g c) (h : Closing g c')
    (hk : Keeps (ClosesAt c) c c')
    (hn : n ∈ c.graph.ids) (hnew : c.closing n = .notStarted)
    (hp : c'.closing n = .inProgress) (hans : ClosesDependants g c' n found) :
    Keeps (ClosesAt c) c (c'.putClosing n (.done found))
      ∧ Closing g (c'.putClosing n (.done found))
      ∧ (c'.putClosing n (.done found)).closing n = .done found := by
  have hn' : n ∈ c'.graph.ids := hk.mem_ids.2 hn
  have hkeeps : Keeps (ClosesAt c) c (c'.putClosing n (.done found)) :=
    hk.putClosing hn hnew
  have hw : Seated (ClosesAt c) (c'.putClosing n (.done found)) :=
    h₀.seated.keeps hkeeps
  refine ⟨hkeeps, h.putClosing hn' (by rw [hp]; rfl) hw ?_,
    closing_putClosing_self hn'⟩
  intro found' he
  obtain rfl := Progress.done.inj he
  exact hans

/-- The making of a close-dependants method: it is there, or what closes the
dependants is found, and a method that calls it appended if that is
anything. -/
theorem ensures_closeDependantsWithin {fuel : Nat}
    {Q : Option Location → Compilation → Prop}
    (hdone : ∀ found, c.closing n = .done found → Q found c)
    (hmake : c.closing n = .notStarted →
      Ensures (((c.putClosing n .inProgress).graph.sortedDependants n).foldlM
        (fun closes d => do
          let close ←
            if ((← get).graph.get d).isStage then some <$> close d
            else closeDependantsWithin fuel d
          return closes ++ close.toList.map (d, ·)) [])
            (c.putClosing n .inProgress)
        fun closes c₁ => if closes.isEmpty then Q none
          (c₁.putClosing n (.done none))
          else Ensures
          (addMethod n
            (procedure (Convention.closeDependantsName (c.graph.name n))
              .void (closes.map fun p => .expr
                (.call (some (c₁.accessBetween n p.1))
                  (c₁.sources.methodRef p.2) []))) .closeDependants) c₁
                fun l c₂ => Q (some l) (c₂.putClosing n (.done (some l)))) :
    Ensures (closeDependantsWithin (fuel + 1) n) c Q := by
  unfold closeDependantsWithin
  simp only [ensures_bind, ensures_get, ensures_ofExcept, ensures_putClosing]
  intro q hstart
  obtain ⟨found, p⟩ := q
  change (c.closing n).start _ _ = _ at hstart
  rcases Progress.start_eq_ok_iff.1 hstart with ⟨answer, hp, rfl, rfl⟩
    | ⟨hp, rfl, rfl⟩
  · rw [← hp, putClosing_closing]
    exact ensures_pure.2 (hdone answer hp)
  · simp only [ensures_bind, ensures_get]
    refine (hmake hp).mono fun closes c₁ hc₁ => ?_
    split at hc₁
    · rename_i hempty
      rw [if_pos hempty]
      simp only [ensures_bind, ensures_pure, ensures_putClosing]
      exact hc₁
    · rename_i hne
      rw [if_neg hne, ensures_bind]
      refine (ensures_mapM_of_unchanged fun p _ => closeCall_ensures).mono ?_
      rintro _ _ ⟨rfl, rfl⟩
      rw [ensures_bind, ensures_map]
      refine hc₁.mono fun l c₂ hc₂ => ?_
      simp only [ensures_bind, ensures_pure, ensures_putClosing]
      exact hc₂

/-- What is made for a node calls what `closeCalls` lists, unless it is made
already. -/
theorem closeDependantsWithin_answers (hg : g.Acyclic) :
    ∀ {fuel : Nat} {n : DependencyId}
    {c : Compilation}, n ∈ g.ids →
    g.nodes.length ≤ fuel + g.topologicalOrder.idxOf n →
      Closing g c → Answers g n (closeDependantsWithin fuel n) c := by
  intro fuel
  induction fuel with
  | zero =>
      intro n c hn hfuel
      have := DependencyGraph.idxOf_topologicalOrder_lt_length hg hn
      omega
  | succ fuel ih =>
      intro n c hn hfuel h
      have hids : n ∈ c.graph.ids := h.shape.links.ids ▸ hn
      have hwithin : ∀ d ∈ g.dependants n, ∀ c, Closing g c →
          Answers g d (closeDependantsWithin fuel d) c := by
        intro d hd c h
        have hlt := DependencyGraph.idxOf_topologicalOrder_lt hg
          (.single (DependencyGraph.depends_iff_mem_dependants.2 ⟨hn, hd⟩))
        exact ih (DependencyGraph.mem_ids_of_mem_dependants hd) (by omega) h
      refine ensures_closeDependantsWithin (fun found hp => ⟨.refl _ c, h, hp⟩)
        fun hp => ?_
      have hk₁ : Keeps (ClosesAt c) c (c.putClosing n .inProgress) :=
        (Keeps.refl _ c).putClosing hids hp
      have h₁ : Closing g (c.putClosing n .inProgress) :=
        h.putClosing hids (by rw [hp]; rfl) (h.seated.keeps hk₁) nofun
      have hp₁ : (c.putClosing n .inProgress).closing n = .inProgress :=
        closing_putClosing_self hids
      rw [h₁.shape.links.sortedDependants]
      refine (closes_ensures hg hn h₁ hwithin).mono fun closes c₂ hc => ?_
      obtain ⟨hk₂, h₂, hfst, hclosers⟩ := hc
      have hk : Keeps (ClosesAt c) c c₂ := keeps_trans hk₁ hk₂
      have hp₂ : c₂.closing n = .inProgress := hk₂.closing_inProgress hp₁
      split
      · rename_i hempty
        refine finish_closing h h₂ hk hids hp hp₂ ?_
        show closeCalls g n = []
        rw [← hfst, List.isEmpty_iff.1 hempty]
        rfl
      · rename_i hne
        refine (addCloseDependants_ensures h₂ (h₂.shape.links.ids ▸ hn) hp₂
          hfst hclosers hne (hk.nodes.name n)).mono ?_
        intro l c₃ hc
        obtain ⟨hk₃, h₃, hp₃, hans⟩ := hc
        exact finish_closing h h₃ (keeps_trans hk hk₃) hids hp hp₃ hans

/-- A request for the close-dependants method of a node yields one that
calls what `closeCalls` lists, in that order, or none if it lists
nothing. So do all requests that follow. -/
theorem closeDependants_closes (hg : c.graph.Acyclic) (hn : n ∈ c.graph.ids)
    (h : Closing c.graph c) :
    Ensures (closeDependants n) c fun found c' =>
      Closing c.graph c' ∧ ClosesDependants c.graph c' n found := by
  unfold closeDependants
  rw [ensures_bind, ensures_get]
  refine (closeDependantsWithin_answers hg hn (by omega) h).mono
    fun found c' hc' => ?_
  exact ⟨hc'.2.1, hc'.2.1.answers n found hc'.2.2⟩

end Lifecycle

end Stagewise
