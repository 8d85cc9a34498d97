/-
The requests for members, and that each of them comes to an end.

# The statement

A request goes on to other requests at one place only: the method that
closes the dependants of a node asks for those of its dependants, which
it finds by a search of the graph. `runTo` is a request whose search and
whose recursion are left to something else below a depth. Whatever that
is, it is never come to if the depth exceeds the number of nodes
(`Request.Terminates`): the request is over before, circles or not.

# The argument

A method that is asked for is in progress, or done, until the end of all
requests, so a node is gone into at most once. The nodes gone into are
distinct, which bounds the depth.
-/
import Stagewise.Proofs.DepthFirst
import Stagewise.Proofs.Lifecycle.Dependants

namespace Stagewise

namespace Step

variable {α β : Type} {c : Compilation} {x y : Step α}

-- ============================================================ runs that agree

/-- Two sequences agree if their first parts do, and their second parts
from there. -/
theorem runOn_bind_congr {f g : α → Step β} (hx : x.runOn c = y.runOn c)
    (hf : Ensures y c fun a c' => (f a).runOn c' = (g a).runOn c') :
    (x >>= f).runOn c = (y >>= g).runOn c := by
  rw [runOn_bind, runOn_bind, hx]
  split
  · rename_i a c' hy
    exact hf a c' hy
  · rfl

/-- Two loops agree if their turns do, wherever the loop comes. -/
theorem runOn_foldlM_congr {f g : β → α → Step β} {as : List α} {b : β}
    {I : Compilation → Prop} (hturn : ∀ a ∈ as, ∀ b c, I c →
      (f b a).runOn c = (g b a).runOn c ∧ Ensures (g b a) c fun _ c' => I c')
    (h : I c) :
    (as.foldlM f b).runOn c = (as.foldlM g b).runOn c := by
  induction as generalizing b c with
  | nil => rfl
  | cons a as ih =>
      obtain ⟨hsame, hkeeps⟩ := hturn a List.mem_cons_self b c h
      rw [List.foldlM_cons, List.foldlM_cons]
      refine runOn_bind_congr hsame (hkeeps.mono fun b' c' h' => ?_)
      exact ih (fun a ha => hturn a (List.mem_cons_of_mem _ ha)) h'

end Step

/-- Recording something of a node that is not there changes nothing. -/
theorem Compilation.putClosing_of_not_mem {c : Compilation} {n : DependencyId}
    {p : Progress (Option Location)} (hn : n ∉ c.graph.ids) :
    c.putClosing n p = c := by
  have hout : c.graph.nodes.length ≤ n.index :=
    Nat.le_of_not_lt fun hlt => hn (DependencyGraph.mem_ids.2 hlt)
  unfold putClosing DependencyGraph.modify
  rw [List.modify_eq_self hout]

namespace Lifecycle

open Compilation Step

-- =============================================================== the requests

/-- A request for members of a node. -/
inductive Request where
  | predicate (n : DependencyId)
  | close (n : DependencyId)
  | doClose (n : DependencyId)
  | closeOf (n : DependencyId)
  | closeDependants (n : DependencyId)
  | accessor (n : DependencyId) (field : Identity)
  | guarded (n : DependencyId) (method : Identity)
  | prepare (n : DependencyId)
  deriving DecidableEq, Repr

def Request.node : Request → DependencyId
  | .predicate n | .close n | .doClose n | .closeOf n | .closeDependants n => n
  | .accessor n _ | .guarded n _ | .prepare n => n

/-- What a request does, whatever its answer is. -/
def Request.run : Request → Step Unit
  | .predicate n => do let _ ← Lifecycle.predicate n
  | .close n => do let _ ← Lifecycle.close n
  | .doClose n => do let _ ← Lifecycle.doClose n
  | .closeOf n => do let _ ← Lifecycle.closeOf n
  | .closeDependants n => do let _ ← Lifecycle.closeDependants n
  | .accessor n field => do let _ ← Lifecycle.accessor n field
  | .guarded n method => do let _ ← Lifecycle.guarded n method
  | .prepare n => Lifecycle.prepare n

-- ----------------------------------------------------------- down to a depth

/-- The direct dependants of a node by a search that `beyond` goes on with
below a depth. -/
def sortedDependantsTo
    (beyond : DepthFirst.Trail DependencyId → DependencyId →
      DepthFirst.Trail DependencyId)
    (depth : Nat) (g : DependencyGraph) (n : DependencyId) :
    List DependencyId :=
  ([n].foldl (DepthFirst.searchTo g.dependants beyond depth) {}).order.filter
    (g.dependants n).contains

/-- What closes some nodes, by `rest` for those that are method groups. -/
def closesBy (rest : DependencyId → Step (Option Location))
    (ds : List DependencyId) :
    Step (List (DependencyId × Location)) :=
  ds.foldlM (fun closes d => do
    let close ←
      if ((← get).graph.get d).isStage then some <$> close d
      else rest d
    return closes ++ close.toList.map (d, ·)) []

/-- The close-dependants method of a node, with its dependants in the order
that `sorted` gives, and by `rest` what closes those that are method
groups. -/
def closeDependantsBy (sorted : DependencyGraph → DependencyId →
    List DependencyId)
    (rest : DependencyId → Step (Option Location)) (n : DependencyId) :
    Step (Option Location) := do
  let name := (← get).graph.name n
  let (finished, p) ← ofExcept
    (((← get).graph.get n).closeDependants.start name "closeDependants")
  modifyNode n fun d => { d with closeDependants := p }
  match finished with
  | some l => return l
  | none =>
      let closes ← closesBy rest (sorted (← get).graph n)
      let l ←
        if closes.isEmpty then pure none
        else do
          let body ← closes.mapM fun (d, close) => closeCall n d close
          some <$> addMethod n
            (procedure (Convention.closeDependantsName name) .void body)
            .closeDependants
      modifyNode n fun d => { d with closeDependants := .done l }
      return l

theorem closeDependantsWithin_succ (fuel : Nat) (n : DependencyId) :
    closeDependantsWithin (fuel + 1) n
      = closeDependantsBy DependencyGraph.sortedDependants
        (closeDependantsWithin fuel) n :=
  rfl

/-- What goes on below a depth. -/
structure Beyond where
  search : DepthFirst.Trail DependencyId → DependencyId →
    DepthFirst.Trail DependencyId
  closing : DependencyId → Step (Option Location)

/-- The close-dependants method of a node, `left` requests deep and with
searches of the given depth. -/
def closeDependantsTo (beyond : Beyond) (depth : Nat) :
    Nat → DependencyId → Step (Option Location)
  | 0 => beyond.closing
  | left + 1 =>
      closeDependantsBy (sortedDependantsTo beyond.search depth)
        (closeDependantsTo beyond depth left)

/-- `prepare`, with the close-dependants methods that `closing` makes. -/
def prepareBy (closing : DependencyId → Step (Option Location))
    (n : DependencyId) :
    Step Unit := do
  if !((← get).graph.get n).isStage then
    let _ ← closing n
  else
    let predicate ← predicate n
    let dependants ← closing n
    let close ← close n
    let doClose ← doClose n
    match dependants with
    | some dependants =>
        (← stage n).initMethods.forM
          (closeDependantsAfterInit n predicate dependants)
        let closeCall ← call dependants
        modifyBody close (.expr closeCall :: ·)
    | none => pure ()
    let leave : Stmt := .when (.unary .not (← call predicate)) (.ret none)
    modifyBody close (leave :: ·)
    modifyBody doClose (leave :: ·)
    ((← stage n).fields.filter StageField.forcesAccessor).forM fun f => do
      let _ ← accessor n f.id

theorem prepare_eq (n : DependencyId) :
    prepare n = prepareBy closeDependants n := rfl

/-- `closeOf`, with the close-dependants methods that `closing` makes. -/
def closeOfBy (closing : DependencyId → Step (Option Location))
    (n : DependencyId) :
    Step (Option Location) := do
  if ((← get).graph.get n).isStage then some <$> close n else closing n

theorem closeOf_eq (n : DependencyId) :
    closeOf n = closeOfBy closeDependants n := rfl

/-- A request whose search and recursion something else goes on with below
a depth. -/
def Request.runTo (beyond : Beyond) (depth : Nat) : Request → Step Unit
  | .closeOf n => do let _ ← closeOfBy (closeDependantsTo beyond depth depth) n
  | .closeDependants n => do let _ ← closeDependantsTo beyond depth depth n
  | .prepare n => prepareBy (closeDependantsTo beyond depth depth) n
  | r => r.run

/-- That a request is over before it comes below any depth that exceeds the
number of nodes. -/
def Request.Terminates (r : Request) (c : Compilation) : Prop :=
  ∀ beyond depth, c.graph.nodes.length < depth →
    (r.runTo beyond depth).runOn c = r.run.runOn c

-- ============================================================== the recursion

variable {c c' : Compilation} {n m : DependencyId}
variable {p : Progress (Option Location)}
variable {sorted sorted' : DependencyGraph → DependencyId → List DependencyId}
variable {rest rest' : DependencyId → Step (Option Location)}

/-- What a compilation has at a later time: its nodes, and no method that was
asked for is as if it were not. -/
structure Ahead (c c' : Compilation) : Prop where
  length : c'.graph.nodes.length = c.graph.nodes.length
  asked : ∀ m, c.closing m ≠ .notStarted → c'.closing m ≠ .notStarted

namespace Ahead

theorem refl (c : Compilation) : Ahead c c := ⟨rfl, fun _ h => h⟩

theorem trans {c₁ : Compilation} (h : Ahead c c₁) (h' : Ahead c₁ c') :
    Ahead c c' :=
  ⟨h'.length.trans h.length, fun m hm => h'.asked m (h.asked m hm)⟩

theorem mem_ids (h : Ahead c c') : m ∈ c'.graph.ids ↔ m ∈ c.graph.ids := by
  rw [DependencyGraph.mem_ids, h.length, DependencyGraph.mem_ids]

/-- The making of other members takes nothing back. -/
theorem stable (c : Compilation) (n : DependencyId) : Stable n (Ahead c) where
  stage _ f h := by
    refine ⟨(DependencyGraph.length_modify _).trans h.length, fun m hm => ?_⟩
    rw [closing_mapStage]
    exact h.asked m hm
  bindings _ _ h := ⟨h.length, h.asked⟩
  append _ _ _ _ h := ⟨h.length, h.asked⟩
  implement _ _ _ _ h := ⟨h.length, h.asked⟩

/-- Recording that a method is asked for, or done. -/
theorem putClosing (h : Ahead c c') (hp : p ≠ .notStarted) :
    Ahead c (c'.putClosing n p) := by
  refine ⟨(List.length_modify ..).trans h.length, fun m hm => ?_⟩
  by_cases hn : n ∈ c'.graph.ids
  · by_cases he : m = n
    · rwa [he, closing_putClosing_self hn]
    · rw [closing_putClosing_of_ne hn he]
      exact h.asked m hm
  · rw [putClosing_of_not_mem hn]
    exact h.asked m hm

end Ahead

theorem addMethod_ahead {method : Method} {r : Role} :
    Ensures (addMethod n method r) c fun _ c' => Ahead c c' := by
  unfold addMethod
  simp only [ensures_bind, ensures_get, ensures_modifySources,
    ensures_bindMethod, ensures_pure]
  exact fun _ _ => ⟨rfl, fun _ h => h⟩

/-- A request for a close-dependants method takes nothing back. -/
theorem closeDependantsWithin_ahead (fuel : Nat) (n : DependencyId)
    (c : Compilation) :
    Ensures (closeDependantsWithin fuel n) c fun _ c' => Ahead c c' := by
  induction fuel generalizing n c with
  | zero => exact ensures_pure.2 (Ahead.refl c)
  | succ fuel ih =>
      refine ensures_closeDependantsWithin (fun _ _ => Ahead.refl c) fun _ =>
        ?_
      have hstart : Ahead c (c.putClosing n .inProgress) :=
        (Ahead.refl c).putClosing nofun
      refine (ensures_closes (I := fun _ _ => Ahead c) ?_ hstart).mono
        fun closes c₁ h₁ => ?_
      · intro _ d _ _ c₁ h₁
        split
        · rw [ensures_map]
          exact (Ahead.stable c d).close h₁
        · exact (ih d c₁).mono fun _ _ h => h₁.trans h
      · split
        · exact h₁.putClosing nofun
        · exact addMethod_ahead.mono fun l c₂ h₂ =>
            (h₁.trans h₂).putClosing nofun

/-- What closes the dependants of a node is found alike if the ways to find
it agree. -/
theorem closeDependantsBy_congr (h : c.closing n = .notStarted →
    (closesBy rest (sorted (c.putClosing n .inProgress).graph n)).runOn
        (c.putClosing n .inProgress)
      = (closesBy rest' (sorted' (c.putClosing n .inProgress).graph n)).runOn
        (c.putClosing n .inProgress)) :
    (closeDependantsBy sorted rest n).runOn c
    = (closeDependantsBy sorted' rest' n).runOn c := by
  unfold closeDependantsBy
  refine runOn_bind_congr rfl (ensures_get.2 ?_)
  refine runOn_bind_congr rfl (ensures_get.2 ?_)
  refine runOn_bind_congr rfl (ensures_ofExcept.2 ?_)
  rintro ⟨found, p⟩ hstart
  change (c.closing n).start _ _ = _ at hstart
  refine runOn_bind_congr rfl (ensures_putClosing.2 ?_)
  cases found with
  | some l => rfl
  | none =>
      have hnew : c.closing n = .notStarted ∧ p = .inProgress := by
        cases hp : c.closing n <;> rw [hp] at hstart
          <;> simp_all [Progress.start]
      obtain ⟨hnew, rfl⟩ := hnew
      refine runOn_bind_congr rfl (ensures_get.2 ?_)
      exact runOn_bind_congr (h hnew) fun _ _ _ => rfl

/-- The search for the dependants of a node does not come below a depth that
exceeds the number of nodes. -/
theorem sortedDependantsTo_eq {g : DependencyGraph} {depth : Nat}
    (beyond : DepthFirst.Trail DependencyId → DependencyId →
      DepthFirst.Trail DependencyId)
    (hn : n ∈ g.ids) (hdepth : g.nodes.length < depth) :
    sortedDependantsTo beyond depth g n = g.sortedDependants n := by
  have hall : ∀ m ∈ g.ids, g.dependants m ⊆ g.ids := fun _ _ _ hb =>
    DependencyGraph.mem_ids_of_mem_dependants hb
  have hstarts : [n] ⊆ g.ids := List.cons_subset.2 ⟨hn, List.nil_subset _⟩
  have hfound :=
    DepthFirst.foldl_searchTo hall hstarts beyond (g.length_ids ▸ hdepth)
  rw [DependencyGraph.length_ids] at hfound
  exact congrArg (List.filter (g.dependants n).contains) hfound

/-- The recursion does not come below a depth that leaves room for the nodes
that no method was asked for yet. `busy` are nodes whose methods were. -/
theorem closeDependantsTo_eq (beyond : Beyond) {depth left fuel : Nat}
    {busy : List DependencyId} (hn : n ∈ c.graph.ids)
    (hdepth : c.graph.nodes.length < depth) (hnodup : busy.Nodup)
    (hbusy : ∀ m ∈ busy, m ∈ c.graph.ids ∧ c.closing m ≠ .notStarted)
    (hleft : c.graph.nodes.length < left + busy.length)
    (hfuel : c.graph.nodes.length < fuel + busy.length) :
    (closeDependantsTo beyond depth left n).runOn c
      = (closeDependantsWithin fuel n).runOn c := by
  have hroom := DependencyGraph.length_le_of_nodup hnodup fun m hm =>
    (hbusy m hm).1
  induction left generalizing n c fuel busy with
  | zero => omega
  | succ left ih =>
      obtain - | fuel := fuel
      · omega
      rw [closeDependantsWithin_succ]
      refine closeDependantsBy_congr fun hnew => ?_
      have hstart : Ahead c (c.putClosing n .inProgress) :=
        (Ahead.refl c).putClosing nofun
      generalize hc₁ : c.putClosing n .inProgress = c₁ at *
      have hn₁ : n ∈ c₁.graph.ids := hstart.mem_ids.2 hn
      rw [sortedDependantsTo_eq beyond.search hn₁ (hstart.length ▸ hdepth)]
      -- the node itself is asked for now, and stays so in all turns
      have hbusy₁ : ∀ m ∈ n :: busy, m ∈ c₁.graph.ids
          ∧ c₁.closing m ≠ .notStarted := by
        intro m hm
        rcases List.mem_cons.1 hm with rfl | hm
        · refine ⟨hn₁, ?_⟩
          rw [← hc₁, closing_putClosing_self hn]
          nofun
        · exact ⟨hstart.mem_ids.2 (hbusy m hm).1,
            hstart.asked m (hbusy m hm).2⟩
      have hnodup₁ : (n :: busy).Nodup :=
        List.nodup_cons.2 ⟨fun hm => (hbusy n hm).2 hnew, hnodup⟩
      refine runOn_foldlM_congr (I := Ahead c₁) (fun d hd _ c₂ h₂ => ⟨?_, ?_⟩)
        (Ahead.refl c₁)
      · refine runOn_bind_congr rfl (ensures_get.2 ?_)
        split
        · rfl
        · refine runOn_bind_congr ?_ fun _ _ _ => rfl
          have hlength : c₂.graph.nodes.length = c.graph.nodes.length :=
            h₂.length.trans hstart.length
          have hbusy₂ : ∀ m ∈ n :: busy, m ∈ c₂.graph.ids
              ∧ c₂.closing m ≠ .notStarted :=
            fun m hm => ⟨h₂.mem_ids.2 (hbusy₁ m hm).1,
              h₂.asked m (hbusy₁ m hm).2⟩
          exact ih (h₂.mem_ids.2 (mem_ids_of_mem_sortedDependants hd))
            (by omega) hnodup₁ hbusy₂ (by rw [List.length_cons]; omega)
            (by rw [List.length_cons]; omega)
            (DependencyGraph.length_le_of_nodup hnodup₁ fun m hm =>
              (hbusy₂ m hm).1)
      · rw [ensures_bind, ensures_get]
        split
        · rw [ensures_bind, ensures_map]
          exact ((Ahead.stable c₁ d).close h₂).mono fun _ _ h =>
            ensures_pure.2 h
        · rw [ensures_bind]
          exact (closeDependantsWithin_ahead fuel d c₂).mono fun _ _ h =>
            ensures_pure.2 (h₂.trans h)

-- ========================================================= every request ends

theorem closeDependantsTo_eq_closeDependants (beyond : Beyond) {depth : Nat}
    (hn : n ∈ c.graph.ids) (hdepth : c.graph.nodes.length < depth) :
    (closeDependantsTo beyond depth depth n).runOn c
    = (closeDependants n).runOn c := by
  unfold closeDependants
  rw [runOn_bind, runOn_get]
  exact closeDependantsTo_eq beyond hn hdepth List.nodup_nil nofun
    (by rw [List.length_nil]; omega) (by rw [List.length_nil]; omega)

/-- Every request comes to an end, on every graph. -/
theorem Request.terminates (r : Request) (hr : r.node ∈ c.graph.ids) :
    r.Terminates c := by
  intro beyond depth hdepth
  cases r with
  | predicate | close | doClose | accessor | guarded => rfl
  | closeOf n =>
      refine runOn_bind_congr ?_ fun _ _ _ => rfl
      show (closeOfBy _ n).runOn c
        = (closeOfBy Lifecycle.closeDependants n).runOn c
      refine runOn_bind_congr rfl (ensures_get.2 ?_)
      split
      · rfl
      · exact closeDependantsTo_eq_closeDependants beyond hr hdepth
  | closeDependants n =>
      exact runOn_bind_congr
        (closeDependantsTo_eq_closeDependants beyond hr hdepth)
        fun _ _ _ => rfl
  | prepare n =>
      show (prepareBy _ n).runOn c
        = (prepareBy Lifecycle.closeDependants n).runOn c
      refine runOn_bind_congr rfl (ensures_get.2 ?_)
      split
      · exact runOn_bind_congr
          (closeDependantsTo_eq_closeDependants beyond hr hdepth)
          fun _ _ _ => rfl
      · refine runOn_bind_congr rfl ?_
        have hpredicate : Ensures (Lifecycle.predicate n) c fun _ c' =>
            Ahead c c' :=
          (Makings.predicate .refl).mono fun _ _ hm =>
            (Ahead.stable c n).makings (.refl c) hm
        refine hpredicate.mono fun _ c₁ h₁ => ?_
        have hdepth₁ : c₁.graph.nodes.length < depth := h₁.length ▸ hdepth
        exact runOn_bind_congr
          (closeDependantsTo_eq_closeDependants beyond
            (h₁.mem_ids.2 hr) hdepth₁)
          fun _ _ _ => rfl

end Lifecycle

end Stagewise
