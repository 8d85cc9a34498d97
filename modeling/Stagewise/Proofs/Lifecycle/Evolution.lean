/-
What a compilation goes through between its analysis and its merging.

# The relation

Guards and lifecycle are added by changes of a few kinds (`Change`): the
making of members, further methods, other bodies of methods, and the
progress of `doClose` and close-dependants methods. While a body is
guarded it is detached from its method, and comes back afterwards
(`Evolves`).

# What it leaves

The composition tree, the references and the edges stay, and every node is
the one that was discovered (`Evolves.congr`). Declarations only gain
methods, and a method keeps its heading and its body if it has one
(`Sources.Extends`). A `doClose` method that is done can be called as such
from then on (`Evolves.ends`).
-/
import Stagewise.Lifecycle.Closing
import Stagewise.Proofs.Lifecycle.Guards
import Stagewise.Proofs.Lifecycle.Dependants

namespace Stagewise

-- ====================================================== extended declarations

/-- A method apart from its body and whether it is declared abstract. -/
def Method.surface (m : Method) : Method :=
  { m with modifiers := { m.modifiers with isAbstract := false },
           body := none }

namespace Sources

variable {s s' s₁ s₂ : Sources} {d : DeclId} {l : Location}

/-- That declarations have gained methods and nothing else, and that a
method is what it was but for its body; a concrete one is still concrete. -/
structure Extends (s s' : Sources) : Prop where
  length : s'.decls.length = s.decls.length
  rest : ∀ d, { s'.get d with methods := [] } = { s.get d with methods := [] }
  has : ∀ l, s.Has l → s'.Has l
  surface : ∀ l, s.Has l → (s'.method l).surface = (s.method l).surface
  modifiers : ∀ l, s.Has l → (s.method l).modifiers.isAbstract = false →
    (s'.method l).modifiers.isAbstract = false

namespace Extends

theorem refl (s : Sources) : Extends s s :=
  ⟨rfl, fun _ => rfl, fun _ hl => hl, fun _ _ => rfl, fun _ _ hm => hm⟩

theorem trans (h : Extends s s₁) (h' : Extends s₁ s₂) : Extends s s₂ where
  length := h'.length.trans h.length
  rest d := (h'.rest d).trans (h.rest d)
  has l hl := h'.has l (h.has l hl)
  surface l hl := (h'.surface l (h.has l hl)).trans (h.surface l hl)
  modifiers l hl hm := h'.modifiers l (h.has l hl) (h.modifiers l hl hm)

theorem name (h : Extends s s') (d : DeclId) : s'.name d = s.name d := by
  have hname := congrArg TypeDecl.name (h.rest d)
  exact hname

theorem methodRef (h : Extends s s') (hl : s.Has l) :
    s'.methodRef l = s.methodRef l := by
  have href := congrArg (fun m => m.ref (s.name l.decl)) (h.surface l hl)
  unfold Sources.methodRef
  rw [h.name]
  exact href

theorem field (h : Extends s s') (l : Location) : s'.field l = s.field l := by
  have hfields := congrArg TypeDecl.fields (h.rest l.decl)
  exact congrArg (·.getD l.index default) hfields

theorem hasField (h : Extends s s') (hl : s.HasField l) : s'.HasField l := by
  have hfields := congrArg TypeDecl.fields (h.rest l.decl)
  exact Nat.lt_of_lt_of_eq hl (congrArg List.length hfields).symm

theorem params (h : Extends s s') (hl : s.Has l) :
    (s'.method l).params = (s.method l).params := by
  have hparams := congrArg Method.params (h.surface l hl)
  exact hparams

theorem returns (h : Extends s s') (hl : s.Has l) :
    (s'.method l).returns = (s.method l).returns := by
  have hreturns := congrArg Method.returns (h.surface l hl)
  exact hreturns

theorem addMethod (d : DeclId) (m : Method) :
    Extends s (s.modify d (·.addMethod m)) := by
  have hrest := get_modify_congr (s := s) (d := d) (f := (·.addMethod m))
    (g := fun t => { t with methods := [] }) fun _ => rfl
  refine ⟨length_modify d _, hrest, ?_, ?_, ?_⟩
  · intro l hl
    by_cases hd : d.index < s.decls.length
    · exact (has_addMethod hd).2 (Or.inl hl)
    · rw [modify_of_not_lt hd]
      exact hl
  · intro l hl
    rw [method_addMethod_of_has hl]
  · intro l hl hm
    rwa [method_addMethod_of_has hl]

theorem modifyMethod {f : Method → Method}
    (hsurface : ∀ m, (f m).surface = m.surface)
    (hmodifiers : ∀ m, m.modifiers.isAbstract = false →
      (f m).modifiers.isAbstract = false)
    (l : Location) : Extends s (s.modifyMethod l f) := by
  by_cases hhas : s.Has l
  · have hrest := get_modify_congr (s := s) (d := l.decl)
      (f := fun t => { t with methods := t.methods.modify l.index f })
      (g := fun t => { t with methods := [] }) fun _ => rfl
    refine ⟨length_modify l.decl _, hrest,
      fun _ hl' => (has_modifyMethod f).2 hl',
      fun l' _ => ?_, fun l' _ hm => ?_⟩
    · rw [method_modifyMethod hhas]
      split
      · rename_i he
        rw [hsurface, he]
      · rfl
    · rw [method_modifyMethod hhas]
      split
      · rename_i he
        exact hmodifiers _ (he ▸ hm)
      · exact hm
  · rw [modifyMethod_of_not_has hhas]
    exact refl s

end Extends

end Sources

namespace DependencyGraph

/-- What a change leaves of the node that it changes is left of all. -/
theorem get_modify_congr {g : DependencyGraph} {n : DependencyId} {α : Type}
    {k : DependencyNode → α} {f : DependencyNode → DependencyNode}
    (hf : ∀ d, k (f d) = k d)
    (m : DependencyId) : k ((g.modify n f).get m) = k (g.get m) := by
  unfold get modify
  rw [List.getD_eq_getElem?_getD, List.getElem?_modify,
    List.getD_eq_getElem?_getD]
  cases g.nodes[m.index]? with
  | none => rfl
  | some d =>
      by_cases h : n.index = m.index
      · simp [h, hf]
      · simp [h]

end DependencyGraph

/-- That a node was found in a declaration that there is. -/
def Compilation.Sited (c : Compilation) (n : DependencyId) : Prop :=
  (c.graph.get n).decl.index < c.sources.decls.length

namespace Lifecycle

open Compilation Step

variable {c c' c₀ c₁ c₂ : Compilation} {n m : DependencyId} {l : Location}
variable {body : Block}

-- =============================================================== the relation

/-- That a method can be called as the `doClose` method of a stage. -/
structure Ends (c : Compilation) (n : DependencyId) (l : Location) : Prop where
  has : c.sources.Has l
  role : c.bindings.roleOf? (c.sources.methodRef l).identity
    = some (n, .doClose)

/-- One change that the adding of guards and lifecycle makes. -/
inductive Change (c : Compilation) : Compilation → Prop
  | making {n : DependencyId} {c' : Compilation} : Making n c c' → Change c c'
  | append {n : DependencyId} {m : Method} {body : Block} {r : Role}
      {b : Bindings} :
      n ∈ c.graph.ids → IsNew m body →
      c.bindings.bindMethod
        ((c.sources.modify (c.graph.get n).decl (·.addMethod m)).method
          (c.sources.nextMethod (c.graph.get n).decl)).id n r = .ok b →
      Change c { c with
        sources := c.sources.modify (c.graph.get n).decl (·.addMethod m),
          bindings := b }
  | body {l : Location} (f : Option Block → Block) :
      Change c { c with sources := c.sources.modifyMethod l fun m =>
        { m with body := some (f m.body) } }
  | closing (n : DependencyId) (p : Progress (Option Location)) :
      Change c (c.putClosing n p)
  | start {n : DependencyId} : c.progress n .doClose = .notStarted →
      Change c (c.put n .inProgress .doClose)
  | finish {n : DependencyId} {l : Location} :
      c.progress n .doClose = .inProgress →
      (c.Sited n → Ends c n l) → Change c (c.put n (.done l) .doClose)

/-- What the adding of guards and lifecycle comes to. A body may be
detached meanwhile. -/
inductive Evolves : Compilation → Compilation → Prop
  | refl (c : Compilation) : Evolves c c
  | step {c c₁ c₂ : Compilation} : Evolves c c₁ → Change c₁ c₂ → Evolves c c₂
  | detour {c c₁ c₂ : Compilation} {l : Location} {body : Block} :
      Evolves c c₁ →
      Evolves (withBody c₁ l none) c₂ → Evolves c (withBody c₂ l (some body))

namespace Evolves

theorem trans (h : Evolves c c₁) (h' : Evolves c₁ c₂) : Evolves c c₂ := by
  induction h' with
  | refl => exact h
  | step _ hchange ih => exact (ih h).step hchange
  | detour _ hdetour ih _ => exact (ih h).detour hdetour

theorem makings (h : Evolves c c₁) (hm : Makings n c₁ c₂) : Evolves c c₂ := by
  induction hm with
  | refl => exact h
  | tail _ hchange ih => exact ih.step (.making hchange)

-- ============================================================= what it leaves

/-- What no change and no other body concerns stays. -/
theorem congr {α : Type} {g : Compilation → α}
    (hchange : ∀ c c', Change c c' → g c' = g c)
    (hbody : ∀ c l body, g (withBody c l body) = g c) (h : Evolves c c') :
    g c' = g c := by
  induction h with
  | refl => rfl
  | step _ h ih => exact (hchange _ _ h).trans ih
  | detour _ _ ih ih' =>
      rw [hbody, ih', hbody, ih]

/-- Binding a method changes roles only. -/
theorem bindMethod_congr {α : Type} {k : Bindings → α} {b b' : Bindings}
    {method : Identity} {r : Role}
    (hk : ∀ b roles, k { b with methodRoles := roles } = k b)
    (h : b.bindMethod method n r = .ok b') : k b' = k b := by
  unfold Bindings.bindMethod at h
  split at h
  · cases h
  · obtain rfl := Except.ok.inj h
    exact hk b _

theorem tree (h : Evolves c c') : c'.tree = c.tree := by
  refine h.congr (fun c c' hc => ?_) fun _ _ _ => rfl
  cases hc with
  | making hm => cases hm <;> rfl
  | _ => rfl

theorem options (h : Evolves c c') : c'.options = c.options := by
  refine h.congr (fun c c' hc => ?_) fun _ _ _ => rfl
  cases hc with
  | making hm => cases hm <;> rfl
  | _ => rfl

theorem edges (h : Evolves c c') : c'.graph.edges = c.graph.edges := by
  refine h.congr (g := fun c => c.graph.edges) (fun c c' hc => ?_)
    fun _ _ _ => rfl
  cases hc with
  | making hm => cases hm <;> rfl
  | _ => rfl

theorem length (h : Evolves c c') :
    c'.graph.nodes.length = c.graph.nodes.length := by
  refine h.congr (g := fun c => c.graph.nodes.length) (fun c c' hc => ?_)
    fun _ _ _ => rfl
  cases hc with
  | making hm =>
      cases hm with
      | stage _ _ => exact DependencyGraph.length_modify _
      | _ => rfl
  | closing _ _ | start _ | finish _ _ => exact DependencyGraph.length_modify _
  | _ => rfl

/-- All bindings stay but the roles of methods. -/
theorem bindings {α : Type} {k : Bindings → α}
    (hk : ∀ b roles, k { b with methodRoles := roles } = k b)
    (h : Evolves c c') :
    k c'.bindings = k c.bindings := by
  refine h.congr (g := fun c => k c.bindings) (fun c c' hc => ?_)
    fun _ _ _ => rfl
  cases hc with
  | making hm =>
      cases hm with
      | bind _ hb | append _ _ _ hb => exact bindMethod_congr hk hb
      | _ => rfl
  | append _ _ hb => exact bindMethod_congr hk hb
  | _ => rfl

theorem references (h : Evolves c c') :
    c'.bindings.references = c.bindings.references :=
  h.bindings fun _ _ => rfl

/-- Every node is the one that was discovered. -/
theorem sameNodes (h : Evolves c c') : SameNodes c c' := by
  intro m
  refine h.congr (g := fun c => (c.graph.get m).unmade) (fun c c' hc => ?_)
    fun _ _ _ => rfl
  cases hc with
  | making hm =>
      cases hm with
      | stage hf _ => exact Compilation.unmade_mapStage hf m
      | _ => rfl
  | closing n p =>
      exact DependencyGraph.get_modify_congr
        (fun _ => DependencyNode.unmade_closeDependants) m
  | start _ | finish _ _ =>
      exact Compilation.unmade_mapStage (fun _ => Stage.unmade_put) m
  | _ => rfl

theorem decl (h : Evolves c c') (n : DependencyId) :
    (c'.graph.get n).decl = (c.graph.get n).decl :=
  h.sameNodes.decl n

theorem sameShape (h : Evolves c c') : c.graph.SameShape c'.graph := by
  refine ⟨h.edges, h.length, fun n => ?_⟩
  have hstage := congrArg Option.isSome (h.sameNodes.stage? n)
  rwa [Option.isSome_map, Option.isSome_map] at hstage

/-- What holds of the sources before and after each change holds over
all. -/
theorem sources (h : Evolves c c') : Sources.Extends c.sources c'.sources := by
  have hbody : ∀ (s : Sources) l (f : Method → Option Block),
      Sources.Extends s (s.modifyMethod l fun m => { m with body := f m }) :=
    fun _ l _ => .modifyMethod (fun _ => by rfl) (fun _ hm => by exact hm) l
  induction h with
  | refl => exact .refl _
  | step _ hchange ih =>
      refine ih.trans ?_
      cases hchange with
      | making hm =>
          cases hm with
          | append _ _ _ _ => exact .addMethod _ _
          | implement _ _ =>
              exact .modifyMethod (fun _ => by rfl) (fun _ _ => by rfl) _
          | _ => exact .refl _
      | append _ _ _ => exact .addMethod _ _
      | body f => exact hbody _ _ _
      | _ => exact .refl _
  | detour _ _ ih ih' =>
      exact ((ih.trans (hbody _ _ _)).trans ih').trans (hbody _ _ _)

/-- A method that has a body keeps one. -/
theorem isSome_body (h : Evolves c c') (hl : c.sources.Has l)
    (hbody : (c.sources.method l).body.isSome = true) :
    (c'.sources.method l).body.isSome = true := by
  have hgiven : ∀ {s : Sources} {l l' : Location} {f : Method → Method},
      s.Has l →
      (∀ m, m.body.isSome = true → (f m).body.isSome = true) →
      (s.method l).body.isSome = true →
      ((s.modifyMethod l' f).method l).body.isSome = true := by
    intro s l l' f hl hf hm
    by_cases hl' : s.Has l'
    · rw [Sources.method_modifyMethod hl']
      split
      · rename_i he
        exact hf _ (he ▸ hm)
      · exact hm
    · rwa [Sources.modifyMethod_of_not_has hl']
  induction h with
  | refl => exact hbody
  | step hbefore hchange ih =>
      have hhas := hbefore.sources.has l hl
      have ih := ih hl hbody
      cases hchange with
      | making hm =>
          cases hm with
          | append _ _ _ _ => rwa [Sources.method_addMethod_of_has hhas]
          | implement _ _ => exact hgiven hhas (fun _ _ => rfl) ih
          | _ => exact ih
      | append _ _ _ => rwa [Sources.method_addMethod_of_has hhas]
      | body f => exact hgiven hhas (fun _ _ => rfl) ih
      | _ => exact ih
  | @detour _ c₁ c₂ l' body hbefore hdetour ih ih' =>
      have hhas := hbefore.sources.has l hl
      have ih := ih hl hbody
      by_cases he : l = l'
      · subst he
        have hhas₂ : c₂.sources.Has l :=
          hdetour.sources.has l ((Sources.has_modifyMethod _).2 hhas)
        rw [method_withBody hhas₂]
        rfl
      · -- the detour is about another body
        have hsame : ∀ (c : Compilation) body,
            (withBody c l' body).sources.method l = c.sources.method l :=
          fun _ _ => Sources.method_modifyMethod_of_ne he _
        have hhas₁ : (withBody c₁ l' none).sources.Has l :=
          (Sources.has_modifyMethod _).2 hhas
        rw [hsame]
        refine ih' hhas₁ ?_
        rwa [hsame]

/-- A concrete method is concrete still. -/
theorem isAbstract (h : Evolves c c') (hl : c.sources.Has l)
    (hm : (c.sources.method l).isAbstract = false) :
    (c'.sources.method l).isAbstract = false := by
  unfold Method.isAbstract at hm ⊢
  rw [Bool.or_eq_false_iff] at hm ⊢
  refine ⟨h.sources.modifiers l hl hm.1, ?_⟩
  have hbody := h.isSome_body hl (by rw [← Option.not_isNone, hm.2]; rfl)
  rw [← Option.not_isSome, hbody]
  rfl

/-- What is bound stays bound. -/
theorem role (h : Evolves c c') {id : Identity} {x : DependencyId × Role}
    (hx : c.bindings.roleOf? id = some x) :
    c'.bindings.roleOf? id = some x := by
  induction h with
  | refl => exact hx
  | step _ hchange ih =>
      cases hchange with
      | making hm =>
          cases hm with
          | bind _ hb | append _ _ _ hb =>
              exact Bindings.roleOf?_mono hb (ih hx)
          | _ => exact ih hx
      | append _ _ hb => exact Bindings.roleOf?_mono hb (ih hx)
      | _ => exact ih hx
  | detour _ _ ih ih' => exact ih' (ih hx)

-- ------------------------------------------------------------ doClose methods

end Evolves

theorem Ends.mono (h : Ends c n l) (hs : Sources.Extends c.sources c'.sources)
    (hrole : ∀ id x, c.bindings.roleOf? id = some x →
      c'.bindings.roleOf? id = some x) :
    Ends c' n l := by
  refine ⟨hs.has l h.has, ?_⟩
  rw [hs.methodRef h.has]
  exact hrole _ _ h.role

/-- Only stages have made members. -/
theorem exists_stage_of_done {a : Artifact} (h : c.progress n a = .done l) :
    ∃ s, (c.graph.get n).stage? = some s := by
  unfold Compilation.progress at h
  cases hs : (c.graph.get n).stage? with
  | none => rw [hs] at h; cases h
  | some s => exact ⟨s, rfl⟩

/-- The other members are made without regard to `doClose` methods. -/
theorem Making.progress_doClose (h : Making n c c') (m : DependencyId) :
    c'.progress m .doClose = c.progress m .doClose := by
  cases h with
  | stage _ hclose =>
      unfold Compilation.progress
      rw [get_mapStage]
      split
      · rename_i hm
        rw [hm, DependencyNode.stage?_mapStage, Option.map_map]
        congr 2
        funext s
        exact hclose s
      · rfl
  | _ => rfl

theorem Makings.progress_doClose (h : Makings n c c') (m : DependencyId) :
    c'.progress m .doClose = c.progress m .doClose := by
  induction h with
  | refl => rfl
  | tail _ hchange ih => exact (hchange.progress_doClose m).trans ih

theorem progress_putClosing_any (p : Progress (Option Location))
    (a : Artifact) :
    (c.putClosing n p).progress m a = c.progress m a := by
  unfold Compilation.progress
  exact DependencyGraph.get_modify_congr
    (k := fun d => (d.stage?.map (·.progress a)).getD .notStarted)
    (f := fun d => { d with closeDependants := p }) (fun _ => rfl) m

/-- A change either leaves the progress of a `doClose` method or takes it
further. -/
theorem Change.progress_doClose (h : Change c c') (m : DependencyId) :
    c'.progress m .doClose = c.progress m .doClose
      ∨ (∀ l, c.progress m .doClose ≠ .done l)
        ∧ ∀ l, c'.progress m .doClose = .done l → c.Sited m → Ends c m l := by
  have hput : ∀ {n p}, (∀ l, c.progress n .doClose ≠ .done l) →
      (∀ l, p = .done l → c.Sited n → Ends c n l) →
      (c.put n p .doClose).progress m .doClose = c.progress m .doClose
        ∨ (∀ l, c.progress m .doClose ≠ .done l)
          ∧ ∀ l, (c.put n p .doClose).progress m .doClose = .done l →
            c.Sited m → Ends c m l := by
    intro n p hnot hp
    by_cases hm : m = n
    · subst hm
      refine Or.inr ⟨hnot, fun l hl => hp l ?_⟩
      by_cases ho : c.Offers m .doClose
      · rwa [progress_put_self ho] at hl
      · unfold Compilation.progress Compilation.put at hl
        rw [get_mapStage, if_pos rfl, DependencyNode.stage?_mapStage] at hl
        cases hs : (c.graph.get m).stage? with
        | none => rw [hs] at hl; cases hl
        | some s => exact absurd ⟨s, hs, trivial⟩ ho
    · exact Or.inl (progress_put_of_ne fun he => hm he.1)
  cases h with
  | making hm => exact Or.inl (hm.progress_doClose m)
  | closing n p => exact Or.inl (progress_putClosing_any p _)
  | start hnew => exact hput (fun l hl => by rw [hnew] at hl; cases hl) nofun
  | finish hprogress hends =>
      refine hput (fun l hl => by rw [hprogress] at hl; cases hl)
        fun l hl => ?_
      obtain rfl := Progress.done.inj hl
      exact hends
  | _ => exact Or.inl rfl

/-- What holds while `doClose` methods are made: nodes have a declaration
for their members, and what is done can be called as such. -/
structure Ending (c : Compilation) : Prop where
  decl : ∀ n ∈ c.graph.ids, c.Sited n
  ends : ∀ n l, c.progress n .doClose = .done l → Ends c n l

namespace Evolves

theorem change (hchange : Change c c') : Evolves c c' :=
  (Evolves.refl c).step hchange

/-- What is done stays done. -/
theorem done (h : Evolves c c') (hl : c.progress n .doClose = .done l) :
    c'.progress n .doClose = .done l := by
  induction h with
  | refl => exact hl
  | step _ hchange ih =>
      rcases hchange.progress_doClose n with hsame | ⟨hnot, -⟩
      · exact hsame.trans (ih hl)
      · exact absurd (ih hl) (hnot l)
  | detour _ _ ih ih' => exact ih' (ih hl)

theorem mem_ids (h : Evolves c c') : n ∈ c'.graph.ids ↔ n ∈ c.graph.ids := by
  rw [h.sameShape.links.ids]

/-- Methods are bound to nodes that there are, if they were before. -/
theorem mem_ids_of_role (h : Evolves c c')
    (hc : ∀ id x, c.bindings.roleOf? id = some x → x.1 ∈ c.graph.ids) :
    ∀ id x, c'.bindings.roleOf? id = some x → x.1 ∈ c'.graph.ids := by
  induction h with
  | refl => exact hc
  | @step _ c₁ _ _ hchange ih =>
      intro id x hx
      rw [(change hchange).mem_ids]
      have hbound : ∀ {method : Identity} {n : DependencyId} {r : Role}
          {b : Bindings}, n ∈ c₁.graph.ids →
          c₁.bindings.bindMethod method n r = .ok b →
            b.roleOf? id = some x → x.1 ∈ c₁.graph.ids := by
        intro method n r b hn hb hx
        rw [Bindings.roleOf?_of_bindMethod hb] at hx
        split at hx
        · obtain rfl := Option.some.inj hx
          exact hn
        · exact ih hc id x hx
      cases hchange with
      | making hm =>
          cases hm with
          | bind hn hb | append hn _ _ hb => exact hbound hn hb hx
          | _ => exact ih hc id x hx
      | append hn _ hb => exact hbound hn hb hx
      | _ => exact ih hc id x hx
  | detour _ _ ih ih' => exact ih' (ih hc)

theorem sited (h : Evolves c c') : c'.Sited n ↔ c.Sited n := by
  unfold Compilation.Sited
  rw [h.decl, h.sources.length]

/-- What is done was done before, or it can be called as such. -/
theorem done_or_ends (h : Evolves c c') (hn : c.Sited n)
    (hl : c'.progress n .doClose = .done l) :
    c.progress n .doClose = .done l ∨ Ends c' n l := by
  induction h with
  | refl => exact Or.inl hl
  | step hbefore hchange ih =>
      have hmono := fun {n l} (he : Ends _ n l) =>
        he.mono (change hchange).sources
        fun _ _ => (change hchange).role
      rcases hchange.progress_doClose n with hsame | ⟨-, hends⟩
      · exact (ih hn (hsame.symm.trans hl)).imp_right hmono
      · exact Or.inr (hmono (hends l hl (hbefore.sited.2 hn)))
  | @detour _ c₁ c₂ l' body hbefore hdetour ih ih' =>
      have hbody : ∀ {c body n l}, Ends c n l →
          Ends (withBody c l' body) n l := fun he =>
        he.mono (.modifyMethod (fun _ => by rfl) (fun _ hm => by exact hm) l')
          fun _ _ hx => hx
      have hn₁ : (withBody c₁ l' none).Sited n := by
        unfold Compilation.Sited withBody Sources.modifyMethod
        rw [Sources.length_modify]
        exact hbefore.sited.2 hn
      rcases ih' hn₁ hl with hl₁ | hends
      · exact (ih hn hl₁).imp_right fun hends =>
          hbody ((hbody hends).mono hdetour.sources fun _ _ => hdetour.role)
      · exact Or.inr (hbody hends)

theorem ending (h : Evolves c c') (hc : Ending c) : Ending c' := by
  refine ⟨fun n hn => ?_, fun n l hl => ?_⟩
  · exact h.sited.2 (hc.decl n (h.mem_ids.1 hn))
  · obtain ⟨s, hs⟩ := exists_stage_of_done hl
    have hn := hc.decl n (h.mem_ids.1 (mem_ids_of_stage? hs))
    rcases h.done_or_ends hn hl with hbefore | hends
    · exact (hc.ends n l hbefore).mono h.sources fun _ _ => h.role
    · exact hends

end Evolves

end Lifecycle

end Stagewise
