/-
What the resolution of references makes of the code.

An access of a reference field that leads to a composition node becomes the
access between the two nodes, and its target goes with it; whatever else an
expression is, it stays that and only its parts change (`Replaces`). The
replacement goes from the outside in, but it looks at no more than the field
at the top, so it is the rewriting with `redirect`
(`replaceAccesses_rewrites`). Every link is rewritten once and then loses its
dropped fields, and nothing else changes (`resolveReferences_rewrites`).

The target is not looked at, unlike where dependencies are linked. For the
targets that count there, the access leads to the node at which the route
ends.
-/
import Stagewise.Proofs.Merge.Access

namespace Stagewise

namespace TypeDecl

variable {f : Expr → Expr}

theorem name_rewrite (d : TypeDecl) : (d.rewrite f).name = d.name := by
  cases d
  rfl

theorem fields_rewrite (d : TypeDecl) :
    (d.rewrite f).fields = d.fields.map (Field.rewrite f) := by
  cases d
  rfl

end TypeDecl

namespace Merge

open Stagewise.Composition Step Transformer

variable {c c' c₀ c₁ c₂ : Compilation} {s : Sources} {n m : CompositionId}
variable {link : DeclId}

-- ============================================================= one expression

/-- The composition node that a reference field leads to. -/
def fieldNode? (c : Compilation) (f : FieldRef) : Option CompositionId :=
  (c.bindings.referenced? f.identity).bind c.tree.nodeOf?

theorem referencedNode?_field {target : Option Expr} {f : FieldRef} :
    referencedNode? c (.field target f) = fieldNode? c f := rfl

/-- What becomes of an expression in code of a node: an access of a reference
field becomes the access to where the field leads. -/
def redirect (c : Compilation) (n : CompositionId) (e : Expr) : Expr :=
  match referencedNode? c e with
  | some target => c.tree.access c.sources n target
  | none => e

theorem redirect_of_some {e : Expr} (h : referencedNode? c e = some m) :
    redirect c n e = c.tree.access c.sources n m := by
  unfold redirect
  rw [h]

theorem redirect_of_none {e : Expr} (h : referencedNode? c e = none) :
    redirect c n e = e := by
  unfold redirect
  rw [h]

/-- Only the field at the top of an expression counts. -/
theorem referencedNode?_of_top {e e₁ : Expr} (h : e₁.top = e.top) :
    referencedNode? c e₁ = referencedNode? c e := by
  have hfield : e₁.field? = e.field? := by
    rw [← Expr.field?_top, h, Expr.field?_top]
  unfold referencedNode?
  rw [hfield]

/-- An access of a reference field is replaced with its target. -/
theorem rewrite_redirect_of_some {e : Expr}
    (h : referencedNode? c e = some m) :
    e.rewrite (redirect c n) = c.tree.access c.sources n m := by
  rw [Expr.rewrite_eq]
  exact redirect_of_some
    ((referencedNode?_of_top (Expr.top_mapParts _ e)).trans h)

/-- Of any other expression only the parts are replaced. -/
theorem rewrite_redirect_of_none {e : Expr} (h : referencedNode? c e = none) :
    e.rewrite (redirect c n) = e.mapParts (Expr.rewrite (redirect c n)) := by
  rw [Expr.rewrite_eq]
  exact redirect_of_none
    ((referencedNode?_of_top (Expr.top_mapParts _ e)).trans h)

/-- The names of declarations are all that an access takes from them. -/
theorem redirect_congr (hs : ∀ d, s.name d = c.sources.name d) :
    redirect { c with sources := s } n = redirect c n := by
  funext e
  have hnode : referencedNode? { c with sources := s } e
    = referencedNode? c e := rfl
  have hnames : ∀ m,
      c.tree.declNames s m = c.tree.declNames c.sources m := fun m =>
    List.map_congr_left fun d _ => hs d
  unfold redirect Composition.access
  rw [hnode]
  simp only [hnames]

/-- What is known of the replacement at single expressions. -/
theorem knows_replaceAccesses {G : Expr → Prop}
    (hstay : ∀ e, referencedNode? c e = none → G e)
    (haccess : ∀ e target, referencedNode? c e = some target →
      ∀ x ∈ (c.tree.access c.sources n target).subterms, G x) :
    (fromAnyState Nat).Knows (replaceAccesses c n) (fun _ => redirect c n)
    (fun _ => G)
      fun _ e => referencedNode? c e = none where
  enter := rfl
  leave := rfl
  look := rfl
  entry e k _ := by
    unfold replaceAccesses
    dsimp only
    cases he : referencedNode? c e with
    | none => exact rfl
    | some target => exact ⟨(rewrite_redirect_of_some he).symm,
        haccess e target he⟩
  exit e e₁ htop _ _ hopens := by
    have hnone : referencedNode? c e₁ = none :=
      (referencedNode?_of_top htop).trans hopens
    exact ⟨(redirect_of_none hnone).symm, Expr.forall_mem_subterms
      (hstay e₁ hnone)⟩

/-- Replacing accesses is rewriting. -/
theorem replaceAccesses_rewrites (d : TypeDecl) (k : Nat) :
    (((replaceAccesses c n).typeDecl d).run k).1 = d.rewrite (redirect c n) :=
  ((fromAnyState Nat).typeDecl_rewrites
    (knows_replaceAccesses (G := fun _ => True)
      (fun _ _ => trivial) fun _ _ _ _ _ => trivial) d k ()).1

theorem replaceAccesses_rewrites_expr (e : Expr) (k : Nat) :
    (((replaceAccesses c n).expr e).run k).1 = e.rewrite (redirect c n) :=
  ((fromAnyState Nat).expr_rewrites (knows_replaceAccesses (G := fun _ => True)
    (fun _ _ => trivial) fun _ _ _ _ _ => trivial) e k ()).1

-- ================================================================== the links

/-- The links are those that the tree lists. -/
theorem linksWithNodes_eq (ht : Formed c.sources c.tree) :
    linksWithNodes c = c.tree.linkNodes.map Prod.swap := by
  unfold linksWithNodes Compilation.chains leaves
  rw [ht.links, List.flatMap_map, List.flatMap_map, List.map_flatMap]
  refine List.flatMap_congr fun p hp => ?_
  dsimp only
  rw [ht.nodeOfLeaf?_eq_some.2 hp, Option.toList_some, List.flatMap_singleton,
    List.map_map]
  rfl

theorem mem_linksWithNodes (ht : Formed c.sources c.tree) :
    (n, link) ∈ linksWithNodes c ↔ c.tree.nodeOf? link = some n := by
  rw [linksWithNodes_eq ht, nodeOf?, lookup_eq_some_iff_mem ht.apart,
    List.mem_map]
  constructor
  · rintro ⟨p, hp, he⟩
    obtain ⟨rfl, rfl⟩ := Prod.mk.inj he
    exact hp
  · exact fun h => ⟨_, h, rfl⟩

theorem nodup_links (ht : Formed c.sources c.tree) : (links c).Nodup := by
  unfold links
  rw [linksWithNodes_eq ht, List.map_map]
  exact ht.apart

/-- That each of some links has been changed once, and no other
declaration. -/
structure Changed (k : CompositionId × DeclId → TypeDecl → TypeDecl)
    (done : List (CompositionId × DeclId)) (s s' : Sources) : Prop where
  length : s'.decls.length = s.decls.length
  link : ∀ p ∈ done, s'.get p.2 = k p (s.get p.2)
  other : ∀ d, d ∉ done.map Prod.snd → s'.get d = s.get d

namespace Changed

variable {k : CompositionId × DeclId → TypeDecl → TypeDecl} {s' : Sources}
variable {done : List (CompositionId × DeclId)} {p : CompositionId × DeclId}

theorem start : Changed k [] s s :=
  ⟨rfl, List.forall_mem_nil _, fun _ _ => rfl⟩

theorem turn (h : Changed k done s s') (hp : p.2 ∉ done.map Prod.snd)
    (hlt : p.2.index < s.decls.length) :
    Changed k (done ++ [p]) s (s'.set p.2 (k p (s'.get p.2))) := by
  refine ⟨(Sources.length_set ..).trans h.length, ?_, fun d hd => ?_⟩
  · refine List.forall_mem_append.2 ⟨fun q hq => ?_,
      List.forall_mem_singleton.2 ?_⟩
    · have hne : q.2 ≠ p.2 := fun e => hp (e ▸ List.mem_map.2 ⟨q, hq, rfl⟩)
      rw [Sources.get_set_of_ne hne, h.link q hq]
    · rw [Sources.get_set_self (h.length.symm ▸ hlt), h.other p.2 hp]
  · rw [List.map_append, List.mem_append, not_or] at hd
    have hne : d ≠ p.2 := fun e => hd.2 (e ▸ List.mem_singleton_self _)
    rw [Sources.get_set_of_ne hne, h.other d hd.1]

/-- A change that leaves the name of a declaration leaves all names. -/
theorem name (h : Changed k done s s') (hk : ∀ p d, (k p d).name = d.name)
    (d : DeclId) :
    s'.name d = s.name d := by
  unfold Sources.name
  by_cases hd : d ∈ done.map Prod.snd
  · obtain ⟨p, hp, rfl⟩ := List.mem_map.1 hd
    rw [h.link p hp, hk]
  · rw [h.other d hd]

end Changed

/-- A loop that changes one link in each turn. -/
theorem ensures_mapM_changed {k : CompositionId × DeclId → TypeDecl → TypeDecl}
    {f : CompositionId × DeclId → Step Nat} (ht : Formed c.sources c.tree)
    (hlength : s.decls.length = c.sources.decls.length)
    (hturn : ∀ p done s', Changed k done s s' →
      Ensures (f p) { c with sources := s' } fun _ c' =>
        c' = { c with sources := s'.set p.2 (k p (s'.get p.2)) }) :
    Ensures ((linksWithNodes c).mapM f) { c with sources := s } fun _ c' =>
      ∃ s', c' = { c with sources := s' }
          ∧ Changed k (linksWithNodes c) s s' := by
  refine ensures_mapM_split (I := fun done c' => ∃ s',
    c' = { c with sources := s' }
    ∧ Changed k done s s') ?_ ⟨s, rfl, .start⟩
  rintro done p hdone _ ⟨s', rfl, h⟩
  refine (hturn p done s' h).mono fun _ c' hc' => ⟨_, hc', h.turn ?_ ?_⟩
  · -- no link comes twice
    have hnodup := (hdone.sublist.map Prod.snd).nodup (nodup_links ht)
    rw [List.map_append, List.nodup_append] at hnodup
    exact fun hp => hnodup.2.2 p.2 hp p.2 (List.mem_singleton_self _) rfl
  · rw [hlength]
    exact lt_of_mem_linksWithNodes (hdone.subset (List.mem_append_right _
      (List.mem_singleton_self p)))

/-- That declarations are those of `c`, with the links rewritten and without
their dropped fields. -/
structure Rewritten (c : Compilation) (s : Sources) : Prop where
  length : s.decls.length = c.sources.decls.length
  link : ∀ p ∈ linksWithNodes c,
    s.get p.2 = dropReferences c ((c.sources.get p.2).rewrite (redirect c p.1))
  other : ∀ d, d ∉ links c → s.get d = c.sources.get d

theorem Rewritten.name (h : Rewritten c s) (d : DeclId) :
    s.name d = c.sources.name d := by
  unfold Sources.name
  by_cases hd : d ∈ links c
  · obtain ⟨p, hp, rfl⟩ := List.mem_map.1 hd
    rw [h.link p hp]
    exact TypeDecl.name_rewrite _
  · rw [h.other d hd]

/-- Resolving references rewrites the links and drops fields of theirs, and
does nothing else. -/
theorem resolveReferences_rewrites (ht : Formed c.sources c.tree) :
    Ensures resolveReferences c fun _ c' =>
      ∃ s, c' = { c with sources := s } ∧ Rewritten c s := by
  unfold resolveReferences
  simp only [ensures_bind, ensures_get, ensures_pure]
  refine Ensures.mono (ensures_mapM_changed (s := c.sources)
    (k := fun p d => d.rewrite (redirect c p.1)) ht rfl ?_) ?_
  · rintro ⟨n, link⟩ done s' h
    unfold replaceInLink
    simp only [ensures_bind, ensures_get]
    split
    rename_i d k hrun
    simp only [ensures_bind, ensures_modifySources, ensures_pure]
    have hrewrites :=
      replaceAccesses_rewrites (c := { c with sources := s' }) (n := n)
      (s'.get link) 0
    rw [hrun, redirect_congr (h.name fun _ _ => TypeDecl.name_rewrite _)]
      at hrewrites
    rw [← hrewrites]
  · rintro _ _ ⟨s₁, rfl, h₁⟩
    refine (ensures_mapM_changed (s := s₁) (k := fun _ d => dropReferences c d)
      ht h₁.length ?_).mono ?_
    · rintro ⟨n, link⟩ done s' h
      unfold dropInLink
      simp only [ensures_bind, ensures_get, ensures_modifySources,
        ensures_pure]
      rfl
    · rintro _ _ ⟨s₂, rfl, h₂⟩
      refine ⟨s₂, rfl, h₂.length.trans h₁.length, fun p hp => ?_,
        fun d hd => ?_⟩
      · rw [h₂.link p hp, h₁.link p hp]
      · exact (h₂.other d hd).trans (h₁.other d hd)

/-- The resolution of references does not fail. -/
theorem resolveReferences_succeeds : Succeeds resolveReferences := by
  have hreplace : ∀ n link, Succeeds (replaceInLink n link) := by
    intro n link
    unfold replaceInLink
    exact .bind (fun _ => rfl) fun _ => .bind (fun _ => rfl) fun _ _ => rfl
  have hdrop : ∀ link, Succeeds (dropInLink link) := by
    intro link
    unfold dropInLink
    exact .bind (fun _ => rfl) fun _ => .bind (fun _ => rfl) fun _ _ => rfl
  unfold resolveReferences
  refine .bind (fun _ => rfl) fun c =>
    .bind (.mapM fun p => hreplace p.1 p.2) fun _ => ?_
  exact .bind (.mapM fun p => hdrop p.2) fun _ _ => rfl

-- =========================================================== what is replaced

/-- How accesses are replaced in code of a composition node. -/
structure Replaces (c : Compilation) (n : CompositionId)
    (replace : Expr → Expr) : Prop where
  /-- An access of a field that leads to a node becomes the access to this
  node, whatever its target. -/
  access : ∀ target f m, fieldNode? c f = some m →
    replace (.field target f) = c.tree.access c.sources n m
  /-- Any other expression stays what it is but for its parts. -/
  other : ∀ e, (∀ target f, e = .field target f → fieldNode? c f = none) →
    replace e = e.mapParts replace
  /-- Where linking has a route, it ends at the node that the replacement
  leads to. -/
  route : ∀ d target f route m, c.compositionOf d = n →
    Analysis.routeOf? c d (.field target f) = some (route, m) →
      replace (.field target f) = c.tree.access c.sources n m

/-- A route through a field ends where the field leads. -/
theorem fieldNode?_of_routeOf? {d : DependencyId} {target : Option Expr}
    {f : FieldRef} {route : Route} (h : Analysis.routeOf? c d (.field target f)
      = some (route, m)) :
    fieldNode? c f = some m := by
  rw [Analysis.routeOf?] at h
  obtain ⟨leaf, hleaf, h⟩ := Option.bind_eq_some_iff.1 h
  obtain ⟨place, hplace, h⟩ := Option.bind_eq_some_iff.1 h
  obtain ⟨_, -, h⟩ := Option.bind_eq_some_iff.1 h
  obtain ⟨-, rfl⟩ := Prod.mk.inj (Option.some.inj h)
  unfold fieldNode?
  rw [hleaf, Option.bind_some, hplace]

theorem replaces_rewrite_redirect (c : Compilation) (n : CompositionId) :
    Replaces c n (Expr.rewrite (redirect c n)) where
  access _ _ _ hf := rewrite_redirect_of_some (referencedNode?_field.trans hf)
  other e he := by
    refine rewrite_redirect_of_none ?_
    cases e with
    | field target f => exact he target f rfl
    | _ => rfl
  route _ _ _ _ _ _ h := rewrite_redirect_of_some (fieldNode?_of_routeOf? h)

/-- The tree and the declarations fit together when references are bound and
passes made. -/
theorem formed_of_bound {bound : Analysis.ReferenceReport}
    (htree : Built c₀.sources c₀.tree)
    (hbefore : Passes c₀ c₁)
    (hbind : Analysis.bindReferences.runOn c₁ = (.ok bound, c₂))
    (hbetween : Passes c₂ c) : Formed c.sources c.tree := by
  have hkept := Passes.kept hbefore
  have ht : Formed c₁.sources c₁.tree :=
    hkept.tree.form.formed (htree.formed.sameHeads hkept.heads)
  obtain ⟨h, -⟩ := Analysis.bindReferences_referenced ht _ _ hbind
  have hkept' := Passes.kept hbetween
  exact hkept'.tree.form.formed
    ((h.sources ▸ h.form.formed ht).sameHeads hkept'.heads)

/-- If references are bound, with any other passes before and after, they can
be resolved: in the code of every link an access of a reference field that
leads to a node becomes the access to this node, with nothing left of its
target, and any other expression stays what it is but for its parts. -/
theorem resolveReferences_replaces {bound : Analysis.ReferenceReport}
    (htree : Built c₀.sources c₀.tree) (hbefore : Passes c₀ c₁)
    (hbind : Analysis.bindReferences.runOn c₁ = (.ok bound, c₂))
    (hbetween : Passes c₂ c) :
    ∃ report s, resolveReferences.runOn c
      = (.ok report, { c with sources := s })
      ∧ Rewritten c s ∧ ∀ n, Replaces c n (Expr.rewrite (redirect c n)) := by
  obtain ⟨report, hrun⟩ := exists_runOn_eq (resolveReferences_succeeds c)
  obtain ⟨s, hs, hrewritten⟩ :=
    resolveReferences_rewrites (formed_of_bound htree hbefore hbind hbetween)
      _ _ hrun
  rw [hs] at hrun
  exact ⟨report, s, hrun, hrewritten, replaces_rewrite_redirect c⟩

/-- The texts of the expressions in the methods of a declaration. -/
def methodTexts (s : Sources) (d : DeclId) : List String :=
  (s.get d).methods.flatMap fun m => m.bodyOrEmpty.exprs.map Expr.text

/-- In the house the lamp's access of the cellar becomes one from the house
down. -/
theorem resolveReferences_replaces_house : ∃ bound report c s,
    Analysis.bindReferences.runOn
      { sources := houseSources, tree := houseTree } = (.ok bound, c)
      ∧ resolveReferences.runOn c = (.ok report, { c with sources := s })
      ∧ Replaces c ⟨2⟩ (Expr.rewrite (redirect c ⟨2⟩))
      ∧ methodTexts c.sources ⟨3⟩
        = ["light = cellar.depth", "light", "cellar.depth", "cellar"]
      ∧ methodTexts s ⟨3⟩ = ["light = House.this.cellar.depth", "light",
          "House.this.cellar.depth", "House.this.cellar", "House.this"] := by
  let c₀ : Compilation := { sources := houseSources, tree := houseTree }
  obtain ⟨bound, hbind⟩ :=
    exists_runOn_eq (x := Analysis.bindReferences) (c := c₀)
      (by decide +kernel)
  obtain ⟨report, s, hresolve, hrewritten, hreplaces⟩ :=
    resolveReferences_replaces built_houseTree .refl hbind .refl
  refine ⟨bound, report, _, s, hbind, hresolve,
    hreplaces ⟨2⟩, by decide +kernel, ?_⟩
  unfold methodTexts
  rw [hrewritten.link (⟨2⟩, ⟨3⟩) (by decide +kernel)]
  decide +kernel

-- =============================================================== lost targets

/-- An outer type with an inner one that counts. A method of the outer type
reads the count in another object. -/
def peekSources : Sources :=
  let inner : Field :=
    { name := "inner", type := .named "Inner", markers := [.reference] }
  let count : Field := { name := "count", type := .int }
  let peek : Method :=
    { name := "peek", returns := .int, params := [⟨"other", .named "Outer"⟩]
      body := some [.ret (some (.field (some (.field (some (.var "other"))
        ⟨"Outer", "inner"⟩)) ⟨"Inner", "count"⟩))] }
  let outer : TypeDecl :=
    { TypeDecl.participating "Outer" with
      fields := [inner], methods := [peek] }
  let other : TypeDecl :=
    { TypeDecl.participating "Inner" with fields := [count] }
  { decls := [outer, other].map TypeDecl.assignIdentities }

def peekTree : Composition :=
  { nodes := [{ decls := [⟨0⟩] }, { parent := some ⟨0⟩, decls := [⟨1⟩] }]
    leafNodes := [(⟨0⟩, ⟨0⟩), (⟨1⟩, ⟨1⟩)]
    linkNodes := [(⟨0⟩, ⟨0⟩), (⟨1⟩, ⟨1⟩)] }

/-- A target that has no route is lost when references are resolved: the
inner object of another object becomes the own one. -/
theorem resolveReferences_loses_target : Built peekSources peekTree
    ∧ ∃ bound report c c',
    Analysis.bindReferences.runOn { sources := peekSources, tree := peekTree }
        = (.ok bound, c) ∧ resolveReferences.runOn c = (.ok report, c')
      ∧ (∀ n, Analysis.routeOf? c n
        (.field (some (.var "other")) ⟨"Outer", "inner"⟩) = none)
      ∧ methodTexts c.sources ⟨0⟩
        = ["other.inner.count", "other.inner", "other"]
      ∧ methodTexts c'.sources ⟨0⟩
        = ["Outer.this.inner.count", "Outer.this.inner", "Outer.this"] := by
  let c₀ : Compilation := { sources := peekSources, tree := peekTree }
  have hbuilt : Built peekSources peekTree :=
    ((Built.start.child (p := Composition.root) (by decide)).add
      (n := ⟨0⟩) (d := ⟨0⟩) (by decide) rfl).add (n := ⟨1⟩) (d := ⟨1⟩)
    (by decide) rfl
  obtain ⟨bound, hbind⟩ :=
    exists_runOn_eq (x := Analysis.bindReferences) (c := c₀)
      (by decide +kernel)
  obtain ⟨report, hresolve⟩ := exists_runOn_eq (x := resolveReferences)
    (c := (Analysis.bindReferences.runOn c₀).2) (by decide +kernel)
  refine ⟨hbuilt, bound, report, _, _, hbind, hresolve,
    fun n => ?_, by decide +kernel, by decide +kernel⟩
  simp [Analysis.routeOf?, Analysis.routeOfTarget?]

end Merge

end Stagewise
