/-
Nothing is left to resolve once references are resolved.

A parent access leads to the node that it is the way to, and every reference
field of a link leads somewhere (`Resolvable`). An access between two nodes
is made of parent accesses, and each part of it is the access to a node on
the way. So resolving it again would leave it as it is
(`Resolvable.redirect_access`), and the same holds of all code of the links
once it is rewritten: what accesses no reference field is not replaced, and
what was put in the place of the others is left alone. For the same reason
no code accesses a dropped field, since dropped fields are reference fields
other than parent accesses (`resolveReferences_settles`).
-/
import Stagewise.Proofs.Composition.Ancestors
import Stagewise.Proofs.Merge.Replacement

namespace Stagewise.Merge

open Stagewise.Composition Step

variable {c c' c₀ c₁ c₂ : Compilation} {s : Sources} {n m p : CompositionId}
variable {link : DeclId}

-- ============================================================== what is bound

/-- That references are bound: parent accesses lead to their nodes and are
fields of the links of the parent, and all reference fields of links lead to
nodes. -/
structure Resolvable (c : Compilation) : Prop extends Navigable c where
  leads : ∀ n f, (c.tree.get n).parentAccess = some f → fieldNode? c f = some n
  declared : ∀ n p f, (c.tree.get n).parent = some p →
    (c.tree.get n).parentAccess = some f →
    ∃ leaf ∈ (c.tree.get p).decls, ∃ link ∈ c.sources.extensionChain leaf,
      ∃ field ∈ (c.sources.get link).fields,
        field.id = f.identity ∧ field.ref (c.sources.name link) = f
  bound : ∀ link n, c.tree.nodeOf? link = some n →
    ∀ field ∈ (c.sources.get link).fields,
    field.isReference = true →
      ∃ leaf m, c.bindings.referenced? field.id = some leaf
      ∧ c.tree.nodeOf? leaf = some m

/-- Binding references makes them so. -/
theorem bindReferences_resolvable (ht : Formed c.sources c.tree)
    (hfree : ∀ n, (c.tree.get n).parentAccess = none)
    (hs : Analysis.Referable c) :
    Ensures Analysis.bindReferences c fun _ c' => Resolvable c' := by
  refine ((Analysis.bindReferences_referenced ht).and
    (bindReferences_navigable ht hfree hs)).mono fun _ c' ⟨⟨h, _⟩,
    hnavigable⟩ => ?_
  refine ⟨hnavigable, fun n f hf => ?_, fun n p f hp hf => ?_,
    fun link n hlink field hfield hr => ?_⟩
  · obtain ⟨_, -, -, -, hleads⟩ := h.leads_parentAccess ht hs hfree hf
    exact hleads
  · obtain ⟨leaf, link, field, hleaf, hlink, hfield, href, hid, -⟩ :=
      h.isParentAccess ht hs hfree hp hf
    rw [h.sources]
    exact ⟨leaf, hleaf, link, hlink, field, hfield, hid, href⟩
  · rw [h.form.nodeOf?] at hlink
    rw [h.sources] at hfield
    obtain ⟨leaf, hleaf, hchain⟩ := ht.nodeOf?_eq_some.1 hlink
    have hsite : ⟨n, c.sources.name link, field⟩ ∈ Analysis.referenceSites c :=
      Analysis.mem_referenceSites.2 ⟨leaf, List.mem_map.2 ⟨_, hleaf, rfl⟩,
        ht.nodeOfLeaf?_eq_some.2 hleaf, link, hchain, rfl, hfield, hr⟩
    exact h.leads ht hsite

/-- Other passes leave them so. -/
theorem Resolvable.kept (h : Resolvable c) (hk : Kept c c') :
    Resolvable c' := by
  have hrefs : ∀ id, c'.bindings.referenced? id = c.bindings.referenced? id :=
      fun id => by
    unfold Bindings.referenced?
    rw [hk.references]
  refine ⟨h.toNavigable.kept hk, fun n f hf => ?_, fun n p f hp hf => ?_,
    fun link n hlink field hfield hr => ?_⟩
  · rw [hk.tree.parentAccess] at hf
    unfold fieldNode?
    rw [hrefs, funext hk.tree.form.nodeOf?]
    exact h.leads n f hf
  · rw [hk.tree.form.parent] at hp
    rw [hk.tree.parentAccess] at hf
    obtain ⟨leaf, hleaf, link, hlink, field, hfield, hid, href⟩ :=
      h.declared n p f hp hf
    refine ⟨leaf, (hk.tree.form.decls p).symm ▸ hleaf, link, ?_, field,
      ?_, hid, ?_⟩
    · rw [hk.heads.extensionChain]
      exact hlink
    · rw [hk.fields]
      exact hfield
    · rw [hk.heads.name]
      exact href
  · rw [hk.tree.form.nodeOf?] at hlink
    rw [hk.fields] at hfield
    rw [hrefs, funext hk.tree.form.nodeOf?]
    exact h.bound link n hlink field hfield hr

-- =================================================================== accesses

section

variable (h : Resolvable c)

include h

/-- No part of an access is replaced by anything else. -/
theorem Resolvable.redirect_access (hn : n.index < c.tree.nodes.length)
    (hm : m.index < c.tree.nodes.length) :
    ∀ x ∈ (c.tree.access c.sources n m).subterms, redirect c n x = x := by
  have hb := h.separates.branches
  have haccess :=
    fun {m} hm => h.pathed.access_eq (m := m) h.formed hb hn hm c.sources
  rw [haccess hm]
  have hway := (h.pathed.accessPath_descends h.formed hb hn hm).1
  -- the way down to `m`, and to each node `p` on it
  suffices hdown : ∀ fs p, Descends c.tree (c.tree.nearestEnclosing n m) fs p →
      c.tree.Encloses p m → ∀ x ∈ (fs.foldl (fun e f => Expr.field (some e) f)
        (.self (c.tree.declNames c.sources
          (c.tree.nearestEnclosing n m)).head?)).subterms,
        redirect c n x = x from hdown _ m hway .refl
  intro fs p hdown
  induction hdown with
  | here =>
      intro _ x hx
      rw [List.foldl_nil, Expr.subterms, List.mem_singleton] at hx
      rw [hx]
      rfl
  | @down fs f q p hup hparent hf ih =>
      intro hpm x hx
      have hp : p.index < c.tree.nodes.length := lt_of_parent hparent
      rw [List.foldl_append] at hx
      rcases List.mem_cons.1 hx with rfl | hx
      · -- a whole access is that to the node that its last field leads to
        obtain ⟨hnearest, hpath⟩ :=
          h.pathed.accessPath_of_descends h.formed hb hn hm
            (hup.down hparent hf) hpm
        refine (redirect_of_some
          (referencedNode?_field.trans (h.leads p f hf))).trans ?_
        rw [haccess hp, hnearest, hpath, List.foldl_append]
        rfl
      · exact ih (.head hparent hpm) x hx

/-- A reference field leads to a node of the tree. -/
theorem Resolvable.lt_of_referenced {e : Expr}
    (he : referencedNode? c e = some m) :
    m.index < c.tree.nodes.length := by
  unfold referencedNode? at he
  obtain ⟨f, -, he⟩ := Option.bind_eq_some_iff.1 he
  obtain ⟨leaf, -, hnode⟩ := Option.bind_eq_some_iff.1 he
  obtain ⟨_, hplace, -⟩ := h.formed.nodeOf?_eq_some.1 hnode
  exact h.formed.place _ hplace

/-- Rewritten code is not rewritten again. -/
theorem Resolvable.redirect_rewrite (hn : n.index < c.tree.nodes.length)
    (d : TypeDecl) :
    ∀ x ∈ (d.rewrite (redirect c n)).exprs, redirect c n x = x := by
  obtain ⟨hrewrite, hfixed⟩ := (Transformer.fromAnyState Nat).typeDecl_rewrites
    (knows_replaceAccesses (G := fun x => redirect c n x = x)
      (fun e he => redirect_of_none he)
      fun e target he => h.redirect_access hn (h.lt_of_referenced he)) d 0 ()
  rw [← hrewrite]
  exact hfixed

/-- Only accesses that end with a parent access are there that lead to a
node and are not replaced. -/
theorem Resolvable.isParentAccess_of_fixed {target : Option Expr}
    {f : FieldRef}
    (hn : n.index < c.tree.nodes.length) (hf : fieldNode? c f = some m)
    (hfixed : redirect c n (.field target f) = .field target f) :
    isParentAccess c f.identity = true := by
  have hnode : referencedNode? c (.field target f) = some m := hf
  have hm := h.lt_of_referenced hnode
  have hb := h.separates.branches
  rw [redirect_of_some hnode, h.pathed.access_eq h.formed hb hn hm] at hfixed
  have hway := (h.pathed.accessPath_descends h.formed hb hn hm).1
  generalize c.tree.nearestEnclosing n m = e at hfixed hway
  generalize c.tree.accessPath n m = fs at hfixed hway
  cases hway with
  | here => cases hfixed
  | down _ hparent hf' =>
      rw [List.foldl_append] at hfixed
      obtain rfl := (Expr.field.inj hfixed).2
      exact (h.anchored m _ _ hparent hf').1

end

-- ============================================================== once resolved

/-- The expressions of a declaration without dropped fields are among those
that it had. -/
theorem exprs_dropReferences (d : TypeDecl) :
    ∀ x ∈ (dropReferences c d).exprs, x ∈ d.exprs := by
  intro x hx
  have hfields : ∀ fs : List Field, ∀ x ∈ Node.exprs ((fs.filter fun f =>
      !f.isReference || isParentAccess c f.id).flatMap Field.nodes),
      x ∈ Node.exprs (fs.flatMap Field.nodes) := by
    intro fs x hx
    obtain ⟨node, hnode, hx⟩ := List.mem_filterMap.1 hx
    obtain ⟨f, hf, hnode⟩ := List.mem_flatMap.1 hnode
    exact List.mem_filterMap.2
      ⟨node, List.mem_flatMap.2 ⟨f, (List.mem_filter.1 hf).1, hnode⟩, hx⟩
  cases d
  simp only [dropReferences, TypeDecl.exprs, TypeDecl.nodes,
    Node.exprs_type_cons, Node.exprs_append, List.mem_append] at hx ⊢
  exact hx.imp_left (·.imp_left (·.imp_left (hfields _ x)))

/-- That a link had a reference field which is there no longer. -/
def Dropped (c c' : Compilation) (link : DeclId) (field : Field) : Prop :=
  field ∈ (c.sources.get link).fields ∧ field.isReference = true
    ∧ ∀ field' ∈ (c'.sources.get link).fields, field'.isReference = true →
      field'.id ≠ field.id

/-- That references are resolved for good. -/
structure Settled (c c' : Compilation) : Prop where
  /-- No code of a link accesses a field that was dropped. -/
  dangling : ∀ q ∈ linksWithNodes c', ∀ target f,
    .field target f ∈ (c'.sources.get q.2).exprs →
      ∀ r ∈ linksWithNodes c', ∀ field, Dropped c c' r.2 field →
        f.identity ≠ field.id
  /-- Every parent access is a field of a link of the parent. -/
  declared : ∀ n p f, (c'.tree.get n).parent = some p →
    (c'.tree.get n).parentAccess = some f →
    ∃ leaf ∈ (c'.tree.get p).decls, ∃ link ∈ c'.sources.extensionChain leaf,
      ∃ field ∈ (c'.sources.get link).fields,
        field.ref (c'.sources.name link) = f
  /-- Replacing accesses again leaves the links as they are, -/
  links : ∀ q ∈ linksWithNodes c', ∀ k,
    (((replaceAccesses c' q.1).typeDecl (c'.sources.get q.2)).run k).1
    = c'.sources.get q.2
  /-- and so every access between two nodes. -/
  access : ∀ n m : CompositionId, n.index < c'.tree.nodes.length →
    m.index < c'.tree.nodes.length → ∀ k,
    (((replaceAccesses c' n).expr (c'.tree.access c'.sources n m)).run k).1
      = c'.tree.access c'.sources n m

/-- A field that is known as a parent access is not dropped. -/
theorem Rewritten.exists_field (hr : Rewritten c s) {field : Field}
    (hfield : field ∈ (c.sources.get link).fields)
    (haccess : isParentAccess c field.id = true) :
    ∃ field' ∈ (s.get link).fields, field'.id = field.id
      ∧ field'.name = field.name
      ∧ field'.isReference = field.isReference := by
  by_cases hlink : link ∈ links c
  · obtain ⟨q, hq, rfl⟩ := List.mem_map.1 hlink
    refine ⟨field.rewrite (redirect c q.1), ?_, rfl, rfl, rfl⟩
    rw [hr.link q hq]
    refine List.mem_filter.2 ⟨?_, ?_⟩
    · rw [TypeDecl.fields_rewrite]
      exact List.mem_map.2 ⟨field, hfield, rfl⟩
    · show (!field.isReference || isParentAccess c field.id) = true
      rw [haccess, Bool.or_true]
  · rw [hr.other link hlink]
    exact ⟨field, hfield, rfl, rfl, rfl⟩

section

variable (h : Resolvable c) (hr : Rewritten c s)

include h hr

/-- The code of a link is fixed once it is rewritten. -/
theorem Rewritten.redirect_eq_self {q : CompositionId × DeclId}
    (hq : q ∈ linksWithNodes c) :
    ∀ x ∈ (s.get q.2).exprs, redirect c q.1 x = x := by
  intro x hx
  rw [hr.link q hq] at hx
  obtain ⟨leaf, hleaf, -⟩ :=
    h.formed.nodeOf?_eq_some.1 ((mem_linksWithNodes h.formed).1 hq)
  exact h.redirect_rewrite (h.formed.place _ hleaf) _ x
    (exprs_dropReferences _ x hx)

/-- Rewritten links are settled. -/
theorem Rewritten.settled (hs : c.sources.SameHeads s) :
    Settled c { c with sources := s } := by
  have hlinks : linksWithNodes { c with sources := s } = linksWithNodes c := by
    unfold linksWithNodes Compilation.chains
    simp only [hs.extensionChain]
  have hredirect : ∀ n, redirect { c with sources := s } n = redirect c n :=
    fun n => redirect_congr hr.name
  refine ⟨fun q hq target f he r hr' field hdropped hid => ?_,
    fun n p f hp hf => ?_,
    fun q hq k => ?_, fun n m hn hm k => ?_⟩
  · rw [hlinks] at hq hr'
    obtain ⟨leaf, hleaf, -⟩ :=
      h.formed.nodeOf?_eq_some.1 ((mem_linksWithNodes h.formed).1 hq)
    obtain ⟨hfield, hreference, hgone⟩ := hdropped
    obtain ⟨target', place, htarget', hplace⟩ :=
      h.bound r.2 r.1 ((mem_linksWithNodes h.formed).1 hr') field
        hfield hreference
    have hnode : fieldNode? c f = some place := by
      unfold fieldNode?
      rw [hid, htarget', Option.bind_some, hplace]
    have haccess := h.isParentAccess_of_fixed (h.formed.place _ hleaf) hnode
      (hr.redirect_eq_self h hq _ he)
    rw [hid] at haccess
    obtain ⟨field', hfield', hid', -, hreference'⟩ :=
      hr.exists_field hfield haccess
    exact hgone field' hfield' (hreference'.trans hreference) hid'
  · obtain ⟨leaf, hleaf, link, hlink, field, hfield, hid, href⟩ :=
      h.declared n p f hp hf
    have haccess : isParentAccess c field.id = true :=
      hid ▸ (h.anchored n p f hp hf).1
    obtain ⟨field', hfield', -, hname, -⟩ := hr.exists_field hfield haccess
    refine ⟨leaf, hleaf, link, (hs.extensionChain leaf).symm ▸ hlink, field',
      hfield', ?_⟩
    rw [← href]
    unfold Field.ref
    rw [hname, hs.name]
  · rw [hlinks] at hq
    rw [replaceAccesses_rewrites, hredirect]
    exact TypeDecl.rewrite_eq_self _ (hr.redirect_eq_self h hq)
  · have hnames : (c.tree.access s n m) = c.tree.access c.sources n m := by
      unfold Composition.access declNames
      simp only [funext hr.name]
    rw [replaceAccesses_rewrites_expr, hredirect]
    show (c.tree.access s n m).rewrite _ = c.tree.access s n m
    rw [hnames]
    exact Expr.rewrite_eq_self _ (h.redirect_access hn hm)

end

/-- Let no field be offered as a parent access beforehand, and let the
reference fields of links have the identities derived from their
declarations, no two the same one. If references are bound, with any other
passes before and after, they can be resolved, and then no code of a link
accesses a dropped field, every parent access is still declared, and
replacing accesses again changes neither the links nor any access between
two nodes. -/
theorem resolveReferences_settles {bound : Analysis.ReferenceReport}
    (htree : Built c₀.sources c₀.tree) (hbefore : Passes c₀ c₁)
    (hfree : ∀ n, (c₁.tree.get n).parentAccess = none)
    (hreferable : Analysis.Referable c₁)
    (hbind : Analysis.bindReferences.runOn c₁ = (.ok bound, c₂))
    (hbetween : Passes c₂ c) :
    ∃ report c', resolveReferences.runOn c = (.ok report, c')
      ∧ Settled c c' := by
  have hkept := Passes.kept hbefore
  have ht : Formed c₁.sources c₁.tree :=
    hkept.tree.form.formed (htree.formed.sameHeads hkept.heads)
  have h : Resolvable c :=
    (bindReferences_resolvable ht hfree hreferable _ _ hbind).kept
      (Passes.kept hbetween)
  obtain ⟨report, hrun⟩ := exists_runOn_eq (resolveReferences_succeeds c)
  obtain ⟨s, hs, hr⟩ := resolveReferences_rewrites h.formed _ _ hrun
  obtain ⟨s', hs', hresolved⟩ := resolveReferences_resolved _ _ hrun
  obtain rfl : s = s' := congrArg Compilation.sources (hs.symm.trans hs')
  rw [hs] at hrun
  exact ⟨report, _, hrun, hr.settled h hresolved.sameHeads⟩

/-- In the house the lamp loses the field that led to the site, and the site
keeps the one that leads to the cellar. -/
theorem resolveReferences_settles_house : ∃ bound report c₁ c₂ c₃,
    Analysis.bindReferences.runOn
      { sources := houseSources, tree := houseTree } = (.ok bound, c₁)
      ∧ Passes c₁ c₂ ∧ resolveReferences.runOn c₂ = (.ok report, c₃)
      ∧ Settled c₂ c₃
      ∧ (c₃.sources.get ⟨3⟩).fields.map Field.name = ["light"]
      ∧ (c₃.sources.get ⟨0⟩).fields.map Field.name = ["cellar"] := by
  obtain ⟨bound, hbind⟩ := bindReferences_house
  obtain ⟨report, c₃, hresolve, hsettled⟩ :=
    resolveReferences_settles built_houseTree .refl parentAccess_house
      referable_house hbind passes_house
  refine ⟨bound, report, boundHouse, preparedHouse, c₃, hbind, passes_house,
    hresolve, hsettled, ?_⟩
  have hleft : c₃ = (resolveReferences.runOn preparedHouse).2 := by
    rw [hresolve]
  rw [hleft]
  exact ⟨by decide +kernel, by decide +kernel⟩

-- =============================================================== dropped ways

/-- That the field which leads to the first child is dropped, though no field
was offered beforehand. -/
def DropsWay (s : Sources) (t : Composition) : Prop :=
  Built s t ∧ (∀ n, (t.get n).parentAccess = none)
    ∧ ∃ bound report c c',
    Analysis.bindReferences.runOn { sources := s, tree := t } = (.ok bound, c)
      ∧ resolveReferences.runOn c = (.ok report, c')
      ∧ (c'.tree.get ⟨1⟩).parentAccess = some ⟨"Whole", "part"⟩
      ∧ ∀ d, (c'.sources.get d).fields.map Field.name = []

/-- What the two passes leave. -/
def resolvedOf (s : Sources) (t : Composition) : Compilation :=
  (resolveReferences.runOn
    (Analysis.bindReferences.runOn { sources := s, tree := t }).2).2

theorem dropsWay_of_runs {s : Sources} {t : Composition} (ht : Built s t)
    (hfree : ∀ n, (t.get n).parentAccess = none)
    (hruns : (Analysis.bindReferences.runOn { sources := s, tree := t }).1.isOk
      = true)
    (haccess : ((resolvedOf s t).tree.get ⟨1⟩).parentAccess
      = some ⟨"Whole", "part"⟩)
    (hfields : ∀ d, ((resolvedOf s t).sources.get d).fields.map Field.name
      = []) :
    DropsWay s t := by
  obtain ⟨bound, hbind⟩ := exists_runOn_eq hruns
  obtain ⟨report, hresolve⟩ := exists_runOn_eq (resolveReferences_succeeds
    (Analysis.bindReferences.runOn { sources := s, tree := t }).2)
  exact ⟨ht, hfree, bound, report, _, _, hbind, hresolve, haccess, hfields⟩

/-- One of the two types that a type refers to by fields of one name is
merged into it. -/
def besideTree : Composition :=
  { nodes := [{ decls := [⟨0⟩, ⟨2⟩] }, { parent := some ⟨0⟩, decls := [⟨1⟩] }]
    leafNodes := [(⟨0⟩, ⟨0⟩), (⟨2⟩, ⟨0⟩), (⟨1⟩, ⟨1⟩)]
    linkNodes := [(⟨0⟩, ⟨0⟩), (⟨2⟩, ⟨0⟩), (⟨1⟩, ⟨1⟩)] }

/-- A parent access is dropped where its identity is not that of its name,
and where another reference field has its identity and leads elsewhere. -/
theorem resolveReferences_drops_way :
    DropsWay renamedSources renamedTree
      ∧ DropsWay sameNamedSources besideTree := by
  have hwhole : ∀ {s : Sources},
      Built s (Composition.createChild {} Composition.root).2 :=
    Built.start.child (by decide)
  refine ⟨dropsWay_of_runs ?_ ?_ (by decide +kernel) (by decide +kernel) ?_,
    dropsWay_of_runs ?_ ?_ (by decide +kernel) (by decide +kernel) ?_⟩
  · exact (hwhole.add (n := ⟨0⟩) (d := ⟨0⟩) (by decide) rfl).add
      (n := ⟨1⟩) (d := ⟨1⟩) (by decide) rfl
  · rintro ⟨_ | _ | i⟩ <;> rfl
  · rintro ⟨_ | _ | i⟩ <;> rfl
  · exact ((hwhole.add (n := ⟨0⟩) (d := ⟨0⟩) (by decide) rfl).add
      (n := ⟨0⟩) (d := ⟨2⟩) (by decide) rfl).add (n := ⟨1⟩) (d := ⟨1⟩)
      (by decide) rfl
  · rintro ⟨_ | _ | i⟩ <;> rfl
  · rintro ⟨_ | _ | _ | i⟩ <;> rfl

end Stagewise.Merge
