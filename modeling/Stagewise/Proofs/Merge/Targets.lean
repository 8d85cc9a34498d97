/-
Whether calls find their methods when a chain is folded.

# What stays of a signature

Where a base has a method of some signature the link below has one of it too,
as it is seen from there, unless the base has abstract methods of it only and
the link declares none: these are dropped (`mergeLink_signatures`,
`Abandons`). So a signature comes down the whole chain, or it is lost at some
link (`mergeChain_signatures`).

# What calls refer to

The parameter types in a call are seen from the link that the call is written
in, and those of a method from the link that declares it. Where both come to
the same, as they do if they mention no formal parameter, the call refers in
the folded chain to the signature that the method has there, and the method, or
one that overrides it, is found by it, unless the signature is lost. A call
through `super` that is redirected refers to what the method is kept as, and
this signature comes down as well. So calls of concrete methods stay resolvable
(`mergeChain_resolves`), in nested types too.

A concrete method can be lost all the same, where an abstract one overrides it
(`mergeChain_loses_overridden`).
-/
import Stagewise.Proofs.Merge.Calls
import Stagewise.Proofs.Merge.Nested
import Stagewise.Proofs.Merge.Substitution

namespace Stagewise.Merge

open Step

variable {s : Sources} {chain lower rest above : List DeclId}
variable {link leaf : DeclId}
variable {base derived d : TypeDecl} {owner : String} {there ps : List Profile}
variable {p : Profile}
variable {σ : Signature} {r target : MethodRef} {κ : Conversion} {site : Site}

-- =================================================================== one link

/-- A method that is static or concrete leaves its signature where it is
appended, its own or that of the method that overrides it. -/
theorem signature_mem_appendAll (hp : p ∈ ps)
    (hkept : p.isStatic = true ∨ p.isAbstract = false) :
    p.signature ∈ (appendAll owner there ps).map Profile.signature := by
  obtain ⟨before, after, rfl⟩ := List.append_of_mem hp
  suffices hsome : ∃ o ∈ appendAll owner there (before ++ [p]),
      o.signature = p.signature by
    obtain ⟨o, ho, hsame⟩ := hsome
    have hprefix :=
      prefix_appendAll owner (appendAll owner there (before ++ [p])) after
    rw [← appendAll_append, List.append_assoc] at hprefix
    exact List.mem_map.2 ⟨o, hprefix.subset ho, hsame⟩
  have hstep : appendAll owner there (before ++ [p])
      = appendAll owner there before
        ++ (appended? owner (appendAll owner there before) p).toList := by
    rw [appendAll_append]
    rfl
  rw [hstep]
  by_cases hthere : ∃ o ∈ appendAll owner there before,
    o.signature = p.signature
  · obtain ⟨o, ho, hsame⟩ := hthere
    exact ⟨o, List.mem_append_left _ ho, hsame⟩
  · have hself : appended? owner (appendAll owner there before) p
        = some p := by
      by_cases hstatic : p.isStatic = true
      · exact if_pos hstatic
      · apply appended?_eq_self (Bool.eq_false_iff.2 hstatic)
          (hkept.resolve_left hstatic)
        intro o ho hsame
        exact hthere ⟨o, ho, hsame⟩
    exact ⟨p, by simp [hself], rfl⟩

/-- That a base has methods of a signature, which are all abstract ones of
objects, and that the declaration extending it has none. -/
def Abandons (base derived : TypeDecl) (σ : Signature) : Prop :=
  σ ∉ derived.signatures
    ∧ (∃ p ∈ profiles (instantiate base derived).1, p.signature = σ)
    ∧ ∀ p ∈ profiles (instantiate base derived).1, p.signature = σ →
      p.isStatic = false ∧ p.isAbstract = true

/-- The signatures of a base are there, as they are seen, unless they are
abandoned. -/
theorem mergeLink_signatures (h : mergeLink base derived = .ok d)
    (hσ : σ ∈ base.signatures) :
    σ.view (instantiated base derived) ∈ d.signatures
      ∨ Abandons base derived (σ.view (instantiated base derived)) := by
  obtain ⟨p, hp, rfl⟩ : ∃ p ∈ profiles base, p.signature = σ := by
    rw [← map_signature_profiles] at hσ
    exact List.mem_map.1 hσ
  have hinherited : p.mapTypes (instantiated base derived)
      ∈ profiles (instantiate base derived).1 := by
    rw [profiles_instantiate]
    exact List.mem_map_of_mem hp
  rw [← signature_mapTypes, ← map_signature_profiles, profiles_mergeLink h]
  by_cases hown : (p.mapTypes (instantiated base derived)).signature
    ∈ derived.signatures
  · rw [← map_signature_profiles] at hown
    obtain ⟨o, ho, hsame⟩ := List.mem_map.1 hown
    exact Or.inl
      (List.mem_map.2 ⟨o, (prefix_appendAll _ _ _).subset ho, hsame⟩)
  · by_cases hkept : ∃ q ∈ profiles (instantiate base derived).1,
        q.signature = (p.mapTypes (instantiated base derived)).signature
          ∧ (q.isStatic = true ∨ q.isAbstract = false)
    · obtain ⟨q, hq, hsame, hq'⟩ := hkept
      rw [← hsame]
      exact Or.inl (signature_mem_appendAll hq hq')
    · refine Or.inr ⟨hown, ⟨_, hinherited, rfl⟩, fun q hq hsame => ?_⟩
      have hnot : ¬ (q.isStatic = true ∨ q.isAbstract = false) := fun hq' =>
        hkept ⟨q, hq, hsame, hq'⟩
      simpa using hnot

-- =============================================================== whole chains

/-- That a signature of a folded chain is what is seen of one that is abandoned
at some link, when what is above is merged into it. -/
def IsLost (s : Sources) (chain : List DeclId) (σ : Signature) : Prop :=
  ∃ lower derived above base τ, chain = lower ++ derived :: above
    ∧ mergeChain s above = .ok base
    ∧ Abandons base (s.get derived) τ
    ∧ σ = τ.view (seen s lower (derived :: above))

/-- What is abandoned at the lowest link is lost. -/
theorem Abandons.isLost (h : Abandons base (s.get leaf) σ)
    (hbase : mergeChain s above = .ok base) :
    IsLost s (leaf :: above) σ :=
  ⟨[], leaf, above, base, σ, rfl, hbase, h, (Signature.view_id σ).symm⟩

/-- What is lost stays so at the next link. -/
theorem IsLost.below (h : IsLost s chain σ)
    (hbase : mergeChain s chain = .ok base) :
    IsLost s (leaf :: chain) (σ.view (instantiated base (s.get leaf))) := by
  obtain ⟨lower, derived, above, upper, τ, rfl, hupper, habandons, rfl⟩ := h
  refine ⟨leaf :: lower, derived, above, upper, τ, rfl, hupper, habandons, ?_⟩
  rw [Signature.view_view, seen_cons hbase]

/-- A signature comes down a chain, as it is seen from below, or it is lost. -/
theorem mergeChain_signatures (hrest : mergeChain s rest = .ok base)
    (h : mergeChain s (lower ++ rest) = .ok d) (hσ : σ ∈ base.signatures) :
    σ.view (seen s lower rest) ∈ d.signatures
      ∨ IsLost s (lower ++ rest) (σ.view (seen s lower rest)) := by
  induction lower generalizing d with
  | nil =>
      obtain rfl := Except.ok.inj (hrest.symm.trans h)
      rw [seen_nil, Signature.view_id]
      exact Or.inl hσ
  | cons leaf lower ih =>
      have hne : lower ++ rest ≠ [] := by
        intro hnil
        obtain ⟨rfl, rfl⟩ := List.append_eq_nil_iff.1 hnil
        cases hrest
      obtain ⟨folded, hfolded, hlink⟩ := exists_mergeLink h hne
      rw [seen_cons hfolded, ← Signature.view_view]
      rcases ih hfolded with hmem | hlost
      · exact (mergeLink_signatures hlink hmem).imp_right fun habandons =>
          habandons.isLost hfolded
      · exact Or.inr (hlost.below hfolded)

/-- The signature of a method that a link declares comes down to the leaf, or
it is lost. -/
theorem mergeChain_declares (h : mergeChain s (lower ++ link :: above) = .ok d)
    (hσ : σ ∈ (s.get link).signatures) :
    σ.view (seen s lower (link :: above)) ∈ d.signatures
      ∨ IsLost s (lower ++ link :: above)
        (σ.view (seen s lower (link :: above))) := by
  obtain ⟨base, hbase⟩ := mergeChain_upper h (List.cons_ne_nil link above)
  refine mergeChain_signatures hbase h ?_
  rw [← map_signature_profiles] at hσ ⊢
  exact ((prefix_mergeChain hbase).map Profile.signature).subset hσ

-- =========================================================== redirected calls

/-- What calls are redirected to when a base is merged is there. -/
theorem redirect_mem_mergeLink (before : List Profile)
    (h : mergeLink base derived = .ok d)
    (hsplit : profiles (instantiate base derived).1 = before ++ ps)
    (hredirect : (redirections base.name (overriddenIn base.name
      (appendAll base.name (profiles derived) before) ps)).redirect r
    = some target) :
    target.signature ∈ d.signatures := by
  unfold redirections at hredirect
  dsimp only at hredirect
  split at hredirect
  · rename_i hmem
    obtain rfl := Option.some.inj hredirect
    obtain ⟨p, hp, hsame⟩ := List.mem_map.1 hmem
    have hkept : p.renamed base.name ∈ profiles d := by
      rw [profiles_mergeLink h, name_instantiate, hsplit, appendAll_append]
      exact renamed_mem_appendAll hp
    have hname : p.name = r.name := congrArg Prod.fst hsame
    have hparams : p.params = r.params := congrArg Prod.snd hsame
    have hsignature : (keptRef base.name r).signature
        = (p.renamed base.name).signature := by
      show (Convention.overriddenName base.name r.name, r.params)
        = (Convention.overriddenName base.name p.name, p.params)
      rw [hname, hparams]
    rw [hsignature, ← map_signature_profiles]
    exact List.mem_map_of_mem hkept
  · cases hredirect

/-- What code of a link calls instead, at the link or on its way down, is the
signature of a method there, or it is lost. -/
theorem Descends.redirect_declared (h : Descends s rest site lower κ)
    (hfolded : mergeChain s (lower ++ rest) = .ok d)
    (hredirect : κ.redirect r = some target) :
    target.signature ∈ d.signatures
      ∨ IsLost s (lower ++ rest) target.signature := by
  induction h generalizing d target with
  | own =>
      refine Or.inl ?_
      cases rest with
      | nil => cases hfolded
      | cons link above =>
          rcases mergeChain_cases hfolded with ⟨rfl, -⟩ | ⟨base, hbase, hlink⟩
          · cases hredirect
          · rw [redirectionsAmong_cons hbase] at hredirect
            exact redirect_mem_mergeLink [] hlink rfl hredirect
  | @cross leaf lower base κ κ' hdescends hbase hcrosses ih =>
      have hlink : mergeLink base (s.get leaf) = .ok d := by
        have hne : lower ++ rest ≠ [] := by
          intro hnil
          rw [hnil] at hbase
          cases hbase
        obtain ⟨base', hbase', hlink⟩ := exists_mergeLink hfolded hne
        obtain rfl := Except.ok.inj (hbase.symm.trans hbase')
        exact hlink
      cases hupper : κ.redirect r with
      | some target' =>
          -- it is redirected further up, and only seen from here
          rw [Conversion.redirect_after_of_some hupper, hcrosses.type_eq]
            at hredirect
          obtain rfl := Option.some.inj hredirect
          show target'.signature.view _ ∈ _
            ∨ IsLost s _ (target'.signature.view _)
          rcases ih hbase hupper with hmem | hlost
          · exact (mergeLink_signatures hlink hmem).imp_right fun habandons =>
              habandons.isLost hbase
          · exact Or.inr (hlost.below hbase)
      | none =>
          rw [Conversion.redirect_after_of_none hupper] at hredirect
          refine Or.inl ?_
          cases hcrosses with
          | field id =>
              rw [Conversion.redirect_after_of_none rfl] at hredirect
              exact redirect_mem_mergeLink [] hlink rfl hredirect
          | constructor ρ => cases hredirect
          | @method before after p hsplit =>
              rw [Conversion.redirect_after_of_none rfl] at hredirect
              have hbehind : profiles (instantiate base (s.get leaf)).1
                  = (before ++ [p]) ++ after := by
                rw [hsplit, List.append_assoc, List.singleton_append]
              exact redirect_mem_mergeLink _ hlink hbehind hredirect

-- ================================================================== all calls

/-- That in code of a link every call of a concrete method which a link
declares, the parameter types of both being seen as the same in the folded
chain, is a call of some method of the folded chain, unless the signature that
it refers to there is lost. If it is not one through `super`, it still refers
to what it did, as this is seen. -/
def Resolves (s : Sources) (chain : List DeclId) (d : TypeDecl)
    (lower : List DeclId)
    (link : DeclId) (above : List DeclId) (κ : Conversion) : Prop :=
  ∀ t r args lower' impl above' m, chain = lower' ++ impl :: above' →
    m ∈ (s.get impl).methods → m.isAbstract = false → m.isTargetOf r = true →
    r.params.map (seen s lower (link :: above))
      = r.params.map (seen s lower' (impl :: above')) →
    ∃ t' r', (Expr.call t r args).convert κ
      = .call t' r' (args.map (Expr.convert κ))
      ∧ (Expr.isSuper t = false →
        r' = r.mapTypes (seen s lower (link :: above)))
      ∧ ((∃ m' ∈ d.methods, m'.isTargetOf r' = true)
        ∨ IsLost s chain r'.signature)

theorem Descends.resolves (h : mergeChain s (lower ++ link :: above) = .ok d)
    (hdescends : Descends s (link :: above) site lower κ) :
    Resolves s (lower ++ link :: above) d lower link above κ := by
  intro t r args lower' impl above' m hchain hm habstract htarget hseen
  have hfound : ∀ r' : MethodRef, r'.signature ∈ d.signatures →
      ∃ m' ∈ d.methods, m'.isTargetOf r' = true := by
    intro r' hmem
    obtain ⟨m', hm', hsame⟩ := List.mem_map.1 hmem
    exact ⟨m', hm', Method.isTargetOf_iff.2 hsame⟩
  by_cases hredirected : ∃ target, Expr.isSuper t = true
    ∧ κ.redirect r = some target
  · obtain ⟨target, hsuper, hsome⟩ := hredirected
    obtain rfl := Expr.isSuper_iff.1 hsuper
    refine ⟨none, target, Expr.convert_super_of_some κ hsome args, nofun, ?_⟩
    exact (hdescends.redirect_declared h hsome).imp_left (hfound target)
  · -- the call stays, and refers to the method as it is seen
    have hnone :
        Expr.isSuper (Expr.rewriteTarget (Expr.convertTop κ) t) = true →
        κ.redirect r = none := by
      intro hsuper
      rw [Expr.isSuper_rewriteTarget] at hsuper
      exact Option.eq_none_iff_forall_ne_some.2 fun target hsome =>
        hredirected ⟨target, hsuper, hsome⟩
    have hcall : (Expr.call t r args).convert κ
        = .call (Expr.rewriteTarget (Expr.convertTop κ) t)
        (r.mapTypes κ.type) (args.map (Expr.convert κ)) := by
      rw [Expr.convert_call, Expr.convertCall_of_none κ hnone,
        Expr.rewriteAll_eq_map]
      rfl
    refine ⟨_, _, hcall, fun _ => hdescends.type_eq ▸ rfl, ?_⟩
    have hsignature : (r.mapTypes κ.type).signature
        = m.signature.view (seen s lower' (impl :: above')) := by
      rw [Method.isTargetOf_iff.1 htarget, hdescends.type_eq]
      exact congrArg (Prod.mk r.name) hseen
    rw [hsignature]
    rw [hchain] at h ⊢
    refine (mergeChain_declares h (List.mem_map_of_mem hm)).imp_left
      fun hmem => ?_
    exact hfound _ (hsignature ▸ hmem)

/-- In the code of a folded chain, and of the types nested in it, the calls of
concrete methods that the links declare are resolvable. -/
theorem mergeChain_resolves (h : mergeChain s chain = .ok d) :
    (Conveys s chain d fun lower link above _ κ => Resolves s chain d lower
      link above κ)
      ∧ ConveysInner s chain d fun lower link above κ =>
        Resolves s chain d lower link above κ := by
  constructor
  · refine (mergeChain_conveys h).imp
      fun lower link above site κ hchain hdescends => ?_
    subst hchain
    exact hdescends.resolves h
  · refine (mergeChain_conveysInner h).imp
      fun lower link above κ hchain hdescends => ?_
    subst hchain
    exact (hdescends default).resolves h

/-- A type that mentions no formal parameter is seen as it is. -/
theorem seen_eq_self {t : TypeRef} (ht : t.params = []) :
    seen s lower rest t = t := by
  induction lower with
  | nil => rfl
  | cons leaf lower ih =>
      rw [seen]
      split
      · rw [ih, instantiated_eq_subst]
        exact TypeRef.subst_eq_self fun p hp =>
          absurd (ht ▸ hp) List.not_mem_nil
      · rfl

/-- Calls of methods whose parameter types mention no formal parameter are
resolvable wherever they are made. -/
theorem Resolves.of_closed (h : Resolves s chain d lower link above κ)
    {lower' above' : List DeclId} {impl : DeclId} {m : Method}
    (hchain : chain = lower' ++ impl :: above') (hm : m ∈ (s.get impl).methods)
    (habstract : m.isAbstract = false) (htarget : m.isTargetOf r = true)
    (hclosed : ∀ t ∈ r.params, t.params = []) (t : Option Expr)
    (args : List Expr) :
    ∃ t' r', (Expr.call t r args).convert κ
      = .call t' r' (args.map (Expr.convert κ))
      ∧ ((∃ m' ∈ d.methods, m'.isTargetOf r' = true)
        ∨ IsLost s chain r'.signature) := by
  have hseen : ∀ low rest, r.params.map (seen s low rest)
      = r.params := fun low rest =>
    (List.map_congr_left fun t ht => seen_eq_self (hclosed t ht)).trans
      (List.map_id _)
  obtain ⟨t', r', hcall, -, hfound⟩ :=
    h t r args lower' impl above' m hchain hm habstract htarget
    ((hseen _ _).trans (hseen _ _).symm)
  exact ⟨t', r', hcall, hfound⟩

/-- A base with a formal parameter and a leaf that extends it with an
argument. -/
def genericSources (arg : TypeRef) (upper lower : List Method) : Sources :=
  let base : TypeDecl :=
    { TypeDecl.participating "Base" with
      typeParams := ["T"], methods := upper }
  let leaf : TypeDecl :=
    { TypeDecl.participating "Leaf" with
      superclass := some (.generic "Base" [arg]), methods := lower }
  { decls := [base, leaf].map TypeDecl.assignIdentities }

/-- A method that takes a value of the formal parameter. -/
def putMethod : Method :=
  { Method.simple "put" .void with
    params := [{ type := .param "T", name := "value" }] }

/-- The base calls its own method, which takes what the leaf extends it
with. -/
def putSources : Sources :=
  genericSources (.named "String")
    [putMethod, ownCaller "all" [⟨"Base", "put", [.param "T"]⟩]] []

/-- The call refers to the method as the leaf has it. -/
theorem mergeChain_resolves_put : ∃ d κ,
    mergeChain putSources [⟨1⟩, ⟨0⟩] = .ok d
      ∧ (∃ all ∈ (putSources.get ⟨0⟩).methods, all.name = "all"
        ∧ all.script.convert κ ∈ d.scripts)
      ∧ (∃ t', (Expr.call none ⟨"Base", "put", [.param "T"]⟩ []).convert κ
        = .call t' ⟨"Base", "put", [.named "String"]⟩ [])
      ∧ ∃ m ∈ d.methods,
      m.isTargetOf ⟨"Base", "put", [.named "String"]⟩ = true := by
  have hfolded : (mergeChain putSources [⟨1⟩, ⟨0⟩]).toOption.map bodyTexts
      = some [("put", []), ("all", ["put()"])] := by
    decide +kernel
  obtain ⟨d, hok, -⟩ := exists_eq_ok_of_map hfolded
  obtain ⟨all, hall, hname, hthere⟩ : ∃ m ∈ (putSources.get ⟨0⟩).methods,
      m.name = "all"
      ∧ ∀ i, ∀ hi : i
        < (profiles (instantiate (putSources.get ⟨0⟩)
          (putSources.get ⟨1⟩)).1).length,
        (appended? "Base" (appendAll "Base" (profiles (putSources.get ⟨1⟩))
          ((profiles (instantiate (putSources.get ⟨0⟩)
            (putSources.get ⟨1⟩)).1).take i))
          (profiles (instantiate (putSources.get ⟨0⟩)
            (putSources.get ⟨1⟩)).1)[i]).isSome := by
    decide +kernel
  have harrives : ¬ DroppedBelow putSources [⟨0⟩] all.script.site [⟨1⟩] := by
    rintro (⟨base, hbase, before, p, after, hsplit, -, hdrops⟩ | hnone)
    · obtain rfl : putSources.get ⟨0⟩ = base := Except.ok.inj hbase
      have hsome := forall_split (P := fun before p => (appended? "Base"
        (appendAll "Base" (profiles (putSources.get ⟨1⟩)) before) p).isSome)
        hthere before p after hsplit
      exact absurd (Option.isSome_iff_ne_none.1 hsome) (not_not_intro hdrops)
    · exact hnone
  have hscript : all.script ∈ (putSources.get ⟨0⟩).scripts :=
    TypeDecl.mem_scripts.2 (Or.inr (Or.inr ⟨all, hall, rfl⟩))
  obtain ⟨κ, hκ, hmem⟩ :=
    ((mergeChain_resolves hok).1.arrival [⟨1⟩] ⟨0⟩ [] rfl all.script hscript
      Site.noConfusion).resolve_right harrives
  -- the method that is called
  obtain ⟨put, hput, habstract, htarget⟩ : ∃ m ∈ (putSources.get ⟨0⟩).methods,
      m.isAbstract = false
        ∧ m.isTargetOf ⟨"Base", "put", [.param "T"]⟩ = true := by
    decide +kernel
  obtain ⟨t', r', hcall, hseen, hfound⟩ :=
    hκ none ⟨"Base", "put", [.param "T"]⟩ [] [⟨1⟩] ⟨0⟩ []
    put rfl hput habstract htarget rfl
  have hstring : r' = ⟨"Base", "put", [.named "String"]⟩ :=
    (hseen rfl).trans (by decide +kernel)
  subst hstring
  refine ⟨d, κ, hok, ⟨all, hall, hname, hmem⟩, ⟨t', hcall⟩,
    hfound.resolve_right ?_⟩
  -- what the leaf gets of this signature is concrete
  rintro ⟨lower, derived, above, base, τ, hchain, hbase, ⟨-, -, hnone⟩, hsame⟩
  obtain ⟨rfl, rfl, rfl⟩ : lower = [] ∧ derived = ⟨1⟩ ∧ above = [⟨0⟩] := by
    cases lower with
    | nil => simpa [eq_comm] using hchain
    | cons low lower =>
        obtain ⟨-, hrest⟩ := List.cons.inj hchain
        have hnil : above = [] := by
          cases lower with
          | nil => exact (List.cons.inj hrest).2.symm
          | cons low' lower => simp at hrest
        rw [hnil] at hbase
        cases hbase
  obtain rfl : putSources.get ⟨0⟩ = base := Except.ok.inj hbase
  obtain ⟨p, hp, hsignature, hconcrete⟩ :
      ∃ p ∈ profiles (instantiate (putSources.get ⟨0⟩) (putSources.get ⟨1⟩)).1,
        p.signature = ("put", [.named "String"]) ∧ p.isAbstract = false := by
    decide +kernel
  have hτ : τ = ("put", [.named "String"]) :=
    (Signature.view_id τ).symm.trans hsame.symm
  exact absurd (hconcrete.symm.trans (hnone p hp (hsignature.trans hτ.symm)).2)
    Bool.false_ne_true

/-- Three links, of which the one in the middle declares abstract what the
upper one calls. -/
def lostSources : Sources :=
  let base : TypeDecl :=
    { TypeDecl.participating "Base" with
      methods := [.simple "run" .void,
        ownCaller "start" [⟨"Base", "run", []⟩]] }
  let mid : TypeDecl :=
    { TypeDecl.participating "Mid" with
      superclass := some (.named "Base")
      methods := [{ Method.simple "run" .void with body := none }] }
  let leaf : TypeDecl :=
    { TypeDecl.participating "Leaf" with superclass := some (.named "Mid") }
  { decls := [base, mid, leaf].map TypeDecl.assignIdentities }

/-- Where an abstract method overrides the one that is called, and nothing
overrides that, the call is left without a method. -/
theorem mergeChain_loses_overridden :
    ∃ d, mergeChain lostSources [⟨2⟩, ⟨1⟩, ⟨0⟩] = .ok d
    ∧ (∃ run ∈ (lostSources.get ⟨0⟩).methods, run.isAbstract = false
      ∧ run.isTargetOf ⟨"Base", "run", []⟩ = true)
    ∧ ownCalls (lostSources.get ⟨0⟩)
      = [("run", []), ("start", [⟨"Base", "run", []⟩])]
    ∧ ownCalls d = [("start", [⟨"Base", "run", []⟩])]
    ∧ ∀ m ∈ d.methods, m.isTargetOf ⟨"Base", "run", []⟩ = false := by
  have hfolded : (mergeChain lostSources [⟨2⟩, ⟨1⟩, ⟨0⟩]).toOption.map
      (fun d => (ownCalls d, d.methods.map (·.isTargetOf ⟨"Base", "run", []⟩)))
      = some ([("start", [⟨"Base", "run", []⟩])], [false]) := by
    decide +kernel
  obtain ⟨d, hok, hmethods⟩ := exists_eq_ok_of_map hfolded
  obtain ⟨hcalls, htargets⟩ := Prod.mk.inj hmethods
  refine ⟨d, hok, by decide +kernel, by decide +kernel, hcalls, fun m hm => ?_⟩
  have htarget : m.isTargetOf ⟨"Base", "run", []⟩ ∈ [false] :=
    htargets ▸ List.mem_map_of_mem hm
  exact List.mem_singleton.1 htarget

/-- Where the call is made below, it is seen from there, and the formal
parameter that it names is not the one that has been replaced. -/
theorem mergeChain_keeps_formal : ∃ d, mergeChain
      (genericSources (.named "String") [putMethod]
        [ownCaller "all" [⟨"Base", "put", [.param "T"]⟩]]) [⟨1⟩, ⟨0⟩] = .ok d
    ∧ ownCalls d = [("all", [⟨"Base", "put", [.param "T"]⟩]), ("put", [])]
    ∧ d.signatures = [("all", []), ("put", [.named "String"])] := by
  have hfolded : (mergeChain (genericSources (.named "String") [putMethod]
      [ownCaller "all" [⟨"Base", "put", [.param "T"]⟩]]) [⟨1⟩,
      ⟨0⟩]).toOption.map
        (fun d => (ownCalls d, d.signatures))
      = some ([("all", [⟨"Base", "put", [.param "T"]⟩]), ("put", [])],
        [("all", []), ("put", [.named "String"])]) := by
    decide +kernel
  obtain ⟨d, hok, hmethods⟩ := exists_eq_ok_of_map hfolded
  obtain ⟨hcalls, hsignatures⟩ := Prod.mk.inj hmethods
  exact ⟨d, hok, hcalls, hsignatures⟩

end Stagewise.Merge
