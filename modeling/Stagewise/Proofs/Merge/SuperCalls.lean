/-
Where calls through `super` end up when a chain is folded.

# The way of the code

The code of a folded chain is that of its links (`mergeChain_conveys`). On its
way down it is converted once at its own link, when what is above is merged in,
and once more at each link below (`Descends`).

# Redirected calls

At its own link a call is redirected if the method that it means is concrete
and the link has a concrete method of the same signature. The redirected call
is no call through `super` any more, so it stays, and it means the method that
it did before, under the name that this is kept under
(`mergeChain_redirects`). Where the link has no such method nothing is done,
and the call stays one through `super`.

# Other calls

A call of a method that no link above declares is not redirected at its own
link. Further down it is when a method ahead of which it comes is overridden
there (`Captures`), though it does not mean that method. Apart from that it
stays (`mergeChain_spares`). In constructors it always does.
-/
import Stagewise.Proofs.Merge.Naming
import Stagewise.Proofs.Merge.Redirection
import Stagewise.Proofs.Step

namespace Stagewise

variable {κ κ₁ κ₂ : Conversion} {r target : MethodRef}

-- ======================================================== calls of one method

/-- That calls of a method through `super` become calls of another one on the
object itself. -/
def Conversion.Redirects (κ : Conversion) (r target : MethodRef) : Prop :=
  ∀ args, (Expr.call (some .super) r args).convert κ
    = .call none target (args.map (Expr.convert κ))

/-- That calls of a method through `super` stay such calls. -/
def Conversion.Spares (κ : Conversion) (r : MethodRef) : Prop :=
  ∀ args, (Expr.call (some .super) r args).convert κ
    = .call (some .super) (r.mapTypes κ.type) (args.map (Expr.convert κ))

theorem Conversion.redirects_of_some (h : κ.redirect r = some target) :
    κ.Redirects r target :=
  Expr.convert_super_of_some κ h

theorem Conversion.spares_of_none (h : κ.redirect r = none) : κ.Spares r :=
  Expr.convert_super_of_none κ h

theorem Signature.view_view (f g : TypeRef → TypeRef) (σ : Signature) :
    (σ.view f).view g = σ.view (g ∘ f) := by
  unfold Signature.view
  rw [List.map_map]

namespace Merge

open Convention Step

variable {s : Sources} {chain lower rest above : List DeclId}
variable {link leaf : DeclId}
variable {base derived d : TypeDecl} {x : Script} {site : Site} {p : Profile}

-- ================================================================== one link

theorem Crosses.type_eq (h : Crosses base derived site κ) :
    κ.type = instantiated base derived := by
  cases h <;> rfl

/-- Whether code of a base is in the merged declaration when its methods
`before` are: that of these methods is, that of its fields is anyway, and that
of its constructors is not. -/
def IsAhead (before : List Profile) : Site → Prop
  | .field _ => True
  | .constructor => False
  | .method id => ∃ q ∈ before, q.id = id

/-- That code of a base is in the merged declaration before a method is merged
that is overridden there, and that this has the signature of a method that the
code calls. -/
def Captures (base derived : TypeDecl) (site : Site) (r : MethodRef) : Prop :=
  ∃ before p after, profiles (instantiate base derived).1
    = before ++ p :: after
    ∧ isRedirected (appendAll base.name (profiles derived) before) p = true
    ∧ p.signature = r.signature ∧ IsAhead before site

/-- Calls are redirected at a link only where they are captured. -/
theorem Crosses.redirect_eq_none (h : Crosses base derived site κ)
    (hr : ¬ Captures base derived site
      (r.mapTypes (instantiated base derived))) :
    κ.redirect r = none := by
  cases h with
  | field id =>
      rw [Conversion.redirect_after_of_none rfl]
      refine redirect_redirections_eq_none fun hmem => hr ?_
      obtain ⟨p, hp, hsame⟩ := List.mem_map.1 hmem
      obtain ⟨before, after, hsplit, hredirected⟩ := mem_overriddenIn.1 hp
      exact ⟨before, p, after, hsplit, hredirected, hsame, trivial⟩
  | constructor ρ => rfl
  | @method front rest q hfront =>
      rw [Conversion.redirect_after_of_none rfl]
      refine redirect_redirections_eq_none fun hmem => hr ?_
      obtain ⟨p, hp, hsame⟩ := List.mem_map.1 hmem
      obtain ⟨before, after, rfl, hredirected⟩ := mem_overriddenIn.1 hp
      rw [← appendAll_append, List.append_assoc] at hredirected
      refine ⟨front ++ q :: before, p, after, ?_, hredirected, hsame,
        q, by simp, rfl⟩
      rw [hfront, List.append_assoc, List.cons_append]

-- =============================================================== whole chains

/-- What is redirected at the lowest of some links. -/
def redirectionsAmong (s : Sources) : List DeclId → Conversion
  | [] => {}
  | link :: above =>
      match mergeChain s above with
      | .ok base => redirectionsAt base (s.get link)
      | .error _ => {}

/-- How code at a site in the lowest of the links `rest` may be converted on
its way through the links below. -/
inductive Descends (s : Sources) (rest : List DeclId) (site : Site) :
    List DeclId → Conversion → Prop
  | own : Descends s rest site [] (redirectionsAmong s rest)
  | cross {leaf : DeclId} {lower : List DeclId} {base : TypeDecl}
      {κ κ' : Conversion} :
      Descends s rest site lower κ → mergeChain s (lower ++ rest) = .ok base →
      Crosses base (s.get leaf) site κ' →
        Descends s rest site (leaf :: lower) (κ'.after κ)

/-- That code at a site is dropped at one of the links below. -/
def DroppedBelow (s : Sources) (rest : List DeclId) (site : Site) :
    List DeclId → Prop
  | [] => False
  | leaf :: lower =>
      (∃ base, mergeChain s (lower ++ rest) = .ok base
        ∧ Drops base (s.get leaf) site)
        ∨ DroppedBelow s rest site lower

/-- That the code of a folded chain is that of its links, converted in a way
that `P` holds of. All of it comes from there; what a field or a method of a
link has comes there, unless it is dropped. -/
structure Conveys (s : Sources) (chain : List DeclId) (d : TypeDecl)
    (P : List DeclId → DeclId → List DeclId → Site → Conversion → Prop) :
    Prop where
  origin : ∀ x ∈ d.scripts, ∃ lower link above, chain = lower ++ link :: above
    ∧ ∃ y ∈ (s.get link).scripts, ∃ κ, P lower link above y.site κ
    ∧ x = y.convert κ
  arrival : ∀ lower link above, chain = lower ++ link :: above →
    ∀ y ∈ (s.get link).scripts, y.site ≠ .constructor →
      (∃ κ, P lower link above y.site κ ∧ y.convert κ ∈ d.scripts)
        ∨ DroppedBelow s (link :: above) y.site lower

theorem Conveys.imp
    {P Q : List DeclId → DeclId → List DeclId → Site → Conversion → Prop}
    (h : Conveys s chain d P)
    (hPQ : ∀ lower link above site κ, chain = lower ++ link :: above →
      P lower link above site κ → Q lower link above site κ) :
    Conveys s chain d Q where
  origin x hx := by
    obtain ⟨lower, link, above, hchain, y, hy, κ, hκ, hx⟩ := h.origin x hx
    exact ⟨lower, link, above, hchain, y, hy, κ, hPQ _ _ _ _ _ hchain hκ, hx⟩
  arrival lower link above hchain y hy hsite :=
    (h.arrival lower link above hchain y hy hsite).imp_left fun ⟨κ,
        hκ, hmem⟩ =>
      ⟨κ, hPQ _ _ _ _ _ hchain hκ, hmem⟩

theorem redirectionsAmong_cons (h : mergeChain s above = .ok base) :
    redirectionsAmong s (link :: above)
      = redirectionsAt base (s.get link) := by
  rw [redirectionsAmong, h]

/-- All code of a folded chain has descended. -/
theorem exists_descends (h : mergeChain s chain = .ok d) (hx : x ∈ d.scripts) :
    ∃ lower link above, chain = lower ++ link :: above
      ∧ ∃ y ∈ (s.get link).scripts, ∃ κ,
      Descends s (link :: above) y.site lower κ ∧ x = y.convert κ := by
  induction chain generalizing d x with
  | nil => cases h
  | cons leaf above ih =>
      rcases mergeChain_cases h with ⟨rfl, rfl⟩ | ⟨base, hbase, hlink⟩
      · exact ⟨[], leaf, [], rfl, x, hx, {}, .own,
          (Script.convert_empty x).symm⟩
      · rcases crosses_of_mem_mergeLink hlink hx with ⟨y, hy, rfl⟩
          | ⟨y, hy, κ', hcrosses, rfl⟩
        · exact ⟨[], leaf, above, rfl, y, hy, _, .own,
            redirectionsAmong_cons hbase ▸ rfl⟩
        · obtain ⟨lower, link, above', rfl, z, hz, κ, hdescends, rfl⟩ :=
            ih hbase hy
          exact ⟨leaf :: lower, link, above', rfl, z, hz, κ'.after κ,
            hdescends.cross hbase hcrosses, Script.convert_convert κ κ' z⟩

/-- The code of a link descends. -/
theorem descends_mem (h : mergeChain s (lower ++ link :: above) = .ok d)
    (hx : x ∈ (s.get link).scripts) (hsite : x.site ≠ .constructor) :
    (∃ κ, Descends s (link :: above) x.site lower κ ∧ x.convert κ ∈ d.scripts)
      ∨ DroppedBelow s (link :: above) x.site lower := by
  induction lower generalizing d with
  | nil =>
      refine Or.inl ⟨_, .own, ?_⟩
      rcases mergeChain_cases h with ⟨rfl, rfl⟩ | ⟨base, hbase, hlink⟩
      · exact (Script.convert_empty x).symm ▸ hx
      · rw [redirectionsAmong_cons hbase]
        exact own_mem_mergeLink hlink hx hsite
  | cons leaf lower ih =>
      obtain ⟨base, hbase, hlink⟩ := exists_mergeLink h (by simp)
      rcases ih hbase with ⟨κ, hdescends, hmem⟩ | hdropped
      · rcases crosses_mem_mergeLink hlink hmem hsite with ⟨κ', hcrosses,
          hmem'⟩ | hdrops
        · rw [Script.convert_convert] at hmem'
          exact Or.inl ⟨_, hdescends.cross hbase hcrosses, hmem'⟩
        · exact Or.inr (Or.inl ⟨base, hbase, hdrops⟩)
      · exact Or.inr (Or.inr hdropped)

theorem mergeChain_conveys (h : mergeChain s chain = .ok d) :
    Conveys s chain d fun lower link above site κ =>
      Descends s (link :: above) site lower κ where
  origin _ hx := exists_descends h hx
  arrival lower link above hchain _ hy hsite := by
    subst hchain
    exact descends_mem h hy hsite

namespace Descends

theorem type_eq (h : Descends s rest site lower κ) :
    κ.type = seen s lower rest := by
  induction h with
  | own =>
      cases rest with
      | nil => rfl
      | cons link above =>
          rw [redirectionsAmong]
          split <;> rfl
  | cross _ hbase hcrosses ih =>
      rw [seen_cons hbase, ← hcrosses.type_eq, ← ih]
      rfl

/-- A call that is redirected at its own link stays so. -/
theorem redirect_eq_some (h : Descends s rest site lower κ)
    (hown : (redirectionsAmong s rest).redirect r = some target) :
    κ.redirect r = some (target.mapTypes (seen s lower rest)) := by
  induction h with
  | own => rw [hown, seen_nil, MethodRef.mapTypes_id]
  | cross _ hbase hcrosses ih =>
      rw [Conversion.redirect_after_of_some ih, MethodRef.mapTypes_mapTypes,
        hcrosses.type_eq, seen_cons hbase]

end Descends

/-- That calls of a method are captured at one of the links below. -/
def CapturedBelow (s : Sources) (rest : List DeclId) (site : Site)
    (r : MethodRef) :
    List DeclId → Prop
  | [] => False
  | leaf :: lower =>
      (∃ base, mergeChain s (lower ++ rest) = .ok base
          ∧ Captures base (s.get leaf) site
            (r.mapTypes (seen s (leaf :: lower) rest)))
        ∨ CapturedBelow s rest site r lower

/-- A call that is not redirected at its own link is so below only where it is
captured. -/
theorem Descends.redirect_eq_none (h : Descends s rest site lower κ)
    (hown : (redirectionsAmong s rest).redirect r = none)
    (hr : ¬ CapturedBelow s rest site r lower) : κ.redirect r = none := by
  induction h with
  | own => exact hown
  | cross hdescends hbase hcrosses ih =>
      obtain ⟨hhere, hlower⟩ := not_or.1 hr
      rw [Conversion.redirect_after_of_none (ih hlower), hdescends.type_eq]
      refine hcrosses.redirect_eq_none fun hcaptures => hhere ⟨_, hbase, ?_⟩
      rwa [MethodRef.mapTypes_mapTypes, ← seen_cons hbase] at hcaptures

-- =========================================================== redirected calls

theorem name_mergeChain_append {mid : List DeclId} {impl : DeclId}
    (h : mergeChain s (mid ++ impl :: rest) = .ok base) :
    base.name = s.name (mid.headD impl) := by
  cases mid with
  | nil => exact (mergeChain_eq_ok h).1
  | cons next mid => exact (mergeChain_eq_ok h).1

theorem signature_mapTypes (τ : TypeRef → TypeRef) (p : Profile) :
    (p.mapTypes τ).signature = p.signature.view τ := rfl

/-- A link gets the concrete methods of objects from above that none between
overrides. -/
theorem mem_profiles_instantiate {mid : List DeclId} {impl : DeclId}
    {m : Method}
    (hbase : mergeChain s (mid ++ impl :: rest) = .ok base)
    (hm : m ∈ (s.get impl).methods)
    (hstatic : m.modifiers.isStatic = false) (habstract : m.isAbstract = false)
    (hnearest : ¬ IsOverridden s (mid ++ impl :: rest) impl m.id m.name) :
    (profile m).mapTypes (seen s (link :: mid) (impl :: rest))
      ∈ profiles (instantiate base (s.get link)).1 := by
  obtain ⟨upper, hupper⟩ := mergeChain_upper hbase (List.cons_ne_nil impl rest)
  have hown : profile m ∈ profiles upper :=
    (prefix_mergeChain hupper).subset (List.mem_map_of_mem hm)
  have hcarried :=
    (mergeChain_carries hupper hbase List.mem_cons_self hown hstatic
      habstract).resolve_right hnearest
  exact mapTypes_mem_instantiate hbase hcarried

/-- A concrete method that a link gets is kept under another name, and calls
of it in the link's code are redirected, if the link has a concrete method of
its signature. -/
theorem mem_overriddenIn_of_isTargetOf {o : Method} {ps : List Profile}
    {owner : String}
    (hp : p ∈ ps) (hstatic : p.isStatic = false)
    (habstract : p.isAbstract = false)
    (hr : r.signature = p.signature)
    (hfind : derived.methods.find? (·.isTargetOf r) = some o)
    (ho : o.isAbstract = false) :
    p ∈ overriddenIn owner (profiles derived) ps := by
  refine mem_overriddenIn_of_find? hp hstatic habstract (o := profile o) ?_ ho
  rw [← hr, find?_isTargetOf, hfind, Option.map_some]

/-- That in code of a link calls through `super` of a concrete method of an
object, which a link above declares and none between overrides, become calls
of what it is kept as, if the link has a concrete method of its signature. What
it is kept as is in the folded chain, unless it is overridden in turn. -/
def FindsKept (s : Sources) (chain : List DeclId) (d : TypeDecl)
    (lower : List DeclId)
    (link : DeclId) (above : List DeclId) (κ : Conversion) : Prop :=
  ∀ mid impl rest m o r, above = mid ++ impl :: rest →
    m ∈ (s.get impl).methods →
    m.modifiers.isStatic = false → m.isAbstract = false →
    ¬ IsOverridden s above impl m.id m.name →
    r.signature = m.signature.view (seen s (link :: mid) (impl :: rest)) →
    (s.get link).methods.find? (·.isTargetOf r) = some o →
    o.isAbstract = false →
    ∃ target, κ.Redirects r target
      ∧ target = (keptRef (s.name (mid.headD impl)) r).mapTypes
        (seen s lower (link :: above))
      ∧ ((∃ m' ∈ d.methods, m'.id = m.id ∧ m'.isAbstract = false
        ∧ m'.isTargetOf target = true)
        ∨ IsOverridden s chain link m.id target.name)

theorem Descends.findsKept (h : mergeChain s (lower ++ link :: above) = .ok d)
    (hdescends : Descends s (link :: above) site lower κ) :
    FindsKept s (lower ++ link :: above) d lower link above κ := by
  rintro mid impl rest m o r rfl hm hstatic habstract hnearest hr hfind ho
  obtain ⟨folded, hfolded⟩ := mergeChain_upper h (List.cons_ne_nil link _)
  obtain ⟨base, hbase, hlink⟩ := exists_mergeLink hfolded (by simp)
  have hname := name_mergeChain_append hbase
  -- the method as the link gets it, and as it is kept there
  let p := (profile m).mapTypes (seen s (link :: mid) (impl :: rest))
  have hinherited : p ∈ profiles (instantiate base (s.get link)).1 :=
    mem_profiles_instantiate hbase hm hstatic habstract hnearest
  have hoverridden : p ∈ overriddenIn base.name (profiles (s.get link))
      (profiles (instantiate base (s.get link)).1) :=
    mem_overriddenIn_of_isTargetOf hinherited hstatic habstract hr hfind ho
  have hkept : p.renamed base.name ∈ profiles folded := by
    rw [profiles_mergeLink hlink, name_instantiate]
    exact renamed_mem_appendAll hoverridden
  have hsignature : (p.renamed base.name).signature
      = (keptRef (s.name (mid.headD impl)) r).signature := by
    have hname' : p.name = r.name := (congrArg Prod.fst hr).symm
    have hparams : p.params = r.params := (congrArg Prod.snd hr).symm
    show (overriddenName base.name p.name, p.params) = _
    rw [hname, hname', hparams]
    rfl
  refine ⟨_, Conversion.redirects_of_some (hdescends.redirect_eq_some ?_),
    rfl, ?_⟩
  · rw [redirectionsAmong_cons hbase, ← hname]
    exact redirect_redirections (hr ▸ List.mem_map_of_mem hoverridden)
  refine (mergeChain_carries hfolded h List.mem_cons_self hkept hstatic
    habstract).imp (fun hcarried => ?_) fun hover => ?_
  · obtain ⟨m', hm', hprofile⟩ := List.mem_map.1 hcarried
    have hid : m'.id = m.id := congrArg Profile.id hprofile
    have habstract' : m'.isAbstract = m.isAbstract :=
      congrArg Profile.isAbstract hprofile
    refine ⟨m', hm', hid, habstract'.trans habstract,
      Method.isTargetOf_iff.2 ?_⟩
    refine (congrArg Profile.signature hprofile).trans ?_
    rw [signature_mapTypes, hsignature]
    rfl
  · have hname' : (p.renamed base.name).name
        = (keptRef (s.name (mid.headD impl)) r).name :=
      congrArg Prod.fst hsignature
    exact hname' ▸ hover

/-- In the code of a folded chain, calls through `super` of what the calling
link overrides are calls of what it is kept as. -/
theorem mergeChain_redirects (h : mergeChain s chain = .ok d) :
    Conveys s chain d fun lower link above _ κ =>
      FindsKept s chain d lower link above κ :=
  (mergeChain_conveys h).imp fun lower link above _ κ hchain hdescends => by
    subst hchain
    exact hdescends.findsKept h

/-- A method that calls another one through `super`. -/
def superCaller (name : String) (r : MethodRef) : Method :=
  { Method.simple name .void with
    body := some [.expr (.call (some .super) r [])] }

/-- Two links with these methods, the upper one of which extends a type that is
no link. -/
def superSources (upper lower : List Method) : Sources :=
  let base : TypeDecl :=
    { TypeDecl.participating "Base" with
      superclass := some (.named "Other"), methods := upper }
  let leaf : TypeDecl :=
    { TypeDecl.participating "Leaf" with
      superclass := some (.named "Base"), methods := lower }
  { decls := [base, leaf].map TypeDecl.assignIdentities }

/-- The methods of a declaration, each with the texts of what its statements
say. -/
def bodyTexts (d : TypeDecl) : List (String × List String) :=
  d.methods.map fun m => (m.name, m.script.exprs.map Expr.text)

/-- The leaf calls what it overrides. -/
def helpSources : Sources :=
  superSources [.simple "help" .void]
    [superCaller "run" ⟨"Base", "help", []⟩, .simple "help" .void]

/-- The call becomes one of what the method of the base is kept as. -/
theorem mergeChain_redirects_help : ∃ d κ,
    mergeChain helpSources [⟨1⟩, ⟨0⟩] = .ok d
      ∧ bodyTexts d = [("run", ["_Base_help()"]), ("help", []),
        ("_Base_help", [])]
      ∧ (∃ run ∈ (helpSources.get ⟨1⟩).methods, run.name = "run"
        ∧ run.script.convert κ ∈ d.scripts)
      ∧ κ.Redirects ⟨"Base", "help", []⟩ ⟨"Base", "_Base_help", []⟩
      ∧ ∃ m ∈ (helpSources.get ⟨0⟩).methods, ∃ m' ∈ d.methods, m'.id = m.id
        ∧ m'.isTargetOf ⟨"Base", "_Base_help", []⟩ = true := by
  have hfolded : (mergeChain helpSources [⟨1⟩, ⟨0⟩]).toOption.map bodyTexts
      = some [("run", ["_Base_help()"]), ("help", []),
        ("_Base_help", [])] := by
    decide +kernel
  obtain ⟨d, hok, htexts⟩ := exists_eq_ok_of_map hfolded
  -- the code of `run`, which the leaf itself has
  obtain ⟨run, hrun, hname⟩ :
      ∃ m ∈ (helpSources.get ⟨1⟩).methods, m.name = "run" := by decide +kernel
  have hscript : run.script ∈ (helpSources.get ⟨1⟩).scripts :=
    TypeDecl.mem_scripts.2 (Or.inr (Or.inr ⟨run, hrun, rfl⟩))
  obtain ⟨κ, hκ, hmem⟩ :=
    ((mergeChain_redirects hok).arrival [] ⟨1⟩ [⟨0⟩] rfl run.script hscript
      Site.noConfusion).resolve_right id
  -- the method that it means, and the leaf's own
  obtain ⟨m, hm, hstatic, habstract, hsignature⟩ :
      ∃ m ∈ (helpSources.get ⟨0⟩).methods,
      m.modifiers.isStatic = false ∧ m.isAbstract = false
        ∧ m.signature = ("help", []) := by
    decide +kernel
  have hown : ((helpSources.get ⟨1⟩).methods.find?
      (·.isTargetOf ⟨"Base", "help", []⟩)).map
      Method.isAbstract = some false := by decide +kernel
  obtain ⟨o, hfind, ho⟩ := Option.map_eq_some_iff.1 hown
  obtain ⟨target, hredirects, htarget, hkept⟩ :=
    hκ [] ⟨0⟩ [] m o ⟨"Base", "help", []⟩ rfl hm
    hstatic habstract (fun hover => List.not_mem_nil hover.mem_tail)
    (hsignature ▸ rfl) hfind ho
  have hnamed : target = ⟨"Base", "_Base_help", []⟩ :=
    htarget.trans (by rw [seen_nil, MethodRef.mapTypes_id]; decide +kernel)
  subst hnamed
  obtain ⟨m', hm', hid, -, hsame⟩ := hkept.resolve_right fun hover =>
    absurd hover.mem_tail (by decide)
  exact ⟨d, κ, hok, htexts, ⟨run, hrun, hname, hmem⟩, hredirects, m, hm, m',
    hm', hid, hsame⟩

/-- A call of what the leaf does not override stays one through `super`, though
the method comes into the same declaration. -/
theorem mergeChain_redirects_only_overridden : ∃ d,
    mergeChain (superSources [.simple "help" .void]
      [superCaller "run" ⟨"Base", "help", []⟩])
        [⟨1⟩, ⟨0⟩] = .ok d
      ∧ (∃ m ∈ ((superSources [.simple "help" .void]
          [superCaller "run" ⟨"Base", "help", []⟩]).get ⟨0⟩).methods,
        m.modifiers.isStatic = false ∧ m.isAbstract = false
          ∧ m.isTargetOf ⟨"Base", "help", []⟩ = true)
      ∧ bodyTexts d = [("run", ["super.help()"]), ("help", [])] := by
  have hfolded : (mergeChain (superSources [.simple "help" .void]
      [superCaller "run" ⟨"Base", "help", []⟩]) [⟨1⟩, ⟨0⟩]).toOption.map
    bodyTexts
        = some [("run", ["super.help()"]), ("help", [])] := by
    decide +kernel
  obtain ⟨d, hok, htexts⟩ := exists_eq_ok_of_map hfolded
  exact ⟨d, hok, by decide +kernel, htexts⟩

-- ================================================================ other calls

theorem mem_appendAll {a : Profile} {there ps : List Profile} {owner : String}
    (ha : a ∈ appendAll owner there ps) :
    a ∈ there ∨ ∃ p ∈ ps, a = p ∨ a = p.renamed owner := by
  induction ps generalizing there with
  | nil => exact Or.inl ha
  | cons p ps ih =>
      rcases ih ha with hthere | ⟨q, hq, hcases⟩
      · rcases List.mem_append.1 hthere with hthere | hown
        · exact Or.inl hthere
        · have hcases := appended?_cases (Option.mem_toList.1 hown)
          exact Or.inr ⟨p, List.mem_cons_self, hcases.imp And.left And.left⟩
      · exact Or.inr ⟨q, List.mem_cons_of_mem p hq, hcases⟩

/-- That a method has the signature that a link of a chain declares, as seen
from the links `front` below, or a name that a method of a link is kept
under. -/
def Stems (s : Sources) (front chain : List DeclId) (p : Profile) : Prop :=
  (∃ lower link above, chain = lower ++ link :: above
      ∧ ∃ m ∈ (s.get link).methods,
      p.signature = m.signature.view (seen s (front ++ lower) (link :: above)))
    ∨ ∃ owner ∈ chain, ∃ name, p.name = overriddenName (s.name owner) name

theorem Stems.cons (h : Stems s [leaf] above p) :
    Stems s [] (leaf :: above) p := by
  rcases h with ⟨lower, link, above', rfl, hdeclared⟩ | ⟨owner, howner, hkept⟩
  · exact Or.inl ⟨leaf :: lower, link, above', rfl, hdeclared⟩
  · exact Or.inr ⟨owner, List.mem_cons_of_mem leaf howner, hkept⟩

/-- What a link gets from above stems from there if all that is folded above
does. -/
theorem stems_instantiate (leaf : DeclId)
    (hbase : mergeChain s above = .ok base)
    (hstems : ∀ q ∈ profiles base, Stems s [] above q) :
    ∀ p ∈ profiles (instantiate base (s.get leaf)).1,
      Stems s [leaf] above p := by
  intro p hp
  rw [profiles_instantiate] at hp
  obtain ⟨q, hq, rfl⟩ := List.mem_map.1 hp
  rcases hstems q hq with ⟨lower, link, above', rfl, m, hm, hsame⟩ | hkept
  · refine Or.inl ⟨lower, link, above', rfl, m, hm, ?_⟩
    rw [signature_mapTypes, hsame, Signature.view_view, List.nil_append,
      List.singleton_append, seen_cons hbase]
  · exact Or.inr hkept

/-- The methods of a folded chain stem from its links. -/
theorem stems_mergeChain (h : mergeChain s chain = .ok d) :
    ∀ p ∈ profiles d, Stems s [] chain p := by
  induction chain generalizing d with
  | nil => cases h
  | cons leaf above ih =>
      have hown : ∀ p ∈ profiles (s.get leaf),
          Stems s [] (leaf :: above) p := by
        intro p hp
        obtain ⟨m, hm, rfl⟩ := List.mem_map.1 hp
        exact Or.inl ⟨[], leaf, above, rfl, m, hm, (Signature.view_id _).symm⟩
      rcases mergeChain_cases h with ⟨-, rfl⟩ | ⟨base, hbase, hlink⟩
      · exact hown
      · obtain ⟨next, hnext, hname⟩ : ∃ next ∈ above,
            base.name = s.name next := by
          cases above with
          | nil => cases hbase
          | cons next above =>
              exact ⟨next, List.mem_cons_self, (mergeChain_eq_ok hbase).1⟩
        have hinherited := stems_instantiate leaf hbase (ih hbase)
        intro p hp
        rw [profiles_mergeLink hlink, name_instantiate, hname] at hp
        rcases mem_appendAll hp with hp | ⟨q, hq, rfl | rfl⟩
        · exact hown p hp
        · exact (hinherited p hq).cons
        · exact Or.inr ⟨next, List.mem_cons_of_mem leaf hnext, q.name, rfl⟩

/-- That in code of a link calls through `super` of a method that no link above
declares stay such calls, unless the method has a name that another one is kept
under, or they are captured below. -/
def SparesForeign (s : Sources) (lower : List DeclId) (link : DeclId)
    (above : List DeclId) (site : Site) (κ : Conversion) : Prop :=
  ∀ r : MethodRef, (∀ mid impl rest, above = mid ++ impl :: rest →
      ∀ m ∈ (s.get impl).methods,
        r.signature ≠ m.signature.view (seen s (link :: mid) (impl :: rest))) →
    κ.Spares r
      ∨ (∃ owner ∈ above, ∃ name, r.name = overriddenName (s.name owner) name)
      ∨ CapturedBelow s (link :: above) site r lower

theorem Descends.sparesForeign (h : Descends s (link :: above) site lower κ) :
    SparesForeign s lower link above site κ := by
  intro r hforeign
  by_cases hown : (redirectionsAmong s (link :: above)).redirect r = none
  · by_cases hcaptured : CapturedBelow s (link :: above) site r lower
    · exact Or.inr (Or.inr hcaptured)
    · exact Or.inl
        (Conversion.spares_of_none (h.redirect_eq_none hown hcaptured))
  · -- the link gets a method of this signature, which no link above declares
    refine Or.inr (Or.inl ?_)
    cases hbase : mergeChain s above with
    | error e =>
        rw [redirectionsAmong, hbase] at hown
        exact absurd rfl hown
    | ok base =>
        rw [redirectionsAmong_cons hbase] at hown
        have hmem := not_imp_comm.1 redirect_redirections_eq_none hown
        obtain ⟨p, hp, hsame⟩ := List.mem_map.1 hmem
        obtain ⟨before, after, hsplit, -⟩ := mem_overriddenIn.1 hp
        have hinherited : p ∈ profiles (instantiate base (s.get link)).1 :=
          hsplit ▸ List.mem_append_right _ List.mem_cons_self
        rcases stems_instantiate link hbase (stems_mergeChain hbase) p
            hinherited with
          ⟨mid, impl, rest, hrest, m, hm, hdeclared⟩
            | ⟨owner, howner, name, hkept⟩
        · exact absurd (hsame.symm.trans hdeclared)
            (hforeign mid impl rest hrest m hm)
        · have hname : p.name = r.name := congrArg Prod.fst hsame
          exact ⟨owner, howner, name, hname.symm.trans hkept⟩

/-- In the code of a folded chain, calls through `super` of what no link above
the calling one declares are such calls, unless they are captured. -/
theorem mergeChain_spares (h : mergeChain s chain = .ok d) :
    Conveys s chain d fun lower link above site κ =>
      SparesForeign s lower link above site κ :=
  (mergeChain_conveys h).imp fun _ _ _ _ _ _ hdescends =>
    hdescends.sparesForeign

/-- The base calls a method of the type that it extends, behind a method of
that signature which the leaf overrides. -/
def closeSources : Sources :=
  superSources [.simple "close" .void,
    superCaller "run" ⟨"Other", "close", []⟩] [.simple "close" .void]

/-- The call stays one through `super`. -/
theorem mergeChain_spares_close : ∃ d κ,
    mergeChain closeSources [⟨1⟩, ⟨0⟩] = .ok d
      ∧ bodyTexts d = [("close", []), ("_Base_close", []),
        ("run", ["super.close()"])]
      ∧ (∃ run ∈ (closeSources.get ⟨0⟩).methods, run.name = "run"
        ∧ run.script.convert κ ∈ d.scripts)
      ∧ κ.Spares ⟨"Other", "close", []⟩ := by
  have hfolded : (mergeChain closeSources [⟨1⟩, ⟨0⟩]).toOption.map bodyTexts
      = some [("close", []), ("_Base_close", []),
        ("run", ["super.close()"])] := by
    decide +kernel
  obtain ⟨d, hok, htexts⟩ := exists_eq_ok_of_map hfolded
  obtain ⟨run, hrun, hname⟩ :
      ∃ m ∈ (closeSources.get ⟨0⟩).methods, m.name = "run" := by decide +kernel
  have hscript : run.script ∈ (closeSources.get ⟨0⟩).scripts :=
    TypeDecl.mem_scripts.2 (Or.inr (Or.inr ⟨run, hrun, rfl⟩))
  -- the methods that the leaf gets, and that it does get the second one
  obtain ⟨p, q, hprofiles, hp, hq, happended⟩ : ∃ p q,
      profiles (instantiate (closeSources.get ⟨0⟩) (closeSources.get ⟨1⟩)).1
        = [p, q]
        ∧ (∀ m ∈ (closeSources.get ⟨0⟩).methods, m.name = "run" → p.id ≠ m.id)
        ∧ q.name = "run"
        ∧ (appended? "Base" (appendAll "Base" (profiles (closeSources.get ⟨1⟩))
          [p]) q).isSome :=
    ⟨_, _, rfl, by decide +kernel, by decide +kernel, by decide +kernel⟩
  have hsplits : ∀ before a after, profiles (instantiate (closeSources.get ⟨0⟩)
      (closeSources.get ⟨1⟩)).1 = before ++ a :: after →
        (before = [] ∧ a = p) ∨ (before = [p] ∧ a = q) := by
    intro before a after hsplit
    rw [hprofiles] at hsplit
    rcases before with _ | ⟨b, _ | ⟨b', before⟩⟩
    · exact Or.inl ⟨rfl, (List.cons.inj hsplit).1.symm⟩
    · obtain ⟨rfl, htail⟩ := List.cons.inj hsplit
      exact Or.inr ⟨rfl, (List.cons.inj htail).1.symm⟩
    · simp at hsplit
  have harrives : ¬ DroppedBelow closeSources [⟨0⟩] run.script.site [⟨1⟩] := by
    rintro (⟨base, hbase, before, a, after, hsplit, hid, hdrops⟩ | hnone)
    · obtain rfl : closeSources.get ⟨0⟩ = base := Except.ok.inj hbase
      rcases hsplits _ _ _ hsplit with ⟨rfl, rfl⟩ | ⟨rfl, rfl⟩
      · exact hp run hrun hname hid
      · exact absurd (Option.isSome_iff_ne_none.1 happended)
          (not_not_intro hdrops)
    · exact hnone
  have hfree : ¬ CapturedBelow closeSources [⟨0⟩] run.script.site
      ⟨"Other", "close", []⟩ [⟨1⟩] := by
    rintro (⟨base, hbase, before, a, after, hsplit, -, hsame, hahead⟩ | hnone)
    · obtain rfl : closeSources.get ⟨0⟩ = base := Except.ok.inj hbase
      rcases hsplits _ _ _ hsplit with ⟨rfl, rfl⟩ | ⟨rfl, rfl⟩
      · obtain ⟨_, hnone, -⟩ := hahead
        cases hnone
      · exact absurd (hq.symm.trans (congrArg Prod.fst hsame)) (by decide)
    · exact hnone
  obtain ⟨κ, hκ, hmem⟩ :=
    ((mergeChain_spares hok).arrival [⟨1⟩] ⟨0⟩ [] rfl run.script hscript
      Site.noConfusion).resolve_right harrives
  obtain hspares | ⟨_, howner, -⟩ | hcaptured :=
      hκ ⟨"Other", "close", []⟩ fun mid _ _ habove =>
    absurd habove.symm (List.append_ne_nil_of_right_ne_nil mid
      (List.cons_ne_nil _ _))
  · exact ⟨d, κ, hok, htexts, ⟨run, hrun, hname, hmem⟩, hspares⟩
  · cases howner
  · exact absurd hcaptured hfree

/-- Where the caller comes first its call is captured, though nothing is above
the link that it is in. -/
theorem mergeChain_spares_not_ahead : ∃ d,
    mergeChain (superSources [superCaller "run" ⟨"Other", "close", []⟩,
      .simple "close" .void]
        [.simple "close" .void]) [⟨1⟩, ⟨0⟩] = .ok d
      ∧ bodyTexts ((superSources
        [superCaller "run" ⟨"Other", "close", []⟩, .simple "close" .void]
        [.simple "close" .void]).get ⟨0⟩) = [("run", ["super.close()"]),
      ("close", [])]
      ∧ bodyTexts d = [("close", []), ("run", ["_Base_close()"]),
        ("_Base_close", [])] := by
  have hfolded : (mergeChain (superSources
      [superCaller "run" ⟨"Other", "close", []⟩, .simple "close" .void]
      [.simple "close" .void]) [⟨1⟩, ⟨0⟩]).toOption.map bodyTexts
        = some [("close", []), ("run", ["_Base_close()"]),
          ("_Base_close", [])] := by
    decide +kernel
  obtain ⟨d, hok, htexts⟩ := exists_eq_ok_of_map hfolded
  exact ⟨d, hok, by decide +kernel, htexts⟩

end Merge

end Stagewise
