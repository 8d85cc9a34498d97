/-
What becomes of the code of two links that are merged.

# Redirections

A method of a base is redirected when it is kept under another name: calls
of it through `super` then go to where it is kept. This is done at once, in
all that the declaration has by then: its own code and the fields of the
base, but also the methods of the base that have come before. So the methods
that come behind another one decide what becomes of its code
(`overriddenIn`), and those of the whole base decide for the declaration
below (`redirectionsAt`).

# Constructors

The code of a base constructor comes in when all methods are merged. It is
never redirected, but it reads the parameters of the constructor that takes
it in.

# The joint

`Crosses` says what may become of a base's code, place by place. The code of
the merged declaration is that of the lower one, redirected, and that of the
base, as it crosses (`crosses_of_mem_mergeLink`). The methods and fields of
both are there, but for methods that are dropped (`own_mem_mergeLink`,
`crosses_mem_mergeLink`).
-/
import Stagewise.Proofs.Merge.Constructors
import Stagewise.Proofs.Merge.Overriding

namespace Stagewise

def MethodRef.signature (r : MethodRef) : Signature := (r.name, r.params)

theorem Method.isTargetOf_iff {m : Method} {r : MethodRef} :
    m.isTargetOf r = true ↔ m.signature = r.signature := by
  unfold isTargetOf signature MethodRef.signature
  rw [Bool.and_eq_true, beq_iff_eq, beq_iff_eq, Prod.mk.injEq]

namespace Merge

open Convention

variable {base derived d : TypeDecl} {m : Method} {owner : String} {x : Script}
variable {there ps qs : List Profile} {p : Profile} {r : MethodRef}

/-- What a reference designates among the methods of a declaration shows in
their profiles. -/
theorem find?_isTargetOf (d : TypeDecl) (r : MethodRef) :
    (profiles d).find? (·.signature == r.signature)
      = (d.methods.find? (·.isTargetOf r)).map profile := by
  unfold profiles
  rw [List.find?_map]
  refine congrArg (fun f => (d.methods.find? f).map profile)
    (funext fun a => ?_)
  rw [Bool.eq_iff_iff, Method.isTargetOf_iff]
  exact beq_iff_eq

-- =============================================================== redirections

/-- What a method of `owner` is called by when it is kept under another
name. -/
def keptRef (owner : String) (r : MethodRef) : MethodRef :=
  { r with owner, name := overriddenName owner r.name }

/-- Calls of methods of `owner` through `super` go to where these are kept. -/
def redirections (owner : String) (overridden : List Profile) :
    Conversion where
  redirect r :=
    if r.signature ∈ overridden.map Profile.signature
      then some (keptRef owner r) else none

theorem redirect_redirections (h : r.signature ∈ ps.map Profile.signature) :
    (redirections owner ps).redirect r = some (keptRef owner r) := if_pos h

theorem redirect_redirections_eq_none
    (h : r.signature ∉ ps.map Profile.signature) :
    (redirections owner ps).redirect r = none := if_neg h

@[simp] theorem redirections_nil : redirections owner [] = {} :=
  congrArg (Conversion.mk id id) (funext fun _ => if_neg List.not_mem_nil)

theorem redirections_append :
    (redirections owner qs).after (redirections owner ps)
    = redirections owner (ps ++ qs) := by
  refine congrArg (Conversion.mk id id) (funext fun r => ?_)
  show ((redirections owner qs).after (redirections owner ps)).redirect r = _
  by_cases hr : r.signature ∈ ps.map Profile.signature
  · rw [Conversion.redirect_after_of_some (redirect_redirections hr)]
    have happend : r.signature ∈ (ps ++ qs).map Profile.signature :=
      List.map_append ▸ List.mem_append_left _ hr
    exact (congrArg some (MethodRef.mapTypes_id _)).trans (if_pos happend).symm
  · have htypes : r.mapTypes (redirections owner ps).type = r :=
      MethodRef.mapTypes_id r
    rw [Conversion.redirect_after_of_none (redirect_redirections_eq_none hr),
      htypes]
    simp [redirections, hr]

/-- A call that is not redirected stays as it is. -/
theorem convertTop_redirections_call {t : Option Expr} {args : List Expr}
    (h : Expr.isSuper t = true → (redirections owner ps).redirect r = none) :
    Expr.convertTop (redirections owner ps) (.call t r args)
      = .call t r args := by
  rw [Expr.convertTop, Expr.convertCall_of_none _ h]
  exact congrArg (Expr.call t · args) (MethodRef.mapTypes_id r)

/-- What one redirected method changes in a declaration. -/
theorem redirectSuper_eq (owner : String) (m : Method) (d : TypeDecl) :
    ((redirectSuper m ⟨owner, overriddenName owner m.name,
      m.paramTypes⟩).typeDecl d).run
      = d.rewrite (Expr.convertTop (redirections owner [profile m])) := by
  have hknows : Transformer.plainly.KnowsHook
      (redirectSuper m ⟨owner, overriddenName owner m.name,
        m.paramTypes⟩).leaveExpr
      (fun _ => Expr.convertTop (redirections owner [profile m])) fun _ _ =>
      True := by
    intro e _
    refine ⟨?_, fun _ _ _ => trivial⟩
    simp only [redirectSuper]
    split
    · rename_i r args
      by_cases htarget : m.isTargetOf r = true
      · have hsame : m.signature = r.signature :=
          Method.isTargetOf_iff.1 htarget
        have hname : m.name = r.name := congrArg Prod.fst hsame
        have hparams : m.paramTypes = r.params := congrArg Prod.snd hsame
        have hredirect : (redirections owner [profile m]).redirect r
            = some ⟨owner, overriddenName owner m.name, m.paramTypes⟩ := by
          rw [redirect_redirections (List.mem_singleton.2 hsame.symm), keptRef,
            hname, hparams]
        rw [if_pos htarget]
        exact (Expr.convertCall_of_some _ rfl hredirect args).symm
      · have hother :
            r.signature ∉ [profile m].map Profile.signature := fun hmem =>
          htarget (Method.isTargetOf_iff.2 (List.mem_singleton.1 hmem).symm)
        rw [if_neg htarget]
        exact (convertTop_redirections_call fun _ =>
          redirect_redirections_eq_none hother).symm
    · rename_i hno
      cases e with
      | call t r args =>
          refine (convertTop_redirections_call fun hsuper => ?_).symm
          exact absurd (Expr.isSuper_iff.1 hsuper ▸ rfl) (hno r args)
      | _ => rfl
  exact (Transformer.plainly.typeDecl_rewrites hknows.knows d ()).1

-- ================================================================= one method

/-- Whether calls of a base method are redirected when its turn comes. -/
def isRedirected (there : List Profile) (p : Profile) : Bool :=
  !p.isStatic && !p.isAbstract
    && (there.find? (·.signature == p.signature)).any (!·.isAbstract)

theorem scripts_append_methods (d : TypeDecl) (ms : List Method) :
    { d with methods := d.methods ++ ms }.scripts
      = d.scripts ++ ms.map Method.script := by
  unfold TypeDecl.scripts
  rw [List.map_append, List.append_assoc _ _ (ms.map _)]

theorem scripts_modify_dropOverride (d : TypeDecl) (i : Nat) :
    { d with methods := d.methods.modify i dropOverride }.scripts
      = d.scripts := by
  have hmethods : (d.methods.modify i dropOverride).map Method.script
      = d.methods.map Method.script := map_modify_eq_map fun _ => rfl
  unfold TypeDecl.scripts
  rw [← hmethods]

/-- Merging a method redirects calls of it in all that is there, and brings
its own code if it is appended. -/
theorem scripts_mergeMethod (owner : String) (derived : TypeDecl)
    (m : Method) :
    (mergeMethod owner derived m).scripts
      = derived.scripts.map (Script.convert (redirections owner
          (if isRedirected (profiles derived) (profile m)
            then [profile m] else [])))
        ++ (appended? owner (profiles derived) (profile m)).toList.map fun _ =>
          m.script := by
  have hkept : derived.scripts.map (Script.convert (redirections owner []))
      = derived.scripts := by
    rw [redirections_nil, funext Script.convert_empty]
    exact List.map_id _
  have hstatic : (profile m).isStatic = m.modifiers.isStatic := rfl
  have habstract : (profile m).isAbstract = m.isAbstract := rfl
  refine (mergeMethod_congr scripts_modify_dropOverride owner derived m).trans
    ?_
  unfold takeMethod appended? isRedirected
  rw [hstatic, habstract, find?_profiles]
  cases m.modifiers.isStatic with
  | true =>
      rw [if_pos rfl, if_pos rfl, Bool.not_true, Bool.false_and,
        Bool.false_and, if_neg Bool.false_ne_true, hkept]
      exact scripts_append_methods derived [m]
  | false =>
      rw [if_neg Bool.false_ne_true, if_neg Bool.false_ne_true, Bool.not_false,
        Bool.true_and]
      cases derived.methods.find? (·.overrides m) with
      | none =>
          rw [Option.map_none, Option.any_none, Bool.and_false,
            if_neg Bool.false_ne_true, hkept]
          cases m.isAbstract with
          | true => exact (List.append_nil _).symm
          | false => exact scripts_append_methods derived [m]
      | some o =>
          have hsame : (profile o).isAbstract = o.isAbstract := rfl
          rw [Option.map_some, Option.any_some, hsame, ← Bool.not_or]
          dsimp only
          rw [hsame]
          cases m.isAbstract || o.isAbstract with
          | true =>
              rw [if_pos rfl, if_pos rfl, Bool.not_true,
                if_neg Bool.false_ne_true, hkept]
              exact (List.append_nil _).symm
          | false =>
              rw [if_neg Bool.false_ne_true, if_neg Bool.false_ne_true,
                Bool.not_false,
                if_pos rfl, ← TypeDecl.scripts_rewrite, ← redirectSuper_eq]
              exact scripts_append_methods _ [keepOverridden m _]

-- ============================================================= all methods

/-- Which methods of a base are redirected while they are merged one by
one. -/
def overriddenIn (owner : String) : List Profile → List Profile → List Profile
  | _, [] => []
  | there, p :: ps => (if isRedirected there p then [p] else [])
      ++ overriddenIn owner (there ++ (appended? owner there p).toList) ps

/-- A method is redirected if it is when its turn comes. -/
theorem mem_overriddenIn : p ∈ overriddenIn owner there ps ↔ ∃ before after,
    ps = before ++ p :: after
      ∧ isRedirected (appendAll owner there before) p = true := by
  induction ps generalizing there with
  | nil => simp [overriddenIn]
  | cons q ps ih =>
      rw [overriddenIn, List.mem_append, ih]
      constructor
      · rintro (hq | ⟨before, after, rfl, hp⟩)
        · split at hq
          · rename_i hredirected
            obtain rfl := List.mem_singleton.1 hq
            exact ⟨[], ps, rfl, hredirected⟩
          · cases hq
        · exact ⟨q :: before, after, rfl, hp⟩
      · rintro ⟨before, after, hsplit, hp⟩
        cases before with
        | nil =>
            obtain ⟨rfl, rfl⟩ := List.cons.inj hsplit
            have hredirected : isRedirected there q = true := hp
            rw [if_pos hredirected]
            exact Or.inl (List.mem_singleton_self q)
        | cons q' before =>
            obtain ⟨rfl, rfl⟩ := List.cons.inj hsplit
            exact Or.inr ⟨before, after, rfl, hp⟩

/-- A concrete method of a base is redirected if the first method of its
signature in the declaration that extends it is concrete. -/
theorem mem_overriddenIn_of_find? {o : Profile} (hp : p ∈ ps)
    (hstatic : p.isStatic = false)
    (habstract : p.isAbstract = false)
    (hfind : there.find? (·.signature == p.signature) = some o)
    (ho : o.isAbstract = false) : p ∈ overriddenIn owner there ps := by
  obtain ⟨before, after, rfl⟩ := List.append_of_mem hp
  have hfound := (prefix_appendAll owner there before).find?_eq_some hfind
  refine mem_overriddenIn.2 ⟨before, after, rfl, ?_⟩
  simp [isRedirected, hstatic, habstract, hfound, ho]

/-- What is redirected is kept under another name. -/
theorem renamed_mem_appendAll (hp : p ∈ overriddenIn owner there ps) :
    p.renamed owner ∈ appendAll owner there ps := by
  obtain ⟨before, after, rfl, hredirected⟩ := mem_overriddenIn.1 hp
  have hkept : appended? owner (appendAll owner there before) p
      = some (p.renamed owner) := by
    unfold isRedirected at hredirected
    rw [Bool.and_eq_true, Bool.and_eq_true, Bool.not_eq_true',
      Bool.not_eq_true'] at hredirected
    obtain ⟨⟨hstatic, habstract⟩, hany⟩ := hredirected
    cases hfind : (appendAll owner there before).find?
        (·.signature == p.signature) with
    | none =>
        rw [hfind] at hany
        cases hany
    | some o =>
        rw [hfind, Option.any_some, Bool.not_eq_true'] at hany
        simp [appended?, hstatic, habstract, hfind, hany]
  rw [appendAll_append]
  refine (prefix_appendAll _ _ after).subset ?_
  show p.renamed owner ∈ _ ++ (appended? _ _ p).toList
  rw [hkept]
  exact List.mem_append_right _ (List.mem_singleton_self _)

/-- When all methods of a base are merged, what was there has been redirected
by all of them, and what is appended by those behind. -/
theorem mem_scripts_foldl {ms : List Method} :
    x ∈ (ms.foldl (mergeMethod owner) derived).scripts
    ↔ (∃ y ∈ derived.scripts, y.convert (redirections owner
        (overriddenIn owner (profiles derived) (ms.map profile))) = x)
      ∨ ∃ before m after, ms = before ++ m :: after
        ∧ (appended? owner
          (appendAll owner (profiles derived) (before.map profile))
          (profile m)).isSome
        ∧ m.script.convert (redirections owner (overriddenIn owner
          (appendAll owner (profiles derived) ((before ++ [m]).map profile))
          (after.map profile))) = x := by
  induction ms generalizing derived with
  | nil => simp [overriddenIn]
  | cons m ms ih =>
      have hall : ∀ y : Script, (y.convert (redirections owner
            (if isRedirected (profiles derived) (profile m) then [profile m]
              else []))).convert
          (redirections owner
            (overriddenIn owner (profiles (mergeMethod owner derived m))
              (ms.map profile)))
          = y.convert (redirections owner
            (overriddenIn owner (profiles derived)
              ((m :: ms).map profile))) := by
        intro y
        rw [Script.convert_convert, redirections_append, profiles_mergeMethod]
        rfl
      have hthere : ∀ ms,
          appendAll owner (profiles (mergeMethod owner derived m)) ms
          = appendAll owner (profiles derived) (profile m :: ms) := by
        intro ms
        rw [profiles_mergeMethod]
        rfl
      rw [List.foldl_cons, ih, scripts_mergeMethod]
      constructor
      · rintro (⟨y, hy, rfl⟩ | ⟨before, m', after, rfl, happended, rfl⟩)
        · rcases List.mem_append.1 hy with hy | hy
          · obtain ⟨z, hz, rfl⟩ := List.mem_map.1 hy
            exact Or.inl ⟨z, hz, (hall z).symm⟩
          · obtain ⟨a, ha, rfl⟩ := List.mem_map.1 hy
            have happended :=
              Option.isSome_iff_exists.2 ⟨a, Option.mem_toList.1 ha⟩
            refine Or.inr ⟨[], m, ms, rfl, happended, ?_⟩
            rw [profiles_mergeMethod]
            rfl
        · rw [hthere] at happended ⊢
          exact Or.inr ⟨m :: before, m', after, rfl, happended, rfl⟩
      · rintro (⟨y, hy, rfl⟩ | ⟨before, m', after, hsplit, happended, rfl⟩)
        · exact Or.inl ⟨_, List.mem_append_left _ (List.mem_map_of_mem hy),
            hall y⟩
        · cases before with
          | nil =>
              obtain ⟨rfl, rfl⟩ := List.cons.inj hsplit
              obtain ⟨a, ha⟩ := Option.isSome_iff_exists.1 happended
              refine Or.inl ⟨m.script, List.mem_append_right _
                (List.mem_map.2 ⟨a, Option.mem_toList.2 ha, rfl⟩), ?_⟩
              rw [profiles_mergeMethod]
              rfl
          | cons m'' before =>
              obtain ⟨rfl, rfl⟩ := List.cons.inj hsplit
              refine Or.inr ⟨before, m', after, rfl, ?_, ?_⟩
              · rw [hthere]
                exact happended
              · rw [hthere]
                rfl

-- =============================================================== constructors

theorem scripts_body_rewrite (κ : Conversion) (b : Block) :
    (b.rewrite (Expr.convertTop κ)).map
      (fun s => Script.mk .constructor s.tops)
      = (b.map fun s => Script.mk .constructor s.tops).map
        (Script.convert κ) :=
  Constructor.scripts_rewrite κ { body := b }

/-- The code of a constructor that takes in what it calls is its own, or that
of a base constructor that reads what is passed. -/
theorem mem_scripts_inlineSuper {c c' : Constructor} {name : String}
    (h : inlineSuper base name c = .ok c') (hx : x ∈ c'.scripts) :
    x ∈ c.scripts ∨ ∃ called ∈ base.constructors, ∃ y ∈ called.scripts,
    ∃ ρ : String → String,
      x = y.convert { var := ρ } := by
  have hrest : ∀ args rest, c.body = .superConstructor args :: rest →
      ∀ y ∈ (rest.map fun s => Script.mk .constructor s.tops),
        y ∈ c.scripts := by
    intro args rest hbody
    unfold Constructor.scripts
    rw [hbody, List.map_cons]
    exact fun y => List.mem_cons_of_mem _
  rcases inlineSuper_cases h with ⟨args, rest, called, hbody, hcalled, rfl⟩
    | ⟨args, rest, hbody, rfl⟩ | rfl
  · unfold Constructor.scripts takenIn at hx
    dsimp only at hx
    rw [List.map_append, List.mem_append, ← Expr.convertTop_var,
      scripts_body_rewrite] at hx
    rcases hx with hx | hx
    · obtain ⟨y, hy, rfl⟩ := List.mem_map.1 hx
      exact Or.inr ⟨called, List.mem_of_find?_eq_some hcalled, y, hy, _, rfl⟩
    · exact Or.inl (hrest args rest hbody x hx)
  · exact Or.inl (hrest args rest hbody x hx)
  · exact Or.inl hx

theorem exists_of_mem_mapM {α β ε : Type} {f : α → Except ε β} {as : List α}
    {bs : List β}
    (h : as.mapM f = .ok bs) : ∀ b ∈ bs, ∃ a ∈ as, f a = .ok b := by
  induction as generalizing bs with
  | nil =>
      obtain rfl := Except.ok.inj h
      exact List.forall_mem_nil _
  | cons a as ih =>
      rw [List.mapM_cons] at h
      cases ha : f a with
      | error e =>
          rw [ha] at h
          cases h
      | ok b =>
          cases has : as.mapM f with
          | error e =>
              rw [ha, has] at h
              cases h
          | ok bs' =>
              rw [ha, has] at h
              obtain rfl := Except.ok.inj h
              refine List.forall_mem_cons.2 ⟨⟨a, List.mem_cons_self, ha⟩,
                fun b' hb' => ?_⟩
              obtain ⟨a', ha', he⟩ := ih has b' hb'
              exact ⟨a', List.mem_cons_of_mem _ ha', he⟩

/-- The code of merged constructors is that of the declaration's own, and that
of the base's, which reads what is passed. -/
theorem mem_scripts_mergeConstructors {cs : List Constructor}
    (h : mergeConstructors base derived = .ok cs)
    (hx : x ∈ cs.flatMap Constructor.scripts) :
    x ∈ derived.constructors.flatMap Constructor.scripts
      ∨ ∃ y ∈ base.constructors.flatMap Constructor.scripts,
      ∃ ρ : String → String,
        x = y.convert { var := ρ } := by
  obtain ⟨c', hc', hx'⟩ := List.mem_flatMap.1 hx
  unfold mergeConstructors at h
  split at h
  · obtain rfl := Except.ok.inj h
    have hc := List.mem_of_find?_eq_some (Option.mem_toList.1 hc')
    exact Or.inr ⟨x, List.mem_flatMap.2 ⟨c', hc, hx'⟩, id,
      (Script.convert_empty x).symm⟩
  · obtain ⟨c, hc, hinline⟩ := exists_of_mem_mapM h c' hc'
    rcases mem_scripts_inlineSuper hinline hx' with hown
      | ⟨called, hcalled, y, hy, hread⟩
    · exact Or.inl (List.mem_flatMap.2 ⟨c, hc, hown⟩)
    · exact Or.inr ⟨y, List.mem_flatMap.2 ⟨called, hcalled, hy⟩, hread⟩

-- ================================================================== the joint

/-- How the code of a declaration is redirected when a base is merged into
it. -/
def redirectionsAt (base derived : TypeDecl) : Conversion :=
  redirections base.name
    (overriddenIn base.name (profiles derived)
      (profiles (instantiate base derived).1))

/-- What may become of the code of a base. In its fields all redirections
show, in a method those of the methods behind it, and in constructors none. -/
inductive Crosses (base derived : TypeDecl) : Site → Conversion → Prop
  | field (id : Identity) : Crosses base derived (.field id)
      ((redirectionsAt base derived).after
        { type := instantiated base derived })
  | constructor (ρ : String → String) : Crosses base derived .constructor
      { type := instantiated base derived, var := ρ }
  | method {before after : List Profile} {p : Profile}
      (hsplit : profiles (instantiate base derived).1 = before ++ p :: after) :
      Crosses base derived (.method p.id)
        ((redirections base.name (overriddenIn base.name
          (appendAll base.name (profiles derived) (before ++ [p]))
          after)).after
            { type := instantiated base derived })

/-- The fields of a base come in before its methods are merged. -/
theorem mem_scripts_takeOver : x ∈ (takeOver base derived).scripts
    ↔ x ∈ derived.scripts ∨ ∃ f ∈ base.fields, f.script = x := by
  have hfields : (∃ f ∈ derived.fields ++ base.fields, f.script = x)
      ↔ (∃ f ∈ derived.fields, f.script = x) ∨ ∃ f ∈ base.fields,
      f.script = x := by
    simp only [List.mem_append, or_and_right, exists_or]
  rw [TypeDecl.mem_scripts, TypeDecl.mem_scripts]
  exact (or_congr_left hfields).trans or_right_comm

/-- The code of a link before constructors are merged. -/
theorem mem_scripts_merged {typeParams : List String} :
    x ∈ (mergeMembers (instantiate base derived).1
      { derived with typeParams }).scripts
      ↔ (∃ y ∈ derived.scripts, y.convert (redirectionsAt base derived) = x)
        ∨ (∃ f ∈ (instantiate base derived).1.fields,
          f.script.convert (redirectionsAt base derived) = x)
        ∨ ∃ before m after, (instantiate base derived).1.methods
          = before ++ m :: after
          ∧ (appended? base.name (appendAll base.name (profiles derived)
            (before.map profile)) (profile m)).isSome
          ∧ m.script.convert (redirections base.name (overriddenIn base.name
            (appendAll base.name (profiles derived)
              ((before ++ [m]).map profile))
            (after.map profile))) = x := by
  have htaken :
        (∃ y ∈ (takeOver (instantiate base derived).1
          { derived with typeParams }).scripts,
        y.convert (redirectionsAt base derived) = x)
      ↔ (∃ y ∈ derived.scripts, y.convert (redirectionsAt base derived) = x)
        ∨ ∃ f ∈ (instantiate base derived).1.fields,
          f.script.convert (redirectionsAt base derived) = x := by
    simp only [mem_scripts_takeOver, or_and_right, exists_or,
      exists_exists_and_eq_and]
    rfl
  rw [mergeMembers, mem_scripts_foldl, name_instantiate, ← or_assoc, ← htaken]
  rfl

theorem profiles_split {before after ms : List Method}
    (h : ms = before ++ m :: after) :
    ms.map profile = before.map profile ++ profile m :: after.map profile := by
  rw [h, List.map_append, List.map_cons]

/-- What comes in before constructors are merged is of the lower declaration
or of the base. -/
theorem crosses_of_mem_merged {typeParams : List String}
    (hx : x ∈ (mergeMembers (instantiate base derived).1
      { derived with typeParams }).scripts) :
    (∃ y ∈ derived.scripts, x = y.convert (redirectionsAt base derived))
      ∨ ∃ y ∈ base.scripts, ∃ κ, Crosses base derived y.site κ
      ∧ x = y.convert κ := by
  rcases mem_scripts_merged.1 hx with ⟨y, hy, rfl⟩ | ⟨f, hf, rfl⟩
    | ⟨before, m, after, hsplit, -, rfl⟩
  · exact Or.inl ⟨y, hy, rfl⟩
  · obtain ⟨z, hz, hsite, hscript⟩ :=
      mem_scripts_instantiate (TypeDecl.mem_scripts.2 (Or.inl ⟨f, hf, rfl⟩))
    have hcrosses : Crosses base derived z.site
        ((redirectionsAt base derived).after
          { type := instantiated base derived }) :=
      hsite ▸ Crosses.field f.id
    exact Or.inr ⟨z, hz, _, hcrosses, hscript ▸ Script.convert_convert _ _ z⟩
  · have hm : m ∈ (instantiate base derived).1.methods :=
      hsplit ▸ List.mem_append_right _ List.mem_cons_self
    obtain ⟨z, hz, hsite, hscript⟩ :=
      mem_scripts_instantiate
        (TypeDecl.mem_scripts.2 (Or.inr (Or.inr ⟨m, hm, rfl⟩)))
    have hcrosses :
        Crosses base derived z.site
          ((redirections base.name (overriddenIn base.name
            (appendAll base.name (profiles derived)
              (before.map profile ++ [profile m]))
            (after.map profile))).after
        { type := instantiated base derived }) :=
      hsite ▸ Crosses.method (profiles_split hsplit)
    refine Or.inr ⟨z, hz, _, hcrosses, ?_⟩
    rw [hscript, Script.convert_convert, List.map_append]
    rfl

/-- The code of a link is that of the lower declaration, redirected, and that
of its base, as it crosses. -/
theorem crosses_of_mem_mergeLink (h : mergeLink base derived = .ok d)
    (hx : x ∈ d.scripts) :
    (∃ y ∈ derived.scripts, x = y.convert (redirectionsAt base derived))
      ∨ ∃ y ∈ base.scripts, ∃ κ, Crosses base derived y.site κ
      ∧ x = y.convert κ := by
  obtain ⟨typeParams, constructors, hconstructors, rfl⟩ :=
    mergeLink_eq_merged h
  rcases TypeDecl.mem_scripts.1 hx with hfield | hconstructor | hmethod
  · exact crosses_of_mem_merged (TypeDecl.mem_scripts.2 (Or.inl hfield))
  · obtain hown | ⟨y, hy, ρ, rfl⟩ :=
      mem_scripts_mergeConstructors hconstructors
        (List.mem_flatMap.2 hconstructor)
    · exact crosses_of_mem_merged
        (TypeDecl.mem_scripts.2 (Or.inr (Or.inl (List.mem_flatMap.1 hown))))
    · obtain ⟨z, hz, hsite, rfl⟩ :=
        mem_scripts_instantiate
          (TypeDecl.mem_scripts.2 (Or.inr (Or.inl (List.mem_flatMap.1 hy))))
      obtain ⟨c, -, hc⟩ := List.mem_flatMap.1 hy
      have hconstructor : z.site = .constructor :=
        hsite.trans (Constructor.site_of_mem hc)
      have hcrosses : Crosses base derived z.site
          { type := instantiated base derived, var := ρ } :=
        hconstructor ▸ Crosses.constructor ρ
      exact Or.inr ⟨z, hz, _, hcrosses, Script.convert_convert _ _ z⟩
  · exact crosses_of_mem_merged
      (TypeDecl.mem_scripts.2 (Or.inr (Or.inr hmethod)))

-- ------------------------------------------------------------ what comes in

/-- Merging constructors leaves other code alone. -/
theorem mem_scripts_of_site {constructors : List Constructor}
    {superclass : Option TypeRef}
    (hx : x ∈ d.scripts) (hsite : x.site ≠ .constructor) :
    x ∈ { d with constructors, superclass }.scripts := by
  refine TypeDecl.mem_scripts.2 ((TypeDecl.mem_scripts.1 hx).imp_right
    (Or.imp_left ?_))
  exact fun ⟨_, _, hc⟩ => absurd (Constructor.site_of_mem hc) hsite

/-- The code of the lower declaration is there, redirected. -/
theorem own_mem_mergeLink (h : mergeLink base derived = .ok d)
    (hx : x ∈ derived.scripts)
    (hsite : x.site ≠ .constructor) :
    x.convert (redirectionsAt base derived) ∈ d.scripts := by
  obtain ⟨typeParams, constructors, -, rfl⟩ := mergeLink_eq_merged h
  exact mem_scripts_of_site (mem_scripts_merged.2 (Or.inl ⟨x, hx, rfl⟩)) hsite

/-- That a method of a base is not appended when its turn comes: it is one of
an object, and it is abstract or the first one of its signature there is. -/
def Drops (base derived : TypeDecl) : Site → Prop
  | .method id => ∃ before p after, profiles (instantiate base derived).1
      = before ++ p :: after
      ∧ p.id = id ∧ appended? base.name
        (appendAll base.name (profiles derived) before) p = none
  | _ => False

/-- The code of a base is there as it crosses, but for what is dropped. -/
theorem crosses_mem_mergeLink (h : mergeLink base derived = .ok d)
    (hx : x ∈ base.scripts) (hsite : x.site ≠ .constructor) :
    (∃ κ, Crosses base derived x.site κ ∧ x.convert κ ∈ d.scripts)
      ∨ Drops base derived x.site := by
  obtain ⟨typeParams, constructors, -, rfl⟩ := mergeLink_eq_merged h
  have hmembers : (instantiate base derived).1.fields
        = base.fields.map
          (Field.mapNames (NameMap.ofTypes (instantiated base derived)))
      ∧ (instantiate base derived).1.methods
        = base.methods.map
          (Method.mapNames (NameMap.ofTypes (instantiated base derived))) := by
    rw [instantiate_eq_mapNames]
    cases base
    exact ⟨rfl, rfl⟩
  rcases TypeDecl.mem_scripts.1 hx with ⟨f, hf, rfl⟩ | ⟨c, -, hc⟩
    | ⟨m, hm, rfl⟩
  · refine Or.inl ⟨_, .field f.id,
      mem_scripts_of_site (mem_scripts_merged.2 (Or.inr (Or.inl ?_)))
      hsite⟩
    refine ⟨_, hmembers.1 ▸ List.mem_map_of_mem hf, ?_⟩
    rw [Field.script_mapNames, Script.convert_convert]
  · exact absurd (Constructor.site_of_mem hc) hsite
  · let m' := m.mapNames (NameMap.ofTypes (instantiated base derived))
    have hm' : m' ∈ (instantiate base derived).1.methods :=
      hmembers.2 ▸ List.mem_map_of_mem hm
    obtain ⟨before, after, hsplit⟩ := List.append_of_mem hm'
    have hprofiles := profiles_split hsplit
    by_cases happended : (appended? base.name
        (appendAll base.name (profiles derived) (before.map profile))
        (profile m')).isSome
    · refine Or.inl ⟨_, .method hprofiles, mem_scripts_of_site
        (mem_scripts_merged.2 (Or.inr (Or.inr ?_))) hsite⟩
      refine ⟨before, m', after, hsplit, happended, ?_⟩
      rw [Method.script_mapNames, Script.convert_convert, List.map_append]
      rfl
    · refine Or.inr ⟨before.map profile, profile m', after.map profile,
        hprofiles, rfl, ?_⟩
      exact Option.not_isSome_iff_eq_none.1 happended

end Merge

end Stagewise
