/-
What calls of a method on the object itself mean when a chain is folded.

Such a call stays what it is, whoever makes it, and only the types in its
reference are seen from further below. What it means is then told by the
signature alone: it is the first method of that signature in the folded chain.

A concrete method of an object that a reference finds in its link is found in
the whole chain, unless it is overridden on the way down: where it is taken
over, nothing of its signature is ahead of it (`mergeChain_finds`). So a call
means the method of the lowest link that has one, down to where this is
overridden in turn (`mergeChain_followsOverrides`). Visibility plays no part
in it. A private method is overridden as any other one, and the calls that the
link makes of it go to the method that overrides it
(`mergeChain_overrides_private`).
-/
import Stagewise.Proofs.Merge.SuperCalls

namespace Stagewise

-- ================================================================== the calls

namespace Expr

/-- Whether a call is one on the object itself. -/
def isOwn : Option Expr → Bool
  | none | some (.self _) => true
  | _ => false

/-- A call on the object itself is not redirected. -/
theorem convert_call_of_isOwn (κ : Conversion) {t : Option Expr}
    (ht : isOwn t = true) (r : MethodRef) (args : List Expr) :
    (Expr.call t r args).convert κ = .call t (r.mapTypes κ.type)
    (args.map (convert κ)) := by
  have htarget : rewriteTarget (convertTop κ) t = t ∧ isSuper t = false := by
    rcases t with _ | e
    · exact ⟨rfl, rfl⟩
    · cases e with
      | self q => exact ⟨rfl, rfl⟩
      | _ => cases ht
  have hcall := convertCall_of_none κ (t := t) (m := r)
    (fun hsuper => absurd (htarget.2.symm.trans hsuper) Bool.false_ne_true)
    (args.map (convert κ))
  rw [convert_call, htarget.1, rewriteAll_eq_map]
  exact hcall

end Expr

namespace Merge

open Step

variable {s : Sources} {chain lower rest above low mid : List DeclId}
variable {link leaf : DeclId}
variable {base d : TypeDecl} {p : Profile} {m : Method} {r : MethodRef}
variable {κ : Conversion}
variable {site : Site}

-- ============================================================== their targets

/-- What holds at every position of a list holds wherever it is split. -/
theorem forall_split {α : Type} {l : List α} {P : List α → α → Prop}
    (h : ∀ i, ∀ hi : i < l.length, P (l.take i) l[i]) :
    ∀ before a after, l = before ++ a :: after → P before a := by
  rintro before a after rfl
  simpa using h before.length (by simp)

/-- What is seen from some links is seen from those below as it is seen from
there. -/
theorem seen_append (h : mergeChain s (low ++ (mid ++ rest)) = .ok d)
    (hrest : rest ≠ []) :
    seen s (low ++ mid) rest = seen s low (mid ++ rest) ∘ seen s mid rest := by
  induction low generalizing d with
  | nil => rfl
  | cons leaf low ih =>
      obtain ⟨base, hbase, -⟩ := exists_mergeLink h (by simp [hrest])
      have hbase' : mergeChain s ((low ++ mid) ++ rest) = .ok base := by
        rwa [List.append_assoc]
      rw [List.cons_append, seen_cons hbase', seen_cons hbase, ih hbase]
      rfl

/-- A concrete method of an object in the upper part of a chain is in the whole
chain, ahead of all others of its signature if it was so in that part, or it is
overridden on the way down. -/
theorem mergeChain_finds (hrest : mergeChain s rest = .ok base)
    (h : mergeChain s (lower ++ rest) = .ok d) (hlink : link ∈ rest)
    (hfind : (profiles base).find? (·.signature == p.signature) = some p)
    (hstatic : p.isStatic = false) (habstract : p.isAbstract = false) :
    (profiles d).find?
    (·.signature == (p.mapTypes (seen s lower rest)).signature)
        = some (p.mapTypes (seen s lower rest))
      ∨ IsOverridden s (lower ++ rest) link p.id p.name := by
  have hp := List.mem_of_find?_eq_some hfind
  cases lower with
  | nil =>
      obtain rfl := Except.ok.inj (hrest.symm.trans h)
      have hsame : p.mapTypes (seen s [] rest) = p := by
        rw [seen_nil, Profile.mapTypes, List.map_id]
      exact Or.inl (hsame.symm ▸ hfind)
  | cons leaf lower =>
      have hne : lower ++ rest ≠ [] :=
        List.append_ne_nil_of_right_ne_nil _ (List.ne_nil_of_mem hlink)
      obtain ⟨base', hbase', hmerge⟩ := exists_mergeLink h hne
      rcases mergeChain_carries hrest hbase' hlink hp hstatic
        habstract with hcarried | hover
      · exact mergeLink_carries hbase' hmerge hlink hcarried hstatic habstract
      · exact Or.inr hover.below

/-- That code of a link calls methods on the object itself by overriding alone.
Such calls stay. A concrete method of an object with the signature that they
call is still called by them, unless it is overridden on the way down. It is
called ahead of others if it is found in its link, and so is one that is found
at a link below. -/
structure FollowsOverrides (s : Sources) (chain : List DeclId) (d : TypeDecl)
    (lower : List DeclId) (link : DeclId) (above : List DeclId)
    (κ : Conversion) : Prop where
  stays : ∀ t r args, Expr.isOwn t = true → (Expr.call t r args).convert κ
    = .call t (r.mapTypes (seen s lower (link :: above)))
      (args.map (Expr.convert κ))
  keeps : ∀ r, ∀ m ∈ (s.get link).methods, m.modifiers.isStatic = false →
    m.isAbstract = false →
    m.isTargetOf r = true →
    (∃ m' ∈ d.methods, m'.id = m.id
        ∧ m'.isTargetOf (r.mapTypes (seen s lower (link :: above))) = true)
      ∨ IsOverridden s chain link m.id m.name
  finds : ∀ (r : MethodRef) low mid o, lower = low ++ mid →
    (s.get (mid.headD link)).methods.find?
      (·.isTargetOf (r.mapTypes (seen s mid (link :: above)))) = some o →
    o.modifiers.isStatic = false → o.isAbstract = false →
    (∃ o', d.methods.find?
      (·.isTargetOf (r.mapTypes (seen s lower (link :: above)))) = some o'
        ∧ o'.id = o.id)
      ∨ IsOverridden s chain (mid.headD link) o.id o.name

/-- What a reference finds in a link it finds in the whole chain, unless this
is overridden. -/
theorem mergeChain_finds_target {rest : List DeclId}
    (h : mergeChain s (low ++ link :: rest) = .ok d)
    (hfind : (s.get link).methods.find? (·.isTargetOf r) = some m)
    (hstatic : m.modifiers.isStatic = false)
    (habstract : m.isAbstract = false) :
    (∃ m', d.methods.find?
      (·.isTargetOf (r.mapTypes (seen s low (link :: rest)))) = some m'
        ∧ m'.id = m.id)
      ∨ IsOverridden s (low ++ link :: rest) link m.id m.name := by
  obtain ⟨base, hbase⟩ := mergeChain_upper h (List.cons_ne_nil link rest)
  have htarget : m.isTargetOf r = true :=
    (List.find?_eq_some_iff_append.1 hfind).1
  have hsame : m.signature = r.signature := Method.isTargetOf_iff.1 htarget
  have hsame' : ((profile m).mapTypes (seen s low (link :: rest))).signature
      = (r.mapTypes (seen s low (link :: rest))).signature :=
    congrArg (Signature.view (seen s low (link :: rest))) hsame
  have hown : (profiles base).find? (·.signature == (profile m).signature)
      = some (profile m) := by
    refine (prefix_mergeChain hbase).find?_eq_some ?_
    rw [show (profile m).signature = r.signature from hsame,
      find?_isTargetOf, hfind]
    rfl
  refine (mergeChain_finds hbase h List.mem_cons_self hown hstatic
    habstract).imp_left ?_
  intro hfound
  rw [hsame', find?_isTargetOf] at hfound
  obtain ⟨m', hm', hprofile⟩ := Option.map_eq_some_iff.1 hfound
  exact ⟨m', hm', congrArg Profile.id hprofile⟩

theorem Descends.followsOverrides
    (h : mergeChain s (lower ++ link :: above) = .ok d)
    (hdescends : Descends s (link :: above) site lower κ) :
    FollowsOverrides s (lower ++ link :: above) d lower link above κ where
  stays t r args ht :=
  hdescends.type_eq ▸ Expr.convert_call_of_isOwn κ ht r args
  keeps r m hm hstatic habstract htarget := by
    refine (mergeChain_carries_own h hm hstatic habstract).imp_left ?_
    intro hcarried
    obtain ⟨m', hm', hprofile⟩ := List.mem_map.1 hcarried
    have hsame : m'.signature
        = m.signature.view (seen s lower (link :: above)) :=
      congrArg Profile.signature hprofile
    rw [Method.isTargetOf_iff.1 htarget] at hsame
    exact ⟨m', hm', congrArg Profile.id hprofile,
      Method.isTargetOf_iff.2 hsame⟩
  finds r low mid o hlower hfind hstatic habstract := by
    subst hlower
    rw [List.append_assoc] at h ⊢
    rw [seen_append h
      (List.cons_ne_nil link above), ← MethodRef.mapTypes_mapTypes]
    -- the link that declares `o` is the lowest one of `mid`, or the calling
    -- one
    cases mid with
    | nil => exact mergeChain_finds_target h hfind hstatic habstract
    | cons next mid => exact mergeChain_finds_target h hfind hstatic habstract

/-- In the code of a folded chain, calls on the object itself are told by
overriding alone. -/
theorem mergeChain_followsOverrides (h : mergeChain s chain = .ok d) :
    Conveys s chain d fun lower link above _ κ =>
      FollowsOverrides s chain d lower link above κ :=
  (mergeChain_conveys h).imp fun _ _ _ _ _ hchain hdescends => by
    subst hchain
    exact hdescends.followsOverrides h

/-- A method that calls others on the object itself. -/
def ownCaller (name : String) (rs : List MethodRef) : Method :=
  { Method.simple name .void with
    body := some (rs.map fun r => .expr (.call none r [])) }

/-- The base calls two private methods of its own, one of which the leaf
overrides. -/
def privateSources : Sources :=
  superSources
    [{ Method.simple "help" .void with modifiers := .privateOnly },
      { Method.simple "run" .void with modifiers := .privateOnly },
      ownCaller "start" [⟨"Base", "help", []⟩, ⟨"Base", "run", []⟩]]
    [.simple "run" .void]

/-- What the leaf of these sources gets. -/
def privateInherited : List Profile :=
  profiles (instantiate (privateSources.get ⟨0⟩) (privateSources.get ⟨1⟩)).1

/-- What is there when some of it has been merged. -/
def privateThere (before : List Profile) : List Profile :=
  appendAll "Base" (profiles (privateSources.get ⟨1⟩)) before

/-- The calls stay; one means the private method and the other the leaf's. -/
theorem mergeChain_followsOverrides_private : ∃ d κ,
    mergeChain privateSources [⟨1⟩, ⟨0⟩] = .ok d
      ∧ (∃ start ∈ (privateSources.get ⟨0⟩).methods, start.name = "start"
        ∧ start.script.convert κ ∈ d.scripts)
      ∧ (∀ r ∈ [(⟨"Base", "help", []⟩ : MethodRef), ⟨"Base", "run", []⟩],
        (Expr.call none r []).convert κ = .call none r [])
      ∧ (∃ help ∈ (privateSources.get ⟨0⟩).methods, help.modifiers.visibility
        = .privateOnly
        ∧ ∃ m, d.methods.find? (·.isTargetOf ⟨"Base", "help", []⟩) = some m
        ∧ m.id = help.id)
      ∧ ∃ run ∈ (privateSources.get ⟨1⟩).methods,
        ∃ m, d.methods.find? (·.isTargetOf ⟨"Base", "run", []⟩) = some m
          ∧ m.id = run.id := by
  have hfolded : (mergeChain privateSources [⟨1⟩, ⟨0⟩]).toOption.map bodyTexts
      = some [("run", []), ("help", []), ("_Base_run", []),
        ("start", ["help()", "run()"])] := by
    decide +kernel
  obtain ⟨d, hok, -⟩ := exists_eq_ok_of_map hfolded
  -- the code of `start` comes down
  obtain ⟨start, hstart, hname, hthere⟩ :
      ∃ m ∈ (privateSources.get ⟨0⟩).methods, m.name = "start"
      ∧ ∀ i, ∀ hi : i < privateInherited.length,
      privateInherited[i].id = m.id →
        (appended? "Base" (privateThere (privateInherited.take i))
          privateInherited[i]).isSome := by
    decide +kernel
  have harrives : ¬ DroppedBelow privateSources [⟨0⟩] start.script.site
      [⟨1⟩] := by
    rintro (⟨base, hbase, before, p, after, hsplit, hid, hdrops⟩ | hnone)
    · obtain rfl : privateSources.get ⟨0⟩ = base := Except.ok.inj hbase
      have hsome := forall_split (P := fun before p => p.id = start.id →
        (appended? "Base" (privateThere before) p).isSome) hthere before p
        after hsplit hid
      exact absurd (Option.isSome_iff_ne_none.1 hsome) (not_not_intro hdrops)
    · exact hnone
  have hscript : start.script ∈ (privateSources.get ⟨0⟩).scripts :=
    TypeDecl.mem_scripts.2 (Or.inr (Or.inr ⟨start, hstart, rfl⟩))
  obtain ⟨κ, hκ, hmem⟩ :=
    ((mergeChain_followsOverrides hok).arrival [⟨1⟩] ⟨0⟩ [] rfl start.script
      hscript Site.noConfusion).resolve_right harrives
  -- `help` is not overridden
  have hhelp :
      ((privateSources.get ⟨0⟩).methods.find?
        (·.isTargetOf ⟨"Base", "help", []⟩)).map
      (fun m => (m.modifiers.visibility, m.modifiers.isStatic,
        m.isAbstract, m.name))
        = some (.privateOnly, false, false, "help") := by decide +kernel
  obtain ⟨help, hfind, hprivate, hstatic, habstract, hnamed⟩ := by
    simpa only [Option.map_eq_some_iff, Prod.mk.injEq] using hhelp
  have hfree : ∀ i, ∀ hi : i < privateInherited.length,
      privateInherited[i].name = "help" →
      ∀ o ∈ privateThere (privateInherited.take i),
        o.signature ≠ privateInherited[i].signature := by
    decide +kernel
  have hkept : ¬ IsOverridden privateSources [⟨1⟩, ⟨0⟩]
      ⟨0⟩ help.id help.name := by
    rintro ⟨derived, above, base, before, p, after, hsuffix, hlink, hbase,
      hsplit, -, hp, hmeets⟩
    rcases List.suffix_cons_iff.1 hsuffix with hwhole | hupper
    · obtain ⟨rfl, rfl⟩ := List.cons.inj hwhole
      obtain rfl : privateSources.get ⟨0⟩ = base := Except.ok.inj hbase
      obtain ⟨o, ho, hsame⟩ := hmeets
      exact forall_split (P := fun before p => p.name = "help" →
        ∀ o ∈ privateThere before, o.signature ≠ p.signature) hfree before p
        after hsplit (hp.trans hnamed) o ho hsame
    · have hnone : above <:+ [] := (List.suffix_cons_iff.1 hupper).elim
        (fun he => (List.cons.inj he).2 ▸ List.suffix_rfl)
        fun he => absurd he (by simp)
      exact List.not_mem_nil (List.suffix_nil.1 hnone ▸ hlink)
  -- `run` is that of the leaf, below which nothing is
  have hrun : ((privateSources.get ⟨1⟩).methods.find?
      (·.isTargetOf ⟨"Base", "run", []⟩)).map
      (fun m => (m.modifiers.isStatic, m.isAbstract)) = some (false,
        false) := by decide +kernel
  obtain ⟨run, hfind', hstatic', habstract'⟩ := by
    simpa only [Option.map_eq_some_iff, Prod.mk.injEq] using hrun
  have hfirst :=
    hκ.finds ⟨"Base", "help", []⟩ [⟨1⟩] [] help rfl hfind hstatic habstract
  have hlowest :=
    hκ.finds ⟨"Base", "run", []⟩ [] [⟨1⟩] run rfl hfind' hstatic' habstract'
  refine ⟨d, κ, hok, ⟨start, hstart, hname, hmem⟩, ?_,
    ⟨help, List.mem_of_find?_eq_some hfind, hprivate,
      hfirst.resolve_right hkept⟩,
    run, List.mem_of_find?_eq_some hfind',
    hlowest.resolve_right fun hover => ?_⟩
  · intro r hr
    rw [hκ.stays none r [] rfl]
    simp only [List.mem_cons, List.not_mem_nil, or_false] at hr
    rcases hr with rfl | rfl <;> rfl
  · exact absurd hover.mem_tail (by decide)

/-- The methods that the methods of a declaration call on the object itself. -/
def ownCalls (d : TypeDecl) : List (String × List MethodRef) :=
  d.methods.map fun m => (m.name, m.script.exprs.filterMap fun
    | .call none r _ => some r
    | _ => none)

/-- The call of the private method that is overridden no longer means it. -/
theorem mergeChain_overrides_private :
    ∃ d, mergeChain privateSources [⟨1⟩, ⟨0⟩] = .ok d
    ∧ ("start", [⟨"Base", "help", []⟩, ⟨"Base", "run", []⟩])
      ∈ ownCalls (privateSources.get ⟨0⟩)
    ∧ ("start", [⟨"Base", "help", []⟩, ⟨"Base", "run", []⟩]) ∈ ownCalls d
    ∧ ∃ run ∈ (privateSources.get ⟨0⟩).methods, run.modifiers.visibility
      = .privateOnly
      ∧ run.modifiers.isStatic = false ∧ run.isAbstract = false
      ∧ run.isTargetOf ⟨"Base", "run", []⟩ = true
      ∧ (∃ m ∈ d.methods, m.isTargetOf ⟨"Base", "run", []⟩ = true)
      ∧ ∀ m ∈ d.methods, m.isTargetOf ⟨"Base", "run", []⟩ = true →
        m.id ≠ run.id := by
  have hfolded : (mergeChain privateSources [⟨1⟩, ⟨0⟩]).toOption.map
      (fun d => (ownCalls d,
        (d.methods.filter (·.isTargetOf ⟨"Base", "run", []⟩)).map Method.id))
      = some ([("run", []), ("help", []), ("_Base_run", []),
          ("start", [⟨"Base", "help", []⟩, ⟨"Base", "run", []⟩])],
        (privateSources.get ⟨1⟩).methods.map Method.id) := by
    decide +kernel
  obtain ⟨d, hok, hmethods⟩ := exists_eq_ok_of_map hfolded
  obtain ⟨hcalls, htargets⟩ := Prod.mk.inj hmethods
  -- what has the signature is the leaf's
  have htarget : ∀ id, id ∈ (privateSources.get ⟨1⟩).methods.map Method.id
      ↔ ∃ m ∈ d.methods, m.isTargetOf ⟨"Base", "run", []⟩ = true
      ∧ m.id = id := by
    intro id
    rw [← htargets]
    simp [and_assoc]
  obtain ⟨run, hrun, hprivate, hstatic, habstract, htargeted, hapart⟩ :
      ∃ m ∈ (privateSources.get ⟨0⟩).methods,
        m.modifiers.visibility = .privateOnly
        ∧ m.modifiers.isStatic = false ∧ m.isAbstract = false
        ∧ m.isTargetOf ⟨"Base", "run", []⟩ = true
        ∧ m.id ∉ (privateSources.get ⟨1⟩).methods.map Method.id := by
    decide +kernel
  refine ⟨d, hok, by decide +kernel, hcalls ▸ by decide,
    run, hrun, hprivate, hstatic, habstract, htargeted, ?_,
    fun m hm hsame he => ?_⟩
  · obtain ⟨own, hown⟩ : ∃ m, m ∈ (privateSources.get ⟨1⟩).methods :=
      ⟨_, List.mem_cons_self⟩
    obtain ⟨m, hm, hsame, -⟩ := (htarget own.id).1 (List.mem_map_of_mem hown)
    exact ⟨m, hm, hsame⟩
  · exact hapart ((htarget _).2 ⟨m, hm, hsame, he⟩)

end Merge

end Stagewise
