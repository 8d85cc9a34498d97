/-
When a stage's declarations make a whole lifecycle.

# The rule

Three things are read off the declarations, before any scan: how many
initialized fields of the chain belong to the stage, and whether the first
method with the predicate's name is concrete, and the first with the close
method's name. Either there is exactly one initialized field and no
concrete predicate, or there are none or several and both methods are
concrete (`Whole`). A discovery that meets no wrong signature, no clash and
no field in a second link succeeds exactly by this rule, and fails with a
lifecycle conflict otherwise (`discover_cases`).

The first method is the most derived one. A leaf that declares the predicate
again without a body takes the place of a concrete predicate that it
inherits, so it is not enough that a concrete one is declared
(`discover_takes_redeclared`). It is where no method of the name is declared
without a body (`firstIsConcrete_iff`).

# The argument

What the scans leave tells what is declared, and the four tests at the end
ask for nothing but one source of the lifecycle (`validate_cases`). Where
the scan of the fields stops at a second initialized field, the rule is
broken whatever is left to read (`Declared.not_whole`).
-/
import Stagewise.Proofs.Composition.Tree
import Stagewise.Proofs.Stage.Scanning
import Stagewise.Proofs.Step

namespace Stagewise.Stage

variable {s : Sources} {leaf : DeclId} {name : String} {stage found : Stage}

-- ================================================================== the rule

/-- The methods of a leaf's chain, derived first. -/
def chainMethods (s : Sources) (leaf : DeclId) : List Location :=
  (s.extensionChain leaf).flatMap (methodLocations s)

/-- The fields of a leaf's chain, derived first. -/
def chainFields (s : Sources) (leaf : DeclId) : List Location :=
  (s.extensionChain leaf).flatMap (fieldLocations s)

/-- The initialized fields of a leaf's chain that belong to a stage. -/
def initializedFields (s : Sources) (leaf : DeclId) (name : String) :
    List Location :=
  initializedOf s (belonging s name (chainFields s leaf))

/-- Whether the first method of a name in a leaf's chain is concrete: the one
that is declared first in the most derived link that has any. -/
def FirstIsConcrete (s : Sources) (leaf : DeclId) (method : String) : Prop :=
  ∃ l ∈ firstNamed? s method (chainMethods s leaf),
    (s.method l).isAbstract = false

/-- That the declarations of a stage in a leaf's chain make a whole
lifecycle, with one source for everything in it: one initialized field where
the first predicate is not concrete, or else a first predicate and a first
close method that are. -/
def Whole (s : Sources) (leaf : DeclId) (name : String) : Prop :=
  (initializedFields s leaf name).length = 1
      ∧ ¬ FirstIsConcrete s leaf (Convention.predicateName name)
    ∨ (initializedFields s leaf name).length ≠ 1
      ∧ FirstIsConcrete s leaf (Convention.predicateName name)
      ∧ FirstIsConcrete s leaf (Convention.closeName name)

-- ------------------------------------------------- declared without a body

/-- Whether any method of a name in a leaf's chain is concrete. -/
def DeclaresConcrete (s : Sources) (leaf : DeclId) (method : String) : Prop :=
  ∃ l ∈ chainMethods s leaf, (s.method l).name = method
    ∧ (s.method l).isAbstract = false

instance (s : Sources) (leaf : DeclId) (method : String) :
    Decidable (DeclaresConcrete s leaf method) :=
  inferInstanceAs (Decidable (∃ l ∈ chainMethods s leaf,
    (s.method l).name = method ∧ (s.method l).isAbstract = false))

/-- The first method of a name is concrete exactly if any is, where none is
declared without a body. -/
theorem firstIsConcrete_iff {method : String}
    (h : ∀ l ∈ chainMethods s leaf, (s.method l).name = method →
      (s.method l).isAbstract = false) :
    FirstIsConcrete s leaf method ↔ DeclaresConcrete s leaf method := by
  constructor
  · rintro ⟨l, hl, hconcrete⟩
    obtain ⟨hmem, hname⟩ := mem_of_firstNamed? hl
    exact ⟨l, hmem, hname, hconcrete⟩
  · rintro ⟨l, hl, hname, -⟩
    have hfound : (firstNamed? s method (chainMethods s leaf)).isSome = true :=
      List.find?_isSome.2 ⟨l, hl, beq_iff_eq.2 hname⟩
    obtain ⟨first, hfirst⟩ := Option.isSome_iff_exists.1 hfound
    obtain ⟨hmem, hfirstName⟩ := mem_of_firstNamed? hfirst
    exact ⟨first, hfirst, h first hmem hfirstName⟩

/-- A base with a field, a concrete predicate and a close method of a stage
`Foo`, and a leaf that declares the predicate again without a body. -/
def redeclaredSources (init : Option Expr) : Sources :=
  let predicate : Method := Method.simple "fooInit" .boolean
  let base : TypeDecl :=
    { TypeDecl.participating "Base" with
      fields := [{ name := "foo", type := .int, init }]
      methods := [predicate, Method.simple "closeFoo" .void] }
  let leaf : TypeDecl :=
    { TypeDecl.participating "Leaf" with
      superclass := some (.named "Base"), methods := [predicate.toAbstract] }
  { decls := [base.assignIdentities, leaf.assignIdentities] }

/-- Both methods are declared with a body, and no field is initialized. The
stage is not found, since the predicate that counts has no body. Where the
field is initialized, the stage is found for the same reason. -/
theorem discover_takes_redeclared :
    (∃ s leaf seed, (∀ e, discover s leaf seed = .error e → ¬ OfScan e)
        ∧ (initializedFields s leaf (s.field seed).stageName).length = 0
        ∧ DeclaresConcrete s leaf
          (Convention.predicateName (s.field seed).stageName)
        ∧ DeclaresConcrete s leaf
          (Convention.closeName (s.field seed).stageName)
        ∧ ∀ stage, discover s leaf seed ≠ .ok stage)
      ∧ ∃ s leaf seed,
      (initializedFields s leaf (s.field seed).stageName).length = 1
        ∧ DeclaresConcrete s leaf
          (Convention.predicateName (s.field seed).stageName)
        ∧ ∃ stage, discover s leaf seed = .ok stage := by
  refine ⟨⟨redeclaredSources none, ⟨1⟩, ⟨⟨0⟩, 0⟩, ?_⟩,
    redeclaredSources (some (.literal (.int (-1)))), ⟨1⟩, ⟨⟨0⟩, 0⟩, ?_⟩
  · have hconflict : discover (redeclaredSources none) ⟨1⟩ ⟨⟨0⟩, 0⟩
        = .error (.lifecycleConflict "Foo"
          "abstract fooInit() requires one initialized field") := rfl
    refine ⟨fun e he =>
      ?_, by decide +kernel, by decide +kernel, by decide +kernel,
      fun stage hok => nomatch hconflict.symm.trans hok⟩
    obtain rfl := Except.error.inj (hconflict.symm.trans he)
    simp [OfScan]
  · refine ⟨by decide +kernel, by decide +kernel, ?_⟩
    exact Step.exists_eq_ok (by decide +kernel)

-- ============================================================ the validation

/-- That a stage has one source for its predicate and its close method. -/
def Sourced (s : Sources) (stage : Stage) : Prop :=
  stage.sentinel?.isSome = true ∧ stage.hasConcretePredicate s = false
    ∨ stage.sentinel?.isSome = false ∧ stage.hasConcretePredicate s = true
      ∧ stage.hasConcreteClose s = true

/-- The four tests together ask for one source. -/
theorem validate_cases (s : Sources) (stage : Stage) :
    (stage.validate s = .ok () ∧ stage.Sourced s)
      ∨ (∃ detail, stage.validate s
        = .error (.lifecycleConflict stage.name detail))
        ∧ ¬ stage.Sourced s := by
  have hpredicate : stage.declaredPredicate.isNone = true →
      stage.hasConcretePredicate s = false := by
    intro hnone
    unfold hasConcretePredicate
    rw [Option.isNone_iff_eq_none.1 hnone]
    rfl
  have hclose : stage.declaredClose.isNone = true →
      stage.hasConcreteClose s = false := by
    intro hnone
    unfold hasConcreteClose
    rw [Option.isNone_iff_eq_none.1 hnone]
    rfl
  unfold validate Sourced
  dsimp only
  split
  · exact .inr ⟨⟨_, rfl⟩, by grind⟩
  split
  · exact .inr ⟨⟨_, rfl⟩, by grind⟩
  split
  · exact .inr ⟨⟨_, rfl⟩, by grind⟩
  split
  · exact .inr ⟨⟨_, rfl⟩, by grind⟩
  · exact .inl ⟨rfl, by grind⟩

-- ============================================================= the discovery

/-- What holds of every stage that is discovered, apart from where its
members are. -/
structure Complete (s : Sources) (leaf : DeclId) (stage : Stage) : Prop where
  fields : stage.fields.map StageField.location
    = belonging s stage.name (chainFields s leaf)
  link : ∀ a ∈ stage.fields, ∀ b ∈ stage.fields,
    a.location.decl = b.location.decl
  sentinel : ∀ i, stage.initialized = .sentinel i ↔
    ∃ f, stage.fields[i]? = some f ∧ initializedFields s leaf stage.name
      = [f.location]
  isSome_sentinel? : stage.sentinel?.isSome = true
    ↔ (initializedFields s leaf stage.name).length = 1
  predicate : ∀ l ∈ stage.declaredPredicate,
    (s.method l).returns.isBoolean = true ∧ (s.method l).params = []
  close : ∀ l ∈ stage.declaredClose,
    (s.method l).returns.isVoid = true ∧ (s.method l).params = []
  inits : ∀ a ∈ stage.initMethods, ∀ b ∈ stage.initMethods, a ≠ b →
    clashes s (s.method a) (s.method b) = false

theorem nodup_chainFields : (chainFields s leaf).Nodup := by
  have hindex : ∀ d : DeclId, Function.Injective (Location.mk d) :=
    fun d _ _ h => congrArg Location.index h
  unfold chainFields
  refine List.nodup_flatMap.2
    ⟨fun d _ => List.Nodup.map (hindex d) List.nodup_range, ?_⟩
  refine Sources.nodup_extensionChain.imp fun hne l hl hl' => ?_
  exact hne ((mem_fieldLocations.1 hl).2.symm.trans
    (mem_fieldLocations.1 hl').2)

/-- A stage whose fields are distinct and that tells about its initialized
fields has its sentinel at the place of the only one. -/
theorem initialized_eq_sentinel_iff {inits : List Location} {i : Nat}
    (hnodup : (stage.fields.map StageField.location).Nodup)
    (h : Tells s stage inits) :
    stage.initialized = .sentinel i
      ↔ ∃ f, stage.fields[i]? = some f ∧ inits = [f.location] := by
  unfold Tells at h
  cases hi : stage.initialized with
  | noField =>
      rw [hi] at h
      simp [h]
  | manyWithPredicate =>
      rw [hi] at h
      refine ⟨nofun, fun ⟨f, _, hone⟩ => ?_⟩
      rw [hone] at h
      exact absurd h.1 (by simp)
  | sentinel j =>
      rw [hi] at h
      obtain ⟨f, hf, hone⟩ := h
      rw [InitializedFields.sentinel.injEq]
      refine ⟨fun he => ⟨f, he ▸ hf, hone⟩, fun ⟨f', hf', hone'⟩ => ?_⟩
      -- the only initialized field stands at one place
      have hlocation : f.location = f'.location :=
        List.singleton_inj.1 (hone.symm.trans hone')
      have hj : (stage.fields.map
          StageField.location)[j]? = some f.location := by
        rw [List.getElem?_map, hf]
        rfl
      have hi' : (stage.fields.map
          StageField.location)[i]? = some f.location := by
        rw [List.getElem?_map, hf', hlocation]
        rfl
      have hlt := (List.getElem?_eq_some_iff.1 hj).1
      exact (List.getElem?_inj hlt hnodup).1 (hj.trans hi'.symm)

theorem isSome_sentinel?_iff {inits : List Location}
    (h : Tells s stage inits) :
    stage.sentinel?.isSome = true ↔ inits.length = 1 := by
  unfold Tells at h
  unfold sentinel?
  cases hi : stage.initialized with
  | noField =>
      rw [hi] at h
      simp [h]
  | manyWithPredicate =>
      rw [hi] at h
      have hlength := h.1
      simp only [Option.isSome_none, Bool.false_eq_true, false_iff]
      omega
  | sentinel i =>
      rw [hi] at h
      obtain ⟨f, hf, hone⟩ := h
      simp [hf, hone]

/-- The scan of all methods reads which one comes first. -/
theorem firstIsConcrete_iff_any {method : String} {declared : Option Location}
    (h : declared = firstNamed? s method (chainMethods s leaf)) :
    FirstIsConcrete s leaf method
      ↔ (declared.any fun l => !(s.method l).isAbstract) = true := by
  unfold FirstIsConcrete
  rw [← h]
  cases declared with
  | none => simp
  | some l => simp

/-- What both scans leave is complete. -/
theorem Counted.complete (hd : Declared s name (chainMethods s leaf) found)
    (h : Counted s found (chainFields s leaf) stage) :
    stage.Complete s leaf := by
  obtain ⟨_, _, hframe⟩ := h.frame
  have hname : stage.name = found.name := by rw [hframe]
  have htells : Tells s stage (initializedFields s leaf stage.name) := by
    rw [hname]
    exact h.tells
  have hfields : stage.fields.map StageField.location
      = belonging s stage.name (chainFields s leaf) := by
    rw [hname]
    exact h.fields
  have hsymm : Std.Symm fun a b =>
      clashes s (s.method a) (s.method b) = false :=
    ⟨fun a b hab => (clashes_comm _ _).trans hab⟩
  exact
    { fields := hfields
      link := h.link
      sentinel := fun i => initialized_eq_sentinel_iff
        (hfields ▸ nodup_chainFields.filter _) htells
      isSome_sentinel? := isSome_sentinel?_iff htells
      predicate := by rw [hframe]; exact hd.predicateSignature
      close := by rw [hframe]; exact hd.closeSignature
      inits := by rw [hframe]; exact fun a ha b hb => hd.inits.forall ha hb }

/-- What both scans leave has one source when the declarations are whole. -/
theorem Counted.sourced_iff
    (hd : Declared s name (chainMethods s leaf) found)
    (h : Counted s found (chainFields s leaf) stage) :
    stage.Sourced s ↔ Whole s leaf name := by
  obtain ⟨_, _, hframe⟩ := h.frame
  have hname : stage.name = name := by
    rw [hframe]
    exact hd.named
  have hp : stage.hasConcretePredicate s = true
      ↔ FirstIsConcrete s leaf (Convention.predicateName name) := by
    rw [hframe, firstIsConcrete_iff_any hd.predicate]
    rfl
  have hc : stage.hasConcreteClose s = true
      ↔ FirstIsConcrete s leaf (Convention.closeName name) := by
    rw [hframe, firstIsConcrete_iff_any hd.close]
    rfl
  have hs := (h.complete hd).isSome_sentinel?
  rw [hname] at hs
  unfold Sourced Whole
  rw [← Bool.not_eq_true, ← Bool.not_eq_true, hs, hp, hc]

theorem scanMethods_finishes (s : Sources) (leaf : DeclId) (name : String) :
    Finishes ((chainMethods s leaf).foldlM (scanMethod s)
      { name, decl := leaf }) (Declared s name (chainMethods s leaf))
    OfScan := by
  have hempty : Declared s name [] { name, decl := leaf } :=
    ⟨rfl, rfl, rfl, rfl, rfl, fun _ h => (nomatch h), fun _ h => (nomatch h),
      List.Pairwise.nil⟩
  exact finishes_foldlM (fun _ _ _ _ _ h => h.step) hempty

theorem scanFields_finishes
    (hd : Declared s name (chainMethods s leaf) found) :
    Finishes ((chainFields s leaf).foldlM (scanField s) found)
      (Counted s found (chainFields s leaf))
      (Breaks s found (chainFields s leaf)) := by
  have hnone : Counted s found [] found :=
    ⟨⟨_, _, rfl⟩, by rw [hd.fields]; rfl, by
      rw [hd.fields]; exact List.forall_mem_nil _,
      by unfold Tells; rw [hd.initialized]; rfl⟩
  refine finishes_foldlM (fun done l rest hdone stage h => ?_) hnone
  have hread : (done ++ [l]).Sublist (chainFields s leaf) := by
    rw [← hdone, List.append_cons done l rest]
    exact List.sublist_append_left (done ++ [l]) rest
  exact h.step.imp_error fun e he => he.mono hread

/-- Where the scan of the fields stops at a second initialized field, the
declarations are not whole, whatever is left to read. -/
theorem Declared.not_whole (hd : Declared s name (chainMethods s leaf) found)
    (hmany : 2 ≤ (initializedFields s leaf name).length)
    (hp : found.hasConcretePredicate s = false) : ¬ Whole s leaf name := by
  rintro (⟨hone, -⟩ | ⟨-, hdeclared, -⟩)
  · omega
  · exact Bool.eq_false_iff.1 hp
      ((firstIsConcrete_iff_any hd.predicate).1 hdeclared)

/-- The stage as it leaves the discovery after both scans. -/
def concluded (s : Sources) (stage : Stage) : Stage :=
  { stage with
    noArgInit := stage.initMethods.find? fun l => (s.method l).params.isEmpty }

theorem discover_eq (s : Sources) (leaf : DeclId) (seed : Location) :
    discover s leaf seed = (do
      let found ← (chainMethods s leaf).foldlM (scanMethod s)
        { name := (s.field seed).stageName, decl := leaf }
      let stage ← (chainFields s leaf).foldlM (scanField s) found
      (concluded s stage).validate s
      return concluded s stage) := rfl

/-- A discovery either fails in a scan; or finds a stage that is complete and
has one source, and the declarations are whole; or fails with a lifecycle
conflict, and they are not. -/
theorem discover_cases (s : Sources) (leaf : DeclId) (seed : Location) :
    (∃ e, discover s leaf seed = .error e ∧ OfScan e)
      ∨ ((∃ stage, discover s leaf seed = .ok stage ∧ stage.name
        = (s.field seed).stageName
            ∧ stage.Complete s leaf ∧ stage.Sourced s)
          ∧ Whole s leaf (s.field seed).stageName)
      ∨ (∃ detail, discover s leaf seed
            = .error (.lifecycleConflict (s.field seed).stageName detail))
        ∧ ¬ Whole s leaf (s.field seed).stageName := by
  have hdiscover := discover_eq s leaf seed
  generalize (s.field seed).stageName = name at hdiscover ⊢
  rcases (scanMethods_finishes s leaf name).cases with ⟨found, hmethods, hd⟩
    | ⟨e, hmethods, hscan⟩
  · rw [hmethods, ok_bind] at hdiscover
    rcases (scanFields_finishes hd).cases with ⟨stage, hfields, hc⟩
      | ⟨e, hfields, hbreaks⟩
    · rw [hfields, ok_bind] at hdiscover
      have hname : stage.name = name := by
        obtain ⟨_, _, hframe⟩ := hc.frame
        rw [hframe]
        exact hd.named
      rcases validate_cases s (concluded s stage) with
        ⟨hvalid, hsourced⟩ | ⟨⟨detail, hvalid⟩, hsourced⟩
      · rw [hvalid] at hdiscover
        have hcomplete := hc.complete hd
        exact .inr (.inl ⟨⟨_, hdiscover, hname, { hcomplete with }, hsourced⟩,
          (hc.sourced_iff hd).1 hsourced⟩)
      · rw [hvalid] at hdiscover
        refine .inr (.inr ⟨⟨detail, hname ▸ hdiscover⟩, fun hwhole => ?_⟩)
        exact hsourced ((hc.sourced_iff hd).2 hwhole)
    · rw [hfields] at hdiscover
      rcases hbreaks with hscan | ⟨⟨detail, rfl⟩, hmany, hp⟩
      · exact .inl ⟨e, hdiscover, hscan⟩
      · rw [hd.named] at hdiscover hmany
        exact .inr (.inr ⟨⟨detail, hdiscover⟩, hd.not_whole hmany hp⟩)
  · rw [hmethods] at hdiscover
    exact .inl ⟨e, hdiscover, hscan⟩

end Stagewise.Stage
