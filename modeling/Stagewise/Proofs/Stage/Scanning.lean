/-
What the scans of a discovery read.

Each scan is followed with what it has read so far. The scan of the methods
keeps the first method with the predicate's name and the first with the
close method's (`Declared`). The branches of its step exclude each other,
for the name of a close method is neither that of a predicate nor that of
an init method. The scan of the fields keeps count of the initialized ones
that belong to the stage (`Counted`). It stops at the second of them if
there is no concrete predicate, and at a field in a second link
(`Breaks`).
-/
import Mathlib.Data.List.Zip
import Stagewise.Proofs.Stage.Discovery

namespace Stagewise

-- ===================================================================== names

namespace Convention

/-- The small form of a character is one character, or begins with `i`. -/
theorem lower_cases (c : Char) :
    (Text.lower c).length = 1 ∨ Text.lower c = ['i', Char.ofNat 775] := by
  unfold Text.lower
  split
  · exact .inl rfl
  · unfold Text.mapCase Text.lowerExpansions
    rw [List.lookup_cons]
    split
    · rename_i codes h
      split at h
      · exact .inr (by rw [← Option.some.inj h]; rfl)
      · cases h
    · exact .inl rfl

theorem toList_closeName (stage : String) :
    (closeName stage).toList = ['c', 'l', 'o', 's', 'e'] ++ stage.toList := by
  simp [closeName]

theorem toList_initName (stage : String) :
    (initName stage).toList = ['i', 'n', 'i', 't'] ++ stage.toList := by
  simp [initName]

/-- No stage has one name for its predicate and its close method: the
former would have to be one character longer than its stage in small
letters allows. -/
theorem closeName_ne_predicateName (stage : String) :
    closeName stage ≠ predicateName stage := by
  intro h
  have hlist : ['c', 'l', 'o', 's', 'e'] ++ stage.toList
      = (Text.decapitalize stage).toList ++ ['I', 'n', 'i', 't'] := by
    rw [← toList_closeName, h]
    simp [predicateName]
  unfold Text.decapitalize at hlist
  cases hstage : stage.toList with
  | nil =>
      rw [hstage] at hlist
      simp at hlist
  | cons c cs =>
      rw [hstage] at hlist
      simp only [String.toList_ofList] at hlist
      rcases lower_cases c with hlength | hlower
      · have hlengths := congrArg List.length hlist
        simp only [List.length_cons, List.length_append, hlength,
          List.length_nil] at hlengths
        omega
      · rw [hlower] at hlist
        exact absurd (List.cons.inj hlist).1 (by decide)

/-- A close method has not the name of an init method. -/
theorem isInitName_closeName (stage : String) :
    isInitName stage (closeName stage) = false := by
  unfold isInitName
  rw [Bool.or_eq_false_iff, beq_eq_false_iff_ne]
  constructor
  · intro he
    have hlist := toList_closeName stage
    rw [he, toList_initName] at hlist
    exact absurd (List.cons.inj hlist).1 (by decide)
  · rw [String.toList_append, toList_initName, toList_closeName]
    rfl

end Convention

-- ===================================================================== folds

/-- A part that does not fail hands its answer on. -/
theorem ok_bind {α β : Type} {f : α → Except Failure β} {a : α} :
    (Except.ok a >>= f) = f a := rfl

/-- That a computation that may fail answers with `Q`, or fails with `F`. -/
def Finishes {β : Type} (x : Except Failure β) (Q : β → Prop)
    (F : Failure → Prop) : Prop :=
  match x with
  | .ok b => Q b
  | .error e => F e

theorem Finishes.cases {β : Type} {x : Except Failure β} {Q : β → Prop}
    {F : Failure → Prop}
    (h : Finishes x Q F) :
    (∃ b, x = .ok b ∧ Q b) ∨ ∃ e, x = .error e ∧ F e := by
  cases x with
  | ok b => exact .inl ⟨b, rfl, h⟩
  | error e => exact .inr ⟨e, rfl, h⟩

theorem Finishes.imp_error {β : Type} {x : Except Failure β} {Q : β → Prop}
    {F G : Failure → Prop}
    (h : Finishes x Q F) (hF : ∀ e, F e → G e) : Finishes x Q G := by
  cases x with
  | ok b => exact h
  | error e => exact hF e h

/-- A fold ends as its steps do, which carry an invariant of what was read. -/
theorem finishes_foldlM {α β : Type} {f : β → α → Except Failure β}
    {I : List α → β → Prop} {F : Failure → Prop} {as : List α} {b : β}
    (hstep : ∀ done a rest, done ++ a :: rest = as → ∀ b, I done b →
      Finishes (f b a) (I (done ++ [a])) F)
    (h : I [] b) : Finishes (as.foldlM f b) (I as) F := by
  suffices hrest : ∀ rest done, done ++ rest = as → ∀ b, I done b →
      Finishes (rest.foldlM f b) (I as) F from hrest as [] rfl b h
  intro rest
  induction rest with
  | nil =>
      intro done hdone b hb
      rw [List.append_nil] at hdone
      exact hdone ▸ hb
  | cons a rest ih =>
      intro done hdone b hb
      rw [List.foldlM_cons]
      rcases (hstep done a rest hdone b hb).cases with ⟨b', hf, hb'⟩
        | ⟨e, hf, he⟩
      · rw [hf]
        exact ih (done ++ [a]) (by rw [List.append_assoc]; exact hdone) b' hb'
      · rw [hf]
        exact he

namespace Stage

variable {s : Sources} {leaf : DeclId} {name : String} {stage stage' : Stage}
variable {l : Location} {done : List Location}

-- =============================================================== declarations

instance {f : Field} : Decidable (Belongs name f) :=
  inferInstanceAs (Decidable (_ ∧ _))

/-- The fields of a stage among some fields. -/
def belonging (s : Sources) (name : String) (ls : List Location) :
    List Location :=
  ls.filter fun l => Belongs name (s.field l)

/-- The initialized ones among some fields. -/
def initializedOf (s : Sources) (ls : List Location) : List Location :=
  ls.filter fun l => (s.field l).init.isSome

/-- The first of some methods that has a name. -/
def firstNamed? (s : Sources) (method : String) (ls : List Location) :
    Option Location :=
  ls.find? fun l => (s.method l).name == method

/-- That a failure is about the signature of a method, about overloads, or
about a field in a second link. -/
def OfScan (e : Failure) : Prop :=
  (∃ method detail, e = .invalidSignature method detail)
    ∨ (∃ stage method, e = .overloadClash stage method)
    ∨ ∃ stage first second, e = .spanViolation stage first second

-- ============================================================ the method scan

theorem mem_of_firstNamed? {method : String} {ls : List Location}
    (h : firstNamed? s method ls = some l) :
    l ∈ ls ∧ (s.method l).name = method :=
  ⟨List.mem_of_find?_eq_some h, beq_iff_eq.1 (List.find?_some h :)⟩

theorem firstNamed?_concat {method : String} :
    firstNamed? s method (done ++ [l])
      = (firstNamed? s method done).or
          (if (s.method l).name == method then some l else none) := by
  unfold firstNamed?
  rw [List.find?_append, List.find?_singleton]

/-- A method that has not the name, or is not the first, is passed over. -/
theorem firstNamed?_pass {method : String} {found : Option Location}
    (h : found = firstNamed? s method done)
    (hl : (s.method l).name = method → found ≠ none) :
    found = firstNamed? s method (done ++ [l]) := by
  rw [firstNamed?_concat, ← h]
  cases found with
  | some l' => rfl
  | none =>
      have hother : ((s.method l).name == method) = false :=
        beq_false_of_ne fun he => hl he rfl
      rw [hother]
      rfl

theorem firstNamed?_take {method : String}
    (h : none = firstNamed? s method done)
    (hl : (s.method l).name = method) :
    some l = firstNamed? s method (done ++ [l]) := by
  rw [firstNamed?_concat, ← h, hl, beq_self_eq_true]
  rfl

/-- Clashing goes both ways. -/
theorem clashes_comm (m m' : Method) : clashes s m m' = clashes s m' m := by
  have hzip : m'.params.zip m.params
      = (m.params.zip m'.params).map Prod.swap :=
    (List.zip_swap _ _).symm
  unfold clashes
  rw [hzip, List.all_map, BEq.comm (a := m.name),
    BEq.comm (a := m.params.length)]
  congr 2
  funext ⟨p, q⟩
  simp only [Function.comp_apply, Prod.swap_prod_mk]
  rw [Bool.or_comm (s.isSubtype p.type q.type), Bool.and_comm p.type.isNumeric]

theorem checkSignature_finishes {m : Method} {returnsIt : Bool}
    {detail : String} :
    Finishes (checkSignature m returnsIt detail)
      (fun _ => returnsIt = true ∧ m.params = []) OfScan := by
  unfold checkSignature
  split
  · exact .inl ⟨_, _, rfl⟩
  split
  · exact .inl ⟨_, _, rfl⟩
  · rename_i hreturns hparams
    exact ⟨by simpa using hreturns, by simpa using hparams⟩

/-- What the scan of the methods has found among those it has read. -/
structure Declared (s : Sources) (name : String) (done : List Location)
    (stage : Stage) :
    Prop where
  named : stage.name = name
  fields : stage.fields = []
  initialized : stage.initialized = .noField
  predicate : stage.declaredPredicate
  = firstNamed? s (Convention.predicateName name) done
  close : stage.declaredClose = firstNamed? s (Convention.closeName name) done
  predicateSignature : ∀ l ∈ stage.declaredPredicate,
    (s.method l).returns.isBoolean = true ∧ (s.method l).params = []
  closeSignature : ∀ l ∈ stage.declaredClose,
    (s.method l).returns.isVoid = true ∧ (s.method l).params = []
  inits : stage.initMethods.Pairwise fun a b =>
    clashes s (s.method a) (s.method b) = false

/-- A step of the scan takes over the first method of either name. -/
theorem Declared.step (h : Declared s name done stage) :
    Finishes (scanMethod s stage l) (Declared s name (done ++ [l]))
      OfScan := by
  -- a method that is neither the first predicate nor the first close method
  have hpass (hp : (s.method l).name = Convention.predicateName name →
        stage.declaredPredicate ≠ none)
      (hc : (s.method l).name = Convention.closeName name →
        stage.declaredClose ≠ none) :
      Declared s name (done ++ [l]) stage :=
    { h with
      predicate := firstNamed?_pass h.predicate hp
      close := firstNamed?_pass h.close hc }
  unfold scanMethod
  dsimp only
  rw [h.named]
  split
  · rename_i hfirst
    simp only [Bool.and_eq_true, beq_iff_eq,
      Option.isNone_iff_eq_none] at hfirst
    obtain ⟨hname, hnone⟩ := hfirst
    rcases checkSignature_finishes.cases with ⟨_, hok, hsignature⟩
      | ⟨e, herror, hscan⟩
    · rw [hok]
      have hclose := firstNamed?_pass (l := l) h.close fun he =>
        absurd (he.symm.trans hname)
          (Convention.closeName_ne_predicateName name)
      exact { h with
        named := rfl
        predicate := firstNamed?_take (hnone ▸ h.predicate) hname
        close := hclose
        predicateSignature := fun l' hl' => Option.some.inj hl' ▸ hsignature }
    · rw [herror]
      exact hscan
  rename_i hpredicate
  have hp : (s.method l).name = Convention.predicateName name →
      stage.declaredPredicate ≠ none := by
    intro hname hnone
    exact hpredicate (by rw [hname, hnone, beq_self_eq_true]; rfl)
  split
  · rename_i hinit
    simp only [Bool.and_eq_true] at hinit
    have hc : (s.method l).name ≠ Convention.closeName name := by
      intro hname
      rw [hname, Convention.isInitName_closeName] at hinit
      cases hinit.2
    split
    · exact .inr (.inl ⟨_, _, rfl⟩)
    · rename_i hclash
      have hnew : ∀ a ∈ stage.initMethods, ∀ b ∈ [l],
          clashes s (s.method a) (s.method b) = false := by
        intro a ha b hb
        obtain rfl := List.mem_singleton.1 hb
        rw [clashes_comm]
        exact Bool.eq_false_iff.2
          (List.any_eq_false.1 (Bool.eq_false_iff.2 hclash) a ha)
      exact { hpass hp fun he => absurd he hc with
        named := rfl
        inits := List.pairwise_append.2 ⟨h.inits, List.pairwise_singleton _ _,
          hnew⟩ }
  split
  · rename_i hfirst
    simp only [Bool.and_eq_true, beq_iff_eq,
      Option.isNone_iff_eq_none] at hfirst
    obtain ⟨hname, hnone⟩ := hfirst
    rcases checkSignature_finishes.cases with ⟨_, hok, hsignature⟩
      | ⟨e, herror, hscan⟩
    · rw [hok]
      exact { h with
        named := rfl
        predicate := firstNamed?_pass h.predicate hp
        close := firstNamed?_take (hnone ▸ h.close) hname
        closeSignature := fun l' hl' => Option.some.inj hl' ▸ hsignature }
    · rw [herror]
      exact hscan
  rename_i hclose
  have hc : (s.method l).name = Convention.closeName name →
      stage.declaredClose ≠ none := by
    intro hname hnone
    exact hclose (by rw [hname, hnone, beq_self_eq_true]; rfl)
  split
  · exact { hpass hp hc with named := rfl }
  · exact hpass hp hc

-- ============================================================= the field scan

theorem scanField_of_not_belongs (h : ¬ Belongs stage.name (s.field l)) :
    scanField s stage l = .ok stage := by
  unfold scanField
  dsimp only
  split
  · rfl
  split
  · rfl
  rename_i hstage htag
  refine absurd ⟨by simpa using hstage, ?_⟩ h
  simp only [Bool.and_eq_true, bne_iff_ne, not_and, Decidable.not_not] at htag
  exact Decidable.or_iff_not_imp_left.2 htag

/-- The field as the stage has it. -/
def entryOf (s : Sources) (l : Location) : StageField :=
  { location := l, id := (s.field l).id, name := (s.field l).name,
    declaredAccessor := declaredAccessor? s l,
    forcesAccessor :=
    (declaredAccessor? s l).isSome || hasInterfaceAccessor s l }

/-- A field that belongs to the stage is taken over, unless it stands in
another link than the fields before or is initialized and may not be. -/
theorem scanField_of_belongs (h : Belongs stage.name (s.field l)) :
    ((∃ first ∈ stage.fields.head?, first.location.decl ≠ l.decl)
        ∧ ∃ e, scanField s stage l = .error e ∧ OfScan e)
      ∨ (∀ first ∈ stage.fields.head?, first.location.decl = l.decl)
        ∧ scanField s stage l = (do
            let initialized ←
              if (s.field l).init.isSome then countInitialized s stage
              else .ok stage.initialized
            return { stage with
                initialized, fields := stage.fields ++ [entryOf s l] }) := by
  have hstage : (!(s.field l).isStageField) = false := by rw [h.1]; rfl
  have htag : ((s.field l).stageTag? != some stage.name
      && Text.capitalize (s.field l).name != stage.name) = false := by
    rcases h.2 with ht | ht
    · rw [ht, bne_self_eq_false, Bool.false_and]
    · rw [ht, bne_self_eq_false, Bool.and_false]
  unfold scanField
  simp only [hstage, htag, Bool.false_eq_true, if_false]
  cases stage.fields.head? with
  | none =>
      refine .inr ⟨nofun, ?_⟩
      dsimp only
      split <;> rfl
  | some first =>
      dsimp only
      by_cases hlink : first.location.decl = l.decl
      · refine .inr ⟨fun _ hf => Option.some.inj hf ▸ hlink, ?_⟩
        rw [hlink, bne_self_eq_false, if_neg Bool.false_ne_true]
        split <;> rfl
      · refine .inl ⟨⟨first, rfl, hlink⟩, .spanViolation stage.name
          (s.name first.location.decl) (s.name l.decl), ?_,
          .inr (.inr ⟨_, _, _, rfl⟩)⟩
        rw [if_pos (bne_iff_ne.2 hlink)]
        rfl

/-- That a stage with these initialized fields says so. -/
def Tells (s : Sources) (stage : Stage) (inits : List Location) : Prop :=
  match stage.initialized with
  | .noField => inits = []
  | .sentinel i => ∃ f, stage.fields[i]? = some f ∧ inits = [f.location]
  | .manyWithPredicate =>
      2 ≤ inits.length ∧ stage.hasConcretePredicate s = true

theorem countInitialized_cases {inits : List Location}
    (h : Tells s stage inits) :
    (inits = [] ∧ countInitialized s stage
      = .ok (.sentinel stage.fields.length))
      ∨ inits ≠ [] ∧ (stage.hasConcretePredicate s = true
          ∧ countInitialized s stage = .ok .manyWithPredicate
        ∨ stage.hasConcretePredicate s = false ∧ ∃ detail,
          countInitialized s stage
            = .error (.lifecycleConflict stage.name detail)) := by
  unfold Tells at h
  unfold countInitialized
  cases hi : stage.initialized with
  | noField =>
      rw [hi] at h
      exact .inl ⟨h, rfl⟩
  | sentinel i =>
      rw [hi] at h
      obtain ⟨f, -, hinits⟩ := h
      refine .inr ⟨hinits ▸ List.cons_ne_nil _ _, ?_⟩
      cases stage.hasConcretePredicate s with
      | true => exact .inl ⟨rfl, rfl⟩
      | false => exact .inr ⟨rfl, _, rfl⟩
  | manyWithPredicate =>
      rw [hi] at h
      refine .inr ⟨fun hnil => ?_, .inl ⟨h.2, ?_⟩⟩
      · rw [hnil] at h
        exact absurd h.1 (by decide)
      · rw [h.2]
        rfl

/-- What the scan of the fields has made of those it has read, from the stage
that the scan of the methods left. -/
structure Counted (s : Sources) (found : Stage) (done : List Location)
    (stage : Stage) :
    Prop where
  frame : ∃ fields initialized, stage = { found with fields, initialized }
  fields : stage.fields.map StageField.location = belonging s found.name done
  link : ∀ a ∈ stage.fields, ∀ b ∈ stage.fields,
  a.location.decl = b.location.decl
  tells : Tells s stage (initializedOf s (belonging s found.name done))

theorem belonging_concat : belonging s name (done ++ [l])
    = belonging s name done ++ if Belongs name (s.field l) then [l]
      else [] := by
  unfold belonging
  rw [List.filter_append, List.filter_singleton]
  congr 1
  split <;> simp_all

theorem initializedOf_concat : initializedOf s (done ++ [l])
    = initializedOf s done ++ if (s.field l).init.isSome then [l] else [] := by
  unfold initializedOf
  rw [List.filter_append, List.filter_singleton]
  congr 1
  split <;> simp_all

variable {found : Stage}

/-- How the scan of the fields may fail: by a field in a second link, or by a
second initialized field without a concrete predicate. -/
def Breaks (s : Sources) (found : Stage) (ls : List Location) (e : Failure) :
    Prop :=
  OfScan e ∨ (∃ detail, e = .lifecycleConflict found.name detail)
    ∧ 2 ≤ (initializedOf s (belonging s found.name ls)).length
    ∧ found.hasConcretePredicate s = false

theorem Breaks.mono {ls ls' : List Location} {e : Failure}
    (h : Breaks s found ls e)
    (hls : ls.Sublist ls') : Breaks s found ls' e := by
  refine h.imp_right fun ⟨hconflict, hmany, hp⟩ => ⟨hconflict, ?_, hp⟩
  exact Nat.le_trans hmany ((hls.filter _).filter _).length_le

/-- Taking a field over keeps the count. -/
theorem Counted.take {initialized : InitializedFields}
    (h : Counted s found done stage) (hl : Belongs found.name (s.field l))
    (hlink : ∀ first ∈ stage.fields.head?, first.location.decl = l.decl)
    (htells : Tells s { stage with
    initialized, fields := stage.fields ++ [entryOf s l] }
      (initializedOf s (belonging s found.name (done ++ [l])))) :
    Counted s found (done ++ [l])
      { stage with initialized, fields := stage.fields ++ [entryOf s l] } := by
  obtain ⟨_, _, hframe⟩ := h.frame
  refine ⟨⟨_, _, by rw [hframe]⟩, ?_, ?_, htells⟩
  · rw [belonging_concat, if_pos hl, List.map_append, h.fields]
    rfl
  · have hall : ∀ a ∈ stage.fields ++ [entryOf s l],
        a.location.decl = l.decl := by
      refine List.forall_mem_append.2 ⟨fun a ha => ?_,
        List.forall_mem_singleton.2 rfl⟩
      cases hfields : stage.fields with
      | nil => exact absurd (hfields ▸ ha) List.not_mem_nil
      | cons first rest =>
          have hfirst : first ∈ stage.fields := hfields ▸ List.mem_cons_self
          rw [h.link a ha first hfirst]
          exact hlink first (by rw [hfields]; rfl)
    exact fun a ha b hb => (hall a ha).trans (hall b hb).symm

/-- A field without an initial value leaves what is told. -/
theorem Tells.append {inits : List Location} {f : StageField}
    (h : Tells s stage inits) :
    Tells s { stage with fields := stage.fields ++ [f] } inits := by
  unfold Tells at h ⊢
  dsimp only
  cases hi : stage.initialized with
  | noField => rwa [hi] at h
  | sentinel i =>
      rw [hi] at h
      obtain ⟨g, hg, hone⟩ := h
      exact ⟨g, by rw [List.getElem?_append_left
        (List.getElem?_eq_some_iff.1 hg).1, hg], hone⟩
  | manyWithPredicate => rwa [hi] at h

/-- A step of the scan keeps count of the initialized fields. -/
theorem Counted.step (h : Counted s found done stage) :
    Finishes (scanField s stage l) (Counted s found (done ++ [l]))
      (Breaks s found (done ++ [l])) := by
  obtain ⟨fields, initialized, hframe⟩ := h.frame
  have hname : stage.name = found.name := by rw [hframe]
  have hconcrete : stage.hasConcretePredicate s
      = found.hasConcretePredicate s := by
    rw [hframe]
    rfl
  by_cases hl : Belongs found.name (s.field l)
  · rcases scanField_of_belongs (hname ▸ hl) with ⟨-, e, herror, hscan⟩
      | ⟨hlink, hscan⟩
    · rw [herror]
      exact .inl hscan
    rw [hscan]
    have hown : belonging s found.name (done ++ [l])
        = belonging s found.name done ++ [l] := by
      rw [belonging_concat, if_pos hl]
    by_cases hinit : (s.field l).init.isSome = true
    · -- the field is one more that is initialized
      have hinits : initializedOf s (belonging s found.name (done ++ [l]))
          = initializedOf s (belonging s found.name done) ++ [l] := by
        rw [hown, initializedOf_concat, if_pos hinit]
      have hmany (hne : initializedOf s (belonging s found.name done) ≠ []) :
          2 ≤ (initializedOf s
            (belonging s found.name (done ++ [l]))).length := by
        have hpos := List.length_pos_of_ne_nil hne
        rw [hinits, List.length_append, List.length_singleton]
        omega
      rw [if_pos hinit]
      rcases countInitialized_cases h.tells with
        ⟨hnil, hcount⟩ | ⟨hne, ⟨hp, hcount⟩ | ⟨hp, detail, hcount⟩⟩
      · rw [hcount]
        refine h.take hl hlink ⟨entryOf s l, List.getElem?_concat_length, ?_⟩
        rw [hinits, hnil]
        rfl
      · rw [hcount]
        exact h.take hl hlink ⟨hmany hne, hp⟩
      · rw [hcount]
        exact .inr ⟨⟨detail, by rw [hname]⟩, hmany hne, hconcrete ▸ hp⟩
    · have hinits : initializedOf s (belonging s found.name (done ++ [l]))
          = initializedOf s (belonging s found.name done) := by
        rw [hown, initializedOf_concat, if_neg hinit, List.append_nil]
      rw [if_neg hinit]
      exact h.take hl hlink (hinits ▸ h.tells.append)
  · rw [scanField_of_not_belongs (hname ▸ hl)]
    have hown : belonging s found.name (done ++ [l])
        = belonging s found.name done := by
      rw [belonging_concat, if_neg hl, List.append_nil]
    exact ⟨h.frame, hown ▸ h.fields, h.link, hown ▸ h.tells⟩

end Stage

end Stagewise
