/-
What an object runs that is created without arguments.

A link without constructors inherits the explicit constructor of its base that
has no parameters. A link that has the constructor which stands for none
(`Constructor.implicit`) is taken at its word: it inherits nothing.

So the two are not the same, and `mergeChain_implicit` says what the difference
is. Nothing but constructors differs, and what differs in these is that some
statements in front are lost (`Lags`). What is lost is what has become of the
body that the link would have inherited, so nothing is lost where that has no
statement. If no link below has constructors either, all that an object runs is
lost.
-/
import Stagewise.Proofs.Merge.Redirection

namespace Stagewise.Merge

variable {base derived d : TypeDecl} {owner : String} {m : Method}
variable {s s' : Sources}
variable {lower above : List DeclId} {link leaf : DeclId} {b x y : Block}
variable {c c' k : Constructor} {cs cs' rs : List Constructor} {name : String}
variable {args : List Expr} {rest : Block}

-- ========================================================= other constructors

/-- A declaration with other constructors. -/
def withConstructors (d : TypeDecl) (constructors : List Constructor) :
    TypeDecl :=
  { d with constructors }

@[simp] theorem withConstructors_constructors (d : TypeDecl) :
    withConstructors d d.constructors = d := by
  cases d
  rfl

/-- Merging a method leaves constructors alone that have no code. -/
theorem mergeMethod_withConstructors
    (hcs : ∀ f, cs.map (Constructor.rewrite f) = cs)
    (owner : String) (derived : TypeDecl) (m : Method) :
    mergeMethod owner (withConstructors derived cs) m
      = withConstructors (mergeMethod owner derived m) cs := by
  have hover : mergeOverridden owner (withConstructors derived cs) m
      = withConstructors (mergeOverridden owner derived m) cs := by
    unfold mergeOverridden
    dsimp only
    rw [redirectSuper_eq, redirectSuper_eq]
    cases derived
    simp only [withConstructors, TypeDecl.rewrite, hcs]
  have hmethods : (withConstructors derived cs).methods = derived.methods :=
    rfl
  unfold mergeMethod
  rw [hmethods, hover]
  split
  · rfl
  · split
    · split <;> rfl
    · rename_i i _
      dsimp only
      cases m.isAbstract || (derived.methods.getD i default).isAbstract with
      | true => split <;> rfl
      | false => split <;> rfl

/-- Merging members leaves constructors alone that have no code. -/
theorem mergeMembers_withConstructors
    (hcs : ∀ f, cs.map (Constructor.rewrite f) = cs)
    (base derived : TypeDecl) :
    mergeMembers base (withConstructors derived cs)
      = withConstructors (mergeMembers base derived) cs := by
  have hfold : ∀ ms : List Method, ∀ derived,
      ms.foldl (mergeMethod base.name) (withConstructors derived cs)
        = withConstructors (ms.foldl (mergeMethod base.name) derived) cs := by
    intro ms
    induction ms with
    | nil => exact fun _ => rfl
    | cons m ms ih =>
        intro derived
        rw [List.foldl_cons, mergeMethod_withConstructors hcs, ih,
          List.foldl_cons]
  exact hfold base.methods (takeOver base derived)

/-- The constructors of a base make no difference to how formal parameters are
replaced, nor do those of the declaration that extends it. -/
theorem instantiate_withConstructors (base derived : TypeDecl)
    (cs : List Constructor) :
    instantiate (withConstructors base cs) derived
      = (withConstructors (instantiate base derived).1
          (cs.map (Constructor.mapNames
            (NameMap.ofTypes (instantiated base derived)))),
        (instantiate base derived).2) := by
  refine Prod.ext ?_ ?_
  · rw [instantiate_eq_mapNames, instantiate_eq_mapNames]
    cases base
    rfl
  · unfold instantiate
    dsimp only [withConstructors]
    split
    · rfl
    · split <;> rfl

theorem instantiate_of_withConstructors (base derived : TypeDecl)
    (cs : List Constructor) :
    instantiate base (withConstructors derived cs)
      = ((instantiate base derived).1,
        withConstructors (instantiate base derived).2 cs) := by
  unfold instantiate
  dsimp only [withConstructors]
  split
  · rfl
  · split <;> rfl

/-- What is merged, with the constructors that come of those of both sides. -/
theorem mergeLink_eq (base derived : TypeDecl) :
    mergeLink base derived = mergeConstructors (instantiate base derived).1
        (mergeMembers (instantiate base derived).1
          (instantiate base derived).2) >>= fun cs =>
      .ok { mergeMembers (instantiate base derived).1 (instantiate base
          derived).2 with
        constructors := cs
        superclass := (instantiate base derived).1.superclass } := rfl

/-- What is merged of a base with other constructors. -/
theorem mergeLink_withConstructors (base derived : TypeDecl)
    (cs : List Constructor) :
    mergeLink (withConstructors base cs) derived
      = mergeConstructors (withConstructors (instantiate base derived).1
            (cs.map (Constructor.mapNames
              (NameMap.ofTypes (instantiated base derived)))))
          (mergeMembers (instantiate base derived).1
            (instantiate base derived).2) >>= fun rs =>
        .ok { mergeMembers (instantiate base derived).1 (instantiate base
            derived).2 with
          constructors := rs
          superclass := (instantiate base derived).1.superclass } := by
  rw [mergeLink_eq, instantiate_withConstructors]
  rfl

/-- A declaration without constructors has none when members are merged. -/
theorem constructors_mergeMembers (hnone : derived.constructors = [])
    (base base' : TypeDecl) :
    (mergeMembers base (instantiate base' derived).2).constructors = [] := by
  obtain ⟨-, typeParams, hderived⟩ := instantiate_spec base' derived
  have hself : withConstructors { derived with typeParams } [] = { derived with
      typeParams } := by
    unfold withConstructors
    rw [← hnone]
  rw [hderived, ← hself, mergeMembers_withConstructors fun _ => rfl]
  rfl

-- =============================================================== what is lost

/-- What statements may have become on their way through links: types are
replaced and variables renamed. -/
inductive Becomes (b : Block) : Block → Prop
  | same : Becomes b b
  | types {x : Block} (τ : TypeRef → TypeRef) :
      Becomes b x → Becomes b (x.mapNames (NameMap.ofTypes τ))
  | vars {x : Block} (ρ : String → String) :
      Becomes b x → Becomes b (x.rewrite (Expr.renameTop ρ))

theorem Becomes.eq_nil (h : Becomes [] x) : x = [] := by
  induction h with
  | same => rfl
  | types τ _ ih =>
      rw [ih]
      rfl
  | vars ρ _ ih =>
      rw [ih]
      rfl

/-- That a constructor is another one behind statements that `b` may have
become. -/
def Loses (b : Block) (c c' : Constructor) : Prop :=
  ∃ lost : Block, (lost = [] ∨ Becomes b lost)
    ∧ c = { c' with body := lost ++ c'.body }

theorem Loses.refl (b : Block) (c : Constructor) : Loses b c c :=
  ⟨[], Or.inl rfl, rfl⟩

theorem Loses.mapNames (τ : TypeRef → TypeRef) (h : Loses b c c') :
    Loses b (c.mapNames (NameMap.ofTypes τ))
      (c'.mapNames (NameMap.ofTypes τ)) := by
  obtain ⟨lost, hlost, rfl⟩ := h
  refine ⟨Block.mapNames (NameMap.ofTypes τ) lost, ?_, ?_⟩
  · rcases hlost with rfl | hlost
    · exact Or.inl rfl
    · exact Or.inr (hlost.types τ)
  · unfold Constructor.mapNames
    rw [Block.mapNames_append]

/-- That a link inherits a constructor that runs what `b` has become, or
nothing if that has no statement, while another one has nothing to run. -/
structure Inherits (b : Block) (cs cs' : List Constructor) : Prop where
  kept : cs = [] ∧ b = []
    ∨ ∃ k, cs = [k] ∧ k.params = [] ∧ k.isImplicit = false ∧ Becomes b k.body
  left : ∀ c ∈ cs', c.params = [] ∧ c.isImplicit = true ∧ c.body = []

theorem Inherits.mapNames (τ : TypeRef → TypeRef) (h : Inherits b cs cs') :
    Inherits b (cs.map (Constructor.mapNames (NameMap.ofTypes τ)))
      (cs'.map (Constructor.mapNames (NameMap.ofTypes τ))) where
  kept := by
    rcases h.kept with ⟨rfl, hb⟩ | ⟨k, rfl, hparams, hexplicit, hbody⟩
    · exact Or.inl ⟨rfl, hb⟩
    · refine Or.inr ⟨_, rfl, ?_, hexplicit, hbody.types τ⟩
      unfold Constructor.mapNames
      rw [hparams]
      rfl
  left := by
    rw [List.forall_mem_map]
    intro c hc
    obtain ⟨hparams, himplicit, hbody⟩ := h.left c hc
    unfold Constructor.mapNames
    rw [hparams, hbody]
    exact ⟨rfl, himplicit, rfl⟩

/-- That constructors run the same as others but for what is lost. -/
def Lags (b : Block) (cs cs' : List Constructor) : Prop :=
  Inherits b cs cs' ∨ List.Forall₂ (Loses b) cs cs'

theorem Lags.mapNames (τ : TypeRef → TypeRef) (h : Lags b cs cs') :
    Lags b (cs.map (Constructor.mapNames (NameMap.ofTypes τ)))
      (cs'.map (Constructor.mapNames (NameMap.ofTypes τ))) :=
  h.imp (Inherits.mapNames τ) fun hall => by
    rw [List.forall₂_map_left_iff, List.forall₂_map_right_iff]
    exact hall.imp fun _ _ hloses => hloses.mapNames τ

-- ============================================================ one constructor

/-- What is found among constructors that correspond corresponds. -/
theorem find?_forall₂ {α : Type} {R : α → α → Prop} {p : α → Bool}
    {as as' : List α}
    (hp : ∀ a a', R a a' → p a = p a') (h : List.Forall₂ R as as') :
    (as.find? p = none ∧ as'.find? p = none)
      ∨ ∃ a a', as.find? p = some a ∧ as'.find? p = some a' ∧ R a a' := by
  induction h with
  | nil => exact Or.inl ⟨rfl, rfl⟩
  | @cons a a' as as' hhead _ ih =>
      rw [List.find?_cons, List.find?_cons, hp a a' hhead]
      cases p a' with
      | true => exact Or.inr ⟨a, a', rfl, rfl, hhead⟩
      | false => exact ih

/-- What is lost shows neither in the parameters nor in whether a constructor
is explicit. -/
theorem Loses.fits_eq (h : Loses b c c') (count : Nat) :
    fits count c = fits count c' := by
  obtain ⟨lost, -, rfl⟩ := h
  rfl

theorem Loses.isImplicit_eq (h : Loses b c c') :
    c.isImplicit = c'.isImplicit := by
  obtain ⟨lost, -, rfl⟩ := h
  rfl

theorem all_isImplicit_eq (h : List.Forall₂ (Loses b) cs cs') :
    cs.all (·.isImplicit) = cs'.all (·.isImplicit) := by
  induction h with
  | nil => rfl
  | cons hhead _ ih =>
      rw [List.all_cons, List.all_cons, hhead.isImplicit_eq, ih]

/-- A constructor that takes in another one that lags lags itself. -/
theorem Loses.takenIn {called called' : Constructor}
    (h : Loses b called called') :
    Loses b { c with body := takenIn c called args ++ rest }
      { c with body := takenIn c called' args ++ rest } := by
  obtain ⟨lost, hlost, rfl⟩ := h
  refine ⟨Block.rewrite (Expr.renameTop (renamingOf c called' args).read) lost,
    ?_, ?_⟩
  · rcases hlost with rfl | hlost
    · exact Or.inl rfl
    · exact Or.inr (hlost.vars _)
  · unfold Merge.takenIn
    dsimp only
    rw [Block.rewrite_append, List.append_assoc]
    rfl

/-- A call of what a link inherits finds nothing where there is nothing to
inherit. -/
theorem Inherits.inlineSuper (h : Inherits b cs cs')
    (hbody : c.body = .superConstructor args :: rest)
    (hok : inlineSuper (withConstructors base cs) name c = .ok k) :
    ∃ k', Merge.inlineSuper (withConstructors base cs') name c = .ok k'
      ∧ Loses b k k' := by
  have hnone' : superTarget? (withConstructors base cs') args.length = none :=
    List.find?_eq_none.2 fun a ha => by simp [fits, (h.left a ha).2.1]
  have hall : (withConstructors base cs').constructors.all
      (·.isImplicit) = true :=
    List.all_eq_true.2 fun a ha => (h.left a ha).2.1
  have hdropped : Merge.inlineSuper (withConstructors base cs') name c
      = .ok (if args.isEmpty then { c with body := rest } else c) := by
    rw [inlineSuper_of_no_target hbody hnone', hall, Bool.true_and]
  refine ⟨_, hdropped, ?_⟩
  rcases h.kept with ⟨rfl, -⟩ | ⟨called, rfl, hparams, hexplicit, hcalled⟩
  · have hsame : Merge.inlineSuper (withConstructors base []) name c
        = .ok (if args.isEmpty then { c with body := rest } else c) :=
      inlineSuper_of_no_target hbody rfl
    obtain rfl := Except.ok.inj (hsame.symm.trans hok)
    exact .refl b _
  · cases args with
    | nil =>
        have htarget : superTarget? (withConstructors base [called]) 0
            = some called :=
          List.find?_cons_of_pos (by simp [fits, hparams, hexplicit])
        obtain ⟨rfl, -⟩ := inlineSuper_eq_ok hok hbody htarget
        exact ⟨Merge.takenIn c called [], Or.inr (hcalled.vars _), rfl⟩
    | cons a args =>
        have hnone : superTarget? (withConstructors base [called])
            (a :: args).length = none :=
          List.find?_eq_none.2 fun k hk => by
            obtain rfl := List.mem_singleton.1 hk
            simp [fits, hparams]
        have hsame : Merge.inlineSuper (withConstructors base [called]) name c
            = .ok c :=
          (inlineSuper_of_no_target hbody hnone).trans (by simp)
        obtain rfl := Except.ok.inj (hsame.symm.trans hok)
        exact .refl b _

/-- A call finds constructors that lag where it finds the others. -/
theorem inlineSuper_forall₂ (h : List.Forall₂ (Loses b) cs cs')
    (hbody : c.body = .superConstructor args :: rest)
    (hok : inlineSuper (withConstructors base cs) name c = .ok k) :
    ∃ k', inlineSuper (withConstructors base cs') name c = .ok k'
      ∧ Loses b k k' := by
  have hfind : (superTarget? (withConstructors base cs) args.length = none
        ∧ superTarget? (withConstructors base cs') args.length = none)
      ∨ ∃ a a', superTarget? (withConstructors base cs) args.length = some a
        ∧ superTarget? (withConstructors base cs') args.length = some a'
        ∧ Loses b a a' :=
    find?_forall₂ (fun _ _ hloses => hloses.fits_eq args.length) h
  rcases hfind with ⟨hnone, hnone'⟩
    | ⟨called, called', hcalled, hcalled', hloses⟩
  · rw [inlineSuper_of_no_target hbody hnone] at hok
    obtain rfl := Except.ok.inj hok
    refine ⟨_, inlineSuper_of_no_target hbody hnone', ?_⟩
    show Loses b (if cs.all _ && _ then _ else _)
      (if cs'.all _ && _ then _ else _)
    rw [all_isImplicit_eq h]
    exact .refl b _
  · obtain ⟨rfl, hlegal⟩ := inlineSuper_eq_ok hok hbody hcalled
    refine ⟨_, ?_, hloses.takenIn⟩
    obtain ⟨lost, -, rfl⟩ := hloses
    rw [inlineSuper_of_target hbody hcalled', if_neg]
    rw [Bool.not_eq_true, List.any_eq_false]
    intro e he
    have hmem : e ∈ Block.exprs (lost ++ called'.body) :=
      Block.exprs_append lost called'.body ▸ List.mem_append_right _ he
    exact Bool.not_eq_true _ ▸ hlegal e hmem

/-- A constructor takes in what lags behind, or what is left of it. -/
theorem Lags.inlineSuper (h : Lags b cs cs')
    (hok : inlineSuper (withConstructors base cs) name c = .ok k) :
    ∃ k', Merge.inlineSuper (withConstructors base cs') name c = .ok k'
      ∧ Loses b k k' := by
  by_cases hcall : ∃ args rest, c.body = .superConstructor args :: rest
  · obtain ⟨args, rest, hbody⟩ := hcall
    rcases h with hinherits | hall
    · exact hinherits.inlineSuper hbody hok
    · exact inlineSuper_forall₂ hall hbody hok
  · have hno : ∀ args rest,
        c.body ≠ .superConstructor args :: rest := fun args rest hbody =>
      hcall ⟨args, rest, hbody⟩
    rw [inlineSuper_of_no_call hno] at hok
    obtain rfl := Except.ok.inj hok
    exact ⟨c, inlineSuper_of_no_call hno, .refl b c⟩

-- =================================================================== one link

/-- Loops over one list that correspond at every turn. -/
theorem mapM_forall₂ {α β : Type} {R : β → β → Prop}
    {f g : α → Except Failure β} {as : List α} {bs : List β}
    (hfg : ∀ a ∈ as, ∀ b, f a = .ok b → ∃ b', g a = .ok b' ∧ R b b')
    (h : as.mapM f = .ok bs) :
    ∃ bs', as.mapM g = .ok bs' ∧ List.Forall₂ R bs bs' := by
  induction as generalizing bs with
  | nil =>
      obtain rfl := Except.ok.inj h
      exact ⟨[], rfl, .nil⟩
  | cons a as ih =>
      rw [List.mapM_cons] at h
      obtain ⟨b, hb, h⟩ := bind_eq_ok h
      obtain ⟨bs, hbs, h⟩ := bind_eq_ok h
      obtain rfl := Except.ok.inj h
      obtain ⟨b', hb', hR⟩ := hfg a List.mem_cons_self b hb
      obtain ⟨bs', hbs', hall⟩ :=
        ih (fun a ha => hfg a (List.mem_cons_of_mem _ ha)) hbs
      refine ⟨b' :: bs', ?_, .cons hR hall⟩
      rw [List.mapM_cons, hb', hbs']
      rfl

/-- What a link without constructors inherits. -/
def inherited? (base : TypeDecl) : Option Constructor :=
  base.constructors.find? fun c => c.params.isEmpty && !c.isImplicit

theorem mergeConstructors_of_nil (hnone : derived.constructors = []) :
    mergeConstructors base derived = .ok (inherited? base).toList := by
  unfold mergeConstructors
  rw [hnone]
  rfl

/-- What is inherited once is inherited again. -/
theorem Inherits.inherited? (h : Inherits b cs cs') :
    Inherits b (Merge.inherited? (withConstructors base cs)).toList
      (Merge.inherited? (withConstructors base cs')).toList := by
  have hnone : Merge.inherited? (withConstructors base cs') = none :=
    List.find?_eq_none.2 fun c hc => by simp [(h.left c hc).2.1]
  rw [hnone]
  refine ⟨?_, List.forall_mem_nil _⟩
  rcases h.kept with ⟨rfl, hb⟩ | ⟨k, rfl, hparams, hexplicit, hbody⟩
  · exact Or.inl ⟨rfl, hb⟩
  · have hsome : Merge.inherited? (withConstructors base [k]) = some k :=
      List.find?_cons_of_pos (by simp [hparams, hexplicit])
    rw [hsome]
    exact Or.inr ⟨k, rfl, hparams, hexplicit, hbody⟩

theorem Lags.inherited? (h : Lags b cs cs') :
    Lags b (Merge.inherited? (withConstructors base cs)).toList
      (Merge.inherited? (withConstructors base cs')).toList := by
  refine h.imp Inherits.inherited? fun hall => ?_
  have hfind : (Merge.inherited? (withConstructors base cs) = none
        ∧ Merge.inherited? (withConstructors base cs') = none)
      ∨ ∃ a a', Merge.inherited? (withConstructors base cs) = some a
        ∧ Merge.inherited? (withConstructors base cs') = some a'
        ∧ Loses b a a' :=
    find?_forall₂ (fun a a' ⟨lost, _, ha⟩ => by rw [ha]) hall
  rcases hfind with ⟨hnone, hnone'⟩ | ⟨a, a', ha, ha', hloses⟩
  · rw [hnone, hnone']
    exact .nil
  · rw [ha, ha']
    exact .cons hloses .nil

/-- What lags in a base lags in the link that extends it. -/
theorem Lags.mergeConstructors (h : Lags b cs cs')
    (hok : mergeConstructors (withConstructors base cs) derived = .ok rs) :
    ∃ rs', Merge.mergeConstructors (withConstructors base cs') derived
      = .ok rs' ∧ Lags b rs rs'
      ∧ (derived.constructors = [] → Inherits b cs cs' →
        Inherits b rs rs') := by
  by_cases hnone : derived.constructors = []
  · rw [mergeConstructors_of_nil hnone] at hok ⊢
    obtain rfl := Except.ok.inj hok
    exact ⟨_, rfl, h.inherited?, fun _ hinherits => hinherits.inherited?⟩
  · have hsome : derived.constructors.isEmpty = false := by simpa using hnone
    unfold Merge.mergeConstructors at hok ⊢
    rw [hsome, if_neg Bool.false_ne_true] at hok ⊢
    obtain ⟨rs', hok', hall⟩ :=
      mapM_forall₂ (fun c _ k hk => h.inlineSuper hk) hok
    exact ⟨rs', hok', Or.inr hall, fun hnil => absurd hnil hnone⟩

/-- What lags in a base lags when it is merged into what extends it, and
nothing but constructors differs. -/
theorem Lags.mergeLink (h : Lags b cs cs')
    (hok : mergeLink (withConstructors base cs) derived = .ok d) :
    ∃ rs', Merge.mergeLink (withConstructors base cs') derived
      = .ok (withConstructors d rs')
      ∧ Lags b d.constructors rs'
      ∧ (derived.constructors = [] → Inherits b cs cs' →
        Inherits b d.constructors rs') := by
  rw [mergeLink_withConstructors] at hok ⊢
  obtain ⟨rs, hrs, hd⟩ := bind_eq_ok hok
  obtain rfl := Except.ok.inj hd
  obtain ⟨rs', hrs', hlags, hinherits⟩ := (h.mapNames _).mergeConstructors hrs
  refine ⟨rs', ?_, hlags, fun hnone hsame => ?_⟩
  · rw [hrs']
    rfl
  · exact hinherits (constructors_mergeMembers hnone _ base) (hsame.mapNames _)

/-- Replacing formal parameters does not change which constructor is
inherited. -/
theorem inherited?_instantiate (base derived : TypeDecl) :
    inherited? (instantiate base derived).1 = (inherited? base).map
      (Constructor.mapNames
        (NameMap.ofTypes (instantiated base derived))) := by
  have hconstructors : (instantiate base derived).1.constructors
      = base.constructors.map
        (Constructor.mapNames
          (NameMap.ofTypes (instantiated base derived))) := by
    rw [instantiate_eq_mapNames]
    cases base
    rfl
  have hsame : (fun c => c.params.isEmpty && !c.isImplicit)
        ∘ Constructor.mapNames (NameMap.ofTypes (instantiated base derived))
      = fun c => c.params.isEmpty && !c.isImplicit := by
    funext c
    simp [Constructor.mapNames]
  unfold inherited?
  rw [hconstructors, List.find?_map, hsame]

/-- What a link without constructors inherits, of which nothing is left if it
has the implicit one. -/
theorem mergeLink_implicit (hnone : derived.constructors = [])
    (hok : mergeLink base derived = .ok d) :
    mergeLink base (withConstructors derived [.implicit])
      = .ok (withConstructors d [.implicit])
      ∧ Inherits (((inherited? base).map (·.body)).getD []) d.constructors
        [.implicit] := by
  have hmembers :=
    constructors_mergeMembers hnone (instantiate base derived).1 base
  rw [mergeLink_eq, mergeConstructors_of_nil hmembers] at hok
  obtain rfl := Except.ok.inj hok
  constructor
  · rw [mergeLink_eq, instantiate_of_withConstructors]
    dsimp only
    rw [mergeMembers_withConstructors fun _ => rfl]
    rfl
  · refine ⟨?_, List.forall_mem_singleton.2 ⟨rfl, rfl, rfl⟩⟩
    dsimp only
    rw [inherited?_instantiate]
    cases hk : inherited? base with
    | none => exact Or.inl ⟨rfl, rfl⟩
    | some k =>
        obtain ⟨hparams, hexplicit⟩ :=
          Bool.and_eq_true_iff.1 (List.find?_eq_some_iff_append.1 hk).1
        refine Or.inr ⟨_, rfl, ?_, Bool.not_eq_true' _ ▸ hexplicit,
          Becomes.same.types _⟩
        unfold Constructor.mapNames
        rw [List.isEmpty_iff.1 hparams]
        rfl

-- =============================================================== whole chains

/-- The body of the constructor that the lowest of some links leaves to a link
below that has none. -/
def inheritedBody (s : Sources) (above : List DeclId) : Block :=
  match mergeChain s above with
  | .ok base => ((inherited? base).map (·.body)).getD []
  | .error _ => []

/-- The statements that an object runs which is created without arguments. -/
def defaultBody (d : TypeDecl) : Block :=
  ((d.constructors.find? (·.params.isEmpty)).map (·.body)).getD []

theorem Inherits.defaultBody (h : Inherits b d.constructors cs') :
    Becomes b (Merge.defaultBody d)
      ∧ Merge.defaultBody (withConstructors d cs') = [] := by
  constructor
  · rcases h.kept with ⟨hnone, rfl⟩ | ⟨k, hk, hparams, -, hbody⟩
    · unfold Merge.defaultBody
      rw [hnone]
      exact .same
    · unfold Merge.defaultBody
      rw [hk, List.find?_cons_of_pos (by simp [hparams])]
      exact hbody
  · show ((cs'.find? (·.params.isEmpty)).map (·.body)).getD [] = []
    cases hfind : cs'.find? (·.params.isEmpty) with
    | none => rfl
    | some c => exact (h.left c (List.mem_of_find?_eq_some hfind)).2.2

theorem Lags.defaultBody (h : Lags b d.constructors cs') :
    ∃ lost, Merge.defaultBody d = lost ++ Merge.defaultBody
      (withConstructors d cs')
      ∧ (lost = [] ∨ Becomes b lost) := by
  rcases h with hinherits | hall
  · obtain ⟨hbody, hnone⟩ := hinherits.defaultBody
    exact ⟨_, by rw [hnone, List.append_nil], Or.inr hbody⟩
  · have hfind := find?_forall₂ (p := fun c => c.params.isEmpty)
      (fun a a' ⟨lost, _, ha⟩ => by rw [ha]) hall
    unfold Merge.defaultBody
    show ∃ lost,
      _ = lost ++ ((cs'.find? (·.params.isEmpty)).map (·.body)).getD [] ∧ _
    rcases hfind with ⟨hnone, hnone'⟩ | ⟨a, a', ha, ha', lost, hlost, rfl⟩
    · rw [hnone, hnone']
      exact ⟨[], rfl, Or.inl rfl⟩
    · rw [ha, ha']
      exact ⟨lost, rfl, hlost⟩

theorem mergeChain_congr (h : ∀ l ∈ above, s'.get l = s.get l) :
    mergeChain s' above = mergeChain s above := by
  unfold mergeChain
  rw [List.map_congr_left fun l hl => h l (List.mem_reverse.1 hl)]

/-- How constructors differ in a folded chain. -/
theorem mergeChain_lags (h : mergeChain s (lower ++ link :: above) = .ok d)
    (hnone : (s.get link).constructors = [])
    (hreplaced : s'.get link = { s.get link with constructors := [.implicit] })
    (hsame : ∀ l ∈ lower ++ above, s'.get l = s.get l) :
    ∃ cs', mergeChain s' (lower ++ link :: above)
      = .ok (withConstructors d cs')
      ∧ Lags (inheritedBody s above) d.constructors cs'
      ∧ ((∀ l ∈ lower, (s.get l).constructors = []) →
        Inherits (inheritedBody s above) d.constructors cs') := by
  induction lower generalizing d with
  | nil =>
      refine ⟨[.implicit], ?_⟩
      rcases mergeChain_cases h with ⟨rfl, rfl⟩ | ⟨base, hbase, hlink⟩
      · have hinherits : Inherits [] (s.get link).constructors [.implicit] :=
          ⟨Or.inl ⟨hnone, rfl⟩, List.forall_mem_singleton.2 ⟨rfl, rfl, rfl⟩⟩
        exact ⟨congrArg Except.ok hreplaced, Or.inl hinherits,
          fun _ => hinherits⟩
      · have habove : above ≠ [] := by
          rintro rfl
          cases hbase
        obtain ⟨hlink', hinherits⟩ := mergeLink_implicit hnone hlink
        have hbody : inheritedBody s above
            = ((inherited? base).map (·.body)).getD [] := by
          rw [inheritedBody, hbase]
        refine ⟨?_, Or.inl (hbody ▸ hinherits), fun _ => hbody ▸ hinherits⟩
        show mergeChain s' (link :: above) = _
        have habove' : mergeChain s' above = .ok base :=
          (mergeChain_congr hsame).trans hbase
        rw [mergeChain_cons habove, habove', hreplaced]
        exact hlink'
  | cons leaf lower ih =>
      obtain ⟨base, hbase, hlink⟩ := exists_mergeLink h (by simp)
      obtain ⟨cs', hbase', hlags, hinherits⟩ := ih hbase fun l hl =>
        hsame l (List.mem_cons_of_mem leaf hl)
      have hsame' : mergeLink (withConstructors base base.constructors)
          (s.get leaf) = .ok d :=
        (withConstructors_constructors base).symm ▸ hlink
      obtain ⟨rs', hlink', hlags', hinherits'⟩ := hlags.mergeLink hsame'
      refine ⟨rs', ?_, hlags', fun hlower => ?_⟩
      · show mergeChain s' (leaf :: (lower ++ link :: above)) = _
        rw [mergeChain_cons (by simp), hbase', hsame leaf List.mem_cons_self]
        exact hlink'
      · obtain ⟨hleaf, hlower⟩ := List.forall_mem_cons.1 hlower
        exact hinherits' hleaf (hinherits hlower)

/-- If a link without constructors gets the implicit one, nothing but
constructors changes. What an object that is created without arguments runs
loses statements in front: what has become of the body that the link would have
inherited, if any. If no link below has constructors it loses all. -/
theorem mergeChain_implicit (h : mergeChain s (lower ++ link :: above) = .ok d)
    (hnone : (s.get link).constructors = [])
    (hreplaced : s'.get link = { s.get link with constructors := [.implicit] })
    (hsame : ∀ l ∈ lower ++ above, s'.get l = s.get l) :
    ∃ d', mergeChain s' (lower ++ link :: above) = .ok d'
      ∧ d' = { d with constructors := d'.constructors }
      ∧ (∃ lost, defaultBody d = lost ++ defaultBody d'
        ∧ (lost = [] ∨ Becomes (inheritedBody s above) lost))
      ∧ (inheritedBody s above = [] → defaultBody d' = defaultBody d)
      ∧ ((∀ l ∈ lower, (s.get l).constructors = []) →
        Becomes (inheritedBody s above) (defaultBody d)
          ∧ defaultBody d' = []) := by
  obtain ⟨cs', hmerged, hlags, hinherits⟩ :=
    mergeChain_lags h hnone hreplaced hsame
  obtain ⟨lost, hbody, hlost⟩ := hlags.defaultBody
  refine ⟨_, hmerged, rfl, ⟨lost, hbody, hlost⟩, fun hnothing =>
      ?_, fun hlower =>
    (hinherits hlower).defaultBody⟩
  have hnil : lost = [] := hlost.elim id fun hbecomes =>
    (hnothing ▸ hbecomes).eq_nil
  rw [hbody, hnil, List.nil_append]

/-- A link with these constructors between a base that sets a field when it is
created, and a leaf that has no constructors. -/
def defaultSources (constructors : List Constructor) : Sources :=
  let base : TypeDecl :=
    { TypeDecl.participating "Base" with
      constructors := [{ body :=
        [.expr (.assign none (.field none ⟨"Base", "x"⟩)
          (.literal (.int 1)))] }] }
  let mid : TypeDecl :=
    { TypeDecl.participating "Mid" with
      superclass := some (.named "Base"), constructors }
  let leaf : TypeDecl :=
    { TypeDecl.participating "Leaf" with superclass := some (.named "Mid") }
  { decls := [base, mid, leaf] }

/-- The leaf inherits what the base does if the link between has no
constructor, and nothing if that has the implicit one. -/
theorem mergeChain_implicit_mid : ∃ d d',
    mergeChain (defaultSources []) [⟨2⟩, ⟨1⟩, ⟨0⟩] = .ok d
      ∧ mergeChain (defaultSources [.implicit]) [⟨2⟩, ⟨1⟩, ⟨0⟩] = .ok d'
      ∧ Becomes (inheritedBody (defaultSources []) [⟨0⟩]) (defaultBody d)
      ∧ defaultBody d' = [] := by
  have hfolded :
      (mergeChain (defaultSources []) ([⟨2⟩] ++ ⟨1⟩ :: [⟨0⟩])).toOption.map
      (·.name)
      = some "Leaf" := by decide +kernel
  obtain ⟨d, hok, -⟩ := Step.exists_eq_ok_of_map hfolded
  have hreplaced : (defaultSources [.implicit]).get ⟨1⟩
      = { (defaultSources []).get ⟨1⟩ with constructors := [.implicit] } := rfl
  have hsame : ∀ l ∈ [(⟨2⟩ : DeclId)] ++ [⟨0⟩],
      (defaultSources [.implicit]).get l = (defaultSources []).get l := by
    simp only [List.forall_mem_append, List.forall_mem_singleton]
    exact ⟨rfl, rfl⟩
  obtain ⟨d', hok', -, -, -, hlost⟩ :=
    mergeChain_implicit hok rfl hreplaced hsame
  obtain ⟨hbecomes, hnothing⟩ := hlost (List.forall_mem_singleton.2 rfl)
  exact ⟨d, d', hok, hok', hbecomes, hnothing⟩

/-- What the base does is lost where the link between has the constructor that
stands for none. -/
theorem mergeChain_implicit_loses : ∃ d d',
    mergeChain (defaultSources []) [⟨2⟩, ⟨1⟩, ⟨0⟩] = .ok d
      ∧ mergeChain (defaultSources [.implicit]) [⟨2⟩, ⟨1⟩, ⟨0⟩] = .ok d'
      ∧ ((defaultSources []).get ⟨1⟩).constructors = []
      ∧ (defaultSources [.implicit]).get ⟨1⟩
        = { (defaultSources []).get ⟨1⟩ with constructors := [.implicit] }
      ∧ (defaultSources [.implicit]).get ⟨0⟩ = (defaultSources []).get ⟨0⟩
      ∧ (defaultSources [.implicit]).get ⟨2⟩ = (defaultSources []).get ⟨2⟩
      ∧ blockTexts (defaultBody d) = ["x = 1"]
      ∧ blockTexts (defaultBody d') = [] := by
  have hkept : (mergeChain (defaultSources []) [⟨2⟩, ⟨1⟩, ⟨0⟩]).toOption.map
      (fun d => blockTexts (defaultBody d)) = some ["x = 1"] := by
    decide +kernel
  have hlost :
      (mergeChain (defaultSources [.implicit]) [⟨2⟩, ⟨1⟩, ⟨0⟩]).toOption.map
      (fun d => blockTexts (defaultBody d)) = some [] := by decide +kernel
  obtain ⟨d, hok, htexts⟩ := Step.exists_eq_ok_of_map hkept
  obtain ⟨d', hok', htexts'⟩ := Step.exists_eq_ok_of_map hlost
  exact ⟨d, d', hok, hok', rfl, rfl, rfl, rfl, htexts, htexts'⟩

end Stagewise.Merge
