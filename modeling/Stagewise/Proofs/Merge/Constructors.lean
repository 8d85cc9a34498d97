/-
What becomes of a constructor that starts with a call of one of its base.

# The renaming

The body that is taken in reads what is passed for each parameter. As long as
nothing is marked as illegal, this cannot be told from a renaming that differs
where there is nothing to read (`renameParams_of_legal`), so the body names no
such parameter then. Otherwise it is marked (`renameParams_run`).

# The constructor that is taken in

`inlineSuper_cases` says all that can become of a constructor. Which one of the
base it takes in is told by the number of arguments alone: it is the first
explicit one with as many parameters (`superTarget?`). That is not always the
one that the types of the arguments call for. If all arguments are parameters
of the calling constructor, one with parameters of their types is taken in if
no explicit one before it has as many parameters, and the first such one
otherwise (`inlineSuper_takes_first`).
-/
import Stagewise.Merge.Constructors
import Stagewise.Proofs.Program.Conversion
import Stagewise.Proofs.Program.Outline
import Stagewise.Proofs.Step

namespace Stagewise

-- ====================================================================== flags

namespace Transformer

/-- Answers of computations that may set a flag and never clear it. They are
seen from where the flag is set if it was set by then. -/
def fromFlag : Reasoning (StateM Bool) Bool where
  holds x Q := ∀ s : Bool, (s → (x.run s).2) ∧ ∀ i : Bool, ((x.run s).2 → i) →
    Q i (x.run s).1
  mono h hPQ s := ⟨(h s).1, fun i hi => hPQ i _ ((h s).2 i hi)⟩
  ofPure h _ := ⟨id, fun i _ => h i⟩
  ofBind hx hf s := by
    obtain ⟨hbefore, hP⟩ := hx s
    obtain ⟨hafter, hQ⟩ := hf _ _
    exact ⟨hafter ∘ hbefore, fun i hi => hQ i hi (hP i (hi ∘ hafter))⟩

/-- Computations that answer and leave the state as it is. -/
def keepingState (σ : Type) : Answering (StateM σ) where
  returns x a := ∀ s, x.run s = (a, s)
  ofPure _ _ := rfl
  ofBind hx hf s := by
    rw [StateT.run_bind, hx s]
    exact hf s

end Transformer

namespace Merge

variable {base derived : TypeDecl} {name : String}
variable {c c' called m : Constructor}
variable {args : List Expr} {rest b : Block} {passed : ParamRenaming}
variable {ρ : String → String}

-- =============================================================== the renaming

namespace ParamRenaming

/-- What is read in the place of a parameter. -/
def read (passed : ParamRenaming) (name : String) : String :=
  ((passed.lookup name).bind id).getD name

/-- Whether an expression is a parameter for which there is nothing to read. -/
def lacks (passed : ParamRenaming) : Expr → Bool
  | .var name => passed.lookup name == some none
  | _ => false

end ParamRenaming

/-- What the renaming does at one expression. -/
theorem renameParams_leaveExpr (passed : ParamRenaming) (e : Expr)
    (isIllegal : Bool) :
    ((renameParams passed).leaveExpr e).run isIllegal
      = (e.renameTop passed.read, isIllegal || passed.lacks e) := by
  cases e with
  | var name =>
      unfold renameParams Expr.renameTop ParamRenaming.read ParamRenaming.lacks
      dsimp only
      split <;> rename_i hlookup <;> rw [hlookup]
      · exact congrArg (Prod.mk _) (Bool.or_false _).symm
      · exact congrArg (Prod.mk _) (Bool.or_true _).symm
      · exact congrArg (Prod.mk _) (Bool.or_false _).symm
  | _ => exact congrArg (Prod.mk _) (Bool.or_false _).symm

theorem renameParams_eq (passed : ParamRenaming) (b : Block)
    (isIllegal : Bool) :
    (((renameParams passed).block b).run isIllegal).1
      = b.rewrite (Expr.renameTop passed.read) := by
  have hknows : (Transformer.fromAnyState Bool).KnowsHook
      (renameParams passed).leaveExpr
      (fun _ => Expr.renameTop passed.read) fun _ _ => True := fun e s _ =>
    ⟨congrArg Prod.fst (renameParams_leaveExpr passed e s),
      fun _ _ _ => trivial⟩
  exact ((Transformer.fromAnyState Bool).block_rewrites hknows.knows b
    isIllegal ()).1

/-- If nothing was illegal it does not matter what becomes of what cannot be
read. -/
theorem renameParams_of_legal
    (hρ : ∀ x, passed.lacks (.var x) = false → ρ x = passed.read x)
    (h : (((renameParams passed).block b).run false).2 = false) :
    b.rewrite (Expr.renameTop passed.read) = b.rewrite (Expr.renameTop ρ) := by
  have hknows : Transformer.fromFlag.KnowsHook (renameParams passed).leaveExpr
      (fun i => Expr.renameTop (bif i then passed.read else ρ)) fun _ _ =>
      True := by
    intro e s
    rw [renameParams_leaveExpr]
    refine ⟨fun hs => Bool.or_eq_true_iff.2 (Or.inl hs),
      fun i hi => ⟨?_, fun _ _ _ => trivial⟩⟩
    cases i with
    | true => rfl
    | false =>
        have hlacks : passed.lacks e = false :=
          (Bool.or_eq_false_iff.1 (Bool.eq_false_iff.2 fun hor =>
            nomatch hi hor)).2
        cases e with
        | var x => exact congrArg Expr.var (hρ x hlacks).symm
        | _ => rfl
  have hseen := (Transformer.fromFlag.block_rewrites hknows.knows b false).2
  have hread := (hseen true fun _ => rfl).1
  have hrenamed := (hseen false fun hflag => h ▸ hflag).1
  exact hread.symm.trans hrenamed

/-- If nothing was illegal there is something to read in the place of every
variable. -/
theorem lacks_of_legal
    (h : (((renameParams passed).block b).run false).2 = false) :
    ∀ e ∈ b.exprs, passed.lacks e = false := by
  -- where there is nothing to read, rename to something else
  let ρ (x : String) : String :=
    if passed.lacks (.var x) then x.push '_' else passed.read x
  have hρ : ∀ x, passed.lacks (.var x) = false →
      ρ x = passed.read x := fun x hx =>
    if_neg (by rw [hx]; exact Bool.false_ne_true)
  have hsame := congrArg Block.exprs (renameParams_of_legal hρ h)
  rw [Block.exprs_rewrite (Expr.renameTop_keepsParts _),
    Block.exprs_rewrite (Expr.renameTop_keepsParts _),
    List.map_inj_left] at hsame
  intro e he
  cases e with
  | var x =>
      have hx : passed.read x = ρ x := Expr.var.inj (hsame _ he)
      refine Bool.eq_false_iff.2 fun hlacks => ?_
      have hread : passed.read x = x := by
        rw [ParamRenaming.read, beq_iff_eq.1 hlacks]
        rfl
      have hpush : ρ x = x.push '_' := if_pos hlacks
      have hlength :=
        congrArg String.length (hread.symm.trans (hx.trans hpush))
      rw [String.length_push] at hlength
      omega
  | _ => rfl

/-- If there is something to read in the place of every variable, nothing is
illegal. -/
theorem renameParams_legal (h : ∀ e ∈ b.exprs, passed.lacks e = false)
    (isIllegal : Bool) :
    ((renameParams passed).block b).run isIllegal
      = (b.rewrite (Expr.renameTop passed.read), isIllegal) := by
  refine (Transformer.keepingState Bool).block_returns_rewrite
    (fun e he s => ?_) isIllegal
  have hlacks :
      passed.lacks (e.mapParts (Expr.rewrite (Expr.renameTop passed.read)))
        = false := by
    rw [← h e he]
    cases e <;> rfl
  exact (renameParams_leaveExpr passed _ s).trans
    (by rw [hlacks, Bool.or_false])

/-- The body that is taken in, and whether it names something for which there
is nothing to read. -/
theorem renameParams_run (passed : ParamRenaming) (b : Block) :
    ((renameParams passed).block b).run false
      = (b.rewrite (Expr.renameTop passed.read),
        b.exprs.any passed.lacks) := by
  cases hlacks : b.exprs.any passed.lacks with
  | false =>
      exact renameParams_legal
        (fun e he => by simpa using List.any_eq_false.1 hlacks e he) _
  | true =>
      obtain ⟨e, he, hlack⟩ := List.any_eq_true.1 hlacks
      refine Prod.ext (renameParams_eq passed b false)
        (Bool.ne_false_iff.1 fun h => ?_)
      exact Bool.false_ne_true ((lacks_of_legal h e he).symm.trans hlack)

-- =========================================== the constructor that is taken in

/-- Whether a constructor is explicit and has so many parameters. -/
def fits (count : Nat) (c : Constructor) : Bool :=
  !c.isImplicit && c.params.length == count

/-- The constructor of a base that a call with so many arguments takes in. -/
def superTarget? (base : TypeDecl) (count : Nat) : Option Constructor :=
  base.constructors.find? (fits count)

theorem superTarget?_eq (base : TypeDecl) (count : Nat) :
    (base.constructors.filter (!·.isImplicit)).find? (·.params.length == count)
      = superTarget? base count := by
  rw [List.find?_filter]
  refine congrArg (base.constructors.find? ·) (funext fun k => ?_)
  rw [Bool.decide_and, Bool.decide_eq_true, Bool.decide_eq_true]
  rfl

/-- The body of a base constructor as it is taken in. -/
def takenIn (c called : Constructor) (args : List Expr) : Block :=
  called.body.rewrite (Expr.renameTop (renamingOf c called args).read)

/-- A call takes in the constructor that it is of, unless the body of that
names a parameter for which there is nothing to read. -/
theorem inlineSuper_of_target (hbody : c.body = .superConstructor args :: rest)
    (hcalled : superTarget? base args.length = some called) :
    inlineSuper base name c
      = if called.body.exprs.any (renamingOf c called args).lacks then
          .error (.illegalSuperCall name)
        else .ok { c with body := takenIn c called args ++ rest } := by
  unfold inlineSuper
  rw [hbody]
  dsimp only
  rw [superTarget?_eq, hcalled]
  dsimp only
  rw [renameParams_run]
  rfl

theorem inlineSuper_eq_ok (h : inlineSuper base name c = .ok c')
    (hbody : c.body = .superConstructor args :: rest)
    (hcalled : superTarget? base args.length = some called) :
    c' = { c with body := takenIn c called args ++ rest }
      ∧ ∀ e ∈ called.body.exprs,
      (renamingOf c called args).lacks e = false := by
  rw [inlineSuper_of_target hbody hcalled] at h
  split at h
  · cases h
  · rename_i hlegal
    refine ⟨(Except.ok.inj h).symm, fun e he => ?_⟩
    simpa using List.any_eq_false.1 (Bool.eq_false_iff.2 hlegal) e he

/-- Where there is no such constructor, a call without arguments is dropped if
there is no explicit one at all. -/
theorem inlineSuper_of_no_target
    (hbody : c.body = .superConstructor args :: rest)
    (hnone : superTarget? base args.length = none) :
    inlineSuper base name c
      = .ok (if base.constructors.all (·.isImplicit) && args.isEmpty
        then { c with body := rest } else c) := by
  have hexplicit : (base.constructors.filter (!·.isImplicit)).isEmpty
      = base.constructors.all (·.isImplicit) := by
    rw [Bool.eq_iff_iff, List.isEmpty_iff, List.filter_eq_nil_iff,
      List.all_eq_true]
    simp
  unfold inlineSuper
  rw [hbody]
  dsimp only
  rw [superTarget?_eq, hnone]
  dsimp only
  rw [hexplicit]
  split <;> rfl

/-- A constructor that calls none of the base stays as it is. -/
theorem inlineSuper_of_no_call
    (hno : ∀ args rest, c.body ≠ .superConstructor args :: rest) :
    inlineSuper base name c = .ok c := by
  unfold inlineSuper
  split
  · rename_i args rest hbody
    exact absurd hbody (hno args rest)
  · rfl

/-- A constructor takes in one of the base, or it loses its call, or it stays
as it is. -/
theorem inlineSuper_cases (h : inlineSuper base name c = .ok c') :
    (∃ args rest called, c.body = .superConstructor args :: rest
        ∧ superTarget? base args.length = some called
        ∧ c' = { c with body := takenIn c called args ++ rest })
      ∨ (∃ args rest, c.body = .superConstructor args :: rest ∧ c'
        = { c with body := rest })
      ∨ c' = c := by
  by_cases hcall : ∃ args rest, c.body = .superConstructor args :: rest
  · obtain ⟨args, rest, hbody⟩ := hcall
    cases hcalled : superTarget? base args.length with
    | some called =>
        exact Or.inl ⟨args, rest, called, hbody, hcalled,
          (inlineSuper_eq_ok h hbody hcalled).1⟩
    | none =>
        rw [inlineSuper_of_no_target hbody hcalled] at h
        split at h
        · exact Or.inr (Or.inl ⟨args, rest, hbody, (Except.ok.inj h).symm⟩)
        · exact Or.inr (Or.inr (Except.ok.inj h).symm)
  · rw [inlineSuper_of_no_call fun args rest hbody => hcall
      ⟨args, rest, hbody⟩] at h
    exact Or.inr (Or.inr (Except.ok.inj h).symm)

-- ---------------------------------------------------- plain parameters passed

/-- The declared type of the parameter that an argument reads. -/
def passedType? (c : Constructor) : Expr → Option TypeRef
  | .var name => (c.params.find? (·.name == name)).map Param.type
  | _ => none

/-- If only parameters are passed there is something to read in the place of
everything. -/
theorem lacks_renamingOf (hplain : ∀ a ∈ args, (plainParam? c a).isSome)
    (e : Expr) :
    (renamingOf c called args).lacks e = false := by
  cases e with
  | var x =>
      refine Bool.eq_false_iff.2 fun hlacks => ?_
      obtain ⟨_, _, hsplit, -⟩ :=
        List.lookup_eq_some_iff.1 (beq_iff_eq.1 hlacks)
      have hmem : (x, none) ∈ renamingOf c called args :=
        hsplit ▸ List.mem_append_right _ List.mem_cons_self
      obtain ⟨⟨p, a⟩, hzip, hpair⟩ := List.mem_map.1 (List.mem_reverse.1 hmem)
      have hnone : plainParam? c a = none := congrArg Prod.snd hpair
      exact absurd (hplain a (List.of_mem_zip hzip).2) (by simp [hnone])
  | _ => rfl

/-- A constructor that passes on its own parameters to one of the base takes it
in, or else the first explicit one that has as many parameters and comes before
it. -/
theorem inlineSuper_takes_first {before after : List Constructor}
    (base : TypeDecl) (name : String)
    (hbody : c.body = .superConstructor args :: rest)
    (hplain : ∀ a ∈ args, (plainParam? c a).isSome)
    (hsplit : base.constructors = before ++ m :: after)
    (hexplicit : m.isImplicit = false)
    (htypes : args.map (passedType? c) = m.params.map (some ·.type)) :
    inlineSuper base name c
      = .ok { c with
          body := takenIn c ((before.find? (fits args.length)).getD m) args
              ++ rest } := by
  have hlength : m.params.length = args.length := by
    simpa using (congrArg List.length htypes).symm
  have hfits : fits args.length m = true := by simp [fits, hexplicit, hlength]
  have hcalled : superTarget? base args.length
      = some ((before.find? (fits args.length)).getD m) := by
    unfold superTarget?
    rw [hsplit, List.find?_append, List.find?_cons_of_pos hfits]
    cases before.find? (fits args.length) <;> rfl
  rw [inlineSuper_of_target hbody hcalled, if_neg]
  rw [Bool.not_eq_true, List.any_eq_false]
  exact fun e _ => by simp [lacks_renamingOf hplain e]

/-- A constructor that keeps its only parameter in a field. -/
def keepingConstructor (type : TypeRef) (field : String) : Constructor where
  params := [⟨"a", type⟩]
  body := [.expr (.assign none (.field none ⟨"Base", field⟩) (.var "a"))]

/-- A base with a constructor of a number behind another one. -/
def sizedBase (first : Constructor) : TypeDecl :=
  { TypeDecl.participating "Base" with
    constructors := [first, keepingConstructor .int "size"] }

/-- A constructor that passes a number on. -/
def passingConstructor : Constructor where
  params := [⟨"n", .int⟩]
  body := [.superConstructor [.var "n"]]

/-- The texts of what the statements of a body say. -/
def blockTexts (b : Block) : List String := (Stmt.topsOfAll b).map Expr.text

/-- Behind a constructor without parameters, the one of a number is taken
in. -/
theorem inlineSuper_takes_second : ∃ c',
    inlineSuper (sizedBase {}) "Leaf" passingConstructor = .ok c'
      ∧ blockTexts c'.body = ["size = n"] := by
  have hbody : passingConstructor.body = .superConstructor [.var "n"] :: [] :=
    rfl
  have hplain : ∀ a ∈ [Expr.var "n"],
      (plainParam? passingConstructor a).isSome :=
    List.forall_mem_singleton.2 (by decide +kernel)
  have hsplit : (sizedBase {}).constructors
      = [({} : Constructor)] ++ keepingConstructor .int "size" :: [] := rfl
  have htypes : [Expr.var "n"].map (passedType? passingConstructor)
      = (keepingConstructor .int "size").params.map (some ·.type) := by
    decide +kernel
  exact ⟨_, inlineSuper_takes_first (sizedBase {}) "Leaf" hbody hplain
    hsplit rfl htypes, by decide +kernel⟩

/-- Behind a constructor of a text, that one is taken in, though only the other
one has a parameter of the type that is passed. -/
theorem inlineSuper_takes_other : ∃ c',
    inlineSuper
        (sizedBase (keepingConstructor (.named "String") "label")) "Leaf"
        passingConstructor = .ok c'
      ∧ passingConstructor.body = [.superConstructor [.var "n"]]
      ∧ (plainParam? passingConstructor (.var "n")).isSome
      ∧ (sizedBase
          (keepingConstructor (.named "String") "label")).constructors.filter
            (fun m => !m.isImplicit && m.params.map (some ·.type)
              == [passedType? passingConstructor (.var "n")])
          = [keepingConstructor .int "size"]
      ∧ blockTexts
          (takenIn passingConstructor (keepingConstructor .int "size")
            [.var "n"])
        = ["size = n"]
      ∧ blockTexts c'.body = ["label = n"] := by
  have hbody :
      (inlineSuper
        (sizedBase (keepingConstructor (.named "String") "label")) "Leaf"
      passingConstructor).toOption.map (blockTexts ·.body)
    = some ["label = n"] := by
    decide +kernel
  obtain ⟨c', hok, htexts⟩ := Step.exists_eq_ok_of_map hbody
  exact ⟨c', hok, rfl, by decide +kernel, rfl, by decide +kernel, htexts⟩

end Merge

end Stagewise
