/-
What a constructor does that has taken in one of its base.

A call of a base constructor evaluates its arguments, and runs the body of the
constructor that it is of on copies of them, in locals of that body's own
(`Constructor.runSuper`). Taken in, the body runs in the locals of the caller
instead and reads the variables that were passed. This comes to the same
(`inlineSuper_runs`) if the body does nothing that shows the difference
(`Harmless`), and if what is no plain parameter of the caller is passed without
effect (`Expr.IsQuiet`). Nothing of that is checked: an argument with an effect
is lost if the body does not read what is passed (`inlineSuper_drops_call`).

# How it is shown

The body matches the renamed body, since the locals that the two run in give
the same values to what it reads (`takingIn_allows`). So what is taken in adds
the variables that it declares to the locals of the caller, and else does what
the call does (`runSuper_adds`). What follows does not name these variables,
and at the end they are given up (`Computation.Adds.inScope_andThen`).
-/
import Stagewise.Proofs.Merge.Constructors
import Stagewise.Proofs.Program.Renaming

namespace Stagewise

variable {M : Machine}

-- ====================================================== locals that are added

namespace Computation

/-- That from a state one computation does what another one does that leaves
the locals as they are, and adds locals of some names on the inside. -/
structure Adds (p : String → Prop) (σ : M.State)
    (x y : Computation M (Flow M.Value)) : Prop where
  locals_eq {r : Except M.Value (Flow M.Value)} {ρ : M.State} : y σ r ρ →
    ρ.locals = σ.locals
  of_right {r : Except M.Value (Flow M.Value)} {ρ : M.State} : y σ r ρ →
    ∃ inner, (∀ a ∈ inner.map Prod.fst, p a) ∧ x σ r (ρ.push inner)
  of_left {r : Except M.Value (Flow M.Value)} {ρ : M.State} : x σ r ρ →
    ∃ inner υ, (∀ a ∈ inner.map Prod.fst, p a) ∧ ρ = υ.push inner ∧ y σ r υ

end Computation

open Stagewise.Computation

/-- On top of locals that are given up anyway, a block does the same. -/
theorem Block.run_push_iff {b : Block} {σ τ : M.State} {inner : Locals M.Value}
    {r : Except M.Value (Flow M.Value)}
    (h : ∀ x ∈ inner.map Prod.fst, b.namesLocal x = false) :
    (∃ ρ, b.run M (σ.push inner) r ρ ∧ τ = ρ.keepLocals σ.locals.length)
      ↔ ∃ ρ, b.run M σ r ρ ∧ τ = ρ.keepLocals σ.locals.length := by
  have hmatches := Block.run_onTopOf (M := M) h σ.locals.length
  have hstart : (Renaming.onTopOf inner σ.locals.length).Relates σ
      (σ.push inner) :=
    ⟨⟨[], _, _, rfl, rfl, ⟨rfl, rfl⟩, nofun⟩, rfl, rfl⟩
  -- the outermost locals are the same in states that are related
  have hkeep : ∀ ρ ρ' : M.State,
      (Renaming.onTopOf inner σ.locals.length).Relates ρ ρ' →
      ρ.keepLocals σ.locals.length = ρ'.keepLocals σ.locals.length := by
    rintro ρ ρ' ⟨⟨top, outer, _, hρ, hρ', ⟨rfl, houter⟩, -⟩, hmemory, hcalls⟩
    unfold Machine.State.keepLocals
    rw [hρ, hρ', hmemory, hcalls, ← houter, ← List.append_assoc,
      List.length_append, List.length_append, Nat.add_sub_cancel,
      Nat.add_sub_cancel, List.drop_left, List.drop_left]
  constructor
  · rintro ⟨ρ', hrun, rfl⟩
    obtain ⟨ρ, hrun, hR⟩ := hmatches.back _ _ _ _ hstart hrun
    exact ⟨ρ, hrun, (hkeep ρ ρ' hR).symm⟩
  · rintro ⟨ρ, hrun, rfl⟩
    obtain ⟨ρ', hrun, hR⟩ := hmatches.forth _ _ _ _ hstart hrun
    exact ⟨ρ', hrun, hkeep ρ ρ' hR⟩

/-- It does not matter to what follows, and to the end of the scope, that
locals are added that are not named any more. -/
theorem Computation.Adds.inScope_andThen {p : String → Prop} {σ τ : M.State}
    {x y : Computation M (Flow M.Value)} {b : Block}
    {r : Except M.Value (Flow M.Value)}
    (h : Adds p σ x y) (hp : ∀ a, p a → b.namesLocal a = false) :
    inScope (x.andThen (b.run M)) σ r τ
      ↔ inScope (y.andThen (b.run M)) σ r τ := by
  constructor
  · rintro ⟨τ', hrun, rfl⟩
    rcases andThen_iff.1 hrun with ⟨ρ, hx, hb⟩ | ⟨hr, hx⟩
    · obtain ⟨inner, υ, hinner, rfl, hy⟩ := h.of_left hx
      have hb := (Block.run_push_iff fun a ha => hp a (hinner a ha)).1
        ⟨_, hb, rfl⟩
      rw [h.locals_eq hy] at hb
      obtain ⟨τ'', hb, hτ⟩ := hb
      exact ⟨τ'', andThen_iff.2 (Or.inl ⟨υ, hy, hb⟩), hτ⟩
    · obtain ⟨inner, υ, -, rfl, hy⟩ := h.of_left hx
      refine ⟨υ, andThen_iff.2 (Or.inr ⟨hr, hy⟩), ?_⟩
      rw [← h.locals_eq hy, Machine.State.keepLocals_push]
      exact υ.keepLocals_self.symm
  · rintro ⟨τ', hrun, rfl⟩
    rcases andThen_iff.1 hrun with ⟨υ, hy, hb⟩ | ⟨hr, hy⟩
    · obtain ⟨inner, hinner, hx⟩ := h.of_right hy
      have hb := (Block.run_push_iff fun a ha => hp a (hinner a ha)).2
        ⟨_, hb, rfl⟩
      rw [h.locals_eq hy] at hb
      obtain ⟨τ'', hb, hτ⟩ := hb
      exact ⟨τ'', andThen_iff.2 (Or.inl ⟨_, hx, hb⟩), hτ⟩
    · obtain ⟨inner, -, hx⟩ := h.of_right hy
      refine ⟨_, andThen_iff.2 (Or.inr ⟨hr, hx⟩), ?_⟩
      rw [← h.locals_eq hy, Machine.State.keepLocals_push]
      exact τ'.keepLocals_self

-- ========================================================= calls with a frame

/-- The parameters of a body, with the values that are passed. -/
def Locals.ofParams {V : Type} (params : List Param) (vs : List V) :
    Locals V :=
  ((params.zip vs).map fun (p, v) => (p.name, some v)).reverse

theorem Locals.names_ofParams {V : Type} (params : List Param) (vs : List V) :
    (Locals.ofParams params vs).map Prod.fst ⊆ params.map Param.name := by
  intro x hx
  obtain ⟨⟨_, w⟩, hmem, rfl⟩ := List.mem_map.1 hx
  obtain ⟨⟨p, v⟩, hzip, ⟨⟩⟩ := List.mem_map.1 (List.mem_reverse.1 hmem)
  exact List.mem_map_of_mem (List.of_mem_zip hzip).1

theorem Locals.names_passed {α β : Type} {params : List Param}
    {as : List α} (f : α → β) (hlength : as.length = params.length) :
    (((params.zip as).map fun (p, a) => (p.name, f a)).reverse).map Prod.fst
      = (params.map Param.name).reverse := by
  have hzip : (params.zip as).map Prod.fst = params :=
    List.map_fst_zip (Nat.le_of_eq hlength.symm)
  rw [List.map_reverse, List.map_map]
  refine congrArg List.reverse
    (Eq.trans ?_ (congrArg (List.map Param.name) hzip))
  rw [List.map_map]
  rfl

/-- Every parameter has a value. -/
theorem Locals.lookup_ofParams {V : Type} {params : List Param} {vs : List V}
    {x : String}
    (hlength : vs.length = params.length) (hx : x ∈ params.map Param.name) :
    ∃ v, (Locals.ofParams params vs).lookup x = some (some v) := by
  rw [← List.mem_reverse, ← Locals.names_passed some hlength] at hx
  obtain ⟨p, hp, hname⟩ := List.mem_map.1 hx
  cases hlookup : (Locals.ofParams params vs).lookup x with
  | none => simpa [hname] using List.lookup_eq_none_iff.1 hlookup p hp
  | some w =>
      obtain ⟨_, _, hsplit, -⟩ := List.lookup_eq_some_iff.1 hlookup
      have hmem : (x, w) ∈ Locals.ofParams params vs :=
        hsplit ▸ List.mem_append_right _ List.mem_cons_self
      obtain ⟨⟨_, v⟩, -, hpair⟩ := List.mem_map.1 (List.mem_reverse.1 hmem)
      exact ⟨v, congrArg some (congrArg Prod.snd hpair).symm⟩

/-- Run a body in locals of its own. A return ends no more than the body. -/
def Computation.inFrame (l : Locals M.Value)
    (x : Computation M (Flow M.Value)) :
    Computation M (Flow M.Value) := fun σ r τ =>
  ∃ r' ρ, x { σ with locals := l } r' ρ ∧ r = r'.map (fun _ => .next)
    ∧ τ = { ρ with locals := σ.locals }

/-- Run the body of a constructor on copies of arguments. -/
def Constructor.runSuper (M : Machine) (called : Constructor)
    (args : List Expr) :
    Computation M (Flow M.Value) := do
  let vs ← Expr.values M args
  .inFrame (.ofParams called.params vs) (called.body.run M)

/-- That an expression has a value in a state, and evaluates without effect. -/
structure Expr.IsQuiet (M : Machine) (e : Expr) (σ : M.State) : Prop where
  exists_value : ∃ v, e.value M σ (.ok v) σ
  of_value {r : Except M.Value M.Value} {τ : M.State} : e.value M σ r τ → τ = σ
    ∧ ∃ v, r = .ok v

namespace Expr

variable {σ τ : M.State} {args : List Expr}

theorem exists_values (h : ∀ a ∈ args, a.IsQuiet M σ) :
    ∃ vs, values M args σ (.ok vs) σ := by
  induction args with
  | nil => exact ⟨[], rfl, rfl⟩
  | cons a args ih =>
      obtain ⟨v, hv⟩ := (h a List.mem_cons_self).exists_value
      obtain ⟨vs, hvs⟩ := ih fun b hb => h b (List.mem_cons_of_mem a hb)
      exact ⟨v :: vs,
        bind_ok_iff.2 ⟨v, σ, hv, bind_ok_iff.2 ⟨vs, σ, hvs, rfl, rfl⟩⟩⟩

theorem values_of_isQuiet {r : Except M.Value (List M.Value)}
    (h : ∀ a ∈ args, a.IsQuiet M σ) (hrun : values M args σ r τ) :
    τ = σ ∧ ∃ vs, r = .ok vs
      ∧ List.Forall₂ (fun a v => a.value M σ (.ok v) σ) args vs := by
  induction args generalizing r τ with
  | nil => exact ⟨hrun.2, [], hrun.1, .nil⟩
  | cons a args ih =>
      have hquiet := h a List.mem_cons_self
      rcases bind_iff.1 hrun with ⟨v, ρ, hv, hrest⟩ | ⟨e, he, -⟩
      · obtain ⟨rfl, -⟩ := hquiet.of_value hv
        rcases bind_iff.1 hrest with ⟨vs, υ, hvs, rfl, rfl⟩ | ⟨e, he, -⟩
        · obtain ⟨rfl, _, ⟨⟩, hall⟩ :=
            ih (fun b hb => h b (List.mem_cons_of_mem a hb)) hvs
          exact ⟨rfl, v :: vs, rfl, .cons hv hall⟩
        · obtain ⟨-, vs, hvs, -⟩ :=
            ih (fun b hb => h b (List.mem_cons_of_mem a hb)) he
          cases hvs
      · obtain ⟨-, v, hv⟩ := hquiet.of_value he
        cases hv

end Expr

namespace Merge

variable {base : TypeDecl} {name : String} {c c' called : Constructor}
variable {args : List Expr}
variable {rest : Block} {σ τ : M.State} {ws vs : List M.Value}

-- =============================================================== what is read

/-- That what is passed for a parameter, if it is a parameter of the caller,
has the value of that. -/
def Copies (c : Constructor) (l : Locals M.Value) (passed : Option String)
    (value : Option M.Value) : Prop :=
  ∀ n ∈ passed, n ∈ c.params.map Param.name ∧ value = (l.lookup n).join

theorem mem_names_of_plainParam? {a : Expr} {n : String}
    (h : plainParam? c a = some n) :
    a = .var n ∧ n ∈ c.params.map Param.name := by
  cases a with
  | var x =>
      obtain ⟨hx, hn⟩ := Option.ite_none_right_eq_some.1 h
      obtain rfl := Option.some.inj hn
      rw [Bool.and_eq_true, Constructor.paramIndex?, List.findIdx?_isSome,
        List.any_eq_true] at hx
      obtain ⟨⟨p, hp, hname⟩, -⟩ := hx
      exact ⟨rfl, List.mem_map.2 ⟨p, hp, beq_iff_eq.1 hname⟩⟩
  | _ => cases h

theorem lookup_forall₂ {α β : Type} {S : α → β → Prop} {l : List (String × α)}
    {l' : List (String × β)}
    (h : List.Forall₂ (fun p q => p.1 = q.1 ∧ S p.2 q.2) l l')
    (x : String) : Option.Rel S (l.lookup x) (l'.lookup x) := by
  induction h with
  | nil => exact .none
  | @cons p q l l' hpq _ ih =>
      rw [List.lookup_cons, List.lookup_cons, ← hpq.1]
      split
      · exact .some hpq.2
      · exact ih

theorem forall₂_passed (params : List Param)
    (h : List.Forall₂ (fun a v => a.value M σ (.ok v) σ) args vs) :
    List.Forall₂ (fun p q => p.1 = q.1 ∧ Copies c σ.locals p.2 q.2)
      ((params.zip args).map fun (p, a) => (p.name, plainParam? c a))
      ((params.zip vs).map fun (p, v) => (p.name, some v)) := by
  induction h generalizing params with
  | nil => simp
  | cons hav _ ih =>
      cases params with
      | nil => exact .nil
      | cons p params =>
          refine .cons ⟨rfl, fun n hn => ?_⟩ (ih params)
          obtain ⟨rfl, hmem⟩ := mem_names_of_plainParam? hn
          obtain ⟨v, hv, ⟨⟩, -⟩ := hav
          exact ⟨hmem, hv.symm⟩

/-- A parameter of the constructor that is taken in has the value of what is
read in its place. -/
theorem lookup_passed (c called : Constructor)
    (h : List.Forall₂ (fun a v => a.value M σ (.ok v) σ) args vs)
    (x : String) :
    Option.Rel (Copies c σ.locals) ((renamingOf c called args).lookup x)
      ((Locals.ofParams called.params vs).lookup x) :=
  lookup_forall₂
    (List.forall₂_reverse_iff.2 (forall₂_passed called.params h)) x

theorem read_of_notMem {x : String}
    (hlength : called.params.length = args.length)
    (hx : x ∉ called.params.map Param.name) :
    (renamingOf c called args).read x = x := by
  have hnone : (renamingOf c called args).lookup x = none :=
      Locals.lookup_eq_none <| by
    rwa [renamingOf, Locals.names_passed _ hlength.symm, List.mem_reverse]
  rw [ParamRenaming.read, hnone]
  rfl

/-- What is read in the place of a parameter is a parameter of the caller, and
has the value that is passed. -/
theorem read_of_mem {x : String} (hlength : called.params.length = args.length)
    (hvalues : List.Forall₂ (fun a v => a.value M σ (.ok v) σ) args vs)
    (hx : x ∈ called.params.map Param.name)
    (hlacks : (renamingOf c called args).lacks (.var x) = false) :
    (renamingOf c called args).read x ∈ c.params.map Param.name
      ∧ ((Locals.ofParams called.params vs).lookup x).join
        = (σ.locals.lookup ((renamingOf c called args).read x)).join := by
  have hpassed := lookup_passed c called hvalues x
  rcases hlookup : (renamingOf c called args).lookup x with _ | _ | n
  · rw [← List.mem_reverse, ← Locals.names_passed (plainParam? c) hlength.symm]
      at hx
    obtain ⟨p, hp, rfl⟩ := List.mem_map.1 hx
    simpa using List.lookup_eq_none_iff.1 hlookup p hp
  · exact absurd (beq_iff_eq.2 hlookup) (Bool.eq_false_iff.1 hlacks)
  · have hread : (renamingOf c called args).read x = n := by
      rw [ParamRenaming.read, hlookup]
      rfl
    rw [hlookup] at hpassed
    cases hvalue : (Locals.ofParams called.params vs).lookup x with
    | none =>
        rw [hvalue] at hpassed
        cases hpassed
    | some value =>
        rw [hvalue] at hpassed
        obtain ⟨hpasses⟩ := hpassed
        rw [hread]
        exact hpasses n rfl

-- =================================================================== harmless

/-- That the body of a base constructor does nothing that shows in whose locals
it runs. -/
structure Harmless (c called : Constructor) (rest : Block) : Prop where
  /-- What follows is not skipped. -/
  goesOn : called.body.returns = false
  /-- No name that is not its own means a parameter of the caller. -/
  used : ∀ x ∈ called.body.used, x ∈ called.params.map Param.name
    ∨ x ∉ c.params.map Param.name
  /-- No assignment to a copy becomes one to what was copied. -/
  assigned : ∀ x ∈ called.body.assigned, x ∉ called.params.map Param.name
  /-- No variable is declared that is there already, or that is named later
  on. -/
  declared : ∀ x ∈ called.body.declared, x ∉ called.params.map Param.name
    ∧ x ∉ c.params.map Param.name ∧ rest.namesLocal x = false

/-- The renaming that takes the body into the locals of the caller. -/
def takingIn (c called : Constructor) (args : List Expr) (σ : M.State)
    (vs : List M.Value) :
    Renaming M.Value :=
  .between called.body (renamingOf c called args).read
    (.ofParams called.params vs) σ.locals

theorem takingIn_allows (hharmless : Harmless c called rest)
    (hlength : called.params.length = args.length)
    (hlacks : ∀ e ∈ called.body.exprs,
      (renamingOf c called args).lacks e = false)
    (hvalues : List.Forall₂ (fun a v => a.value M σ (.ok v) σ) args vs)
    (hσ : σ.locals.map Prod.fst ⊆ c.params.map Param.name) :
    (takingIn c called args σ vs).AllowsAll called.body.nodes := by
  -- what is no parameter is declared in the body, if at all
  have hother : ∀ x, x ∉ called.params.map Param.name → x ∈ called.body.used →
      x ∉ (Locals.ofParams called.params vs).map Prod.fst
        ∧ x ∉ σ.locals.map Prod.fst :=
    fun x hx hused => ⟨fun h => hx (Locals.names_ofParams _ _ h),
      fun h => (hharmless.used x hused).resolve_left hx (hσ h)⟩
  have hreads : ∀ x, x ∈ called.body.used → .var x ∈ called.body.exprs →
      (takingIn c called args σ vs).MayRead x := by
    intro x hused hexpr
    by_cases hx : x ∈ called.params.map Param.name
    · obtain ⟨hmem, hvalue⟩ := read_of_mem hlength hvalues hx (hlacks _ hexpr)
      exact ⟨hused, Or.inr ⟨fun h => (hharmless.declared x h).1 hx,
        fun h => (hharmless.declared _ h).2.1 hmem⟩, hvalue⟩
    · have hread := read_of_notMem (c := c) hlength hx
      obtain ⟨hinner, houter⟩ := hother x hx hused
      refine ⟨hused, Or.inl hread, ?_⟩
      rw [hread, Locals.lookup_eq_none hinner, Locals.lookup_eq_none houter]
  intro n hn
  refine ⟨fun x hx => ?_, fun x hx hread => ?_,
    fun x hx => List.mem_filterMap.2 ⟨n, hn, hx⟩⟩
  · refine hreads x (List.mem_filterMap.2 ⟨n, hn, hx⟩)
      (List.mem_filterMap.2 ⟨n, hn, ?_⟩)
    unfold Node.used? at hx
    split at hx
    · rw [Option.some.inj hx]
      rfl
    · cases hx
  · have hx := hharmless.assigned x (List.mem_filterMap.2 ⟨n, hn, hx⟩)
    exact ⟨read_of_notMem hlength hx, hother x hx hread.1⟩

-- =================================================================== the call

/-- Without effect, the arguments of a call have values, and the body runs on
these. -/
theorem runSuper_iff {r : Except M.Value (Flow M.Value)}
    (hquiet : ∀ a ∈ args, a.IsQuiet M σ) :
    called.runSuper M args σ r τ
      ↔ ∃ vs, Expr.values M args σ (.ok vs) σ
        ∧ inFrame (.ofParams called.params vs) (called.body.run M) σ r τ := by
  constructor
  · rintro (⟨vs, ρ, hvs, hrun⟩ | ⟨e, he, -⟩)
    · obtain ⟨rfl, -⟩ := Expr.values_of_isQuiet hquiet hvs
      exact ⟨vs, hvs, hrun⟩
    · obtain ⟨-, _, hvs, -⟩ := Expr.values_of_isQuiet hquiet he
      cases hvs
  · rintro ⟨vs, hvs, hrun⟩
    exact Or.inl ⟨vs, σ, hvs, hrun⟩

/-- The body that is taken in does what the call does, and leaves the variables
that it declares. -/
theorem runSuper_adds (hharmless : Harmless c called rest)
    (hlength : called.params.length = args.length)
    (hlacks : ∀ e ∈ called.body.exprs,
      (renamingOf c called args).lacks e = false)
    (hquiet : ∀ a ∈ args, a.IsQuiet M σ)
    (hσ : σ.locals.map Prod.fst ⊆ c.params.map Param.name) :
    Adds (· ∈ called.body.declared) σ ((takenIn c called args).run M)
      (called.runSuper M args) := by
  have hmatches {vs : List M.Value} (hvs : Expr.values M args σ (.ok vs) σ) :
      Matches (takingIn c called args σ vs).Relates (called.body.run M)
        ((takenIn c called args).run M) := by
    obtain ⟨-, _, ⟨⟩, hvalues⟩ := Expr.values_of_isQuiet hquiet hvs
    exact Block.run_matches
      (takingIn_allows hharmless hlength hlacks hvalues hσ)
  have hstart (vs : List M.Value) : (takingIn c called args σ vs).Relates
      { σ with locals := .ofParams called.params vs } σ :=
    ⟨⟨[], _, _, rfl, rfl, ⟨rfl, rfl⟩, nofun⟩, rfl, rfl⟩
  have hend {vs : List M.Value} {υ ρ : M.State}
      (hR : (takingIn c called args σ vs).Relates υ ρ) :
      ∃ inner, (∀ a ∈ inner.map Prod.fst, a ∈ called.body.declared)
        ∧ ρ = Machine.State.push { υ with locals := σ.locals } inner := by
    obtain ⟨⟨inner, _, _, -, hρ, ⟨rfl, rfl⟩, hinner⟩, hmemory, hcalls⟩ := hR
    refine ⟨inner, hinner, ?_⟩
    unfold Machine.State.push
    rw [hmemory, hcalls, ← hρ]
  -- the body does not return, so that there is no difference in how it ends
  have hnext {υ ρ : M.State} {r : Except M.Value (Flow M.Value)}
      (hrun : called.body.run M υ r ρ) : r.map (fun _ => .next) = r := by
    match r, hrun with
    | .error e, _ => rfl
    | .ok .next, _ => rfl
    | .ok (.returned v),
        hrun => exact (Block.run_goesOn hharmless.goesOn υ v ρ hrun).elim
  refine ⟨fun hrun => ?_, fun hrun => ?_, fun hrun => ?_⟩
  · obtain ⟨vs, -, _, _, -, -, rfl⟩ := (runSuper_iff hquiet).1 hrun
    rfl
  · obtain ⟨vs, hvs, r', υ, hbody, rfl, rfl⟩ := (runSuper_iff hquiet).1 hrun
    obtain ⟨ρ, htaken, hR⟩ := (hmatches hvs).forth _ _ _ _ (hstart vs) hbody
    obtain ⟨inner, hinner, rfl⟩ := hend hR
    exact ⟨inner, hinner, (hnext hbody).symm ▸ htaken⟩
  · obtain ⟨vs, hvs⟩ := Expr.exists_values hquiet
    obtain ⟨υ, hbody, hR⟩ := (hmatches hvs).back _ _ _ _ (hstart vs) hrun
    obtain ⟨inner, hinner, hρ⟩ := hend hR
    exact ⟨inner, _, hinner, hρ,
      (runSuper_iff hquiet).2 ⟨vs, hvs, _, υ, hbody, (hnext hbody).symm, rfl⟩⟩

/-- A parameter of the caller has a value, and reading it has no effect. -/
theorem isQuiet_of_plainParam? {a : Expr} {n : String}
    (h : plainParam? c a = some n)
    (hσ : σ.locals = .ofParams c.params ws)
    (hws : ws.length = c.params.length) :
    a.IsQuiet M σ := by
  obtain ⟨rfl, hn⟩ := mem_names_of_plainParam? h
  obtain ⟨v, hv⟩ := Locals.lookup_ofParams hws hn
  have hlocal : σ.local? n = some v := by
    rw [Machine.State.local?, hσ, hv, Option.join_some]
  refine ⟨⟨v, v, hlocal, rfl, rfl⟩, ?_⟩
  rintro r τ ⟨w, -, rfl, rfl⟩
  exact ⟨rfl, w, rfl⟩

/-- A constructor that has taken in one of its base does what it did before, on
all parameters, if that one is harmless and its arguments are parameters of the
caller or else without effect. -/
theorem inlineSuper_runs (h : inlineSuper base name c = .ok c')
    (hbody : c.body = .superConstructor args :: rest)
    (hcalled : superTarget? base args.length = some called)
    (hharmless : Harmless c called rest)
    (hσ : σ.locals = .ofParams c.params ws) (hws : ws.length = c.params.length)
    (hquiet : ∀ a ∈ args, plainParam? c a = none → a.IsQuiet M σ)
    (r : Except M.Value (Flow M.Value)) :
    inScope (c'.body.run M) σ r τ
      ↔ inScope ((called.runSuper M args).andThen (Block.run M rest)) σ r
        τ := by
  obtain ⟨rfl, hlacks⟩ := inlineSuper_eq_ok h hbody hcalled
  have hlength : called.params.length = args.length := by
    have hfits : fits args.length called = true := List.find?_some hcalled
    exact beq_iff_eq.1 (Bool.and_eq_true_iff.1 hfits).2
  have hall : ∀ a ∈ args, a.IsQuiet M σ := fun a ha => by
    cases hplain : plainParam? c a with
    | none => exact hquiet a ha hplain
    | some n => exact isQuiet_of_plainParam? hplain hσ hws
  have hadds :=
    runSuper_adds hharmless hlength hlacks hall
      (hσ ▸ Locals.names_ofParams _ _)
  rw [← hadds.inScope_andThen fun a ha => (hharmless.declared a ha).2.2]
  unfold Block.run
  rw [Stmt.runAll_append]

-- ------------------------------------------------------------------- at work

/-- The machine of numbers that remembers the number that it wrote last. -/
abbrev numbers : Machine where
  Value := Int
  Memory := Int
  performs op vs μ r μ' :=
    match op, vs with
    | .literal (.int v), _ => r = .ok v ∧ μ' = μ
    | .write _, [_, v] => r = .ok v ∧ μ' = v
    | _, _ => r = .ok 0 ∧ μ' = μ
  truth v := some (v != 0)

theorem keepingConstructor_run (type : TypeRef) {field : String}
    {υ : numbers.State} {v : Int} (hv : υ.local? "a" = some v) :
    (keepingConstructor type field).body.run numbers υ (.ok .next) { υ with
    memory := v } := by
  have hplace : Expr.place numbers (.field none ⟨"Base", field⟩) υ
      (.ok (.field (0 : Int) ⟨"Base", field⟩)) υ :=
    bind_ok_iff.2 ⟨(0 : Int), υ, ⟨υ.memory, ⟨rfl, rfl⟩, rfl⟩, rfl, rfl⟩
  have hwrite : Place.write v (.field (0 : Int) ⟨"Base", field⟩) υ (.ok ())
      { υ with memory := v } :=
    bind_ok_iff.2 ⟨v, _, ⟨v, ⟨rfl, rfl⟩, rfl⟩, rfl, rfl⟩
  have hassign :
      Expr.value numbers (.assign none (.field none ⟨"Base", field⟩)
        (.var "a")) υ
      (.ok v) { υ with memory := v } :=
    bind_ok_iff.2 ⟨_, υ, hplace, bind_ok_iff.2 ⟨v, υ, ⟨v, hv, rfl, rfl⟩,
      bind_ok_iff.2 ⟨(), _, hwrite, rfl, rfl⟩⟩⟩
  exact andThen_next_iff.2 ⟨_, bind_ok_iff.2 ⟨v, _, hassign, rfl, rfl⟩,
    rfl, rfl⟩

theorem call_value (m : MethodRef) (υ : numbers.State) :
    Expr.value numbers (.call none m []) υ (.ok (0 : Int))
      (υ.recordCall m) := by
  have hself : Expr.object numbers none υ (.ok (0 : Int)) υ :=
    ⟨υ.memory, ⟨rfl, rfl⟩, rfl⟩
  have hcall : perform (M := numbers) (.call m) [(0 : Int)] (υ.recordCall m)
      (.ok (0 : Int)) (υ.recordCall m) := ⟨υ.memory, ⟨rfl, rfl⟩, rfl⟩
  exact bind_ok_iff.2 ⟨(0 : Int), υ, hself, bind_ok_iff.2 ⟨[], υ, ⟨rfl, rfl⟩,
    bind_ok_iff.2 ⟨(), υ.recordCall m, ⟨rfl, rfl⟩, hcall⟩⟩⟩

theorem call_run (m : MethodRef) (υ : numbers.State) :
    Block.run numbers [.expr (.call none m [])] υ (.ok .next)
      (υ.recordCall m) :=
  andThen_next_iff.2 ⟨_, bind_ok_iff.2 ⟨(0 : Int), _, call_value m υ, rfl,
    rfl⟩, rfl, rfl⟩

/-- A constructor that keeps the first of two numbers in a field. -/
def wideConstructor : Constructor :=
  { keepingConstructor .int "size" with params := [⟨"a", .int⟩, ⟨"b", .int⟩] }

/-- A constructor that passes its parameter on and a number that nothing reads,
and then calls a method. -/
def startingConstructor : Constructor where
  params := [⟨"n", .int⟩]
  body := [.superConstructor [.var "n", .literal (.int 16)],
    .expr (.call none ⟨"Leaf", "start", []⟩ [])]

/-- The number is kept and then the method is called. -/
theorem inlineSuper_runs_start : ∃ c' τ,
    inlineSuper (sizedBase wideConstructor) "Leaf" startingConstructor = .ok c'
      ∧ inScope (c'.body.run numbers)
        ⟨.ofParams startingConstructor.params [5], 0, []⟩
        (.ok .next) τ
      ∧ τ.memory = 5 ∧ τ.calls = [⟨"Leaf", "start", []⟩] := by
  have hcalled : superTarget? (sizedBase wideConstructor) 2
    = some wideConstructor := rfl
  have hok : inlineSuper (sizedBase wideConstructor) "Leaf" startingConstructor
      = .ok { startingConstructor with
          body := takenIn startingConstructor wideConstructor
            [.var "n", .literal (.int 16)]
            ++ [.expr (.call none ⟨"Leaf", "start", []⟩ [])] } := by
    rw [inlineSuper_of_target rfl hcalled, if_neg (by decide +kernel)]
  have hharmless : Harmless startingConstructor wideConstructor
      [.expr (.call none ⟨"Leaf", "start", []⟩ [])] :=
    ⟨by decide +kernel, by decide +kernel, by decide +kernel, by
      decide +kernel⟩
  let σ : numbers.State := ⟨.ofParams startingConstructor.params [5], 0, []⟩
  have hliteral : (Expr.literal (.int 16)).IsQuiet numbers σ := by
    refine ⟨⟨16, 0, ⟨rfl, rfl⟩, rfl⟩, ?_⟩
    rintro r τ ⟨_, ⟨rfl, rfl⟩, rfl⟩
    exact ⟨rfl, 16, rfl⟩
  have hquiet : ∀ a ∈ [Expr.var "n", .literal (.int 16)],
      plainParam? startingConstructor a = none → a.IsQuiet numbers σ := by
    refine List.forall_mem_cons.2 ⟨fun h => absurd h (by decide +kernel), ?_⟩
    exact List.forall_mem_singleton.2 fun _ => hliteral
  have hvalues : Expr.values numbers [.var "n", .literal (.int 16)] σ
      (.ok [5, 16]) σ := by
    have hlast : Expr.values numbers [.literal (.int 16)] σ (.ok [16]) σ :=
      bind_ok_iff.2 ⟨16, σ, ⟨0, ⟨rfl, rfl⟩, rfl⟩,
        bind_ok_iff.2 ⟨[], σ, ⟨rfl, rfl⟩, rfl, rfl⟩⟩
    exact bind_ok_iff.2 ⟨5, σ, ⟨5, rfl, rfl, rfl⟩,
      bind_ok_iff.2 ⟨[16], σ, hlast, rfl, rfl⟩⟩
  have hframe :
      inFrame (M := numbers) (.ofParams wideConstructor.params [(5 : Int), 16])
      (wideConstructor.body.run numbers) σ (.ok .next) { σ with
      memory := (5 : Int) } :=
    ⟨_, _, keepingConstructor_run .int (v := 5) rfl, rfl, rfl⟩
  refine ⟨_, _, hok,
    (inlineSuper_runs hok rfl hcalled hharmless rfl rfl hquiet _).2
    ⟨_, andThen_next_iff.2 ⟨_, Or.inl ⟨_, _, hvalues, hframe⟩, call_run _ _⟩,
      rfl⟩, rfl, rfl⟩

/-- A constructor that does nothing with its parameter. -/
def ignoringConstructor : Constructor where
  params := [⟨"a", .int⟩]

/-- A constructor that passes what a method answers. -/
def askingConstructor : Constructor where
  body := [.superConstructor [.call none ⟨"Leaf", "next", []⟩ []]]

/-- What a method answers is passed to a constructor that does nothing with it.
The call of the method is lost. -/
theorem inlineSuper_drops_call :
    let args : List Expr := [.call none ⟨"Leaf", "next", []⟩ []]
    askingConstructor.body = [.superConstructor args]
      ∧ superTarget? (sizedBase ignoringConstructor) args.length
        = some ignoringConstructor
      ∧ ∃ c', inlineSuper (sizedBase ignoringConstructor) "Leaf"
        askingConstructor = .ok c'
        ∧ ∃ σ τ : numbers.State,
        σ.locals = .ofParams askingConstructor.params []
          ∧ inScope ((ignoringConstructor.runSuper numbers args).andThen
            (Block.run numbers [])) σ (.ok .next) τ
          ∧ ¬ inScope (c'.body.run numbers) σ (.ok .next) τ := by
  have hcalled : superTarget? (sizedBase ignoringConstructor) 1
    = some ignoringConstructor := rfl
  have hok : inlineSuper (sizedBase ignoringConstructor) "Leaf"
      askingConstructor = .ok {} := by
    rw [inlineSuper_of_target rfl hcalled, if_neg (by decide +kernel)]
    rfl
  let σ : numbers.State := ⟨[], 0, []⟩
  have hvalues : Expr.values numbers [.call none ⟨"Leaf", "next", []⟩ []] σ
      (.ok [(0 : Int)]) (σ.recordCall ⟨"Leaf", "next", []⟩) :=
    bind_ok_iff.2 ⟨_, _, call_value _ σ,
      bind_ok_iff.2 ⟨[], _, ⟨rfl, rfl⟩, rfl, rfl⟩⟩
  have hframe :
      inFrame (M := numbers) (.ofParams ignoringConstructor.params [(0 : Int)])
      (ignoringConstructor.body.run numbers)
      (σ.recordCall ⟨"Leaf", "next", []⟩) (.ok .next)
      (σ.recordCall ⟨"Leaf", "next", []⟩) := ⟨_, _, ⟨rfl, rfl⟩, rfl, rfl⟩
  refine ⟨rfl, hcalled, {}, hok, σ, σ.recordCall ⟨"Leaf", "next", []⟩, rfl,
    ⟨_, andThen_next_iff.2 ⟨_, Or.inl ⟨_, _, hvalues, hframe⟩, rfl, rfl⟩, rfl⟩,
    ?_⟩
  rintro ⟨_, ⟨-, rfl⟩, hτ⟩
  exact List.cons_ne_nil _ _ (congrArg Machine.State.calls hτ)

end Merge

end Stagewise
