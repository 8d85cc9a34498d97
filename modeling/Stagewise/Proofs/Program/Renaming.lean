/-
Code that runs among other locals, under other names.

# Following

One computation follows another one along a relation of states (`Follows`) if
it has every result that the other one has, and leaves a state that is related
again. Computations match if each follows the other one. How computations are
composed does not matter to that, as long as the relation is kept by what is
done to the memory and where scopes end (`Machine.Alike`).

# Renaming

A `Renaming` says which outer locals correspond, what variables are called on
the other side and which ones may be declared on the way. States correspond
whose locals are the same ones on top of outer locals that correspond. Code
that uses, writes to and declares no other variables than it may matches the
renamed code (`Block.run_matches`), since the variables that it declares keep
their names and shadow the same ones on both sides.
-/
import Stagewise.Proofs.Program.Conversion
import Stagewise.Proofs.Program.Effects

namespace Stagewise

variable {M : Machine}

-- ================================================================== following

namespace Machine

/-- A relation between states that is kept by what is done to the memory and
where scopes end. -/
structure Alike (R : M.State → M.State → Prop) : Prop where
  memory {σ σ' : M.State} : R σ σ' → σ.memory = σ'.memory
  setMemory {σ σ' : M.State} (m : M.Memory) :
    R σ σ' → R { σ with memory := m } { σ' with memory := m }
  recordCall {σ σ' : M.State} (m : MethodRef) : R σ σ' →
    R (σ.recordCall m) (σ'.recordCall m)
  keepLocals {σ σ' ρ ρ' : M.State} : R σ σ' → R ρ ρ' →
    R (ρ.keepLocals σ.locals.length) (ρ'.keepLocals σ'.locals.length)

theorem Alike.flip {R : M.State → M.State → Prop} (h : Alike R) :
    Alike (flip R) where
  memory hR := (h.memory hR).symm
  setMemory m hR := h.setMemory m hR
  recordCall m hR := h.recordCall m hR
  keepLocals hR hR' := h.keepLocals hR hR'

end Machine

namespace Computation

open Machine (Alike)

variable {α β : Type} {R : M.State → M.State → Prop} {c c' : Computation M α}

/-- That wherever one computation has a result another one has it too. -/
def Follows (R : M.State → M.State → Prop) (c c' : Computation M α) : Prop :=
  ∀ σ σ' r τ, R σ σ' → c σ r τ → ∃ τ', c' σ' r τ' ∧ R τ τ'

namespace Follows

theorem pure (a : α) : Follows R (pure a) (pure a) := by
  rintro σ σ' r τ hR ⟨rfl, rfl⟩
  exact ⟨_, ⟨rfl, rfl⟩, hR⟩

theorem throw (e : M.Value) :
    Follows R (throw e : Computation M α) (throw e) := by
  rintro σ σ' r τ hR ⟨rfl, rfl⟩
  exact ⟨_, ⟨rfl, rfl⟩, hR⟩

theorem bind_of_ok {d d' : α → Computation M β} (hc : Follows R c c')
    (hd : ∀ a σ ρ, c σ (.ok a) ρ → Follows R (d a) (d' a)) :
    Follows R (c >>= d) (c' >>= d') := by
  rintro σ σ' r τ hR (⟨a, ρ, ha, hr⟩ | ⟨e, he, rfl⟩)
  · obtain ⟨ρ', ha', hR'⟩ := hc σ σ' _ ρ hR ha
    obtain ⟨τ', hr', hR''⟩ := hd a σ ρ ha ρ ρ' r τ hR' hr
    exact ⟨τ', Or.inl ⟨a, ρ', ha', hr'⟩, hR''⟩
  · obtain ⟨τ', he', hR'⟩ := hc σ σ' _ τ hR he
    exact ⟨τ', Or.inr ⟨e, he', rfl⟩, hR'⟩

theorem inspect {f g : M.State → Option α} (h : ∀ σ σ', R σ σ' → f σ = g σ') :
    Follows R (inspect f) (inspect g) := by
  rintro σ σ' r τ hR ⟨a, ha, rfl, rfl⟩
  exact ⟨σ', ⟨a, h _ _ hR ▸ ha, rfl, rfl⟩, hR⟩

theorem change {f g : M.State → M.State}
    (h : ∀ σ σ', R σ σ' → R (f σ) (g σ')) :
    Follows R (change f) (change g) := by
  rintro σ σ' r τ hR ⟨rfl, rfl⟩
  exact ⟨_, ⟨rfl, rfl⟩, h σ σ' hR⟩

theorem perform (h : Alike R) (op : Operation) (vs : List M.Value) :
    Follows R (perform op vs) (perform op vs) := by
  rintro σ σ' r τ hR ⟨m, hm, rfl⟩
  exact ⟨_, ⟨m, h.memory hR ▸ hm, rfl⟩, h.setMemory m hR⟩

theorem inScope (h : Alike R) (hc : Follows R c c') :
    Follows R (inScope c) (inScope c') := by
  rintro σ σ' r τ hR ⟨ρ, hρ, rfl⟩
  obtain ⟨ρ', hρ', hR'⟩ := hc σ σ' r ρ hR hρ
  exact ⟨_, ⟨ρ', hρ', rfl⟩, h.keepLocals hR hR'⟩

theorem rounds {cond cond' : Computation M Bool}
    {body body' : Computation M (Flow M.Value)}
    (hcond : Follows R cond cond') (hbody : Follows R body body') :
    Follows R (Rounds cond body) (Rounds cond' body') := by
  intro σ σ' r τ hR h
  induction h generalizing σ' with
  | done h =>
      obtain ⟨τ', h', hR'⟩ := hcond _ _ _ _ hR h
      exact ⟨τ', .done h', hR'⟩
  | fails h =>
      obtain ⟨τ', h', hR'⟩ := hcond _ _ _ _ hR h
      exact ⟨τ', .fails h', hR'⟩
  | leaves h hb =>
      obtain ⟨ρ', h', hR'⟩ := hcond _ _ _ _ hR h
      obtain ⟨τ', hb', hR''⟩ := hbody _ _ _ _ hR' hb
      exact ⟨τ', .leaves h' hb', hR''⟩
  | throws h hb =>
      obtain ⟨ρ', h', hR'⟩ := hcond _ _ _ _ hR h
      obtain ⟨τ', hb', hR''⟩ := hbody _ _ _ _ hR' hb
      exact ⟨τ', .throws h' hb', hR''⟩
  | again h hb _ ih =>
      obtain ⟨ρ', h', hR'⟩ := hcond _ _ _ _ hR h
      obtain ⟨υ', hb', hR''⟩ := hbody _ _ _ _ hR' hb
      obtain ⟨τ', hrest, hR'''⟩ := ih υ' hR''
      exact ⟨τ', .again h' hb' hrest, hR'''⟩

end Follows

/-- That each of two computations follows the other one. -/
structure Matches (R : M.State → M.State → Prop) (c c' : Computation M α) :
    Prop where
  forth : Follows R c c'
  back : Follows (flip R) c' c

namespace Matches

theorem pure (a : α) : Matches R (pure a) (pure a) := ⟨.pure a, .pure a⟩

theorem throw (e : M.Value) :
    Matches R (throw e : Computation M α) (throw e) :=
  ⟨.throw e, .throw e⟩

theorem stuck : Matches R (stuck : Computation M α) stuck :=
  ⟨fun _ _ _ _ _ h => h.elim, fun _ _ _ _ _ h => h.elim⟩

theorem bind_of_ok {d d' : α → Computation M β} (hc : Matches R c c')
    (hd : ∀ a σ ρ, c σ (.ok a) ρ → Matches R (d a) (d' a)) :
    Matches R (c >>= d) (c' >>= d') where
  forth := hc.forth.bind_of_ok fun a σ ρ ha => (hd a σ ρ ha).forth
  back σ' σ r τ' hR h := by
    -- what `hd` asks for is known only once `c'` is followed back
    rcases h with ⟨a, ρ', ha', hr'⟩ | ⟨e, he', rfl⟩
    · obtain ⟨ρ, ha, hR'⟩ := hc.back σ' σ _ ρ' hR ha'
      obtain ⟨τ, hr, hR''⟩ := (hd a σ ρ ha).back ρ' ρ r τ' hR' hr'
      exact ⟨τ, Or.inl ⟨a, ρ, ha, hr⟩, hR''⟩
    · obtain ⟨τ, he, hR'⟩ := hc.back σ' σ _ τ' hR he'
      exact ⟨τ, Or.inr ⟨e, he, rfl⟩, hR'⟩

theorem bind {d d' : α → Computation M β} (hc : Matches R c c')
    (hd : ∀ a, Matches R (d a) (d' a)) : Matches R (c >>= d) (c' >>= d') :=
  hc.bind_of_ok fun a _ _ _ => hd a

theorem ite {p : Prop} [Decidable p] {d d' : Computation M α}
    (hc : Matches R c c')
    (hd : Matches R d d') :
    Matches R (if p then c else d) (if p then c' else d') := by
  split
  · exact hc
  · exact hd

theorem inspect {f g : M.State → Option α} (h : ∀ σ σ', R σ σ' → f σ = g σ') :
    Matches R (inspect f) (inspect g) :=
  ⟨.inspect h, .inspect fun σ' σ hR => (h σ σ' hR).symm⟩

theorem test (v : M.Value) : Matches R (test v) (test v) :=
  inspect fun _ _ _ => rfl

theorem change {f g : M.State → M.State}
    (h : ∀ σ σ', R σ σ' → R (f σ) (g σ')) :
    Matches R (change f) (change g) :=
  ⟨.change h, .change fun σ' σ hR => h σ σ' hR⟩

theorem perform (h : Alike R) (op : Operation) (vs : List M.Value) :
    Matches R (perform op vs) (perform op vs) :=
  ⟨.perform h op vs, .perform h.flip op vs⟩

theorem inScope (h : Alike R) (hc : Matches R c c') :
    Matches R (inScope c) (inScope c') :=
  ⟨hc.forth.inScope h, hc.back.inScope h.flip⟩

theorem rounds {cond cond' : Computation M Bool}
    {body body' : Computation M (Flow M.Value)}
    (hcond : Matches R cond cond') (hbody : Matches R body body') :
    Matches R (Rounds cond body) (Rounds cond' body') :=
  ⟨hcond.forth.rounds hbody.forth, hcond.back.rounds hbody.back⟩

end Matches

end Computation

-- ================================================================== renamings

/-- The local variable that a node is. -/
def Node.used? : Node → Option String
  | .expr (.var x) => some x
  | _ => none

/-- The local variable that a node writes to. -/
def Node.assigned? : Node → Option String
  | .expr (.assign _ (.var x) _) => some x
  | .expr (.unary op (.var x)) => if op.isMutation then some x else none
  | _ => none

/-- The local variable that a node declares. -/
def Node.declared? : Node → Option String
  | .stmt (.declare _ x _) => some x
  | _ => none

def Block.used (b : Block) : List String := b.nodes.filterMap Node.used?

def Block.assigned (b : Block) : List String :=
  b.nodes.filterMap Node.assigned?

def Block.declared (b : Block) : List String :=
  b.nodes.filterMap Node.declared?

/-- Variables that go by other names on top of other outer locals. -/
structure Renaming (V : Type) where
  /-- What a variable is called on the other side. -/
  var : String → String
  MayRead : String → Prop
  MayWrite : String → Prop
  MayDeclare : String → Prop
  /-- Which outer locals correspond. -/
  Outer : Locals V → Locals V → Prop
  /-- All outer locals of one side are equally many. -/
  length_eq {l l' k k' : Locals V} : Outer l l' → Outer k k' →
    l.length = k.length ∧ l'.length = k'.length
  /-- What is declared on the way hides a variable on both sides or on none. -/
  hides {x : String} : MayRead x → var x = x ∨ ¬ MayDeclare x
    ∧ ¬ MayDeclare (var x)
  lookup {x : String} {l l' : Locals V} : MayRead x → Outer l l' →
    (l.lookup x).join = (l'.lookup (var x)).join
  var_of_mayWrite {x : String} : MayWrite x → var x = x
  assign {x : String} {l l' : Locals V} (v : V) : MayWrite x → Outer l l' →
    Outer (l.assign x v) (l'.assign x v)

namespace Locals

variable {V : Type} {x : String} {v : V} {l l' : Locals V}

theorem assign_eq_self (h : x ∉ l.map Prod.fst) : l.assign x v = l := by
  induction l with
  | nil => rfl
  | cons p l ih =>
      rw [List.map_cons, List.mem_cons, not_or] at h
      unfold assign
      rw [if_neg fun he => h.1 he.symm, ih h.2]

/-- An assignment goes to inner locals if one of them has the name. -/
theorem assign_append (x : String) (v : V) (l l' : Locals V) :
    Locals.assign x v (l ++ l')
    = if x ∈ l.map Prod.fst then l.assign x v ++ l'
      else l ++ l'.assign x v := by
  induction l with
  | nil => rfl
  | cons p l ih =>
      obtain ⟨y, w⟩ := p
      by_cases hy : y = x
      · simp [assign, hy]
      · have hne : ¬ x = y := fun h => hy h.symm
        simp only [List.cons_append, assign, if_neg hy, ih, List.map_cons,
          List.mem_cons, hne, false_or]
        split <;> rfl

end Locals

namespace Renaming

open Machine (Alike)

variable {R : Renaming M.Value} {x : String} {σ σ' : M.State}

/-- That the locals of one state correspond to those of another one. -/
structure Relates (R : Renaming M.Value) (σ σ' : M.State) : Prop where
  locals : ∃ inner outer outer', σ.locals = inner ++ outer
    ∧ σ'.locals = inner ++ outer'
    ∧ R.Outer outer outer' ∧ ∀ y ∈ inner.map Prod.fst, R.MayDeclare y
  memory : σ.memory = σ'.memory
  calls : σ.calls = σ'.calls

/-- That a node of code reads, writes to and declares what it may. -/
structure Allows (R : Renaming M.Value) (n : Node) : Prop where
  used : ∀ x ∈ n.used?, R.MayRead x
  /-- The variable is a part of the node, so it must be one that may be
  read. -/
  assigned : ∀ x ∈ n.assigned?, R.MayRead x → R.MayWrite x
  declared : ∀ x ∈ n.declared?, R.MayDeclare x

def AllowsAll (R : Renaming M.Value) (ns : List Node) : Prop :=
  ∀ n ∈ ns, R.Allows n

namespace AllowsAll

variable {n : Node} {ns ns' : List Node} {es es' : List Expr}

theorem head (h : R.AllowsAll (n :: ns)) : R.Allows n := h n List.mem_cons_self

theorem tail (h : R.AllowsAll (n :: ns)) : R.AllowsAll ns := fun m hm =>
  h m (List.mem_cons_of_mem n hm)

theorem append (h : R.AllowsAll (ns ++ ns')) :
    R.AllowsAll ns ∧ R.AllowsAll ns' :=
  List.forall_mem_append.1 h

theorem append_exprs (h : R.AllowsAll ((es ++ es').map Node.expr)) :
    R.AllowsAll (es.map Node.expr) ∧ R.AllowsAll (es'.map Node.expr) :=
  append (List.map_append ▸ h)

end AllowsAll

theorem alike (R : Renaming M.Value) : Alike R.Relates where
  memory h := h.memory
  setMemory _ h := ⟨h.locals, rfl, h.calls⟩
  recordCall m h := ⟨h.locals, h.memory, congrArg (m :: ·) h.calls⟩
  keepLocals {σ σ' ρ ρ'} h h' := by
    obtain ⟨inner, outer, outer', hσ, hσ', hO, -⟩ := h.locals
    obtain ⟨inner₁, outer₁, outer₁', hρ, hρ', hO₁, hnew⟩ := h'.locals
    obtain ⟨hlength, hlength'⟩ := R.length_eq hO hO₁
    -- on both sides as many of the inner locals are given up
    have hdrop {l k : Locals M.Value} (hlk : k.length = l.length) :
        (inner₁ ++ l).drop ((inner₁ ++ l).length - (inner ++ k).length)
          = inner₁.drop (inner₁.length - inner.length) ++ l := by
      rw [List.length_append, List.length_append, hlk, Nat.add_sub_add_right,
        List.drop_append_of_le_length (Nat.sub_le _ _)]
    refine ⟨⟨inner₁.drop (inner₁.length - inner.length), outer₁, outer₁', ?_,
      ?_, hO₁, ?_⟩, h'.memory, h'.calls⟩
    · rw [Machine.State.keepLocals, hσ, hρ]
      exact hdrop hlength
    · rw [Machine.State.keepLocals, hσ', hρ']
      exact hdrop hlength'
    · intro y hy
      rw [List.map_drop] at hy
      exact hnew y (List.mem_of_mem_drop hy)

theorem Relates.local? (h : R.Relates σ σ') (hx : R.MayRead x) :
    σ.local? x = σ'.local? (R.var x) := by
  obtain ⟨inner, outer, outer', hσ, hσ', hO, hnew⟩ := h.locals
  have houter := R.lookup hx hO
  unfold Machine.State.local?
  rw [hσ, hσ', List.lookup_append, List.lookup_append]
  rcases R.hides hx with hvar | ⟨hold, hold'⟩
  · rw [hvar] at houter ⊢
    cases inner.lookup x with
    | none => exact houter
    | some v => rfl
  · rw [Locals.lookup_eq_none fun h => hold (hnew _ h),
      Locals.lookup_eq_none fun h => hold' (hnew _ h)]
    exact houter

theorem Relates.assign (h : R.Relates σ σ') (hx : R.MayWrite x) (v : M.Value) :
    R.Relates (σ.assign x v) (σ'.assign x v) := by
  obtain ⟨inner, outer, outer', hσ, hσ', hO, hnew⟩ := h.locals
  refine ⟨?_, h.memory, h.calls⟩
  unfold Machine.State.assign
  rw [hσ, hσ']
  dsimp only
  rw [Locals.assign_append, Locals.assign_append]
  split
  · exact ⟨_, outer, outer', rfl, rfl, hO, by rwa [Locals.names_assign]⟩
  · exact ⟨inner, _, _, rfl, rfl, R.assign v hx hO, hnew⟩

theorem Relates.declare (h : R.Relates σ σ') (hx : R.MayDeclare x)
    (v : Option M.Value) :
    R.Relates (σ.declare x v) (σ'.declare x v) := by
  obtain ⟨inner, outer, outer', hσ, hσ', hO, hnew⟩ := h.locals
  refine ⟨⟨(x, v) :: inner, outer, outer', ?_, ?_, hO, ?_⟩, h.memory, h.calls⟩
  · exact congrArg ((x, v) :: ·) hσ
  · exact congrArg ((x, v) :: ·) hσ'
  · exact List.forall_mem_cons.2 ⟨hx, hnew⟩

end Renaming

-- =============================================================== renamed code

open Stagewise.Computation

variable {R : Renaming M.Value}

namespace Place

theorem read_matches {p : Place M.Value}
    (h : ∀ x, p = .var x → R.MayRead x ∧ R.MayWrite x) :
    Matches R.Relates p.read p.read := by
  cases p with
  | var x =>
      obtain ⟨hread, hwrite⟩ := h x rfl
      exact .inspect fun _ _ hR => (hR.local? hread).trans
        (by rw [R.var_of_mayWrite hwrite])
  | field o f => exact .perform R.alike _ _

theorem write_matches {p : Place M.Value}
    (h : ∀ x, p = .var x → R.MayRead x ∧ R.MayWrite x)
    (v : M.Value) : Matches R.Relates (p.write v) (p.write v) := by
  cases p with
  | var x => exact .change fun _ _ hR => hR.assign (h x rfl).2 v
  | field o f => exact (Matches.perform R.alike _ _).bind fun _ => .pure _

end Place

namespace Expr

/-- The place of an expression that may be written to is no other variable. -/
theorem reads_of_place {e : Expr} {σ τ : M.State} {p : Place M.Value}
    (h : R.AllowsAll e.nodes) (hw : ∀ x, e = .var x → R.MayWrite x)
    (hp : place M e σ (.ok p) τ) :
    ∀ x, p = .var x → R.MayRead x ∧ R.MayWrite x := by
  rintro x rfl
  cases e with
  | var y =>
      obtain ⟨hp, -⟩ := hp
      cases hp
      exact ⟨h.head.used x rfl, hw x rfl⟩
  | field t f =>
      obtain ⟨o, ρ, -, hp, -⟩ := bind_ok_iff.1 hp
      cases hp
  | _ => exact hp.elim

mutual

theorem value_matches : ∀ e : Expr, R.AllowsAll e.nodes →
    Matches R.Relates (e.value M) ((e.rewrite (renameTop R.var)).value M)
  | .literal _, _ | .self _, _ | .super, _ => .perform R.alike _ _
  | .var x, h => .inspect fun _ _ hR => hR.local? (h.head.used x rfl)
  | .field t f, h => (object_matches t h.tail).bind
      fun _ => .perform R.alike _ _
  | .call t m args, h => by
      obtain ⟨ht, hargs⟩ := h.tail.append_exprs
      exact (object_matches t ht).bind fun _ => (values_matches args
          hargs).bind fun _ =>
        (Matches.change fun _ _ => R.alike.recordCall m).bind fun _ =>
          .perform R.alike _ _
  | .new type args, h => (values_matches args h.tail).bind
      fun _ => .perform R.alike _ _
  | .unary op e, h => by
      -- an increment writes to a place, which goes by one name on both sides
      simp only [rewrite, renameTop, value]
      by_cases hop : op.isMutation = true
      · have hw : ∀ x, e = .var x → R.MayWrite x := by
          rintro x rfl
          exact h.head.assigned x (by simp [Node.assigned?, hop])
            (h.tail.head.used x rfl)
        rw [if_pos hop, if_pos hop]
        refine (place_matches e h.tail hw).bind_of_ok fun p _ _ hp => ?_
        have hplace := reads_of_place h.tail hw hp
        exact (Place.read_matches hplace).bind fun _ =>
            (Matches.perform R.alike _ _).bind fun _ =>
          (Place.write_matches hplace _).bind fun _ => .pure _
      · rw [if_neg hop, if_neg hop]
        exact (value_matches e h.tail).bind fun _ => .perform R.alike _ _
  | .binary op l r, h => by
      have hl := value_matches l h.tail.append_exprs.1
      have hr := value_matches r h.tail.append_exprs.2
      cases op with
      | and => exact hl.bind fun _ =>
          (Matches.test _).bind fun _ => .ite hr (.pure _)
      | or => exact hl.bind fun _ => (Matches.test _).bind fun _ =>
          .ite (.pure _) hr
      | _ => exact hl.bind fun _ => hr.bind fun _ => .perform R.alike _ _
  | .assign op t e, h => by
      obtain ⟨ht, he⟩ := h.tail.append_exprs
      have hw : ∀ x, t = .var x → R.MayWrite x := by
        rintro x rfl
        exact h.head.assigned x rfl (ht.head.used x rfl)
      have hplace := place_matches t ht hw
      cases op with
      | none =>
          exact hplace.bind_of_ok fun p _ _ hp =>
              (value_matches e he).bind fun _ =>
            (Place.write_matches (reads_of_place ht hw hp) _).bind fun _ =>
              .pure _
      | some op =>
          refine hplace.bind_of_ok fun p _ _ hp => ?_
          have hp := reads_of_place ht hw hp
          exact (Place.read_matches hp).bind fun _ =>
              (value_matches e he).bind fun _ =>
            (Matches.perform R.alike _ _).bind fun _ =>
                (Place.write_matches hp _).bind fun _ =>
              .pure _
  | .conditional c a b, h => by
      obtain ⟨hca, hb⟩ := h.tail.append_exprs
      exact (value_matches c hca.append_exprs.1).bind fun _ =>
          (Matches.test _).bind fun _ =>
        .ite (value_matches a hca.append_exprs.2) (value_matches b hb)

theorem place_matches :
    ∀ e : Expr, R.AllowsAll e.nodes → (∀ x, e = .var x → R.MayWrite x) →
    Matches R.Relates (place M e) (place M (e.rewrite (renameTop R.var)))
  | .var x, _, hw => by
      rw [rewrite, renameTop, R.var_of_mayWrite (hw x rfl)]
      exact .pure _
  | .field t f, h, _ => (object_matches t h.tail).bind fun _ => .pure _
  | .literal _, _, _ | .self _, _, _ | .super, _, _ | .call _ _ _, _,
      _ | .new _ _, _, _
  | .unary _ _, _, _ | .binary _ _ _, _, _ | .assign _ _ _, _,
      _ | .conditional _ _ _, _, _ =>
      .stuck

theorem object_matches :
    ∀ t : Option Expr, R.AllowsAll ((subtermsOfTarget t).map Node.expr) →
    Matches R.Relates (object M t)
      (object M (rewriteTarget (renameTop R.var) t))
  | none, _ => .perform R.alike _ _
  | some t, h => value_matches t h

theorem values_matches :
    ∀ es : List Expr, R.AllowsAll ((subtermsOfAll es).map Node.expr) →
    Matches R.Relates (values M es)
      (values M (rewriteAll (renameTop R.var) es))
  | [], _ => .pure _
  | e :: es, h => (value_matches e h.append_exprs.1).bind fun _ =>
      (values_matches es h.append_exprs.2).bind fun _ => .pure _

end

end Expr

namespace Stmt

open Stagewise.Expr (renameTop)

theorem value?_matches {e : Option Expr} (h : R.AllowsAll (Expr.nodesOf? e)) :
    Matches R.Relates (Expr.value? M e)
      (Expr.value? M (e.map (Expr.rewrite (renameTop R.var)))) := by
  cases e with
  | none => exact .pure _
  | some e => exact (Expr.value_matches e h).bind fun _ => .pure _

theorem values_matches :
    ∀ es : List Expr, R.AllowsAll (es.flatMap Expr.nodes) →
    Matches R.Relates (Expr.values M es)
      (Expr.values M (es.map (Expr.rewrite (renameTop R.var))))
  | [], _ => .pure _
  | e :: es, h => by
      obtain ⟨he, hes⟩ := Renaming.AllowsAll.append (List.flatMap_cons ▸ h)
      exact (Expr.value_matches e he).bind fun _ =>
        (values_matches es hes).bind fun _ => .pure _

theorem holds_matches {e : Expr} (h : R.AllowsAll e.nodes) :
    Matches R.Relates (holds M e) (holds M (e.rewrite (renameTop R.var))) :=
  (Expr.value_matches e h).bind fun v => .test v

mutual

theorem run_matches : ∀ s : Stmt, R.AllowsAll s.nodes →
    Matches R.Relates (run M s) (run M (s.rewrite (renameTop R.var)))
  | .expr e, h => (Expr.value_matches e h.tail).bind fun _ => .pure _
  | .declare _ x init, h => (value?_matches h.tail).bind fun v =>
      (Matches.change fun _ _ hR => hR.declare (h.head.declared x rfl) v).bind
        fun _ => .pure _
  | .branch cond yes no, h => by
      obtain ⟨hbefore, hno⟩ := h.tail.append
      obtain ⟨hcond, hyes⟩ := hbefore.append
      exact (holds_matches hcond).bind fun _ =>
        .ite ((runAll_matches yes hyes.tail).inScope R.alike)
          (runBlock?_matches no hno)
  | .loop cond body, h => by
      obtain ⟨hcond, hbody⟩ := h.tail.append
      exact (holds_matches hcond).rounds
        ((runAll_matches body hbody.tail).inScope R.alike)
  | .ret value, h => (value?_matches h.tail).bind fun _ => .pure _
  | .check cond message, h => by
      obtain ⟨hcond, hmessage⟩ := h.tail.append
      exact (holds_matches hcond).bind fun _ => .ite (.pure _) <|
        (value?_matches hmessage).bind fun _ =>
            (Matches.perform R.alike _ _).bind fun _ =>
          .throw _
  | .throw e, h => (Expr.value_matches e h.tail).bind fun _ => .throw _
  | .superConstructor args, h => (values_matches args h.tail).bind fun _ =>
      (Matches.perform R.alike _ _).bind fun _ => .pure _
  | .block body, h => (runAll_matches body h.tail.tail).inScope R.alike

theorem runBlock?_matches :
    ∀ b : Option (List Stmt), R.AllowsAll (nodesOfBlock? b) →
    Matches R.Relates (runBlock? M b)
      (runBlock? M (rewriteBlock? (renameTop R.var) b))
  | none, _ => .pure _
  | some b, h => (runAll_matches b h.tail).inScope R.alike

theorem runAll_matches : ∀ ss : List Stmt, R.AllowsAll (nodesOfAll ss) →
    Matches R.Relates (runAll M ss)
      (runAll M (rewriteAll (renameTop R.var) ss))
  | [], _ => .pure _
  | s :: ss, h => by
      obtain ⟨hs, hss⟩ := h.append
      refine (run_matches s hs).bind fun w => ?_
      cases w with
      | next => exact runAll_matches ss hss
      | returned v => exact .pure _

end

end Stmt

/-- Renamed code does what the code does, if the renaming allows all of it. -/
theorem Block.run_matches {b : Block} (h : R.AllowsAll b.nodes) :
    Matches R.Relates (b.run M) ((b.rewrite (Expr.renameTop R.var)).run M) :=
  Stmt.runAll_matches b h.tail

-- ============================================================ outer locals

/-- To run a block on some locals in the place of others. -/
def Renaming.between {V : Type} (b : Block) (ρ : String → String)
    (l l' : Locals V) :
    Renaming V where
  var := ρ
  MayRead x := x ∈ b.used ∧ (ρ x = x ∨ x ∉ b.declared ∧ ρ x ∉ b.declared)
    ∧ (l.lookup x).join = (l'.lookup (ρ x)).join
  MayWrite x := ρ x = x ∧ x ∉ l.map Prod.fst ∧ x ∉ l'.map Prod.fst
  MayDeclare x := x ∈ b.declared
  Outer k k' := k = l ∧ k' = l'
  length_eq := by
    rintro _ _ _ _ ⟨rfl, rfl⟩ ⟨rfl, rfl⟩
    exact ⟨rfl, rfl⟩
  hides h := h.2.1
  lookup := by
    rintro x _ _ h ⟨rfl, rfl⟩
    exact h.2.2
  var_of_mayWrite h := h.1
  assign := by
    rintro x _ _ v ⟨-, hl, hl'⟩ ⟨rfl, rfl⟩
    exact ⟨Locals.assign_eq_self hl, Locals.assign_eq_self hl'⟩


namespace Machine.State

/-- The state with more locals on the inside. -/
def push (σ : M.State) (inner : Locals M.Value) : M.State :=
  { σ with locals := inner ++ σ.locals }

theorem keepLocals_push (σ : M.State) (inner : Locals M.Value) :
    (σ.push inner).keepLocals σ.locals.length = σ := by
  unfold keepLocals push
  rw [List.length_append, Nat.add_sub_cancel, List.drop_left]

end Machine.State

/-- To run on top of some more locals without naming them. -/
def Renaming.onTopOf {V : Type} (inner : Locals V) (count : Nat) :
    Renaming V where
  var := id
  MayRead x := x ∉ inner.map Prod.fst
  MayWrite x := x ∉ inner.map Prod.fst
  MayDeclare _ := True
  Outer l l' := l' = inner ++ l ∧ l.length = count
  length_eq := by
    rintro l _ k _ ⟨rfl, hl⟩ ⟨rfl, hk⟩
    simp [hl, hk]
  hides _ := Or.inl rfl
  lookup := by
    rintro x l _ hx ⟨rfl, -⟩
    rw [List.lookup_append, id, Locals.lookup_eq_none hx, Option.none_or]
  var_of_mayWrite _ := rfl
  assign := by
    rintro x l _ v hx ⟨rfl, hl⟩
    have hlength := congrArg List.length (Locals.names_assign x v l)
    rw [List.length_map, List.length_map] at hlength
    exact ⟨by rw [Locals.assign_append, if_neg hx], hlength.trans hl⟩

theorem Renaming.onTopOf_allows {inner : Locals M.Value}
    {count : Nat} {b : Block}
    (h : ∀ x ∈ inner.map Prod.fst, b.namesLocal x = false) :
    (Renaming.onTopOf inner count).AllowsAll b.nodes := fun n hn =>
  { used := fun x hx hmem => by
      have hnames : n.namesLocal x = true := by
        unfold Node.used? at hx
        split at hx <;> simp_all [Node.namesLocal]
      exact Bool.false_ne_true
        ((h x hmem).symm.trans (List.any_eq_true.2 ⟨n, hn, hnames⟩))
    assigned := fun _ _ => id
    declared := fun _ _ => trivial }

theorem Block.rewrite_renameTop_id (b : Block) :
    b.rewrite (Expr.renameTop id) = b :=
  Block.rewrite_eq_self fun e _ => by cases e <;> rfl

/-- Code does the same on top of more locals, if it names none of them. -/
theorem Block.run_onTopOf {inner : Locals M.Value} {b : Block}
    (h : ∀ x ∈ inner.map Prod.fst, b.namesLocal x = false) (count : Nat) :
    Matches (Renaming.onTopOf inner count).Relates (b.run M) (b.run M) := by
  have hallows : (Renaming.onTopOf inner count).AllowsAll b.nodes :=
    Renaming.onTopOf_allows h
  have hmatches := Block.run_matches hallows
  rwa [show (Renaming.onTopOf inner count).var = id from rfl,
    b.rewrite_renameTop_id] at hmatches

end Stagewise
