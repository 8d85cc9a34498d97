/-
Code that is evaluated a second time.

# Repetition

One operation repeats another one, or itself, if it answers to the same
operands what the other one answered before, and nothing else
(`Machine.Repeats`). What may happen to the memory in between is left to two
kinds of memories: those before, and those in which the second one is asked.
Computations repeat each other likewise, and how they are composed does not
matter to that (`Computation.Repeats`).

# Expressions

An expression repeats its value if every operation does that its value comes
from (`Expr.operations`). The first time it may also have been rewritten, so
that some of its reads and calls are calls of other methods (`Redirection`).
Then it is these that are to be repeated (`value_repeats`).
-/
import Stagewise.Proofs.Program.Execution
import Stagewise.Proofs.Program.Rewrite

namespace Stagewise

variable {M : Machine}

-- ================================================================ operations

namespace Machine

variable {P Q : M.Memory → Prop}

/-- That an operation gives one answer and nothing else, and leaves a memory of
a kind. -/
structure Gives (Q : M.Memory → Prop) (op : Operation) (vs : List M.Value)
    (μ : M.Memory) (v : M.Value) : Prop where
  answers : ∃ μ', M.performs op vs μ (.ok v) μ'
  only : ∀ r μ', M.performs op vs μ r μ' → r = .ok v ∧ Q μ'

/-- That an operation gives one answer in all memories of a kind. -/
def Settles (Q : M.Memory → Prop) (op : Operation) (vs : List M.Value)
    (v : M.Value) : Prop :=
  ∀ ν, Q ν → Gives Q op vs ν v

/-- That where one operation has answered in a memory of the kind `P`, another
one gives the same answer in all memories of the kind `Q`. -/
def Repeats (P Q : M.Memory → Prop) (op op' : Operation) : Prop :=
  ∀ vs v μ μ', P μ → M.performs op vs μ (.ok v) μ' → P μ' ∧ Settles Q op' vs v

/-- A state without local variables, with a memory of a kind. -/
structure Bare (P : M.Memory → Prop) (σ : M.State) : Prop where
  locals : σ.locals = []
  memory : P σ.memory

end Machine

open Machine (Bare)

-- ============================================================== computations

namespace Computation

variable {α β : Type} {P Q : M.State → Prop} {c c' : Computation M α}
variable {a : α} {b : β}
variable {σ : M.State}

/-- That a computation gives one answer and nothing else, and leaves a state of
a kind. -/
structure Gives (Q : M.State → Prop) (c : Computation M α) (σ : M.State)
    (a : α) : Prop where
  answers : ∃ τ, c σ (.ok a) τ
  only : ∀ r τ, c σ r τ → r = .ok a ∧ Q τ

namespace Gives

theorem pure (h : Q σ) : Gives Q (pure a : Computation M α) σ a where
  answers := ⟨σ, rfl, rfl⟩
  only r τ hr := by
    obtain ⟨rfl, rfl⟩ := hr
    exact ⟨rfl, h⟩

theorem bind {d : α → Computation M β} (h : Gives Q c σ a)
    (hd : ∀ τ, Q τ → Gives Q (d a) τ b) : Gives Q (c >>= d) σ b where
  answers := by
    obtain ⟨ρ, hc⟩ := h.answers
    obtain ⟨τ, hr⟩ := (hd ρ (h.only _ ρ hc).2).answers
    exact ⟨τ, bind_ok_iff.2 ⟨a, ρ, hc, hr⟩⟩
  only r τ hr := by
    rcases hr with ⟨a', ρ, hc, hr⟩ | ⟨e, hc, -⟩
    · obtain ⟨ha, hρ⟩ := h.only _ ρ hc
      cases ha
      exact (hd ρ hρ).only r τ hr
    · cases (h.only _ τ hc).1

theorem change {f : M.State → M.State} (h : Q (f σ)) :
    Gives Q (change f) σ () where
  answers := ⟨f σ, rfl, rfl⟩
  only r τ hr := by
    obtain ⟨rfl, rfl⟩ := hr
    exact ⟨rfl, h⟩

theorem test {v : M.Value} {t : Bool} (hv : M.truth v = some t) (h : Q σ) :
    Gives Q (test v) σ t where
  answers := ⟨σ, t, hv, rfl, rfl⟩
  only r τ hr := by
    obtain ⟨t', ht, rfl, rfl⟩ := hr
    obtain rfl := Option.some.inj (hv.symm.trans ht)
    exact ⟨rfl, h⟩

theorem perform {Q : M.Memory → Prop} {op : Operation} {vs : List M.Value}
    {v : M.Value} (h : Machine.Gives Q op vs σ.memory v) (hσ : σ.locals = []) :
    Gives (Bare Q) (perform op vs) σ v where
  answers := by
    obtain ⟨μ, hμ⟩ := h.answers
    exact ⟨_, μ, hμ, rfl⟩
  only r τ hr := by
    obtain ⟨μ, hμ, rfl⟩ := hr
    obtain ⟨rfl, hQ⟩ := h.only r μ hμ
    exact ⟨rfl, hσ, hQ⟩

end Gives

/-- That where one computation has answered from a state of the kind `P`,
another one gives the same answer from all states of the kind `Q`. -/
def Repeats (P Q : M.State → Prop) (c c' : Computation M α) : Prop :=
  ∀ σ a τ, P σ → c σ (.ok a) τ → P τ ∧ ∀ ρ, Q ρ → Gives Q c' ρ a

namespace Repeats

theorem pure (a : α) : Repeats P Q (pure a) (pure a) := by
  intro σ b τ hσ hr
  obtain ⟨hb, rfl⟩ := hr
  cases hb
  exact ⟨hσ, fun _ => .pure⟩

/-- What does not answer need not be repeated. -/
theorem of_silent (h : ∀ σ a τ, P σ → ¬ c σ (.ok a) τ) : Repeats P Q c c' :=
  fun σ a τ hσ hr => absurd hr (h σ a τ hσ)

theorem bind_of_ok {d d' : α → Computation M β} (hc : Repeats P Q c c')
    (hd : ∀ a σ τ, c σ (.ok a) τ → Repeats P Q (d a) (d' a)) :
    Repeats P Q (c >>= d) (c' >>= d') := by
  intro σ b τ hσ hr
  obtain ⟨a, υ, ha, hb⟩ := bind_ok_iff.1 hr
  obtain ⟨hυ, hagain⟩ := hc σ a υ hσ ha
  obtain ⟨hτ, hagain'⟩ := hd a σ υ ha υ b τ hυ hb
  exact ⟨hτ, fun ρ hρ => (hagain ρ hρ).bind hagain'⟩

theorem bind {d d' : α → Computation M β} (hc : Repeats P Q c c')
    (hd : ∀ a, Repeats P Q (d a) (d' a)) : Repeats P Q (c >>= d) (c' >>= d') :=
  hc.bind_of_ok fun a _ _ _ => hd a

theorem ite {p : Prop} [Decidable p] {d d' : Computation M α}
    (hc : Repeats P Q c c')
    (hd : Repeats P Q d d') :
    Repeats P Q (if p then c else d) (if p then c' else d') := by
  split
  · exact hc
  · exact hd

theorem test (v : M.Value) : Repeats P Q (test v) (test v) := by
  intro σ t τ hσ hr
  obtain ⟨t', ht, hanswer, rfl⟩ := hr
  cases hanswer
  exact ⟨hσ, fun ρ hρ => .test ht hρ⟩

theorem change {f g : M.State → M.State} (hf : ∀ σ, P σ → P (f σ))
    (hg : ∀ σ, Q σ → Q (g σ)) :
    Repeats P Q (change f) (change g) := by
  intro σ u τ hσ hr
  obtain ⟨-, rfl⟩ := hr
  exact ⟨hf σ hσ, fun ρ hρ => .change (hg ρ hρ)⟩

theorem perform {P Q : M.Memory → Prop} {op op' : Operation}
    (h : Machine.Repeats P Q op op')
    (vs : List M.Value) :
    Repeats (Bare P) (Bare Q) (perform op vs) (perform op' vs) := by
  intro σ v τ hσ hr
  obtain ⟨μ, hμ, rfl⟩ := hr
  obtain ⟨hP, hagain⟩ := h vs v σ.memory μ hσ.memory hμ
  exact ⟨⟨hσ.locals, hP⟩,
    fun ρ hρ => .perform (hagain ρ.memory hρ.memory) hρ.locals⟩

/-- Without local variables none is read. -/
theorem inspect_local {P : M.Memory → Prop} {c' : Computation M M.Value}
    (x : String) :
    Repeats (Bare P) Q (inspect (·.local? x)) c' := by
  refine .of_silent fun σ v τ hσ hr => ?_
  obtain ⟨w, hw, -, -⟩ := hr
  have hnone : σ.local? x = none := by
    unfold Machine.State.local?
    rw [hσ.locals]
    rfl
  cases hnone.symm.trans hw

theorem recordCall {P Q : M.Memory → Prop} (m m' : MethodRef) :
    Repeats (M := M) (Bare P) (Bare Q) (Computation.change (·.recordCall m))
      (Computation.change (·.recordCall m')) :=
  .change (fun _ h => ⟨h.locals, h.memory⟩) fun _ h => ⟨h.locals, h.memory⟩

/-- To call a method without arguments in the place of an operation. -/
theorem call_of_operation {P Q : M.Memory → Prop} {m : MethodRef}
    {op : Operation} (h : Machine.Repeats P Q (.call m) op) (o : M.Value) :
    Repeats (Bare P) (Bare Q)
      (do
        let vs ← Expr.values M []
        Computation.change (·.recordCall m)
        Computation.perform (.call m) (o :: vs))
      (Computation.perform op [o]) := by
  intro σ v τ hσ hr
  obtain ⟨vs, ρ, ⟨hvs, hρ⟩, hr⟩ := bind_ok_iff.1 hr
  obtain ⟨_, υ, ⟨-, hυ⟩, hr⟩ := bind_ok_iff.1 hr
  cases hvs
  have hσ' : Bare P υ := by
    rw [hυ, hρ]
    exact ⟨hσ.locals, hσ.memory⟩
  exact Repeats.perform h [o] _ v τ hσ' hr

end Repeats

end Computation

-- ====================================================== what values come from

namespace Expr

/-- The read of what is written to. -/
def readBack : Expr → List Operation
  | .field _ f => [.read f]
  | _ => []

/-- The write to what is written to. -/
def writing : Expr → List Operation
  | .field _ f => [.write f]
  | _ => []

mutual

/-- The operations that the value of an expression comes from. -/
def operations : Expr → List Operation
  | .literal v => [.literal v]
  | .self q => [.self q]
  | .super => [.super]
  | .var _ => []
  | .field t f => operationsOfTarget t ++ [.read f]
  | .call t m args => operationsOfTarget t ++ operationsOfAll args ++ [.call m]
  | .new type args => operationsOfAll args ++ [.new type]
  | .unary op e =>
      if op.isMutation then operationsOfPlace e ++ e.readBack ++ [.unary op]
        ++ e.writing
      else operations e ++ [.unary op]
  | .binary op l r => operations l ++ operations r ++ [.binary op]
  | .assign none t e => operationsOfPlace t ++ operations e ++ t.writing
  | .assign (some op) t e =>
      operationsOfPlace t ++ t.readBack ++ operations e ++ [.binary op]
        ++ t.writing
  | .conditional c a b => operations c ++ operations a ++ operations b

/-- The operations that tell which object is written to. -/
def operationsOfPlace : Expr → List Operation
  | .field t _ => operationsOfTarget t
  | _ => []

/-- The operations that tell which object a member is reached through. -/
def operationsOfTarget : Option Expr → List Operation
  | none => [.self none]
  | some t => operations t

def operationsOfAll : List Expr → List Operation
  | [] => []
  | e :: es => operations e ++ operationsOfAll es

end

/-- Whether an expression reads a field or calls a method at its top. -/
def isAccess : Expr → Bool
  | .field _ _ | .call _ _ _ => true
  | _ => false

end Expr

/-- Whether an operation reads a field or calls a method. -/
def Operation.isAccess : Operation → Bool
  | .read _ | .call _ => true
  | _ => false

/-- What rewrites expressions by calling other methods in the place of what is
read or called at their top. -/
structure Redirection where
  expr : Expr → Expr
  /-- What is done in the place of an operation. -/
  operation : Operation → Operation
  field (t : Option Expr) (f : FieldRef) :
    (expr (.field t f) = .field t f ∧ operation (.read f) = .read f)
      ∨ ∃ m, expr (.field t f) = .call t m [] ∧ operation (.read f) = .call m
  call (t : Option Expr) (m : MethodRef) (args : List Expr) :
    ∃ m', expr (.call t m args) = .call t m' args
      ∧ operation (.call m) = .call m'
  expr_of_not_access {e : Expr} : e.isAccess = false → expr e = e
  operation_of_not_access {op : Operation} : op.isAccess = false →
    operation op = op

namespace Redirection

variable {g : Redirection}

/-- To leave expressions as they are. -/
def none : Redirection where
  expr e := e
  operation op := op
  field _ _ := .inl ⟨rfl, rfl⟩
  call _ m _ := ⟨m, rfl, rfl⟩
  expr_of_not_access _ := rfl
  operation_of_not_access _ := rfl

theorem rewrite_none (e : Expr) : e.rewrite none.expr = e :=
  Expr.rewrite_eq_self e fun _ _ => rfl

/-- What is not redirected repeats itself. -/
theorem repeats_of_not_access {P Q : M.Memory → Prop} {op : Operation}
    (h : ∀ op' ∈ [op], Machine.Repeats P Q (g.operation op') op')
    (hop : op.isAccess = false) :
    Machine.Repeats P Q op op := by
  have hrepeats := h op (List.mem_singleton_self op)
  rwa [g.operation_of_not_access hop] at hrepeats

end Redirection

-- ============================================================== second values

section

open Stagewise.Computation

variable {P Q : M.Memory → Prop} {g : Redirection}

namespace Place

/-- A field is read again as the read is repeated. -/
theorem read_repeats {p : Place M.Value}
    (h : ∀ o f, p = .field o f → Machine.Repeats P Q (.read f) (.read f)) :
    Repeats (Bare P) (Bare Q) p.read p.read := by
  cases p with
  | var x => exact .inspect_local x
  | field o f => exact .perform (h o f rfl) [o]

/-- Without local variables only fields are written to. -/
theorem write_repeats {p : Place M.Value} (v : M.Value)
    (h : ∀ o f, p = .field o f → Machine.Repeats P Q (.write f) (.write f)) :
    Repeats (Bare P) (Bare Q) (p.write v) (p.write v) := by
  cases p with
  | var x =>
      have hbare : ∀ {R : M.Memory → Prop} σ, Bare R σ →
          Bare R (σ.assign x v) := by
        intro R σ hσ
        refine ⟨?_, hσ.memory⟩
        show σ.locals.assign x v = []
        rw [hσ.locals]
        rfl
      exact .change hbare hbare
  | field o f =>
      exact (Repeats.perform (h o f rfl) [o, v]).bind fun _ => .pure ()

end Place

namespace Expr

variable {e : Expr} {p : Place M.Value} {σ τ : M.State}

/-- A field that is still written to after a redirection is that of the
expression, whose reads have not been redirected. -/
theorem field_of_place {o : M.Value} {f : FieldRef}
    (hp : place M (e.rewrite g.expr) σ (.ok p) τ) (hf : p = .field o f) :
    (∃ t, e = .field t f) ∧ g.operation (.read f) = .read f := by
  subst hf
  have hother : e.isAccess = false →
      place M (g.expr (e.mapParts (rewrite g.expr))) σ
      (.ok (.field o f)) τ → False := by
    intro haccess hplace
    have hparts : (e.mapParts (rewrite g.expr)).isAccess = false := by
      rw [← haccess]
      cases e <;> rfl
    rw [g.expr_of_not_access hparts] at hplace
    cases e with
    | var x =>
        obtain ⟨hanswer, -⟩ := hplace
        cases hanswer
    | field | call => cases haccess
    | _ => exact hplace
  rw [rewrite_eq] at hp
  cases e with
  | field t f' =>
      rw [mapParts] at hp
      rcases g.field (t.map (rewrite g.expr)) f' with ⟨hexpr, hoperation⟩
        | ⟨m, hexpr, -⟩
      · rw [hexpr] at hp
        obtain ⟨o', ρ, -, hanswer, -⟩ := bind_ok_iff.1 hp
        cases hanswer
        exact ⟨⟨t, rfl⟩, hoperation⟩
      · rw [hexpr] at hp
        exact hp.elim
  | call t m args =>
      rw [mapParts] at hp
      obtain ⟨m', hexpr, -⟩ :=
        g.call (t.map (rewrite g.expr)) m (args.map (rewrite g.expr))
      rw [hexpr] at hp
      exact hp.elim
  | _ => exact (hother rfl hp).elim

/-- What is written to is read again as the expression is. -/
theorem read_repeats (hp : place M (e.rewrite g.expr) σ (.ok p) τ)
    (h : ∀ op ∈ e.readBack, Machine.Repeats P Q (g.operation op) op) :
    Repeats (Bare P) (Bare Q) p.read p.read := by
  refine Place.read_repeats fun o f hf => ?_
  obtain ⟨⟨t, rfl⟩, hread⟩ := field_of_place hp hf
  have hrepeats := h (.read f) (List.mem_singleton_self _)
  rwa [hread] at hrepeats

theorem write_repeats (hp : place M (e.rewrite g.expr) σ (.ok p) τ)
    (v : M.Value)
    (h : ∀ op ∈ e.writing, Machine.Repeats P Q (g.operation op) op) :
    Repeats (Bare P) (Bare Q) (p.write v) (p.write v) := by
  refine Place.write_repeats v fun o f hf => ?_
  obtain ⟨⟨t, rfl⟩, -⟩ := field_of_place hp hf
  exact g.repeats_of_not_access h rfl

mutual

/-- An expression has its value again where the operations repeat, if those of
the redirected expression are the ones to be repeated. -/
theorem value_repeats : ∀ e : Expr,
    (∀ op ∈ e.operations, Machine.Repeats P Q (g.operation op) op) →
      Repeats (Bare P) (Bare Q) ((e.rewrite g.expr).value M) (e.value M)
  | .literal _, h | .self _, h | .super, h => by
      rw [rewrite, g.expr_of_not_access rfl]
      exact .perform (g.repeats_of_not_access h rfl) []
  | .var x, _ => by
      rw [rewrite, g.expr_of_not_access rfl]
      exact .inspect_local x
  | .field t f, h => by
      obtain ⟨ht, hread⟩ := List.forall_mem_append.1 h
      have ho := object_repeats t ht
      have hop := hread _ (List.mem_singleton_self _)
      rw [rewrite]
      rcases g.field (rewriteTarget g.expr t) f with ⟨hexpr, hoperation⟩
        | ⟨m, hexpr, hoperation⟩
      · rw [hexpr]
        rw [hoperation] at hop
        exact ho.bind fun o => .perform hop [o]
      · rw [hexpr]
        rw [hoperation] at hop
        exact ho.bind fun o => .call_of_operation hop o
  | .call t m args, h => by
      rw [operations, List.forall_mem_append, List.forall_mem_append] at h
      obtain ⟨⟨ht, hargs⟩, hcall⟩ := h
      have hop := hcall _ (List.mem_singleton_self _)
      obtain ⟨m', hexpr, hoperation⟩ :=
        g.call (rewriteTarget g.expr t) m (rewriteAll g.expr args)
      rw [hoperation] at hop
      rw [rewrite, hexpr]
      exact (object_repeats t ht).bind fun o => (values_repeats args
          hargs).bind fun vs =>
        (Repeats.recordCall m' m).bind fun _ => .perform hop (o :: vs)
  | .new type args, h => by
      obtain ⟨hargs, hnew⟩ := List.forall_mem_append.1 h
      have hop := g.repeats_of_not_access hnew rfl
      rw [rewrite, g.expr_of_not_access rfl]
      exact (values_repeats args hargs).bind fun vs => .perform hop vs
  | .unary op e, h => by
      rw [rewrite, g.expr_of_not_access rfl, value, value]
      rw [operations] at h
      by_cases hop : op.isMutation = true
      · rw [if_pos hop, if_pos hop]
        rw [if_pos hop, List.forall_mem_append, List.forall_mem_append,
          List.forall_mem_append] at h
        obtain ⟨⟨⟨hplace, hread⟩, hunary⟩, hwrite⟩ := h
        have hunary := g.repeats_of_not_access hunary rfl
        exact (place_repeats e hplace).bind_of_ok fun p _ _ hp => (read_repeats
          hp hread).bind
          fun old => (Repeats.perform hunary [old]).bind fun new =>
            (write_repeats hp new hwrite).bind fun _ => .pure _
      · rw [if_neg hop, if_neg hop]
        rw [if_neg hop, List.forall_mem_append] at h
        obtain ⟨he, hunary⟩ := h
        have hunary := g.repeats_of_not_access hunary rfl
        exact (value_repeats e he).bind fun v => .perform hunary [v]
  | .binary op l r, h => by
      rw [operations, List.forall_mem_append, List.forall_mem_append] at h
      obtain ⟨⟨hl, hr⟩, hbinary⟩ := h
      have hop := g.repeats_of_not_access hbinary rfl
      rw [rewrite, g.expr_of_not_access rfl]
      have hleft := value_repeats l hl
      have hright := value_repeats r hr
      cases op with
      | and => exact hleft.bind fun v =>
          (Repeats.test v).bind fun _ => .ite hright (.pure v)
      | or => exact hleft.bind fun v => (Repeats.test v).bind fun _ =>
          .ite (.pure v) hright
      | _ => exact hleft.bind fun v => hright.bind fun w => .perform hop [v, w]
  | .assign none t e, h => by
      rw [operations, List.forall_mem_append, List.forall_mem_append] at h
      obtain ⟨⟨hplace, he⟩, hwrite⟩ := h
      rw [rewrite, g.expr_of_not_access rfl]
      exact (place_repeats t hplace).bind_of_ok fun p _ _ hp =>
        (value_repeats e he).bind
        fun v => (write_repeats hp v hwrite).bind fun _ => .pure v
  | .assign (some op) t e, h => by
      rw [operations, List.forall_mem_append, List.forall_mem_append,
        List.forall_mem_append, List.forall_mem_append] at h
      obtain ⟨⟨⟨⟨hplace, hread⟩, he⟩, hbinary⟩, hwrite⟩ := h
      have hop := g.repeats_of_not_access hbinary rfl
      rw [rewrite, g.expr_of_not_access rfl]
      exact (place_repeats t hplace).bind_of_ok fun p _ _ hp =>
        (read_repeats hp hread).bind
        fun old => (value_repeats e he).bind fun v =>
          (Repeats.perform hop [old, v]).bind
          fun new => (write_repeats hp new hwrite).bind fun _ => .pure new
  | .conditional c a b, h => by
      rw [operations, List.forall_mem_append, List.forall_mem_append] at h
      obtain ⟨⟨hc, ha⟩, hb⟩ := h
      rw [rewrite, g.expr_of_not_access rfl]
      exact (value_repeats c hc).bind fun v => (Repeats.test v).bind fun _ =>
        .ite (value_repeats a ha) (value_repeats b hb)

/-- What is written to is found again. -/
theorem place_repeats : ∀ e : Expr,
    (∀ op ∈ e.operationsOfPlace, Machine.Repeats P Q (g.operation op) op) →
      Repeats (Bare P) (Bare Q) (place M (e.rewrite g.expr)) (place M e)
  | .var x, _ => by
      rw [rewrite, g.expr_of_not_access rfl]
      exact .pure _
  | .field t f, h => by
      rw [rewrite]
      rcases g.field (rewriteTarget g.expr t) f with ⟨hexpr, -⟩ | ⟨m, hexpr, -⟩
      · rw [hexpr]
        exact (object_repeats t h).bind fun o => .pure _
      · -- nothing is assigned to a call
        rw [hexpr]
        exact .of_silent fun _ _ _ _ hr => hr
  | .call t m args, _ => by
      obtain ⟨m', hexpr, -⟩ :=
        g.call (rewriteTarget g.expr t) m (rewriteAll g.expr args)
      rw [rewrite, hexpr]
      exact .of_silent fun _ _ _ _ hr => hr
  | .literal _, _ | .self _, _ | .super, _ | .new _ _, _ | .unary _ _,
      _ | .binary _ _ _, _
  | .assign _ _ _, _ | .conditional _ _ _, _ => by
      rw [rewrite, g.expr_of_not_access rfl]
      exact .of_silent fun _ _ _ _ hr => hr

theorem object_repeats : ∀ t : Option Expr,
    (∀ op ∈ operationsOfTarget t, Machine.Repeats P Q (g.operation op) op) →
      Repeats (Bare P) (Bare Q) (object M (rewriteTarget g.expr t))
        (object M t)
  | none, h => .perform (g.repeats_of_not_access h rfl) []
  | some e, h => value_repeats e h

theorem values_repeats : ∀ es : List Expr,
    (∀ op ∈ operationsOfAll es, Machine.Repeats P Q (g.operation op) op) →
      Repeats (Bare P) (Bare Q) (values M (rewriteAll g.expr es)) (values M es)
  | [], _ => .pure []
  | e :: es, h => by
      obtain ⟨he, hes⟩ := List.forall_mem_append.1 h
      exact (value_repeats e he).bind fun v => (values_repeats es hes).bind
        fun vs => .pure (v :: vs)

end

end Expr

end

end Stagewise
