/-
What code does not do, told from its nodes.

Code that neither uses nor declares a local variable leaves the variable as
it is (`Block.run_spares`), whatever other locals it declares on the way.
Code without a return statement does not return (`Block.run_goesOn`).

Both are shown of computations first, one lemma for each way to compose them,
and then of code along its nodes.
-/
import Stagewise.Proofs.Program.Execution

namespace Stagewise

-- ========================================== variables that code does not name

/-- Whether a node is the use or the declaration of a local variable. -/
def Node.namesLocal (x : String) : Node → Bool
  | .expr (.var y) => y == x
  | .stmt (.declare _ y _) => y == x
  | _ => false

/-- Whether a block uses or declares a local variable. -/
def Block.namesLocal (b : Block) (x : String) : Bool :=
  b.nodes.any (Node.namesLocal x)

/-- Whether a node is a return statement. -/
def Node.isReturn : Node → Bool
  | .stmt (.ret _) => true
  | _ => false

/-- Whether a block has a return statement. -/
def Block.returns (b : Block) : Bool := b.nodes.any Node.isReturn

/-- That none of some nodes is of a kind. -/
def Node.Free (p : Node → Bool) (ns : List Node) : Prop :=
  ∀ n ∈ ns, p n = false

namespace Node.Free

variable {p : Node → Bool} {n : Node} {ns ns' : List Node}

theorem append (h : Free p (ns ++ ns')) : Free p ns ∧ Free p ns' :=
  List.forall_mem_append.1 h

theorem head (h : Free p (n :: ns)) : p n = false :=
  h n (List.mem_cons_self ..)

theorem tail (h : Free p (n :: ns)) : Free p ns :=
  fun m hm => h m (List.mem_cons_of_mem n hm)

theorem of_any (h : ns.any p = false) : Free p ns := fun n hn => by
  simpa using List.any_eq_false.1 h n hn

end Node.Free

namespace Locals

variable {V : Type} {x y : String} {v : V} {l l' l'' : Locals V}

/-- That locals come from others by assignments, none of them to a variable
`x`, and by inner declarations of other variables. -/
def Spares (x : String) (l l' : Locals V) : Prop :=
  l'.lookup x = l.lookup x
    ∧ ∃ inner outer, l' = inner ++ outer ∧ outer.map Prod.fst = l.map Prod.fst
      ∧ x ∉ inner.map Prod.fst

theorem names_assign (y : String) (v : V) (l : Locals V) :
    (l.assign y v).map Prod.fst = l.map Prod.fst := by
  induction l with
  | nil => rfl
  | cons p l ih =>
      unfold assign
      split
      · rfl
      · rw [List.map_cons, List.map_cons, ih]

theorem lookup_eq_none (h : x ∉ l.map Prod.fst) : l.lookup x = none :=
  List.lookup_eq_none_iff.2 fun p hp => by
    simpa using fun he : x = p.1 => h (he ▸ List.mem_map_of_mem hp)

theorem lookup_assign_of_ne (hne : y ≠ x) (v : V) (l : Locals V) :
    (l.assign y v).lookup x = l.lookup x := by
  induction l with
  | nil => rfl
  | cons p l ih =>
      unfold assign
      split
      · rename_i hp
        rw [List.lookup_cons, List.lookup_cons, hp, beq_false_of_ne hne.symm]
      · rw [List.lookup_cons, List.lookup_cons, ih]

namespace Spares

theorem refl (l : Locals V) : Spares x l l := ⟨rfl, [], l, rfl, rfl, nofun⟩

theorem trans (h : Spares x l l') (h' : Spares x l' l'') : Spares x l l'' := by
  obtain ⟨hlookup, inner, outer, rfl, hnames, hx⟩ := h
  obtain ⟨hlookup', inner', outer', rfl, hnames', hx'⟩ := h'
  rw [List.map_append] at hnames'
  -- assignments keep the names, so these tell which locals the first part
  -- declared
  obtain ⟨a, b, rfl, ha, hb⟩ := List.map_eq_append_iff.1 hnames'
  have hinner : x ∉ (inner' ++ a).map Prod.fst := by
    rw [List.map_append, ha, List.mem_append, not_or]
    exact ⟨hx', hx⟩
  exact ⟨hlookup'.trans hlookup, inner' ++ a, b, (List.append_assoc ..).symm,
    hb.trans hnames, hinner⟩

theorem declare (hne : y ≠ x) (w : Option V) : Spares x l ((y, w) :: l) := by
  refine ⟨?_, [(y, w)], l, rfl, rfl, by simpa using hne.symm⟩
  rw [List.lookup_cons, beq_false_of_ne hne.symm]

theorem assign (hne : y ≠ x) (v : V) (l : Locals V) :
    Spares x l (l.assign y v) :=
  ⟨lookup_assign_of_ne hne v l, [], _, rfl, names_assign y v l, nofun⟩

/-- The inner declarations are given up again. -/
theorem drop (h : Spares x l l') :
    Spares x l (l'.drop (l'.length - l.length)) := by
  obtain ⟨hlookup, inner, outer, rfl, hnames, hx⟩ := h
  have hlength : outer.length = l.length := by
    simpa using congrArg List.length hnames
  have houter : (inner ++ outer).drop ((inner ++ outer).length - l.length)
      = outer := by
    rw [List.length_append, hlength, Nat.add_sub_cancel, List.drop_left]
  rw [List.lookup_append, lookup_eq_none hx, Option.none_or] at hlookup
  rw [houter]
  exact ⟨hlookup, [], outer, rfl, hnames, nofun⟩

end Spares

end Locals

namespace Computation

variable {M : Machine} {α β : Type} {x y : String} {f : M.State → M.State}

/-- That a computation leaves a local variable as it is. -/
def Spares (x : String) (c : Computation M α) : Prop :=
  ∀ σ r τ, c σ r τ → σ.locals.Spares x τ.locals

theorem spares_of_locals {c : Computation M α}
    (h : ∀ σ r τ, c σ r τ → τ.locals = σ.locals) :
    c.Spares x := fun σ r τ hc => by
  rw [h σ r τ hc]
  exact .refl _

theorem spares_pure (a : α) : (pure a : Computation M α).Spares x :=
  spares_of_locals fun _ _ _ h => h.2 ▸ rfl

theorem spares_throw (e : M.Value) : (throw e : Computation M α).Spares x :=
  spares_of_locals fun _ _ _ h => h.2 ▸ rfl

theorem spares_inspect (f : M.State → Option α) : (inspect f).Spares x :=
  spares_of_locals fun _ _ _ ⟨_, _, _, h⟩ => h ▸ rfl

theorem spares_perform (op : Operation) (vs : List M.Value) :
    (perform op vs).Spares x :=
  spares_of_locals fun _ _ _ ⟨_, _, h⟩ => h ▸ rfl

theorem spares_change (h : ∀ σ : M.State, σ.locals.Spares x (f σ).locals) :
    (change f).Spares x := fun σ _ _ hc => hc.2 ▸ h σ

theorem Spares.bind_of_ok {c : Computation M α} {d : α → Computation M β}
    (hc : c.Spares x)
    (hd : ∀ a σ ρ, c σ (.ok a) ρ → (d a).Spares x) : (c >>= d).Spares x := by
  rintro σ r τ (⟨a, ρ, h, h'⟩ | ⟨e, h, -⟩)
  · exact (hc σ _ ρ h).trans (hd a σ ρ h ρ r τ h')
  · exact hc σ _ τ h

theorem Spares.bind {c : Computation M α} {d : α → Computation M β}
    (hc : c.Spares x)
    (hd : ∀ a, (d a).Spares x) :
    (c >>= d).Spares x := hc.bind_of_ok fun a _ _ _ => hd a

theorem Spares.ite {p : Prop} [Decidable p] {c d : Computation M α}
    (hc : c.Spares x) (hd : d.Spares x) : (if p then c else d).Spares x := by
  split
  · exact hc
  · exact hd

theorem Spares.inScope {c : Computation M α} (hc : c.Spares x) :
    (inScope c).Spares x := by
  rintro σ r τ ⟨ρ, h, rfl⟩
  exact (hc σ r ρ h).drop

theorem Spares.rounds {cond : Computation M Bool}
    {body : Computation M (Flow M.Value)}
    (hcond : cond.Spares x) (hbody : body.Spares x) :
    (Rounds cond body).Spares x := by
  intro σ r τ h
  induction h with
  | done h | fails h => exact hcond _ _ _ h
  | leaves h h' | throws h h' => exact (hcond _ _ _ h).trans (hbody _ _ _ h')
  | again h h' _ ih => exact ((hcond _ _ _ h).trans (hbody _ _ _ h')).trans ih

end Computation

section

variable {M : Machine} {x : String}

open Stagewise.Computation

namespace Place

theorem read_spares (p : Place M.Value) : p.read.Spares x := by
  cases p with
  | var y => exact spares_inspect _
  | field o f => exact spares_perform _ _

theorem write_spares {p : Place M.Value} (h : p ≠ .var x) (v : M.Value) :
    (p.write v).Spares x := by
  cases p with
  | var y => exact spares_change fun σ =>
      .assign (fun he => h (congrArg _ he)) v _
  | field o f => exact (spares_perform _ _).bind fun _ => spares_pure _

end Place

namespace Expr

/-- Only a variable itself is the place of a variable. -/
theorem ne_var_of_place {e : Expr} {p : Place M.Value} {σ τ : M.State}
    (h : .var x ∉ e.subterms) (hp : place M e σ (.ok p) τ) : p ≠ .var x := by
  cases e with
  | var y =>
      obtain ⟨hp, -⟩ := hp
      cases hp
      intro he
      cases he
      exact h (List.mem_singleton_self _)
  | field t f =>
      obtain ⟨o, ρ, -, hp, -⟩ := bind_ok_iff.1 hp
      cases hp
      exact nofun
  | _ => exact hp.elim

mutual

theorem value_spares : ∀ e : Expr, .var x ∉ e.subterms → (e.value M).Spares x
  | .literal _, _ | .self _, _ | .super, _ => spares_perform _ _
  | .var _, _ => spares_inspect _
  | .field t f, h => by
      have ho := object_spares t fun hm => h (List.mem_cons_of_mem _ hm)
      exact ho.bind fun _ => spares_perform _ _
  | .call t m args, h => by
      simp only [subterms, List.mem_cons, List.mem_append, not_or] at h
      exact (object_spares t h.2.1).bind fun _ => (values_spares
          args h.2.2).bind fun _ =>
        (spares_change (f := (·.recordCall m)) fun σ =>
            .refl σ.locals).bind fun _ =>
          spares_perform _ _
  | .new type args, h => by
      have hvs := values_spares args fun hm => h (List.mem_cons_of_mem _ hm)
      exact hvs.bind fun _ => spares_perform _ _
  | .unary op e, h => by
      have hvar : .var x ∉ e.subterms :=
        fun hm => h (List.mem_cons_of_mem _ hm)
      rw [value]
      -- an increment writes to a place, which may be a variable but not `x`
      refine .ite ?_ ((value_spares e hvar).bind fun _ => spares_perform _ _)
      refine (place_spares
          e hvar).bind_of_ok fun p _ _ hp =>
        (Place.read_spares p).bind fun _ =>
        (spares_perform _ _).bind fun _ => ?_
      exact (Place.write_spares
        (ne_var_of_place hvar hp) _).bind fun _ => spares_pure _
  | .binary op l r, h => by
      simp only [subterms, List.mem_cons, List.mem_append, not_or] at h
      have hl := value_spares l h.2.1
      have hr := value_spares r h.2.2
      cases op with
      | and => exact hl.bind fun _ =>
          (spares_inspect _).bind fun _ => .ite hr (spares_pure _)
      | or => exact hl.bind fun _ => (spares_inspect _).bind fun _ =>
          .ite (spares_pure _) hr
      | _ => exact hl.bind fun _ => hr.bind fun _ => spares_perform _ _
  | .assign none t e, h => by
      simp only [subterms, List.mem_cons, List.mem_append, not_or] at h
      exact (place_spares t h.2.1).bind_of_ok fun p _ _ hp =>
        (value_spares e h.2.2).bind fun _ =>
          (Place.write_spares (ne_var_of_place h.2.1 hp) _).bind fun _ =>
            spares_pure _
  | .assign (some op) t e, h => by
      simp only [subterms, List.mem_cons, List.mem_append, not_or] at h
      exact (place_spares t h.2.1).bind_of_ok fun p _ _ hp =>
          (Place.read_spares p).bind fun _ =>
        (value_spares e h.2.2).bind fun _ => (spares_perform _ _).bind fun _ =>
          (Place.write_spares (ne_var_of_place h.2.1 hp) _).bind fun _ =>
            spares_pure _
  | .conditional c a b, h => by
      simp only [subterms, List.mem_cons, List.mem_append, not_or] at h
      exact (value_spares c h.2.1.1).bind fun _ =>
          (spares_inspect _).bind fun _ =>
        .ite (value_spares a h.2.1.2) (value_spares b h.2.2)

theorem place_spares : ∀ e : Expr, .var x ∉ e.subterms → (place M e).Spares x
  | .var _, _ => spares_pure _
  | .field t f, h => by
      have ho := object_spares t fun hm => h (List.mem_cons_of_mem _ hm)
      exact ho.bind fun _ => spares_pure _
  | .literal _, _ | .self _, _ | .super, _ | .call _ _ _, _ | .new _ _,
      _ | .unary _ _, _
  | .binary _ _ _, _ | .assign _ _ _, _ | .conditional _ _ _, _ => nofun

theorem object_spares : ∀ t : Option Expr, .var x ∉ subtermsOfTarget t →
    (object M t).Spares x
  | none, _ => spares_perform _ _
  | some t, h => value_spares t h

theorem values_spares : ∀ es : List Expr, .var x ∉ subtermsOfAll es →
    (values M es).Spares x
  | [], _ => spares_pure _
  | e :: es, h => by
      simp only [subtermsOfAll, List.mem_append, not_or] at h
      exact (value_spares e h.1).bind fun _ => (values_spares es h.2).bind
        fun _ => spares_pure _

end

end Expr

namespace Stmt

open Node (Free namesLocal isReturn)

theorem value_spares {e : Expr} (h : Free (namesLocal x) e.nodes) :
    (e.value M).Spares x :=
  Expr.value_spares e fun hm => by
    simpa [namesLocal] using h (.expr (.var x)) (List.mem_map_of_mem hm)

theorem value?_spares {e : Option Expr}
    (h : Free (namesLocal x) (Expr.nodesOf? e)) :
    (Expr.value? M e).Spares x := by
  cases e with
  | none => exact spares_pure _
  | some e => exact (value_spares h).bind fun _ => spares_pure _

theorem values_spares :
    ∀ es : List Expr, Free (namesLocal x) (es.flatMap Expr.nodes) →
    (Expr.values M es).Spares x
  | [], _ => spares_pure _
  | e :: es, h => by
      obtain ⟨he, hes⟩ := Free.append (List.flatMap_cons ▸ h)
      exact (value_spares he).bind fun _ => (values_spares es hes).bind
        fun _ => spares_pure _

theorem holds_spares {e : Expr} (h : Free (namesLocal x) e.nodes) :
    (holds M e).Spares x :=
  (value_spares h).bind fun _ => spares_inspect _

mutual

theorem run_spares : ∀ s : Stmt, Free (namesLocal x) s.nodes →
    (run M s).Spares x
  | .expr e, h => (value_spares h.tail).bind fun _ => spares_pure _
  | .declare _ y init, h => by
      have hne : y ≠ x := by simpa [namesLocal] using h.head
      exact (value?_spares h.tail).bind fun v =>
        (spares_change (f := (·.declare y v)) fun σ => .declare hne v).bind
          fun _ => spares_pure _
  | .branch cond yes no, h => by
      obtain ⟨hbefore, hno⟩ := h.tail.append
      obtain ⟨hcond, hyes⟩ := hbefore.append
      exact (holds_spares hcond).bind fun _ =>
        .ite (runAll_spares yes hyes.tail).inScope (runBlock?_spares no hno)
  | .loop cond body, h => by
      obtain ⟨hcond, hbody⟩ := h.tail.append
      exact (holds_spares hcond).rounds (runAll_spares body hbody.tail).inScope
  | .ret value, h => (value?_spares h.tail).bind fun _ => spares_pure _
  | .check cond message, h => by
      obtain ⟨hcond, hmessage⟩ := h.tail.append
      exact (holds_spares hcond).bind fun _ => .ite (spares_pure _) <|
        (value?_spares hmessage).bind fun _ => (spares_perform _ _).bind
          fun _ => spares_throw _
  | .throw e, h => (value_spares h.tail).bind fun _ => spares_throw _
  | .superConstructor args, h => (values_spares args h.tail).bind fun _ =>
      (spares_perform _ _).bind fun _ => spares_pure _
  | .block body, h => (runAll_spares body h.tail.tail).inScope

theorem runBlock?_spares :
    ∀ b : Option (List Stmt), Free (namesLocal x) (nodesOfBlock? b) →
    (runBlock? M b).Spares x
  | none, _ => spares_pure _
  | some b, h => (runAll_spares b h.tail).inScope

theorem runAll_spares : ∀ ss : List Stmt, Free (namesLocal x) (nodesOfAll ss) →
    (runAll M ss).Spares x
  | [], _ => spares_pure _
  | s :: ss, h => by
      obtain ⟨hs, hss⟩ := Free.append h
      refine (run_spares s hs).bind fun w => ?_
      cases w with
      | next => exact runAll_spares ss hss
      | returned v => exact spares_pure _

end

end Stmt

/-- A block leaves a variable as it is that it does not name. -/
theorem Block.run_spares {b : Block} (h : b.namesLocal x = false) :
    (b.run M).Spares x :=
  Stmt.runAll_spares b (Node.Free.of_any h).tail

end

-- ================================================= code that does not return

namespace Computation

variable {M : Machine} {α : Type} {c d : Computation M (Flow M.Value)}

/-- That a computation does not end by a return statement. -/
def GoesOn (c : Computation M (Flow M.Value)) : Prop :=
  ∀ σ v τ, ¬ c σ (.ok (.returned v)) τ

theorem goesOn_next : (pure .next : Computation M (Flow M.Value)).GoesOn :=
  fun _ _ _ => nofun

theorem goesOn_throw (e : M.Value) :
    (throw e : Computation M (Flow M.Value)).GoesOn :=
  fun _ _ _ => nofun

theorem goesOn_bind {c : Computation M α}
    {d : α → Computation M (Flow M.Value)}
    (h : ∀ a, (d a).GoesOn) : (c >>= d).GoesOn := fun _ v τ hr => by
  obtain ⟨a, ρ, -, hd⟩ := bind_ok_iff.1 hr
  exact h a ρ v τ hd

theorem GoesOn.ite {p : Prop} [Decidable p] (hc : c.GoesOn) (hd : d.GoesOn) :
    (if p then c else d).GoesOn := by
  split
  · exact hc
  · exact hd

theorem GoesOn.inScope (h : c.GoesOn) : (inScope c).GoesOn :=
  fun σ v _ ⟨ρ, hr, _⟩ => h σ v ρ hr

theorem GoesOn.rounds {cond : Computation M Bool} (h : c.GoesOn) :
    (Rounds cond c).GoesOn := by
  intro σ v τ hr
  generalize hw : (Except.ok (.returned v) : Except M.Value (Flow M.Value))
    = r at hr
  induction hr with
  | done | fails | throws => cases hw
  | leaves _ hbody => exact h _ _ _ hbody
  | again _ _ _ ih => exact ih hw

end Computation

namespace Stmt

open Stagewise.Computation

open Node (Free isReturn)

variable {M : Machine}

mutual

theorem run_goesOn : ∀ s : Stmt, Free isReturn s.nodes → (run M s).GoesOn
  | .expr _, _ => goesOn_bind fun _ => goesOn_next
  | .declare _ _ _, _ => goesOn_bind fun _ => goesOn_bind fun _ => goesOn_next
  | .branch _ yes no, h => by
      obtain ⟨hbefore, hno⟩ := h.tail.append
      have hyes := runAll_goesOn yes hbefore.append.2.tail
      exact goesOn_bind fun _ => hyes.inScope.ite (runBlock?_goesOn no hno)
  | .loop _ body, h => (runAll_goesOn body h.tail.append.2.tail).inScope.rounds
  | .ret _, h => nomatch h.head
  | .check _ _, _ => goesOn_bind fun _ => goesOn_next.ite <|
      goesOn_bind fun _ =>
      goesOn_bind fun _ => goesOn_throw _
  | .throw _, _ => goesOn_bind fun _ => goesOn_throw _
  | .superConstructor _, _ => goesOn_bind fun _ =>
      goesOn_bind fun _ => goesOn_next
  | .block body, h => (runAll_goesOn body h.tail.tail).inScope

theorem runBlock?_goesOn :
    ∀ b : Option (List Stmt), Free isReturn (nodesOfBlock? b) →
    (runBlock? M b).GoesOn
  | none, _ => goesOn_next
  | some b, h => (runAll_goesOn b h.tail).inScope

theorem runAll_goesOn : ∀ ss : List Stmt, Free isReturn (nodesOfAll ss) →
    (runAll M ss).GoesOn
  | [], _ => goesOn_next
  | s :: ss, h => by
      obtain ⟨hs, hss⟩ := Free.append h
      intro σ v τ hr
      rcases andThen_iff.1 hr with ⟨ρ, -, hr⟩ | ⟨-, hr⟩
      · exact runAll_goesOn ss hss ρ v τ hr
      · exact run_goesOn s hs σ v τ hr

end

end Stmt

/-- A block without a return statement does not return. -/
theorem Block.run_goesOn {M : Machine} {b : Block} (h : b.returns = false) :
    (b.run M).GoesOn :=
  Stmt.runAll_goesOn b (Node.Free.of_any h).tail

end Stagewise
