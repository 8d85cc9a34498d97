/-
What transformations make of code.

# What a walk yields

A transformer that leaves type references alone rewrites expressions, from
the outside by what it puts in their place on entry and from the inside by
what it changes on the way out. A computation may change what its answers
mean: a method made later, say, is what an earlier answer refers to. So a
`Reasoning` speaks of an answer as it is seen from every later point.
Whatever it knows of the two hooks at single expressions (`Knows`) it knows
of a whole walk: the walk yields the rewritten code, and a property that the
hooks establish at the top of an expression holds of every expression of the
result (`typeDecl_rewrites`; for a walk that only works on the way out,
`block_holds`).

# Walks that do nothing else

Where the hook does nothing but rewrite the expressions of a body, the walk
does nothing but rewrite the body (`block_returns_rewrite`). Where it hands
every expression back as it is, the whole body comes back as it was
(`block_returns`).
-/
import Stagewise.Program.Transform
import Stagewise.Proofs.Program.Rewrite

namespace Stagewise.Transformer

variable {m : Type → Type} [Monad m]

/-- A walk that changes expressions on the way out only. -/
def walk (h : Expr → m Expr) : Transformer m := { leaveExpr := h }

/-- That a transformer changes no type reference. -/
structure KeepsTypes (r : Transformer m) : Prop where
  enter : r.enterType = fun _ => pure none
  leave : r.leaveType = pure

-- =============================================================== reasoning

/-- A way to speak of the answers of computations, as seen from points of
`ι`. In a sequence, what is known of the first answer from a point may be
used for the second one seen from there. -/
structure Reasoning (m : Type → Type) [Monad m] (ι : Type) where
  holds : {α : Type} → m α → (ι → α → Prop) → Prop
  mono : ∀ {α : Type} {x : m α} {P Q : ι → α → Prop}, holds x P →
    (∀ i a, P i a → Q i a) → holds x Q
  ofPure : ∀ {α : Type} {a : α} {Q : ι → α → Prop}, (∀ i, Q i a) →
    holds (pure a) Q
  ofBind : ∀ {α β : Type} {x : m α} {f : α → m β} {P : ι → α → Prop}
    {Q : ι → β → Prop}, holds x P →
    (∀ a, holds (f a) fun i b => P i a → Q i b) → holds (x >>= f) Q

-- --------------------------------------------------------- type references

section

variable {ι : Type} (L : Reasoning m ι) {r : Transformer m}

mutual

theorem KeepsTypes.typeRef_holds (h : r.KeepsTypes) : ∀ t : TypeRef,
    L.holds (r.typeRef t) fun _ t' => t' = t
  | ⟨name, args, isParam⟩ => by
      rw [typeRef, h.enter]
      refine L.ofBind (L.ofPure fun _ => rfl) fun found => ?_
      cases found with
      | some t => exact L.ofPure fun _ ht => (nomatch ht)
      | none =>
          refine L.ofBind (KeepsTypes.typeRefs_holds h args) fun args' => ?_
          rw [h.leave]
          exact L.ofPure fun _ hargs _ => by rw [hargs]

theorem KeepsTypes.typeRefs_holds (h : r.KeepsTypes) : ∀ ts : List TypeRef,
    L.holds (r.typeRefs ts) fun _ ts' => ts' = ts
  | [] => L.ofPure fun _ => rfl
  | t :: ts => by
      rw [typeRefs]
      refine L.ofBind (KeepsTypes.typeRef_holds h t) fun t' => ?_
      refine L.ofBind (KeepsTypes.typeRefs_holds h ts) fun ts' => ?_
      exact L.ofPure fun _ hts ht => by rw [ht, hts]

end

end

namespace Reasoning

variable {ι : Type} (L : Reasoning m ι) {r : Transformer m}
variable {F : ι → Expr → Expr} {G : ι → Expr → Prop} {Opens : ι → Expr → Prop}

-- -------------------------------------------------------------- expressions

/-- What is known of a transformer that only acts on expressions. Entering
one it puts the rewritten expression in its place, or it goes inside. On the
way out, if it went inside, it yields what becomes of the expression with
its parts rewritten. Either way it establishes a property. -/
structure Knows (L : Reasoning m ι) (r : Transformer m) (F : ι → Expr → Expr)
    (G : ι → Expr → Prop) (Opens : ι → Expr → Prop) :
    Prop extends r.KeepsTypes where
  look : r.look = fun _ => pure ()
  entry : ∀ e, L.holds (r.enterExpr e) fun i found =>
    match found with
    | some e' => e' = e.rewrite (F i) ∧ ∀ x ∈ e'.subterms, G i x
    | none => Opens i e
  exit : ∀ e e₁, e₁.top = e.top →
    L.holds (r.leaveExpr e₁) fun i e' => Opens i e →
    e' = F i e₁ ∧ ((∀ x ∈ e₁.parts, G i x) → ∀ x ∈ e'.subterms, G i x)

/-- Looking at a node on entry does nothing. -/
theorem look_holds (hk : L.Knows r F G Opens) {α : Type} {n : Node} {k : m α}
    {Q : ι → α → Prop} (h : L.holds k Q) :
    L.holds (do
      r.look n
      k) Q := by
  rw [hk.look]
  refine L.ofBind (P := fun _ _ => True) (L.ofPure fun _ => trivial) fun _ =>
    ?_
  exact L.mono h fun _ _ hQ _ => hQ

/-- What is known on entry to an expression, and what is known if its parts
come first. -/
theorem enter_holds (hk : L.Knows r F G Opens) {e : Expr} {k : m Expr}
    (h : L.holds k fun i e' => Opens i e →
      e' = e.rewrite (F i) ∧ ∀ x ∈ e'.subterms, G i x) :
    L.holds (do
      r.look (.expr e)
      match ← r.enterExpr e with
      | some e => pure e
      | none => k) fun i e' => e' = e.rewrite (F i)
          ∧ ∀ x ∈ e'.subterms, G i x := by
  refine L.look_holds hk (L.ofBind (hk.entry e) fun found => ?_)
  cases found with
  | some e' => exact L.ofPure fun _ he => he
  | none => exact L.mono h fun _ _ hQ hopens => hQ hopens

mutual

/-- A walk yields the rewritten expression, and all of it has the
property. -/
theorem expr_rewrites (hk : L.Knows r F G Opens) : ∀ e : Expr,
    L.holds (r.expr e) fun i e' =>
      e' = e.rewrite (F i) ∧ ∀ x ∈ e'.subterms, G i x
  | .literal _ | .self _ | .super | .var _ => by
      rw [expr]
      refine L.enter_holds hk
        (L.mono (hk.exit _ _ rfl) fun i e' he hopens => ?_)
      exact ⟨(he hopens).1, (he hopens).2 fun _ hx => (nomatch hx)⟩
  | .field t f => by
      rw [expr]
      refine L.enter_holds hk (L.ofBind (target_rewrites hk t) fun t' => ?_)
      refine L.mono (hk.exit (.field t f) (.field t' f) rfl)
        fun i e' he ht hopens => ?_
      obtain ⟨rfl, ht⟩ := ht
      exact ⟨(he hopens).1, (he hopens).2 ht⟩
  | .call t method args => by
      rw [expr]
      refine L.enter_holds hk (L.ofBind (target_rewrites hk t) fun t' => ?_)
      refine L.ofBind (hk.typeRefs_holds L method.params) fun params => ?_
      refine L.ofBind (exprs_rewrites hk args) fun args' => ?_
      refine L.mono (hk.exit (.call t { method with params } args)
        (.call t' { method with params } args') rfl)
        fun i e' he hargs hparams ht hopens => ?_
      obtain ⟨rfl, hargs⟩ := hargs
      obtain ⟨rfl, ht⟩ := ht
      obtain rfl := hparams
      exact ⟨(he hopens).1,
        (he hopens).2 (List.forall_mem_append.2 ⟨ht, hargs⟩)⟩
  | .new type args => by
      rw [expr]
      refine L.enter_holds hk (L.ofBind (hk.typeRef_holds L type)
        fun type' => ?_)
      refine L.ofBind (exprs_rewrites hk args) fun args' => ?_
      refine L.mono (hk.exit (.new type' args) (.new type' args') rfl)
        fun i e' he hargs htype hopens => ?_
      obtain ⟨rfl, hargs⟩ := hargs
      obtain rfl := htype
      exact ⟨(he hopens).1, (he hopens).2 hargs⟩
  | .unary op e => by
      rw [expr]
      refine L.enter_holds hk (L.ofBind (expr_rewrites hk e) fun e₁ => ?_)
      refine L.mono (hk.exit (.unary op e) (.unary op e₁) rfl)
        fun i e' he he₁ hopens => ?_
      obtain ⟨rfl, he₁⟩ := he₁
      exact ⟨(he hopens).1, (he hopens).2 he₁⟩
  | .binary op a b => by
      rw [expr]
      refine L.enter_holds hk (L.ofBind (expr_rewrites hk a) fun a' => ?_)
      refine L.ofBind (expr_rewrites hk b) fun b' => ?_
      refine L.mono (hk.exit (.binary op a b) (.binary op a' b') rfl)
        fun i e' he hb ha hopens => ?_
      obtain ⟨rfl, ha⟩ := ha
      obtain ⟨rfl, hb⟩ := hb
      exact ⟨(he hopens).1, (he hopens).2 (List.forall_mem_append.2 ⟨ha, hb⟩)⟩
  | .assign op a b => by
      rw [expr]
      refine L.enter_holds hk (L.ofBind (expr_rewrites hk a) fun a' => ?_)
      refine L.ofBind (expr_rewrites hk b) fun b' => ?_
      refine L.mono (hk.exit (.assign op a b) (.assign op a' b') rfl)
        fun i e' he hb ha hopens => ?_
      obtain ⟨rfl, ha⟩ := ha
      obtain ⟨rfl, hb⟩ := hb
      exact ⟨(he hopens).1, (he hopens).2 (List.forall_mem_append.2 ⟨ha, hb⟩)⟩
  | .conditional c a b => by
      rw [expr]
      refine L.enter_holds hk (L.ofBind (expr_rewrites hk c) fun c' => ?_)
      refine L.ofBind (expr_rewrites hk a) fun a' => ?_
      refine L.ofBind (expr_rewrites hk b) fun b' => ?_
      refine L.mono (hk.exit (.conditional c a b) (.conditional c' a' b') rfl)
        fun i e' he hb ha hc hopens => ?_
      obtain ⟨rfl, hc⟩ := hc
      obtain ⟨rfl, ha⟩ := ha
      obtain ⟨rfl, hb⟩ := hb
      exact ⟨(he hopens).1, (he hopens).2
        (List.forall_mem_append.2 ⟨List.forall_mem_append.2 ⟨hc, ha⟩, hb⟩)⟩

theorem target_rewrites (hk : L.Knows r F G Opens) : ∀ t : Option Expr,
    L.holds (r.target t) fun i t' =>
      t' = Expr.rewriteTarget (F i) t ∧ ∀ x ∈ Expr.subtermsOfTarget t', G i x
  | none => L.ofPure fun _ => ⟨rfl, fun _ hx => (nomatch hx)⟩
  | some e => by
      rw [target]
      refine L.ofBind (expr_rewrites hk e) fun e' => L.ofPure fun i he => ?_
      obtain ⟨rfl, he⟩ := he
      exact ⟨rfl, he⟩

theorem exprs_rewrites (hk : L.Knows r F G Opens) : ∀ es : List Expr,
    L.holds (r.exprs es) fun i es' =>
      es' = Expr.rewriteAll (F i) es ∧ ∀ x ∈ Expr.subtermsOfAll es', G i x
  | [] => L.ofPure fun _ => ⟨rfl, fun _ hx => (nomatch hx)⟩
  | e :: es => by
      rw [exprs]
      refine L.ofBind (expr_rewrites hk e) fun e' => ?_
      refine L.ofBind (exprs_rewrites hk es) fun es' =>
        L.ofPure fun i hes he => ?_
      obtain ⟨rfl, he⟩ := he
      obtain ⟨rfl, hes⟩ := hes
      exact ⟨rfl, List.forall_mem_append.2 ⟨he, hes⟩⟩

end

/-- `target_rewrites` where a statement has an expression or none. -/
theorem optional_rewrites (hk : L.Knows r F G Opens) (e : Option Expr) :
    L.holds (optional r.expr e) fun i e' =>
      e' = Expr.rewriteTarget (F i) e
          ∧ ∀ x ∈ Expr.subtermsOfTarget e', G i x := by
  cases e with
  | none => exact L.target_rewrites hk none
  | some e => exact L.target_rewrites hk (some e)

/-- `exprs_rewrites` for the arguments of a statement. -/
theorem each_rewrites (hk : L.Knows r F G Opens) (es : List Expr) :
    L.holds (each r.expr es) fun i es' =>
      es' = Expr.rewriteAll (F i) es
          ∧ ∀ x ∈ Expr.subtermsOfAll es', G i x := by
  have heach : each r.expr es = r.exprs es := by
    induction es with
    | nil => rfl
    | cons e es ih => rw [each, exprs, ih]
  rw [heach]
  exact L.exprs_rewrites hk es

-- --------------------------------------------------- statements and blocks

mutual

/-- A walk yields the rewritten statement, and all of it has the
property. -/
theorem stmt_rewrites (hk : L.Knows r F G Opens) : ∀ s : Stmt,
    L.holds (r.stmt s) fun i s' =>
      s' = s.rewrite (F i) ∧ ∀ x ∈ Node.exprs s'.nodes, G i x
  | .expr e | .throw e => by
      rw [stmt]
      refine L.look_holds hk (L.ofBind (L.expr_rewrites hk e) fun e' => ?_)
      refine L.ofPure fun i he => ?_
      obtain ⟨rfl, he⟩ := he
      refine ⟨rfl, ?_⟩
      simpa only [Stmt.nodes, Node.exprs_stmt_cons, Node.exprs_nodes] using he
  | .declare type _ init => by
      rw [stmt]
      refine L.look_holds hk (L.ofBind (hk.typeRef_holds L type)
        fun type' => ?_)
      refine L.ofBind (L.optional_rewrites hk init) fun init' => ?_
      refine L.ofPure fun i he htype => ?_
      obtain ⟨rfl, he⟩ := he
      obtain rfl := htype
      refine ⟨by rw [Stmt.rewrite, Expr.rewriteTarget_eq_map], ?_⟩
      simpa only [Stmt.nodes, Node.exprs_stmt_cons,
        Node.exprs_nodesOf?] using he
  | .branch cond yes no => by
      rw [stmt]
      refine L.look_holds hk (L.ofBind (L.expr_rewrites hk cond)
        fun cond' => ?_)
      refine L.look_holds hk (L.ofBind (stmts_rewrites hk yes) fun yes' => ?_)
      refine L.ofBind (block?_rewrites hk no) fun no' => ?_
      refine L.ofPure fun i hno hyes hcond => ?_
      obtain ⟨rfl, hcond⟩ := hcond
      obtain ⟨rfl, hyes⟩ := hyes
      obtain ⟨rfl, hno⟩ := hno
      refine ⟨rfl, ?_⟩
      simp only [Stmt.nodes, Node.exprs_stmt_cons, Node.exprs_append,
        Node.exprs_nodes, Node.exprs_block_cons, List.forall_mem_append]
      exact ⟨⟨hcond, hyes⟩, hno⟩
  | .loop cond body => by
      rw [stmt]
      refine L.look_holds hk (L.ofBind (L.expr_rewrites hk cond)
        fun cond' => ?_)
      refine L.look_holds hk (L.ofBind (stmts_rewrites hk body)
        fun body' => ?_)
      refine L.ofPure fun i hbody hcond => ?_
      obtain ⟨rfl, hcond⟩ := hcond
      obtain ⟨rfl, hbody⟩ := hbody
      refine ⟨rfl, ?_⟩
      simp only [Stmt.nodes, Node.exprs_stmt_cons, Node.exprs_append,
        Node.exprs_nodes, Node.exprs_block_cons, List.forall_mem_append]
      exact ⟨hcond, hbody⟩
  | .ret value => by
      rw [stmt]
      refine L.look_holds hk (L.ofBind (L.optional_rewrites hk value)
        fun value' => ?_)
      refine L.ofPure fun i he => ?_
      obtain ⟨rfl, he⟩ := he
      refine ⟨by rw [Stmt.rewrite, Expr.rewriteTarget_eq_map], ?_⟩
      simpa only [Stmt.nodes, Node.exprs_stmt_cons,
        Node.exprs_nodesOf?] using he
  | .check cond message => by
      rw [stmt]
      refine L.look_holds hk (L.ofBind (L.expr_rewrites hk cond)
        fun cond' => ?_)
      refine L.ofBind (L.optional_rewrites hk message) fun message' => ?_
      refine L.ofPure fun i hmessage hcond => ?_
      obtain ⟨rfl, hcond⟩ := hcond
      obtain ⟨rfl, hmessage⟩ := hmessage
      refine ⟨by rw [Stmt.rewrite, Expr.rewriteTarget_eq_map], ?_⟩
      simp only [Stmt.nodes, Node.exprs_stmt_cons, Node.exprs_append,
        Node.exprs_nodes, Node.exprs_nodesOf?, List.forall_mem_append]
      exact ⟨hcond, hmessage⟩
  | .superConstructor args => by
      rw [stmt]
      refine L.look_holds hk (L.ofBind (L.each_rewrites hk args)
        fun args' => ?_)
      refine L.ofPure fun i hargs => ?_
      obtain ⟨rfl, hargs⟩ := hargs
      refine ⟨by rw [Stmt.rewrite, Expr.rewriteAll_eq_map], ?_⟩
      simpa only [Stmt.nodes, Node.exprs_stmt_cons, Node.exprs_flatMap_nodes]
        using hargs
  | .block body => by
      rw [stmt]
      refine L.look_holds hk
        (L.look_holds hk (L.ofBind (stmts_rewrites hk body) fun b => ?_))
      refine L.ofPure fun i hbody => ?_
      obtain ⟨rfl, hbody⟩ := hbody
      refine ⟨rfl, ?_⟩
      simpa only [Stmt.nodes, Node.exprs_stmt_cons, Node.exprs_block_cons]
        using hbody

theorem block?_rewrites (hk : L.Knows r F G Opens) : ∀ b : Option (List Stmt),
    L.holds (r.block? b) fun i b' =>
      b' = Stmt.rewriteBlock? (F i) b
        ∧ ∀ x ∈ Node.exprs (Stmt.nodesOfBlock? b'), G i x
  | none => L.ofPure fun _ => ⟨rfl, fun _ hx => (nomatch hx)⟩
  | some b => by
      rw [block?]
      refine L.look_holds hk (L.ofBind (stmts_rewrites hk b) fun b' => ?_)
      refine L.ofPure fun i hb => ?_
      obtain ⟨rfl, hb⟩ := hb
      exact ⟨rfl, hb⟩

theorem stmts_rewrites (hk : L.Knows r F G Opens) : ∀ ss : List Stmt,
    L.holds (r.stmts ss) fun i ss' =>
      ss' = Stmt.rewriteAll (F i) ss
        ∧ ∀ x ∈ Node.exprs (Stmt.nodesOfAll ss'), G i x
  | [] => L.ofPure fun _ => ⟨rfl, fun _ hx => (nomatch hx)⟩
  | s :: ss => by
      rw [stmts]
      refine L.ofBind (stmt_rewrites hk s) fun s' => ?_
      refine L.ofBind (stmts_rewrites hk ss) fun ss' =>
        L.ofPure fun i hss hs => ?_
      obtain ⟨rfl, hs⟩ := hs
      obtain ⟨rfl, hss⟩ := hss
      refine ⟨rfl, ?_⟩
      rw [Stmt.nodesOfAll, Node.exprs_append]
      exact List.forall_mem_append.2 ⟨hs, hss⟩

end

theorem block_rewrites (hk : L.Knows r F G Opens) (b : Block) :
    L.holds (r.block b) fun i b' => b' = b.rewrite (F i)
      ∧ ∀ x ∈ b'.exprs, G i x :=
  L.look_holds hk (L.stmts_rewrites hk b)

-- ------------------------------------------------------------- declarations

/-- A loop over members that are rewritten each. -/
theorem each_members_rewrite {α : Type} {f : α → m α} {k : ι → α → α}
    {nodes : α → List Node}
    (hf : ∀ a, L.holds (f a) fun i a' =>
      a' = k i a ∧ ∀ x ∈ Node.exprs (nodes a'), G i x)
    (as : List α) : L.holds (each f as) fun i as' =>
      as' = as.map (k i) ∧ ∀ x ∈ Node.exprs (as'.flatMap nodes), G i x := by
  induction as with
  | nil => exact L.ofPure fun _ => ⟨rfl, fun _ hx => (nomatch hx)⟩
  | cons a as ih =>
      rw [each]
      refine L.ofBind (hf a) fun a' => L.ofBind ih fun as' =>
        L.ofPure fun i has ha => ?_
      obtain ⟨rfl, ha⟩ := ha
      obtain ⟨rfl, has⟩ := has
      refine ⟨rfl, ?_⟩
      rw [List.flatMap_cons, Node.exprs_append]
      exact List.forall_mem_append.2 ⟨ha, has⟩

theorem each_same {α : Type} {f : α → m α}
    (hf : ∀ a, L.holds (f a) fun _ a' => a' = a)
    (as : List α) : L.holds (each f as) fun _ as' => as' = as := by
  induction as with
  | nil => exact L.ofPure fun _ => rfl
  | cons a as ih =>
      rw [each]
      refine L.ofBind (hf a) fun a' => L.ofBind ih fun as' =>
        L.ofPure fun _ has ha => ?_
      rw [ha, has]

theorem optional_same {α : Type} {f : α → m α}
    (hf : ∀ a, L.holds (f a) fun _ a' => a' = a)
    (a : Option α) : L.holds (optional f a) fun _ a' => a' = a := by
  cases a with
  | none => exact L.ofPure fun _ => rfl
  | some a => exact L.ofBind (hf a) fun a' => L.ofPure fun _ ha =>
      congrArg some ha

theorem param_same (hk : L.Knows r F G Opens) (p : Param) :
    L.holds (r.param p) fun _ p' => p' = p :=
  L.ofBind (hk.typeRef_holds L p.type) fun _ => L.ofPure fun _ htype => by
    rw [htype]

theorem field_rewrites (hk : L.Knows r F G Opens) (f : Field) :
    L.holds (r.field f) fun i f' => f' = f.rewrite (F i)
      ∧ ∀ x ∈ Node.exprs f'.nodes, G i x := by
  rw [Transformer.field]
  refine L.look_holds hk (L.ofBind (hk.typeRef_holds L f.type) fun type => ?_)
  refine L.ofBind (L.optional_rewrites hk f.init) fun init =>
    L.ofPure fun i hinit htype => ?_
  obtain ⟨rfl, hinit⟩ := hinit
  obtain rfl := htype
  rw [Field.exprs_nodes]
  exact ⟨by rw [Field.rewrite, Expr.rewriteTarget_eq_map], hinit⟩

theorem constructor_rewrites (hk : L.Knows r F G Opens) (c : Constructor) :
    L.holds (r.constructor c) fun i c' =>
      c' = c.rewrite (F i) ∧ ∀ x ∈ Node.exprs c'.nodes, G i x := by
  rw [Transformer.constructor]
  refine L.look_holds hk (L.ofBind (L.each_same (L.param_same hk) c.params)
    fun params => ?_)
  refine L.ofBind (L.block_rewrites hk c.body) fun body =>
    L.ofPure fun i hbody hparams => ?_
  obtain ⟨rfl, hbody⟩ := hbody
  obtain rfl := hparams
  exact ⟨rfl, hbody⟩

theorem method_rewrites (hk : L.Knows r F G Opens) (d : Method) :
    L.holds (r.method d) fun i d' =>
      d' = d.rewrite (F i) ∧ ∀ x ∈ Node.exprs d'.nodes, G i x := by
  have hbody : L.holds (optional r.block d.body) fun i body =>
      body = d.body.map (Block.rewrite (F i))
          ∧ ∀ x ∈ (body.getD []).exprs, G i x := by
    cases d.body with
    | none => exact L.ofPure fun _ => ⟨rfl, fun _ hx => (nomatch hx)⟩
    | some b =>
        refine L.ofBind (L.block_rewrites hk b) fun b' =>
          L.ofPure fun i hb => ?_
        exact ⟨congrArg some hb.1, hb.2⟩
  rw [Transformer.method]
  refine L.look_holds hk (L.ofBind (hk.typeRef_holds L d.returns)
    fun returns => ?_)
  refine L.ofBind (L.each_same (L.param_same hk) d.params) fun params => ?_
  refine L.ofBind hbody fun body => L.ofPure fun i hbody hparams hreturns => ?_
  obtain ⟨rfl, hbody⟩ := hbody
  obtain rfl := hparams
  obtain rfl := hreturns
  rw [Method.exprs_nodes]
  exact ⟨rfl, hbody⟩

mutual

/-- A walk yields the rewritten declaration, and all of it has the
property. -/
theorem typeDecl_rewrites (hk : L.Knows r F G Opens) : ∀ d : TypeDecl,
    L.holds (r.typeDecl d) fun i d' => d' = d.rewrite (F i)
      ∧ ∀ x ∈ d'.exprs, G i x
  | ⟨_, _, _, _, superclass, interfaces, _, _, fields, methods, constructors,
      nested, _⟩ => by
      rw [typeDecl]
      refine L.look_holds hk ?_
      refine L.ofBind (L.optional_same (hk.typeRef_holds L) superclass)
        fun superclass' => ?_
      refine L.ofBind (L.each_same (hk.typeRef_holds L) interfaces)
        fun interfaces' => ?_
      refine L.ofBind (L.each_members_rewrite (L.field_rewrites hk) fields)
        fun fields' => ?_
      refine L.ofBind
        (L.each_members_rewrite (L.constructor_rewrites hk) constructors)
        fun constructors' => ?_
      refine L.ofBind (L.each_members_rewrite (L.method_rewrites hk) methods)
        fun methods' => ?_
      refine L.ofBind (typeDecls_rewrites hk nested) fun nested' => ?_
      refine L.ofPure
        fun i hnested hmethods hconstructors hfields hinterfaces hsuperclass =>
        ?_
      obtain ⟨rfl, hnested⟩ := hnested
      obtain ⟨rfl, hmethods⟩ := hmethods
      obtain ⟨rfl, hconstructors⟩ := hconstructors
      obtain ⟨rfl, hfields⟩ := hfields
      obtain rfl := hinterfaces
      obtain rfl := hsuperclass
      refine ⟨rfl, ?_⟩
      simp only [TypeDecl.exprs, TypeDecl.nodes, Node.exprs_type_cons,
        Node.exprs_append, List.forall_mem_append]
      exact ⟨⟨⟨hfields, hconstructors⟩, hmethods⟩, hnested⟩

theorem typeDecls_rewrites (hk : L.Knows r F G Opens) : ∀ ds : List TypeDecl,
    L.holds (r.typeDecls ds) fun i ds' =>
      ds' = TypeDecl.rewriteAll (F i) ds
        ∧ ∀ x ∈ Node.exprs (TypeDecl.nodesOfAll ds'), G i x
  | [] => L.ofPure fun _ => ⟨rfl, fun _ hx => (nomatch hx)⟩
  | d :: ds => by
      rw [typeDecls]
      refine L.ofBind (typeDecl_rewrites hk d) fun d' => ?_
      refine L.ofBind (typeDecls_rewrites hk ds) fun ds' =>
        L.ofPure fun i hds hd => ?_
      obtain ⟨rfl, hd⟩ := hd
      obtain ⟨rfl, hds⟩ := hds
      refine ⟨rfl, ?_⟩
      rw [TypeDecl.nodesOfAll, Node.exprs_append]
      exact List.forall_mem_append.2 ⟨hd, hds⟩

end

-- ---------------------------------------------------------- on the way out

variable {h : Expr → m Expr}

/-- What is known of the hook of a walk: the expression it yields, and that
it establishes a property if the parts have it. -/
def KnowsHook (L : Reasoning m ι) (h : Expr → m Expr) (F : ι → Expr → Expr)
    (G : ι → Expr → Prop) : Prop :=
  ∀ e, L.holds (h e) fun i e' =>
    e' = F i e ∧ ((∀ x ∈ e.parts, G i x) → ∀ x ∈ e'.subterms, G i x)

theorem KnowsHook.knows (hh : L.KnowsHook h F G) :
    L.Knows (walk h) F G fun _ _ => True where
  enter := rfl
  leave := rfl
  look := rfl
  entry _ := L.ofPure fun _ => trivial
  exit _ e₁ _ := L.mono (hh e₁) fun _ _ he _ => he

/-- A walk yields the rewritten block, and all of it has the property that
the hook establishes. -/
theorem block_holds (hh : L.KnowsHook h F G) (b : Block) :
    L.holds ((walk h).block b) fun i b' =>
      b' = b.rewrite (F i) ∧ ∀ x ∈ b'.exprs, G i x :=
  L.block_rewrites hh.knows b

end Reasoning

-- ================================================= walks that do nothing else

/-- A way to say that a computation answers something and does nothing
else. -/
structure Answering (m : Type → Type) [Monad m] where
  returns : {α : Type} → m α → α → Prop
  ofPure : ∀ {α : Type} (a : α), returns (pure a) a
  ofBind : ∀ {α β : Type} {x : m α} {f : α → m β} {a : α} {b : β},
    returns x a → returns (f a) b → returns (x >>= f) b

namespace Answering

variable (A : Answering m) {h : Expr → m Expr}

/-- A loop answers if each turn does. -/
theorem forM_returns {α : Type} {f : α → m Unit} : ∀ {as : List α},
    (∀ a ∈ as, A.returns (f a) ()) → A.returns (as.forM f) ()
  | [], _ => A.ofPure ()
  | _ :: _, hf =>
      A.ofBind (hf _ List.mem_cons_self)
        (forM_returns fun a ha => hf a (List.mem_cons_of_mem _ ha))

mutual

theorem typeRef_returns : ∀ t : TypeRef, A.returns ((walk h).typeRef t) t
  | ⟨name, args, isParam⟩ => by
      rw [typeRef]
      exact A.ofBind (A.ofPure none)
        (A.ofBind (typeRefs_returns args) (A.ofPure _))

theorem typeRefs_returns :
    ∀ ts : List TypeRef, A.returns ((walk h).typeRefs ts) ts
  | [] => A.ofPure []
  | t :: ts => by
      rw [typeRefs]
      exact A.ofBind (typeRef_returns t)
        (A.ofBind (typeRefs_returns ts) (A.ofPure _))

end

/-- Nothing is done on entry to an expression. -/
theorem enter_returns {e a : Expr} {k : m Expr} (hk : A.returns k a) :
    A.returns (do
      (walk h).look (.expr e)
      match ← (walk h).enterExpr e with
      | some e => pure e
      | none => k) a :=
  A.ofBind (A.ofPure ()) (A.ofBind (A.ofPure none) hk)

/-- That the hook makes of an expression whose parts have been rewritten what
the rewriting makes of it. -/
def Rewrites (A : Answering m) (h : Expr → m Expr) (f : Expr → Expr)
    (e : Expr) : Prop :=
  A.returns (h (e.mapParts (Expr.rewrite f))) (f (e.mapParts (Expr.rewrite f)))

variable {f : Expr → Expr}

mutual

/-- An expression comes back rewritten if the hook rewrites all expressions in
it. -/
theorem expr_returns : ∀ e : Expr, (∀ x ∈ e.subterms, A.Rewrites h f x) →
    A.returns ((walk h).expr e) (e.rewrite f)
  | .literal _, hx | .self _, hx | .super, hx | .var _, hx => by
      rw [expr]
      exact A.enter_returns (hx _ List.mem_cons_self)
  | .field t _, hx => by
      rw [expr, Expr.rewrite_eq]
      obtain ⟨he, ht⟩ := List.forall_mem_cons.1 hx
      exact A.enter_returns (A.ofBind (target_returns t ht) he)
  | .call t _ args, hx => by
      rw [expr, Expr.rewrite_eq]
      obtain ⟨he, hparts⟩ := List.forall_mem_cons.1 hx
      obtain ⟨ht, hargs⟩ := List.forall_mem_append.1 hparts
      exact A.enter_returns (A.ofBind (target_returns t ht)
        (A.ofBind (A.typeRefs_returns _)
          (A.ofBind (exprs_returns args hargs) he)))
  | .new type args, hx => by
      rw [expr, Expr.rewrite_eq]
      obtain ⟨he, hargs⟩ := List.forall_mem_cons.1 hx
      exact A.enter_returns (A.ofBind (A.typeRef_returns type)
        (A.ofBind (exprs_returns args hargs) he))
  | .unary _ e, hx => by
      rw [expr, Expr.rewrite_eq]
      obtain ⟨he, hpart⟩ := List.forall_mem_cons.1 hx
      exact A.enter_returns (A.ofBind (expr_returns e hpart) he)
  | .binary _ a b, hx | .assign _ a b, hx => by
      rw [expr, Expr.rewrite_eq]
      obtain ⟨he, hparts⟩ := List.forall_mem_cons.1 hx
      obtain ⟨ha, hb⟩ := List.forall_mem_append.1 hparts
      exact A.enter_returns (A.ofBind (expr_returns a ha)
        (A.ofBind (expr_returns b hb) he))
  | .conditional c a b, hx => by
      rw [expr, Expr.rewrite_eq]
      obtain ⟨he, hparts⟩ := List.forall_mem_cons.1 hx
      obtain ⟨hparts, hb⟩ := List.forall_mem_append.1 hparts
      obtain ⟨hc, ha⟩ := List.forall_mem_append.1 hparts
      exact A.enter_returns (A.ofBind (expr_returns c hc)
        (A.ofBind (expr_returns a ha) (A.ofBind (expr_returns b hb) he)))

theorem target_returns : ∀ t : Option Expr,
    (∀ x ∈ Expr.subtermsOfTarget t, A.Rewrites h f x) →
    A.returns ((walk h).target t) (t.map (Expr.rewrite f))
  | none, _ => A.ofPure none
  | some e, hx => by
      rw [target]
      exact A.ofBind (expr_returns e hx) (A.ofPure _)

theorem exprs_returns : ∀ es : List Expr,
    (∀ x ∈ Expr.subtermsOfAll es, A.Rewrites h f x) →
    A.returns ((walk h).exprs es) (es.map (Expr.rewrite f))
  | [], _ => A.ofPure []
  | e :: es, hx => by
      rw [exprs]
      obtain ⟨he, hes⟩ := List.forall_mem_append.1 hx
      exact A.ofBind (expr_returns e he)
        (A.ofBind (exprs_returns es hes) (A.ofPure _))

end

theorem optional_returns (e : Option Expr)
    (hx : ∀ x ∈ Expr.subtermsOfTarget e, A.Rewrites h f x) :
    A.returns (optional (walk h).expr e) (e.map (Expr.rewrite f)) := by
  cases e with
  | none => exact A.ofPure none
  | some e => exact A.ofBind (A.expr_returns e hx) (A.ofPure _)

theorem each_returns (es : List Expr)
    (hx : ∀ x ∈ Expr.subtermsOfAll es, A.Rewrites h f x) :
    A.returns (each (walk h).expr es) (es.map (Expr.rewrite f)) := by
  induction es with
  | nil => exact A.ofPure []
  | cons e es ih =>
      obtain ⟨he, hes⟩ := List.forall_mem_append.1 hx
      exact A.ofBind (A.expr_returns e he) (A.ofBind (ih hes) (A.ofPure _))

mutual

/-- A statement comes back rewritten if the hook rewrites all expressions in
it. -/
theorem stmt_returns :
    ∀ s : Stmt, (∀ x ∈ Node.exprs s.nodes, A.Rewrites h f x) →
    A.returns ((walk h).stmt s) (s.rewrite f)
  | .expr e, hx | .throw e, hx => by
      simp only [Stmt.nodes, Node.exprs_stmt_cons, Node.exprs_nodes] at hx
      rw [stmt]
      exact A.ofBind (A.ofPure ())
        (A.ofBind (A.expr_returns e hx) (A.ofPure _))
  | .declare type _ init, hx => by
      simp only [Stmt.nodes, Node.exprs_stmt_cons, Node.exprs_nodesOf?] at hx
      rw [stmt]
      exact A.ofBind (A.ofPure ()) (A.ofBind (A.typeRef_returns type)
        (A.ofBind (A.optional_returns init hx) (A.ofPure _)))
  | .branch cond yes no, hx => by
      simp only [Stmt.nodes, Node.exprs_stmt_cons, Node.exprs_append,
        Node.exprs_nodes, Node.exprs_block_cons, List.forall_mem_append] at hx
      obtain ⟨⟨hcond, hyes⟩, hno⟩ := hx
      rw [stmt]
      exact A.ofBind (A.ofPure ()) (A.ofBind (A.expr_returns cond hcond)
        (A.ofBind (A.ofPure ()) (A.ofBind (stmts_returns yes hyes)
          (A.ofBind (block?_returns no hno) (A.ofPure _)))))
  | .loop cond body, hx => by
      simp only [Stmt.nodes, Node.exprs_stmt_cons, Node.exprs_append,
        Node.exprs_nodes, Node.exprs_block_cons, List.forall_mem_append] at hx
      obtain ⟨hcond, hbody⟩ := hx
      rw [stmt]
      exact A.ofBind (A.ofPure ()) (A.ofBind (A.expr_returns cond hcond)
        (A.ofBind (A.ofPure ())
          (A.ofBind (stmts_returns body hbody) (A.ofPure _))))
  | .ret value, hx => by
      simp only [Stmt.nodes, Node.exprs_stmt_cons, Node.exprs_nodesOf?] at hx
      rw [stmt]
      exact A.ofBind (A.ofPure ()) (A.ofBind (A.optional_returns value hx)
        (A.ofPure _))
  | .check cond message, hx => by
      simp only [Stmt.nodes, Node.exprs_stmt_cons, Node.exprs_append,
        Node.exprs_nodes, Node.exprs_nodesOf?, List.forall_mem_append] at hx
      obtain ⟨hcond, hmessage⟩ := hx
      rw [stmt]
      exact A.ofBind (A.ofPure ()) (A.ofBind (A.expr_returns cond hcond)
        (A.ofBind (A.optional_returns message hmessage) (A.ofPure _)))
  | .superConstructor args, hx => by
      simp only [Stmt.nodes, Node.exprs_stmt_cons,
        Node.exprs_flatMap_nodes] at hx
      rw [stmt]
      exact A.ofBind (A.ofPure ())
        (A.ofBind (A.each_returns args hx) (A.ofPure _))
  | .block body, hx => by
      simp only [Stmt.nodes, Node.exprs_stmt_cons, Node.exprs_block_cons] at hx
      rw [stmt]
      exact A.ofBind (A.ofPure ()) (A.ofBind (A.ofPure ())
        (A.ofBind (stmts_returns body hx) (A.ofPure _)))

theorem block?_returns : ∀ b : Option (List Stmt),
    (∀ x ∈ Node.exprs (Stmt.nodesOfBlock? b), A.Rewrites h f x) →
    A.returns ((walk h).block? b) (Stmt.rewriteBlock? f b)
  | none, _ => A.ofPure none
  | some b, hx => by
      rw [block?]
      exact A.ofBind (A.ofPure ()) (A.ofBind (stmts_returns b hx) (A.ofPure _))

theorem stmts_returns : ∀ ss : List Stmt,
    (∀ x ∈ Node.exprs (Stmt.nodesOfAll ss), A.Rewrites h f x) →
    A.returns ((walk h).stmts ss) (Stmt.rewriteAll f ss)
  | [], _ => A.ofPure []
  | s :: ss, hx => by
      rw [Stmt.nodesOfAll, Node.exprs_append, List.forall_mem_append] at hx
      rw [stmts]
      exact A.ofBind (stmt_returns s hx.1) (A.ofBind (stmts_returns ss hx.2)
        (A.ofPure _))

end

/-- A block comes back rewritten if the hook rewrites all expressions in it. -/
theorem block_returns_rewrite {b : Block}
    (hx : ∀ x ∈ b.exprs, A.Rewrites h f x) :
    A.returns ((walk h).block b) (b.rewrite f) :=
  A.ofBind (A.ofPure ()) (A.stmts_returns b hx)

/-- A block comes back if all expressions in it do. -/
theorem block_returns {b : Block} (hx : ∀ x ∈ b.exprs, A.returns (h x) x) :
    A.returns ((walk h).block b) b := by
  have hrewrite : Expr.rewrite id = id :=
    funext fun e => e.rewrite_eq_self fun _ _ => rfl
  have hsame : ∀ x ∈ b.exprs, A.Rewrites h id x := by
    intro x hmem
    unfold Rewrites
    rw [hrewrite, Expr.mapParts_id]
    exact hx x hmem
  have hblock := A.block_returns_rewrite hsame
  have hid : b.rewrite id = b := Block.rewrite_eq_self fun _ _ => rfl
  rwa [hid] at hblock

end Answering

end Stagewise.Transformer
