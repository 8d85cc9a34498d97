/-
Rewriting of bodies from the inside out.

`rewrite f` puts `f e` in the place of every expression `e` whose parts
have been rewritten. It is the plain meaning of a transformation that only
changes expressions on the way out.

Where `f` fixes every expression there is, nothing changes
(`Block.rewrite_eq_self`, `TypeDecl.rewrite_eq_self`). Where `f` leaves the
parts of an expression as they are, a rewritten body consists of the
expressions of the former one, rewritten, in the same order
(`Block.exprs_rewrite`).
-/
import Stagewise.Program.Nodes

namespace Stagewise

-- ============================================================= expressions

namespace Expr

variable {f : Expr → Expr}

mutual

/-- Rewrite the parts of an expression and then the expression. -/
def rewrite (f : Expr → Expr) : Expr → Expr
  | .literal v => f (.literal v)
  | .self q => f (.self q)
  | .super => f .super
  | .var name => f (.var name)
  | .field t r => f (.field (rewriteTarget f t) r)
  | .call t m args => f (.call (rewriteTarget f t) m (rewriteAll f args))
  | .new type args => f (.new type (rewriteAll f args))
  | .unary op e => f (.unary op (rewrite f e))
  | .binary op a b => f (.binary op (rewrite f a) (rewrite f b))
  | .assign op a b => f (.assign op (rewrite f a) (rewrite f b))
  | .conditional c a b =>
      f (.conditional (rewrite f c) (rewrite f a) (rewrite f b))

/-- `rewrite` on a target. -/
def rewriteTarget (f : Expr → Expr) : Option Expr → Option Expr
  | none => none
  | some e => some (rewrite f e)

/-- `rewrite` on arguments. -/
def rewriteAll (f : Expr → Expr) : List Expr → List Expr
  | [] => []
  | e :: es => rewrite f e :: rewriteAll f es

end

/-- An expression without its parts. -/
def top : Expr → Expr
  | .field _ f => .field none f
  | .call _ m _ => .call none m []
  | .new type _ => .new type []
  | .unary op _ => .unary op .super
  | .binary op _ _ => .binary op .super .super
  | .assign op _ _ => .assign op .super .super
  | .conditional _ _ _ => .conditional .super .super .super
  | e => e

/-- Change the parts right below an expression. -/
def mapParts (f : Expr → Expr) : Expr → Expr
  | .field t r => .field (t.map f) r
  | .call t m args => .call (t.map f) m (args.map f)
  | .new type args => .new type (args.map f)
  | .unary op e => .unary op (f e)
  | .binary op a b => .binary op (f a) (f b)
  | .assign op a b => .assign op (f a) (f b)
  | .conditional c a b => .conditional (f c) (f a) (f b)
  | e => e

theorem mapParts_id (e : Expr) : e.mapParts id = e := by
  cases e <;> simp [mapParts]

@[simp] theorem top_mapParts (f : Expr → Expr) (e : Expr) :
    (e.mapParts f).top = e.top := by
  cases e <;> rfl

theorem field?_top (e : Expr) : e.top.field? = e.field? := by
  cases e <;> rfl

/-- The expressions inside an expression, itself left out. -/
def parts (e : Expr) : List Expr := e.subterms.tail

theorem subterms_eq_cons (e : Expr) : e.subterms = e :: e.parts := by
  cases e <;> rfl

/-- What holds of an expression and of its parts holds of all of it. -/
theorem forall_mem_subterms {p : Expr → Prop} {e : Expr} (he : p e)
    (hparts : ∀ x ∈ e.parts, p x) : ∀ x ∈ e.subterms, p x := by
  rw [subterms_eq_cons]
  exact List.forall_mem_cons.2 ⟨he, hparts⟩

theorem rewriteTarget_eq_map (t : Option Expr) :
    rewriteTarget f t = t.map (rewrite f) := by
  cases t <;> rfl

theorem rewriteAll_eq_map (es : List Expr) :
    rewriteAll f es = es.map (rewrite f) := by
  induction es with
  | nil => rfl
  | cons e es ih => rw [rewriteAll, ih, List.map_cons]

/-- Rewriting an expression ends at its top. -/
theorem rewrite_eq (f : Expr → Expr) (e : Expr) :
    e.rewrite f = f (e.mapParts (rewrite f)) := by
  cases e <;> simp only [rewrite, mapParts, rewriteTarget_eq_map,
    rewriteAll_eq_map]

-- -------------------------------------------------------------- what is kept

mutual

/-- Rewriting changes nothing where it changes no expression. -/
theorem rewrite_eq_self : ∀ e : Expr, (∀ x ∈ e.subterms, f x = x) →
    e.rewrite f = e
  | .literal v, h | .self v, h | .var v, h => h _ List.mem_cons_self
  | .super, h => h _ List.mem_cons_self
  | .field t r, h => by
      have ht := rewriteTarget_eq_self t
        fun x hx => h x (List.mem_cons_of_mem _ hx)
      rw [rewrite, ht]
      exact h _ List.mem_cons_self
  | .call t m args, h => by
      have ht := rewriteTarget_eq_self t
        fun x hx => h x (List.mem_cons_of_mem _ (List.mem_append_left _ hx))
      have hargs := rewriteAll_eq_self args
        fun x hx => h x (List.mem_cons_of_mem _ (List.mem_append_right _ hx))
      rw [rewrite, ht, hargs]
      exact h _ List.mem_cons_self
  | .new type args, h => by
      have hargs := rewriteAll_eq_self args
        fun x hx => h x (List.mem_cons_of_mem _ hx)
      rw [rewrite, hargs]
      exact h _ List.mem_cons_self
  | .unary op e, h => by
      have he := rewrite_eq_self e fun x hx => h x (List.mem_cons_of_mem _ hx)
      rw [rewrite, he]
      exact h _ List.mem_cons_self
  | .binary op a b, h | .assign op a b, h => by
      have ha := rewrite_eq_self a
        fun x hx => h x (List.mem_cons_of_mem _ (List.mem_append_left _ hx))
      have hb := rewrite_eq_self b
        fun x hx => h x (List.mem_cons_of_mem _ (List.mem_append_right _ hx))
      rw [rewrite, ha, hb]
      exact h _ List.mem_cons_self
  | .conditional c a b, h => by
      simp only [subterms, List.mem_cons, List.mem_append] at h
      have hc := rewrite_eq_self c fun x hx => h x (.inr (.inl (.inl hx)))
      have ha := rewrite_eq_self a fun x hx => h x (.inr (.inl (.inr hx)))
      have hb := rewrite_eq_self b fun x hx => h x (.inr (.inr hx))
      rw [rewrite, hc, ha, hb]
      exact h _ (.inl rfl)

theorem rewriteTarget_eq_self : ∀ t : Option Expr,
    (∀ x ∈ subtermsOfTarget t, f x = x) → rewriteTarget f t = t
  | none, _ => rfl
  | some e, h => by rw [rewriteTarget, rewrite_eq_self e h]

theorem rewriteAll_eq_self : ∀ es : List Expr,
    (∀ x ∈ subtermsOfAll es, f x = x) → rewriteAll f es = es
  | [], _ => rfl
  | e :: es, h => by
      have he := rewrite_eq_self e fun x hx => h x (List.mem_append_left _ hx)
      have hes := rewriteAll_eq_self es
        fun x hx => h x (List.mem_append_right _ hx)
      rw [rewriteAll, he, hes]

end

-- ------------------------------------------------------------ place by place

/-- That a rewriting changes an expression at its top only. -/
def KeepsParts (f : Expr → Expr) : Prop := ∀ e, (f e).parts = e.parts

theorem subterms_of_keepsParts (hf : KeepsParts f) (e : Expr) :
    (f e).subterms = f e :: e.parts := by
  rw [subterms_eq_cons, hf]

mutual

/-- Each expression is rewritten in its place. -/
theorem subterms_rewrite (hf : KeepsParts f) : ∀ e : Expr,
    (e.rewrite f).subterms = e.subterms.map (rewrite f)
  | .literal _ | .self _ | .var _ | .super => subterms_of_keepsParts hf _
  | .field t r => by
      rw [rewrite, subterms_of_keepsParts hf, subterms, List.map_cons,
        ← subtermsOfTarget_rewrite hf t]
      rfl
  | .call t m args => by
      rw [rewrite, subterms_of_keepsParts hf, subterms, List.map_cons,
        List.map_append, ← subtermsOfTarget_rewrite hf
        t, ← subtermsOfAll_rewrite hf args]
      rfl
  | .new type args => by
      rw [rewrite, subterms_of_keepsParts hf, subterms, List.map_cons,
        ← subtermsOfAll_rewrite hf args]
      rfl
  | .unary op e => by
      rw [rewrite, subterms_of_keepsParts hf, subterms, List.map_cons,
        ← subterms_rewrite hf e]
      rfl
  | .binary op a b | .assign op a b => by
      rw [rewrite, subterms_of_keepsParts hf, subterms, List.map_cons,
        List.map_append, ← subterms_rewrite hf a, ← subterms_rewrite hf b]
      rfl
  | .conditional c a b => by
      rw [rewrite, subterms_of_keepsParts hf, subterms, List.map_cons,
        List.map_append,
        List.map_append, ← subterms_rewrite hf c, ← subterms_rewrite hf a,
        ← subterms_rewrite hf b]
      rfl

theorem subtermsOfTarget_rewrite (hf : KeepsParts f) : ∀ t : Option Expr,
    subtermsOfTarget (rewriteTarget f t) = (subtermsOfTarget t).map (rewrite f)
  | none => rfl
  | some e => subterms_rewrite hf e

theorem subtermsOfAll_rewrite (hf : KeepsParts f) : ∀ es : List Expr,
    subtermsOfAll (rewriteAll f es) = (subtermsOfAll es).map (rewrite f)
  | [] => rfl
  | e :: es => by
      rw [rewriteAll, subtermsOfAll, subterms_rewrite hf e,
        subtermsOfAll_rewrite hf es, subtermsOfAll, List.map_append]

end

end Expr

-- =================================================== statements and blocks

namespace Stmt

variable {f : Expr → Expr}

mutual

/-- Rewrite every expression of a statement. -/
def rewrite (f : Expr → Expr) : Stmt → Stmt
  | .expr e => .expr (e.rewrite f)
  | .declare type name init => .declare type name (init.map (Expr.rewrite f))
  | .branch cond yes no =>
      .branch (cond.rewrite f) (rewriteAll f yes) (rewriteBlock? f no)
  | .loop cond body => .loop (cond.rewrite f) (rewriteAll f body)
  | .ret value => .ret (value.map (Expr.rewrite f))
  | .check cond message =>
      .check (cond.rewrite f) (message.map (Expr.rewrite f))
  | .throw e => .throw (e.rewrite f)
  | .superConstructor args => .superConstructor (args.map (Expr.rewrite f))
  | .block body => .block (rewriteAll f body)

/-- `rewrite` on a block that may be absent. -/
def rewriteBlock? (f : Expr → Expr) : Option (List Stmt) → Option (List Stmt)
  | none => none
  | some b => some (rewriteAll f b)

/-- `rewrite` on the statements of a block. -/
def rewriteAll (f : Expr → Expr) : List Stmt → List Stmt
  | [] => []
  | s :: ss => rewrite f s :: rewriteAll f ss

end

end Stmt

/-- Rewrite every expression of a block. -/
def Block.rewrite (f : Expr → Expr) (b : Block) : Block := Stmt.rewriteAll f b

/-- Rewrite every expression of a method's body. -/
def Method.rewrite (f : Expr → Expr) (m : Method) : Method :=
  { m with body := m.body.map (Block.rewrite f) }

/-- Rewrite the initial value of a field. -/
def Field.rewrite (f : Expr → Expr) (d : Field) : Field :=
  { d with init := d.init.map (Expr.rewrite f) }

/-- Rewrite every expression of a constructor's body. -/
def Constructor.rewrite (f : Expr → Expr) (c : Constructor) : Constructor :=
  { c with body := c.body.rewrite f }

namespace TypeDecl

mutual

/-- Rewrite every expression of a type, of nested types too. -/
def rewrite (f : Expr → Expr) : TypeDecl → TypeDecl
  | ⟨kind, name, package, typeParams, superclass, interfaces, modifiers,
      markers, fields, methods, constructors, nested, position⟩ =>
      ⟨kind, name, package, typeParams, superclass, interfaces, modifiers,
        markers, fields.map (Field.rewrite f), methods.map (Method.rewrite f),
        constructors.map (Constructor.rewrite f),
        rewriteAll f nested, position⟩

/-- `rewrite` on sibling types. -/
def rewriteAll (f : Expr → Expr) : List TypeDecl → List TypeDecl
  | [] => []
  | d :: ds => rewrite f d :: rewriteAll f ds

end

/-- Every expression of a type, at any depth. -/
def exprs (d : TypeDecl) : List Expr := Node.exprs d.nodes

end TypeDecl

-- -------------------------------------------------- the expressions of nodes

namespace Node

@[simp] theorem exprs_append (ns ms : List Node) :
    exprs (ns ++ ms) = exprs ns ++ exprs ms := List.filterMap_append

@[simp] theorem exprs_type_cons (d : TypeDecl) (ns : List Node) :
    exprs (.type d :: ns) = exprs ns := rfl

@[simp] theorem exprs_stmt_cons (s : Stmt) (ns : List Node) :
    exprs (.stmt s :: ns) = exprs ns := rfl

@[simp] theorem exprs_block_cons (b : Block) (ns : List Node) :
    exprs (.block b :: ns) = exprs ns := rfl

@[simp] theorem exprs_nodes (e : Expr) : exprs e.nodes = e.subterms := by
  unfold exprs Expr.nodes
  rw [List.filterMap_map]
  exact List.filterMap_some

@[simp] theorem exprs_nodesOf? (e : Option Expr) :
    exprs (Expr.nodesOf? e) = Expr.subtermsOfTarget e := by
  cases e with
  | none => rfl
  | some e => exact exprs_nodes e

@[simp] theorem exprs_flatMap_nodes (es : List Expr) :
    exprs (es.flatMap Expr.nodes) = Expr.subtermsOfAll es := by
  induction es with
  | nil => rfl
  | cons e es ih =>
      rw [List.flatMap_cons, exprs_append, exprs_nodes, ih]
      rfl

end Node

namespace Block

@[simp] theorem exprs_nil : exprs [] = [] := rfl

@[simp] theorem exprs_cons (s : Stmt) (b : Block) :
    exprs (s :: b) = Node.exprs s.nodes ++ exprs b :=
  Node.exprs_append s.nodes (Stmt.nodesOfAll b)

@[simp] theorem exprs_append (b b' : Block) :
    exprs (b ++ b') = exprs b ++ exprs b' := by
  induction b with
  | nil => rfl
  | cons s b ih => rw [List.cons_append, exprs_cons, exprs_cons, ih,
      List.append_assoc]

end Block

namespace Stmt

variable {f : Expr → Expr}

-- -------------------------------------------------------------- what is kept

mutual

theorem rewrite_eq_self : ∀ s : Stmt, (∀ x ∈ Node.exprs s.nodes, f x = x) →
    s.rewrite f = s
  | .expr e, h | .throw e, h => by
      simp only [nodes, Node.exprs_stmt_cons, Node.exprs_nodes] at h
      rw [rewrite, Expr.rewrite_eq_self e h]
  | .declare _ _ e, h | .ret e, h => by
      simp only [nodes, Node.exprs_stmt_cons, Node.exprs_nodesOf?] at h
      rw [rewrite, ← Expr.rewriteTarget_eq_map, Expr.rewriteTarget_eq_self e h]
  | .branch cond yes no, h => by
      simp only [nodes, Node.exprs_stmt_cons, Node.exprs_append,
        Node.exprs_nodes, Node.exprs_block_cons, List.forall_mem_append] at h
      obtain ⟨⟨hcond, hyes⟩, hno⟩ := h
      rw [rewrite, Expr.rewrite_eq_self cond hcond,
        rewriteAll_eq_self yes hyes, rewriteBlock?_eq_self no hno]
  | .loop cond body, h => by
      simp only [nodes, Node.exprs_stmt_cons, Node.exprs_append,
        Node.exprs_nodes, Node.exprs_block_cons, List.forall_mem_append] at h
      obtain ⟨hcond, hbody⟩ := h
      rw [rewrite, Expr.rewrite_eq_self cond hcond,
        rewriteAll_eq_self body hbody]
  | .check cond message, h => by
      simp only [nodes, Node.exprs_stmt_cons, Node.exprs_append,
        Node.exprs_nodes, Node.exprs_nodesOf?, List.forall_mem_append] at h
      obtain ⟨hcond, hmessage⟩ := h
      rw [rewrite, ← Expr.rewriteTarget_eq_map,
        Expr.rewrite_eq_self cond hcond,
        Expr.rewriteTarget_eq_self message hmessage]
  | .superConstructor args, h => by
      simp only [nodes, Node.exprs_stmt_cons, Node.exprs_flatMap_nodes] at h
      rw [rewrite, ← Expr.rewriteAll_eq_map, Expr.rewriteAll_eq_self args h]
  | .block body, h => by
      simp only [nodes, Node.exprs_stmt_cons, Node.exprs_block_cons] at h
      rw [rewrite, rewriteAll_eq_self body h]

theorem rewriteBlock?_eq_self : ∀ b : Option (List Stmt),
    (∀ x ∈ Node.exprs (nodesOfBlock? b), f x = x) → rewriteBlock? f b = b
  | none, _ => rfl
  | some b, h => by rw [rewriteBlock?, rewriteAll_eq_self b h]

theorem rewriteAll_eq_self : ∀ ss : List Stmt,
    (∀ x ∈ Node.exprs (nodesOfAll ss), f x = x) → rewriteAll f ss = ss
  | [], _ => rfl
  | s :: ss, h => by
      rw [nodesOfAll, Node.exprs_append, List.forall_mem_append] at h
      rw [rewriteAll, rewrite_eq_self s h.1, rewriteAll_eq_self ss h.2]

end

end Stmt

namespace Stmt

variable {f : Expr → Expr}

-- ------------------------------------------------------------ place by place

mutual

theorem exprs_rewrite (hf : Expr.KeepsParts f) : ∀ s : Stmt,
    Node.exprs (s.rewrite f).nodes = (Node.exprs s.nodes).map (Expr.rewrite f)
  | .expr e | .throw e => by
      simp only [rewrite, nodes, Node.exprs_stmt_cons, Node.exprs_nodes,
        Expr.subterms_rewrite hf]
  | .declare _ _ e | .ret e => by
      simp only [rewrite, nodes, Node.exprs_stmt_cons, Node.exprs_nodesOf?,
        ← Expr.rewriteTarget_eq_map, Expr.subtermsOfTarget_rewrite hf]
  | .branch cond yes no => by
      simp only [rewrite, nodes, Node.exprs_stmt_cons, Node.exprs_append,
        Node.exprs_nodes, Node.exprs_block_cons, List.map_append,
        Expr.subterms_rewrite hf, exprs_rewriteAll hf yes,
        exprs_rewriteBlock? hf no]
  | .loop cond body => by
      simp only [rewrite, nodes, Node.exprs_stmt_cons, Node.exprs_append,
        Node.exprs_nodes, Node.exprs_block_cons, List.map_append,
        Expr.subterms_rewrite hf, exprs_rewriteAll hf body]
  | .check cond message => by
      simp only [rewrite, nodes, Node.exprs_stmt_cons, Node.exprs_append,
        Node.exprs_nodes, Node.exprs_nodesOf?, List.map_append,
        Expr.subterms_rewrite hf, ← Expr.rewriteTarget_eq_map,
        Expr.subtermsOfTarget_rewrite hf]
  | .superConstructor args => by
      simp only [rewrite, nodes, Node.exprs_stmt_cons,
        Node.exprs_flatMap_nodes, ← Expr.rewriteAll_eq_map,
        Expr.subtermsOfAll_rewrite hf]
  | .block body => by
      simp only [rewrite, nodes, Node.exprs_stmt_cons, Node.exprs_block_cons,
        exprs_rewriteAll hf body]

theorem exprs_rewriteBlock? (hf : Expr.KeepsParts f) :
    ∀ b : Option (List Stmt), Node.exprs (nodesOfBlock? (rewriteBlock? f b))
      = (Node.exprs (nodesOfBlock? b)).map (Expr.rewrite f)
  | none => rfl
  | some b => by
      simp only [rewriteBlock?, nodesOfBlock?, Node.exprs_block_cons,
        exprs_rewriteAll hf b]

theorem exprs_rewriteAll (hf : Expr.KeepsParts f) : ∀ ss : List Stmt,
    Node.exprs (nodesOfAll (rewriteAll f ss))
      = (Node.exprs (nodesOfAll ss)).map (Expr.rewrite f)
  | [] => rfl
  | s :: ss => by
      simp only [rewriteAll, nodesOfAll, Node.exprs_append, List.map_append,
        exprs_rewrite hf s, exprs_rewriteAll hf ss]

end

end Stmt

-- ================================================================== bodies

variable {f : Expr → Expr}

theorem Block.rewrite_append (a b : Block) :
    Block.rewrite f (a ++ b) = a.rewrite f ++ b.rewrite f := by
  induction a with
  | nil => rfl
  | cons s a ih => exact congrArg (s.rewrite f :: ·) ih

/-- A rewritten block consists of the expressions of the former one, each
rewritten. -/
theorem Block.exprs_rewrite (hf : Expr.KeepsParts f) (b : Block) :
    (b.rewrite f).exprs = b.exprs.map (Expr.rewrite f) :=
  Stmt.exprs_rewriteAll hf b

/-- The expressions of a field are those of its initial value. -/
theorem Field.exprs_nodes (f : Field) :
    Node.exprs f.nodes = Expr.subtermsOfTarget f.init :=
  Node.exprs_nodesOf? f.init

/-- The expressions of a method are those of its body. -/
theorem Method.exprs_nodes (m : Method) :
    Node.exprs m.nodes = m.bodyOrEmpty.exprs := by
  unfold Method.nodes Method.bodyOrEmpty
  cases m.body <;> rfl

/-- `Block.exprs_rewrite` for the body of a method. -/
theorem Method.exprs_rewrite (hf : Expr.KeepsParts f) (m : Method) :
    (m.rewrite f).bodyOrEmpty.exprs = m.bodyOrEmpty.exprs.map
      (Expr.rewrite f) := by
  unfold Method.rewrite Method.bodyOrEmpty
  cases m.body with
  | none => rfl
  | some b => exact Block.exprs_rewrite hf b

/-- Rewriting changes nothing in a block where it changes no
expression. -/
theorem Block.rewrite_eq_self {b : Block} (h : ∀ x ∈ b.exprs, f x = x) :
    b.rewrite f = b :=
  Stmt.rewriteAll_eq_self b h

/-- `Block.rewrite_eq_self` for the body of a method. -/
theorem Method.rewrite_eq_self {m : Method}
    (h : ∀ x ∈ m.bodyOrEmpty.exprs, f x = x) : m.rewrite f = m := by
  have hbody : m.body.map (Block.rewrite f) = m.body := by
    unfold Method.bodyOrEmpty at h
    cases hm : m.body with
    | none => rfl
    | some b =>
        rw [hm] at h
        exact congrArg some (Block.rewrite_eq_self h)
  unfold Method.rewrite
  rw [hbody]

theorem Field.rewrite_eq_self {d : Field}
    (h : ∀ x ∈ Node.exprs d.nodes, f x = x) :
    d.rewrite f = d := by
  rw [Field.exprs_nodes] at h
  unfold Field.rewrite
  rw [← Expr.rewriteTarget_eq_map, Expr.rewriteTarget_eq_self d.init h]

theorem Constructor.rewrite_eq_self {c : Constructor}
    (h : ∀ x ∈ Node.exprs c.nodes, f x = x) :
    c.rewrite f = c := by
  unfold Constructor.rewrite
  rw [Block.rewrite_eq_self h]

/-- Members stay as they are where each does. -/
theorem map_eq_self {α : Type} {k : α → α} {nodes : α → List Node}
    {as : List α} (hk : ∀ a, (∀ x ∈ Node.exprs (nodes a), f x = x) → k a = a)
    (h : ∀ x ∈ Node.exprs (as.flatMap nodes), f x = x) : as.map k = as := by
  induction as with
  | nil => rfl
  | cons a as ih =>
      rw [List.flatMap_cons, Node.exprs_append, List.forall_mem_append] at h
      rw [List.map_cons, hk a h.1, ih h.2]

namespace TypeDecl

mutual

/-- Rewriting changes nothing in a type where it changes no expression. -/
theorem rewrite_eq_self : ∀ d : TypeDecl, (∀ x ∈ d.exprs, f x = x) →
    d.rewrite f = d
  | ⟨_, _, _, _, _, _, _, _, fields, methods, constructors, nested, _⟩, h => by
      simp only [exprs, nodes, Node.exprs_type_cons, Node.exprs_append,
        List.forall_mem_append] at h
      obtain ⟨⟨⟨hfields, hconstructors⟩, hmethods⟩, hnested⟩ := h
      have hmethod : ∀ m : Method, (∀ x ∈ Node.exprs m.nodes, f x = x) →
          m.rewrite f = m :=
        fun m hm => Method.rewrite_eq_self (m.exprs_nodes ▸ hm)
      rw [rewrite, map_eq_self (fun _ => Field.rewrite_eq_self) hfields,
        map_eq_self (fun _ => Constructor.rewrite_eq_self) hconstructors,
        map_eq_self hmethod hmethods, rewriteAll_eq_self nested hnested]

theorem rewriteAll_eq_self : ∀ ds : List TypeDecl,
    (∀ x ∈ Node.exprs (nodesOfAll ds), f x = x) → rewriteAll f ds = ds
  | [], _ => rfl
  | d :: ds, h => by
      rw [nodesOfAll, Node.exprs_append, List.forall_mem_append] at h
      rw [rewriteAll, rewrite_eq_self d h.1, rewriteAll_eq_self ds h.2]

end

end TypeDecl

end Stagewise
