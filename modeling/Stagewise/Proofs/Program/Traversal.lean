/-
The two traversals of a declaration: the nodes in reading order, and the
walk of a transformer.

# What there is to come to

A declaration is a tree of items, its nodes and its type references
(`Item.children`). A position is the way down to an item, child number by
child number (`Item.at?`), so that equal items at two places are told apart.
A log enumerates a tree if it has what stands at every position just once,
and nothing before the item that it stands in (`Enumerates`).

# What a walk comes to

A walk traverses a tree if it visits the items of such a log in turn and
hands back what it was given (`Traverses`). It does so if it visits an item
and then traverses the children (`Traverses.inside`), in sequence
(`Traverses.bind`). The recursion of a transformer is put together in just
this way, and what it visits are the listed nodes with the type references
between them (`typeDecl_traverses`).
-/
import Mathlib.Data.List.Basic
import Stagewise.Program.Transform

namespace Stagewise

-- =================================================================== items

/-- What stands in a declaration: a node or a type reference. -/
inductive Item where
  | node (n : Node)
  | ref (t : TypeRef)

namespace Item

/-- The node that an item is, if it is one. -/
def node? : Item → Option Node
  | .node n => some n
  | .ref _ => none

abbrev expr (e : Expr) : Item := .node (.expr e)

abbrev stmt (s : Stmt) : Item := .node (.stmt s)

abbrev block (b : Block) : Item := .node (.block b)

end Item

/-- The items directly inside an expression. -/
def Expr.children : Expr → List Item
  | .literal _ | .self _ | .super | .var _ => []
  | .field t _ => t.toList.map .expr
  | .call t m args =>
      t.toList.map .expr ++ (m.params.map .ref ++ args.map .expr)
  | .new type args => .ref type :: args.map .expr
  | .unary _ e => [.expr e]
  | .binary _ a b | .assign _ a b => [.expr a, .expr b]
  | .conditional c a b => [.expr c, .expr a, .expr b]

/-- The items directly inside a statement. -/
def Stmt.children : Stmt → List Item
  | .expr e | .throw e => [.expr e]
  | .declare type _ init => .ref type :: init.toList.map .expr
  | .branch cond yes no => .expr cond :: .block yes :: no.toList.map .block
  | .loop cond body => [.expr cond, .block body]
  | .ret value => value.toList.map .expr
  | .check cond message => .expr cond :: message.toList.map .expr
  | .superConstructor args => args.map .expr
  | .block body => [.block body]

/-- The items directly inside a type. -/
def TypeDecl.children (d : TypeDecl) : List Item :=
  d.superclass.toList.map .ref ++ (d.interfaces.map .ref
    ++ (d.fields.map (fun f => .node (.field f))
    ++ (d.constructors.map (fun c => .node (.constructor c))
    ++ (d.methods.map (fun m => .node (.method m))
    ++ d.nested.map fun t => .node (.type t)))))

/-- The items directly inside a node. -/
def Node.children : Node → List Item
  | .type d => d.children
  | .field f => .ref f.type :: f.init.toList.map .expr
  | .method m =>
      .ref m.returns :: (m.params.map (.ref ·.type)
        ++ m.body.toList.map .block)
  | .constructor c => c.params.map (.ref ·.type) ++ [.block c.body]
  | .block b => b.map .stmt
  | .stmt s => s.children
  | .expr e => e.children

-- =============================================================== positions

namespace Item

/-- The items directly inside an item. Those of a type reference are its
arguments. -/
def children : Item → List Item
  | .node n => n.children
  | .ref t => t.args.map .ref

/-- The item at a position in an item. -/
def at? (x : Item) : List Nat → Option Item
  | [] => some x
  | i :: p => x.children[i]?.bind (·.at? p)

/-- The item at a position in some items: the number of one of them, and a
position in it. -/
def among (xs : List Item) : List Nat → Option Item
  | [] => none
  | i :: p => xs[i]?.bind (·.at? p)

/-- A position as it is with `n` more items to the left. -/
def shift (n : Nat) : List Nat → List Nat
  | [] => []
  | i :: p => (n + i) :: p

variable {x : Item} {xs ys : List Item} {p q : List Nat} {n : Nat}

theorem ne_nil_of_among (h : (among xs p).isSome) : p ≠ [] := by
  rintro rfl
  cases h

theorem at?_eq_among (hp : p ≠ []) : x.at? p = among x.children p := by
  cases p with
  | nil => exact absurd rfl hp
  | cons i p => rfl

theorem exists_cons_of_among (h : (among xs p).isSome) :
    ∃ i q, p = i :: q ∧ i < xs.length := by
  cases p with
  | nil => cases h
  | cons i q =>
      refine ⟨i, q, rfl, Nat.lt_of_not_le fun hle => ?_⟩
      rw [among, List.getElem?_eq_none hle] at h
      cases h

theorem among_append_left (h : (among xs p).isSome) :
    among (xs ++ ys) p = among xs p := by
  obtain ⟨i, q, rfl, hi⟩ := exists_cons_of_among h
  rw [among, among, List.getElem?_append_left hi]

theorem among_append_shift (p : List Nat) :
    among (xs ++ ys) (shift xs.length p) = among ys p := by
  cases p with
  | nil => rfl
  | cons i p =>
      rw [shift, among, among, List.getElem?_append_right
        (Nat.le_add_right ..), Nat.add_sub_cancel_left]

/-- A position among two rows of items is one among the former or one among the
latter. -/
theorem among_append_isSome : (among (xs ++ ys) p).isSome
    ↔ (among xs p).isSome ∨ ∃ q, (among ys q).isSome
    ∧ shift xs.length q = p := by
  constructor
  · intro h
    obtain ⟨i, q, rfl, -⟩ := exists_cons_of_among h
    by_cases hi : i < xs.length
    · rw [among, List.getElem?_append_left hi] at h
      exact .inl h
    · have hp : shift xs.length ((i - xs.length) :: q) = i :: q := by
        rw [shift, Nat.add_sub_cancel' (Nat.le_of_not_lt hi)]
      rw [← hp, among_append_shift] at h
      exact .inr ⟨_, h, hp⟩
  · rintro (h | ⟨q, h, rfl⟩)
    · rwa [among_append_left h]
    · rwa [among_append_shift]

theorem isPrefix_of_shift (h : shift n q <+: shift n p) : q <+: p := by
  cases q with
  | nil => exact List.nil_prefix
  | cons j q =>
      cases p with
      | nil => cases List.prefix_nil.1 h
      | cons i p =>
          obtain ⟨hij, hqp⟩ := List.cons_prefix_cons.1 h
          exact List.cons_prefix_cons.2 ⟨Nat.add_left_cancel hij, hqp⟩

end Item

-- ============================================================ enumerations

/-- That a log has what stands at all positions there are, position by
position, and that no position comes after one inside it. So none comes twice
either (`once`). -/
structure Enumerates {α : Type} (look : List Nat → Option α)
    (places : List (List Nat)) (log : List α) : Prop where
  outerFirst : places.Pairwise fun p q => ¬ q <+: p
  all : ∀ p, p ∈ places ↔ (look p).isSome
  read : places.filterMap look = log

namespace Enumerates

open Item

section

variable {α β : Type} {look : List Nat → Option α} {ps : List (List Nat)}
variable {l : List α}

/-- No position comes twice. -/
theorem once (h : Enumerates look ps l) : ps.Nodup :=
  h.outerFirst.imp fun {p q} hpq (heq : p = q) => hpq (heq ▸ List.prefix_rfl)

/-- What a view shows of a log enumerates what it shows of the tree. -/
theorem filterMap (h : Enumerates look ps l) (view : α → Option β) :
    Enumerates (fun p => (look p).bind view)
      (ps.filter fun p => ((look p).bind view).isSome)
      (l.filterMap view) where
  outerFirst := h.outerFirst.filter _
  all p := by
    rw [List.mem_filter, h.all, and_iff_right_iff_imp]
    intro hp
    cases hl : look p with
    | none => simp [hl] at hp
    | some a => rfl
  read := by
    rw [← h.read, List.filterMap_filterMap, List.filterMap_filter]
    refine List.filterMap_congr fun p _ => ?_
    cases (look p).bind view <;> simp

end

variable {x : Item} {xs ys : List Item} {ps qs : List (List Nat)}
variable {l k : List Item}

theorem nil : Enumerates (among []) [] [] where
  outerFirst := .nil
  all p := by cases p <;> simp [among]
  read := rfl

/-- An item and what stands in its children. -/
theorem inside (h : Enumerates (among x.children) ps l) :
    Enumerates x.at? ([] :: ps) (x :: l) where
  outerFirst := by
    refine .cons (fun p hp hpre => ?_) h.outerFirst
    exact ne_nil_of_among ((h.all p).1 hp) (List.prefix_nil.1 hpre)
  all p := by
    rw [List.mem_cons, h.all]
    cases p with
    | nil => simp [at?]
    | cons i p => simp [at?, among]
  read := by
    have hat : ps.filterMap x.at? = ps.filterMap (among x.children) :=
      List.filterMap_congr fun p hp =>
        at?_eq_among (ne_nil_of_among ((h.all p).1 hp))
    show x :: ps.filterMap x.at? = x :: l
    rw [hat, h.read]

/-- One item as a row of items. -/
theorem single (h : Enumerates x.at? ps l) :
    Enumerates (among [x]) (ps.map (0 :: ·)) l where
  outerFirst :=
    List.pairwise_map.2 (h.outerFirst.imp fun hpq hpre =>
      hpq (List.cons_prefix_cons.1 hpre).2)
  all p := by
    rcases p with _ | ⟨_ | i, p⟩
    · simp [among]
    · simp [among, h.all]
    · simp [among]
  read := by
    rw [List.filterMap_map, ← h.read]
    rfl

/-- One row of items after another. -/
theorem append (h : Enumerates (among xs) ps l)
    (h' : Enumerates (among ys) qs k) :
    Enumerates (among (xs ++ ys)) (ps ++ qs.map (shift xs.length))
      (l ++ k) where
  outerFirst := by
    have hright : (qs.map (shift xs.length)).Pairwise fun p q => ¬ q <+: p :=
      List.pairwise_map.2 (h'.outerFirst.imp fun hpq hpre =>
        hpq (isPrefix_of_shift hpre))
    refine List.pairwise_append.2 ⟨h.outerFirst, hright,
      fun p hp q' hq' hpre => ?_⟩
    -- the first numbers differ, as only that of `p` is below the length
    obtain ⟨q, hq, rfl⟩ := List.mem_map.1 hq'
    obtain ⟨i, p, rfl, hi⟩ := exists_cons_of_among ((h.all p).1 hp)
    obtain ⟨j, q, rfl, -⟩ := exists_cons_of_among ((h'.all q).1 hq)
    have hij := (List.cons_prefix_cons.1 hpre).1
    omega
  all p := by
    rw [List.mem_append, List.mem_map, h.all, among_append_isSome]
    simp only [h'.all]
  read := by
    have hleft : ps.filterMap (among (xs ++ ys)) = ps.filterMap (among xs) :=
      List.filterMap_congr fun p hp => among_append_left ((h.all p).1 hp)
    have hright : (qs.map (shift xs.length)).filterMap (among (xs ++ ys))
        = qs.filterMap (among ys) := by
      rw [List.filterMap_map]
      exact List.filterMap_congr fun q _ => among_append_shift q
    rw [List.filterMap_append, hleft, hright, h.read, h'.read]

end Enumerates

-- ==================================================================== walks

namespace Transformer

open Item

variable {m : Type → Type} [Monad m] {α β : Type}

/-- The transformer that visits every item on entry and changes nothing. -/
def visiting (visit : Item → m Unit) : Transformer m where
  look n := visit (.node n)
  enterType t := do
    visit (.ref t)
    return none

/-- That a walk does nothing but visit what stands in a tree, item by item of a
log that does not depend on what a visit does, and answers `a`. Of the items in
the log, `nodes` are the nodes. -/
def Traverses (walk : (Item → m Unit) → m α) (a : α)
    (look : List Nat → Option Item) (nodes : List Node) : Prop :=
  ∃ places items, Enumerates look places items ∧ items.filterMap node? = nodes
    ∧ ∀ visit, walk visit = do
        items.forM visit
        return a

variable {xs ys : List Item} {ns ms : List Node} {x : Item} {n : Node}
variable {a : α} {b : β}
variable {w : (Item → m Unit) → m α} {k : (Item → m Unit) → α → m β}

namespace Traverses

theorem cast (h : Traverses w a (among xs) ns) (hxs : xs = ys)
    (hns : ns = ms) :
    Traverses w a (among ys) ms := hxs ▸ hns ▸ h

theorem single (h : Traverses w a x.at? ns) :
    Traverses w a (among [x]) ns := by
  obtain ⟨ps, l, hl, hns, hw⟩ := h
  exact ⟨_, l, hl.single, hns, hw⟩

variable [LawfulMonad m]

theorem pure (a : α) : Traverses (m := m) (fun _ => pure a) a (among []) [] :=
  ⟨[], [], .nil, rfl, fun _ => (pure_bind () fun _ => Pure.pure a).symm⟩

/-- One walk after another. -/
theorem bind (h : Traverses w a (among xs) ns)
    (h' : Traverses (k · a) b (among ys) ms) :
    Traverses (fun v => w v >>= k v) b (among (xs ++ ys)) (ns ++ ms) := by
  obtain ⟨ps, l, hl, hns, hw⟩ := h
  obtain ⟨qs, l', hl', hms, hw'⟩ := h'
  refine ⟨_, l ++ l', hl.append hl', by rw [List.filterMap_append, hns, hms],
    fun v => ?_⟩
  have hk : k v a = (l'.forM v >>= fun _ => Pure.pure b) := hw' v
  show w v >>= k v = _
  rw [hw, List.forM_eq_forM, List.forM_append, bind_assoc, bind_assoc]
  simp only [pure_bind, hk, List.forM_eq_forM]

/-- A walk with its answer put into something. -/
theorem map {look : List Nat → Option Item} (g : α → β)
    (h : Traverses w a look ns) :
    Traverses (fun v => w v >>= fun a => Pure.pure (g a)) (g a) look ns := by
  obtain ⟨ps, l, hl, hns, hw⟩ := h
  refine ⟨ps, l, hl, hns, fun v => ?_⟩
  simp only [hw, bind_assoc, pure_bind]

/-- A visit of an item before a walk through its children. -/
theorem inside (h : Traverses w a (among x.children) ns) :
    Traverses (fun v => v x >>= fun _ => w v) a x.at?
      ([x].filterMap node? ++ ns) := by
  obtain ⟨ps, l, hl, hns, hw⟩ := h
  refine ⟨_, x :: l, hl.inside, by rw [← hns, ← List.filterMap_append]; rfl,
    fun v => ?_⟩
  simp only [hw, List.forM_eq_forM, List.forM_cons, bind_assoc]

/-- A look at a node before a walk through its children. -/
theorem look (h : Traverses w a (among n.children) ns) :
    Traverses (fun v => (visiting v).look n >>= fun _ => w v) a
      (Item.node n).at? (n :: ns) :=
  inside (x := .node n) h

/-- A walk through one node before the rest of a walk. -/
theorem look_then (h : Traverses w a (among n.children) ns)
    (h' : Traverses (k · a) b (among ys) ms) :
    Traverses (fun v => (visiting v).look n >>= fun _ => w v >>= k v) b
      (among (.node n :: ys)) ((n :: ns) ++ ms) := by
  have hwalks := bind h.look.single h'
  simp only [bind_assoc] at hwalks
  exact hwalks

/-- The entry to a type reference before a walk through its arguments. -/
theorem enterType {w : (Item → m Unit) → m TypeRef} {t t' : TypeRef}
    (h : Traverses w t' (among (t.args.map .ref)) ns) :
    Traverses (fun v => do
      match ← (visiting v).enterType t with
      | some t => return t
      | none => w v) t' (Item.ref t).at? ns := by
  have hin := inside (x := .ref t) h
  simp only [visiting, bind_assoc, pure_bind]
  exact hin

/-- The entry to an expression before a walk through what is inside. -/
theorem enterExpr {w : (Item → m Unit) → m Expr} {e e' : Expr}
    (h : Traverses w e' (among e.children) ns) :
    Traverses (fun v => do
      (visiting v).look (.expr e)
      match ← (visiting v).enterExpr e with
      | some e => return e
      | none => w v) e' (Item.expr e).at? (.expr e :: ns) := by
  have hin := look (n := .expr e) h
  simp only [visiting, pure_bind]
  exact hin

variable {f : (Item → m Unit) → α → m α} {item : α → Item}
variable {nodes : α → List Node}

/-- A walk through the members of a list. -/
theorem each (h : ∀ a, Traverses (f · a) a (item a).at? (nodes a)) :
    ∀ as : List α, Traverses (fun v => Transformer.each (f v) as) as
      (among (as.map item)) (as.flatMap nodes)
  | [] => .pure []
  | a :: as => .cast (.bind (h a).single (.bind (each h as) (.pure _)))
      (by simp) (by simp)

/-- A walk through what may be absent. -/
theorem optional (h : ∀ a, Traverses (f · a) a (item a).at? (nodes a)) :
    ∀ a : Option α, Traverses (fun v => Transformer.optional (f v) a) a
      (among (a.toList.map item)) ((a.map nodes).getD [])
  | none => .pure none
  | some a => .cast (.bind (h a).single (.pure _)) rfl (List.append_nil _)

end Traverses

variable [LawfulMonad m]

-- ------------------------------------------- type references and expressions

mutual

theorem typeRef_traverses : ∀ t : TypeRef,
    Traverses (fun v => (visiting (m := m) v).typeRef t) t (Item.ref t).at? []
  | ⟨name, args, isParam⟩ => by
      simp only [typeRef]
      exact .enterType (.cast (.bind (typeRefs_traverses args) (.pure _))
        (List.append_nil _) rfl)

theorem typeRefs_traverses : ∀ ts : List TypeRef,
    Traverses (fun v => (visiting (m := m) v).typeRefs ts) ts
      (among (ts.map .ref)) []
  | [] => .pure []
  | t :: ts => by
      simp only [typeRefs]
      apply Traverses.cast
      · exact .bind (typeRef_traverses t).single
          (.bind (typeRefs_traverses ts) (.pure _))
      · simp
      · rfl

end

mutual

/-- A walk through an expression visits all that stands in it, the nodes in
reading order. -/
theorem expr_traverses : ∀ e : Expr,
    Traverses (fun v => (visiting (m := m) v).expr e) e
      (Item.expr e).at? e.nodes
  | .literal _ | .self _ | .super | .var _ => by
      simp only [expr]
      exact .enterExpr (.pure _)
  | .field t _ => by
      simp only [expr]
      exact .enterExpr (.cast (.bind (target_traverses t) (.pure _))
        (List.append_nil _) (List.append_nil _))
  | .call t method args => by
      simp only [expr]
      apply Traverses.enterExpr
      apply Traverses.cast
      · exact .bind (target_traverses t)
          (.bind (typeRefs_traverses method.params)
            (.bind (exprs_traverses args) (.pure _)))
      · simp [Expr.children]
      · simp
  | .new type args => by
      simp only [expr]
      apply Traverses.enterExpr
      apply Traverses.cast
      · exact .bind (typeRef_traverses type).single
          (.bind (exprs_traverses args) (.pure _))
      · simp [Expr.children]
      · simp
  | .unary _ e => by
      simp only [expr]
      exact .enterExpr (.cast (.bind (expr_traverses e).single (.pure _)) rfl
        (List.append_nil _))
  | .binary _ a b | .assign _ a b => by
      simp only [expr]
      apply Traverses.enterExpr
      apply Traverses.cast
      · exact .bind (expr_traverses a).single
          (.bind (expr_traverses b).single (.pure _))
      · rfl
      · simp [Expr.nodes]
  | .conditional c a b => by
      simp only [expr]
      apply Traverses.enterExpr
      apply Traverses.cast
      · exact .bind (expr_traverses c).single (.bind (expr_traverses a).single
          (.bind (expr_traverses b).single (.pure _)))
      · rfl
      · simp [Expr.nodes]

theorem target_traverses : ∀ t : Option Expr,
    Traverses (fun v => (visiting (m := m) v).target t) t
      (among (t.toList.map .expr)) ((Expr.subtermsOfTarget t).map .expr)
  | none => .pure none
  | some e => by
      simp only [target]
      exact .cast (.bind (expr_traverses e).single (.pure _)) rfl
        (List.append_nil _)

theorem exprs_traverses : ∀ es : List Expr,
    Traverses (fun v => (visiting (m := m) v).exprs es) es
      (among (es.map .expr)) ((Expr.subtermsOfAll es).map .expr)
  | [] => .pure []
  | e :: es => by
      simp only [exprs]
      apply Traverses.cast
      · exact .bind (expr_traverses e).single
          (.bind (exprs_traverses es) (.pure _))
      · simp
      · simp [Expr.nodes, Expr.subtermsOfAll]

end

/-- `target_traverses` where a statement or a field has an expression or
none. -/
theorem expr?_traverses (e : Option Expr) :
    Traverses (fun v => optional (visiting (m := m) v).expr e) e
      (among (e.toList.map .expr)) (Expr.nodesOf? e) :=
  .optional expr_traverses e

-- ----------------------------------------------------- statements and blocks

mutual

/-- A walk through a statement visits all that stands in it, the nodes in
reading order. -/
theorem stmt_traverses : ∀ s : Stmt,
    Traverses (fun v => (visiting (m := m) v).stmt s) s
      (Item.stmt s).at? s.nodes
  | .expr e | .throw e => by
      simp only [stmt]
      exact .look (.cast (.bind (expr_traverses e).single (.pure _)) rfl
        (List.append_nil _))
  | .declare type _ init => by
      simp only [stmt]
      apply Traverses.look
      apply Traverses.cast
      · exact .bind (typeRef_traverses type).single
          (.bind (expr?_traverses init) (.pure _))
      · simp [Node.children, Stmt.children]
      · simp
  | .branch cond yes no => by
      simp only [stmt]
      apply Traverses.look
      apply Traverses.cast
      · exact .bind (expr_traverses cond).single
          (.look_then (stmts_traverses yes)
            (.bind (block?_traverses no) (.pure _)))
      · simp [Node.children, Stmt.children]
      · simp
  | .loop cond body => by
      simp only [stmt]
      apply Traverses.look
      apply Traverses.cast
      · exact .bind (expr_traverses cond).single
          (.look_then (stmts_traverses body) (.pure _))
      · rfl
      · simp
  | .ret value => by
      simp only [stmt]
      exact .look (.cast (.bind (expr?_traverses value) (.pure _))
        (List.append_nil _) (List.append_nil _))
  | .check cond message => by
      simp only [stmt]
      apply Traverses.look
      apply Traverses.cast
      · exact .bind (expr_traverses cond).single
          (.bind (expr?_traverses message) (.pure _))
      · simp [Node.children, Stmt.children]
      · simp
  | .superConstructor args => by
      simp only [stmt]
      exact .look (.cast (.bind (.each expr_traverses args) (.pure _))
        (List.append_nil _) (List.append_nil _))
  | .block body => by
      simp only [stmt]
      exact .look (.cast (.look_then (stmts_traverses body) (.pure _)) rfl
        (List.append_nil _))

theorem block?_traverses : ∀ b : Option (List Stmt),
    Traverses (fun v => (visiting (m := m) v).block? b) b
      (among (b.toList.map .block)) (Stmt.nodesOfBlock? b)
  | none => .pure none
  | some b => by
      simp only [block?]
      exact .cast (.look_then (stmts_traverses b) (.pure _)) rfl
        (List.append_nil _)

theorem stmts_traverses : ∀ ss : List Stmt,
    Traverses (fun v => (visiting (m := m) v).stmts ss) ss
      (among (ss.map .stmt)) (Stmt.nodesOfAll ss)
  | [] => .pure []
  | s :: ss => by
      simp only [stmts]
      apply Traverses.cast
      · exact .bind (stmt_traverses s).single
          (.bind (stmts_traverses ss) (.pure _))
      · simp
      · simp [Stmt.nodesOfAll]

end

theorem block_traverses (b : Block) :
    Traverses (fun v => (visiting (m := m) v).block b) b
      (Item.block b).at? b.nodes :=
  .look (stmts_traverses b)

-- ------------------------------------------------------------- declarations

theorem param_traverses (p : Param) :
    Traverses (fun v => (visiting (m := m) v).param p) p
      (Item.ref p.type).at? [] :=
  .map (fun type => { p with type }) (typeRef_traverses p.type)

theorem field_traverses (f : Field) :
    Traverses (fun v => (visiting (m := m) v).field f) f
      (Item.node (.field f)).at? f.nodes := by
  apply Traverses.look
  apply Traverses.cast
  · exact .bind (typeRef_traverses f.type).single
      (.bind (expr?_traverses f.init) (.pure _))
  · simp [Node.children]
  · simp

theorem method_traverses (d : Method) :
    Traverses (fun v => (visiting (m := m) v).method d) d
      (Item.node (.method d)).at? d.nodes := by
  apply Traverses.look
  apply Traverses.cast
  · exact .bind (typeRef_traverses d.returns).single
      (.bind (.each param_traverses d.params)
        (.bind (.optional block_traverses d.body) (.pure _)))
  · simp [Node.children]
  · simp

theorem constructor_traverses (c : Constructor) :
    Traverses (fun v => (visiting (m := m) v).constructor c) c
      (Item.node (.constructor c)).at? c.nodes := by
  apply Traverses.look
  apply Traverses.cast
  · exact .bind (.each param_traverses c.params)
      (.bind (block_traverses c.body).single (.pure _))
  · simp [Node.children]
  · simp

mutual

/-- A walk through a declaration visits all that stands in it, the nodes in
reading order. -/
theorem typeDecl_traverses : ∀ d : TypeDecl,
    Traverses (fun v => (visiting (m := m) v).typeDecl d) d
      (Item.node (.type d)).at? d.nodes
  | ⟨_, _, _, _, superclass, interfaces, _, _, fields, methods, constructors,
      nested, _⟩ => by
      simp only [typeDecl]
      apply Traverses.look
      apply Traverses.cast
      · exact .bind (.optional typeRef_traverses superclass)
          (.bind (.each typeRef_traverses interfaces)
            (.bind (.each field_traverses fields)
              (.bind (.each constructor_traverses constructors)
                (.bind (.each method_traverses methods)
                  (.bind (typeDecls_traverses nested) (.pure _))))))
      · simp [Node.children, TypeDecl.children]
      · -- type references have no nodes
        cases superclass <;> simp [List.flatMap_eq_nil_iff.2]

theorem typeDecls_traverses : ∀ ds : List TypeDecl,
    Traverses (fun v => (visiting (m := m) v).typeDecls ds) ds
      (among (ds.map fun d => .node (.type d))) (TypeDecl.nodesOfAll ds)
  | [] => .pure []
  | d :: ds => by
      simp only [typeDecls]
      apply Traverses.cast
      · exact .bind (typeDecl_traverses d).single
          (.bind (typeDecls_traverses ds) (.pure _))
      · simp
      · simp [TypeDecl.nodesOfAll]

end

-- ================================================================ agreement

/-- Visits that pass type references over are looks at the nodes. -/
theorem forM_filterMap_node? (look : Node → m Unit) : ∀ items : List Item,
    (items.forM fun
      | .node n => look n
      | .ref _ => pure ()) = (items.filterMap node?).forM look
  | [] => rfl
  | .node n :: items => congrArg (look n >>= ·)
      (funext fun _ => forM_filterMap_node? look items)
  | .ref _ :: items => (pure_bind () _).trans (forM_filterMap_node? look items)

theorem look_eq_visiting (look : Node → m Unit) :
    ({ look } : Transformer m) = visiting fun
    | .node n => look n
    | .ref _ => pure () := by
  simp only [visiting, pure_bind]

theorem forM_pure (ns : List Node) :
    (ns.forM fun _ => (pure () : m Unit)) = pure () := by
  induction ns with
  | nil => rfl
  | cons n ns ih => exact (pure_bind () _).trans ih

/-- A transformer that only looks does what looking at the nodes in reading
order does, in any monad and whatever it does there, and hands back the
declaration as it was; so it does if it does nothing at all. The nodes in
reading order are what stands at the positions of nodes, each once and none
after one inside it. A transformer that visits type references as well comes to
all items there are, again each once and none after one inside it, and the
nodes among them are the same. -/
theorem traversals_agree {m : Type → Type} [Monad m] [LawfulMonad m]
    (d : TypeDecl) :
    (∀ look : Node → m Unit, ({ look } : Transformer m).typeDecl d = do
        d.nodes.forM look
        return d)
    ∧ ({} : Transformer m).typeDecl d = pure d
    ∧ (∃ places, places.Nodup
        ∧ Enumerates (fun p => ((Item.node (.type d)).at? p).bind node?)
          places d.nodes)
    ∧ ∃ places items, places.Nodup
    ∧ Enumerates (Item.node (.type d)).at? places items
        ∧ items.filterMap node? = d.nodes
        ∧ ∀ visit : Item → m Unit, (visiting visit).typeDecl d = do
            items.forM visit
            return d := by
  obtain ⟨places, items, hitems, hnodes, hwalk⟩ :=
    typeDecl_traverses (m := m) d
  have hvisit : ∀ visit : Item → m Unit, (visiting visit).typeDecl d = do
      items.forM visit
      return d := hwalk
  have hlook : ∀ look : Node → m Unit,
      ({ look } : Transformer m).typeDecl d = do
      d.nodes.forM look
      return d := by
    intro look
    rw [look_eq_visiting, hvisit, forM_filterMap_node?, hnodes]
  have hplain : ({} : Transformer m).typeDecl d = pure d := by
    have hidle := hlook fun _ => pure ()
    rwa [forM_pure, pure_bind] at hidle
  have hall := hnodes ▸ hitems.filterMap node?
  exact ⟨hlook, hplain, ⟨_, hall.once, hall⟩, places, items, hitems.once,
    hitems, hnodes, hvisit⟩

/-- A field that starts with one number added to itself. -/
def doubledField : Field :=
  { name := "n", type := .int
    init := some (.binary .add (.literal (.int 1)) (.literal (.int 1))) }

/-- A type of lists of numbers, with that field. -/
def doubled : TypeDecl :=
  { name := "Doubled", superclass := some (.generic "List" [.int]),
    fields := [doubledField] }

/-- The number is looked at twice, once in each of its places. -/
theorem traversals_agree_doubled :
    LawfulMonad (StateM (List Node))
    ∧ (({ look := fun n => modify (· ++ [n]) } : Transformer
      (StateM (List Node))).typeDecl
          doubled).run []
        = (doubled, [.type doubled, .field doubledField,
            .expr (.binary .add (.literal (.int 1)) (.literal (.int 1))),
            .expr (.literal (.int 1)), .expr (.literal (.int 1))])
    ∧ ∃ places items, places.Nodup
    ∧ Enumerates (Item.node (.type doubled)).at? places items
        ∧ items.filterMap node? = doubled.nodes
        ∧ ∀ visit : Item → StateM (List Node) Unit,
        (visiting visit).typeDecl doubled = do
            items.forM visit
            return doubled := by
  obtain ⟨hlook, -, -, hitems⟩ :=
    traversals_agree (m := StateM (List Node)) doubled
  refine ⟨inferInstance, ?_, hitems⟩
  rw [hlook]
  rfl

end Transformer

end Stagewise
