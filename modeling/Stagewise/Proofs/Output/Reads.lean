/-
What the initial value of a field evaluates.

Some expressions evaluate those in the bodies of the methods that they
call, and these may call further methods (`Evaluates`). The scan follows
the calls with a list of the methods still to be read. It reads every
method once and finds all that is evaluated (`mem_reachedExprs`).

# The end of the scan

A turn takes a method off the list. It adds the calls of its body, but only
if the method was not read before, so all turns together add no more calls
than there are expressions in the methods of the tree (`room`). The scan
is over before its fuel is, whatever it would go on with then
(`reachedTo_eq_reachedExprs`).

# Names

The scan looks types and fields up by name. Where the names tell them apart
it finds what bears the name (`type?_eq_some_iff`, `final?_eq_some_iff`).
It looks at nothing but names, modifiers and methods, which the order of
final fields leaves as they are (`TypeTable.faces`).
-/
import Mathlib.Algebra.GroupWithZero.Nat
import Stagewise.Proofs.Output.Keys

namespace Stagewise.Output

open Relation (ReflTransGen)

namespace TypeTable

variable {t t' : TypeTable} {es : List Expr} {e : Expr} {f : Field}
variable {m m' : MethodKey} {known pending : List MethodKey} {fuel : Nat}

-- ================================================================= evaluation

/-- A call is one of a method of the tree that the type it names as the owner
has. -/
theorem called?_call {target : Option Expr} {r : MethodRef}
    {args : List Expr} :
    t.called? (.call target r args) = (t.type? r.owner).bind fun d =>
      (d.methodIndexByRef? r).bind fun i => some (r.owner, i) := rfl

/-- That some expressions evaluate another one: it is one of them, or in the
body of a method of the tree that they evaluate a call of. -/
inductive Evaluates (t : TypeTable) (es : List Expr) : Expr → Prop
  | here {e : Expr} : e ∈ es → Evaluates t es e
  | called {call e : Expr} {m : MethodKey} :
      Evaluates t es call → t.called? call = some m →
      e ∈ t.methodExprs m → Evaluates t es e

/-- That the body of a method calls another one. -/
def Calls (t : TypeTable) (m m' : MethodKey) : Prop :=
  ∃ e ∈ t.methodExprs m, t.called? e = some m'

/-- That some methods still to be read lead to a method. -/
def LeadTo (t : TypeTable) (pending : List MethodKey) (m : MethodKey) : Prop :=
  ∃ first ∈ pending, ReflTransGen t.Calls first m

theorem evaluates_iff : t.Evaluates es e ↔
    e ∈ es ∨ ∃ m, t.LeadTo (es.filterMap t.called?) m
      ∧ e ∈ t.methodExprs m := by
  constructor
  · intro h
    induction h with
    | here he => exact Or.inl he
    | @called call e m _ hcall he ih =>
        refine Or.inr ⟨m, ?_, he⟩
        rcases ih with hes | ⟨caller, ⟨first, hfirst, hleads⟩, hbody⟩
        · exact ⟨m, List.mem_filterMap.2 ⟨call, hes, hcall⟩, .refl⟩
        · exact ⟨first, hfirst, hleads.tail ⟨call, hbody, hcall⟩⟩
  · intro h
    rcases h with he | ⟨m, ⟨first, hfirst, hleads⟩, he⟩
    · exact .here he
    · obtain ⟨call, hcall, hcalled⟩ := List.mem_filterMap.1 hfirst
      induction hleads generalizing e with
      | refl => exact .called (.here hcall) hcalled he
      | tail _ hcalls ih =>
          obtain ⟨e', he', hcalled'⟩ := hcalls
          exact .called (ih he') hcalled' he

/-- More expressions evaluate more. -/
theorem Evaluates.mono {es' : List Expr} (h : t.Evaluates es e)
    (hes : es ⊆ es') :
    t.Evaluates es' e := by
  induction h with
  | here he => exact .here (hes he)
  | called _ hcalled he ih => exact .called ih hcalled he

-- ======================================================================= room

/-- The methods of the tree with the expressions in their bodies. -/
def bodies (t : TypeTable) : List (MethodKey × List Expr) :=
  t.types.flatMap fun (_, d) =>
    d.methods.zipIdx.map fun (m, i) => ((d.name, i), Node.exprs m.nodes)

/-- How many expressions there are in the methods not read yet. -/
def room (t : TypeTable) (known : List MethodKey) : Nat :=
  (t.bodies.map fun body => if body.1 ∈ known then 0 else body.2.length).sum

theorem type?_mem {name : String} {d : TypeDecl} (h : t.type? name = some d) :
    (∃ path, (path, d) ∈ t.types) ∧ d.name = name := by
  obtain ⟨⟨path, d'⟩, hfind, rfl⟩ := Option.map_eq_some_iff.1 h
  have hname := List.find?_some hfind
  exact ⟨⟨path, List.mem_reverse.1 (List.mem_of_find?_eq_some hfind)⟩,
    beq_iff_eq.1 hname⟩

theorem methodExprs_of_type? {d : TypeDecl} (h : t.type? m.1 = some d) :
    t.methodExprs m
      = Node.exprs ((d.methods[m.2]?.map Method.nodes).getD []) := by
  unfold methodExprs
  rw [h]

theorem methodExprs_of_none (h : t.type? m.1 = none) :
    t.methodExprs m = [] := by
  unfold methodExprs
  rw [h]

theorem mem_bodies_of_ne_nil (h : t.methodExprs m ≠ []) :
    (m, t.methodExprs m) ∈ t.bodies := by
  cases htype : t.type? m.1 with
  | none => exact absurd (methodExprs_of_none htype) h
  | some d =>
      rw [methodExprs_of_type? htype] at h ⊢
      obtain ⟨⟨path, hd⟩, hname⟩ := type?_mem htype
      cases hm : d.methods[m.2]? with
      | none =>
          rw [hm] at h
          exact absurd rfl h
      | some method =>
          refine List.mem_flatMap.2
            ⟨_, hd, List.mem_map.2 ⟨(method, m.2), ?_, ?_⟩⟩
          · exact List.mem_zipIdx_iff_getElem?.2 hm
          · rw [hname]
            rfl

/-- Reading a method takes its expressions off the room. -/
theorem room_cons (hm : m ∉ known) :
    t.room (m :: known) + (t.methodExprs m).length ≤ t.room known := by
  have hle : ∀ bodies : List (MethodKey × List Expr),
      (bodies.map fun body => if body.1 ∈ m :: known then 0
        else body.2.length).sum
        ≤ (bodies.map fun body => if body.1 ∈ known then 0
          else body.2.length).sum := by
    intro bodies
    induction bodies with
    | nil => exact Nat.le_refl _
    | cons body bodies ih =>
        refine Nat.add_le_add ?_ ih
        dsimp only
        by_cases hbody : body.1 ∈ known
        · rw [if_pos (List.mem_cons_of_mem m hbody)]
          exact Nat.zero_le _
        · rw [if_neg hbody]
          split
          · exact Nat.zero_le _
          · exact Nat.le_refl _
  by_cases hbody : t.methodExprs m = []
  · rw [hbody]
    exact hle t.bodies
  · obtain ⟨before, after, hsplit⟩ :=
      List.append_of_mem (mem_bodies_of_ne_nil hbody)
    have hbefore := hle before
    have hafter := hle after
    unfold room
    rw [hsplit]
    simp only [List.map_append, List.map_cons, List.sum_append, List.sum_cons,
      List.mem_cons_self, if_true, if_neg hm]
    omega

theorem room_nil_le :
    t.room [] ≤ (t.types.flatMap fun (_, d) => Node.exprs
      (TypeDecl.nodes d)).length := by
  have htype : ∀ d : TypeDecl,
      (d.methods.zipIdx.map fun p => (Node.exprs p.1.nodes).length).sum
      ≤ (Node.exprs d.nodes).length := by
    intro d
    have hmethods :
        (d.methods.zipIdx.map fun p => (Node.exprs p.1.nodes).length).sum
        = (Node.exprs (d.methods.flatMap Method.nodes)).length := by
      rw [Node.exprs, List.filterMap_flatMap, List.length_flatMap]
      conv_rhs => rw [← List.zipIdx_map_fst 0 d.methods, List.map_map]
      rfl
    rw [hmethods]
    cases d
    simp only [TypeDecl.nodes, Node.exprs, List.filterMap_cons,
      List.filterMap_append]
    simp only [Node.expr?, List.length_append]
    omega
  unfold room bodies
  induction t.types with
  | nil => exact Nat.le_refl _
  | cons p types ih =>
      have hp := htype p.2
      simp only [List.not_mem_nil, if_false, List.flatMap_cons,
        List.map_append, List.map_map,
        List.sum_append, List.length_append, Function.comp_def] at hp ih ⊢
      omega

-- =================================================================== the scan

/-- The calls of a method, the last one first. -/
def callsOf (t : TypeTable) (m : MethodKey) : List MethodKey :=
  ((t.methodExprs m).filterMap t.called?).reverse

theorem mem_callsOf : m' ∈ t.callsOf m ↔ t.Calls m m' := by
  rw [callsOf, List.mem_reverse, List.mem_filterMap]
  exact Iff.rfl

theorem length_callsOf_le :
    (t.callsOf m).length ≤ (t.methodExprs m).length := by
  rw [callsOf, List.length_reverse]
  exact List.length_filterMap_le ..

/-- A method still to be read leads to itself, and to where its calls do. -/
theorem leadTo_cons {next : MethodKey} :
    t.LeadTo (next :: pending) m
      ↔ m = next ∨ t.LeadTo (t.callsOf next ++ pending) m := by
  constructor
  · intro ⟨first, hfirst, hleads⟩
    rcases List.mem_cons.1 hfirst with rfl | hfirst
    · rcases ReflTransGen.cases_head hleads with h | ⟨second, hcalls, hleads⟩
      · exact Or.inl h.symm
      · exact Or.inr ⟨second, List.mem_append_left _ (mem_callsOf.2 hcalls),
          hleads⟩
    · exact Or.inr ⟨first, List.mem_append_right _ hfirst, hleads⟩
  · intro h
    rcases h with rfl | ⟨first, hfirst, hleads⟩
    · exact ⟨m, List.mem_cons_self, .refl⟩
    · rcases List.mem_append.1 hfirst with hcalls | hfirst
      · exact ⟨next, List.mem_cons_self, .head (mem_callsOf.1 hcalls) hleads⟩
      · exact ⟨first, List.mem_cons_of_mem _ hfirst, hleads⟩

/-- That the calls of all methods already read are read or still to be
read. -/
def Closed (t : TypeTable) (known pending : List MethodKey) : Prop :=
  ∀ m ∈ known, ∀ m', t.Calls m m' → m' ∈ known ∨ m' ∈ pending

/-- A method already read leads nowhere that the others do not. -/
theorem Closed.leadTo {next : MethodKey} (h : t.Closed known pending)
    (hnext : next ∈ known)
    (hm : m ∉ known) : t.LeadTo (next :: pending) m ↔ t.LeadTo pending m := by
  have hknown : ∀ first ∈ known, ReflTransGen t.Calls first m →
      t.LeadTo pending m := by
    intro first hfirst hleads
    induction hleads using ReflTransGen.head_induction_on with
    | refl => exact absurd hfirst hm
    | head hcalls hrest ih =>
        rcases h _ hfirst _ hcalls with hread | hpending
        · exact ih hread
        · exact ⟨_, hpending, hrest⟩
  constructor
  · intro ⟨first, hfirst, hleads⟩
    rcases List.mem_cons.1 hfirst with rfl | hfirst
    · exact hknown first hnext hleads
    · exact ⟨first, hfirst, hleads⟩
  · intro ⟨first, hfirst, hleads⟩
    exact ⟨first, List.mem_cons_of_mem _ hfirst, hleads⟩

/-- A method that was read before may be dropped. -/
theorem Closed.skip {next : MethodKey} (h : t.Closed known (next :: pending))
    (hnext : next ∈ known) : t.Closed known pending := by
  intro m hm m' hcalls
  rcases h m hm m' hcalls with hread | hpending
  · exact Or.inl hread
  · rcases List.mem_cons.1 hpending with rfl | hpending
    · exact Or.inl hnext
    · exact Or.inr hpending

/-- A method may be read when its calls are to be. -/
theorem Closed.read {next : MethodKey} (h : t.Closed known (next :: pending)) :
    t.Closed (next :: known) (t.callsOf next ++ pending) := by
  intro m hm m' hcalls
  rcases List.mem_cons.1 hm with rfl | hm
  · exact Or.inr (List.mem_append_left _ (mem_callsOf.2 hcalls))
  · rcases h m hm m' hcalls with hread | hpending
    · exact Or.inl (List.mem_cons_of_mem _ hread)
    · rcases List.mem_cons.1 hpending with rfl | hpending
      · exact Or.inl List.mem_cons_self
      · exact Or.inr (List.mem_append_right _ hpending)

/-- The scan finds what is in the bodies of the methods that those still to be
read lead to, the ones already read left out. -/
theorem mem_reachedExprs (hroom : t.room known + pending.length < fuel)
    (hclosed : t.Closed known pending) :
    e ∈ t.reachedExprs fuel known pending ↔
      ∃ m, m ∉ known ∧ t.LeadTo pending m ∧ e ∈ t.methodExprs m := by
  induction fuel generalizing known pending with
  | zero => exact absurd hroom (Nat.not_lt_zero _)
  | succ fuel ih =>
      cases pending with
      | nil =>
          rw [reachedExprs]
          simp [LeadTo]
      | cons next pending =>
          rw [List.length_cons] at hroom
          rw [reachedExprs]
          split
          · rename_i hknown
            have hnext := List.contains_iff_mem.1 hknown
            have hrest := hclosed.skip hnext
            rw [ih (by omega) hrest]
            refine exists_congr fun m => and_congr_right fun hm => ?_
            rw [hrest.leadTo hnext hm]
          · rename_i hnew
            have hnext : next ∉ known :=
              fun h => hnew (List.contains_iff_mem.2 h)
            have hreads := room_cons (t := t) hnext
            have hcalls := length_callsOf_le (t := t) (m := next)
            have hscan : e ∈ t.reachedExprs fuel (next :: known)
                (t.callsOf next ++ pending) ↔
                ∃ m, m ∉ next :: known ∧ t.LeadTo (t.callsOf next ++ pending) m
                  ∧ e ∈ t.methodExprs m :=
              ih (by rw [List.length_append]; omega) hclosed.read
            refine List.mem_append.trans ((or_congr_right hscan).trans ?_)
            simp only [leadTo_cons, List.mem_cons, not_or]
            constructor
            · intro h
              rcases h with he | ⟨m, ⟨-, hm⟩, hleads, he⟩
              · exact ⟨next, hnext, Or.inl rfl, he⟩
              · exact ⟨m, hm, Or.inr hleads, he⟩
            · intro h
              obtain ⟨m, hm, hleads, he⟩ := h
              by_cases h : m = next
              · exact Or.inl (h ▸ he)
              · exact Or.inr ⟨m, ⟨h, hm⟩, hleads.resolve_left h, he⟩

/-- The scan where something else goes on once the fuel is out. -/
def reachedTo (t : TypeTable) (beyond : List Expr) :
    Nat → List MethodKey → List MethodKey → List Expr
  | 0, _, _ => beyond
  | _ + 1, _, [] => []
  | fuel + 1, known, m :: pending =>
      if known.contains m then t.reachedTo beyond fuel known pending
      else t.methodExprs m ++ t.reachedTo beyond fuel (m :: known)
        (t.callsOf m ++ pending)

/-- With more fuel than turns the scan is over in time. -/
theorem reachedTo_eq_reachedExprs (beyond : List Expr)
    (hroom : t.room known + pending.length < fuel) :
    t.reachedTo beyond fuel known pending
      = t.reachedExprs fuel known pending := by
  induction fuel generalizing known pending with
  | zero => exact absurd hroom (Nat.not_lt_zero _)
  | succ fuel ih =>
      cases pending with
      | nil => rfl
      | cons next pending =>
          rw [List.length_cons] at hroom
          rw [reachedTo, reachedExprs]
          split
          · exact ih (by omega)
          · rename_i hnew
            have hnext : next ∉ known :=
              fun h => hnew (List.contains_iff_mem.2 h)
            have hreads := room_cons (t := t) hnext
            have hcalls := length_callsOf_le (t := t) (m := next)
            exact congrArg _ (ih (by rw [List.length_append]; omega))

/-- The room there is when the calls of some expressions are to be
followed. -/
theorem room_lt_callBound :
    t.room [] + (es.filterMap t.called?).reverse.length < t.callBound es := by
  have hroom := room_nil_le (t := t)
  have hcalls : (es.filterMap t.called?).length ≤ es.length :=
    List.length_filterMap_le ..
  rw [List.length_reverse, Nat.add_comm]
  exact Nat.lt_succ_of_le (Nat.add_le_add hcalls hroom)

/-- The scan that starts from some expressions is over in time. -/
theorem scan_ends (es beyond : List Expr) :
    t.reachedTo beyond (t.callBound es) [] (es.filterMap t.called?).reverse
      = t.reachedExprs (t.callBound es) [] (es.filterMap t.called?).reverse :=
  reachedTo_eq_reachedExprs beyond room_lt_callBound

/-- Some expressions and what the scan from them finds are what they
evaluate. -/
theorem mem_scan :
    e ∈ es ++ t.reachedExprs (t.callBound es) []
      (es.filterMap t.called?).reverse
      ↔ t.Evaluates es e := by
  have hclosed : t.Closed [] (es.filterMap t.called?).reverse :=
    fun _ hm => by cases hm
  rw [List.mem_append, mem_reachedExprs room_lt_callBound hclosed,
    evaluates_iff]
  simp only [LeadTo, List.mem_reverse, List.not_mem_nil,
    not_false_eq_true, true_and]

-- ============================================================= initial values

/-- The expressions that the initial value of a field starts from: its own,
and those in the type of the tree that is named by the field's type. -/
def startExprs (t : TypeTable) (f : Field) (init : Expr) : List Expr :=
  init.subterms
    ++ (t.type? f.type.name).elim [] fun d =>
      Node.exprs (d.fields.flatMap Field.nodes)

theorem subterms_subset_startExprs (init : Expr) :
    init.subterms ⊆ t.startExprs f init :=
  List.subset_append_left _ _

theorem mem_initExprs :
    e ∈ t.initExprs f ↔ ∃ init, f.init = some init
      ∧ t.Evaluates (t.startExprs f init) e := by
  unfold initExprs
  cases f.init with
  | none => simp
  | some init =>
      simp only [Option.some.injEq, exists_eq_left']
      rw [← mem_scan, startExprs]
      cases t.type? f.type.name <;> exact Iff.rfl

theorem mem_dependencies {key dep : FinalField} : dep ∈ t.dependencies key f ↔
    dep ≠ key ∧ ∃ e ∈ t.initExprs f, t.read? e = some dep := by
  have hfold : ∀ (reads found : List FinalField),
      dep ∈ reads.foldl (fun found d =>
          if d == key || found.contains d then found else found ++ [d]) found
        ↔ dep ∈ found ∨ dep ≠ key ∧ dep ∈ reads := by
    intro reads
    induction reads with
    | nil => simp
    | cons d reads ih =>
        intro found
        rw [List.foldl_cons, ih]
        split
        · rename_i hskip
          rw [Bool.or_eq_true, beq_iff_eq, List.contains_iff_mem] at hskip
          grind
        · rename_i hkeep
          rw [Bool.or_eq_true, beq_iff_eq, List.contains_iff_mem] at hkeep
          grind
  unfold dependencies
  rw [hfold]
  simp [List.mem_filterMap]

-- ====================================================================== names

/-- Where one member of a list at most has a property, the last one with it is
the one with it. -/
theorem find?_reverse_eq_some_iff {α : Type} {p : α → Bool}
    {l : List α} {x : α}
    (h : ∀ x ∈ l, ∀ y ∈ l, p x = true → p y = true → x = y) :
    l.reverse.find? p = some x ↔ x ∈ l ∧ p x = true := by
  constructor
  · intro hfind
    exact ⟨List.mem_reverse.1 (List.mem_of_find?_eq_some hfind),
      List.find?_some hfind⟩
  · intro ⟨hx, hp⟩
    cases hfind : l.reverse.find? p with
    | none => exact absurd hp (List.find?_eq_none.1 hfind x
        (List.mem_reverse.2 hx))
    | some y =>
        have hy := List.mem_reverse.1 (List.mem_of_find?_eq_some hfind)
        rw [h x hx y hy hp (List.find?_some hfind)]

end TypeTable

variable {root d d' : TypeDecl} {path path' : TypePath} {key dep : FinalField}
variable {r : FieldRef}
variable {f g : Field} {e : Expr}

open TypeTable

/-- That no two types of a tree have one name, nor two fields of a type. -/
structure WellNamed (root : TypeDecl) : Prop where
  types : ((typesAt [] root).map fun p => p.2.name).Nodup
  fields : ∀ p ∈ typesAt [] root, (p.2.fields.map Field.name).Nodup

/-- That a type is one of a tree. -/
def TypeOf (root d : TypeDecl) : Prop := ∃ path, typeAt? path root = some d

/-- That a final field of a tree bears the names that a reference gives. -/
def Designates (root : TypeDecl) (r : FieldRef) (key : FinalField) : Prop :=
  ∃ d f, FinalAt root key d f ∧ d.name = r.owner ∧ f.name = r.name

namespace WellNamed

theorem eq_of_name (h : WellNamed root) (hd : typeAt? path root = some d)
    (hd' : typeAt? path' root = some d') (hname : d.name = d'.name) :
    path = path' ∧ d = d' := by
  have hsame := List.inj_on_of_nodup_map h.types (mem_typesAt_root.2 hd)
    (mem_typesAt_root.2 hd') hname
  exact Prod.mk.inj hsame

theorem index_eq (h : WellNamed root) (hd : typeAt? path root = some d)
    {i j : Nat}
    (hf : d.fields[i]? = some f) (hg : d.fields[j]? = some g)
    (hname : f.name = g.name) :
    i = j := by
  have hnames := h.fields _ (mem_typesAt_root.2 hd)
  obtain ⟨hi, -⟩ := List.getElem?_eq_some_iff.1 hf
  refine (List.getElem?_inj ?_ hnames).1 ?_
  · rwa [List.length_map]
  · rw [List.getElem?_map, List.getElem?_map, hf, hg, Option.map_some,
      Option.map_some, hname]

theorem type?_eq_some_iff (h : WellNamed root) {name : String} :
    (ofType root).type? name = some d ↔ TypeOf root d ∧ d.name = name := by
  have hone : ∀ x ∈ (ofType root).types, ∀ y ∈ (ofType root).types,
      (x.2.name == name) = true → (y.2.name == name) = true → x = y := by
    intro x hx y hy hname hname'
    exact List.inj_on_of_nodup_map h.types hx hy
      ((beq_iff_eq.1 hname).trans (beq_iff_eq.1 hname').symm)
  unfold type?
  rw [Option.map_eq_some_iff]
  constructor
  · intro ⟨⟨path, d'⟩, hfind, hd⟩
    obtain rfl : d' = d := hd
    obtain ⟨hmem, hname⟩ := (find?_reverse_eq_some_iff hone).1 hfind
    exact ⟨⟨path, mem_typesAt_root.1 hmem⟩, beq_iff_eq.1 hname⟩
  · intro ⟨⟨path, hd⟩, hname⟩
    exact ⟨(path, d), (find?_reverse_eq_some_iff hone).2
      ⟨mem_typesAt_root.2 hd, beq_iff_eq.2 hname⟩, rfl⟩

theorem final?_eq_some_iff (h : WellNamed root) :
    (ofType root).final? r = some key ↔ Designates root r key := by
  have hone : ∀ x ∈ (ofType root).finals, ∀ y ∈ (ofType root).finals,
      (x.2.1.name == r.owner && x.2.2.name == r.name) = true →
      (y.2.1.name == r.owner && y.2.2.name == r.name) = true → x = y := by
    intro ⟨⟨path, i⟩, d, f⟩ hx ⟨⟨path', j⟩, d', f'⟩ hy hname hname'
    simp only [Bool.and_eq_true, beq_iff_eq] at hname hname'
    have hf := mem_finals.1 hx
    have hg := mem_finals.1 hy
    obtain ⟨rfl, rfl⟩ :=
      h.eq_of_name hf.type hg.type (hname.1.trans hname'.1.symm)
    obtain rfl :=
      h.index_eq hf.type hf.field hg.field (hname.2.trans hname'.2.symm)
    rw [Option.some.inj (hf.field.symm.trans hg.field)]
  unfold final?
  rw [Option.map_eq_some_iff]
  constructor
  · intro ⟨⟨key', d, f⟩, hfind, hkey⟩
    obtain rfl : key' = key := hkey
    obtain ⟨hmem, hname⟩ := (find?_reverse_eq_some_iff hone).1 hfind
    simp only [Bool.and_eq_true, beq_iff_eq] at hname
    exact ⟨d, f, mem_finals.1 hmem, hname.1, hname.2⟩
  · intro ⟨d, f, hf, howner, hname⟩
    refine ⟨(key, d, f), (find?_reverse_eq_some_iff hone).2
      ⟨mem_finals.2 hf, ?_⟩, rfl⟩
    simp only [Bool.and_eq_true, beq_iff_eq]
    exact ⟨howner, hname⟩

theorem called?_eq_some_iff (h : WellNamed root) {m : MethodKey} :
    (ofType root).called? e = some m ↔ ∃ target r args d,
      e = .call target r args ∧ TypeOf root d
      ∧ d.name = r.owner ∧ d.methodIndexByRef? r = some m.2
      ∧ m.1 = r.owner := by
  constructor
  · intro hcalled
    cases e with
    | call target r args =>
        obtain ⟨d, htype, hrest⟩ := Option.bind_eq_some_iff.1 hcalled
        obtain ⟨i, hindex, hm⟩ := Option.bind_eq_some_iff.1 hrest
        obtain rfl := Option.some.inj hm
        obtain ⟨hd, hname⟩ := h.type?_eq_some_iff.1 htype
        exact ⟨target, r, args, d, rfl, hd, hname, hindex, rfl⟩
    | _ => cases hcalled
  · intro ⟨target, r, args, d, he, hd, hname, hindex, howner⟩
    subst he
    have htype := h.type?_eq_some_iff.2 ⟨hd, hname⟩
    rw [called?_call, htype, Option.bind_some, hindex,
      Option.bind_some, ← howner]

end WellNamed

-- ========================================================== what is evaluated

/-- That the initial value of a field evaluates an expression: the value
holds it, or an initial value of a field of the type of the tree that the
field's type names, or the body of a method of the tree that is called by
what is evaluated. -/
inductive InitEvaluates (root : TypeDecl) (f : Field) : Expr → Prop
  | own {init e : Expr} :
      f.init = some init → e ∈ init.subterms → InitEvaluates root f e
  | created {init e : Expr} {d : TypeDecl} {g : Field} :
      f.init = some init → TypeOf root d →
      d.name = f.type.name → g ∈ d.fields → e ∈ Node.exprs g.nodes →
        InitEvaluates root f e
  | called {target : Option Expr} {r : MethodRef} {args : List Expr} {e : Expr}
      {d : TypeDecl}
      {i : Nat} {m : Method} : InitEvaluates root f (.call target r args) →
      TypeOf root d →
      d.name = r.owner → d.methodIndexByRef? r = some i →
        d.methods[i]? = some m →
      e ∈ Node.exprs m.nodes → InitEvaluates root f e

theorem mem_exprs_flatMap {α : Type} {nodes : α → List Node} {as : List α} :
    e ∈ Node.exprs (as.flatMap nodes)
      ↔ ∃ a ∈ as, e ∈ Node.exprs (nodes a) := by
  rw [Node.exprs, List.filterMap_flatMap, List.mem_flatMap]
  exact Iff.rfl

theorem WellNamed.mem_startExprs (h : WellNamed root) {init : Expr} :
    e ∈ (ofType root).startExprs f init ↔ e ∈ init.subterms
      ∨ ∃ d, TypeOf root d ∧ d.name = f.type.name ∧ ∃ g ∈ d.fields,
      e ∈ Node.exprs g.nodes := by
  rw [startExprs, List.mem_append]
  refine or_congr_right ?_
  constructor
  · intro he
    cases htype : (ofType root).type? f.type.name with
    | none =>
        rw [htype] at he
        cases he
    | some d =>
        rw [htype] at he
        obtain ⟨hd, hname⟩ := h.type?_eq_some_iff.1 htype
        exact ⟨d, hd, hname, mem_exprs_flatMap.1 he⟩
  · intro ⟨d, hd, hname, hg⟩
    rw [h.type?_eq_some_iff.2 ⟨hd, hname⟩]
    exact mem_exprs_flatMap.2 hg

/-- The scan finds what the initial value of a field evaluates. -/
theorem WellNamed.mem_initExprs_iff (h : WellNamed root) :
    e ∈ (ofType root).initExprs f ↔ InitEvaluates root f e := by
  rw [mem_initExprs]
  constructor
  · intro ⟨init, hinit, he⟩
    induction he with
    | here he =>
        rcases h.mem_startExprs.1 he with he | ⟨d, hd, hname, g, hg, he⟩
        · exact .own hinit he
        · exact .created hinit hd hname hg he
    | called _ hcalled he ih =>
        obtain ⟨target, r, args, d, rfl, hd, hname, hindex, howner⟩ :=
          h.called?_eq_some_iff.1 hcalled
        rw [methodExprs_of_type? (howner ▸ h.type?_eq_some_iff.2 ⟨hd, hname⟩)]
          at he
        obtain ⟨hi, -⟩ := List.findIdx?_eq_some_iff_getElem.1 hindex
        rw [List.getElem?_eq_getElem hi] at he
        exact .called ih hd hname hindex (List.getElem?_eq_getElem hi) he
  · intro he
    induction he with
    | own hinit he => exact ⟨_, hinit, .here (h.mem_startExprs.2 (Or.inl he))⟩
    | created hinit hd hname hg he =>
        exact ⟨_, hinit,
          .here (h.mem_startExprs.2 (Or.inr ⟨_, hd, hname, _, hg, he⟩))⟩
    | @called target r args e d i m _ hd hname hindex hm he ih =>
        obtain ⟨init, hinit, ih⟩ := ih
        refine ⟨init, hinit, .called (m := (r.owner, i)) ih ?_ ?_⟩
        · exact h.called?_eq_some_iff.2 ⟨target, r, args, d, rfl, hd, hname,
            hindex, rfl⟩
        · rw [methodExprs_of_type? (h.type?_eq_some_iff.2 ⟨hd, hname⟩), hm]
          exact he

-- ====================================================================== faces

namespace TypeTable

variable {t t' : TypeTable} {es : List Expr}

/-- What look-up sees of a type. -/
structure Face where
  name : String
  methods : List Method
  fields : List (String × Modifiers)

def face (d : TypeDecl) : Face :=
  ⟨d.name, d.methods, d.fields.map fun f => (f.name, f.modifiers)⟩

/-- The types of a table as look-up sees them. -/
def faces (t : TypeTable) : List (TypePath × Face) :=
  t.types.map (Prod.map id face)

theorem type?_congr (h : t'.faces = t.faces) (name : String) :
    Option.Rel (fun d d' => face d' = face d) (t.type? name)
      (t'.type? name) := by
  have hmap : ∀ t : TypeTable, (t.type? name).map face
      = (t.faces.reverse.find? (·.2.name == name)).map Prod.snd := by
    intro t
    unfold type? faces
    rw [← List.map_reverse, List.find?_map, Option.map_map, Option.map_map]
    rfl
  have hsame := hmap t'
  rw [h, ← hmap t] at hsame
  cases htype : t.type? name with
  | none =>
      rw [htype] at hsame
      rw [Option.map_eq_none_iff.1 hsame]
      exact .none
  | some d =>
      rw [htype] at hsame
      obtain ⟨d', hd', hface⟩ := Option.map_eq_some_iff.1 hsame
      rw [hd']
      exact .some hface

theorem called?_congr (h : t'.faces = t.faces) :
    t'.called? e = t.called? e := by
  cases e with
  | call target m args =>
      have htype := type?_congr h m.owner
      rw [called?_call, called?_call]
      generalize t.type? m.owner = x at htype ⊢
      generalize t'.type? m.owner = y at htype ⊢
      cases htype with
      | none => rfl
      | @some d d' hface =>
          have hmethods : d'.methods = d.methods := congrArg Face.methods hface
          have hindex : d'.methodIndexByRef? m = d.methodIndexByRef? m := by
            unfold TypeDecl.methodIndexByRef?
            rw [hmethods]
          rw [Option.bind_some, Option.bind_some, hindex]
  | _ => rfl

theorem methodExprs_congr (h : t'.faces = t.faces) (m : MethodKey) :
    t'.methodExprs m = t.methodExprs m := by
  have htype := type?_congr h m.1
  unfold methodExprs
  generalize t.type? m.1 = x at htype ⊢
  generalize t'.type? m.1 = y at htype ⊢
  cases htype with
  | none => rfl
  | @some d d' hface =>
      have hmethods : d'.methods = d.methods := congrArg Face.methods hface
      dsimp only
      rw [hmethods]

/-- The final fields as look-up sees them. -/
theorem final?_congr (h : t'.faces = t.faces) (r : FieldRef) :
    t'.final? r = t.final? r := by
  have hview : ∀ t : TypeTable,
      t.finals.map (fun x => (x.1, x.2.1.name, x.2.2.name))
      = t.faces.flatMap fun p =>
        (p.2.fields.zipIdx.filter (·.1.2.isFinal)).map fun f =>
          (⟨p.1, f.2⟩, p.2.name, f.1.1) := by
    intro t
    unfold finals faces finalsOf face
    rw [List.map_flatMap, List.flatMap_map]
    refine List.flatMap_congr fun p _ => ?_
    simp only [List.map_map, List.zipIdx_map, List.filter_map, Prod.map]
    rfl
  have hfinal : ∀ t : TypeTable, t.final? r
      = ((t.finals.map
        (fun x => (x.1, x.2.1.name, x.2.2.name))).reverse.find? fun x =>
          x.2.1 == r.owner && x.2.2 == r.name).map Prod.fst := by
    intro t
    rw [← List.map_reverse, List.find?_map, Option.map_map]
    rfl
  rw [hfinal, hfinal, hview, hview, h]

theorem read?_congr (h : t'.faces = t.faces) : t'.read? e = t.read? e := by
  cases e with
  | field target r => exact final?_congr h r
  | _ => rfl

/-- What is evaluated does not depend on more. -/
theorem Evaluates.congr (h : t'.faces = t.faces) (he : t'.Evaluates es e) :
    t.Evaluates es e := by
  induction he with
  | here he => exact .here he
  | called _ hcalled he ih =>
      rw [called?_congr h] at hcalled
      rw [methodExprs_congr h] at he
      exact .called ih hcalled he

end TypeTable

end Stagewise.Output
