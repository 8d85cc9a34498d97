/-
What no transformation changes.

A transformer changes expressions and type references. The outline of a
declaration is what it looks like without them: its members with their
names, identities, modifiers, markers and positions, whether a field has an
initial value and a method a body, and the outlines of its nested types.
Type references enter an outline through a view, which shows as much of
them as the transformer keeps: nothing if it may change them all
(`TypeRef.hide`), everything if it changes none.

A transformed declaration has the outline that it had, or, where type
references are changed in a known way, the outline in a view that shows the
changed ones (`Reasoning.typeDecl_outline`).
-/
import Stagewise.Proofs.Program.Transform

namespace Stagewise

-- ================================================================= outlines

/-- The view that shows nothing of a type reference. -/
def TypeRef.hide (_ : TypeRef) : TypeRef := .void

/-- A field as far as a view shows its type, without its initial value. -/
def Field.outline (g : TypeRef → TypeRef) (f : Field) : Field :=
  { f with type := g f.type, init := f.init.map fun _ => .super }

def Param.outline (g : TypeRef → TypeRef) (p : Param) : Param :=
  { p with type := g p.type }

/-- A method as far as a view shows its types, without its body. -/
def Method.outline (g : TypeRef → TypeRef) (m : Method) : Method :=
  { m with
    returns := g m.returns
    params := m.params.map (·.outline g)
    body := m.body.map fun _ => [] }

namespace TypeDecl

mutual

/-- A declaration as far as a view shows its types, without the code in it. -/
def outline (g : TypeRef → TypeRef) : TypeDecl → TypeDecl
  | ⟨kind, name, package, typeParams, superclass, interfaces, modifiers,
      markers, fields, methods, _, nested, position⟩ =>
      ⟨kind, name, package, typeParams, superclass.map g,
        interfaces.map g, modifiers, markers, fields.map (·.outline g),
        methods.map (·.outline g), [], outlines g nested, position⟩

/-- `outline` of sibling types. -/
def outlines (g : TypeRef → TypeRef) : List TypeDecl → List TypeDecl
  | [] => []
  | d :: ds => outline g d :: outlines g ds

end

theorem outlines_eq_map (g : TypeRef → TypeRef) (ds : List TypeDecl) :
    outlines g ds = ds.map (outline g) := by
  induction ds with
  | nil => rfl
  | cons d ds ih => rw [outlines, ih, List.map_cons]

section

variable {g : TypeRef → TypeRef} {d d' : TypeDecl}
variable (h : d'.outline g = d.outline g)

include h

theorem name_of_outline : d'.name = d.name := by
  have hname := congrArg TypeDecl.name h
  cases d
  cases d'
  exact hname

theorem markers_of_outline : d'.markers = d.markers := by
  have hmarkers := congrArg TypeDecl.markers h
  cases d
  cases d'
  exact hmarkers

theorem superclass_of_outline : d'.superclass.map g = d.superclass.map g := by
  have hsuperclass := congrArg TypeDecl.superclass h
  cases d
  cases d'
  exact hsuperclass

theorem fields_of_outline :
    d'.fields.map (·.outline g) = d.fields.map (·.outline g) := by
  have hfields := congrArg TypeDecl.fields h
  cases d
  cases d'
  exact hfields

theorem methods_of_outline :
    d'.methods.map (·.outline g) = d.methods.map (·.outline g) := by
  have hmethods := congrArg TypeDecl.methods h
  cases d
  cases d'
  exact hmethods

theorem nested_of_outline :
    d'.nested.map (outline g) = d.nested.map (outline g) := by
  have hnested := congrArg TypeDecl.nested h
  cases d
  cases d'
  rw [← outlines_eq_map, ← outlines_eq_map]
  exact hnested

end

end TypeDecl

/-- What an outline shows is the same of lists with the same outlines. -/
theorem map_eq_of_map_eq {α β γ : Type} {f : α → β} {k : α → γ} {p : β → γ}
    (hp : ∀ a, p (f a) = k a) {as bs : List α} (h : as.map f = bs.map f) :
    as.map k = bs.map k := by
  have hmap := congrArg (List.map p) h
  simpa only [List.map_map, Function.comp_def, hp] using hmap

-- ========================================================== transformations

namespace Transformer

variable {m : Type → Type} [Monad m] (r : Transformer m)

namespace Reasoning

variable {ι : Type} (L : Reasoning m ι)

/-- A loop leaves what each of its turns leaves. -/
theorem each_map_holds {α β : Type} {f : α → m α} {g k : α → β}
    (hf : ∀ a, L.holds (f a) fun _ a' => g a' = k a) (as : List α) :
    L.holds (each f as) fun _ as' => as'.map g = as.map k := by
  induction as with
  | nil => exact L.ofPure fun _ => rfl
  | cons a as ih =>
      rw [each]
      refine L.ofBind (hf a) fun a' => L.ofBind ih fun as' =>
        L.ofPure fun _ has ha => ?_
      rw [List.map_cons, List.map_cons, has, ha]

theorem optional_map_holds {α β : Type} {f : α → m α} {g k : α → β}
    (hf : ∀ a, L.holds (f a) fun _ a' => g a' = k a) (a : Option α) :
    L.holds (optional f a) fun _ a' => a'.map g = a.map k := by
  cases a with
  | none => exact L.ofPure fun _ => rfl
  | some a => exact L.ofBind (hf a) fun a' => L.ofPure fun _ ha =>
      congrArg some ha

variable {g k : TypeRef → TypeRef}

/-- That of any computation something can be said. -/
def Covers (L : Reasoning m ι) : Prop :=
  ∀ {α : Type} (x : m α), L.holds x fun _ _ => True

/-- That a view shows of a transformed type reference what another one shows
of the reference before. -/
def Views (L : Reasoning m ι) (r : Transformer m) (g k : TypeRef → TypeRef) :
    Prop :=
  ∀ t, L.holds (r.typeRef t) fun _ t' => g t' = k t

/-- Looking at a node leaves what is done afterwards. -/
theorem look_then_holds (hany : L.Covers) {α : Type} {n : Node} {k : m α}
    {Q : α → Prop} (hk : L.holds k fun _ => Q) :
    L.holds (do
      r.look n
      k) fun _ => Q :=
  L.ofBind (hany _) fun _ => L.mono hk fun _ _ hQ _ => hQ

theorem field_outline (hany : L.Covers) (hview : L.Views r g k) (f : Field) :
    L.holds (r.field f) fun _ f' => f'.outline g = f.outline k := by
  rw [Transformer.field]
  refine L.look_then_holds r hany (L.ofBind (hview f.type) fun type => ?_)
  refine L.ofBind (L.optional_map_holds (g := fun _ => Expr.super)
    (k := fun _ => Expr.super) (fun _ => L.mono (hany _) fun _ _ _ => rfl)
    f.init) fun init => L.ofPure fun _ hinit htype => ?_
  simp only [Field.outline, htype, hinit]

theorem param_outline (hview : L.Views r g k) (p : Param) :
    L.holds (r.param p) fun _ p' => p'.outline g = p.outline k := by
  rw [Transformer.param]
  exact L.ofBind (hview p.type) fun type => L.ofPure fun _ htype => by
    simp only [Param.outline, htype]

theorem method_outline (hany : L.Covers) (hview : L.Views r g k) (d : Method) :
    L.holds (r.method d) fun _ d' => d'.outline g = d.outline k := by
  rw [Transformer.method]
  refine L.look_then_holds r hany
    (L.ofBind (hview d.returns) fun returns => ?_)
  refine L.ofBind (L.each_map_holds (L.param_outline r hview) d.params)
    fun params => ?_
  refine L.ofBind (L.optional_map_holds (g := fun _ => ([] : Block))
    (k := fun _ => ([] : Block)) (fun _ => L.mono (hany _) fun _ _ _ => rfl)
    d.body) fun body =>
      L.ofPure fun _ hbody hparams hreturns => ?_
  simp only [Method.outline, hreturns, hparams, hbody]

mutual

/-- A transformed declaration looks in one view as it did in the other, if
type references do. -/
theorem typeDecl_outline (hany : L.Covers) (hview : L.Views r g k) :
    ∀ d : TypeDecl, L.holds (r.typeDecl d) fun _ d' =>
      d'.outline g = d.outline k
  | ⟨_, _, _, _, superclass, interfaces, _, _, fields, methods, constructors,
      nested, _⟩ => by
      rw [typeDecl]
      refine L.look_then_holds r hany ?_
      refine L.ofBind (L.optional_map_holds hview superclass)
        fun superclass' => ?_
      refine L.ofBind (L.each_map_holds hview interfaces) fun interfaces' => ?_
      refine L.ofBind (L.each_map_holds (L.field_outline r hany hview) fields)
        fun fields' => ?_
      refine L.ofBind (hany _) fun constructors' => ?_
      refine L.ofBind
        (L.each_map_holds (L.method_outline r hany hview) methods)
        fun methods' => ?_
      refine L.ofBind (typeDecls_outline hany hview nested) fun nested' => ?_
      refine L.ofPure
        fun _ hnested hmethods _ hfields hinterfaces hsuperclass => ?_
      simp only [TypeDecl.outline, hsuperclass, hinterfaces, hfields,
        hmethods, hnested]

theorem typeDecls_outline (hany : L.Covers) (hview : L.Views r g k) :
    ∀ ds : List TypeDecl, L.holds (r.typeDecls ds) fun _ ds' =>
      TypeDecl.outlines g ds' = TypeDecl.outlines k ds
  | [] => L.ofPure fun _ => rfl
  | d :: ds => by
      rw [typeDecls]
      refine L.ofBind (typeDecl_outline hany hview d) fun d' => ?_
      refine L.ofBind (typeDecls_outline hany hview ds) fun ds' =>
        L.ofPure fun _ hds hd => ?_
      rw [TypeDecl.outlines, TypeDecl.outlines, hd, hds]

end

end Reasoning

-- -------------------------------------------------------------- both monads

/-- Answers without effects. -/
def plainly : Reasoning Id Unit where
  holds x Q := ∀ i, Q i x.run
  mono h hPQ i := hPQ i _ (h i)
  ofPure h := h
  ofBind hx hf i := hf _ i (hx i)

/-- Answers from any state. -/
def fromAnyState (σ : Type) : Reasoning (StateM σ) Unit where
  holds x Q := ∀ s i, Q i (x.run s).1
  mono h hPQ s i := hPQ i _ (h s i)
  ofPure h _ := h
  ofBind hx hf s i := hf _ _ i (hx s i)

theorem outline_run (r : Transformer Id) (d : TypeDecl) :
    ((r.typeDecl d).run).outline TypeRef.hide = d.outline TypeRef.hide :=
  plainly.typeDecl_outline r (fun _ _ => trivial) (fun _ _ => rfl) d ()

theorem outline_runState {σ : Type} (r : Transformer (StateM σ))
    (d : TypeDecl) (s : σ) :
    (((r.typeDecl d).run s).1).outline TypeRef.hide = d.outline TypeRef.hide :=
  (fromAnyState σ).typeDecl_outline r (fun _ _ _ => trivial)
    (fun _ _ _ => rfl) d s ()

/-- A transformer that changes no type reference changes expressions only. -/
theorem KeepsTypes.outline_runState {σ : Type} {r : Transformer (StateM σ)}
    (h : r.KeepsTypes) (d : TypeDecl) (s : σ) :
    (((r.typeDecl d).run s).1).outline id = d.outline id :=
  (fromAnyState σ).typeDecl_outline r (fun _ _ _ => trivial)
    (h.typeRef_holds (fromAnyState σ)) d s ()

end Transformer

end Stagewise
