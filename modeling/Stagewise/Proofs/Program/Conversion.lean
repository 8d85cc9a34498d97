/-
Code that is taken over from one declaration into another.

On the way three things can become of it. Types are replaced where formal
type parameters have arguments; variables are renamed where the code of a
constructor comes into another one; and calls through `super` go elsewhere
once the method that they mean is part of the same declaration. A
`Conversion` says what becomes of each, and `Expr.convert` does all three
at once, everywhere in an expression. The call is looked up by the reference
as it is written, before its types are replaced.

Conversions one after the other are one (`Expr.convert_convert`). A redirected
call is no call through `super` any more, so a later conversion only replaces
types in the reference that it goes to.

The code of a declaration is a list of scripts: the expressions that stand in
a member, with the place of the member (`TypeDecl.scripts`). It forgets the
statements, which no conversion changes but for the types of local variables.
-/
import Stagewise.Proofs.Program.Names

namespace Stagewise

/-- The method with other types. -/
def MethodRef.mapTypes (f : TypeRef → TypeRef) (m : MethodRef) : MethodRef :=
  { m with params := m.params.map f }

@[simp] theorem MethodRef.mapTypes_id (m : MethodRef) : m.mapTypes id = m := by
  unfold mapTypes
  rw [List.map_id]

theorem MethodRef.mapTypes_mapTypes (f g : TypeRef → TypeRef) (m : MethodRef) :
    (m.mapTypes f).mapTypes g = m.mapTypes (g ∘ f) := by
  unfold mapTypes
  rw [List.map_map]

/-- A change of types alone. -/
def NameMap.ofTypes (τ : TypeRef → TypeRef) : NameMap := ⟨τ, id⟩

/-- What becomes of types, of variables, and of the methods called through
`super`, which stay what they are if they are not redirected. -/
structure Conversion where
  type : TypeRef → TypeRef := id
  var : String → String := id
  redirect : MethodRef → Option MethodRef := fun _ => none

/-- One conversion after another. -/
def Conversion.after (κ₂ κ₁ : Conversion) : Conversion where
  type := κ₂.type ∘ κ₁.type
  var := κ₂.var ∘ κ₁.var
  redirect m := match κ₁.redirect m with
    | some target => some (target.mapTypes κ₂.type)
    | none => κ₂.redirect (m.mapTypes κ₁.type)

theorem Conversion.redirect_after_of_some {κ₁ κ₂ : Conversion}
    {m target : MethodRef} (h : κ₁.redirect m = some target) :
    (κ₂.after κ₁).redirect m = some (target.mapTypes κ₂.type) := by
  unfold after
  dsimp only
  rw [h]

theorem Conversion.redirect_after_of_none {κ₁ κ₂ : Conversion} {m : MethodRef}
    (h : κ₁.redirect m = none) :
    (κ₂.after κ₁).redirect m = κ₂.redirect (m.mapTypes κ₁.type) := by
  unfold after
  dsimp only
  rw [h]

-- ================================================================ expressions

namespace Expr

/-- Whether a call is one through `super`. -/
def isSuper : Option Expr → Bool
  | some .super => true
  | _ => false

theorem isSuper_iff {t : Option Expr} :
    isSuper t = true ↔ t = some .super := by
  cases t with
  | none => simp [isSuper]
  | some e => cases e <;> simp [isSuper]

/-- Convert a call whose parts have been converted. -/
def convertCall (κ : Conversion) (t : Option Expr) (m : MethodRef)
    (args : List Expr) : Expr :=
  match if isSuper t then κ.redirect m else none with
  | some target => .call none target args
  | none => .call t (m.mapTypes κ.type) args

/-- Convert the top of an expression. -/
def convertTop (κ : Conversion) : Expr → Expr
  | .var name => .var (κ.var name)
  | .call t m args => convertCall κ t m args
  | .new type args => .new (κ.type type) args
  | e => e

/-- Convert an expression with all its parts. -/
def convert (κ : Conversion) (e : Expr) : Expr := e.rewrite (convertTop κ)

variable (κ κ₁ κ₂ : Conversion)

variable {t : Option Expr} {m target : MethodRef}

theorem convertCall_of_some (ht : isSuper t = true)
    (h : κ.redirect m = some target)
    (args : List Expr) : convertCall κ t m args = .call none target args := by
  unfold convertCall
  rw [if_pos ht, h]

theorem convertCall_of_none (h : isSuper t = true → κ.redirect m = none)
    (args : List Expr) :
    convertCall κ t m args = .call t (m.mapTypes κ.type) args := by
  unfold convertCall
  split
  · rename_i hsome
    split at hsome
    · rename_i ht
      cases (h ht).symm.trans hsome
    · cases hsome
  · rfl

theorem convert_call (t : Option Expr) (m : MethodRef) (args : List Expr) :
    (Expr.call t m args).convert κ
      = convertCall κ (rewriteTarget (convertTop κ) t) m
        (rewriteAll (convertTop κ) args) := by
  unfold convert
  rw [rewrite]
  rfl

/-- A redirected call has no target. -/
theorem convert_super_of_some (h : κ.redirect m = some target)
    (args : List Expr) :
    (Expr.call (some .super) m args).convert κ
      = .call none target (args.map (convert κ)) := by
  rw [convert_call, convertCall_of_some κ rfl h, rewriteAll_eq_map]
  rfl

/-- Another call through `super` stays one of the same method. -/
theorem convert_super_of_none (h : κ.redirect m = none) (args : List Expr) :
    (Expr.call (some .super) m args).convert κ
      = .call (some .super) (m.mapTypes κ.type) (args.map (convert κ)) := by
  rw [convert_call, convertCall_of_none κ fun _ => h, rewriteAll_eq_map]
  rfl

theorem convertTop_eq_super {e : Expr} :
    convertTop κ e = .super ↔ e = .super := by
  cases e with
  | call t m args =>
      unfold convertTop convertCall
      dsimp only
      split <;> simp
  | _ => simp [convertTop]

/-- What is called through `super` is so after a conversion of the target. -/
theorem isSuper_rewriteTarget (t : Option Expr) :
    isSuper (rewriteTarget (convertTop κ) t) = isSuper t := by
  cases t with
  | none => rfl
  | some e =>
      rw [Bool.eq_iff_iff, isSuper_iff, isSuper_iff, rewriteTarget,
        Option.some.injEq, Option.some.injEq, rewrite_eq, convertTop_eq_super]
      cases e <;> simp [mapParts]

/-- A call whose parts have been converted by both conversions. -/
theorem convertCall_convert {t₁ t₂ : Option Expr} {args₁ args₂ : List Expr}
    (hs₁ : isSuper t₁ = isSuper t) (hs₂ : isSuper t₂ = isSuper t)
    (ht : rewriteTarget (convertTop κ₂) t₁ = t₂)
    (hargs : rewriteAll (convertTop κ₂) args₁ = args₂) :
    (convertCall κ₁ t₁ m args₁).convert κ₂
    = convertCall (κ₂.after κ₁) t₂ m args₂ := by
  subst ht
  subst hargs
  by_cases hredirected : ∃ target, isSuper t = true
    ∧ κ₁.redirect m = some target
  · obtain ⟨target, hs, hsome⟩ := hredirected
    have hafter : (κ₂.after κ₁).redirect m
        = some (target.mapTypes κ₂.type) := by
      simp [Conversion.after, hsome]
    rw [convertCall_of_some κ₁ (hs₁.trans hs) hsome, convert_call,
      convertCall_of_some _ (hs₂.trans hs) hafter]
    rfl
  · have hnone : isSuper t = true → κ₁.redirect m = none := fun hs =>
      Option.eq_none_iff_forall_ne_some.2 fun target hsome =>
        hredirected ⟨target, hs, hsome⟩
    have hafter : isSuper t = true →
        (κ₂.after κ₁).redirect m = κ₂.redirect (m.mapTypes κ₁.type) :=
      fun hs => by
      simp [Conversion.after, hnone hs]
    have htypes : m.mapTypes (κ₂.after κ₁).type
        = (m.mapTypes κ₁.type).mapTypes κ₂.type := by
      simp [MethodRef.mapTypes, Conversion.after]
    rw [convertCall_of_none κ₁ (fun hs => hnone (hs₁ ▸ hs)), convert_call]
    unfold convertCall
    rw [hs₂, htypes]
    by_cases hs : isSuper t = true
    · rw [if_pos hs, if_pos hs, hafter hs]
    · rw [if_neg hs, if_neg hs]

mutual

/-- Two conversions after each other are one. -/
theorem convert_convert :
    ∀ e : Expr, (e.convert κ₁).convert κ₂ = e.convert (κ₂.after κ₁)
  | .literal _ | .self _ | .super | .var _ => rfl
  | .field t f => by
      have ht := rewriteTarget_convert t
      show Expr.field (rewriteTarget _ (rewriteTarget _ t)) f = Expr.field _ f
      rw [ht]
  | .call t m args => by
      have ht := rewriteTarget_convert t
      have hargs := rewriteAll_convert args
      rw [convert_call, convert_call]
      exact convertCall_convert κ₁ κ₂ (isSuper_rewriteTarget κ₁ t)
        (isSuper_rewriteTarget (κ₂.after κ₁) t) ht hargs
  | .new type args => by
      have hargs := rewriteAll_convert args
      show Expr.new _ (rewriteAll _ (rewriteAll _ args)) = Expr.new _ _
      rw [hargs]
      rfl
  | .unary op e => congrArg (Expr.unary op) (convert_convert e)
  | .binary op a b => congrArg₂ (Expr.binary op) (convert_convert a)
      (convert_convert b)
  | .assign op a b => congrArg₂ (Expr.assign op) (convert_convert a)
      (convert_convert b)
  | .conditional c a b => by
      have hc := convert_convert c
      have ha := convert_convert a
      have hb := convert_convert b
      show Expr.conditional _ _ _ = Expr.conditional _ _ _
      exact congr (congrArg₂ Expr.conditional hc ha) hb

theorem rewriteTarget_convert : ∀ t : Option Expr,
    rewriteTarget (convertTop κ₂) (rewriteTarget (convertTop κ₁) t)
      = rewriteTarget (convertTop (κ₂.after κ₁)) t
  | none => rfl
  | some e => congrArg some (convert_convert e)

theorem rewriteAll_convert : ∀ es : List Expr,
    rewriteAll (convertTop κ₂) (rewriteAll (convertTop κ₁) es)
      = rewriteAll (convertTop (κ₂.after κ₁)) es
  | [] => rfl
  | e :: es => congrArg₂ List.cons (convert_convert e) (rewriteAll_convert es)

end

/-- Rename an expression that is a variable. -/
def renameTop (ρ : String → String) : Expr → Expr
  | .var name => .var (ρ name)
  | e => e

theorem renameTop_keepsParts (ρ : String → String) :
    KeepsParts (renameTop ρ) := by
  intro e
  cases e <;> rfl

/-- A conversion of variables alone renames them. -/
theorem convertTop_var (ρ : String → String) :
    convertTop { var := ρ } = renameTop ρ := by
  funext e
  cases e with
  | call t m args =>
      have hcall : convertCall { var := ρ } t m args
          = .call t (m.mapTypes id) args :=
        convertCall_of_none { var := ρ } (fun _ => rfl) args
      rw [MethodRef.mapTypes_id] at hcall
      exact hcall
  | _ => rfl

theorem convertTop_empty (e : Expr) : convertTop {} e = e := by
  refine (congrFun (convertTop_var id) e).trans ?_
  cases e <;> rfl

/-- Where nothing is replaced, renamed or redirected nothing changes. -/
@[simp] theorem convert_empty (e : Expr) : e.convert {} = e :=
  rewrite_eq_self e fun x _ => convertTop_empty x

/-- A change of types is a conversion. -/
theorem mapNames_eq_convert (τ : TypeRef → TypeRef) :
    mapNames (NameMap.ofTypes τ) = convert { type := τ } := by
  have htop : mapTopNames (NameMap.ofTypes τ) = convertTop { type := τ } := by
    funext e
    cases e with
    | self q => cases q <;> rfl
    | call t m args =>
        exact (convertCall_of_none { type := τ } (fun _ => rfl) args).symm
    | _ => rfl
  unfold mapNames convert
  rw [htop]

end Expr

-- ================================================================= statements

namespace Stmt

mutual

/-- The expressions that stand in a statement, without their parts. -/
def tops : Stmt → List Expr
  | .expr e | .throw e => [e]
  | .declare _ _ e | .ret e => e.toList
  | .branch cond yes no => cond :: (topsOfAll yes ++ topsOfBlock? no)
  | .loop cond body => cond :: topsOfAll body
  | .check cond message => cond :: message.toList
  | .superConstructor args => args
  | .block body => topsOfAll body

/-- `tops` of a block that may be absent. -/
def topsOfBlock? : Option (List Stmt) → List Expr
  | none => []
  | some b => topsOfAll b

/-- `tops` of the statements of a block. -/
def topsOfAll : List Stmt → List Expr
  | [] => []
  | s :: ss => tops s ++ topsOfAll ss

end

variable (f : Expr → Expr) (ν : NameMap)

mutual

theorem tops_rewrite :
    ∀ s : Stmt, (s.rewrite f).tops = s.tops.map (Expr.rewrite f)
  | .expr _ | .throw _ | .superConstructor _ => rfl
  | .declare _ _ e | .ret e => Option.toList_map
  | .branch cond yes no => by
      rw [rewrite, tops, topsOfAll_rewrite yes,
        topsOfBlock?_rewrite no, ← List.map_append]
      rfl
  | .loop cond body => by
      rw [rewrite, tops, topsOfAll_rewrite body]
      rfl
  | .check cond message => by
      rw [rewrite, tops, Option.toList_map]
      rfl
  | .block body => by
      rw [rewrite, tops, topsOfAll_rewrite body]
      rfl

theorem topsOfBlock?_rewrite : ∀ b : Option (List Stmt),
    topsOfBlock? (rewriteBlock? f b) = (topsOfBlock? b).map (Expr.rewrite f)
  | none => rfl
  | some b => topsOfAll_rewrite b

theorem topsOfAll_rewrite : ∀ ss : List Stmt,
    topsOfAll (rewriteAll f ss) = (topsOfAll ss).map (Expr.rewrite f)
  | [] => rfl
  | s :: ss => by
      rw [rewriteAll, topsOfAll, tops_rewrite s,
        topsOfAll_rewrite ss, ← List.map_append]
      rfl

end

mutual

theorem tops_mapNames :
    ∀ s : Stmt, (s.mapNames ν).tops = s.tops.map (Expr.mapNames ν)
  | .expr _ | .throw _ | .superConstructor _ => rfl
  | .declare _ _ e | .ret e => Option.toList_map
  | .branch cond yes no => by
      rw [mapNames, tops, topsOfAll_mapNames yes,
        topsOfBlock?_mapNames no, ← List.map_append]
      rfl
  | .loop cond body => by
      rw [mapNames, tops, topsOfAll_mapNames body]
      rfl
  | .check cond message => by
      rw [mapNames, tops, Option.toList_map]
      rfl
  | .block body => by
      rw [mapNames, tops, topsOfAll_mapNames body]
      rfl

theorem topsOfBlock?_mapNames : ∀ b : Option (List Stmt),
    topsOfBlock? (mapNamesBlock? ν b) = (topsOfBlock? b).map (Expr.mapNames ν)
  | none => rfl
  | some b => topsOfAll_mapNames b

theorem topsOfAll_mapNames : ∀ ss : List Stmt,
    topsOfAll (mapNamesAll ν ss) = (topsOfAll ss).map (Expr.mapNames ν)
  | [] => rfl
  | s :: ss => by
      rw [mapNamesAll, topsOfAll, tops_mapNames s,
        topsOfAll_mapNames ss, ← List.map_append]
      rfl

end

end Stmt

-- ==================================================================== scripts

/-- Where code stands in a declaration, nested types left out. -/
inductive Site where
  | field (id : Identity)
  | constructor
  | method (id : Identity)

/-- Code with its place: the expressions of the initial value of a field or of
the body of a method, or of one statement in the body of a constructor. -/
structure Script where
  site : Site
  exprs : List Expr

/-- Convert all the code. -/
def Script.convert (κ : Conversion) (x : Script) : Script :=
  { x with exprs := x.exprs.map (Expr.convert κ) }

theorem Script.convert_convert (κ₁ κ₂ : Conversion) (x : Script) :
    (x.convert κ₁).convert κ₂ = x.convert (κ₂.after κ₁) := by
  simp [convert, Function.comp_def, Expr.convert_convert]

@[simp] theorem Script.convert_empty (x : Script) : x.convert {} = x := by
  have hexpr : Expr.convert {} = id := funext Expr.convert_empty
  rw [convert, hexpr, List.map_id]

def Field.script (f : Field) : Script := ⟨.field f.id, f.init.toList⟩

def Method.script (m : Method) : Script :=
  ⟨.method m.id, Stmt.topsOfAll m.bodyOrEmpty⟩

def Constructor.scripts (c : Constructor) : List Script :=
  c.body.map fun s => ⟨.constructor, s.tops⟩

theorem Constructor.site_of_mem {c : Constructor} {x : Script}
    (hx : x ∈ c.scripts) :
    x.site = .constructor := by
  obtain ⟨s, -, rfl⟩ := List.mem_map.1 hx
  rfl

/-- The code of the members of a declaration. -/
def TypeDecl.scripts (d : TypeDecl) : List Script :=
  d.fields.map Field.script ++ d.constructors.flatMap Constructor.scripts
    ++ d.methods.map Method.script

theorem TypeDecl.mem_scripts {d : TypeDecl} {x : Script} : x ∈ d.scripts
    ↔ (∃ f ∈ d.fields, f.script = x) ∨ (∃ c ∈ d.constructors, x ∈ c.scripts)
      ∨ ∃ m ∈ d.methods, m.script = x := by
  simp only [scripts, List.mem_append, List.mem_map,
    List.mem_flatMap, or_assoc]

section

variable (κ : Conversion)

theorem Field.script_rewrite (f : Field) :
    (f.rewrite (Expr.convertTop κ)).script = f.script.convert κ :=
  congrArg (Script.mk (.field f.id)) Option.toList_map

theorem Method.script_rewrite (m : Method) :
    (m.rewrite (Expr.convertTop κ)).script = m.script.convert κ := by
  unfold rewrite script bodyOrEmpty
  cases m.body with
  | none => rfl
  | some b => exact congrArg (Script.mk
      (.method m.id)) (Stmt.topsOfAll_rewrite _ b)

theorem Constructor.scripts_rewrite (c : Constructor) :
    (c.rewrite (Expr.convertTop κ)).scripts
      = c.scripts.map (Script.convert κ) := by
  unfold rewrite scripts Block.rewrite
  dsimp only
  induction c.body with
  | nil => rfl
  | cons s b ih =>
      rw [Stmt.rewriteAll, List.map_cons, ih, Stmt.tops_rewrite]
      rfl

/-- Rewriting the expressions of a declaration converts its code. -/
theorem TypeDecl.scripts_rewrite (d : TypeDecl) :
    (d.rewrite (Expr.convertTop κ)).scripts
      = d.scripts.map (Script.convert κ) := by
  rcases d with ⟨_, _, _, _, _, _, _, _, fields, methods, constructors, _, _⟩
  simp only [rewrite, scripts, List.map_append, List.map_map, List.flatMap_map,
    List.map_flatMap, Function.comp_def, Field.script_rewrite,
    Method.script_rewrite, Constructor.scripts_rewrite]

end

section

variable (τ : TypeRef → TypeRef)

theorem Field.script_mapNames (f : Field) :
    (f.mapNames (NameMap.ofTypes τ)).script
      = f.script.convert { type := τ } := by
  unfold Script.convert
  rw [← Expr.mapNames_eq_convert]
  exact congrArg (Script.mk (.field f.id)) Option.toList_map

theorem Method.script_mapNames (m : Method) :
    (m.mapNames (NameMap.ofTypes τ)).script
      = m.script.convert { type := τ } := by
  unfold Script.convert
  rw [← Expr.mapNames_eq_convert]
  unfold mapNames script bodyOrEmpty
  cases m.body with
  | none => rfl
  | some b => exact congrArg (Script.mk
      (.method m.id)) (Stmt.topsOfAll_mapNames _ b)

theorem Constructor.scripts_mapNames (c : Constructor) :
    (c.mapNames (NameMap.ofTypes τ)).scripts
      = c.scripts.map (Script.convert { type := τ }) := by
  unfold mapNames scripts Block.mapNames
  dsimp only
  induction c.body with
  | nil => rfl
  | cons s b ih =>
      rw [Stmt.mapNamesAll, List.map_cons, ih, Stmt.tops_mapNames,
        Expr.mapNames_eq_convert]
      rfl

/-- Changing the types in a declaration converts its code. -/
theorem TypeDecl.scripts_mapNames (d : TypeDecl) :
    (d.mapNames (NameMap.ofTypes τ)).scripts
      = d.scripts.map (Script.convert { type := τ }) := by
  rcases d with ⟨_, _, _, _, _, _, _, _, fields, methods, constructors, _, _⟩
  simp only [mapNames, scripts, List.map_append, List.map_map,
    List.flatMap_map, List.map_flatMap,
    Function.comp_def, Field.script_mapNames, Method.script_mapNames,
    Constructor.scripts_mapNames]

end

end Stagewise
