/-
The check of writes is exact for what stands in the links themselves.

A member may write the fields of one stage at most, the one that it is an
init, close or tagged method of. The check fails just when some member of
some link writes a field of another stage (`Trespasses`), wherever in the
member the write stands. The types nested in a link are not looked at: a
write that stands there passes.
-/
import Stagewise.Analysis.Writes
import Stagewise.Proofs.Analysis.Discovery

namespace Stagewise

-- ============================================================ checks in turn

section

variable {α β : Type} {f : α → Except Failure β} {as : List α} {e : Failure}

/-- Checks in turn succeed when each of them does. -/
theorem mapM_eq_ok_iff :
    (∃ bs, as.mapM f = .ok bs) ↔ ∀ a ∈ as, ∃ b, f a = .ok b := by
  induction as with
  | nil => exact ⟨nofun, fun _ => ⟨[], rfl⟩⟩
  | cons a as ih =>
      rw [List.forall_mem_cons, ← ih, List.mapM_cons]
      cases f a with
      | error e => exact ⟨nofun, nofun⟩
      | ok b =>
          cases as.mapM f with
          | error e => exact ⟨nofun, nofun⟩
          | ok bs => exact ⟨fun _ => ⟨⟨b, rfl⟩, ⟨bs, rfl⟩⟩,
              fun _ => ⟨b :: bs, rfl⟩⟩

/-- The failure of checks in turn is that of one of them. -/
theorem exists_of_mapM_eq_error (h : as.mapM f = .error e) :
    ∃ a ∈ as, f a = .error e := by
  induction as with
  | nil => cases h
  | cons a as ih =>
      rw [List.mapM_cons] at h
      cases ha : f a with
      | error e' =>
          rw [ha] at h
          exact ⟨a, List.mem_cons_self,
            ha.trans (congrArg _ (Except.error.inj h))⟩
      | ok b =>
          rw [ha] at h
          cases has : as.mapM f with
          | error e' =>
              rw [has] at h
              obtain ⟨a', ha', hfail⟩ :=
                ih (has.trans (congrArg _ (Except.error.inj h)))
              exact ⟨a', List.mem_cons_of_mem _ ha', hfail⟩
          | ok bs =>
              rw [has] at h
              cases h

end

namespace Analysis

open Step

variable {b : Bindings} {c : Compilation} {d : TypeDecl}
variable {m : Option Method} {e : Expr}
variable {w : WriteSite} {f : FieldRef} {n : DependencyId}

-- ==================================================================== writes

/-- The expressions that stand in the members of a type itself, each with
the method it stands in, if it does. -/
inductive HasCode (d : TypeDecl) : Option Method → Expr → Prop
  | method {m : Method} {e : Expr} :
      m ∈ d.methods → e ∈ Node.exprs m.nodes → HasCode d (some m) e
  | constructor {k : Constructor} {e : Expr} :
      k ∈ d.constructors → e ∈ Node.exprs k.nodes → HasCode d none e
  | field {f : Field} {e : Expr} :
      f ∈ d.fields → e ∈ Node.exprs f.nodes → HasCode d none e

/-- Whether a method may write the fields of a stage: it is bound to it as
an init, close or tagged method. -/
def MayWrite (b : Bindings) (m : Method) (n : DependencyId) : Prop :=
  ∃ r ∈ [Role.init, .close, .stageMethod], b.roleOf? m.id = some (n, r)

/-- That a member of a type writes a field of a stage without being one of
the methods that may. -/
def Trespasses (b : Bindings) (d : TypeDecl) : Prop :=
  ∃ m e f n, HasCode d m e ∧ writtenField? e = some f
    ∧ b.stageOfField? f.identity = some n ∧ ∀ m' ∈ m, ¬ MayWrite b m' n

theorem mem_writtenFields {ns : List Node} :
    f ∈ writtenFields ns ↔ ∃ e ∈ Node.exprs ns, writtenField? e = some f :=
  List.mem_filterMap

theorem writerOf?_eq_some {m : Method} :
    writerOf? b m.id = some n ↔ MayWrite b m n := by
  unfold writerOf? MayWrite
  rcases h : b.roleOf? m.id with _ | ⟨n', r⟩
  · simp
  · cases r <;> simp

/-- The writes of a type are those in its own members, and only a method
has a stage that it may write. -/
theorem exists_writeSite {P : FieldRef → Option DependencyId → Prop} :
    (∃ w ∈ writeSites b d, P w.field w.writer)
      ↔ ∃ m e f, HasCode d m e ∧ writtenField? e = some f
          ∧ P f (m.bind fun m => writerOf? b m.id) := by
  constructor
  · rintro ⟨w, hw, hP⟩
    simp only [writeSites, List.mem_append, List.mem_flatMap, List.mem_map,
      mem_writtenFields] at hw
    rcases hw with (⟨m, hm, f, ⟨e, he, hf⟩, rfl⟩
      | ⟨k, hk, f, ⟨e, he, hf⟩, rfl⟩)
      | ⟨g, hg, f, ⟨e, he, hf⟩, rfl⟩
    · exact ⟨some m, e, f, .method hm he, hf, hP⟩
    · exact ⟨none, e, f, .constructor hk he, hf, hP⟩
    · exact ⟨none, e, f, .field hg he, hf, hP⟩
  · rintro ⟨m, e, f, hcode, hf, hP⟩
    simp only [writeSites, List.mem_append, List.mem_flatMap, List.mem_map,
      mem_writtenFields]
    cases hcode with
    | method hm he =>
        exact ⟨_, Or.inl (Or.inl ⟨_, hm, f, ⟨e, he, hf⟩, rfl⟩), hP⟩
    | constructor hk he =>
        exact ⟨_, Or.inl (Or.inr ⟨_, hk, f, ⟨e, he, hf⟩, rfl⟩), hP⟩
    | field hg he => exact ⟨_, Or.inr ⟨_, hg, f, ⟨e, he, hf⟩, rfl⟩, hP⟩

-- ================================================================= the check

/-- A write fails when it concerns a stage that is not the writer's. -/
theorem not_checkWrite_isOk :
    (¬ ∃ k, checkWrite b w = .ok k)
      ↔ ∃ n, b.stageOfField? w.field.identity = some n
      ∧ w.writer ≠ some n := by
  unfold checkWrite
  cases b.stageOfField? w.field.identity with
  | none => simp
  | some n => by_cases h : w.writer = some n <;> simp [h]

theorem checkWrite_eq_error {failure : Failure}
    (h : checkWrite b w = .error failure) :
    failure = .illegalMutation w.field.text w.member w.position := by
  unfold checkWrite at h
  split at h
  · cases h
  · split at h
    · cases h
    · exact (Except.error.inj h).symm

/-- The check of a type's own members fails when one of them trespasses. -/
theorem trespasses_iff :
    Trespasses b d ↔ ∃ w ∈ writeSites b d, ¬ ∃ k, checkWrite b w = .ok k := by
  have hmay : ∀ (m : Option Method) n,
      ((m.bind fun m => writerOf? b m.id) ≠ some n)
      ↔ ∀ m' ∈ m, ¬ MayWrite b m' n := by
    intro m n
    cases m with
    | none => simp
    | some m => simp [writerOf?_eq_some]
  simp only [not_checkWrite_isOk]
  rw [exists_writeSite (P := fun f writer =>
    ∃ n, b.stageOfField? f.identity = some n ∧ writer ≠ some n)]
  simp only [hmay]
  constructor
  · rintro ⟨m, e, f, n, hcode, hf, hn, hm⟩
    exact ⟨m, e, f, hcode, hf, n, hn, hm⟩
  · rintro ⟨m, e, f, hcode, hf, n, hn, hm⟩
    exact ⟨m, e, f, n, hcode, hf, hn, hm⟩

/-- All writes of all links, in the order of the check. -/
def allWriteSites (c : Compilation) : List WriteSite :=
  (c.chains.flatMap (·.2)).flatMap fun d =>
    writeSites c.bindings (c.sources.get d)

theorem checkWrites_eq :
    checkWrites c = (·.count true) <$> (allWriteSites c).mapM
      (checkWrite c.bindings) := rfl

theorem mem_links {link : DeclId} :
    link ∈ c.chains.flatMap (·.2)
      ↔ ∃ leaf ∈ c.tree.leaves, link ∈ c.sources.extensionChain leaf := by
  unfold Compilation.chains
  simp only [List.mem_flatMap, List.mem_map]
  constructor
  · rintro ⟨_, ⟨leaf, hleaf, rfl⟩, hlink⟩
    exact ⟨leaf, hleaf, hlink⟩
  · rintro ⟨leaf, hleaf, hlink⟩
    exact ⟨_, ⟨leaf, hleaf, rfl⟩, hlink⟩

/-- The check of writes fails if and only if a member of a link in some
chain writes a field of a stage, anywhere in its code, without being an
init, close or tagged method of that stage. There is no other failure than
an illegal mutation. -/
theorem checkWrites_exact :
    ((∃ field member position,
        checkWrites c = .error (.illegalMutation field member position))
      ↔ ∃ leaf ∈ c.tree.leaves, ∃ link ∈ c.sources.extensionChain leaf,
          Trespasses c.bindings (c.sources.get link))
    ∧ ((∃ checked, checkWrites c = .ok checked)
      ↔ ∀ leaf ∈ c.tree.leaves, ∀ link ∈ c.sources.extensionChain leaf,
          ¬ Trespasses c.bindings (c.sources.get link)) := by
  have hok : (∃ checked, checkWrites c = .ok checked)
      ↔ ∀ leaf ∈ c.tree.leaves, ∀ link ∈ c.sources.extensionChain leaf,
          ¬ Trespasses c.bindings (c.sources.get link) := by
    have hsites : (∃ checked, checkWrites c = .ok checked)
        ↔ ∃ ks, (allWriteSites c).mapM (checkWrite c.bindings) = .ok ks := by
      rw [checkWrites_eq]
      cases (allWriteSites c).mapM (checkWrite c.bindings) with
      | error e => exact ⟨nofun, nofun⟩
      | ok ks => exact ⟨fun _ => ⟨ks, rfl⟩, fun _ => ⟨_, rfl⟩⟩
    rw [hsites, mapM_eq_ok_iff]
    simp only [allWriteSites, List.mem_flatMap, trespasses_iff]
    constructor
    · rintro h leaf hleaf link hlink ⟨w, hw, hfails⟩
      obtain ⟨chain, hchain⟩ :=
        List.mem_flatMap.1 (mem_links.2 ⟨leaf, hleaf, hlink⟩)
      exact hfails (h w ⟨link, ⟨chain, hchain⟩, hw⟩)
    · rintro h w ⟨link, hlink, hw⟩
      obtain ⟨leaf, hleaf, hlink⟩ := mem_links.1 (List.mem_flatMap.2 hlink)
      exact Classical.byContradiction fun hfails => h leaf hleaf link hlink
        ⟨w, hw, hfails⟩
  refine ⟨?_, hok⟩
  have hfails : (∃ field member position,
      checkWrites c = .error (.illegalMutation field member position))
        ↔ ¬ ∃ checked, checkWrites c = .ok checked := by
    rw [checkWrites_eq]
    cases hrun : (allWriteSites c).mapM (checkWrite c.bindings) with
    | ok ks => exact ⟨nofun, fun h => absurd ⟨_, rfl⟩ h⟩
    | error e =>
        obtain ⟨w, -, hw⟩ := exists_of_mapM_eq_error hrun
        exact ⟨fun _ => nofun,
          fun _ => ⟨_, _, _, congrArg _ (checkWrite_eq_error hw)⟩⟩
  rw [hfails, hok]
  simp only [Classical.not_forall, Classical.not_not, exists_prop]

-- ============================================================== nested types

/-- A type nested in `P` whose only method writes the field `a` of `P`. -/
def nestedWriter : TypeDecl :=
  let poke : Method := { name := "poke", returns := .void, body := some [.expr
    (.assign none (.field (some (.self (some "P"))) ⟨"P", "a"⟩)
      (.literal (.int 1)))] }
  ({ name := "N", methods := [poke] } : TypeDecl).assignIdentities

/-- A type `P` with one field, the only one of its stage, and the nested
type. -/
def nestedSources : Sources :=
  let a : Field :=
    { name := "a", type := .int, init := some (.literal (.int (-1))) }
  let p : TypeDecl :=
    { TypeDecl.participating "P" with fields := [a], nested := [nestedWriter] }
  { decls := [p.assignIdentities] }

/-- That type alone at the root. -/
def nestedTree : Composition :=
  { nodes := [{ decls := [⟨0⟩] }]
    leafNodes := [(⟨0⟩, Composition.root)]
    linkNodes := [(⟨0⟩, Composition.root)] }

/-- A write in a nested type passes the check, although no method there may
write the field. -/
theorem checkWrites_misses_nested : ∃ report c,
    discoverNodes.runOn { sources := nestedSources, tree := nestedTree }
      = (.ok report, c)
      ∧ checkWrites c = .ok 0
      ∧ ∃ leaf ∈ c.tree.leaves, ∃ link ∈ c.sources.extensionChain leaf,
          ∃ t, Node.type t ∈ (c.sources.get link).nodes
            ∧ Trespasses c.bindings t := by
  let c₀ : Compilation := { sources := nestedSources, tree := nestedTree }
  let c := (discoverNodes.runOn c₀).2
  obtain ⟨report, hrun⟩ :=
    exists_runOn_eq (x := discoverNodes) (c := c₀) (by decide +kernel)
  have hwritten : checkWrites c = .ok 0 :=
    eq_ok_of_toOption (by decide +kernel)
  have hstage : c.bindings.stageOfField? (FieldRef.identity ⟨"P", "a"⟩)
      = some ⟨0⟩ := by
    decide +kernel
  have hroles : c.bindings.methodRoles = [] := by decide +kernel
  have hleaves : c.tree.leaves = [⟨0⟩] := by decide +kernel
  have hsources : c.sources = nestedSources := discoverNodes_sources _ _ hrun
  refine ⟨report, c, hrun, hwritten, ⟨0⟩, by simp [hleaves], ⟨0⟩, ?_,
    nestedWriter, ?_, ?_⟩
  · rw [hsources]
    decide
  · rw [hsources]
    simp [nestedSources, Sources.get, TypeDecl.assignIdentities,
      TypeDecl.participating, TypeDecl.nodes, TypeDecl.nodesOfAll,
      nestedWriter]
  · refine ⟨_, _, _, _, .method List.mem_cons_self List.mem_cons_self,
      rfl, hstage, ?_⟩
    rintro m - ⟨r, -, hr⟩
    simp [Bindings.roleOf?, hroles] at hr

end Analysis

end Stagewise
