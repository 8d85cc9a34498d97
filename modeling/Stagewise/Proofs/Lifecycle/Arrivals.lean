/-
The signatures of the methods that guards and lifecycle add.

# What is added

A method is bound as it is added, under the identity that its declaration
and its signature give it, and no identity is bound twice. So the methods
that a declaration gains have different signatures, and none of them has an
identity that was bound before. Only a declaration that nodes were found in
gains any (`Arrivals`). This is a matter of single changes
(`Change.arrivals`), and it holds over any number of them
(`Evolves.arrivals`).

# What it can meet

The analysis has bound every concrete method of an object in the links
(`analyse_binds`). So a method that is added can have the signature of a
declared one only if that is static or abstract, or the other is the global
close method, which is not bound (`addLifecycle_arrivals`).
-/
import Stagewise.Compile
import Stagewise.Proofs.Analysis.Frames
import Stagewise.Proofs.Analysis.Partition
import Stagewise.Proofs.Analysis.Passes
import Stagewise.Proofs.Lifecycle.Evolving
import Stagewise.Proofs.Lifecycle.Gains
import Stagewise.Proofs.Lifecycle.GlobalClose
import Stagewise.Proofs.Merge.References
import Stagewise.Proofs.Program.Signatures

namespace Stagewise

open Compilation Stagewise.Composition Step

/-- The identity of a method of this signature in a declaration. -/
def Signature.identityIn (s : Signature) (owner : String) : Identity :=
  (MethodRef.mk owner s.1 s.2).identity

theorem Method.identityIn_eq (m : Method) (owner : String) :
    m.identityIn owner = m.signature.identityIn owner := rfl

/-- That a node was found in a declaration. -/
def Compilation.Owns (c : Compilation) (d : DeclId) : Prop :=
  ∃ n ∈ c.graph.ids, (c.graph.get n).decl = d

variable {c c' c₁ c₂ : Compilation} {d d' : DeclId} {new new' : List Signature}

namespace Lifecycle

/-- Declarations own what they owned. -/
theorem Evolves.owns (h : Evolves c c') : c'.Owns d ↔ c.Owns d := by
  unfold Owns
  simp only [h.mem_ids, h.decl]

-- =================================================================== arrivals

/-- That a declaration has gained methods of these signatures, whose
identities are different ones that were free. It gains none if no node was
found in it. -/
structure Arrivals (c c' : Compilation) (d : DeclId) (new : List Signature) :
    Prop where
  signatures : (c'.sources.get d).signatures
    = (c.sources.get d).signatures ++ new
  nodup : (new.map fun s => s.identityIn (c.sources.name d)).Nodup
  free : ∀ s ∈ new, c.bindings.roleOf? (s.identityIn (c.sources.name d)) = none
  bound : ∀ s ∈ new, ∃ x, c'.bindings.roleOf? (s.identityIn (c.sources.name d))
    = some x
  owned : ∀ s ∈ new, c.Owns d

namespace Arrivals

/-- Where the signatures stay nothing is added. -/
theorem none
    (h : (c'.sources.get d).signatures = (c.sources.get d).signatures) :
    Arrivals c c' d [] :=
  ⟨h.trans (List.append_nil _).symm, .nil, List.forall_mem_nil _,
    List.forall_mem_nil _, List.forall_mem_nil _⟩

/-- What arrives later is free where it arrives, so it is none of what has
arrived. -/
theorem trans (h : Arrivals c c₁ d new) (h' : Arrivals c₁ c₂ d new')
    (hname : c₁.sources.name d = c.sources.name d)
    (howns : c₁.Owns d → c.Owns d)
    (hrole : ∀ id x, c.bindings.roleOf? id = some x →
      c₁.bindings.roleOf? id = some x)
    (hrole' : ∀ id x, c₁.bindings.roleOf? id = some x →
      c₂.bindings.roleOf? id = some x) :
    Arrivals c c₂ d (new ++ new') := by
  obtain ⟨hsignatures', hnodup', hfree', hbound', howned'⟩ := h'
  rw [hname] at hnodup' hfree' hbound'
  refine ⟨?_, ?_, List.forall_mem_append.2 ⟨h.free, fun s hs => ?_⟩,
    List.forall_mem_append.2 ⟨fun s hs => ?_, hbound'⟩,
    List.forall_mem_append.2 ⟨h.owned, fun s hs => howns (howned' s hs)⟩⟩
  · rw [hsignatures', h.signatures, List.append_assoc]
  · rw [List.map_append]
    refine List.nodup_append'.2 ⟨h.nodup, hnodup', fun id hid hid' => ?_⟩
    obtain ⟨s, hs, rfl⟩ := List.mem_map.1 hid
    obtain ⟨s', hs', he⟩ := List.mem_map.1 hid'
    obtain ⟨x, hx⟩ := h.bound s hs
    have hnone := hfree' s' hs'
    rw [he, hx] at hnone
    cases hnone
  · cases hx : c.bindings.roleOf? (s.identityIn (c.sources.name d)) with
    | none => rfl
    | some x => exact (hrole _ x hx).symm.trans (hfree' s hs)
  · obtain ⟨x, hx⟩ := h.bound s hs
    exact ⟨x, hrole' _ x hx⟩

/-- Different identities are those of different signatures. -/
theorem nodup_signatures (h : Arrivals c c' d new) : new.Nodup :=
  List.Nodup.of_map _ h.nodup

end Arrivals

-- ================================================================ the changes

/-- A method that is appended to the declaration of a node arrives there. -/
theorem arrivals_append {m : Method} {body : Block} {n : DependencyId}
    {r : Role} {b : Bindings}
    (hn : n ∈ c.graph.ids) (hm : IsNew m body) (hd : (c.graph.get n).decl = d)
    (hb : c.bindings.bindMethod ((c.sources.modify d (·.addMethod m)).method
      (c.sources.nextMethod d)).id n r = .ok b) (d' : DeclId) :
    ∃ new, Arrivals c { c with
    sources := c.sources.modify d (·.addMethod m), bindings := b }
      d' new := by
  have howns : c.Owns d := ⟨n, hn, hd⟩
  by_cases hd' : d' = d ∧ d.index < c.sources.decls.length
  · obtain ⟨rfl, hlt⟩ := hd'
    have hid : ((c.sources.modify d' (·.addMethod m)).method
        (c.sources.nextMethod d')).id
        = m.signature.identityIn (c.sources.name d') := by
      rw [Sources.method_addMethod_next hlt, m.id_withIdentity hm.id,
        Method.identityIn_eq, Method.signature_withIdentity]
    rw [hid] at hb
    refine ⟨[m.signature], ?_, List.nodup_singleton _,
      List.forall_mem_singleton.2 ?_,
      List.forall_mem_singleton.2 ?_, List.forall_mem_singleton.2 howns⟩
    · dsimp only
      rw [Sources.get_modify hlt, if_pos rfl]
      simp only [TypeDecl.signatures, TypeDecl.addMethod, List.map_append,
        List.map_cons, List.map_nil, Method.signature_withIdentity]
    · exact Bindings.bindMethod_isOk_iff.1 ⟨b, hb⟩
    · refine ⟨(n, r), ?_⟩
      dsimp only
      rw [Bindings.roleOf?_of_bindMethod hb, if_pos rfl]
  · refine ⟨[], .none ?_⟩
    dsimp only
    by_cases hlt : d.index < c.sources.decls.length
    · rw [Sources.get_modify hlt, if_neg fun he => hd' ⟨he, hlt⟩]
    · rw [Sources.modify_of_not_lt hlt]

/-- Bodies are not seen in signatures. -/
theorem signatures_modifyMethod {s : Sources} {f : Method → Method}
    (hf : ∀ m, (f m).signature = m.signature) (l : Location) (d : DeclId) :
    ((s.modifyMethod l f).get d).signatures = (s.get d).signatures :=
  Sources.get_modify_congr
    (f := fun t => { t with methods := t.methods.modify l.index f })
    (fun _ => map_modify_eq_map hf) d

theorem Making.arrivals {n : DependencyId} (h : Making n c c') (d : DeclId) :
    ∃ new, Arrivals c c' d new := by
  cases h with
  | append hn hm _ hb => exact arrivals_append hn hm rfl hb d
  | implement _ _ =>
      exact ⟨[], .none (signatures_modifyMethod (fun _ => by rfl) _ d)⟩
  | stage _ _ | bind _ _ => exact ⟨[], .none rfl⟩

theorem Change.arrivals (h : Change c c') (d : DeclId) :
    ∃ new, Arrivals c c' d new := by
  cases h with
  | making hm => exact hm.arrivals d
  | append hn hm hb => exact arrivals_append hn hm rfl hb d
  | body f => exact ⟨[], .none (signatures_modifyMethod (fun _ => by rfl) _ d)⟩
  | closing _ _ | start _ | finish _ _ => exact ⟨[], .none rfl⟩

/-- Over all changes, methods arrive with identities that were free. -/
theorem Evolves.arrivals (h : Evolves c c') (d : DeclId) :
    ∃ new, Arrivals c c' d new := by
  induction h with
  | refl => exact ⟨[], .none rfl⟩
  | step hbefore hchange ih =>
      obtain ⟨new, hnew⟩ := ih
      obtain ⟨new', hnew'⟩ := hchange.arrivals d
      exact ⟨_, hnew.trans hnew' (hbefore.sources.name d) hbefore.owns.1
        (fun _ _ => hbefore.role) fun _ _ => (Evolves.change hchange).role⟩
  | @detour _ c₁ c₂ l body hbefore hdetour ih ih' =>
      obtain ⟨new, hnew⟩ := ih
      obtain ⟨new', hnew'⟩ := ih'
      have hsame : ∀ (c : Compilation) body,
          ((withBody c l body).sources.get d).signatures
          = (c.sources.get d).signatures :=
        fun _ _ => signatures_modifyMethod (fun _ => by rfl) l d
      have hname : (withBody c₁ l none).sources.name d = c₁.sources.name d :=
        Sources.get_modify_congr (g := TypeDecl.name) (fun _ => by rfl) d
      -- the detour starts with the signatures that were there, and ends with
      -- those it has
      have hstart : Arrivals c₁ (withBody c₁ l none) d [] :=
        .none (hsame c₁ none)
      have hend : Arrivals c₂ (withBody c₂ l (some body)) d [] :=
        .none (hsame c₂ _)
      have hthere := (hnew.trans hstart (hbefore.sources.name d) hbefore.owns.1
        (fun _ _ => hbefore.role) fun _ _ hx => hx).trans hnew'
          (hname.trans (hbefore.sources.name d)) hbefore.owns.1
          (fun _ _ => hbefore.role)
          fun _ _ => hdetour.role
      exact ⟨_, hthere.trans hend
        ((hdetour.sources.name d).trans (hname.trans (hbefore.sources.name d)))
        (fun h => hbefore.owns.1 (hdetour.owns.1 h))
        (fun _ _ hx => hdetour.role (hbefore.role hx)) fun _ _ hx => hx⟩

end Lifecycle

-- =============================================================== the analysis

/-- The analysis binds every concrete method that an object has from a link
of a leaf. -/
theorem Analysis.analyse_binds (ht : Formed c.sources c.tree) (h : Fresh c)
    (hs : c.sources.Coherent) : Ensures analyse c fun _ c' =>
      ∀ leaf ∈ c.tree.leaves, ∀ link ∈ c.sources.extensionChain leaf,
        ∀ m ∈ (c.sources.get link).methods, IsNodeMethod m →
          ∃ x, c'.bindings.roleOf? m.id = some x := by
  unfold analyse Stagewise.checkWrites
  simp only [ensures_bind, ensures_get, ensures_ofExcept, ensures_pure]
  refine ((bindReferences_referenced ht).and bindReferences_frame).mono ?_
  rintro _ _ ⟨⟨hreferenced, -⟩, t, rs, rfl⟩
  have hleaves := hreferenced.form.leaves
  have hassigned := assigned_of_empty (c := { c with
    tree := t, bindings := { c.bindings with references := rs } }) h.graph
      h.fields h.methods
  refine (discoverNodes_settled hassigned hs).mono fun _ c₂ hsettled _ _ => ?_
  refine linkNodes_frame.mono ?_
  rintro _ _ ⟨es, rfl⟩
  refine placeNodes_frame.mono ?_
  rintro _ _ ⟨ps, rfl⟩ leaf hleaf link hlink m hm hnode
  obtain ⟨i, hi, rfl⟩ := List.mem_iff_getElem.1 hm
  have hmethod : c.sources.method ⟨link, i⟩
      = (c.sources.get link).methods[i] :=
    List.getD_eq_getElem _ _ hi
  have hmem : (leaf, (⟨link, i⟩ : Location)) ∈ membersOfChains { c with
      tree := t, bindings := { c.bindings with references := rs } }
          Stage.methodLocations :=
    mem_membersOfChains.2 ⟨hleaves ▸ hleaf, List.mem_flatMap.2
      ⟨link, hlink, Stage.mem_methodLocations.2 ⟨hi, rfl⟩⟩⟩
  rw [← hmethod] at hnode ⊢
  exact hsettled.method _ hmem hnode

-- ============================================================== the lifecycle

/-- The signature of the global close method. -/
def closeSignature : Signature := ("close", [])

/-- That a declaration is the one that the global close method is added to. -/
def Composition.IsFirst (t : Composition) (d : DeclId) : Prop :=
  (t.get Composition.root).decls.head? = some d

instance (t : Composition) (d : DeclId) : Decidable (t.IsFirst d) :=
  inferInstanceAs (Decidable (_ = _))

/-- Only the root's first declaration gets the global close method. -/
theorem Lifecycle.addGlobalClose_signatures :
    Ensures addGlobalClose c fun _ c' =>
    ∀ d, d.index < c.sources.decls.length → (c'.sources.get d).signatures
      = (c.sources.get d).signatures ++ if c.tree.IsFirst d
        then [closeSignature] else [] := by
  unfold addGlobalClose
  rw [ensures_bind, ensures_get]
  dsimp only
  split
  · exact ensures_throw
  · rename_i first hfirst
    rw [ensures_bind, ensures_modifySources, ensures_pure]
    intro d hd
    dsimp only
    by_cases he : d = first
    · subst he
      obtain ⟨hmethods, -⟩ :=
        withCloseInterface_keeps c.options (c.sources.get d)
      rw [Sources.get_modify hd, if_pos rfl,
        if_pos (show c.tree.IsFirst d from hfirst)]
      simp only [TypeDecl.signatures, TypeDecl.addMethod, hmethods,
        List.map_append, List.map_cons, List.map_nil,
        Method.signature_withIdentity]
      rfl
    · have hnot : ¬ c.tree.IsFirst d :=
        fun h => he (Option.some.inj (h.symm.trans hfirst))
      rw [if_neg hnot, List.append_nil]
      by_cases hlt : first.index < c.sources.decls.length
      · rw [Sources.get_modify hlt, if_neg he]
      · rw [Sources.modify_of_not_lt hlt]

/-- Resolving references leaves all signatures. -/
theorem Merge.Resolved.signatures {links : List DeclId} {s : Sources}
    (h : Resolved c links s) (d : DeclId) :
    (s.get d).signatures = (c.sources.get d).signatures := by
  have hsame : ∀ ms : List Method, (ms.map (·.outline id)).map Method.signature
      = ms.map Method.signature := by
    intro ms
    rw [List.map_map]
    exact List.map_congr_left fun m _ =>
      (m.signature_outline id).trans m.signature.view_id
  unfold TypeDecl.signatures
  rw [← hsame, h.methods, hsame]

/-- Guards and lifecycle add methods of different signatures, with
identities that no method was bound to, to declarations that nodes were
found in, and the global close method. -/
theorem addLifecycle_arrivals : Ensures addLifecycle c fun _ c' =>
    ∀ d, d.index < c.sources.decls.length → ∃ new : List Signature,
      (c'.sources.get d).signatures = (c.sources.get d).signatures ++ new
          ++ (if c.tree.IsFirst d then [closeSignature] else [])
        ∧ new.Nodup
        ∧ (∀ s ∈ new, c.bindings.roleOf? (s.identityIn (c.sources.name d))
          = none)
        ∧ ∀ s ∈ new, c.Owns d := by
  refine ensures_addLifecycle fun c₂ s hevolves hresolved => ?_
  refine Lifecycle.addGlobalClose_signatures.mono fun _ c₄ hsignatures d hd =>
    ?_
  obtain ⟨new, hnew⟩ := hevolves.arrivals d
  refine ⟨new, ?_, hnew.nodup_signatures, hnew.free, hnew.owned⟩
  have hlt : d.index < s.decls.length := by
    rwa [hresolved.length, hevolves.sources.length]
  have hsame : ∀ d, (s.get d).signatures = (c₂.sources.get d).signatures :=
    hresolved.signatures
  rw [hsignatures d hlt, hsame, hnew.signatures, hevolves.tree]

end Stagewise
