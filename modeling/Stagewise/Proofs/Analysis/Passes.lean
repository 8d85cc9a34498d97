/-
What the passes of the analysis leave, from fresh bindings on: every node
has its members, the bindings say so, no member trespasses on a stage, and
every dependency that the bodies show is recorded (`Analysed`).

Each pass changes a part of its own: linking the edges, placing the
positions. So what one of them settled the others leave alone.
-/
import Stagewise.Proofs.Analysis.Assignment
import Stagewise.Proofs.Analysis.Links
import Stagewise.Proofs.Analysis.Writes

namespace Stagewise.Analysis

open Compilation Step

variable {c c' : Compilation}

/-- That nothing is found or bound yet. -/
structure Fresh (c : Compilation) : Prop where
  graph : c.graph = {}
  fields : c.bindings.fieldStages = []
  methods : c.bindings.methodRoles = []

/-- That no member of a link writes a field of a stage that it may not
write. -/
def Written (c : Compilation) : Prop :=
  ∀ leaf ∈ c.tree.leaves, ∀ link ∈ c.sources.extensionChain leaf,
    ¬ Trespasses c.bindings (c.sources.get link)

/-- What holds after the analysis. -/
structure Analysed (c : Compilation) : Prop where
  discovered : Discovered c
  assigned : Assigned c
  written : Written c
  linked : Linked c

/-- Discovery, check of writes, linking and placing, in this order. -/
theorem passes_analysed (h : Fresh c)
    (hid : ∀ l, c.sources.Has l → c.sources.Identified l) :
    Ensures discoverNodes c fun _ c₁ => ∀ k, checkWrites c₁ = .ok k →
      Ensures linkNodes c₁ fun _ c₂ => Ensures placeNodes c₂ fun _ c' =>
        Analysed c' ∧ c'.sources = c.sources := by
  have hassigned :=
    discoverNodes_assigned (assigned_of_empty h.graph h.fields h.methods)
  have hdiscovered :=
    discoverNodes_discovered (discovered_of_empty h.graph hid)
  refine (hassigned.and hdiscovered).mono ?_
  rintro _ c₁ ⟨⟨hassigned, hsources, -⟩, hdiscovered, -⟩ k hk
  have hwritten : Written c₁ := checkWrites_exact.2.1 ⟨k, hk⟩
  refine (linkNodes_frame.and linkNodes_linked).mono ?_
  rintro _ c₂ ⟨⟨es, rfl⟩, hlinked⟩
  refine placeNodes_frame.mono ?_
  rintro _ c' ⟨ps, rfl⟩
  have hsame : SameMembers c₁ { c₁ with
      bindings := { c₁.bindings with positions := ps }
      graph := { c₁.graph with edges := es } } := ⟨rfl, rfl, rfl⟩
  refine ⟨⟨hsame.discovered hdiscovered, ?_, hwritten, ?_⟩, hsources⟩
  · exact ⟨hassigned.method, hassigned.field, hassigned.role, hassigned.stage,
      hassigned.unclosed⟩
  · intro n hn e he d hreaches hne
    exact hlinked n hn e he d hreaches.unplaced hne

/-- The whole analysis. -/
theorem analyse_analysed (h : Fresh c)
    (hid : ∀ l, c.sources.Has l → c.sources.Identified l) :
    Ensures analyse c fun _ c' => Analysed c' ∧ c'.sources = c.sources := by
  unfold analyse Stagewise.checkWrites
  simp only [ensures_bind, ensures_get, ensures_ofExcept, ensures_pure]
  refine bindReferences_frame.mono ?_
  rintro _ c₀ ⟨t, rs, rfl⟩
  have hfresh :
      Fresh { c with
      tree := t, bindings := { c.bindings with references := rs } } :=
    ⟨h.graph, h.fields, h.methods⟩
  exact passes_analysed hfresh hid

end Stagewise.Analysis
