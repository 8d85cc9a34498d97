/-
The walks of the hierarchy come to an end, and what they find.

# Without a bound

A walk goes on for as long as it meets something new. `Climbs`, `Collects`
and `Searches` say this of the three walks without a bound on their length:
each is a run of the walk, from what it has met to its answer. A hierarchy
has runs whether there are circles in it or not, as what is met never
exceeds what there is, and the bounded walks are these runs
(`climbs_extensionChain`, `collects_allInterfaces`, `searches_isAssignable`).

# What they find

The chain of a leaf is the longest line of classes above it that take part
in merging and do not repeat (`Line`): any other line is a beginning of it.
The walk over interfaces finds each once, and the search whatever a class
above or an interface of one is named. Where interfaces have no
superclasses, types are then ordered by being subtypes: what is below an
interface of a class is an interface of the class.
-/
import Stagewise.Proofs.Analysis.Routes
import Stagewise.Proofs.Hierarchy

namespace Stagewise.Sources

open Relation

variable {s : Sources} {d i leaf x : DeclId} {name : String} {t : TypeRef}
variable {ts : List TypeRef}
variable {chain seen visited line result : List DeclId} {next : Option DeclId}
variable {found : Bool}

-- ====================================================== walks without a bound

/-- A walk up the superclasses: from the chain so far and the next class to the
whole chain. -/
inductive Climbs (s : Sources) :
    List DeclId → Option DeclId → List DeclId → Prop
  | top {chain : List DeclId} : Climbs s chain none chain
  | stop {chain : List DeclId} {d : DeclId} :
      ((s.get d).isParticipating = true → d ∈ chain) →
        Climbs s chain (some d) chain
  | link {chain result : List DeclId} {d : DeclId} :
      (s.get d).isParticipating = true →
      d ∉ chain → Climbs s (chain ++ [d]) (s.superclass? d) result →
        Climbs s chain (some d) result

/-- A walk over interfaces: from the references still to be followed and what
is met so far to all that is met. An interface is followed by its own
before the walk goes on. -/
inductive Collects (s : Sources) :
    List TypeRef → List DeclId → List DeclId → Prop
  | done {seen : List DeclId} : Collects s [] seen seen
  | unknown {t : TypeRef} {ts : List TypeRef} {seen result : List DeclId} :
      s.find? t.name = none → Collects s ts seen result →
        Collects s (t :: ts) seen result
  | met {t : TypeRef} {ts : List TypeRef} {seen result : List DeclId}
      {i : DeclId} :
      s.find? t.name = some i → i ∈ seen → Collects s ts seen result →
      Collects s (t :: ts) seen result
  | anew {t : TypeRef} {ts : List TypeRef} {seen mid result : List DeclId}
      {i : DeclId} :
      s.find? t.name = some i → i ∉ seen →
      Collects s (s.get i).interfaces (seen ++ [i]) mid →
        Collects s ts mid result →
      Collects s (t :: ts) seen result

/-- A search for a name up the superclasses: from the classes tried and the
next one to the answer. -/
inductive Searches (s : Sources) (name : String) :
    List DeclId → Option DeclId → Bool → Prop
  | top {visited : List DeclId} : Searches s name visited none false
  | round {visited : List DeclId} {d : DeclId} : d ∈ visited →
      Searches s name visited (some d) false
  | here {visited : List DeclId} {d : DeclId} : d ∉ visited →
      (s.name d = name ∨ ∃ i ∈ s.allInterfaces d, s.name i = name) →
      Searches s name visited (some d) true
  | above {visited : List DeclId} {d : DeclId} {found : Bool} : d ∉ visited →
      ¬ (s.name d = name ∨ ∃ i ∈ s.allInterfaces d, s.name i = name) →
      Searches s name (visited ++ [d]) (s.superclass? d) found →
      Searches s name visited (some d) found

/-- One that is not met yet leaves fewer to meet. -/
theorem length_lt_of_not_mem (hnodup : seen.Nodup)
    (hrange : ∀ x ∈ seen, x.index < s.decls.length)
    (hd : d.index < s.decls.length) (hnew : d ∉ seen) :
    seen.length < s.decls.length := by
  have hle := length_le_of_nodup (nodup_concat hnodup hnew)
    (List.forall_mem_append.2 ⟨hrange, List.forall_mem_singleton.2 hd⟩)
  rwa [List.length_append, List.length_singleton] at hle

theorem range_concat (hrange : ∀ x ∈ seen, x.index < s.decls.length)
    (hd : d.index < s.decls.length) :
    ∀ x ∈ seen ++ [d], x.index < s.decls.length :=
  List.forall_mem_append.2 ⟨hrange, List.forall_mem_singleton.2 hd⟩

-- --------------------------------------------------------------- superclasses

theorem climbs_chainFrom {fuel : Nat} (hnodup : chain.Nodup)
    (hrange : ∀ x ∈ chain, x.index < s.decls.length)
    (hfuel : s.decls.length ≤ fuel + chain.length) :
    s.Climbs chain next (s.chainFrom fuel chain next) := by
  induction fuel generalizing chain next with
  | zero =>
      -- all that there is has been met
      cases next with
      | none => exact .top
      | some d =>
          refine .stop fun hparticipating => ?_
          by_contra hnew
          have hlt := length_lt_of_not_mem hnodup hrange
            (lt_of_isParticipating hparticipating) hnew
          omega
  | succ fuel ih =>
      cases next with
      | none => exact .top
      | some d =>
          rw [chainFrom]
          split
          · rename_i hstop
            refine .stop fun hparticipating => ?_
            simpa [hparticipating] using hstop
          · rename_i hgo
            simp only [Bool.or_eq_true, Bool.not_eq_true', not_or,
              List.contains_iff_mem, Bool.not_eq_false] at hgo
            refine .link hgo.1 hgo.2 (ih (nodup_concat hnodup hgo.2)
              (range_concat hrange (lt_of_isParticipating hgo.1)) ?_)
            rw [List.length_append, List.length_singleton]
            omega

/-- The chain of a leaf is what the walk up from it ends with. -/
theorem climbs_extensionChain (s : Sources) (leaf : DeclId) :
    s.Climbs [] (some leaf) (s.extensionChain leaf) :=
  climbs_chainFrom List.nodup_nil (List.forall_mem_nil _) (Nat.le_refl _)

-- ----------------------------------------------------------------- interfaces

/-- Following some references, if what they lead to is followed. -/
theorem foldl_collects {fuel : Nat}
    (hfollow : ∀ {seen : List DeclId} {d : DeclId}, seen.Nodup →
      (∀ x ∈ seen, x.index < s.decls.length) →
      s.decls.length < fuel + seen.length →
      s.Collects (s.get d).interfaces seen (s.interfacesFrom fuel seen d))
    (hnodup : seen.Nodup) (hrange : ∀ x ∈ seen, x.index < s.decls.length)
    (hfuel : s.decls.length < fuel + 1 + seen.length) :
    s.Collects ts seen (ts.foldl (fun seen t =>
      match s.find? t.name with
      | some i => if seen.contains i then seen else s.interfacesFrom fuel
          (seen ++ [i]) i
      | none => seen) seen) := by
  induction ts generalizing seen with
  | nil => exact .done
  | cons t ts ih =>
      rw [List.foldl_cons]
      cases hfind : s.find? t.name with
      | none => exact .unknown hfind (ih hnodup hrange hfuel)
      | some i =>
          dsimp only
          split
          · rename_i hmet
            exact .met hfind (List.contains_iff_mem.1 hmet)
              (ih hnodup hrange hfuel)
          · rename_i hnew
            have hnew : i ∉ seen := fun hi => hnew (List.contains_iff_mem.2 hi)
            have hnodup' := nodup_concat hnodup hnew
            have hrange' := range_concat hrange (name_of_find? hfind).1
            have hfuel' : s.decls.length < fuel + (seen ++ [i]).length := by
              rw [List.length_append, List.length_singleton]
              omega
            have hwalk := interfacesFrom_walks (d := i) hnodup' hrange' hfuel'
            have hlength :=
              (List.subperm_of_subset hnodup' hwalk.keeps).length_le
            rw [List.length_append, List.length_singleton] at hlength
            exact .anew hfind hnew (hfollow hnodup' hrange' hfuel')
              (ih hwalk.nodup hwalk.range (by omega))

theorem collects_interfacesFrom {fuel : Nat} (hnodup : seen.Nodup)
    (hrange : ∀ x ∈ seen, x.index < s.decls.length)
    (hfuel : s.decls.length < fuel + seen.length) :
    s.Collects (s.get d).interfaces seen (s.interfacesFrom fuel seen d) := by
  induction fuel generalizing seen d with
  | zero =>
      have hle := length_le_of_nodup hnodup hrange
      omega
  | succ fuel ih =>
      rw [interfacesFrom]
      exact foldl_collects ih hnodup hrange hfuel

/-- The interfaces of a declaration are what the walk over them ends with. -/
theorem collects_allInterfaces (s : Sources) (d : DeclId) :
    s.Collects (s.get d).interfaces [] (s.allInterfaces d) :=
  collects_interfacesFrom List.nodup_nil (List.forall_mem_nil _) (by simp)

theorem nodup_allInterfaces : (s.allInterfaces d).Nodup :=
  (interfacesFrom_walks List.nodup_nil (List.forall_mem_nil _) (by simp)).nodup

-- ---------------------------------------------------------------------- names

/-- A handle of no declaration has no superclass. -/
theorem superclass?_eq_none (h : s.decls.length ≤ d.index) :
    s.superclass? d = none := by
  unfold superclass?
  rw [get_eq_default h]
  rfl

theorem reachesName_none (fuel : Nat) (visited : List DeclId) :
    s.reachesName name fuel visited none = false := by
  cases fuel <;> rfl

/-- What the search tests at each class. -/
theorem bears_test_iff :
    (s.name d == name || (s.allInterfaces d).any (s.name · == name)) = true
    ↔ s.name d = name ∨ ∃ i ∈ s.allInterfaces d, s.name i = name := by
  simp only [Bool.or_eq_true, beq_iff_eq, List.any_eq_true]

theorem searches_reachesName {fuel : Nat} (hnodup : visited.Nodup)
    (hrange : ∀ x ∈ visited, x.index < s.decls.length)
    (hfuel : s.decls.length < fuel + visited.length) :
    s.Searches name visited next (s.reachesName name fuel visited next) := by
  induction fuel generalizing visited next with
  | zero =>
      have hle := length_le_of_nodup hnodup hrange
      omega
  | succ fuel ih =>
      cases next with
      | none => exact .top
      | some d =>
          rw [reachesName]
          split
          · rename_i hmet
            exact .round (List.contains_iff_mem.1 hmet)
          · rename_i hnew
            have hnew : d ∉ visited :=
              fun hd => hnew (List.contains_iff_mem.2 hd)
            cases htest :
                (s.name d == name || (s.allInterfaces d).any
                  (s.name · == name)) with
            | true => exact .here hnew (bears_test_iff.1 htest)
            | false =>
                refine .above hnew (fun hhere => ?_) ?_
                · rw [bears_test_iff.2 hhere] at htest
                  cases htest
                · rw [Bool.false_or]
                  rcases Nat.lt_or_ge d.index s.decls.length with hd | hd
                  · refine ih (nodup_concat hnodup hnew)
                      (range_concat hrange hd) ?_
                    rw [List.length_append, List.length_singleton]
                    omega
                  · rw [superclass?_eq_none hd, reachesName_none]
                    exact .top

/-- Assignability is the answer that the search ends with. -/
theorem searches_isAssignable (s : Sources) (t : TypeRef) (d : DeclId) :
    s.Searches t.name [] (some d) (s.isAssignable t d) :=
  searches_reachesName List.nodup_nil (List.forall_mem_nil _) (by simp)

-- =========================================================== the longest line

/-- A line of classes up from a leaf, each the superclass of the one before,
that all take part in merging and do not repeat. -/
structure Line (s : Sources) (leaf : DeclId) (line : List DeclId) : Prop where
  starts : ∀ d ∈ line.head?, d = leaf
  rises : line.IsChain s.Inherits
  participating : ∀ d ∈ line, (s.get d).isParticipating = true
  nodup : line.Nodup

/-- A walk adds classes that rise from the next one. -/
theorem Climbs.rises (h : s.Climbs chain next result) :
    ∃ added, result = chain ++ added
    ∧ (∀ d ∈ added.head?, next = some d) ∧ added.IsChain s.Inherits := by
  induction h with
  | top => exact ⟨[], (List.append_nil _).symm, nofun, .nil⟩
  | stop => exact ⟨[], (List.append_nil _).symm, nofun, .nil⟩
  | @link chain result d _ _ _ ih =>
      obtain ⟨added, rfl, hstarts, hrises⟩ := ih
      refine ⟨d :: added, by simp, fun x hx => ?_,
        List.isChain_cons.2 ⟨hstarts, hrises⟩⟩
      exact congrArg some (Option.some.inj hx)

/-- A walk leaves out no line that could be added. -/
theorem Climbs.longest (h : s.Climbs chain next result)
    (hstarts : ∀ d ∈ line.head?, next = some d)
    (hrises : line.IsChain s.Inherits)
    (hparticipating : ∀ d ∈ line, (s.get d).isParticipating = true)
    (hnodup : (chain ++ line).Nodup) : chain ++ line <+: result := by
  induction h generalizing line with
  | top =>
      cases line with
      | nil => simp
      | cons d line => cases hstarts d rfl
  | stop hstop =>
      cases line with
      | nil => simp
      | cons d line =>
          obtain rfl := Option.some.inj (hstarts d rfl)
          have hmet := hstop (hparticipating _ List.mem_cons_self)
          exact absurd rfl
            ((List.nodup_append.1 hnodup).2.2 _ hmet _ List.mem_cons_self)
  | @link chain result d _ _ hrest ih =>
      cases line with
      | nil =>
          obtain ⟨added, rfl, -⟩ := hrest.rises
          exact ⟨d :: added, by simp⟩
      | cons x line =>
          obtain rfl := Option.some.inj (hstarts x rfl)
          obtain ⟨hnext, hrises⟩ := List.isChain_cons.1 hrises
          rw [List.append_cons] at hnodup ⊢
          exact ih hnext hrises
            (fun y hy => hparticipating y (List.mem_cons_of_mem _ hy)) hnodup

/-- The chain of a leaf is a line of classes up from it. -/
theorem line_extensionChain (s : Sources) (leaf : DeclId) :
    s.Line leaf (s.extensionChain leaf) where
  starts d hd := by
    obtain ⟨added, hchain, hstarts, -⟩ := (climbs_extensionChain s leaf).rises
    rw [hchain] at hd
    exact (Option.some.inj (hstarts d hd)).symm
  rises := by
    obtain ⟨added, hchain, -, hrises⟩ := (climbs_extensionChain s leaf).rises
    rwa [hchain]
  participating _ hd := isParticipating_of_mem_extensionChain hd
  nodup := nodup_extensionChain

/-- Every other line up from the leaf is a beginning of its chain. -/
theorem Line.isPrefix (h : s.Line leaf line) :
    line <+: s.extensionChain leaf :=
  (climbs_extensionChain s leaf).longest
    (fun d hd => congrArg some (h.starts d hd).symm)
    h.rises h.participating h.nodup

-- =================================================================== subtypes

/-- Assignability is what the hierarchy says, for handles of no declaration
too. -/
theorem isAssignable_iff_assignable :
    s.isAssignable t d = true ↔ s.Assignable t.name d := by
  rcases Nat.lt_or_ge d.index s.decls.length with hd | hd
  · exact isAssignable_iff hd
  · have hself : ∀ base, ReflTransGen s.Inherits d base → base = d := by
      intro base hbase
      rcases ReflTransGen.cases_head hbase with rfl | ⟨above, habove, -⟩
      · rfl
      · cases (superclass?_eq_none hd).symm.trans habove
    rw [isAssignable, reachesName, superclass?_eq_none hd, reachesName_none,
      Bool.or_false]
    rw [if_neg (by simp), ← bears_iff]
    constructor
    · rintro ⟨i, hi, hname⟩
      exact ⟨d, i, .refl, hi, hname⟩
    · rintro ⟨base, i, hbase, hi, hname⟩
      obtain rfl := hself base hbase
      exact ⟨i, hi, hname⟩

/-- That no declaration that is used as an interface has a superclass in the
set. -/
def FlatInterfaces (s : Sources) : Prop :=
  ∀ d ∈ s.decls, ∀ t ∈ d.interfaces, ∀ i ∈ s.find? t.name,
    s.superclass? i = none

instance (s : Sources) : Decidable s.FlatInterfaces :=
  inferInstanceAs (Decidable (∀ d ∈ s.decls, _))

theorem FlatInterfaces.superclass? (h : s.FlatInterfaces)
    (hi : s.Implements d i) :
    s.superclass? i = none := by
  obtain ⟨t, ht, hfind⟩ := hi
  rcases Nat.lt_or_ge d.index s.decls.length with hd | hd
  · exact h _ (get_mem hd) t ht i hfind
  · rw [get_eq_default hd] at ht
    cases ht

/-- What a class above or an interface of one can stand for, the class below
can stand for too. -/
theorem Assignable.trans (hflat : s.FlatInterfaces) {base : DeclId}
    (hbase : ReflTransGen s.Inherits d base)
    (hi : ReflTransGen s.Implements base i)
    (h : s.Assignable name i) : s.Assignable name d := by
  obtain ⟨top, j, htop, hj, hname⟩ := h
  rcases ReflTransGen.cases_tail hi with rfl | ⟨before, hbefore, hlast⟩
  · exact ⟨top, j, hbase.trans htop, hj, hname⟩
  · -- nothing is above an interface
    rcases ReflTransGen.cases_head htop with rfl | ⟨above, habove, -⟩
    · exact ⟨base, j, hbase, hi.trans hj, hname⟩
    · cases (hflat.superclass? hlast).symm.trans habove

theorem isSubtype_iff {sub sup : TypeRef} : s.isSubtype sub sup = true
    ↔ sub = sup ∨ ∃ d, s.find? sub.name = some d
    ∧ s.Assignable sup.name d := by
  unfold isSubtype
  rw [Bool.or_eq_true, beq_iff_eq, Option.any_eq_true]
  simp only [isAssignable_iff_assignable]

theorem isSubtype_refl (t : TypeRef) : s.isSubtype t t = true :=
  isSubtype_iff.2 (Or.inl rfl)

/-- What is reached from a declaration of the set is one. -/
theorem lt_of_reached {R : DeclId → DeclId → Prop}
    (hR : ∀ x y, R x y → y.index < s.decls.length)
    (hd : d.index < s.decls.length) (h : ReflTransGen R d x) :
    x.index < s.decls.length := by
  rcases ReflTransGen.cases_tail h with rfl | ⟨before, -, hlast⟩
  · exact hd
  · exact hR before x hlast

/-- Subtypes of subtypes are subtypes. A type is equal to another one or found
by its name, so names must not be ambiguous. -/
theorem isSubtype_trans (hnames : (s.decls.map TypeDecl.name).Nodup)
    (hflat : s.FlatInterfaces)
    {a b c : TypeRef} (hab : s.isSubtype a b = true)
    (hbc : s.isSubtype b c = true) :
    s.isSubtype a c = true := by
  rcases isSubtype_iff.1 hab with rfl | ⟨d, hd, base, i, hbase, hi, hname⟩
  · exact hbc
  · rcases isSubtype_iff.1 hbc with rfl | ⟨e, he, habove⟩
    · exact hab
    · have hlt : i.index < s.decls.length :=
        lt_of_reached (fun _ _ => Implements.lt)
          (lt_of_reached (fun _ _ => Inherits.lt) (name_of_find? hd).1 hbase)
          hi
      have hfind : s.find? b.name = some i :=
        (find?_eq_some_iff hnames).2 ⟨hlt, hname⟩
      obtain rfl := Option.some.inj (hfind.symm.trans he)
      exact isSubtype_iff.2 (Or.inr ⟨d, hd, habove.trans hflat hbase hi⟩)

-- ================================================================== the whole

/-- What the walks of a hierarchy find, and that they end. -/
structure Charted (s : Sources) : Prop where
  chainEnds : ∀ leaf, s.Climbs [] (some leaf) (s.extensionChain leaf)
  chain : ∀ leaf, s.Line leaf (s.extensionChain leaf)
  chainLongest : ∀ leaf line, s.Line leaf line → line <+: s.extensionChain leaf
  interfacesEnd : ∀ d, s.Collects (s.get d).interfaces [] (s.allInterfaces d)
  interfacesNodup : ∀ d, (s.allInterfaces d).Nodup
  interfaces : ∀ d i, i ∈ s.allInterfaces d ↔ TransGen s.Implements d i
  searchEnds : ∀ t d, s.Searches t.name [] (some d) (s.isAssignable t d)
  assignable : ∀ t d, s.isAssignable t d = true
    ↔ ∃ base i, ReflTransGen s.Inherits d base
    ∧ ReflTransGen s.Implements base i ∧ s.name i = t.name
  subtypeRefl : ∀ t, s.isSubtype t t = true
  /-- Declarations that were added have different names. -/
  names : ∀ ds, ofList ds = .ok s → (s.decls.map TypeDecl.name).Nodup
  subtypeTrans : (s.decls.map TypeDecl.name).Nodup →
    s.FlatInterfaces → ∀ a b c, s.isSubtype a b = true →
      s.isSubtype b c = true → s.isSubtype a c = true

/-- The walks chart every set of declarations, with circles or not. -/
theorem walks_chart (s : Sources) : s.Charted where
  chainEnds := climbs_extensionChain s
  chain := line_extensionChain s
  chainLongest _ _ := Line.isPrefix
  interfacesEnd := collects_allInterfaces s
  interfacesNodup _ := nodup_allInterfaces
  interfaces _ _ := mem_allInterfaces
  searchEnds := searches_isAssignable s
  assignable _ _ := isAssignable_iff_assignable
  subtypeRefl := isSubtype_refl
  names _ := nodup_names_ofList
  subtypeTrans hnames hflat _ _ _ := isSubtype_trans hnames hflat

/-- Two classes that each extend the other one, and two interfaces of the
second class that do so too. -/
def roundSources : Sources :=
  let a := { TypeDecl.participating "A" with superclass := some (.named "B") }
  let b := { TypeDecl.participating "B" with
    superclass := some (.named "A"), interfaces := [.named "I"] }
  let i : TypeDecl :=
    { name := "I", kind := .interfaceType, interfaces := [.named "J"] }
  let j : TypeDecl :=
    { name := "J", kind := .interfaceType, interfaces := [.named "I"] }
  { decls := [a, b, i, j] }

/-- All circles are walked once, and `A` is a subtype of `J` by way of `B`. -/
theorem walks_chart_round : (roundSources.decls.map TypeDecl.name).Nodup
    ∧ roundSources.Line ⟨0⟩ [⟨0⟩, ⟨1⟩]
    ∧ roundSources.extensionChain ⟨0⟩ = [⟨0⟩, ⟨1⟩]
    ∧ (∀ i, i ∈ roundSources.allInterfaces ⟨1⟩
      ↔ TransGen roundSources.Implements ⟨1⟩ i)
    ∧ roundSources.allInterfaces ⟨1⟩ = [⟨2⟩, ⟨3⟩]
    ∧ roundSources.FlatInterfaces
    ∧ roundSources.isSubtype (.named "A") (.named "B") = true
    ∧ roundSources.isSubtype (.named "B") (.named "J") = true
    ∧ roundSources.isSubtype (.named "A") (.named "J") = true := by
  have hnames : (roundSources.decls.map TypeDecl.name).Nodup := by decide
  have hcharted := walks_chart roundSources
  have hchain : roundSources.extensionChain ⟨0⟩ = [⟨0⟩, ⟨1⟩] := by decide
  have hflat : roundSources.FlatInterfaces := by decide
  have hab : roundSources.isSubtype (.named "A") (.named "B") = true := by
    decide
  have hbj : roundSources.isSubtype (.named "B") (.named "J") = true := by
    decide
  exact ⟨hnames, hchain ▸ hcharted.chain ⟨0⟩, hchain,
    hcharted.interfaces ⟨1⟩, by decide, hflat,
    hab, hbj, hcharted.subtypeTrans hnames hflat _ _ _ hab hbj⟩

end Stagewise.Sources
