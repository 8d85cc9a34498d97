/-
Which members have different identities.

An identity is a chain of 64-bit steps over the owner, the name and the
parameters of a member. Each step can be undone: from its result and the
component the value before it can be told, and from its result and the value
before it the component (`chain_left_inj`, `chain_right_inj`). So a
difference in one component outlasts all later steps, at whatever parameter
position it is (`chainParams_ne`).

Nothing is assumed of the hash of names. Members that differ in two
components may well meet, and so may names of one hash.
-/
import Stagewise.Identity

namespace Stagewise.Identity

variable {h : UInt64} {ps qs : List Identity} {p q : Identity} {i k : Nat}

-- ============================================================== one parameter

/-- That two parameter lists of one length differ at one position alone. -/
structure DifferAt (ps qs : List Identity) (k : Nat) : Prop where
  length : ps.length = qs.length
  differ : ps[k]? ≠ qs[k]?
  agree : ∀ j, j ≠ k → ps[j]? = qs[j]?

namespace DifferAt

/-- Lists that differ in their first parameters have the same others. -/
theorem cons_zero (hdiffer : DifferAt (p :: ps) (q :: qs) 0) :
    p ≠ q ∧ ps = qs :=
  ⟨fun he => hdiffer.differ (congrArg some he),
    List.ext_getElem? fun j => hdiffer.agree (j + 1) (Nat.succ_ne_zero j)⟩

/-- Lists that differ at a later position have the same first parameter. -/
theorem cons_succ (hdiffer : DifferAt (p :: ps) (q :: qs) (k + 1)) :
    p = q ∧ DifferAt ps qs k where
  left := Option.some.inj (hdiffer.agree 0 (Nat.succ_ne_zero k).symm)
  right :=
    { length := Nat.succ.inj hdiffer.length
      differ := hdiffer.differ
      agree := fun j hj => hdiffer.agree (j + 1) fun he =>
      hj (Nat.succ.inj he) }

/-- A list differs at one position from what it is with another parameter
there. -/
theorem set (hk : k < ps.length) (hq : ps[k]? ≠ some q) :
    DifferAt ps (ps.set k q) k where
  length := List.length_set.symm
  differ := by rwa [List.getElem?_set_self hk]
  agree j hj := (List.getElem?_set_ne (Ne.symm hj)).symm

end DifferAt

/-- A step tells parameters apart at every position. -/
theorem chain_position_inj : chain h (positionMarker i ^^^ p.value)
    = chain h (positionMarker i ^^^ q.value) ↔ p = q := by
  rw [chain_right_inj, UInt64.xor_right_inj]
  exact ⟨fun he => by cases p; cases q; exact congrArg Identity.mk he,
    congrArg value⟩

/-- A difference at one position outlasts the parameters behind it. -/
theorem chainParams_ne (hdiffer : DifferAt ps qs k) :
    chainParams h i ps ≠ chainParams h i qs := by
  induction ps generalizing h i k qs with
  | nil =>
      obtain rfl := List.length_eq_zero_iff.1 hdiffer.length.symm
      exact absurd rfl hdiffer.differ
  | cons p ps ih =>
      cases qs with
      | nil => cases hdiffer.length
      | cons q qs =>
          rw [chainParams, chainParams]
          cases k with
          | zero =>
              obtain ⟨hpq, rfl⟩ := hdiffer.cons_zero
              rw [Ne, chainParams_left_inj, chain_position_inj]
              exact hpq
          | succ k =>
              obtain ⟨rfl, hlater⟩ := hdiffer.cons_succ
              exact ih hlater

-- ==================================================================== members

/-- What the identities over a name hash keep apart. -/
structure Distinguishes (hash : String → UInt64) : Prop where
  /-- Fields of one name are told apart by the hashes of their owners. -/
  fieldOwner : ∀ owner owner' name,
    ofFieldWith hash owner name = ofFieldWith hash owner' name
      ↔ hash owner = hash owner'
  /-- Fields of one owner are told apart by the hashes of their names. -/
  fieldName : ∀ owner name name',
    ofFieldWith hash owner name = ofFieldWith hash owner name'
      ↔ hash name = hash name'
  methodOwner : ∀ owner owner' name ps,
    ofMethodWith hash owner name ps = ofMethodWith hash owner' name ps
      ↔ hash owner = hash owner'
  methodName : ∀ owner name name' ps,
    ofMethodWith hash owner name ps = ofMethodWith hash owner name' ps
      ↔ hash name = hash name'
  /-- Overloads of one number of parameters differ if they do in just one of
  them. -/
  params : ∀ owner name ps qs k, DifferAt ps qs k →
    ofMethodWith hash owner name ps ≠ ofMethodWith hash owner name qs
  signature : ∀ ps qs k, DifferAt ps qs k → ofSignature ps ≠ ofSignature qs
  /-- A field is never taken for a method without parameters. -/
  kinds : ∀ owner name,
    ofFieldWith hash owner name ≠ ofMethodWith hash owner name []

/-- Whatever the hash of names, identities keep members apart that differ in
one component, and fields from methods. -/
theorem distinguishes (hash : String → UInt64) : Distinguishes hash where
  fieldOwner owner owner' name := by
    rw [ofFieldWith, ofFieldWith, mk.injEq, chain_left_inj,
      UInt64.xor_right_inj]
  fieldName owner name name' := by
    rw [ofFieldWith, ofFieldWith, mk.injEq, chain_right_inj]
  methodOwner owner owner' name ps := by
    rw [ofMethodWith, ofMethodWith, mk.injEq, chainParams_left_inj,
      chain_left_inj, UInt64.xor_right_inj]
  methodName owner name name' ps := by
    rw [ofMethodWith, ofMethodWith, mk.injEq, chainParams_left_inj,
      chain_right_inj]
  params owner name ps qs k hdiffer := by
    rw [ofMethodWith, ofMethodWith, Ne, mk.injEq]
    exact chainParams_ne hdiffer
  signature ps qs k hdiffer := by
    rw [ofSignature, ofSignature, Ne, mk.injEq]
    exact chainParams_ne hdiffer
  kinds owner name := by
    rw [ofFieldWith, ofMethodWith, chainParams, Ne, mk.injEq, chain_left_inj,
      UInt64.xor_left_inj]
    decide

/-- The identities in use tell `A.put` from itself where the eighteenth of its
parameters, past the markers of the table, is a `long` and not an `int`. -/
theorem distinguishes_late : DifferAt (.replicate 18 (ofType "int"))
      ((List.replicate 18 (ofType "int")).set 17 (ofType "long")) 17
    ∧ positionMarkers.length ≤ 17
    ∧ ofMethod "A" "put" (.replicate 18 (ofType "int"))
      ≠ ofMethod "A" "put" ((List.replicate 18 (ofType "int")).set 17
        (ofType "long")) := by
  have hdiffer : DifferAt (.replicate 18 (ofType "int"))
      ((List.replicate 18 (ofType "int")).set 17 (ofType "long")) 17 :=
    .set (by decide) (by decide +kernel)
  exact ⟨hdiffer, by decide,
    (distinguishes Digest.ofText).params "A" "put" _ _ 17 hdiffer⟩

end Stagewise.Identity
