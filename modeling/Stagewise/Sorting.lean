/-
Stable sorting by an integer key: the result holds the same elements
(`sortBy_perm`) in rising order of the key (`pairwise_sortBy`), and those
of one key in the order they came in (`filter_sortBy`).
-/
namespace Stagewise

variable {α : Type} (key : α → Int)

/-- Put an element before the first one whose key is not smaller. -/
def insertBy (a : α) : List α → List α
  | [] => [a]
  | b :: bs => if key a ≤ key b then a :: b :: bs else b :: insertBy a bs

/-- The list in rising order of the key. -/
def sortBy : List α → List α
  | [] => []
  | a :: as => insertBy key a (sortBy as)

-- ========================================================== same elements

theorem insertBy_perm (a : α) (l : List α) :
    (insertBy key a l).Perm (a :: l) := by
  induction l with
  | nil => exact .refl _
  | cons b bs ih =>
      rw [insertBy]
      split
      · exact .refl _
      · exact (ih.cons b).trans (.swap a b bs)

theorem sortBy_perm (l : List α) : (sortBy key l).Perm l := by
  induction l with
  | nil => exact .refl _
  | cons a as ih => exact (insertBy_perm key a _).trans (ih.cons a)

@[simp] theorem mem_sortBy {a : α} {l : List α} : a ∈ sortBy key l ↔ a ∈ l :=
  (sortBy_perm key l).mem_iff

@[simp] theorem length_sortBy (l : List α) :
    (sortBy key l).length = l.length :=
  (sortBy_perm key l).length_eq

-- ================================================================= order

theorem pairwise_insertBy {a : α} {l : List α}
    (h : l.Pairwise (key · ≤ key ·)) :
    (insertBy key a l).Pairwise (key · ≤ key ·) := by
  induction l with
  | nil => exact List.pairwise_singleton _ _
  | cons b bs ih =>
      obtain ⟨hb, hbs⟩ := List.pairwise_cons.1 h
      rw [insertBy]
      split
      · rename_i hab
        refine List.pairwise_cons.2 ⟨fun c hc => ?_, h⟩
        rcases List.mem_cons.1 hc with rfl | hc
        · exact hab
        · exact Int.le_trans hab (hb c hc)
      · rename_i hab
        refine List.pairwise_cons.2 ⟨fun c hc => ?_, ih hbs⟩
        rcases List.mem_cons.1 ((insertBy_perm key a bs).mem_iff.1 hc) with rfl
          | hc
        · omega
        · exact hb c hc

/-- The result is in rising order of the key. -/
theorem pairwise_sortBy (l : List α) :
    (sortBy key l).Pairwise (key · ≤ key ·) := by
  induction l with
  | nil => exact .nil
  | cons a as ih => exact pairwise_insertBy key ih

-- ============================================================= stability

theorem filter_insertBy (k : Int) (a : α) (l : List α) :
    (insertBy key a l).filter (key · == k) = (a :: l).filter (key · == k) := by
  induction l with
  | nil => rfl
  | cons b bs ih =>
      rw [insertBy]
      split
      · rfl
      · rename_i hab
        by_cases hb : key b = k
        · have ha : key a ≠ k := by omega
          simp [hb, ha, ih]
        · simp [hb, ih, List.filter_cons]

/-- Elements of one key keep their order. -/
theorem filter_sortBy (k : Int) (l : List α) :
    (sortBy key l).filter (key · == k) = l.filter (key · == k) := by
  induction l with
  | nil => rfl
  | cons a as ih => rw [sortBy, filter_insertBy, List.filter_cons, ih,
      List.filter_cons]

end Stagewise
