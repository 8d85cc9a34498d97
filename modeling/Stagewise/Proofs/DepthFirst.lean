/-
Depth-first order puts each point before all that it leads to, as long as
no point leads back to itself.

# The statement

`Ordered` is the property of the result: every point stands before its
successors, once. `ordered_order` shows it for the search of a finite set
of points closed under `next` and without circles; the result holds the
starts (`subset_order`) and points of the set only (`order_subset`).

# The invariant

A trail is `Good` when what is completed is ordered and the points met are
distinct. A point met and not completed is *open*: its search is not over.
The open points all lead to the point searched next (`Inside`), and a
search opens none that it does not complete (`Grows`). So an open point is
never a successor of the one being completed, for that would be a circle.

The points met are distinct, which bounds the depth. So a search never
comes below a depth that exceeds the number of points (`foldl_searchTo`),
circles or not.

# Circles

With circles the result is not ordered, but it is still what the starts lead
to (`mem_order`), each point once (`nodup_order`). What a further start adds
comes before what was found (`order_concat`). A trail is only `Sound` then:
the successors of what is completed have been met.
-/
import Mathlib.Data.List.Basic
import Mathlib.Logic.Relation
import Stagewise.DepthFirst

namespace Stagewise.DepthFirst

open Relation (TransGen ReflTransGen)

variable {α : Type} {next : α → List α} {all l : List α} {a b : α}

-- ============================================================ ordered lists

/-- A list in which each point stands once, and before all its
successors. -/
def Ordered (next : α → List α) : List α → Prop
  | [] => True
  | a :: rest => next a ⊆ rest ∧ a ∉ rest ∧ Ordered next rest

/-- The step from a point to a successor of it. -/
def Leads (next : α → List α) (all : List α) (a b : α) : Prop :=
  a ∈ all ∧ b ∈ next a

theorem Ordered.nodup (h : Ordered next l) : l.Nodup := by
  induction l with
  | nil => exact List.nodup_nil
  | cons a l ih => exact List.nodup_cons.2 ⟨h.2.1, ih h.2.2⟩

/-- An ordered list holds the successors of its points. -/
theorem Ordered.closed (h : Ordered next l) (ha : a ∈ l) : next a ⊆ l := by
  induction l with
  | nil => cases ha
  | cons c l ih =>
      intro b hb
      rcases List.mem_cons.1 ha with rfl | ha
      · exact List.mem_cons_of_mem _ (h.1 hb)
      · exact List.mem_cons_of_mem _ (ih h.2.2 ha hb)

/-- An ordered list holds all that its points lead to. -/
theorem Ordered.mem_of_transGen (h : Ordered next l) (ha : a ∈ l)
    (hab : TransGen (Leads next all) a b) : b ∈ l := by
  induction hab with
  | single hb => exact h.closed ha hb.2
  | tail _ hb ih => exact h.closed ih hb.2

/-- In an ordered list a point stands before all that it leads to. -/
theorem Ordered.sublist (h : Ordered next l) (ha : a ∈ l)
    (hab : TransGen (Leads next all) a b) : [a, b].Sublist l := by
  induction l with
  | nil => cases ha
  | cons c l ih =>
      rcases List.mem_cons.1 ha with rfl | ha
      · obtain ⟨d, hd, hdb⟩ := TransGen.head'_iff.1 hab
        have hd : d ∈ l := h.1 hd.2
        refine List.Sublist.cons_cons a (List.singleton_sublist.2 ?_)
        rcases Relation.reflTransGen_iff_eq_or_transGen.1 hdb with rfl | hdb
        · exact hd
        · exact h.2.2.mem_of_transGen hd hdb
      · exact (ih h.2.2 ha).cons c

/-- In an ordered list nothing leads back to what stands before it. -/
theorem Ordered.pairwise (all : List α) (h : Ordered next l) :
    l.Pairwise fun a b => ¬ TransGen (Leads next all) b a := by
  induction l with
  | nil => exact List.Pairwise.nil
  | cons a l ih =>
      refine List.pairwise_cons.2 ⟨fun b hb hba => ?_, ih h.2.2⟩
      exact h.2.1 (h.2.2.mem_of_transGen hb hba)

-- ================================================================== trails

variable {p q : Trail α}

/-- What holds of a trail at any time: what is completed is ordered and has
been met, and the points met are distinct points of the set. -/
structure Good (next : α → List α) (all : List α) (p : Trail α) : Prop where
  ordered : Ordered next p.order
  completed : p.order ⊆ p.met
  nodup : p.met.Nodup
  met : p.met ⊆ all

/-- That a point has been met and its search is not over. -/
def Trail.Open (p : Trail α) (a : α) : Prop := a ∈ p.met ∧ a ∉ p.order

/-- That the search of `a` goes on inside the searches of all open
points. -/
def Inside (next : α → List α) (all : List α) (p : Trail α) (a : α) : Prop :=
  ∀ x, p.Open x → TransGen (Leads next all) x a

/-- How a search changes a trail: it adds to it in front, and every search
that it begins is over in the end. -/
structure Grows (p q : Trail α) : Prop where
  order : p.order <:+ q.order
  met : p.met <:+ q.met
  same : ∀ x, q.Open x ↔ p.Open x

theorem Grows.refl (p : Trail α) : Grows p p :=
  ⟨List.suffix_refl _, List.suffix_refl _, fun _ => Iff.rfl⟩

theorem Grows.trans {r : Trail α} (h : Grows p q) (h' : Grows q r) :
    Grows p r :=
  ⟨h.order.trans h'.order, h.met.trans h'.met,
    fun x => (h'.same x).trans (h.same x)⟩

theorem Grows.inside (h : Grows p q) (ha : Inside next all p a) :
    Inside next all q a :=
  fun _ hx => ha _ ((h.same _).1 hx)

/-- A point not met yet may be met. -/
theorem Good.meet (h : Good next all p) (ha : a ∈ all) (hn : a ∉ p.met) :
    Good next all { p with met := a :: p.met } :=
  ⟨h.ordered, fun _ hx => List.mem_cons_of_mem _ (h.completed hx),
    List.nodup_cons.2 ⟨hn, h.nodup⟩, List.cons_subset.2 ⟨ha, h.met⟩⟩

/-- Meeting a point opens it and nothing else. -/
theorem open_meet (h : p.order ⊆ p.met) (hn : a ∉ p.met) (x : α) :
    Trail.Open { p with met := a :: p.met } x ↔ x = a ∨ p.Open x := by
  constructor
  · rintro ⟨hm, ho⟩
    rcases List.mem_cons.1 hm with rfl | hm
    · exact Or.inl rfl
    · exact Or.inr ⟨hm, ho⟩
  · rintro (rfl | ⟨hm, ho⟩)
    · exact ⟨List.mem_cons_self, fun ho => hn (h ho)⟩
    · exact ⟨List.mem_cons_of_mem _ hm, ho⟩

/-- To meet a point, search on and complete it opens nothing. -/
theorem Grows.complete (h : Grows { p with met := a :: p.met } q)
    (hp : p.order ⊆ p.met)
    (hn : a ∉ p.met) : Grows p { q with order := a :: q.order } := by
  refine ⟨h.order.trans (List.suffix_cons _ _),
    (List.suffix_cons _ _).trans h.met,
    fun x => ?_⟩
  -- `a` is closed again, the others are as before
  constructor
  · rintro ⟨hxm, hxo⟩
    have hxa : x ≠ a := fun h => hxo (h ▸ List.mem_cons_self)
    have hxq := (h.same x).1 ⟨hxm, fun h => hxo (List.mem_cons_of_mem _ h)⟩
    exact ((open_meet hp hn x).1 hxq).resolve_left hxa
  · intro hx
    obtain ⟨hxm, hxo⟩ := (h.same x).2 ((open_meet hp hn x).2 (Or.inr hx))
    refine ⟨hxm, fun h => ?_⟩
    rcases List.mem_cons.1 h with rfl | h
    · exact hn hx.1
    · exact hxo h

/-- An open point may be completed once its successors are. -/
theorem Good.complete (h : Good next all p) (ha : p.Open a)
    (hnext : next a ⊆ p.order) :
    Good next all { p with order := a :: p.order } :=
  ⟨⟨hnext, ha.2, h.ordered⟩, List.cons_subset.2 ⟨ha.1, h.completed⟩,
    h.nodup, h.met⟩

-- =============================================================== the search

variable [BEq α] [LawfulBEq α]

/-- What a search must do for each of some points, from any good trail
inside which they are searched. -/
def Completes (next : α → List α) (all : List α) (room : Nat)
    (f : Trail α → α → Trail α) (a : α) : Prop :=
  ∀ p, Good next all p → all.length < room + p.met.length →
    Inside next all p a → Good next all (f p a) ∧ Grows p (f p a)
      ∧ a ∈ (f p a).order

omit [BEq α] [LawfulBEq α] in
/-- Searching one point after the other completes all of them. -/
theorem foldl_completes {room : Nat} {f : Trail α → α → Trail α} {as : List α}
    (hf : ∀ a ∈ as, Completes next all room f a) (hp : Good next all p)
    (hroom : all.length < room + p.met.length)
    (hin : ∀ a ∈ as, Inside next all p a) :
    Good next all (as.foldl f p) ∧ Grows p (as.foldl f p)
      ∧ as ⊆ (as.foldl f p).order := by
  induction as generalizing p with
  | nil => exact ⟨hp, Grows.refl p, List.nil_subset _⟩
  | cons a as ih =>
      obtain ⟨hgood, hgrows, ha⟩ :=
        hf a List.mem_cons_self p hp hroom (hin a List.mem_cons_self)
      have hlen := hgrows.met.length_le
      obtain ⟨hgood', hgrows', has⟩ :=
        ih (fun b hb => hf b (List.mem_cons_of_mem _ hb)) hgood (by omega)
          (fun b hb => hgrows.inside (hin b (List.mem_cons_of_mem _ hb)))
      exact ⟨hgood', hgrows.trans hgrows',
        List.cons_subset.2 ⟨hgrows'.order.subset ha, has⟩⟩

/-- The search of a point completes it, among points that never lead back
to themselves. -/
theorem search_completes (hall : ∀ a ∈ all, next a ⊆ all)
    (hcircle : ∀ a, ¬ TransGen (Leads next all) a a) (fuel : Nat)
    (ha : a ∈ all) :
    Completes next all fuel (search next fuel) a := by
  induction fuel generalizing a with
  | zero =>
      intro p hp hroom hin
      have := hp.nodup.length_le_of_subset hp.met
      omega
  | succ fuel ih =>
      intro p hp hroom hin
      rw [search]
      split
      · rename_i hm
        have hm : a ∈ p.met := List.contains_iff_mem.1 hm
        -- met already: it is completed, or it would lead to itself
        refine ⟨hp, Grows.refl p, ?_⟩
        by_contra ho
        exact hcircle a (hin a ⟨hm, ho⟩)
      · rename_i hm
        have hm : a ∉ p.met := fun h => hm (List.contains_iff_mem.2 h)
        have hmeet := open_meet hp.completed hm
        obtain ⟨hgood, hgrows, hnext⟩ :=
          foldl_completes (f := search next fuel)
            (fun b hb => ih (hall a ha hb)) (hp.meet ha hm)
            (by rw [List.length_cons]; omega)
            (by
              intro b hb x hx
              rcases (hmeet x).1 hx with rfl | hx
              · exact .single ⟨ha, hb⟩
              · exact (hin x hx).tail ⟨ha, hb⟩)
        have hopen := (hgrows.same a).2 ((hmeet a).2 (Or.inl rfl))
        exact ⟨hgood.complete hopen hnext, hgrows.complete hp.completed hm,
          List.mem_cons_self⟩

-- ================================================================ the order

variable {starts : List α}

/-- What the whole search leaves behind. -/
theorem order_completes (hall : ∀ a ∈ all, next a ⊆ all)
    (hcircle : ∀ a, ¬ TransGen (Leads next all) a a) (hs : starts ⊆ all) :
    Good next all (starts.foldl (search next (all.length + 1)) {})
      ∧ starts ⊆ order next all.length starts := by
  have hgood : Good next all {} :=
    ⟨trivial, List.nil_subset _, List.nodup_nil, List.nil_subset _⟩
  obtain ⟨hfinal, -, hstarts⟩ :=
    foldl_completes (f := search next (all.length + 1))
    (fun a ha => search_completes hall hcircle _ (hs ha)) hgood
    (by simp only [List.length_nil]; omega)
    (fun _ _ _ hx => absurd hx.1 List.not_mem_nil)
  exact ⟨hfinal, hstarts⟩

/-- The points found are in order. -/
theorem ordered_order (hall : ∀ a ∈ all, next a ⊆ all)
    (hcircle : ∀ a, ¬ TransGen (Leads next all) a a) (hs : starts ⊆ all) :
    Ordered next (order next all.length starts) :=
  (order_completes hall hcircle hs).1.ordered

/-- The starts are found. -/
theorem subset_order (hall : ∀ a ∈ all, next a ⊆ all)
    (hcircle : ∀ a, ¬ TransGen (Leads next all) a a) (hs : starts ⊆ all) :
    starts ⊆ order next all.length starts :=
  (order_completes hall hcircle hs).2

omit [LawfulBEq α] in
/-- A search completes points of the set only. -/
theorem search_subset (hall : ∀ a ∈ all, next a ⊆ all) (fuel : Nat)
    (ha : a ∈ all)
    (hp : p.order ⊆ all) : (search next fuel p a).order ⊆ all := by
  induction fuel generalizing a p with
  | zero => exact hp
  | succ fuel ih =>
      rw [search]
      split
      · exact hp
      · refine List.cons_subset.2 ⟨ha, ?_⟩
        refine List.foldlRecOn (motive := fun p : Trail α => p.order ⊆ all) _
          _ hp ?_
        exact fun q hq b hb => ih (hall a ha hb) hq

omit [LawfulBEq α] in
/-- Nothing else is found than points of the set. -/
theorem order_subset {size : Nat} (hall : ∀ a ∈ all, next a ⊆ all)
    (hs : starts ⊆ all) :
    order next size starts ⊆ all := by
  refine List.foldlRecOn (motive := fun p : Trail α => p.order ⊆ all) _ _
    (List.nil_subset _)
    fun p hp a ha => ?_
  exact search_subset hall _ (hs ha) hp

-- ================================================================== the depth

/-- The search where something else goes on below a depth. -/
def searchTo (next : α → List α) (beyond : Trail α → α → Trail α) :
    Nat → Trail α → α → Trail α
  | 0, p, a => beyond p a
  | depth + 1, p, a =>
      if p.met.contains a then p
      else
        let p := (next a).foldl (searchTo next beyond depth) { p with
          met := a :: p.met }
        { p with order := a :: p.order }

/-- That the points met are distinct points of the set. -/
def Roams (all : List α) (p : Trail α) : Prop := p.met.Nodup ∧ p.met ⊆ all

/-- A search adds to the points met, each once. -/
theorem search_roams (hall : ∀ a ∈ all, next a ⊆ all) (fuel : Nat)
    (ha : a ∈ all) (hp : Roams all p) :
    Roams all (search next fuel p a)
      ∧ p.met.length ≤ (search next fuel p a).met.length := by
  induction fuel generalizing a p with
  | zero => exact ⟨hp, Nat.le_refl _⟩
  | succ fuel ih =>
      rw [search]
      split
      · exact ⟨hp, Nat.le_refl _⟩
      · rename_i hm
        have hm : a ∉ p.met := fun h => hm (List.contains_iff_mem.2 h)
        have hmeet : Roams all { p with met := a :: p.met } :=
          ⟨List.nodup_cons.2 ⟨hm, hp.1⟩, List.cons_subset.2 ⟨ha, hp.2⟩⟩
        refine List.foldlRecOn (motive := fun q : Trail α =>
          Roams all q ∧ p.met.length ≤ q.met.length) _ _ ⟨hmeet,
            Nat.le_succ _⟩ ?_
        intro q hq b hb
        have hsearch := ih (hall a ha hb) hq.1
        exact ⟨hsearch.1, Nat.le_trans hq.2 hsearch.2⟩

/-- A search with room for the points not met yet does not come below its
depth. -/
theorem searchTo_eq_search (hall : ∀ a ∈ all, next a ⊆ all)
    (beyond : Trail α → α → Trail α) {depth fuel : Nat} (ha : a ∈ all)
    (hp : Roams all p)
    (hdepth : all.length < depth + p.met.length)
    (hfuel : all.length < fuel + p.met.length) :
    searchTo next beyond depth p a = search next fuel p a := by
  induction depth generalizing a p fuel with
  | zero =>
      have := hp.1.length_le_of_subset hp.2
      omega
  | succ depth ih =>
      obtain - | fuel := fuel
      · have := hp.1.length_le_of_subset hp.2
        omega
      rw [searchTo, search]
      split
      · rfl
      · rename_i hm
        have hm : a ∉ p.met := fun h => hm (List.contains_iff_mem.2 h)
        have hmeet : Roams all { p with met := a :: p.met } :=
          ⟨List.nodup_cons.2 ⟨hm, hp.1⟩, List.cons_subset.2 ⟨ha, hp.2⟩⟩
        suffices hsame : ∀ bs, bs ⊆ all → ∀ q : Trail α, Roams all q →
            p.met.length + 1 ≤ q.met.length →
              bs.foldl (searchTo next beyond depth) q
                = bs.foldl (search next fuel) q from
          congrArg (fun q : Trail α => { q with order := a :: q.order })
            (hsame _ (hall a ha) _ hmeet (Nat.le_refl _))
        intro bs hbs q hq hlen
        induction bs generalizing q with
        | nil => rfl
        | cons b bs ihb =>
            have hb : b ∈ all := hbs List.mem_cons_self
            have hsearch := search_roams hall fuel hb hq
            have hsame : searchTo next beyond depth q b
                = search next fuel q b :=
              ih hb hq (by omega) (by omega)
            rw [List.foldl_cons, List.foldl_cons, hsame]
            exact ihb (List.subset_of_cons_subset hbs) _ hsearch.1
              (Nat.le_trans hlen hsearch.2)

/-- No search of a set of points comes below a depth that exceeds their
number. -/
theorem foldl_searchTo (hall : ∀ a ∈ all, next a ⊆ all) (hs : starts ⊆ all)
    (beyond : Trail α → α → Trail α) {depth : Nat}
    (hdepth : all.length < depth) :
    (starts.foldl (searchTo next beyond depth) {}).order
    = order next all.length starts := by
  suffices hsame : ∀ p : Trail α, Roams all p →
      starts.foldl (searchTo next beyond depth) p
        = starts.foldl (search next (all.length + 1)) p from
    congrArg Trail.order (hsame {} ⟨List.nodup_nil, List.nil_subset _⟩)
  induction starts with
  | nil => exact fun _ _ => rfl
  | cons a as ih =>
      intro p hp
      have ha : a ∈ all := hs List.mem_cons_self
      have hsame : searchTo next beyond depth p a
          = search next (all.length + 1) p a :=
        searchTo_eq_search hall beyond ha hp (by omega) (by omega)
      rw [List.foldl_cons, List.foldl_cons, hsame]
      exact ih (List.subset_of_cons_subset hs) _ (search_roams hall _ ha hp).1

-- ============================================================= circles or not

/-- What holds of a trail at any time, circles or not: the successors of what
is completed have been met, and points are met and completed once. -/
structure Sound (next : α → List α) (all : List α) (p : Trail α) : Prop where
  closed : ∀ a ∈ p.order, next a ⊆ p.met
  completed : p.order ⊆ p.met
  nodup : p.order.Nodup
  roams : Roams all p

omit [BEq α] [LawfulBEq α] in
/-- A point not met yet may be met. -/
theorem Sound.meet (h : Sound next all p) (ha : a ∈ all) (hn : a ∉ p.met) :
    Sound next all { p with met := a :: p.met } :=
  ⟨fun _ hx => List.subset_cons_of_subset _ (h.closed _ hx),
    fun _ hx => List.mem_cons_of_mem _ (h.completed hx), h.nodup,
    List.nodup_cons.2 ⟨hn, h.roams.1⟩, List.cons_subset.2 ⟨ha, h.roams.2⟩⟩

omit [BEq α] [LawfulBEq α] in
/-- An open point may be completed once its successors are met. -/
theorem Sound.complete (h : Sound next all p) (ha : p.Open a)
    (hnext : next a ⊆ p.met) :
    Sound next all { p with order := a :: p.order } :=
  ⟨List.forall_mem_cons.2 ⟨hnext, h.closed⟩,
    List.cons_subset.2 ⟨ha.1, h.completed⟩,
    List.nodup_cons.2 ⟨ha.2, h.nodup⟩, h.roams⟩

/-- How a trail is explored further from some points: all of them are met, and
beyond what was met before only what they lead to. -/
structure Explores (next : α → List α) (all : List α) (as : List α)
    (p q : Trail α) : Prop where
  sound : Sound next all q
  grows : Grows p q
  starts : as ⊆ q.met
  met : ∀ b ∈ q.met, b ∈ p.met ∨ ∃ a ∈ as, ReflTransGen (Leads next all) a b

omit [BEq α] [LawfulBEq α] in
/-- Points are explored one after the other. -/
theorem foldl_explores {f : Trail α → α → Trail α} {as : List α} (room : Nat)
    (hf : ∀ a ∈ as, ∀ p, Sound next all p → all.length < room + p.met.length →
      Explores next all [a] p (f p a))
    (hp : Sound next all p) (hroom : all.length < room + p.met.length) :
    Explores next all as p (as.foldl f p) := by
  induction as generalizing p with
  | nil => exact ⟨hp, .refl p, List.nil_subset _, fun _ hb => Or.inl hb⟩
  | cons a as ih =>
      have hfirst := hf a List.mem_cons_self p hp hroom
      have hlen := hfirst.grows.met.length_le
      have hrest :=
        ih (fun b hb => hf b (List.mem_cons_of_mem _ hb)) hfirst.sound
          (by omega)
      have ha := hrest.grows.met.subset
        (hfirst.starts (List.mem_singleton_self a))
      refine ⟨hrest.sound, hfirst.grows.trans hrest.grows,
        List.cons_subset.2 ⟨ha, hrest.starts⟩,
        fun b hb => ?_⟩
      rcases hrest.met b hb with hb | ⟨c, hc, hcb⟩
      · rcases hfirst.met b hb with hb | ⟨c, hc, hcb⟩
        · exact Or.inl hb
        · exact Or.inr
            ⟨c, List.mem_cons.2 (Or.inl (List.mem_singleton.1 hc)), hcb⟩
      · exact Or.inr ⟨c, List.mem_cons_of_mem _ hc, hcb⟩

/-- A search explores from its point. -/
theorem search_explores (hall : ∀ a ∈ all, next a ⊆ all) (fuel : Nat)
    (ha : a ∈ all)
    (hp : Sound next all p) (hroom : all.length < fuel + p.met.length) :
    Explores next all [a] p (search next fuel p a) := by
  induction fuel generalizing a p with
  | zero =>
      have := hp.roams.1.length_le_of_subset hp.roams.2
      omega
  | succ fuel ih =>
      rw [search]
      split
      · rename_i hm
        have hm : a ∈ p.met := List.contains_iff_mem.1 hm
        exact ⟨hp, .refl p, List.cons_subset.2 ⟨hm, List.nil_subset _⟩,
          fun _ hb => Or.inl hb⟩
      · rename_i hm
        have hm : a ∉ p.met := fun h => hm (List.contains_iff_mem.2 h)
        have hnext : Explores next all (next a) { p with met := a :: p.met }
            ((next a).foldl (search next fuel) { p with met := a :: p.met }) :=
          foldl_explores fuel (fun b hb q hq hq' => ih (hall a ha hb) hq hq')
            (hp.meet ha hm) (by rw [List.length_cons]; omega)
        have hopen :=
          (hnext.grows.same a).2 ((open_meet hp.completed hm a).2 (Or.inl rfl))
        refine ⟨hnext.sound.complete hopen hnext.starts,
          hnext.grows.complete hp.completed hm,
          List.cons_subset.2 ⟨hopen.1, List.nil_subset _⟩, fun b hb => ?_⟩
        rcases hnext.met b hb with hb | ⟨c, hc, hcb⟩
        · rcases List.mem_cons.1 hb with rfl | hb
          · exact Or.inr ⟨b, List.mem_singleton_self b, .refl⟩
          · exact Or.inl hb
        · exact Or.inr ⟨a, List.mem_singleton_self a, .head ⟨ha, hc⟩ hcb⟩

/-- The whole search explores from the starts. -/
theorem order_explores (hall : ∀ a ∈ all, next a ⊆ all) (hs : starts ⊆ all) :
    Explores next all starts {}
      (starts.foldl (search next (all.length + 1)) {}) := by
  refine foldl_explores (all.length + 1)
    (fun a ha p hp hroom => search_explores hall _ (hs ha) hp hroom) ?_
    (Nat.lt_succ_self _)
  exact ⟨fun _ ha => (List.not_mem_nil ha).elim, List.nil_subset _,
    List.nodup_nil, List.nodup_nil, List.nil_subset _⟩

/-- All that is met is completed in the end. -/
theorem met_subset_order (hall : ∀ a ∈ all, next a ⊆ all) (hs : starts ⊆ all) :
    (starts.foldl (search next (all.length + 1)) {}).met
      ⊆ order next all.length starts := by
  intro b hb
  by_contra hnot
  have hopen := ((order_explores hall hs).grows.same b).1 ⟨hb, hnot⟩
  exact List.not_mem_nil hopen.1

/-- What is found is what the starts lead to. -/
theorem mem_order (hall : ∀ a ∈ all, next a ⊆ all) (hs : starts ⊆ all) :
    b ∈ order next all.length starts
      ↔ ∃ a ∈ starts, ReflTransGen (Leads next all) a b := by
  have hexplores := order_explores hall hs
  have hfound := met_subset_order hall hs
  constructor
  · intro hb
    exact (hexplores.met b (hexplores.sound.completed hb)).resolve_left
      List.not_mem_nil
  · intro ⟨a, ha, hab⟩
    induction hab with
    | refl => exact hfound (hexplores.starts ha)
    | tail _ hstep ih => exact hfound (hexplores.sound.closed _ ih hstep.2)

/-- It is found once. -/
theorem nodup_order (hall : ∀ a ∈ all, next a ⊆ all) (hs : starts ⊆ all) :
    (order next all.length starts).Nodup :=
  (order_explores hall hs).sound.nodup

/-- What further starts add comes before what was found. -/
theorem order_suffix {more : List α} (hall : ∀ a ∈ all, next a ⊆ all)
    (hs : starts ++ more ⊆ all) :
    order next all.length starts <:+ order next all.length
      (starts ++ more) := by
  have hstarts : starts ⊆ all := fun _ hx => hs (List.mem_append_left _ hx)
  unfold order
  rw [List.foldl_append]
  exact (foldl_explores (all.length + 1)
    (fun a ha p hp hroom => search_explores hall _
      (hs (List.mem_append_right _ ha)) hp hroom)
    (order_explores hall hstarts).sound (by omega)).grows.order

/-- What a further start adds, if no other one leads to it, comes before what
was found, and the start before all of it. -/
theorem order_concat (hall : ∀ a ∈ all, next a ⊆ all)
    (hs : starts ++ [a] ⊆ all)
    (hnew : ∀ s ∈ starts, ¬ ReflTransGen (Leads next all) s a) :
    ∃ l, order next all.length (starts ++ [a])
      = a :: (l ++ order next all.length starts) := by
  have hstarts : starts ⊆ all := fun _ hx => hs (List.mem_append_left _ hx)
  have ha : a ∈ all := hs (List.mem_append_right _ (List.mem_singleton_self a))
  have hexplores := order_explores hall hstarts
  have hm : a ∉ (starts.foldl (search next (all.length + 1)) {}).met := by
    intro hm
    obtain ⟨s, hs, hsa⟩ := (hexplores.met a hm).resolve_left List.not_mem_nil
    exact hnew s hs hsa
  unfold order
  rw [List.foldl_append, List.foldl_cons, List.foldl_nil, search,
    if_neg fun h => hm (List.contains_iff_mem.1 h)]
  obtain ⟨l, hl⟩ := (foldl_explores all.length
    (fun b hb q hq hq' => search_explores hall _ (hall a ha hb) hq hq')
    (hexplores.sound.meet ha hm) (by rw [List.length_cons]; omega)).grows.order
  exact ⟨l, congrArg (a :: ·) hl.symm⟩

end Stagewise.DepthFirst
