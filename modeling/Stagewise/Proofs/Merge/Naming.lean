/-
Under which names the methods of a chain end up.

While the methods of a base are appended, each is compared with those that
are there by then: with the methods of the declaration that extends the base,
but also with what the base has brought so far. In a chain where nothing can
be mistaken (`Unambiguous`) the second kind never matters. The names of a
folded chain are those of its links, and the ones that overridden methods are
kept under, which name a link above the leaf (`Tidy`). So a base is
appended method by method with an eye on the methods of the lower link alone
(`Tidy.appendAll_eq`), and what becomes of one method can be followed down
the chain link by link (`descended`, `mem_profiles_iff`).

A concrete method of an object meets an override at the nearest link below
that has its signature. It is kept under a name there that no link further
down has (`descended_of_overridden`). Without an override it stays as it is,
and is the first method of its signature in the folded chain
(`Tidy.find?_eq_some`).
-/
import Stagewise.Proofs.Composition.Tree
import Stagewise.Proofs.Merge.Overriding
import Stagewise.Proofs.Step

namespace Stagewise

-- ==================================================================== links

namespace Sources

variable {s : Sources} {leaf : DeclId} {above : List DeclId}
variable {next : Option DeclId}

/-- The links above a leaf are found by their names. -/
theorem find?_of_mem_chainFrom {fuel : Nat}
    (habove : ∀ d ∈ above, s.find? (s.name d) = some d)
    (hnext : ∀ d ∈ next, s.find? (s.name d) = some d) :
    ∀ d ∈ (s.chainFrom fuel (leaf :: above) next).tail,
      s.find? (s.name d) = some d := by
  induction fuel generalizing above next with
  | zero => exact habove
  | succ fuel ih =>
      cases next with
      | none => exact habove
      | some id =>
          rw [chainFrom]
          split
          · exact habove
          · refine ih (List.forall_mem_append.2
              ⟨habove, List.forall_mem_singleton.2 (hnext id rfl)⟩)
              fun base hbase => ?_
            obtain ⟨t, -, hfind⟩ := Option.bind_eq_some_iff.1 hbase
            rw [(name_of_find? hfind).2, hfind]

/-- The links above a leaf have different names. -/
theorem nodup_names_tail_extensionChain :
    ((s.extensionChain leaf).tail.map s.name).Nodup := by
  have hfound : ∀ d ∈ (s.extensionChain leaf).tail,
      s.find? (s.name d) = some d := by
    unfold extensionChain
    cases s.decls.length with
    | zero => exact List.forall_mem_nil _
    | succ fuel =>
        rw [chainFrom]
        split
        · exact List.forall_mem_nil _
        · refine find?_of_mem_chainFrom (List.forall_mem_nil _)
            fun base hbase => ?_
          obtain ⟨t, -, hfind⟩ := Option.bind_eq_some_iff.1 hbase
          rw [(name_of_find? hfind).2, hfind]
  refine (nodup_extensionChain.sublist (List.tail_sublist _)).map_on
    fun a ha b hb he => ?_
  have hab := (hfound a ha).symm.trans (he ▸ hfound b hb)
  exact Option.some.inj hab

end Sources

-- ==================================================================== names

/-- That a name has no underscore. -/
def IsPlain (name : String) : Prop := '_' ∉ name.toList

instance (name : String) : Decidable (IsPlain name) :=
  inferInstanceAs (Decidable ('_' ∉ name.toList))

namespace Convention

variable {owner owner' name name' : String}

theorem toList_overriddenName (owner name : String) :
    (overriddenName owner name).toList
      = '_' :: (owner.toList ++ '_' :: name.toList) := by
  unfold overriddenName
  simp only [String.toList_append, List.append_assoc]
  rfl

theorem not_isPlain_overriddenName (owner name : String) :
    ¬ IsPlain (overriddenName owner name) := by
  unfold IsPlain
  rw [toList_overriddenName, Decidable.not_not]
  exact List.mem_cons_self

/-- The name that an overridden method is kept under tells the declaration and
the method, where neither name has an underscore. -/
theorem overriddenName_inj (howner : IsPlain owner) (hname : IsPlain name)
    (h : overriddenName owner' name' = overriddenName owner name) :
    owner' = owner ∧ name' = name := by
  have hlists := congrArg String.toList h
  rw [toList_overriddenName, toList_overriddenName, List.cons.injEq] at hlists
  obtain ⟨hparts, -, hname'⟩ :=
    (List.append_cons_inj_of_notMem howner hname).1 hlists.2.symm
  exact ⟨String.toList_inj.1 hparts.symm, String.toList_inj.1 hname'.symm⟩

end Convention

namespace Merge

open Convention

variable {base derived d : TypeDecl} {m : Method} {s : Sources}
variable {chain below above : List DeclId}
variable {leaf link : DeclId} {owner : String} {owners : List String}
variable {there done ps : List Profile} {p a : Profile}

-- ================================================================= one link

/-- What is appended for a method is the method, or its renamed copy where a
method of its signature is there. -/
theorem appended?_cases (h : appended? owner there p = some a) :
    (a = p ∧ (p.isStatic = false → ∀ o ∈ there, o.signature ≠ p.signature))
      ∨ (a = p.renamed owner ∧ p.isStatic = false ∧ ∃ o ∈ there, o.signature
        = p.signature) := by
  unfold appended? at h
  split at h
  · rename_i hstatic
    exact Or.inl ⟨(Option.some.inj h).symm,
      fun hno => nomatch hno.symm.trans hstatic⟩
  rename_i hstatic
  split at h
  · rename_i hnone
    split at h
    · cases h
    · refine Or.inl ⟨(Option.some.inj h).symm, fun _ o ho => ?_⟩
      simpa using List.find?_eq_none.1 hnone o ho
  · rename_i o ho
    split at h
    · cases h
    · have hsame : o.signature = p.signature := by
        simpa using List.find?_some ho
      exact Or.inr ⟨(Option.some.inj h).symm, Bool.eq_false_iff.2 hstatic, o,
        List.mem_of_find?_eq_some ho, hsame⟩

theorem id_of_appended? (h : appended? owner there p = some a) :
    a.id = p.id := by
  rcases appended?_cases h with ⟨rfl, -⟩ | ⟨rfl, -⟩ <;> rfl

theorem isStatic_of_appended? (h : appended? owner there p = some a) :
    a.isStatic = p.isStatic := by
  rcases appended?_cases h with ⟨rfl, -⟩ | ⟨rfl, -⟩ <;> rfl

/-- Methods of other signatures make no difference to what is appended. -/
theorem appended?_append
    (h : p.isStatic = false → ∀ o ∈ done, o.signature ≠ p.signature) :
    appended? owner (there ++ done) p = appended? owner there p := by
  unfold appended?
  split
  · rfl
  rename_i hstatic
  have hnone : done.find? (·.signature == p.signature) = none :=
    List.find?_eq_none.2 fun o ho => by
      simpa using h (Bool.not_eq_true _ ▸ hstatic) o ho
  rw [List.find?_append, hnone, Option.or_none]

/-- What holds of the methods of a folded chain that keeps its names apart.
`owners` are the links above its leaf, under whose names overridden methods
are kept; a method of an object stands behind no other of its signature. -/
structure Tidy (owners : List String) (ps : List Profile) : Prop where
  names : ∀ p ∈ ps, IsPlain p.name
    ∨ ∃ owner ∈ owners, ∃ name, IsPlain name
    ∧ p.name = overriddenName owner name
  apart : ps.Pairwise fun q p => p.isStatic = false → q.signature ≠ p.signature

namespace Tidy

/-- A base has no name that its overridden methods are kept under. -/
theorem name_ne (h : Tidy owners ps) (howners : ∀ o ∈ owners, IsPlain o)
    (howner : owner ∉ owners) (hp : p ∈ ps) (name : String) :
    p.name ≠ overriddenName owner name := by
  intro he
  rcases h.names p hp with hplain | ⟨owner', howner', name', hname', he'⟩
  · exact not_isPlain_overriddenName owner name (he ▸ hplain)
  · have hsame :=
      overriddenName_inj (howners owner' howner') hname' (he.symm.trans he')
    exact howner (hsame.1 ▸ howner')

/-- Appending the methods of a tidy base, each is compared with the methods
of the declaration below alone. -/
theorem appendAll_eq (h : Tidy owners ps) (howners : ∀ o ∈ owners, IsPlain o)
    (howner : owner ∉ owners) (there : List Profile) :
    appendAll owner there ps = there ++ ps.filterMap
      (appended? owner there) := by
  -- the methods appended so far are those of a first part of the base
  have hparts : ∀ rest done, done ++ rest = ps →
      appendAll owner (there ++ done.filterMap (appended? owner there)) rest
        = there ++ ps.filterMap (appended? owner there) := by
    intro rest
    induction rest with
    | nil =>
        rintro done rfl
        rw [List.append_nil]
        rfl
    | cons p rest ih =>
        rintro done hdone
        have hp : p ∈ ps := hdone ▸ List.mem_append_right _ List.mem_cons_self
        have hapart := h.apart
        rw [← hdone, List.pairwise_append] at hapart
        have hstep :
            appended? owner (there ++ done.filterMap (appended? owner there)) p
            = appended? owner there p := by
          refine appended?_append fun hstatic o ho => ?_
          obtain ⟨q, hq, hqo⟩ := List.mem_filterMap.1 ho
          rcases appended?_cases hqo with ⟨rfl, -⟩ | ⟨rfl, -⟩
          · exact hapart.2.2 o hq p List.mem_cons_self hstatic
          · exact fun he => h.name_ne howners howner hp _
              (congrArg Prod.fst he).symm
        have hnext : there ++ done.filterMap (appended? owner there)
              ++ (appended? owner there p).toList
            = there ++ (done ++ [p]).filterMap (appended? owner there) := by
          rw [List.filterMap_append, List.append_assoc]
          cases hself : appended? owner there p <;> simp [hself]
        rw [appendAll, List.foldl_cons, ← appendAll, hstep, hnext]
        exact ih _ ((List.append_cons done p rest).symm.trans hdone)
  simpa using hparts ps [] rfl

/-- A tidy base appended to the methods of a declaration is tidy. -/
theorem append (h : Tidy owners ps) (howners : ∀ o ∈ owners, IsPlain o)
    (howner : owner ∉ owners) (hplain : IsPlain owner)
    (hown : ∀ o ∈ there, IsPlain o.name)
    (hsignatures : (there.map Profile.signature).Nodup) :
    Tidy (owner :: owners)
      (there ++ ps.filterMap (appended? owner there)) where
  names := by
    refine List.forall_mem_append.2 ⟨fun o ho => Or.inl (hown o ho),
      fun a ha => ?_⟩
    obtain ⟨p, hp, hpa⟩ := List.mem_filterMap.1 ha
    rcases appended?_cases hpa with ⟨rfl, -⟩ | ⟨rfl, -, o, ho, hsame⟩
    · refine (h.names a hp).imp_right fun ⟨owner', howner', name⟩ => ?_
      exact ⟨owner', List.mem_cons_of_mem _ howner', name⟩
    · have hname : o.name = p.name := congrArg Prod.fst hsame
      exact Or.inr ⟨owner, List.mem_cons_self, p.name, hname ▸ hown o ho, rfl⟩
  apart := by
    refine List.pairwise_append.2 ⟨?_, ?_, fun o ho a ha hstatic he => ?_⟩
    · exact (List.pairwise_map.1 hsignatures).imp
        fun {_ p} hne (_ : p.isStatic = false) => hne
    · refine List.pairwise_filterMap.2
        (h.apart.imp_of_mem fun {q p} hq hp hne a ha b hb => ?_)
      intro hstatic he
      rw [isStatic_of_appended? hb] at hstatic
      -- neither of the two, one, or both may be renamed
      rcases appended?_cases ha with ⟨rfl, -⟩ | ⟨rfl, -⟩ <;>
        rcases appended?_cases hb with ⟨rfl, -⟩ | ⟨rfl, -, o, ho, hsame⟩
      · exact hne hstatic he
      · exact h.name_ne howners howner hq _ (congrArg Prod.fst he)
      · exact h.name_ne howners howner hp _ (congrArg Prod.fst he).symm
      · have hname : o.name = p.name := congrArg Prod.fst hsame
        have hnames :=
          overriddenName_inj hplain (hname ▸ hown o ho) (congrArg Prod.fst he)
        have hparams : q.params = p.params := congrArg Prod.snd he
        exact hne hstatic (Prod.ext hnames.2 hparams)
    · obtain ⟨p, -, hpa⟩ := List.mem_filterMap.1 ha
      rw [isStatic_of_appended? hpa] at hstatic
      rcases appended?_cases hpa with ⟨rfl, hapart⟩ | ⟨rfl, -⟩
      · exact hapart hstatic o ho he
      · have hname : o.name = overriddenName owner p.name :=
          congrArg Prod.fst he
        exact not_isPlain_overriddenName owner p.name (hname ▸ hown o ho)

/-- A method of an object is the first one of its signature. -/
theorem find?_eq_some (h : Tidy owners ps) (hp : p ∈ ps)
    (hstatic : p.isStatic = false) :
    ps.find? (·.signature == p.signature) = some p := by
  obtain ⟨before, after, rfl⟩ := List.append_of_mem hp
  have hapart := (List.pairwise_append.1 h.apart).2.2
  refine List.find?_eq_some_iff_append.2 ⟨beq_self_eq_true _, before, after,
    rfl, fun q hq => ?_⟩
  simpa using hapart q hq p List.mem_cons_self hstatic

end Tidy

-- =============================================================== whole chains

/-- That nothing in a chain can be mistaken for something else: it is extended
without type arguments, its members have different identities and each link's
methods different signatures, no name has an underscore, and no link declares
a method abstract that a link above it implements. -/
structure Unambiguous (s : Sources) (chain : List DeclId) : Prop where
  args : ∀ link ∈ chain,
    ((s.get link).superclass.map TypeRef.args).getD [] = []
  fieldIds : (chain.flatMap fun link => (s.get link).fields.map Field.id).Nodup
  methodIds : (chain.flatMap fun link => (s.get link).methods.map
    Method.id).Nodup
  signatures : ∀ link ∈ chain, (s.get link).signatures.Nodup
  plain : ∀ link ∈ chain, IsPlain (s.name link) ∧ ∀ m ∈ (s.get link).methods,
    IsPlain m.name
  implemented : chain.Pairwise fun below above => ∀ m ∈ (s.get above).methods,
    m.modifiers.isStatic = false → m.isAbstract = false →
      ¬ IsHidden (s.get below).methods m

namespace Unambiguous

theorem tail (h : Unambiguous s (leaf :: above)) : Unambiguous s above where
  args link hlink := h.args link (List.mem_cons_of_mem _ hlink)
  fieldIds := (List.nodup_append.1 (List.flatMap_cons ▸ h.fieldIds)).2.1
  methodIds := (List.nodup_append.1 (List.flatMap_cons ▸ h.methodIds)).2.1
  signatures link hlink := h.signatures link (List.mem_cons_of_mem _ hlink)
  plain link hlink := h.plain link (List.mem_cons_of_mem _ hlink)
  implemented := (List.pairwise_cons.1 h.implemented).2

end Unambiguous

/-- Without type arguments nothing is replaced in a base. -/
theorem instantiate_of_args_eq_nil
    (h : (derived.superclass.map TypeRef.args).getD [] = []) :
    (instantiate base derived).1 = base := by
  unfold instantiate
  dsimp only
  rw [h]
  rfl

/-- A folded chain has the methods of its leaf, and what is appended for each
method of the links above. -/
theorem profiles_mergeLink_eq {next : DeclId}
    (hu : Unambiguous s (leaf :: next :: above))
    (hnames : ((next :: above).map s.name).Nodup)
    (hbase : mergeChain s (next :: above) = .ok base)
    (htidy : Tidy (above.map s.name) (profiles base))
    (h : mergeLink base (s.get leaf) = .ok d) :
    profiles d = profiles (s.get leaf)
      ++ (profiles base).filterMap
        (appended? (s.name next) (profiles (s.get leaf))) := by
  have hplain : ∀ owner ∈ above.map s.name, IsPlain owner :=
    List.forall_mem_map.2
    fun link hlink => (hu.tail.plain link (List.mem_cons_of_mem _ hlink)).1
  rw [profiles_mergeLink h, instantiate_of_args_eq_nil
    (hu.args leaf List.mem_cons_self), (mergeChain_eq_ok hbase).1]
  exact htidy.appendAll_eq hplain (List.nodup_cons.1 hnames).1 _

theorem tidy_mergeChain (hu : Unambiguous s (leaf :: above))
    (hnames : (above.map s.name).Nodup)
    (h : mergeChain s (leaf :: above) = .ok d) :
    Tidy (above.map s.name) (profiles d) := by
  induction above generalizing leaf d with
  | nil =>
      obtain rfl := Except.ok.inj h
      have hsignatures := hu.signatures leaf List.mem_cons_self
      rw [← map_signature_profiles] at hsignatures
      exact ⟨List.forall_mem_map.2 fun m hm => Or.inl
        ((hu.plain leaf List.mem_cons_self).2 m hm),
        (List.pairwise_map.1 hsignatures).imp
        fun {_ p} hne (_ : p.isStatic = false) => hne⟩
  | cons next above ih =>
      obtain ⟨base, hbase, hlink⟩ := exists_mergeLink h (List.cons_ne_nil _ _)
      have htidy := ih hu.tail (List.nodup_cons.1 hnames).2 hbase
      have hplain : ∀ owner ∈ above.map s.name, IsPlain owner :=
        List.forall_mem_map.2
        fun link hlink => (hu.tail.plain link (List.mem_cons_of_mem _ hlink)).1
      rw [profiles_mergeLink_eq hu hnames hbase htidy hlink]
      refine htidy.append hplain (List.nodup_cons.1 hnames).1
        (hu.tail.plain next List.mem_cons_self).1
        (List.forall_mem_map.2 (hu.plain leaf List.mem_cons_self).2) ?_
      rw [map_signature_profiles]
      exact hu.signatures leaf List.mem_cons_self

/-- A folded chain has no method twice. -/
theorem methodIds_mergeChain (h : mergeChain s chain = .ok d) :
    (d.methods.map Method.id).Sublist
      (chain.flatMap fun link => (s.get link).methods.map Method.id) := by
  induction chain generalizing d with
  | nil => cases h
  | cons leaf above ih =>
      rcases mergeChain_cases h with ⟨rfl, rfl⟩ | ⟨base, hbase, hlink⟩
      · simp
      · refine (mergeLink_methods hlink).1.trans ?_
        rw [List.map_append, List.flatMap_cons]
        exact (ih hbase).append_left _

/-- What becomes of a method of a link on the way down a chain. `below` are
the links below it, from derived to base. -/
def descended (s : Sources) (link : DeclId) (p : Profile) :
    List DeclId → Option Profile
  | [] => some p
  | leaf :: below => (descended s link p below).bind
      (appended? (s.name (below.headD link)) (profiles (s.get leaf)))

theorem map_id_profiles (d : TypeDecl) :
    (profiles d).map Profile.id = d.methods.map Method.id :=
  List.map_map

/-- The method of a folded chain that a link's method becomes. -/
theorem mem_profiles_iff (hu : Unambiguous s (below ++ link :: above))
    (hnames : ((below ++ link :: above).tail.map s.name).Nodup)
    (h : mergeChain s (below ++ link :: above) = .ok d)
    (hp : p ∈ profiles (s.get link)) :
    a ∈ profiles d ∧ a.id = p.id ↔ descended s link p below = some a := by
  induction below generalizing a d with
  | nil =>
      have hown : p ∈ profiles d := (prefix_mergeChain h).subset hp
      have hids : ((profiles d).map Profile.id).Nodup :=
        map_id_profiles d ▸ (methodIds_mergeChain h).nodup hu.methodIds
      rw [descended, Option.some.injEq]
      constructor
      · exact fun ⟨ha, hid⟩ => List.inj_on_of_nodup_map hids hown ha hid.symm
      · rintro rfl
        exact ⟨hown, rfl⟩
  | cons leaf below ih =>
      obtain ⟨next, rest, hchain, hnext⟩ :
          ∃ next rest, below ++ link :: above = next :: rest
            ∧ below.headD link = next := by
        cases below with
        | nil => exact ⟨link, above, rfl, rfl⟩
        | cons next below => exact ⟨next, below ++ link :: above, rfl, rfl⟩
      rw [List.cons_append] at hu h hnames
      rw [List.tail_cons] at hnames
      have hapart : p.id ∉ (profiles (s.get leaf)).map Profile.id := by
        intro hmem
        have hids := hu.methodIds
        rw [List.flatMap_cons, List.nodup_append'] at hids
        rw [map_id_profiles] at hmem
        refine hids.2.2 hmem (List.mem_flatMap.2 ⟨link, by simp, ?_⟩)
        exact map_id_profiles _ ▸ List.mem_map_of_mem hp
      obtain ⟨base, hbase, hlink⟩ := exists_mergeLink h (by simp)
      have hwhere := fun q =>
        ih (a := q) hu.tail
          (hnames.sublist ((List.tail_sublist _).map _)) hbase
      have hform : profiles d = profiles (s.get leaf)
          ++ (profiles base).filterMap
            (appended? (s.name next) (profiles (s.get leaf))) := by
        rw [hchain] at hu hnames hbase
        have htidy :=
          tidy_mergeChain hu.tail (List.nodup_cons.1 hnames).2 hbase
        exact profiles_mergeLink_eq hu hnames hbase htidy hlink
      rw [descended, hnext, Option.bind_eq_some_iff, hform, List.mem_append,
        List.mem_filterMap]
      constructor
      · rintro ⟨ha | ⟨q, hq, hqa⟩, hid⟩
        · exact absurd (hid ▸ List.mem_map_of_mem ha) hapart
        · exact ⟨q, (hwhere q).1 ⟨hq, (id_of_appended? hqa).symm.trans hid⟩,
            hqa⟩
      · rintro ⟨q, hq, hqa⟩
        obtain ⟨hmem, hid⟩ := (hwhere q).2 hq
        exact ⟨Or.inr ⟨q, hmem, hqa⟩, (id_of_appended? hqa).trans hid⟩

-- ------------------------------------------------------------- the way down

/-- A static method stays as it is. -/
theorem descended_of_static (hstatic : p.isStatic = true) :
    descended s link p below = some p := by
  induction below with
  | nil => rfl
  | cons leaf below ih =>
      rw [descended, ih, Option.bind_some]
      unfold appended?
      rw [if_pos hstatic]

/-- An abstract method of an object is dropped. -/
theorem descended_of_abstract (hstatic : p.isStatic = false)
    (habstract : p.isAbstract = true)
    (hbelow : below ≠ []) : descended s link p below = none := by
  induction below with
  | nil => exact absurd rfl hbelow
  | cons leaf below ih =>
      rw [descended]
      cases below with
      | nil =>
          rw [descended, Option.bind_some]
          unfold appended?
          rw [hstatic, habstract]
          cases (profiles (s.get leaf)).find? (·.signature == p.signature)
            <;> rfl
      | cons next below => rw [ih (List.cons_ne_nil _ _), Option.bind_none]

/-- A concrete method of an object stays as it is where no link below has
its signature. -/
theorem descended_of_apart (hstatic : p.isStatic = false)
    (habstract : p.isAbstract = false)
    (h : ∀ l ∈ below, p.signature ∉ (s.get l).signatures) :
    descended s link p below = some p := by
  induction below with
  | nil => rfl
  | cons leaf below ih =>
      obtain ⟨hleaf, hbelow⟩ := List.forall_mem_cons.1 h
      rw [descended, ih hbelow, Option.bind_some]
      refine appended?_eq_self hstatic habstract fun o ho he => hleaf ?_
      rw [← map_signature_profiles, ← he]
      exact List.mem_map_of_mem ho

/-- A concrete method of an object is kept under another name at the nearest
link below that has its signature, and stays so. -/
theorem descended_of_overridden {front mid : List DeclId} {overrider : DeclId}
    (hstatic : p.isStatic = false) (habstract : p.isAbstract = false)
    (hmid : ∀ l ∈ mid, p.signature ∉ (s.get l).signatures)
    (hoverrider : p.signature ∈ (s.get overrider).signatures)
    (hconcrete : ∀ o ∈ profiles (s.get overrider), o.signature = p.signature →
      o.isAbstract = false)
    (hplain : ∀ l ∈ front, ∀ m ∈ (s.get l).methods, IsPlain m.name) :
    descended s link p (front ++ overrider :: mid)
      = some (p.renamed (s.name (mid.headD link))) := by
  induction front with
  | nil =>
      rw [List.nil_append, descended,
        descended_of_apart hstatic habstract hmid, Option.bind_some]
      rw [← map_signature_profiles] at hoverrider
      obtain ⟨o, ho, hsame⟩ := List.mem_map.1 hoverrider
      cases hfind : (profiles (s.get overrider)).find? (·.signature
          == p.signature) with
      | none =>
          exact absurd hsame (by simpa using List.find?_eq_none.1 hfind o ho)
      | some o =>
          have hsame : o.signature = p.signature := by
            simpa using List.find?_some hfind
          have ho := hconcrete o (List.mem_of_find?_eq_some hfind) hsame
          simp [appended?, hstatic, hfind, habstract, ho]
  | cons leaf front ih =>
      obtain ⟨hleaf, hfront⟩ := List.forall_mem_cons.1 hplain
      rw [List.cons_append, descended, ih hfront, Option.bind_some]
      refine appended?_eq_self hstatic habstract fun o ho he => ?_
      obtain ⟨m, hm, rfl⟩ := List.mem_map.1 ho
      have hname : m.name = overriddenName (s.name (mid.headD link)) p.name :=
        congrArg Prod.fst he
      exact not_isPlain_overriddenName _ _ (hname ▸ hleaf m hm)

-- =============================================================== kept methods

/-- That a method with an underscore in its name is private and no override. -/
def KeptPrivate (m : Method) : Prop :=
  ¬ IsPlain m.name → m.modifiers.visibility = .privateOnly
    ∧ .override ∉ m.markers

theorem keptPrivate_of_outline {g : TypeRef → TypeRef} {ms ms' : List Method}
    (h : ms'.map (·.outline g) = ms.map (·.outline g))
    (hms : ∀ m ∈ ms, KeptPrivate m) :
    ∀ m ∈ ms', KeptPrivate m := by
  intro m' hm'
  obtain ⟨m, hm, he⟩ := List.mem_map.1 (h ▸ List.mem_map_of_mem hm')
  have hname := congrArg Method.name he
  have hmodifiers := congrArg Method.modifiers he
  have hmarkers := congrArg Method.markers he
  dsimp only [Method.outline] at hname hmodifiers hmarkers
  have hkept := hms m hm
  unfold KeptPrivate at hkept ⊢
  rwa [hname, hmodifiers, hmarkers] at hkept

theorem KeptPrivate.dropOverride (h : KeptPrivate m) :
    KeptPrivate (dropOverride m) := by
  intro hname
  obtain ⟨hprivate, -⟩ := h hname
  exact ⟨hprivate, by simp [Merge.dropOverride]⟩

theorem keptPrivate_keepOverridden (m : Method) (name : String) :
    KeptPrivate (keepOverridden m name) := by
  intro _
  exact ⟨rfl, by simp [keepOverridden]⟩

theorem mergeMethod_keptPrivate
    (hderived : ∀ m ∈ derived.methods, KeptPrivate m)
    (hm : KeptPrivate m) :
    ∀ m' ∈ (mergeMethod owner derived m).methods, KeptPrivate m' := by
  have hadd : ∀ m' ∈ derived.methods ++ [m], KeptPrivate m' :=
    List.forall_mem_append.2 ⟨hderived, List.forall_mem_singleton.2 hm⟩
  have htaken : ∀ m' ∈ (takeMethod owner derived m).methods,
      KeptPrivate m' := by
    unfold takeMethod
    split
    · exact hadd
    · split <;> split
      · exact hderived
      · exact hadd
      · exact hderived
      · have hredirect := TypeDecl.methods_of_outline (redirectSuper_outline m
          ⟨owner, overriddenName owner m.name, m.paramTypes⟩ derived)
        exact List.forall_mem_append.2
          ⟨keptPrivate_of_outline hredirect hderived,
            List.forall_mem_singleton.2 (keptPrivate_keepOverridden m _)⟩
  rcases mergeMethod_cases owner derived m with h | ⟨i, h⟩
  · exact h ▸ htaken
  · rw [h]
    intro m' hm'
    obtain ⟨j, hj, rfl⟩ := List.mem_iff_getElem.1 hm'
    have hmem := htaken _ (List.getElem_mem (List.length_modify .. ▸ hj))
    rw [List.getElem_modify]
    split
    · exact hmem.dropOverride
    · exact hmem

theorem foldl_mergeMethod_keptPrivate {ms : List Method}
    (hderived : ∀ m ∈ derived.methods, KeptPrivate m)
    (hms : ∀ m ∈ ms, KeptPrivate m) :
    ∀ m ∈ (ms.foldl (mergeMethod owner) derived).methods, KeptPrivate m := by
  induction ms generalizing derived with
  | nil => exact hderived
  | cons m ms ih =>
      obtain ⟨hm, hms⟩ := List.forall_mem_cons.1 hms
      exact ih (mergeMethod_keptPrivate hderived hm) hms

/-- A method of a folded chain with an underscore in its name, which no link
has, is private and no override. -/
theorem mergeChain_keptPrivate (h : mergeChain s chain = .ok d)
    (hplain : ∀ link ∈ chain, ∀ m ∈ (s.get link).methods, IsPlain m.name) :
    ∀ m ∈ d.methods, KeptPrivate m := by
  induction chain generalizing d with
  | nil => cases h
  | cons leaf above ih =>
      obtain ⟨hleaf, habove⟩ := List.forall_mem_cons.1 hplain
      have hown : ∀ m ∈ (s.get leaf).methods,
          KeptPrivate m := fun m hm hname =>
        absurd (hleaf m hm) hname
      rcases mergeChain_cases h with ⟨-, rfl⟩ | ⟨base, hbase, hlink⟩
      · exact hown
      · obtain ⟨typeParams, constructors, -, rfl⟩ := mergeLink_eq_merged hlink
        exact foldl_mergeMethod_keptPrivate hown (keptPrivate_of_outline
          (TypeDecl.methods_of_outline (instantiate_spec base (s.get leaf)).1)
          (ih hbase habove))

-- ================================================================= the result

/-- What a chain is folded into, member by member. -/
structure Flattened (s : Sources) (chain : List DeclId) (d : TypeDecl) :
    Prop where
  fields : ∀ link ∈ chain, ∀ f ∈ (s.get link).fields,
    ∃ f', d.fields.filter (·.id == f.id) = [f'] ∧ f'.outline id = f.outline id
  statics : ∀ link ∈ chain, ∀ m ∈ (s.get link).methods,
    m.modifiers.isStatic = true →
    ∃ m', d.methods.filter (·.id == m.id) = [m'] ∧ m'.signature = m.signature
  /-- A concrete method of an object that no link below overrides is the one
  that a call finds. -/
  kept : ∀ below link above, chain = below ++ link :: above →
    ∀ m ∈ (s.get link).methods, m.modifiers.isStatic = false →
      m.isAbstract = false →
    (∀ l ∈ below, m.signature ∉ (s.get l).signatures) →
    ∃ m', d.methods.filter (·.id == m.id) = [m'] ∧ m'.signature = m.signature
      ∧ d.methods.find? (·.signature == m.signature) = some m'
  /-- One that is overridden is named by the link right above the nearest
  override. -/
  overridden : ∀ front overrider mid link above,
    chain = front ++ overrider :: (mid ++ link :: above) →
      ∀ m ∈ (s.get link).methods,
    m.modifiers.isStatic = false → m.isAbstract = false →
    m.signature ∈ (s.get overrider).signatures →
      (∀ l ∈ mid, m.signature ∉ (s.get l).signatures) →
    ∃ m', d.methods.filter (·.id == m.id) = [m']
      ∧ m'.signature = (overriddenName (s.name (mid.headD link)) m.name,
        m.paramTypes)
      ∧ m'.modifiers.visibility = .privateOnly ∧ .override ∉ m'.markers
  abstracts : ∀ link ∈ chain.tail, ∀ m ∈ (s.get link).methods,
    m.modifiers.isStatic = false →
    m.isAbstract = true → ∀ m' ∈ d.methods, m'.id ≠ m.id

/-- What is told apart by a key is alone with its key. -/
theorem filter_eq_singleton {α β : Type} [DecidableEq β] {g : α → β}
    {as : List α} {a : α}
    (h : (as.map g).Nodup) (ha : a ∈ as) : as.filter (g · == g a) = [a] := by
  obtain ⟨before, after, rfl⟩ := List.append_of_mem ha
  rw [List.map_append, List.map_cons, List.nodup_append', List.nodup_cons] at h
  obtain ⟨-, ⟨hafter, -⟩, hbefore⟩ := h
  refine List.filter_eq_cons_iff.2 ⟨before, after, rfl, fun x hx hxa => ?_,
    beq_self_eq_true _, List.filter_eq_nil_iff.2 fun x hx hxa => ?_⟩
  · exact hbefore (List.mem_map_of_mem hx)
      (beq_iff_eq.1 hxa ▸ List.mem_cons_self)
  · exact hafter (beq_iff_eq.1 hxa ▸ List.mem_map_of_mem hx)

/-- Without type arguments the fields of a chain keep their types. -/
theorem fields_mergeChain (h : mergeChain s chain = .ok d)
    (hargs : ∀ link ∈ chain, ((s.get link).superclass.map TypeRef.args).getD []
      = []) :
    d.fields.map (·.outline id)
      = chain.flatMap fun link => (s.get link).fields.map (·.outline id) := by
  induction chain generalizing d with
  | nil => cases h
  | cons leaf above ih =>
      rcases mergeChain_cases h with ⟨rfl, rfl⟩ | ⟨base, hbase, hlink⟩
      · simp
      · obtain ⟨hleaf, habove⟩ := List.forall_mem_cons.1 hargs
        obtain ⟨typeParams, constructors, -, rfl⟩ := mergeLink_eq_merged hlink
        refine (mergeMembers_sameRest _ _).fields.trans ?_
        rw [instantiate_of_args_eq_nil hleaf,
          List.flatMap_cons, ← ih hbase habove]
        exact List.map_append

section

variable (hu : Unambiguous s chain) (hnames : (chain.tail.map s.name).Nodup)
variable (h : mergeChain s chain = .ok d)

include hu h

theorem exists_field {f : Field} (hlink : link ∈ chain)
    (hf : f ∈ (s.get link).fields) :
    ∃ f', d.fields.filter (·.id == f.id) = [f']
      ∧ f'.outline id = f.outline id := by
  have hids : (d.fields.map Field.id).Nodup := by
    rw [(mergeChain_parts h).1, List.map_flatMap]
    exact hu.fieldIds
  have hmem : f.outline id ∈ d.fields.map (·.outline id) :=
    fields_mergeChain h hu.args ▸ List.mem_flatMap.2
      ⟨link, hlink, List.mem_map_of_mem hf⟩
  obtain ⟨f', hf', hsame⟩ := List.mem_map.1 hmem
  have hid := congrArg Field.id hsame
  dsimp only [Field.outline] at hid
  exact ⟨f', hid ▸ filter_eq_singleton hids hf', hsame⟩

include hnames

/-- The method that a link's method has become on its way down. -/
theorem exists_method (hsplit : chain = below ++ link :: above)
    (hm : m ∈ (s.get link).methods)
    (ha : descended s link (profile m) below = some a) :
    ∃ m', m' ∈ d.methods ∧ d.methods.filter (·.id == m.id) = [m']
      ∧ profile m' = a := by
  subst hsplit
  have hids : (d.methods.map Method.id).Nodup :=
    (methodIds_mergeChain h).nodup hu.methodIds
  obtain ⟨hmem, hid⟩ :=
    (mem_profiles_iff hu hnames h (List.mem_map_of_mem hm)).2 ha
  obtain ⟨m', hm', rfl⟩ := List.mem_map.1 hmem
  have hsame : m'.id = m.id := hid
  exact ⟨m', hm', hsame ▸ filter_eq_singleton hids hm', rfl⟩

/-- A method of an object is the one that a call of its signature finds. -/
theorem find?_methods (hm : m ∈ d.methods)
    (hstatic : m.modifiers.isStatic = false) :
    d.methods.find? (·.signature == m.signature) = some m := by
  have hids : (d.methods.map Method.id).Nodup :=
    (methodIds_mergeChain h).nodup hu.methodIds
  have htidy : Tidy (chain.tail.map s.name) (profiles d) := by
    cases chain with
    | nil => cases h
    | cons leaf above => exact tidy_mergeChain hu hnames h
  have hfirst := htidy.find?_eq_some (List.mem_map_of_mem hm) hstatic
  unfold profiles at hfirst
  rw [List.find?_map] at hfirst
  obtain ⟨m', hfind, hsame⟩ := Option.map_eq_some_iff.1 hfirst
  have hid : m'.id = m.id := congrArg Profile.id hsame
  exact List.inj_on_of_nodup_map hids (List.mem_of_find?_eq_some hfind)
    hm hid ▸ hfind

theorem exists_overridden {front mid : List DeclId} {overrider : DeclId}
    (hsplit : chain = front ++ overrider :: (mid ++ link :: above))
    (hm : m ∈ (s.get link).methods) (hstatic : m.modifiers.isStatic = false)
    (habstract : m.isAbstract = false)
    (hoverrider : m.signature ∈ (s.get overrider).signatures)
    (hmid : ∀ l ∈ mid, m.signature ∉ (s.get l).signatures) :
    ∃ m', d.methods.filter (·.id == m.id) = [m']
      ∧ m'.signature = (overriddenName (s.name (mid.headD link)) m.name,
        m.paramTypes)
      ∧ m'.modifiers.visibility = .privateOnly ∧ .override ∉ m'.markers := by
  have hbelow : overrider ∈ front ++ overrider :: mid :=
    List.mem_append_right _ List.mem_cons_self
  replace hsplit : chain = (front ++ overrider :: mid) ++ link :: above := by
    rw [hsplit, List.append_assoc, List.cons_append]
  have hconcrete : ∀ o ∈ profiles (s.get overrider),
      o.signature = m.signature →
      o.isAbstract = false := by
    intro o ho hsame
    obtain ⟨a, ha, rfl⟩ := List.mem_map.1 ho
    have himplemented := hu.implemented
    rw [hsplit, List.pairwise_append] at himplemented
    by_contra hhidden
    exact himplemented.2.2 overrider hbelow link List.mem_cons_self m hm
      hstatic habstract ⟨a, ha, Bool.not_eq_false _ ▸ hhidden,
        Method.overrides_iff.2 hsame⟩
  have hplain : ∀ l ∈ front, ∀ m ∈ (s.get l).methods,
      IsPlain m.name := fun l hl =>
    (hu.plain l (hsplit ▸ List.mem_append_left _
      (List.mem_append_left _ hl))).2
  obtain ⟨m', hm', honly, hsame⟩ := exists_method hu hnames h hsplit hm
    (descended_of_overridden hstatic habstract hmid hoverrider
      hconcrete hplain)
  have hname : m'.name = overriddenName (s.name (mid.headD link)) m.name :=
    congrArg Profile.name hsame
  exact ⟨m', honly, congrArg Profile.signature hsame,
    mergeChain_keptPrivate h (fun l hl => (hu.plain l hl).2) m' hm'
      (hname ▸ not_isPlain_overriddenName _ _)⟩

theorem id_ne_of_abstract (hlink : link ∈ chain.tail)
    (hm : m ∈ (s.get link).methods)
    (hstatic : m.modifiers.isStatic = false)
    (habstract : m.isAbstract = true) :
    ∀ m' ∈ d.methods, m'.id ≠ m.id := by
  intro m' hm' hid
  cases chain with
  | nil => cases hlink
  | cons leaf rest =>
      obtain ⟨below, above, hsplit⟩ := List.append_of_mem hlink
      rw [List.tail_cons] at hsplit
      subst hsplit
      have hgone : descended s link (profile m) (leaf :: below)
          = some (profile m') :=
        (mem_profiles_iff hu hnames h (List.mem_map_of_mem hm)).1
          ⟨List.mem_map_of_mem hm', hid⟩
      rw [descended_of_abstract hstatic habstract (List.cons_ne_nil _ _)]
        at hgone
      cases hgone

end

/-- Where nothing can be mistaken, a folded chain has every field and every
static method once, and every concrete method of an object once: under its own
name if no link below overrides it, and else as a private one named by the
link right above the nearest override. Of the abstract ones it has those of
the leaf. -/
theorem mergeChain_flattened (hu : Unambiguous s (s.extensionChain leaf))
    (h : mergeChain s (s.extensionChain leaf) = .ok d) :
    Flattened s (s.extensionChain leaf) d where
  fields _ hlink _ hf := exists_field hu h hlink hf
  statics link hlink m hm hstatic := by
    obtain ⟨below, above, hsplit⟩ := List.append_of_mem hlink
    obtain ⟨m', -, honly, hsame⟩ :=
      exists_method hu Sources.nodup_names_tail_extensionChain h
      hsplit hm (descended_of_static hstatic)
    exact ⟨m', honly, congrArg Profile.signature hsame⟩
  kept below link above hsplit m hm hstatic habstract hbelow := by
    obtain ⟨m', hm', honly, hsame⟩ :=
      exists_method hu Sources.nodup_names_tail_extensionChain h
      hsplit hm (descended_of_apart hstatic habstract hbelow)
    have hsignature : m'.signature = m.signature :=
      congrArg Profile.signature hsame
    have hstatic' : m'.modifiers.isStatic = false :=
      (congrArg Profile.isStatic hsame).trans hstatic
    exact ⟨m', honly, hsignature,
      hsignature ▸ find?_methods hu Sources.nodup_names_tail_extensionChain h
      hm' hstatic'⟩
  overridden _ _ _ _ _ hsplit _ hm hstatic habstract hoverrider hmid :=
    exists_overridden hu Sources.nodup_names_tail_extensionChain h hsplit hm
      hstatic habstract hoverrider hmid
  abstracts _ hlink _ hm hstatic habstract :=
    id_ne_of_abstract hu Sources.nodup_names_tail_extensionChain h hlink hm
      hstatic habstract

/-- Three links that declare a method of one signature, the highest of which
also has a field and a static method. -/
def threefoldSources : Sources :=
  let run : Method := { name := "run", returns := .void }
  let make : Method :=
    { name := "make", returns := .void, modifiers := { isStatic := true } }
  let base : TypeDecl :=
    { TypeDecl.participating "Base" with
      fields := [{ name := "x", type := .int }], methods := [run, make] }
  let middle : TypeDecl :=
    { TypeDecl.participating "Middle" with
      superclass := some (.named "Base"), methods := [run] }
  let leaf : TypeDecl :=
    { TypeDecl.participating "Leaf" with
      superclass := some (.named "Middle"), methods :=
        [{ run with markers := [.override] }] }
  { decls := [base, middle, leaf].map TypeDecl.assignIdentities }

/-- A call finds the method of the leaf, and the other two are kept under
names of their own. -/
theorem mergeChain_threefold : ∃ d,
    mergeChain threefoldSources (threefoldSources.extensionChain ⟨2⟩) = .ok d
      ∧ Flattened threefoldSources (threefoldSources.extensionChain ⟨2⟩) d
      ∧ d.methods.map Method.name = ["run", "_Middle_run", "_Base_run",
        "make"] := by
  have hnames :
      (mergeChain threefoldSources
        (threefoldSources.extensionChain ⟨2⟩)).toOption.map
      (·.methods.map Method.name) = some ["run", "_Middle_run", "_Base_run",
        "make"] := by
    decide +kernel
  have hu : Unambiguous threefoldSources
      (threefoldSources.extensionChain ⟨2⟩) :=
    ⟨by decide +kernel, by decide +kernel, by decide +kernel, by
      decide +kernel, by decide +kernel, by decide +kernel⟩
  obtain ⟨d, hok, hmethods⟩ := Step.exists_eq_ok_of_map hnames
  exact ⟨d, hok, mergeChain_flattened hu hok, hmethods⟩

end Merge

end Stagewise
