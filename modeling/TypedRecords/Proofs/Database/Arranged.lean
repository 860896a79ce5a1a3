import Mathlib.Data.List.Basic
import TypedRecords.Proofs.Results
import TypedRecords.Database

/-! # Searches in order

A search gives the documents that it finds in the order that was asked for, and those that are alike in
the order in which they came. The order is total on documents that have no NaN at the paths of the
sorting, so that there is one such arrangement only. Pages of a search are pieces of it.
-/

namespace TypedRecords

open Std (OrientedCmp TransCmp)

/-! ### Orders -/

/-- On the things of a kind, a comparison is a total preorder. -/
structure TotalPreorderOn {α : Type} (kind : α → Prop) (cmp : α → α → Ordering) : Prop where
  refl : ∀ a, kind a → cmp a a = .eq
  swap : ∀ a b, kind a → kind b → cmp b a = (cmp a b).swap
  trans : ∀ a b c, kind a → kind b → kind c → (cmp a b).isLE = true → (cmp b c).isLE = true →
    (cmp a c).isLE = true

/-- A list brought in an order. What is alike stands as it stood before. -/
structure Arranged {α : Type} (cmp : α → α → Ordering) (items arranged : List α) : Prop where
  perm : arranged.Perm items
  ordered : arranged.Pairwise fun a b => (cmp a b).isLE = true
  stable : ∀ a ∈ items, (arranged.filter fun b => cmp a b == .eq) = items.filter fun b => cmp a b == .eq

section

variable {α : Type} {kind : α → Prop} {cmp cmp' : α → α → Ordering} {items arranged other : List α}

theorem TotalPreorderOn.of_transCmp [TransCmp cmp'] (h : ∀ a b, kind a → kind b → cmp a b = cmp' a b) :
    TotalPreorderOn kind cmp where
  refl a ha := (h a a ha ha).trans Std.ReflCmp.compare_self
  swap a b ha hb := by
    rw [h b a hb ha, h a b ha hb]
    exact OrientedCmp.eq_swap
  trans a b c ha hb hc hab hbc := by
    rw [h a b ha hb] at hab
    rw [h b c hb hc] at hbc
    rw [h a c ha hc]
    exact TransCmp.isLE_trans hab hbc

theorem ne_gt_eq_isLE (o : Ordering) : (o != .gt) = o.isLE := by
  cases o <;> rfl

theorem arranged_mergeSort [TransCmp cmp] (items : List α) :
    Arranged cmp items (items.mergeSort fun a b => cmp a b != .gt) := by
  simp only [ne_gt_eq_isLE]
  have htrans (a b c : α) (hab : (cmp a b).isLE = true) (hbc : (cmp b c).isLE = true) :
      (cmp a c).isLE = true := TransCmp.isLE_trans hab hbc
  have htotal (a b : α) : ((cmp a b).isLE || (cmp b a).isLE) = true := by
    have hswap : cmp b a = (cmp a b).swap := OrientedCmp.eq_swap
    rw [hswap]
    cases cmp a b <;> rfl
  have hperm := List.mergeSort_perm items fun a b => (cmp a b).isLE
  refine ⟨hperm, List.pairwise_mergeSort htrans htotal items, fun a _ => ?_⟩
  -- What is alike is in order already, so it is left in its order.
  have halike : (items.filter fun b => cmp a b == .eq).Pairwise fun b c => (cmp b c).isLE = true := by
    refine List.pairwise_of_forall_mem_list fun b hb c hc => ?_
    have hab : cmp a b = .eq := eq_of_beq (List.mem_filter.1 hb).2
    have hac : cmp a c = .eq := eq_of_beq (List.mem_filter.1 hc).2
    have hba : cmp b a = .eq := OrientedCmp.eq_symm hab
    exact htrans b a c (by rw [hba]; rfl) (by rw [hac]; rfl)
  have hsublist := List.sublist_mergeSort htrans htotal halike List.filter_sublist
  have hfiltered := hsublist.filter fun b => cmp a b == .eq
  rw [List.filter_filter] at hfiltered
  simp only [Bool.and_self] at hfiltered
  exact (hfiltered.eq_of_length (hperm.filter _).length_eq.symm).symm

/-- What is already there of an arrangement decides what comes next: there is one arrangement only. -/
theorem Arranged.unique (h : Arranged cmp items arranged) (h' : Arranged cmp items other)
    (hcmp : TotalPreorderOn kind cmp) (hitems : ∀ a ∈ items, kind a) : arranged = other := by
  obtain ⟨hperm, hordered, hstable⟩ := h
  obtain ⟨hperm', hordered', hstable'⟩ := h'
  have hsame : arranged.Perm other := hperm.trans hperm'.symm
  have hkind : ∀ a ∈ arranged, kind a := fun a ha => hitems a (hperm.mem_iff.1 ha)
  have halike : ∀ a ∈ arranged,
      (arranged.filter fun b => cmp a b == .eq) = other.filter fun b => cmp a b == .eq :=
    fun a ha => (hstable a (hperm.mem_iff.1 ha)).trans (hstable' a (hperm.mem_iff.1 ha)).symm
  clear hperm hperm' hstable hstable' hitems
  induction arranged generalizing other with
  | nil => exact (List.nil_perm.1 hsame).symm
  | cons a rest ih =>
    cases other with
    | nil => exact absurd (List.perm_nil.1 hsame) (List.cons_ne_nil a rest)
    | cons b rest' =>
      have hb : b ∈ a :: rest := hsame.mem_iff.2 List.mem_cons_self
      have ha : a ∈ b :: rest' := hsame.mem_iff.1 List.mem_cons_self
      have hka := hkind a List.mem_cons_self
      have hself : cmp a a = .eq := hcmp.refl a hka
      -- The first of both are not less than each other, so they are alike, and the first of these.
      have hab : cmp a b = .eq := by
        rcases List.mem_cons.1 hb with rfl | hb'
        · exact hself
        · rcases List.mem_cons.1 ha with rfl | ha'
          · exact hself
          · have hle := List.rel_of_pairwise_cons hordered hb'
            have hge := List.rel_of_pairwise_cons hordered' ha'
            rw [hcmp.swap a b hka (hkind b hb)] at hge
            revert hle hge
            cases cmp a b <;> decide
      have hfirst := halike a List.mem_cons_self
      rw [List.filter_cons_of_pos (by simp [hself]), List.filter_cons_of_pos (by simp [hab])] at hfirst
      obtain ⟨rfl, -⟩ := List.cons.inj hfirst
      refine congrArg _ (ih hordered.of_cons hordered'.of_cons hsame.cons_inv
        (fun c hc => hkind c (List.mem_cons_of_mem _ hc)) fun c hc => ?_)
      have hrest := halike c (List.mem_cons_of_mem _ hc)
      simp only [List.filter_cons] at hrest
      split at hrest
      · exact (List.cons.inj hrest).2
      · exact hrest

end

/-! ### Values -/

namespace Value

/-- What decides between numbers and between truth values. -/
def sortNumber : Value → Int
  | .number x => x.rank
  | .boolean b => b.toNat
  | _ => 0

def sortText : Value → String
  | .string s => s
  | _ => ""

def sortInstant : Value → Instant
  | .date t => t
  | _ => ⟨0, 0, 0⟩

/-- The order of sorting on all values: by kind, and then by what decides within a kind. A NaN has a place
in it, past infinity. -/
def sortOrder : Value → Value → Ordering :=
  compareLex (compareOn Collection.kindRank)
    (compareLex (compareOn sortNumber)
      (compareLex (compareOn sortText)
        (compareLex (compareOn fun v => (sortInstant v).day)
          (compareLex (compareOn fun v => (sortInstant v).second)
            (compareOn fun v => (sortInstant v).nano)))))

instance : TransCmp sortOrder := by
  unfold sortOrder
  infer_instance

/-- Whether a value is comparable with all others. -/
def Comparable (v : Value) : Prop := ∀ x, v = .number x → x.isNaN = false

end Value

theorem Number.compare?_of_not_nan {x y : Number} (hx : x.isNaN = false) (hy : y.isNaN = false) :
    x.compare? y = some (compare x.rank y.rank) := by
  simp [Number.compare?, hx, hy]

namespace Collection

theorem then_of_ne_eq {o : Ordering} (h : o ≠ .eq) (o' : Ordering) : o.then o' = o := by
  cases o
  · rfl
  · exact absurd rfl h
  · rfl

theorem compare_toNat (a b : Bool) : compare a.toNat b.toNat = compare (a.toNat : Int) b.toNat := by
  cases a <;> cases b <;> rfl

theorem compareValues_eq {a b : Value} (ha : a.Comparable) (hb : b.Comparable) :
    compareValues a b = a.sortOrder b := by
  unfold Value.Comparable at ha hb
  simp only [compareValues, Value.sortOrder, compareLex, compareOn]
  by_cases hkind : kindRank a = kindRank b
  · rw [hkind, Nat.compare_eq_eq.2 rfl]
    cases a <;> cases b <;> cases hkind <;>
      simp_all [Value.sortNumber, Value.sortText, Value.sortInstant, Value.compare?, Instant.compare,
        Number.compare?_of_not_nan, compare_toNat]
  · have hne : compare (kindRank a) (kindRank b) ≠ .eq := fun heq => hkind (Nat.compare_eq_eq.1 heq)
    rw [then_of_ne_eq hne, then_of_ne_eq hne]

/-! ### Documents -/

/-- What stands at the paths of a sorting is comparable. -/
def Sortable (sort : Fields Direction) (document : Document) : Prop :=
  ∀ path ∈ Fields.keys sort, (Path.get (.object document) path).Comparable

/-- The order of sorting on all documents. -/
def documentOrder : Fields Direction → Document → Document → Ordering
  | [] => fun _ _ => .eq
  | (path, .asc) :: rest =>
    compareLex (fun a b => (Path.get (.object a) path).sortOrder (Path.get (.object b) path))
      (documentOrder rest)
  | (path, .desc) :: rest =>
    compareLex (fun a b => (Path.get (.object b) path).sortOrder (Path.get (.object a) path))
      (documentOrder rest)

instance (path : String) : TransCmp fun a b : Document =>
    (Path.get (.object a) path).sortOrder (Path.get (.object b) path) where
  eq_swap := (inferInstance : OrientedCmp Value.sortOrder).eq_swap
  isLE_trans := (inferInstance : TransCmp Value.sortOrder).isLE_trans

instance (sort : Fields Direction) : TransCmp (documentOrder sort) := by
  induction sort with
  | nil => exact { eq_swap := rfl, isLE_trans := fun _ _ => rfl }
  | cons entry rest ih =>
    obtain ⟨path, direction⟩ := entry
    cases direction with
    | asc => exact inferInstanceAs (TransCmp (compareLex _ _))
    | desc =>
      have : TransCmp fun a b : Document =>
          (Path.get (.object b) path).sortOrder (Path.get (.object a) path) :=
        @TransCmp.opposite _ (fun a b : Document =>
          (Path.get (.object a) path).sortOrder (Path.get (.object b) path)) _
      exact inferInstanceAs (TransCmp (compareLex _ _))

theorem compareBy_eq {sort : Fields Direction} {a b : Document} (ha : Sortable sort a)
    (hb : Sortable sort b) : compareBy sort a b = documentOrder sort a b := by
  induction sort with
  | nil => rfl
  | cons entry rest ih =>
    obtain ⟨path, direction⟩ := entry
    have hhere := compareValues_eq (ha path List.mem_cons_self) (hb path List.mem_cons_self)
    have hrest := ih (fun path hpath => ha path (List.mem_cons_of_mem _ hpath))
      fun path hpath => hb path (List.mem_cons_of_mem _ hpath)
    cases direction with
    | asc => simp only [compareBy, documentOrder, compareLex, hhere, hrest]
    | desc =>
      have hswap := @OrientedCmp.eq_swap _ Value.sortOrder _
        (Path.get (.object b) path) (Path.get (.object a) path)
      simp only [compareBy, documentOrder, compareLex, hhere, hrest, hswap]

theorem compareBy_totalPreorder (sort : Fields Direction) :
    TotalPreorderOn (Sortable sort) (compareBy sort) :=
  .of_transCmp fun _ _ ha hb => compareBy_eq ha hb

/-- Documents that can be sorted are arranged in the order of sorting. -/
theorem sortBy_arranged {sort : Fields Direction} {documents : List Document}
    (h : ∀ document ∈ documents, Sortable sort document) :
    Arranged (compareBy sort) documents (sortBy sort documents) := by
  have hsorted : sortBy sort documents =
      documents.mergeSort fun a b => documentOrder sort a b != .gt := by
    have hmap := List.map_mergeSort (f := id) (l := documents)
      (r := fun a b => compareBy sort a b != .gt) (s := fun a b => documentOrder sort a b != .gt)
      fun a ha b hb => by rw [compareBy_eq (h a ha) (h b hb)]; rfl
    simpa only [List.map_id, sortBy] using hmap
  have harranged : Arranged (documentOrder sort) documents _ := arranged_mergeSort documents
  obtain ⟨hperm, hordered, hstable⟩ := harranged
  rw [← hsorted] at hperm hordered hstable
  have hmem : ∀ document ∈ sortBy sort documents, Sortable sort document :=
    fun document hdocument => h document (hperm.mem_iff.1 hdocument)
  refine ⟨hperm, hordered.imp_of_mem fun ha hb hle => ?_, fun a ha => ?_⟩
  · rwa [compareBy_eq (hmem _ ha) (hmem _ hb)]
  · have halike (items : List Document) (hitems : ∀ b ∈ items, Sortable sort b) :
        (items.filter fun b => compareBy sort a b == .eq) =
          items.filter fun b => documentOrder sort a b == .eq :=
      List.filter_congr fun b hb => by rw [compareBy_eq (h a ha) (hitems b hb)]
    rw [halike _ hmem, halike _ h, hstable a ha]

/-! ### Pages -/

theorem page_eq (skip limit : Option Nat) (documents : List Document) (k : Nat) :
    (page skip limit documents)[k]? =
      if ∀ n, limit = some n → k < n then documents[skip.getD 0 + k]? else none := by
  cases limit with
  | none => simp [page]
  | some n =>
    by_cases hk : k < n <;> simp [page, hk]

/-- Consecutive pages are the list up to where they end. -/
theorem pages_flatten (size : Nat) (documents : List Document) (n : Nat) :
    ((List.range n).map fun i => page (some (i * size)) (some size) documents).flatten =
      documents.take (n * size) := by
  induction n with
  | zero => simp
  | succ n ih =>
    rw [List.range_succ, List.map_append, List.flatten_append, ih, Nat.succ_mul, List.take_add]
    simp [page]

/-! ### Searches -/

/-- Whether a document meets expressions. -/
def meets (es : List Expression) (document : Document) : Bool :=
  match Query.evaluateAll (.object document) es with
  | .ok met => met
  | .error _ => false

theorem select_eq_ok {c : Collection} {es : List Expression} {matching : List Document}
    (h : c.select es = .ok matching) : matching = c.documents.filter (meets es) := by
  have hloop (documents found : List Document) {kept : List Document}
      (hkept : List.filterAuxM (fun document => Query.evaluateAll (.object document) es) documents
        found = .ok kept) : kept = (documents.filter (meets es)).reverse ++ found := by
    induction documents generalizing found with
    | nil =>
      cases hkept
      rfl
    | cons document rest ih =>
      obtain ⟨met, hmet, hrest⟩ := bind_eq_ok hkept
      rw [ih _ hrest, List.filter_cons]
      have hmeets : meets es document = met := by
        dsimp only at hmet
        rw [meets, hmet]
      rw [hmeets]
      cases met <;> simp
  obtain ⟨kept, hkept, heq⟩ := bind_eq_ok h
  rw [← Except.ok.inj heq, hloop _ _ hkept]
  simp

end Collection

namespace Database

/-- What a search answers, if the documents that meet its expressions are arranged as given: of that
arrangement, so many from a place on, and of pages of some size, whatever number of them, what lies within
them. There is no other arrangement. -/
structure Arranges (db : Database) (name : String) (search : Search) (arranged : List Document) :
    Prop where
  ordered : Arranged (Collection.compareBy search.sort)
    ((db.documents name).filter (Collection.meets search.expressions)) arranged
  only : ∀ other, Arranged (Collection.compareBy search.sort)
    ((db.documents name).filter (Collection.meets search.expressions)) other → other = arranged
  counted : (db.count name search.expressions).1 = .ok arranged.length
  found : ∃ found, (db.find name search).1 = .ok found ∧
    ∀ k, found[k]? = if ∀ n, search.limit = some n → k < n then
      (arranged[search.skip.getD 0 + k]?).map
        fun document => Document.project document search.projection
    else none
  unpaged : (db.find name { search with skip := none, limit := none }).1 =
    .ok (arranged.map fun document => Document.project document search.projection)
  pages : ∀ size n, ∃ pages,
    (List.range n).mapM (fun i =>
      (db.find name { search with skip := some (i * size), limit := some size }).1) = .ok pages ∧
    pages.flatten =
      (arranged.map fun document => Document.project document search.projection).take (n * size)

theorem find_eq {db : Database} {name : String} {search : Search} {matching : List Document}
    (hdb : db.available = true)
    (h : (db.collection name).select search.expressions = .ok matching) :
    (db.find name search).1 =
      .ok ((Collection.page search.skip search.limit (Collection.sortBy search.sort matching)).map
        fun document => Document.project document search.projection) := by
  unfold find whenAvailable
  rw [if_pos hdb, h]
  rfl

theorem mapM_eq_ok {α β : Type} {f : α → Except Error β} {f' : α → β} {items : List α}
    (h : ∀ a ∈ items, f a = .ok (f' a)) : items.mapM f = .ok (items.map f') := by
  induction items with
  | nil => rfl
  | cons a rest ih =>
    obtain ⟨hfirst, hrest⟩ := List.forall_mem_cons.1 h
    rw [List.mapM_cons, hfirst, ih hrest]
    rfl

/-- Documents without NaN at the paths of a sorting are totally preordered. A search fails if counting
does, with the same error, and otherwise gives its part of the documents that meet the expressions,
arranged in this order. -/
theorem find_arranges (db : Database) (name : String) (search : Search)
    (hsortable : ∀ document ∈ db.documents name, Collection.Sortable search.sort document) :
    TotalPreorderOn (Collection.Sortable search.sort) (Collection.compareBy search.sort) ∧
      ((∃ fault, (db.find name search).1 = .error fault ∧
          (db.count name search.expressions).1 = .error fault) ∨
        ∃ arranged, Arranges db name search arranged) := by
  refine ⟨Collection.compareBy_totalPreorder search.sort, ?_⟩
  cases hdb : db.available with
  | false =>
    refine .inl ⟨.database .unavailable, ?_, ?_⟩
    · simp [find, whenAvailable, hdb]
    · simp [count, whenAvailable, hdb]
  | true =>
    cases hselect : (db.collection name).select search.expressions with
    | error fault =>
      refine .inl ⟨fault, ?_, ?_⟩
      · unfold find whenAvailable
        rw [if_pos hdb, hselect]
        rfl
      · unfold count whenAvailable
        rw [if_pos hdb, hselect]
        rfl
    | ok matching =>
      have hmatching := Collection.select_eq_ok hselect
      have hmeets : ∀ document ∈ matching, Collection.Sortable search.sort document := by
        intro document hdocument
        rw [hmatching] at hdocument
        exact hsortable document (List.mem_filter.1 hdocument).1
      have harranged := Collection.sortBy_arranged hmeets
      refine .inr ⟨Collection.sortBy search.sort matching, ?_, ?_, ?_, ?_, ?_, ?_⟩
      · exact hmatching ▸ harranged
      · intro other hother
        refine Arranged.unique ?_ harranged (Collection.compareBy_totalPreorder _) hmeets
        exact hmatching ▸ hother
      · unfold count whenAvailable
        rw [if_pos hdb, hselect, harranged.perm.length_eq]
        rfl
      · refine ⟨_, find_eq hdb hselect, fun k => ?_⟩
        rw [List.getElem?_map, Collection.page_eq]
        split <;> rfl
      · exact find_eq hdb hselect
      · intro size n
        refine ⟨_, mapM_eq_ok fun i _ => find_eq hdb hselect, ?_⟩
        rw [← List.map_take, ← Collection.pages_flatten, List.map_flatten, List.map_map]
        rfl

/-- Movies, one of which has no rating. -/
def cinema : Database :=
  { collections := [("Movie",
    { documents := [
        [("id", .string "a"), ("rating", .number .zero)],
        [("id", .string "b")],
        [("id", .string "c"), ("rating", .number .one)],
        [("id", .string "d"), ("rating", .number .zero)]] })] }

/-- The second and the third of all movies, the best first. -/
def bestSearch : Search :=
  { expressions := [], sort := [("rating", .desc)], skip := some 1, limit := some 2 }

theorem find_arranges_cinema :
    (∀ document ∈ cinema.documents "Movie", Collection.Sortable bestSearch.sort document) ∧
      TotalPreorderOn (Collection.Sortable bestSearch.sort)
        (Collection.compareBy bestSearch.sort) ∧
      ((∃ fault, (cinema.find "Movie" bestSearch).1 = .error fault ∧
          (cinema.count "Movie" bestSearch.expressions).1 = .error fault) ∨
        ∃ arranged, Arranges cinema "Movie" bestSearch arranged) := by
  have h : ∀ document ∈ cinema.documents "Movie",
      Collection.Sortable bestSearch.sort document := by
    intro document hdocument path hpath x hx
    obtain rfl := List.mem_singleton.1 hpath
    simp only [documents, collection, cinema, Fields.get?, if_true, Option.getD_some,
      List.mem_cons, List.not_mem_nil, or_false] at hdocument
    rcases hdocument with rfl | rfl | rfl | rfl <;> cases hx <;> rfl
  exact ⟨h, find_arranges cinema "Movie" bestSearch h⟩

end Database

end TypedRecords
