import TypedRecords.Proofs.Database.Uniqueness
import TypedRecords.Proofs.Types.Check

/-! # Guarded paths

A collection with a unique index of one path holds no two documents with equal keys at the path. Every
call keeps that, except for a migration to indexes among which there is no such one. In contrast to the
keys of any index, what is compared here are texts and numbers, so that documents may be of any form.
-/

namespace TypedRecords

/-! ### Documents -/

/-- Two documents hold no equal keys at a path. -/
def Document.Disagree (path : String) (x y : Document) : Prop :=
  ∀ u v, u.IsKey → Path.get? (.object x) path = some u → Path.get? (.object y) path = some v →
    u.beq v = false

theorem Document.Disagree.symm {path : String} {x y : Document} (h : Document.Disagree path x y) :
    Document.Disagree path y x := by
  intro u v hu hy hx
  by_contra hequal
  rw [Bool.not_eq_false] at hequal
  have hv : v.IsKey := hu.of_beq ((hu.beq_comm v).symm.trans hequal)
  have hdiffers := h v u hv hx hy
  rw [← hu.beq_comm v, hequal] at hdiffers
  cases hdiffers

/-- Putting an item at one place of a list that is not related to the items at other places. -/
theorem pairwise_set_of_symm {α : Type} {R : α → α → Prop} (hsymm : ∀ a b, R a b → R b a)
    {items : List α} (h : items.Pairwise R) {i : Nat} {b : α}
    (hb : ∀ j a, j ≠ i → items[j]? = some a → R a b) : (items.set i b).Pairwise R := by
  induction items generalizing i with
  | nil => exact .nil
  | cons a rest ih =>
    obtain ⟨ha, hrest⟩ := List.pairwise_cons.1 h
    cases i with
    | zero =>
      refine List.pairwise_cons.2 ⟨fun a' ha' => ?_, hrest⟩
      obtain ⟨j, hj⟩ := List.mem_iff_getElem?.1 ha'
      exact hsymm _ _ (hb (j + 1) a' (Nat.succ_ne_zero j) hj)
    | succ i =>
      refine List.pairwise_cons.2 ⟨fun a' ha' => ?_, ih hrest fun j a' hj ha' => ?_⟩
      · rcases List.mem_or_eq_of_mem_set ha' with ha' | rfl
        · exact ha a' ha'
        · exact hb 0 a (Nat.succ_ne_zero i).symm rfl
      · exact hb (j + 1) a' (fun heq => hj (Nat.succ_inj.1 heq)) ha'

/-! ### Indexes -/

/-- A unique index of one path. -/
structure Index.GuardsPath (index : Index) (path : String) : Prop where
  unique : index.unique = true
  paths : Fields.keys index.paths = [path]

namespace Collection

variable {c : Collection} {path : String}

/-- Documents that do not clash in a unique index of one path disagree there. -/
theorem disagree_of_clash?_eq_none {document other : Document} {except : Option Nat}
    (hclash : c.clash? document except = none) {index : Index} (hindex : index ∈ c.indexes)
    (hguards : index.GuardsPath path) (hother : other ∈ c.others except) :
    Document.Disagree path other document := by
  intro u v hu hx hy
  by_contra hequal
  rw [Bool.not_eq_false] at hequal
  have hkey : ∀ document, index.key document = [Path.get (.object document) path] := by
    intro document
    rw [Index.key, hguards.paths]
    rfl
  have hsame : index.sameKey other document = true := by
    rw [Index.sameKey, hkey, hkey, Path.get, hx, Path.get, hy]
    simpa [Value.beqItems] using hequal
  have hnone := clash?_eq_none hclash hindex hguards.unique hother hsame
  have hundefined := Index.hasKey_eq_false_iff.1 hnone v (by simp [hkey, Path.get, hy])
  rw [hundefined] at hequal
  rcases hu with ⟨s, rfl⟩ | ⟨x, rfl⟩ <;> cases hequal

/-- A unique index of one path is installed, and the documents disagree there. -/
structure Guarded (c : Collection) (path : String) : Prop where
  index : ∃ index ∈ c.indexes, index.GuardsPath path
  disagree : c.documents.Pairwise (Document.Disagree path)

theorem Guarded.thinned (h : c.Guarded path) {documents : List Document}
    (hdocuments : documents.Sublist c.documents) : Guarded { c with documents } path :=
  ⟨h.index, h.disagree.sublist hdocuments⟩

theorem Guarded.append (h : c.Guarded path) {document : Document}
    (hclash : c.clash? document none = none) :
    Guarded { c with documents := c.documents ++ [document] } path := by
  obtain ⟨index, hindex, hguards⟩ := h.index
  refine ⟨h.index, List.pairwise_append.2 ⟨h.disagree, List.pairwise_singleton _ _, ?_⟩⟩
  intro other hother added hadded
  rw [List.mem_singleton.1 hadded]
  exact disagree_of_clash?_eq_none hclash hindex hguards hother

theorem Guarded.set (h : c.Guarded path) {document : Document} {i : Nat}
    (hclash : c.clash? document (some i) = none) :
    Guarded { c with documents := c.documents.set i document } path := by
  obtain ⟨index, hindex, hguards⟩ := h.index
  refine ⟨h.index, pairwise_set_of_symm (fun _ _ => .symm) h.disagree fun j other hj hother => ?_⟩
  exact disagree_of_clash?_eq_none hclash hindex hguards (mem_others_some.2 ⟨j, hj, hother⟩)

/-- Documents that were all checked against the others. -/
theorem guarded_of_checkAll {name : String} (hcheck : Database.checkAll name c = .ok ())
    (hindex : ∃ index ∈ c.indexes, index.GuardsPath path) : c.Guarded path := by
  obtain ⟨index, hmem, hguards⟩ := hindex
  refine ⟨⟨index, hmem, hguards⟩, List.pairwise_iff_getElem.2 fun i j hi hj hij => ?_⟩
  have hclash := Database.checkAll_eq_ok hcheck (List.getElem?_eq_getElem hj)
  exact disagree_of_clash?_eq_none hclash hmem hguards
    (mem_others_some.2 ⟨i, hij.ne, List.getElem?_eq_getElem hi⟩)

end Collection

/-! ### Calls -/

namespace Database

variable {db : Database} {name path : String}

theorem guarded_put (h : (db.collection name).Guarded path) {collection : String} {c : Collection}
    (hc : collection = name → c.Guarded path) : ((db.put collection c).collection name).Guarded path := by
  by_cases hname : name = collection
  · subst hname
    rw [collection_put_self]
    exact hc rfl
  · rw [collection_put_of_ne _ hname]
    exact h

theorem guarded_whenAvailable {α : Type} (h : (db.collection name).Guarded path)
    {call : Except Error (α × Database)}
    (hcall : ∀ a after, call = .ok (a, after) → (after.collection name).Guarded path) :
    ((db.whenAvailable call).2.collection name).Guarded path := by
  unfold Database.whenAvailable
  split
  · split
    · next a after => exact hcall a after rfl
    · exact h
  · exact h

/-- A migration to indexes among which there is a unique one of a path. -/
theorem migrate_guarded {indexes : List Index} {m : Migration} {after : Database}
    (hindex : ∃ index ∈ indexes, index.GuardsPath path)
    (h : db.migrate name indexes = (.ok m, after)) : (after.collection name).Guarded path := by
  rw [migrate_eq] at h
  obtain ⟨checked, hcheck, hpure⟩ := bind_eq_ok (whenAvailable_eq_ok h)
  cases hpure
  rw [collection_put_self]
  exact Collection.guarded_of_checkAll hcheck hindex

end Database

/-- A call keeps a path guarded, if it is no migration of the collection or one that guards the path. -/
theorem Call.run_guarded {call : Call} {collection name path : String} {db : Database}
    (h : (db.collection name).Guarded path)
    (hmigrate : ∀ indexes silent, call = .migrate indexes silent → collection = name →
      ∃ index ∈ indexes, index.GuardsPath path) :
    ((call.run collection db).2.collection name).Guarded path := by
  have hclash : ∀ {document except}, Database.refuseClash collection (db.collection collection) document
      except = .ok () → (db.collection collection).clash? document except = none :=
    Database.refuseClash_eq_ok
  cases call with
  | create descriptor document =>
    simp only [Call.run, Call.run.answer, Database.create_eq]
    refine Database.guarded_whenAvailable h fun a after hcall => ?_
    split at hcall
    · cases hcall
      exact h
    · obtain ⟨_, hcheck, hpure⟩ := bind_eq_ok hcall
      cases hpure
      refine Database.guarded_put h ?_
      rintro rfl
      exact h.append (hclash hcheck)
  | update descriptor patch =>
    simp only [Call.run, Call.run.answer, Database.update]
    refine Database.guarded_whenAvailable h fun a after hcall => ?_
    split at hcall
    · cases hcall
      exact h
    · obtain ⟨_, hcheck, hpure⟩ := bind_eq_ok hcall
      cases hpure
      refine Database.guarded_put h ?_
      rintro rfl
      exact h.set (hclash hcheck)
  | delete descriptor =>
    simp only [Call.run, Call.run.answer, Database.delete]
    refine Database.guarded_whenAvailable h fun a after hcall => ?_
    split at hcall
    · cases hcall
      exact h
    · cases hcall
      refine Database.guarded_put h ?_
      rintro rfl
      exact h.thinned (List.eraseIdx_sublist ..)
  | read descriptor projection =>
    refine Database.guarded_whenAvailable h fun a after hcall => ?_
    cases hcall
    exact h
  | find search =>
    refine Database.guarded_whenAvailable h fun a after hcall => ?_
    obtain ⟨matching, -, hpure⟩ := bind_eq_ok hcall
    cases hpure
    exact h
  | count es =>
    refine Database.guarded_whenAvailable h fun a after hcall => ?_
    obtain ⟨matching, -, hpure⟩ := bind_eq_ok hcall
    cases hpure
    exact h
  | migrate indexes silent =>
    simp only [Call.run, Call.run.answer, Database.migrate_eq]
    refine Database.guarded_whenAvailable h fun a after hcall => ?_
    obtain ⟨_, hcheck, hpure⟩ := bind_eq_ok hcall
    cases hpure
    refine Database.guarded_put h fun hname => ?_
    exact Collection.guarded_of_checkAll hcheck (hmigrate indexes silent rfl hname)

end TypedRecords
