import TypedRecords.Proofs.Database.Calls
import TypedRecords.Proofs.Document.WellFormed

/-! # Unique keys

Whatever calls are made on a database, in whatever order and with whatever outages between them, no
two documents of a collection have one key in a unique index, unless nothing of the key is defined.
-/

namespace TypedRecords

/-! ### Keys -/

namespace Index

theorem hasKey_eq_false_iff {i : Index} {document : Document} :
    i.hasKey document = false ↔ ∀ v ∈ i.key document, v = .undefined := by
  simp [hasKey, Value.isUndefined_iff]

theorem sameKey_comm {i : Index} {a b : Document} (ha : a.WellFormed) (hb : b.WellFormed) :
    i.sameKey a b = i.sameKey b a := by
  have hkey : ∀ document : Document, document.WellFormed →
      ∀ v ∈ i.key document, v.WellFormed := by
    intro document h v hv
    obtain ⟨path, -, rfl⟩ := List.mem_map.1 hv
    exact h.get path
  exact Value.beqItems_comm (hkey a ha) (hkey b hb)

theorem hasKey_eq_of_sameKey {i : Index} {a b : Document} (h : i.sameKey a b = true) :
    i.hasKey a = i.hasKey b := by
  have h := Value.beqItems_iff.1 h
  unfold hasKey
  generalize i.key a = as, i.key b = bs at h
  induction h with
  | nil => rfl
  | cons hab _ ih => simp [Value.isUndefined_eq_of_beq hab, ih]

end Index

/-! ### Collections -/

namespace Collection

/-- No two documents have one key in a unique index, unless nothing of the key is defined. -/
def UniqueKeys (c : Collection) : Prop :=
  ∀ index ∈ c.indexes, index.unique = true → ∀ (i j : Nat) (a b : Document), i ≠ j →
    c.documents[i]? = some a → c.documents[j]? = some b → index.sameKey a b = true →
    index.hasKey a = false

/-- What holds of a collection at all times. -/
structure Sound (c : Collection) : Prop where
  wellFormed : ∀ document ∈ c.documents, document.WellFormed
  uniqueKeys : c.UniqueKeys

theorem Sound.empty : Sound {} :=
  { wellFormed := fun _ h => absurd h List.not_mem_nil
    uniqueKeys := fun _ h => absurd h List.not_mem_nil }

theorem mem_others_some {c : Collection} {i : Nat} {other : Document} :
    other ∈ c.others (some i) ↔ ∃ j, j ≠ i ∧ c.documents[j]? = some other := by
  simp [others, List.mem_eraseIdx_iff_getElem?]

theorem clash?_eq_none {c : Collection} {document : Document} {except : Option Nat}
    (h : c.clash? document except = none) {index : Index} (hindex : index ∈ c.indexes)
    (hunique : index.unique = true) {other : Document} (hother : other ∈ c.others except)
    (hsame : index.sameKey other document = true) : index.hasKey document = false := by
  have hfound := List.find?_eq_none.1 h index hindex
  by_contra hkey
  apply hfound
  simp only [Bool.not_eq_false] at hkey
  simp only [hunique, hkey, Bool.and_self, Bool.true_and]
  exact List.any_eq_true.2 ⟨other, hother, hsame⟩

/-- Putting a document that does not clash at one place, where the other places stay as they are. -/
theorem Sound.place {c c' : Collection} (hc : c.Sound) (hindexes : c'.indexes = c.indexes)
    {document : Document} (hd : document.WellFormed) {except : Option Nat}
    (hclash : c.clash? document except = none) {i : Nat}
    (hplace : c'.documents[i]? = some document)
    (hstay : ∀ j, j ≠ i → c'.documents[j]? = c.documents[j]?)
    (hothers : ∀ j other, j ≠ i → c.documents[j]? = some other → other ∈ c.others except) :
    c'.Sound := by
  have hwf : ∀ (j : Nat) (other : Document), c'.documents[j]? = some other →
      other.WellFormed := by
    intro j other hother
    by_cases hj : j = i
    · subst hj
      rw [hplace] at hother
      cases hother
      exact hd
    · rw [hstay j hj] at hother
      exact hc.wellFormed other (List.mem_of_getElem? hother)
  refine ⟨fun other hother => ?_, ?_⟩
  · obtain ⟨j, hj⟩ := List.mem_iff_getElem?.1 hother
    exact hwf j other hj
  · intro index hindex hunique j k a b hjk ha hb hsame
    rw [hindexes] at hindex
    by_cases hj : j = i
    · -- The first document is the new one, and the clash was looked for the other way round.
      subst hj
      have hk : k ≠ j := hjk.symm
      obtain rfl : document = a := by
        rw [hplace] at ha
        exact Option.some.inj ha
      rw [Index.sameKey_comm (hwf j _ ha) (hwf k b hb)] at hsame
      rw [hstay k hk] at hb
      exact clash?_eq_none hclash hindex hunique (hothers k b hk hb) hsame
    · rw [hstay j hj] at ha
      by_cases hk : k = i
      · subst hk
        obtain rfl : document = b := by
          rw [hplace] at hb
          exact Option.some.inj hb
        rw [Index.hasKey_eq_of_sameKey hsame]
        exact clash?_eq_none hclash hindex hunique (hothers j a hj ha) hsame
      · rw [hstay k hk] at hb
        exact hc.uniqueKeys index hindex hunique j k a b hjk ha hb hsame

theorem Sound.append {c : Collection} (hc : c.Sound) {document : Document}
    (hd : document.WellFormed) (hclash : c.clash? document none = none) :
    Sound { c with documents := c.documents ++ [document] } := by
  refine hc.place rfl hd hclash (i := c.documents.length) List.getElem?_concat_length ?_ ?_
  · intro j hj
    rw [List.getElem?_append]
    split
    · rfl
    · have hlt : c.documents.length < j := by omega
      rw [List.getElem?_eq_none (by simp only [List.length_singleton]; omega),
        List.getElem?_eq_none (by omega)]
  · intro j other _ hother
    exact List.mem_of_getElem? hother

theorem Sound.set {c : Collection} (hc : c.Sound) {document : Document}
    (hd : document.WellFormed) {i : Nat} (hi : i < c.documents.length)
    (hclash : c.clash? document (some i) = none) :
    Sound { c with documents := c.documents.set i document } := by
  refine hc.place rfl hd hclash (i := i) (List.getElem?_set_self hi) ?_ ?_
  · intro j hj
    exact List.getElem?_set_ne hj.symm
  · intro j other hj hother
    exact mem_others_some.2 ⟨j, hj, hother⟩

theorem Sound.eraseIdx {c : Collection} (hc : c.Sound) (i : Nat) :
    Sound { c with documents := c.documents.eraseIdx i } := by
  refine ⟨fun document hmem => hc.wellFormed document (List.mem_of_mem_eraseIdx hmem), ?_⟩
  intro index hindex hunique j k a b hjk ha hb hsame
  simp only [List.getElem?_eraseIdx] at ha hb
  -- What was behind the removed document has moved up by one place.
  have hplace : ∀ n, (if n < i then c.documents[n]? else c.documents[n + 1]?) =
      c.documents[if n < i then n else n + 1]? := by
    intro n
    split <;> rfl
  rw [hplace] at ha hb
  refine hc.uniqueKeys index hindex hunique _ _ a b ?_ ha hb hsame
  split <;> split <;> omega

theorem Sound.reindex {c : Collection} (hc : c.Sound) {indexes : List Index}
    (hclash : ∀ i document, c.documents[i]? = some document →
      clash? { c with indexes } document (some i) = none) :
    Sound { c with indexes } := by
  refine ⟨hc.wellFormed, ?_⟩
  intro index hindex hunique i j a b hij ha hb hsame
  rw [Index.hasKey_eq_of_sameKey hsame]
  exact clash?_eq_none (hclash j b hb) hindex hunique (mem_others_some.2 ⟨i, hij, ha⟩) hsame

end Collection

/-! ### Calls -/

namespace Database

/-- What holds of a database at all times. -/
def Sound (db : Database) : Prop := ∀ name, (db.collection name).Sound

theorem Sound.empty : Sound {} := fun _ => Collection.Sound.empty

theorem Sound.put {db : Database} (h : db.Sound) (name : String) {c : Collection}
    (hc : c.Sound) : (db.put name c).Sound := by
  intro other
  by_cases ho : other = name
  · subst ho
    rw [collection_put_self]
    exact hc
  · rw [collection_put_of_ne db ho]
    exact h other

/-- A call keeps what it keeps when it succeeds. -/
theorem Sound.whenAvailable {α : Type} {db : Database} (h : db.Sound)
    {call : Except Error (α × Database)} (hcall : ∀ a after, call = .ok (a, after) → after.Sound) :
    (db.whenAvailable call).2.Sound := by
  unfold Database.whenAvailable
  split
  · cases call with
    | ok result => exact hcall result.1 result.2 rfl
    | error e => exact h
  · exact h

theorem checkAll_eq_ok {name : String} {c : Collection} (h : checkAll name c = .ok ()) {i : Nat}
    {document : Document} (hi : c.documents[i]? = some document) :
    c.clash? document (some i) = none := by
  have hlt : i < c.documents.length := (List.getElem?_eq_some_iff.1 hi).1
  have hclash := refuseClash_eq_ok (forM_eq_ok h (List.mem_range.2 hlt))
  rw [hi] at hclash
  exact hclash

theorem Sound.create {db : Database} (h : db.Sound) (name : String) (descriptor : Object)
    {document : Document} (hd : document.WellFormed) :
    (db.create name descriptor document).2.Sound := by
  rw [create_eq]
  refine h.whenAvailable ?_
  intro a after hcall
  dsimp only at hcall
  split at hcall
  · cases hcall
    exact h
  · obtain ⟨_, hclash, hcall⟩ := bind_eq_ok hcall
    cases hcall
    exact h.put name ((h name).append hd (refuseClash_eq_ok hclash))

theorem Sound.read {db : Database} (h : db.Sound) (name : String) (descriptor : Object)
    (projection : Option Projection) : (db.read name descriptor projection).2.Sound := by
  refine h.whenAvailable ?_
  intro a after hcall
  cases hcall
  exact h

theorem Sound.update {db : Database} (h : db.Sound) (name : String) (descriptor : Object)
    {patch : Patch} (hp : patch.WellFormed) : (db.update name descriptor patch).2.Sound := by
  refine h.whenAvailable ?_
  intro a after hcall
  dsimp only at hcall
  split at hcall
  · cases hcall
    exact h
  · next i hi =>
    obtain ⟨_, hclash, hcall⟩ := bind_eq_ok hcall
    cases hcall
    obtain ⟨stored, hstored, -⟩ := Collection.position?_eq_some hi
    rw [hstored] at hclash ⊢
    have hlt := (List.getElem?_eq_some_iff.1 hstored).1
    have hwf := (h name).wellFormed stored (List.mem_of_getElem? hstored)
    exact h.put name ((h name).set (hp.apply hwf) hlt (refuseClash_eq_ok hclash))

theorem Sound.delete {db : Database} (h : db.Sound) (name : String) (descriptor : Object) :
    (db.delete name descriptor).2.Sound := by
  refine h.whenAvailable ?_
  intro a after hcall
  dsimp only at hcall
  split at hcall
  · cases hcall
    exact h
  · next i _ =>
    cases hcall
    exact h.put name ((h name).eraseIdx i)

theorem Sound.find {db : Database} (h : db.Sound) (name : String) (search : Search) :
    (db.find name search).2.Sound := by
  refine h.whenAvailable ?_
  intro a after hcall
  obtain ⟨_, _, hcall⟩ := bind_eq_ok hcall
  cases hcall
  exact h

theorem Sound.count {db : Database} (h : db.Sound) (name : String) (es : List Expression) :
    (db.count name es).2.Sound := by
  refine h.whenAvailable ?_
  intro a after hcall
  obtain ⟨_, _, hcall⟩ := bind_eq_ok hcall
  cases hcall
  exact h

theorem Sound.migrate {db : Database} (h : db.Sound) (name : String) (indexes : List Index) :
    (db.migrate name indexes).2.Sound := by
  rw [migrate_eq]
  refine h.whenAvailable ?_
  intro a after hcall
  obtain ⟨_, hcheck, hcall⟩ := bind_eq_ok hcall
  cases hcall
  exact h.put name ((h name).reindex fun i document hi => checkAll_eq_ok hcheck hi)

end Database

/-- The documents and patches of the call are well-formed. -/
def Call.WellFormed : Call → Prop
  | .create _ document => Document.WellFormed document
  | .update _ patch => patch.WellFormed
  | _ => True

theorem Call.run_sound {call : Call} (hcall : call.WellFormed) (collection : String)
    {db : Database} (h : db.Sound) : (call.run collection db).2.Sound := by
  cases call with
  | create descriptor document => exact h.create collection descriptor hcall
  | read descriptor projection => exact h.read collection descriptor projection
  | update descriptor patch => exact h.update collection descriptor hcall
  | delete descriptor => exact h.delete collection descriptor
  | find search => exact h.find collection search
  | count es => exact h.count collection es
  | migrate indexes silent => exact h.migrate collection indexes

/-! ### Runs -/

namespace Database

/-- What happens to a database: calls, and outages that come and go. -/
inductive Event where
  | call (collection : String) (call : Call)
  | outage (begins : Bool)

def Event.WellFormed : Event → Prop
  | .call _ made => made.WellFormed
  | .outage _ => True

def step (db : Database) : Event → Database
  | .call collection call => (call.run collection db).2
  | .outage begins => { db with available := !begins }

/-- The empty database after some events. -/
def run (events : List Event) : Database := events.foldl step {}

theorem Sound.step {db : Database} (h : db.Sound) {event : Event} (hevent : event.WellFormed) :
    (db.step event).Sound := by
  cases event with
  | call collection call => exact Call.run_sound hevent collection h
  | outage begins => exact h

theorem run_sound {events : List Event} (h : ∀ event ∈ events, event.WellFormed) :
    (run events).Sound := by
  have hfrom : ∀ (events : List Event) (db : Database), db.Sound →
      (∀ event ∈ events, event.WellFormed) → (events.foldl step db).Sound := by
    intro events
    induction events with
    | nil => exact fun _ hdb _ => hdb
    | cons event rest ih =>
      intro db hdb h
      obtain ⟨hevent, hrest⟩ := List.forall_mem_cons.1 h
      exact ih _ (hdb.step hevent) hrest
  exact hfrom events {} Sound.empty h

/-- No two documents of a collection have one key in a unique index, unless nothing of the key is
defined. -/
theorem key_undefined_of_sameKey {events : List Event}
    (h : ∀ event ∈ events, event.WellFormed) {name : String} {index : Index}
    (hindex : index ∈ ((run events).collection name).indexes) (hunique : index.unique = true)
    {i j : Nat} (hij : i ≠ j) {a b : Document}
    (ha : ((run events).documents name)[i]? = some a)
    (hb : ((run events).documents name)[j]? = some b) (hsame : index.sameKey a b = true) :
    ∀ v ∈ index.key a, v = .undefined :=
  Index.hasKey_eq_false_iff.1
    ((run_sound h name).uniqueKeys index hindex hunique i j a b hij ha hb hsame)

/-- Two guests without an address, in a collection where addresses are unique. -/
def twoGuests : List Event :=
  [.call "guests" (.migrate [{ paths := [("address", .asc)], unique := true }] true),
    .call "guests" (.create [("id", .string "a")] [("id", .string "a")]),
    .outage true, .call "guests" (.delete [("id", .string "a")]), .outage false,
    .call "guests" (.create [("id", .string "b")] [("id", .string "b")])]

theorem key_undefined_of_sameKey_twoGuests :
    (run twoGuests).documents "guests" = [[("id", .string "a")], [("id", .string "b")]] ∧
      ∀ v ∈ Index.key { paths := [("address", .asc)], unique := true } [("id", .string "a")],
        v = .undefined := by
  have h : ∀ event ∈ twoGuests, event.WellFormed := by
    intro event hevent
    simp only [twoGuests, List.mem_cons, List.not_mem_nil, or_false] at hevent
    rcases hevent with rfl | rfl | rfl | rfl | rfl | rfl
    · trivial
    · exact Document.WellFormed.empty.insert (v := .string "a") trivial "id"
    · trivial
    · trivial
    · trivial
    · exact Document.WellFormed.empty.insert (v := .string "b") trivial "id"
  have hindex : { paths := [("address", .asc)], unique := true } ∈
      ((run twoGuests).collection "guests").indexes := List.mem_singleton.2 rfl
  have ha : ((run twoGuests).documents "guests")[0]? = some [("id", .string "a")] := rfl
  have hb : ((run twoGuests).documents "guests")[1]? = some [("id", .string "b")] := rfl
  exact ⟨rfl, key_undefined_of_sameKey h hindex rfl (by decide) ha hb rfl⟩

end Database

end TypedRecords
