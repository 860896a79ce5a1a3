import TypedRecords.Proofs.Store.Tracking

/-! # Documents that are exchanged

A save that writes puts one document with the key of its record in the place of the one that there was, if
there was one, and a delete leaves none. All other documents stay, so that the keys of other records are
held by as many documents as before.
-/

namespace TypedRecords

/-! ### Lists -/

/-- In one place of a list, some elements have been exchanged for others. -/
def Exchanged {α : Type} (old new items items' : List α) : Prop :=
  ∃ before after, items = before ++ old ++ after ∧ items' = before ++ new ++ after

namespace Exchanged

variable {α : Type} {old new items items' : List α} {p : α → Bool} {a : α} {i : Nat}

theorem append (items : List α) (a : α) : Exchanged [] [a] items (items ++ [a]) :=
  ⟨items, [], by simp, by simp⟩

theorem set (h : items[i]? = some a) (b : α) : Exchanged [a] [b] items (items.set i b) := by
  obtain ⟨hi, rfl⟩ := List.getElem?_eq_some_iff.1 h
  refine ⟨items.take i, items.drop (i + 1), ?_, ?_⟩
  · rw [List.append_assoc, List.singleton_append, List.getElem_cons_drop, List.take_append_drop]
  · rw [List.set_eq_take_append_cons_drop, if_pos hi, List.append_assoc, List.singleton_append]

theorem eraseIdx (h : items[i]? = some a) : Exchanged [a] [] items (items.eraseIdx i) := by
  obtain ⟨hi, rfl⟩ := List.getElem?_eq_some_iff.1 h
  refine ⟨items.take i, items.drop (i + 1), ?_, ?_⟩
  · rw [List.append_assoc, List.singleton_append, List.getElem_cons_drop, List.take_append_drop]
  · rw [List.append_nil, List.eraseIdx_eq_take_drop_succ]

theorem countP_add (h : Exchanged old new items items') (p : α → Bool) :
    items'.countP p + old.countP p = items.countP p + new.countP p := by
  obtain ⟨before, after, rfl, rfl⟩ := h
  simp only [List.countP_append]
  omega

/-- The count of what neither is exchanged nor comes in exchange stays. -/
theorem countP_eq (h : Exchanged old new items items') (hold : ∀ x ∈ old, p x = false)
    (hnew : ∀ x ∈ new, p x = false) : items'.countP p = items.countP p := by
  have hadd := h.countP_add p
  have hnone : old.countP p = 0 := List.countP_eq_zero.2 (by simpa using hold)
  have hnone' : new.countP p = 0 := List.countP_eq_zero.2 (by simpa using hnew)
  omega

/-- Where all of a kind is exchanged, there are as many as come in exchange. -/
theorem countP_new (h : Exchanged old new items items') (hold : ∀ x ∈ old, p x = true)
    (hnew : ∀ x ∈ new, p x = true) (hall : items.countP p = old.length) :
    items'.countP p = new.length := by
  have hadd := h.countP_add p
  rw [List.countP_eq_length.2 hold, List.countP_eq_length.2 hnew] at hadd
  omega

theorem mem (h : Exchanged old new items items') (ha : a ∈ items') : a ∈ items ∨ a ∈ new := by
  obtain ⟨before, after, rfl, rfl⟩ := h
  simp only [List.mem_append] at ha ⊢
  tauto

end Exchanged

/-! ### Keys that are prepared -/

/-- A key is encoded as it is, and nothing else takes its place. -/
theorem Record.encodeWithin_key {d : Directory} {steps : Nat} {r : RecordRef} (hr : r.base? = none)
    {s : Selector} {a : Attribute} (ha : a ∈ d.attributes r.cls) (hs : s.Selects a.name) {g g' : Graph}
    {slot : Slot} (hset : g.own? r a.name = some (some slot)) (hkey : slot.value.IsKey)
    {fields : Object}
    (h : encodeWithin d .store steps [] true r s g = (.ok (.object fields), g')) :
    Fields.get? a.name fields = some slot.value := by
  refine encodeWithin_reaches (P := fun fields => Fields.get? a.name fields = some slot.value) hr ha hs
    hset (fun onRecord acc e g g' he => ?_) (fun name e acc hname hacc => ?_) h
  · have hsame : e = slot.value := by
      rcases hkey with ⟨text, htext⟩ | ⟨x, hx⟩
      · rw [htext] at he ⊢
        cases he
        rfl
      · rw [hx] at he ⊢
        cases he
        rfl
    rw [hsame, Fields.get?_insert_self]
  · rw [Fields.get?_insert_of_ne (Ne.symm hname)]
    exact hacc

namespace Store

variable {d : Directory} {r q : RecordRef} {key key' : String × Value} {s s' : Store}
  {new : List Document} {p : Prepared} {g g' : Graph} {name : String} {v : Value}

/-- A record with a primary identifier is described by it, and it is in the document, whatever of the
record is saved. -/
theorem prepare_primary (hmade : r.base? = none) (hp : p.Spells d g r) {selector : Selector}
    (h : prepare d r selector g = (.ok p, g')) (hv : g.primary? d r = some (name, v)) (hkey : v.IsKey) :
    p.descriptor = [(name, v)] ∧ Fields.get? name p.document = some v := by
  obtain ⟨identifier, hidentifier, hdescriptor⟩ := hp.descriptor
  rw [Graph.identifier?_of_primary? hmade hv hkey.ne_undefined] at hidentifier
  cases hidentifier
  refine ⟨hdescriptor, ?_⟩
  obtain ⟨a, ha, rfl, hvalue⟩ := Graph.primary?_eq_some.1 hv
  obtain ⟨source, hset⟩ := Graph.value?_eq_some_iff.1 hvalue
  have hidentifies := Definition.mem_identifiers_of_primary ha
  have hmem := Definition.mem_attributeList_of_identifier hidentifies
  have hselected : ((d.definition r.cls).identifierSelector.merge selector).Selects a.name := by
    have hall : (toRead d r.cls selector).get a.name = .all := toRead_identifier selector hidentifies
    rw [Selector.Selects, ← toRead, hall]
    rfl
  obtain ⟨g₁, steps, hreads, hencode⟩ := prepare_encodes h
  exact Record.encodeWithin_key hmade hmem
    (prepare_selects hmade h hmem hselected hset) (hreads.keeps _ _ _ hset) hkey hencode

/-! ### Documents with keys -/

/-- All documents that hold the key of a record have been exchanged for others that do. -/
structure Exchanges (r : RecordRef) (key : String × Value) (new : List Document) (s s' : Store) :
    Prop where
  registered : ∀ c, s'.isRegistered c = s.isRegistered c
  collection : ∀ c, s'.collectionName c = s.collectionName c
  there : s.isRegistered r.cls = true
  exchanged : ∃ old, Exchanged old new (s.database.documents (s.collectionName r.cls))
      (s'.database.documents (s.collectionName r.cls)) ∧
    (∀ document ∈ old, Collection.holds document [key] = true) ∧ s.tally r key = old.length
  holds : ∀ document ∈ new, Collection.holds document [key] = true
  elsewhere : ∀ name, name ≠ s.collectionName r.cls → s'.database.documents name = s.database.documents name

namespace Exchanges

theorem alike {s'' : Store} (h : s.Exchanges r key new s') (halike : s'.Alike s'') :
    s.Exchanges r key new s'' := by
  obtain ⟨trace, journal, rfl⟩ := halike
  exact ⟨h.registered, h.collection, h.there, h.exchanged, h.holds, h.elsewhere⟩

theorem tally_self (h : s.Exchanges r key new s') : s'.tally r key = new.length := by
  obtain ⟨old, hexchanged, hold, hall⟩ := h.exchanged
  rw [tally, if_pos h.there] at hall
  rw [tally, h.registered, if_pos h.there, h.collection]
  exact hexchanged.countP_new hold h.holds hall

/-- Keys that no document holds together with that of the record are held as often as before. -/
theorem tally_other (h : s.Exchanges r key new s') (hapart : s.isRegistered q.cls = true →
      s.collectionName q.cls = s.collectionName r.cls → ∀ document,
        Collection.holds document [key] = true → Collection.holds document [key'] = false) :
    s'.tally q key' = s.tally q key' := by
  unfold tally
  rw [h.registered, h.collection]
  split
  · next hregistered =>
    by_cases hcollection : s.collectionName q.cls = s.collectionName r.cls
    · obtain ⟨old, hexchanged, hold, -⟩ := h.exchanged
      have hothers := hapart hregistered hcollection
      rw [hcollection]
      exact hexchanged.countP_eq (fun document hdocument => hothers document (hold document hdocument))
        fun document hdocument => hothers document (h.holds document hdocument)
    · rw [h.elsewhere _ hcollection]
  · rfl

theorem mem (h : s.Exchanges r key new s') {name : String} {document : Document}
    (hdocument : document ∈ s'.database.documents name) :
    document ∈ s.database.documents name ∨
      name = s.collectionName r.cls ∧ Collection.holds document [key] = true := by
  by_cases hname : name = s.collectionName r.cls
  · obtain ⟨old, hexchanged, -⟩ := h.exchanged
    subst hname
    exact (hexchanged.mem hdocument).imp_right fun hnew => ⟨rfl, h.holds document hnew⟩
  · exact .inl (h.elsewhere name hname ▸ hdocument)

end Exchanges

/-! ### Calls that exchange documents -/

/-- A collection is replaced by one in which the documents that hold a key are others. -/
theorem exchanges_put (hregistered : s.isRegistered r.cls = true) {old : List Document}
    {collection : Collection} (hexchanged : Exchanged old new
      (s.database.documents (s.collectionName r.cls)) collection.documents)
    (hold : ∀ document ∈ old, Collection.holds document [key] = true)
    (hall : s.tally r key = old.length)
    (hnew : ∀ document ∈ new, Collection.holds document [key] = true) :
    s.Exchanges r key new { s with database := s.database.put (s.collectionName r.cls) collection } where
  registered _ := rfl
  collection _ := rfl
  there := hregistered
  exchanged := by
    refine ⟨old, ?_, hold, hall⟩
    have hput : (s.database.put (s.collectionName r.cls) collection).documents (s.collectionName r.cls) =
        collection.documents := by
      rw [Database.documents, Database.collection_put_self]
    exact hput ▸ hexchanged
  holds := hnew
  elsewhere other hother := by
    rw [Database.documents, Database.collection_put_of_ne _ hother, Database.documents]

/-- A key that at most one document holds is held by the one that was found by an equal key. -/
theorem found_of_position (hregistered : s.isRegistered r.cls = true) (honce : s.tally r key ≤ 1)
    (hkey : v.IsKey) (hequal : v.beq key.2 = true) {i : Nat}
    (hi : (s.database.collection (s.collectionName r.cls)).position? [(key.1, v)] = some i) :
    ∃ document, (s.database.documents (s.collectionName r.cls))[i]? = some document ∧
      Collection.holds document [key] = true ∧ s.tally r key = 1 := by
  obtain ⟨document, hdocument, hfound⟩ := Collection.position?_eq_some hi
  have hholds : Collection.holds document [key] = true :=
    (holds_congr hkey hequal document).symm.trans hfound
  have hpos : 0 < s.tally r key :=
    tally_pos.2 ⟨hregistered, document, List.mem_of_getElem? hdocument, hholds⟩
  exact ⟨document, hdocument, hholds, by omega⟩

theorem tally_of_position_none (hkey : v.IsKey) (hequal : v.beq key.2 = true)
    (h : (s.database.collection (s.collectionName r.cls)).position? [(key.1, v)] = none) :
    s.tally r key = 0 := by
  refine Nat.eq_zero_of_not_pos fun hpos => ?_
  obtain ⟨-, document, hdocument, hholds⟩ := tally_pos.1 hpos
  have hunheld := Collection.holds_eq_false (List.cons_ne_nil _ _) h hdocument
  rw [holds_congr hkey hequal document, hholds] at hunheld
  cases hunheld

/-- The document that is prepared of a record takes the place of the one with its key. -/
theorem savingCall_exchanges (hnamed : d.NamesProperly) (hkept : s.Kept d) (hr : d.Inherits r.cls)
    (hregistered : s.isRegistered r.cls = true) (hp : p.Spells d g r)
    (hdescriptor : p.descriptor = [(key.1, v)]) (hv : Fields.get? key.1 p.document = some v)
    (hkey : v.IsKey) (hequal : v.beq key.2 = true) (honce : s.tally r key ≤ 1) {isNew : Bool}
    (hanswer : ((savingCall isNew p).run (s.collectionName r.cls) s.database).1 = .ok (.flag true)) :
    ∃ document, s.Exchanges r key [document] { s with
      database := ((savingCall isNew p).run (s.collectionName r.cls) s.database).2 } := by
  have hholds : ∀ document : Document, Fields.get? key.1 document = some v →
      ∀ x ∈ [document], Collection.holds x [key] = true := by
    intro document hdocument x hx
    simp [List.mem_singleton.1 hx, Collection.holds, hdocument, hequal]
  -- A creation has found no document with the key, an update the only one.
  rcases savingCall_writes hanswer with ⟨-, hnone, hput⟩ | ⟨-, i, stored, hi, hstored, hput⟩
  · refine ⟨Value.stripFields p.document, hput ▸ exchanges_put hregistered (.append _ _) (by simp)
      (tally_of_position_none hkey hequal (hdescriptor ▸ hnone)) (hholds _ ?_)⟩
    refine Fields.get?_of_mem (Value.distinct_stripFields hp.distinct) (Value.mem_stripFields.2 ?_)
    exact ⟨v, Fields.mem_of_get? hv, hkey.ne_undefined, hkey.strip.symm⟩
  · obtain ⟨stored', hstored', hfound, hall⟩ :=
      found_of_position hregistered honce hkey hequal (hdescriptor ▸ hi)
    obtain rfl := Option.some.inj (hstored.symm.trans hstored')
    refine ⟨(Patch.ofDocument p.document).apply stored, hput ▸ exchanges_put hregistered
      (.set hstored _) (by simpa using hfound) hall (hholds _ ?_)⟩
    have hshaped := hkept.shaped_record hr hregistered stored (List.mem_of_getElem? hstored)
    rw [Patch.get?_apply_ofDocument hp.distinct (Document.Shaped.names_of_spells hnamed hp) hv
      hkey.asObject? hshaped.distinct, hkey.overlay]

/-- Of the documents with a key none is left when it is deleted. -/
theorem delete_exchanges (hregistered : s.isRegistered r.cls = true) (hkey : v.IsKey)
    (hequal : v.beq key.2 = true) (honce : s.tally r key ≤ 1)
    (hanswer : ((Call.delete [(key.1, v)]).run (s.collectionName r.cls) s.database).1 = .ok (.flag true)) :
    s.Exchanges r key [] { s with
      database := ((Call.delete [(key.1, v)]).run (s.collectionName r.cls) s.database).2 } := by
  simp only [Call.run, Call.run.answer] at hanswer ⊢
  rcases hdelete : s.database.delete (s.collectionName r.cls) [(key.1, v)] with ⟨outcome, after⟩
  rw [hdelete] at hanswer
  obtain rfl : outcome = .ok true := by
    cases outcome <;> cases hanswer
    rfl
  obtain ⟨i, hi, rfl⟩ := Database.delete_eq_ok_true hdelete
  obtain ⟨stored, hstored, hfound, hall⟩ := found_of_position hregistered honce hkey hequal hi
  exact exchanges_put hregistered (.eraseIdx hstored) (by simpa using hfound) hall (by simp)

theorem delete_unwritten {descriptor : Object} {collection : String} {db : Database}
    (h : ((Call.delete descriptor).run collection db).1 ≠ .ok (.flag true)) :
    ((Call.delete descriptor).run collection db).2 = db := by
  simp only [Call.run, Call.run.answer] at h ⊢
  rcases hdelete : db.delete collection descriptor with ⟨outcome, after⟩
  rw [hdelete] at h
  cases outcome with
  | error e => exact Database.eq_of_whenAvailable_error hdelete
  | ok deleted =>
    cases deleted with
    | true => exact absurd rfl h
    | false => exact Database.delete_eq_ok_false hdelete

end Store

end TypedRecords
