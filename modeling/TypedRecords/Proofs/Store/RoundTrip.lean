import TypedRecords.Proofs.Record.Restored
import TypedRecords.Proofs.Store.Preparing
import TypedRecords.Proofs.Store.Unread

/-! # Saving and loading again

A record that was created in a store can be loaded into another instance, with the values that it
had, exactly if no array in it has a gap.
-/

namespace TypedRecords

open TypedRecords.Graph (Leaves)

namespace Store

variable {d : Directory} {x : RecordRef} {S S' : Session}

/-! ### The document that was created -/

/-- A store to which a document was added. -/
def withDocument (s : Store) (c : ClassRef) (document : Document) : Store where
  __ := s
  database := s.database.put (s.collectionName c)
    { s.database.collection (s.collectionName c) with
      documents := s.database.documents (s.collectionName c) ++ [document] }

theorem saveRecord_create (hnew : S.graph.isNew x = true) {s : Selector} {result : Option RecordRef}
    (h : saveRecord d x s {} S = (.ok result, S')) :
    S.store.isRegistered x.cls = true ∧ S.store.database.available = true ∧
      ∃ p g, prepare d x s S.graph = (.ok p, g) ∧
        (S.store.database.collection (S.store.collectionName x.cls)).position? p.descriptor = none ∧
        (S.store.withDocument x.cls (Value.stripFields p.document)).Alike S'.store := by
  obtain ⟨hregistered, p, g, written, called, hprepare, hcall, -, hstore, hquiet⟩ :=
    saveRecord_eq_ok h
  have hwritten : written = true := by
    cases written with
    | true => rfl
    | false => cases hquiet rfl hnew
  subst hwritten
  obtain ⟨answer, hanswer, rfl | ⟨hfalse, -⟩⟩ := callFlag_eq_ok hcall
  · obtain ⟨hok, -, journal, hcalled⟩ := call_eq hanswer
    simp only [savingCall, hnew, if_true, Call.run, Call.run.answer] at hok hcalled
    rcases hcreate : S.store.database.create (S.store.collectionName x.cls) p.descriptor
      (Value.stripFields p.document) with ⟨outcome, after⟩
    rw [hcreate] at hok hcalled
    cases outcome with
    | error e => cases hok
    | ok b =>
      cases hok
      obtain ⟨hposition, rfl⟩ := Database.create_eq_ok_true hcreate
      exact ⟨hregistered, Database.available_of_create hcreate, p, g, hprepare, hposition,
        S.store.trace, journal, by rw [hstore, hcalled]; rfl⟩
  · cases hfalse

theorem stored?_withDocument {s : Store} {c : ClassRef} {descriptor : Object}
    {document : Document} (hdescriptor : descriptor ≠ [])
    (hnone : (s.database.collection (s.collectionName c)).position? descriptor = none)
    (hholds : Collection.holds document descriptor = true) :
    (s.withDocument c document).stored? c descriptor = some document := by
  have hcollection : (s.withDocument c document).database.collection
      ((s.withDocument c document).collectionName c) =
        { s.database.collection (s.collectionName c) with
          documents := s.database.documents (s.collectionName c) ++ [document] } :=
    Database.collection_put_self _ _ _
  have hempty : descriptor.isEmpty = false := by
    cases descriptor with
    | nil => exact absurd rfl hdescriptor
    | cons entry rest => rfl
  have hothers : (s.database.documents (s.collectionName c)).findIdx?
      (fun document => Collection.holds document descriptor) = none := by
    simp only [Collection.position?, hempty, Bool.false_eq_true, if_false] at hnone
    exact hnone
  have hposition : ({ s.database.collection (s.collectionName c) with
      documents := s.database.documents (s.collectionName c) ++ [document] } :
        Collection).position? descriptor =
      some (s.database.documents (s.collectionName c)).length := by
    simp only [Collection.position?, hempty, Bool.false_eq_true, if_false]
    rw [List.findIdx?_append, hothers]
    simp [List.findIdx?_cons, hholds]
  unfold stored?
  rw [Database.documents, hcollection, hposition]
  simp

/-! ### The instance to load into -/

theorem withIdentifiers_of_key (hd : d.Lawful) {c : ClassRef} {a : Attribute}
    (ha : a ∈ (d.definition c).identifiers) {v : Value} (hkey : v.IsKey)
    (hsanitized : a.type.sanitize v = v)
    (hcheck : a.type.check (d.site c a.name) v = .ok ()) (g : Graph) :
    ∃ y g', Record.withIdentifiers d c [(a.name, v)] g = (.ok y, g') ∧ y.cls = c ∧
      g.cells.size ≤ y.serial ∧ y.Bare g' ∧ g'.identifier? d y = some (a.name, v) := by
  have hattribute := (hd.definition c).attribute?_of_mem (Definition.mem_attributeList_of_identifier ha)
  have hnamed := Record.attributeNamed_of_some hattribute
  have hcell : (g.instantiate c false).2.cell? (.made g.cells.size c) = some { isNew := false } :=
    Graph.cell?_instantiate_self g c false
  have hset : Record.set d (.made g.cells.size c) a.name v (g.instantiate c false).2 =
      (.ok (), (g.instantiate c false).2.write (.made g.cells.size c) a.name (some ⟨v, .here⟩)) := by
    have hnamed : d.attributeNamed (RecordRef.made g.cells.size c).cls a.name = .ok a := hnamed
    unfold Record.set
    rw [Stateful.bind_of_ok (Record.ofExcept_of_ok hnamed _), hsanitized]
    exact Record.setFrom_of_check hattribute hcheck _
  refine ⟨.made g.cells.size c,
    (g.instantiate c false).2.write (.made g.cells.size c) a.name (some ⟨v, .here⟩), ?_, rfl,
    Nat.le_refl _, ?_, ?_⟩
  · have hmake : Record.instantiate c false g =
        (.ok (.made g.cells.size c), (g.instantiate c false).2) := rfl
    have hrole := Definition.isIdentifier_of_mem_identifiers ha
    unfold Record.withIdentifiers
    rw [Stateful.bind_of_ok hmake, List.forM]
    refine Stateful.bind_of_ok (a := ()) ?_
    refine (Stateful.bind_of_ok (a := ()) (t := (g.instantiate c false).2.write
      (.made g.cells.size c) a.name (some ⟨v, .here⟩)) ?_).trans rfl
    dsimp only
    rw [Stateful.bind_of_ok (Record.ofExcept_of_ok hnamed _), if_pos hrole]
    exact hset
  · refine ⟨rfl, ⟨_, Graph.cell?_write_self hcell a.name _, rfl⟩, ?_⟩
    intro name own hown
    by_cases hname : name = a.name
    · subst hname
      rw [Graph.own?_write_self hcell] at hown
      cases hown
      exact ⟨_, rfl, hkey⟩
    · rw [Graph.own?_write_of_name_ne hname, Graph.own?_instantiate_self] at hown
      cases hown
  · refine Record.identifier?_of_single rfl ⟨a, ha, rfl⟩ ?_ hkey.ne_undefined ?_
    · rw [Graph.value?_eq_some_iff]
      exact ⟨.here, Graph.own?_write_self hcell a.name _⟩
    · intro other hother
      rw [Graph.value?, Graph.own?_write_of_name_ne hother, Graph.own?_instantiate_self]
      rfl

/-! ### What is loaded -/

theorem eq_of_key {full : Prop} {registry : RegistryRef} {g : Graph} {v t : Value} (hv : v.IsKey)
    (h : Encodes full d registry g v t) : t = v := by
  rcases hv with ⟨s, rfl⟩ | ⟨n, rfl⟩ <;> cases h <;> rfl

/-- A record holds, up to equality, the first identifier of another one. -/
def Identifies (d : Directory) (g G : Graph) (r r' : RecordRef) : Prop :=
  ∃ name v w, g.identifier? d r = some (name, v) ∧ G.value? r' name = some w ∧ w.beq v = true

variable {registry : RegistryRef} {g : Graph} {y : RecordRef} {T T₁ T' : Session}
  {document : Document} {visited visited' : Visited} {lo : Nat} {classes : Nat → ClassRef}

/-- Loading what the attributes of a record refer to changes no record but these. -/
theorem Loads.keeps_restored {rs : List RecordRef} (h : Loads d rs T₁ T' visited visited')
    (hmade : ∀ r' ∈ rs, MadeFrom lo classes T₁.graph r') {v v' : Value}
    (hv : Restored d lo classes g T₁.graph v v') :
    Corresponds d (Identifies d g T'.graph) (lo ≤ ·.serial) .null g T'.graph v v' := by
  -- A record that is not among those that were loaded is as it was.
  have hkept : ∀ r', MadeFrom lo classes T₁.graph r' →
      ¬(r' ∈ rs ∧ (d.definition r'.cls).referenceable = true) →
      ∀ name, T'.graph.value? r' name = T₁.graph.value? r' name := by
    intro r' hr' hother name
    refine Graph.value?_congr (h.graph.own? hr'.2.1 ?_ name)
    intro r'' hr'' hreferenceable hserial
    have hsame : r'' = r' := by
      rw [(hmade r'' hr'').2.2, hr'.2.2, hserial]
    exact hother ⟨hsame ▸ hr'', hsame ▸ hreferenceable⟩
  refine Corresponds.keep hv ?_ ?_
  · rintro r r' ⟨hr', name, v, hidentifier, hequal, hidentifier'⟩
    by_cases hloaded : r' ∈ rs ∧ (d.definition r'.cls).referenceable = true
    · obtain ⟨w, hw, hwv⟩ := h.identifiers r' hloaded.1 hloaded.2 name v hidentifier'
      rw [seen?_made hr'.made] at hw
      refine ⟨name, v, w, hidentifier, hw, ?_⟩
      rcases hwv with rfl | hwv
      · exact hequal
      · exact hwv
    · refine ⟨name, v, v, hidentifier, ?_, hequal⟩
      rw [hkept r' hr' hloaded, ← seen?_made hr'.made]
      exact (Graph.identifier?_eq_some hidentifier').2.1
  · intro r' hr' hembedded
    refine ⟨hr'.1, hkept r' hr' ?_⟩
    rintro ⟨-, hreferenceable⟩
    rw [hembedded] at hreferenceable
    cases hreferenceable

/-- What a load has assigned that has found the document of another record. -/
theorem Found.restored (hd : d.Lawful) (hnamed : d.WellNamed) {trees : Object}
    (hfields : EncodesFields True d T.store.registry g x trees) (hcls : y.cls = x.cls)
    {cell : Cell} (hcell : T.graph.cell? y = some cell)
    (h : Found d y (Value.stripFields trees) T T₁ T' visited visited') :
    ∃ classes, (∀ r' ∈ T₁.graph.recordsUnder y ((d.attributes y.cls).map Attribute.name),
        MadeFrom T.graph.cells.size classes T₁.graph r') ∧
      ∀ a ∈ d.attributes x.cls, ∀ t, Fields.get? a.name trees = some t → t ≠ .undefined →
        ∃ v v', g.seen? x a.name = some v ∧ T₁.graph.value? y a.name = some v' ∧
          Restored d T.graph.cells.size classes g T₁.graph v v' := by
  obtain ⟨picked, g₁, happly⟩ := h.applied
  have hdocument : Document.Legible d T.store.registry False y.cls (Value.stripFields trees) := by
    rw [hcls]
    exact hfields.legible hd hnamed fun hfalse => hfalse.elim
  have hlegible := hdocument.of_same happly.distinct happly.same
  -- The value of the original for which a field was stored.
  have hstored : ∀ name t', Fields.get? name picked = some t' → name ≠ Tree.classTag →
      ∃ v, g.seen? x name = some v ∧ (g.seen? x name).getD .undefined = v ∧
        Record.Restores d T.store.registry g v t' := by
    intro name t' ht' hne
    rw [happly.same] at ht'
    obtain ⟨t, ht, hdefined, rfl⟩ := (Value.get?_stripFields_eq_some_iff hfields.distinct).1 ht'
    obtain ⟨a, v, -, hv, -, hencodes⟩ := hfields.field name t ht hne
    exact ⟨v, hv, by rw [hv]; rfl, hencodes.restores hd hnamed hdefined⟩
  have hrestores : ∀ entry ∈ picked, entry.1 ≠ Tree.classTag → Record.Restores d T.store.registry g
      ((g.seen? x entry.1).getD .undefined) entry.2 := by
    intro entry hentry hne
    obtain ⟨v, -, heq, hrestores⟩ :=
      hstored entry.1 entry.2 (Fields.get?_of_mem happly.distinct hentry) hne
    rw [heq]
    exact hrestores
  have hlt := Graph.lt_of_cell? hcell
  obtain ⟨classes, -, hassigned⟩ := Record.decodeAttributes_restored
    (fun name => (g.seen? x name).getD .undefined) (fun _ => x.cls) happly.distinct
    (Record.ne_newTag hlegible.accepts) hrestores (Nat.le_refl _) hcell hlt happly.assigned
  have hleaves : Leaves (T.graph.cells.size ≤ ·) g₁ T₁.graph := by
    refine happly.leaves.imp fun n hn hne => ?_
    omega
  have hvalues : ∀ a ∈ d.attributes x.cls, ∀ t, Fields.get? a.name trees = some t →
      t ≠ .undefined → ∃ v v', g.seen? x a.name = some v ∧ T₁.graph.value? y a.name = some v' ∧
        Restored d T.graph.cells.size classes g T₁.graph v v' := by
    intro a ha t ht hdefined
    have hread : Fields.get? a.name (Value.stripFields trees) = some t.strip :=
      (Value.get?_stripFields_eq_some_iff hfields.distinct).2 ⟨t, ht, hdefined, rfl⟩
    have hpicked : Fields.get? a.name picked = some t.strip := by rw [happly.same, hread]
    have hne := hnamed.ne_classTag x.cls a ha
    obtain ⟨v, hv, heq, -⟩ := hstored a.name _ hpicked hne
    obtain ⟨v', hv', hrestored⟩ := hassigned _ (Fields.mem_of_get? hpicked) hne
    dsimp only at hv' hrestored
    rw [heq] at hrestored
    refine ⟨v, v', hv, ?_, hrestored.keep (Nat.le_refl _) (fun _ _ => rfl) hleaves⟩
    rw [← hv']
    exact Graph.value?_congr (happly.held a (hcls ▸ ha) (Fields.mem_keys_iff.2 ⟨_, hread⟩))
  refine ⟨classes, ?_, hvalues⟩
  intro r' hr'
  obtain ⟨name, hname, v', hv', hmem⟩ := Graph.mem_recordsUnder.1 hr'
  obtain ⟨a, ha, rfl⟩ := List.mem_map.1 hname
  by_cases hkey : a.name ∈ Fields.keys (Value.stripFields trees)
  · obtain ⟨t', ht'⟩ := Fields.mem_keys_iff.1 hkey
    obtain ⟨t, ht, hdefined, -⟩ := (Value.get?_stripFields_eq_some_iff hfields.distinct).1 ht'
    obtain ⟨v, w, -, hw, hrestored⟩ := hvalues a (hcls ▸ ha) t ht hdefined
    rw [hv'] at hw
    cases hw
    rcases Corresponds.records hrestored rfl hmem with ⟨r, hr, -⟩ | hr
    · exact hr
    · exact hr
  · rw [Graph.value?, happly.missing a ha hkey, missingSlot] at hv'
    split at hv'
    · cases hv'
      cases hmem
    · cases hv'

/-! ### Round trips -/

theorem load_found_iff {P : Graph → Prop} :
    (∃ T', load d y .all true T = (.ok (some y), T') ∧ P T'.graph) ↔
      ∃ visited T', loadWithin d ((handles T.store.database).length + 2) y .all true [] T =
        (.ok (true, visited), T') ∧ P T'.graph := by
  constructor
  · rintro ⟨T', hload, hP⟩
    unfold load at hload
    obtain ⟨T₁, hrun, hgraph, -⟩ := tracing_eq hload
    rw [Stateful.bind_of_ok (loadSteps_eq T)] at hrun
    obtain ⟨⟨found, visited⟩, T₂, hwithin, hpure⟩ := Stateful.bind_eq_ok hrun
    cases found with
    | false => cases hpure
    | true =>
      cases hpure
      exact ⟨visited, T₁, hwithin, hgraph ▸ hP⟩
  · rintro ⟨visited, T', hwithin, hP⟩
    obtain ⟨T'', hload, hgraph⟩ := load_of_loadWithin (loadSteps_eq T) hwithin
    exact ⟨T'', hload, hgraph ▸ hP⟩

/-- What a load leaves in the attributes of a record, of which it has found what was stored of another
one. -/
theorem loadWithin_restores (hd : d.Lawful) (hnamed : d.WellNamed) (hT : T.store.Legible d False)
    {trees : Object} (hfields : EncodesFields True d T.store.registry g x trees)
    (hallows : ∀ a ∈ d.attributes x.cls, g.seen? x a.name = some .undefined →
      a.type.allowsUndefined = true)
    (hc : x.cls.base? = none) (hcls : y.cls = x.cls) (hy : y.Bare T.graph)
    {identifier : String × Value} (hidentifier : T.graph.identifier? d y = some identifier)
    (hstored : T.store.stored? x.cls [identifier] = some (Value.stripFields trees)) {steps : Nat}
    {found : Bool} (h : loadWithin d steps y .all true [] T = (.ok (found, visited'), T')) :
    found = true ∧ ∀ a ∈ d.attributes x.cls, ∀ v, g.seen? x a.name = some v →
      ∃ t, Fields.get? a.name trees = some t ∧ Encodes True d T.store.registry g v t ∧
        ∃ v', T'.graph.value? y a.name = some v' ∧ (v = .undefined → v' = .undefined) ∧
          (v ≠ .undefined → Corresponds d (Identifies d g T'.graph)
            (T.graph.cells.size ≤ ·.serial) .null g T'.graph v v') := by
  cases steps with
  | zero => cases h
  | succ steps =>
    obtain ⟨hregistered, identifier', hidentifier', houtcome⟩ := loadWithin_eq_ok hd hy h
    rw [hidentifier] at hidentifier'
    cases hidentifier'
    rw [← hcls] at hstored
    cases houtcome with
    | visited hvisited => cases hvisited
    | missing _ hnone _ _ =>
      rw [hstored] at hnone
      cases hnone
    | @found document T₁ _ _ _ hread happlied hstore hfollowed =>
      rw [hstored] at hread
      cases hread
      refine ⟨rfl, ?_⟩
      have hfound := found_of_run hd hnamed (loadsWithin hd hnamed steps) hy hT (hcls ▸ hc)
        hregistered hstored happlied hstore hfollowed
      obtain ⟨cell, hcell, -⟩ := hy.cell
      obtain ⟨classes, hmade, hrestored⟩ := hfound.restored hd hnamed hfields hcls hcell
      have hown := (hfound.leaves (Graph.lt_of_cell? hcell)).2
      intro a ha v hv
      obtain ⟨t, ht⟩ := Fields.mem_keys_iff.1 (hfields.complete trivial a ha v hv)
      obtain ⟨b, w, -, hw, -, hencodes⟩ := hfields.field a.name t ht (hnamed.ne_classTag x.cls a ha)
      rw [hv] at hw
      cases hw
      refine ⟨t, ht, hencodes, ?_⟩
      by_cases hdefined : t = .undefined
      · have hundefined : v = .undefined := by
          by_contra hne
          exact hencodes.ne_undefined hne hdefined
        obtain ⟨picked, g₁, happly⟩ := hfound.applied
        have hmissing : a.name ∉ Fields.keys (Value.stripFields trees) := by
          intro hmem
          obtain ⟨t', ht'⟩ := Fields.mem_keys_iff.1 hmem
          obtain ⟨t'', ht'', hne, -⟩ := (Value.get?_stripFields_eq_some_iff hfields.distinct).1 ht'
          rw [ht] at ht''
          cases ht''
          exact hne hdefined
        refine ⟨.undefined, ?_, fun _ => rfl, fun hne => absurd hundefined hne⟩
        rw [Graph.value?_congr (hown a.name), Graph.value?,
          happly.missing a (hcls ▸ ha) hmissing, missingSlot,
          if_pos (hallows a ha (hundefined ▸ hv))]
        rfl
      · obtain ⟨w, v', hw, hv', hcorresponds⟩ := hrestored a ha t ht hdefined
        rw [hv] at hw
        cases hw
        refine ⟨v', ?_, fun hundefined => absurd hundefined (hencodes.defined_of_defined hdefined),
          fun _ => hfound.loads.keeps_restored hmade hcorresponds⟩
        rw [Graph.value?_congr (hown a.name), hv']

/-- The attributes of a record correspond to those that another one has set: an undefined attribute is
undefined, arrays correspond item by item, embedded records are new, and references are to records
that hold the same identifier. -/
def Mirrors (d : Directory) (lo : Nat) (g G : Graph) (x y : RecordRef) : Prop :=
  ∀ a ∈ d.attributes x.cls, ∀ v, g.seen? x a.name = some v → ∃ v', G.value? y a.name = some v' ∧
    Corresponds d (Identifies d g G) (lo ≤ ·.serial) .undefined g G v v'

/-- A new instance with the identifiers of a record is loaded with the values of the record. -/
def RoundTrips (d : Directory) (g : Graph) (x : RecordRef) (identifiers : Object) (T : Session) :
    Prop :=
  ∃ y T₀ T', onRecords (Record.withIdentifiers d x.cls identifiers) T = (.ok y, T₀) ∧
    load d y .all true T₀ = (.ok (some y), T') ∧ Mirrors d T.graph.cells.size g T'.graph x y

/-- What is stored of a record is loaded as it was exactly if it has no gaps. -/
theorem roundTrips_iff_gapless (hd : d.Lawful) (hnamed : d.WellNamed) {trees : Object}
    (hT : ∀ checked, (checked → (Value.object trees).Gapless) → T.store.Legible d checked)
    (havailable : T.store.database.available = true)
    (hfields : EncodesFields True d T.store.registry g x trees)
    (hallows : ∀ a ∈ d.attributes x.cls, g.seen? x a.name = some .undefined →
      a.type.allowsUndefined = true)
    (hc : x.cls.base? = none) (hregistered : T.store.isRegistered x.cls = true) {a : Attribute}
    (ha : a ∈ (d.definition x.cls).identifiers) {v : Value} (hkey : v.IsKey)
    (hsanitized : a.type.sanitize v = v) (hcheck : a.type.check (d.site x.cls a.name) v = .ok ())
    (hstored : T.store.stored? x.cls [(a.name, v)] = some (Value.stripFields trees)) :
    RoundTrips d g x [(a.name, v)] T ↔ (Value.object trees).Gapless := by
  obtain ⟨y, g₀, hwith, hcls, hfresh, hbare, hidentifier⟩ :=
    withIdentifiers_of_key hd ha hkey hsanitized hcheck T.graph
  have hstart : onRecords (Record.withIdentifiers d x.cls [(a.name, v)]) T =
      (.ok y, { T with graph := g₀ }) := onRecords_of_ok hwith
  have hsize : T.graph.cells.size ≤ g₀.cells.size := by
    obtain ⟨cell, hcell, -⟩ := hbare.cell
    have hlt := Graph.lt_of_cell? hcell
    omega
  have hrestores : ∀ {found : Bool} {visited : Visited} {steps : Nat} {T' : Session},
      loadWithin d steps y .all true [] { T with graph := g₀ } = (.ok (found, visited), T') → _ :=
    fun h => loadWithin_restores (T := { T with graph := g₀ }) hd hnamed
      (hT False fun hfalse => hfalse.elim) hfields hallows hc hcls hbare hidentifier hstored h
  constructor
  · rintro ⟨y', T₀, T', hwith', hload, hmirrors⟩
    rw [hstart] at hwith'
    cases hwith'
    obtain ⟨visited, T₁, hwithin, hmirrors⟩ :=
      (load_found_iff (P := fun G => Mirrors d T.graph.cells.size g G x y)).1 ⟨T', hload, hmirrors⟩
    obtain ⟨-, hvalues⟩ := hrestores hwithin
    refine Value.gapless_of_tagged hfields.distinct hfields.tag fun name t hread hclass =>
      .of_defined fun hdefined => ?_
    obtain ⟨b, w, hb, hw, -, hencodes⟩ := hfields.field name t hread hclass
    have hattribute := Definition.mem_of_attribute? hb
    obtain rfl := (hd.definition x.cls).name_of_attribute? hb
    -- What was loaded stands for the value with null for each gap, and with undefined.
    obtain ⟨t', -, -, w', hw', -, hnull⟩ := hvalues b hattribute w hw
    obtain ⟨w'', hw'', hexact⟩ := hmirrors b hattribute w hw
    rw [hw'] at hw''
    cases hw''
    exact hencodes.gapless_of_exact hd (hnull (hencodes.defined_of_defined hdefined)) hexact
  · intro hgapless
    -- Without gaps all documents can be read, the new one included, so the load ends.
    have hlegible : ({ T with graph := g₀ } : Session).store.Legible d True :=
      hT True fun _ => hgapless
    have hunread := unread_le T.store.database []
    obtain ⟨⟨found, visited⟩, T', hwithin⟩ := ends hd hnamed
      ((handles T.store.database).length + 2) y true [] { T with graph := g₀ } (a.name, v) hlegible
      havailable hbare (hcls ▸ hc) (hcls ▸ hregistered) hidentifier
      (fun _ => by rw [hcls, hstored]; simp) (by dsimp only; omega)
    obtain ⟨rfl, hvalues⟩ := hrestores hwithin
    have hmirrors : Mirrors d T.graph.cells.size g T'.graph x y := by
      intro b hb w hw
      obtain ⟨t, ht, hencodes, w', hw', hundefined, hnull⟩ := hvalues b hb w hw
      refine ⟨w', hw', ?_⟩
      by_cases hdefined : w = .undefined
      · rw [hundefined hdefined, hdefined]
        exact .gap
      · have hexact := hencodes.exact_of_gapless hnamed (hgapless.field ht) hdefined (hnull hdefined)
        exact hexact.keep (fun _ _ h => h) fun r' hr' _ =>
          ⟨Nat.le_trans hsize hr', fun _ => rfl⟩
    obtain ⟨T'', hload, hmirrors⟩ :=
      (load_found_iff (P := fun G => Mirrors d T.graph.cells.size g G x y)).2
        ⟨visited, T', hwithin, hmirrors⟩
    exact ⟨y, _, T'', hstart, hload, hmirrors⟩

/-- What the save of a new record has written: a document for the record as it was, which is the one
that is found by its identifier. -/
structure Created (d : Directory) (s s' : Store) (g : Graph) (x : RecordRef)
    (identifier : String × Value) (trees : Object) : Prop where
  registered : s.isRegistered x.cls = true
  available : s.database.available = true
  fields : EncodesFields True d s.registry g x trees
  allows : ∀ a ∈ d.attributes x.cls, g.seen? x a.name = some .undefined →
    a.type.allowsUndefined = true
  stored : (s.withDocument x.cls (Value.stripFields trees)).stored? x.cls [identifier] =
    some (Value.stripFields trees)
  written : (s.withDocument x.cls (Value.stripFields trees)).Alike s'

theorem identified (hd : d.Lawful) (hx : Record.Storable d registry g x) {name : String} {v : Value}
    (h : g.identifier? d x = some (name, v)) :
    ∃ a ∈ (d.definition x.cls).identifiers, a.name = name ∧ g.seen? x name = some v ∧ v.IsKey ∧
      a.type.check (d.site x.cls name) v = .ok () := by
  obtain ⟨⟨a, ha, rfl⟩, hv, hdefined⟩ := Graph.identifier?_eq_some h
  have hmem := Definition.mem_attributeList_of_identifier ha
  have hcheck := (hx.accepted a hmem v hv).resolve_left hdefined
  have hcanIdentify := (hd.definition x.cls).identifies a hmem
    (Definition.isIdentifier_of_mem_identifiers ha)
  exact ⟨a, ha, rfl, hv, ValueType.isKey_of_check hcanIdentify hcheck hdefined, hcheck⟩

/-- A document holds the identifier of the record that it is for. -/
theorem holds_identifier (hd : d.Lawful) (hnamed : d.WellNamed)
    (hx : Record.Storable d registry g x) {trees : Object}
    (hfields : EncodesFields True d registry g x trees) {name : String} {v : Value}
    (hidentifier : g.identifier? d x = some (name, v)) :
    Collection.holds (Value.stripFields trees) [(name, v)] = true := by
  obtain ⟨a, ha, rfl, hv, hkey, -⟩ := identified hd hx hidentifier
  have hmem := Definition.mem_attributeList_of_identifier ha
  obtain ⟨t, ht⟩ := Fields.mem_keys_iff.1 (hfields.complete trivial a hmem v hv)
  obtain ⟨b, w, -, hw, -, hencodes⟩ := hfields.field a.name t ht (hnamed.ne_classTag x.cls a hmem)
  rw [hv] at hw
  cases hw
  obtain rfl := eq_of_key hkey hencodes
  have hstripped : Fields.get? a.name (Value.stripFields trees) = some t :=
    (Value.get?_stripFields_eq_some_iff hfields.distinct).2
      ⟨t, ht, hkey.ne_undefined, (Value.strip_of_isLeaf (Value.isLeaf_of_isKey hkey)).symm⟩
  simp only [Collection.holds, List.all_cons, List.all_nil, Bool.and_true, hstripped]
  exact hx.keyed a ha t hv

theorem save_created (hd : d.Lawful) (hnamed : d.WellNamed) {known : Set RecordRef}
    (hsound : S.graph.Sound known) (hknown : x ∈ known)
    (hx : Record.Storable d S.store.registry S.graph x) (hnew : S.graph.isNew x = true)
    {result : Option RecordRef} (h : save d x .all {} S = (.ok result, S')) :
    ∃ identifier trees, S.graph.identifier? d x = some identifier ∧
      Created d S.store S'.store S.graph x identifier trees := by
  unfold save at h
  obtain ⟨S₁, hrun, -, trace, htrace⟩ := tracing_eq h
  obtain ⟨hregistered, havailable, p, g, hprepare, hposition, hstore⟩ := saveRecord_create hnew hrun
  obtain ⟨⟨⟨name, v⟩, hidentifier, hdescriptor⟩, hfields, hallows⟩ :=
    prepare_of hd hnamed hsound hknown hx hprepare
  rw [hdescriptor] at hposition
  have hfields : EncodesFields True d S.store.registry S.graph x p.document := by
    simpa using hfields
  have hholds := holds_identifier hd hnamed hx hfields hidentifier
  exact ⟨(name, v), p.document, hidentifier, hregistered, havailable, hfields, hallows rfl,
    stored?_withDocument (List.cons_ne_nil _ _) hposition hholds,
    hstore.trans ⟨trace, S₁.store.journal, htrace⟩⟩

/-- A record that was created in a store of which everything can be read makes the round trip exactly
if its document has no gaps. -/
theorem Created.roundTrips_iff (hd : d.Lawful) (hnamed : d.WellNamed) (hS : S.store.Legible d True)
    (hx : Record.Storable d S.store.registry g x) (hc : x.cls.base? = none)
    (hsanitized : ∀ a ∈ (d.definition x.cls).identifiers, ∀ v,
      g.seen? x a.name = some v → a.type.sanitize v = v)
    {identifier : String × Value} {trees : Object} (hidentifier : g.identifier? d x = some identifier)
    (h : Created d S.store T.store g x identifier trees) :
    RoundTrips d g x [identifier] T ↔ (Value.object trees).Gapless := by
  obtain ⟨name, v⟩ := identifier
  obtain ⟨a, ha, rfl, hv, hkey, hcheck⟩ := identified hd hx hidentifier
  obtain ⟨trace, journal, heq⟩ := h.written
  have hlegible : ∀ checked : Prop, (checked → (Value.object trees).Gapless) →
      T.store.Legible d checked := by
    intro checked hgapless
    have hbefore : S.store.Legible d checked := hS.imp fun _ => trivial
    have hafter : (S.store.withDocument x.cls (Value.stripFields trees)).Legible d checked := by
      refine hbefore.put hc h.registered fun document hdocument => ?_
      rcases List.mem_append.1 hdocument with hdocument | hdocument
      · exact hbefore.documents x.cls hc h.registered document hdocument
      · rw [List.mem_singleton.1 hdocument]
        exact h.fields.legible hd hnamed hgapless
    exact hafter.alike h.written
  have hregistry : T.store.registry = S.store.registry := by rw [heq]; rfl
  have havailable : T.store.database.available = true := by rw [heq]; exact h.available
  have hregistered : T.store.isRegistered x.cls = true := by rw [heq]; exact h.registered
  have hstored : T.store.stored? x.cls [(a.name, v)] = some (Value.stripFields trees) := by
    rw [heq]
    exact h.stored
  exact roundTrips_iff_gapless hd hnamed hlegible havailable (hregistry ▸ h.fields) h.allows hc
    hregistered ha hkey (hsanitized a ha v hv) hcheck hstored

end Store

end TypedRecords
