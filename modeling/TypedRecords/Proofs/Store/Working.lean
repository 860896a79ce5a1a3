import TypedRecords.Proofs.Database.Calls
import TypedRecords.Proofs.Document.Parts
import TypedRecords.Proofs.Record.Writing
import TypedRecords.Proofs.Store.Saving

/-! # Operations at work

What the operations of a store keep of the records and of the store together: what reading and writing
keeps of the records, and what calls to the database keep of the store. The records that a document
brings, and those that are found, are known afterwards.
-/

namespace TypedRecords

open Stateful (KeepsIn)

namespace Store

/-- The calls of a kind, whatever they answer, keep what holds of a store, and so does tracing. -/
structure AllowsCalls (allowed : Call → Prop) (J : Set RecordRef → Store → Prop) : Prop where
  call : ∀ known s collection c journal, allowed c → J known s →
    J known { s with database := (c.run collection s.database).2, journal }
  trace : ∀ known s trace, J known s → J known { s with trace }
  mono : ∀ known after s, known ⊆ after → J known s → J after s

/-- Documents can be read. They hold no records but known ones, and registries find classes of which
records may be made. -/
structure AllowsLoading (d : Directory) (C : ClassRef → Prop) (allowed : Call → Prop)
    (J : Set RecordRef → Store → Prop) : Prop extends AllowsCalls allowed J where
  read : ∀ descriptor projection, allowed (.read descriptor projection)
  within : ∀ known s name, J known s → ∀ document ∈ s.database.documents name,
    (Value.object document).Within known
  found : ∀ registry name c, d.find? registry name = some c → C c

/-- Known records and a store of which something holds. -/
def Holding (I : Set RecordRef → Graph → Prop) (J : Set RecordRef → Store → Prop)
    (known : Set RecordRef) (S : Session) : Prop :=
  I known S.graph ∧ J known S.store

section

variable {d : Directory} {A : RecordRef → String → Value → Prop} {C : ClassRef → Prop}
  {allowed : Call → Prop} {I : Set RecordRef → Graph → Prop} {J : Set RecordRef → Store → Prop}
  {known : Set RecordRef} {α : Type}

theorem keepsIn_loadSteps : KeepsIn (Holding I J) known loadSteps fun _ _ => True :=
  KeepsIn.get.bind fun _ _ _ _ => .pure fun _ _ => trivial

theorem keepsIn_check (x : Except Error α) :
    KeepsIn (Holding I J) known (check x) fun _ a => x = .ok a := by
  cases x with
  | error e => exact .throw e
  | ok a => exact .pure fun _ _ => rfl

theorem keepsIn_documentOf (hI : AllowsReading I) {r : RecordRef} (hr : r ∈ known) (s : Selector) :
    KeepsIn I known (documentOf d r s) fun _ _ => True := by
  refine (hI.encode .store s (Value.within_record.2 hr)).bind fun v _ _ _ => ?_
  split
  · exact .pure fun _ _ => trivial
  · exact .throw _

/-- What is worked out before a record is written is read. -/
theorem keepsIn_prepare (hI : AllowsReading I) {r : RecordRef} (hr : r ∈ known) (s : Selector) :
    KeepsIn I known (prepare d r s) fun _ _ => True := by
  refine (hI.resolve _ hr _).bind fun selector after₁ h₁ _ =>
    (hI.validate (h₁ hr) selector).bind fun _ after₂ h₂ _ =>
      (hI.descriptor (h₂ (h₁ hr))).bind fun descriptor after₃ h₃ _ => ?_
  exact (keepsIn_documentOf hI (h₃ (h₂ (h₁ hr))) selector).bind fun _ _ _ _ => .pure fun _ _ => trivial

section

variable (hJ : AllowsCalls allowed J)

include hJ

theorem keepsIn_onRecords {action : Action α} {Q : Set RecordRef → α → Prop}
    (h : KeepsIn I known action Q) : KeepsIn (Holding I J) known (onRecords action) Q := by
  intro before hknown S hS
  obtain ⟨after, hafter, hg, hq⟩ := h before hknown S.graph hS.1
  exact ⟨after, hafter, ⟨hg, hJ.mono before after S.store hafter hS.2⟩, hq⟩

theorem keepsIn_call {c : Call} (hc : allowed c) (collection : String) :
    KeepsIn (Holding I J) known (call collection c) fun _ _ => True :=
  fun before _ S hS => ⟨before, subset_rfl,
    ⟨hS.1, hJ.call before S.store collection c _ hc hS.2⟩, fun _ _ => trivial⟩

theorem keepsIn_callFlag {c : Call} (hc : allowed c) (collection : String) :
    KeepsIn (Holding I J) known (callFlag collection c) fun _ _ => True := by
  refine (keepsIn_call hJ hc collection).bind fun answer _ _ _ => ?_
  split <;> exact .pure fun _ _ => trivial

theorem keepsIn_tracing {operation : String} {parameters : List Value} {toValue : α → Value}
    {run : StoreAction α} {Q : Set RecordRef → α → Prop} (h : KeepsIn (Holding I J) known run Q) :
    KeepsIn (Holding I J) known (tracing operation parameters toValue run) Q := by
  intro before hknown S hS
  obtain ⟨after, hafter, hT, hq⟩ := h before hknown S hS
  rcases htracing : tracing operation parameters toValue run S with ⟨result, T⟩
  obtain ⟨T₁, hrun, hgraph, trace, hstore⟩ := tracing_eq htracing
  rw [hrun] at hT hq
  refine ⟨after, hafter, ?_, hq⟩
  show I after T.graph ∧ J after T.store
  rw [hgraph, hstore]
  exact ⟨hT.1, hJ.trace after T₁.store trace hT.2⟩

end

/-! ### Loading -/

/-- A document that is read is part of one that was stored. -/
theorem keepsIn_callDocument {descriptor : Object} {projection : Option Projection}
    (hJ : AllowsLoading d C allowed J) (collection : String) :
    KeepsIn (Holding I J) known (callDocument collection (.read descriptor projection))
      fun after found => ∀ document, found = some document → (Value.object document).Within after := by
  have hcall : KeepsIn (Holding I J) known (call collection (.read descriptor projection))
      fun after answer => ∀ document, answer = .document (some document) →
        (Value.object document).Within after := by
    refine fun before _ S hS => ⟨before, subset_rfl,
      ⟨hS.1, hJ.call before S.store collection _ _ (hJ.read _ _) hS.2⟩, ?_⟩
    intro answer hanswer document hdocument
    obtain ⟨stored, hstored, rfl⟩ := Call.document_of_run_read (hanswer.trans (congrArg _ hdocument))
    exact (Value.partOf_project _ projection).within (hJ.within before S.store collection hS.2 stored hstored)
  refine hcall.bind fun answer _ _ hread => ?_
  split
  · exact .pure fun after hafter document hdocument =>
      (hread document (congrArg Answer.document hdocument)).mono hafter
  · exact .pure fun _ _ document hdocument => by cases hdocument

/-- Reads the document of a descriptor into a record; answers what was read of it, if there is one. -/
def readInto (d : Directory) (collection : String) (r : RecordRef) (asked : Selector)
    (descriptor : Object) : StoreAction (Option Selector) := do
  let s ← onRecords (readSelector d r asked)
  match ← callDocument collection (.read descriptor (Projection.ofSelector? s)) with
  | none => pure none
  | some document => do
    onRecords (applyDocument d (← get).store.registry r s document)
    pure (some s)

theorem loadWithin_succ (steps : Nat) (r : RecordRef) (asked : Selector) (throwIfMissing : Bool)
    (visited : Visited) :
    loadWithin d (steps + 1) r asked throwIfMissing visited = (do
      check ((← get).store.requireRegistered r.cls)
      let descriptor ← onRecords (Record.descriptor d r)
      let collection := (← get).store.collectionName r.cls
      if wasVisited visited collection descriptor then pure (true, visited)
      else
        let visited := visited ++ [(collection, descriptor)]
        match ← readInto d collection r asked descriptor with
        | none =>
          if throwIfMissing then
            throw (.store (.loadMissing r.className (Value.object descriptor).text))
          else pure (false, visited)
        | some s => do
          let visited ← s.names.foldlM (fun visited name => do
            match ← onRecords (Record.lift (r.value? name)) with
            | none => pure visited
            | some v =>
              let sub := s.get name
              let load (inner : RecordRef) (visited : Visited) : StoreAction Visited := do
                pure (← loadWithin d steps inner sub false visited).2
              followRecords d load sub v.records visited) visited
          pure (true, visited)) := by
  rw [loadWithin]
  simp only [readInto, bind_assoc]
  refine bind_congr fun T => bind_congr fun _ => bind_congr fun descriptor => bind_congr fun T' => ?_
  split
  · rfl
  · refine bind_congr fun s => bind_congr fun found => ?_
    cases found with
    | none => rw [pure_bind]
    | some document =>
      dsimp only
      rw [bind_assoc]
      refine bind_congr fun T'' => ?_
      rw [bind_assoc]
      exact bind_congr fun _ => (pure_bind _ _).symm

section

variable (hI : AllowsReading I)

include hI

theorem keepsIn_readSelector {r : RecordRef} (hr : r ∈ known) (s : Selector) :
    KeepsIn I known (readSelector d r s) fun _ _ => True :=
  (hI.resolve _ hr _).bind fun _ _ _ _ => .pure fun _ _ => trivial

theorem keepsIn_hasIdentifiers {r : RecordRef} (hr : r ∈ known) :
    KeepsIn I known (Record.hasIdentifiers d r) fun _ _ => True := by
  intro before hknown g hg
  obtain ⟨after, hafter, hg', -⟩ := hI.descriptor (d := d) hr before hknown g hg
  refine ⟨after, hafter, ?_, fun _ _ => trivial⟩
  rcases hrun : Record.descriptor d r g with ⟨result, g'⟩
  rw [hrun] at hg'
  unfold Record.hasIdentifiers
  rw [hrun]
  cases result <;> exact hg'

theorem keepsIn_mustFollow {r : RecordRef} (hr : r ∈ known) (store : Store) (sub : Selector) :
    KeepsIn I known (mustFollow d store sub r) fun _ _ => True := by
  unfold mustFollow
  split
  · exact .pure fun _ _ => trivial
  · refine (keepsIn_hasIdentifiers hI hr).bind fun _ _ _ _ => ?_
    split <;> exact .pure fun _ _ => trivial

variable (hJ : AllowsCalls allowed J)

include hJ

theorem keepsIn_followRecords {load : RecordRef → Visited → StoreAction Visited}
    (hload : ∀ known r visited, r ∈ known →
      KeepsIn (Holding I J) known (load r visited) fun _ _ => True)
    (sub : Selector) {rs : List RecordRef} (hrs : ∀ r ∈ rs, r ∈ known) (visited : Visited) :
    KeepsIn (Holding I J) known (followRecords d load sub rs visited) fun _ _ => True := by
  induction rs generalizing visited known with
  | nil => exact .pure fun _ _ => trivial
  | cons r rest ih =>
    obtain ⟨hr, hrest⟩ := List.forall_mem_cons.1 hrs
    rw [followRecords]
    refine KeepsIn.get.bind fun T after₁ h₁ _ => ?_
    refine (keepsIn_onRecords hJ (keepsIn_mustFollow hI (h₁ hr) T.store sub)).bind
      fun follow after₂ h₂ _ => ?_
    have hlater : ∀ after, after₂ ⊆ after → ∀ visited, KeepsIn (Holding I J) after
        (followRecords d load sub rest visited) fun _ _ => True :=
      fun after hafter => ih fun r hr => hafter (h₂ (h₁ (hrest r hr)))
    dsimp only
    split
    · exact (hload after₂ r visited (h₂ (h₁ hr))).bind fun visited after hafter _ =>
        hlater after hafter visited
    · exact hlater after₂ subset_rfl visited

/-- A load keeps what describing records, reading their documents into them and reading records
keeps. -/
theorem keepsIn_loadWithin_of {D : RecordRef → Object → Prop}
    (hdescribed : ∀ known r, r ∈ known →
      KeepsIn I known (Record.descriptor d r) fun _ descriptor => D r descriptor)
    (hread : ∀ known s s' r asked descriptor, J known s → J known s' →
      s.isRegistered r.cls = true → r ∈ known → D r descriptor →
        KeepsIn (Holding I J) known (readInto d (s'.collectionName r.cls) r asked descriptor)
          fun _ _ => True)
    (steps : Nat) {r : RecordRef} (hr : r ∈ known) (s : Selector) (throwIfMissing : Bool)
    (visited : Visited) :
    KeepsIn (Holding I J) known (loadWithin d steps r s throwIfMissing visited) fun _ _ => True := by
  induction steps generalizing r s throwIfMissing visited known with
  | zero => exact .throw _
  | succ steps ih =>
    rw [loadWithin_succ]
    refine KeepsIn.getting.bind fun T after₁ h₁ hT =>
      (keepsIn_check _).bind fun _ after₂ h₂ hregistered => ?_
    have hr₂ := h₂ (h₁ hr)
    refine (keepsIn_onRecords hJ (hdescribed after₂ r hr₂)).bind fun descriptor after₃ h₃ hD =>
      KeepsIn.getting.bind fun T' after₄ h₄ hT' => ?_
    have hstore : J after₄ T.store := hJ.mono after₁ after₄ T.store (h₂.trans (h₃.trans h₄)) hT.2
    have hr₄ := h₄ (h₃ hr₂)
    dsimp only
    split
    · exact .pure fun _ _ => trivial
    · refine (hread after₄ T.store T'.store r s descriptor hstore hT'.2
        (requireRegistered_eq_ok hregistered) hr₄ hD).bind fun found after₅ h₅ _ => ?_
      have hr₅ := h₅ hr₄
      split
      · split
        · exact .throw _
        · exact .pure fun _ _ => trivial
      · next s =>
        refine KeepsIn.bind (Q := fun _ _ => True) (.foldlM
          (fun name _ visited after₆ h₆ _ => ?_) (fun _ _ _ _ _ => trivial) trivial)
          fun visited _ _ _ => .pure fun _ _ => trivial
        refine (keepsIn_onRecords hJ (hI.value (h₆ hr₅) name)).bind fun v last hlast hv => ?_
        split
        · exact .pure fun _ _ => trivial
        · next v =>
          refine keepsIn_followRecords hI hJ (fun known inner visited hinner => ?_) _ (hv v rfl) _
          exact (ih hinner _ false visited).bind fun _ _ _ _ => .pure fun _ _ => trivial

end

section

variable (hI : AllowsWriting d A C I)

include hI

theorem keepsIn_assignMissing {r : RecordRef} (hr : r ∈ known) (name : String) :
    KeepsIn I known (assignMissing d r name) fun _ _ => True := by
  refine (keepsIn_ofExcept _).bind fun a after hafter _ => ?_
  split
  · exact hI.keeps_setFrom (hafter hr) .store name fun r hr => by cases hr
  · exact hI.keeps_unset (hafter hr) name

theorem keepsIn_applyDocument {registry : RegistryRef}
    (hC : ∀ name c, d.find? registry name = some c → C c) {r : RecordRef} (hr : r ∈ known)
    (s : Selector) {document : Document} (hdocument : (Value.object document).Within known) :
    KeepsIn I known (applyDocument d registry r s document) fun _ _ => True := by
  have hpicked := (Value.partOf_pick [Tree.classTag] s _).within hdocument
  unfold applyDocument
  split
  · next picked hpick =>
    rw [hpick] at hpicked
    refine (hI.keeps_decodeInto hC .store hr hpicked).bind fun _ after₁ h₁ _ => ?_
    refine KeepsIn.bind (Q := fun _ _ => True)
      (.forM fun name _ => keepsIn_assignMissing hI (h₁ hr) name) fun _ after₂ h₂ _ => ?_
    exact hI.keeps_mark (h₂ (h₁ hr)) false
  · exact .throw _

variable (hJ : AllowsCalls allowed J)

include hJ

/-! ### Deleting -/

theorem keepsIn_delete (hdelete : ∀ descriptor, allowed (.delete descriptor)) {r : RecordRef}
    (hr : r ∈ known) (throwIfMissing : Bool) :
    KeepsIn (Holding I J) known (delete d r throwIfMissing) fun _ _ => True := by
  refine keepsIn_tracing hJ (KeepsIn.get.bind fun T after₁ h₁ _ =>
    (keepsIn_check _).bind fun _ after₂ h₂ _ => ?_)
  have hr₂ := h₂ (h₁ hr)
  refine (keepsIn_onRecords hJ (hI.toAllowsReading.descriptor hr₂)).bind
    fun descriptor after₃ h₃ _ => KeepsIn.get.bind fun T after₄ h₄ _ => ?_
  refine (keepsIn_callFlag hJ (hdelete _) _).bind fun deleted after₅ h₅ _ => ?_
  split
  · exact (keepsIn_onRecords hJ (hI.keeps_mark (h₅ (h₄ (h₃ hr₂))) true)).bind
      fun _ _ _ _ => .pure fun _ _ => trivial
  · split
    · exact .throw _
    · exact .pure fun _ _ => trivial

/-! ### Counting -/

theorem keepsIn_compileQuery {query : Value} (hquery : query.Within known) :
    KeepsIn (Holding I J) known (compileQuery d query) fun _ _ => True := by
  have hencode : KeepsIn I known (Record.encode d .store .all query) fun _ _ => True :=
    hI.toAllowsReading.encode .store .all hquery
  exact (keepsIn_onRecords hJ hencode).bind fun _ _ _ _ =>
    (keepsIn_check _).imp fun _ _ _ _ => trivial

theorem keepsIn_count (hcount : ∀ es, allowed (.count es)) (c : ClassRef) {query : Value}
    (hquery : query.Within known) :
    KeepsIn (Holding I J) known (count d c query) fun _ _ => True := by
  refine keepsIn_tracing hJ (KeepsIn.get.bind fun T after₁ h₁ _ =>
    (keepsIn_check _).bind fun _ after₂ h₂ _ => ?_)
  refine (keepsIn_compileQuery hI hJ (hquery.mono (h₁.trans h₂))).bind fun es _ _ _ =>
    KeepsIn.get.bind fun T _ _ _ => (keepsIn_call hJ (hcount es) _).bind fun answer _ _ _ => ?_
  split <;> exact .pure fun _ _ => trivial

/-! ### Migrating -/

omit hI in
theorem keepsIn_migrate (hmigrate : ∀ indexes silent, allowed (.migrate indexes silent)) :
    KeepsIn (Holding I J) known (migrate d) fun _ _ => True := by
  refine keepsIn_tracing hJ (KeepsIn.get.bind fun T _ _ _ => ?_)
  refine (KeepsIn.mapM (P := fun _ _ => True) (fun c _ => ?_) fun _ _ _ _ _ => trivial).imp
    fun _ _ _ _ => trivial
  refine (keepsIn_check _).bind fun indexes _ _ _ => KeepsIn.get.bind fun T _ _ _ =>
    (keepsIn_call hJ (hmigrate _ _) _).bind fun answer _ _ _ => ?_
  split <;> exact .pure fun _ _ => trivial

/-! ### Saving -/

omit hI in
theorem keepsIn_callSaving {c : Call} (hc : allowed c) (cls : ClassRef) (collection : String) :
    KeepsIn (Holding I J) known (callSaving cls collection c) fun _ _ => True := by
  have hcall : KeepsIn (Holding I J) known (callFlag collection c) fun _ _ => True :=
    keepsIn_callFlag hJ hc collection
  intro before hknown S hS
  obtain ⟨after, hafter, hT, -⟩ := hcall before hknown S hS
  exact ⟨after, hafter, callSaving_snd cls collection c S ▸ hT, fun _ _ => trivial⟩

theorem keepsIn_save (hcreate : ∀ descriptor document, allowed (.create descriptor document))
    (hupdate : ∀ descriptor patch, allowed (.update descriptor patch)) {r : RecordRef}
    (hr : r ∈ known) (s : Selector) (expected : Expectation) :
    KeepsIn (Holding I J) known (save d r s expected) fun _ _ => True := by
  refine keepsIn_tracing hJ fun before hknown S hS => ?_
  have hcall : ∀ p, allowed (savingCall (S.graph.isNew r) p) := by
    intro p
    unfold savingCall
    split
    · exact hcreate _ _
    · exact hupdate _ _
  have hprepare : ∀ {result g}, prepare d r s S.graph = (result, g) →
      ∃ after, before ⊆ after ∧ Holding I J after { S with graph := g } := by
    intro result g hrun
    obtain ⟨after, hafter, hg, -⟩ := (keepsIn_prepare hI.toAllowsReading hr s).of_run hknown hS.1 hrun
    exact ⟨after, hafter, hg, hJ.mono before after S.store hafter hS.2⟩
  have hcalled : ∀ {p g called T}, prepare d r s S.graph = (.ok p, g) →
      callSaving r.cls (S.store.collectionName r.cls) (savingCall (S.graph.isNew r) p)
        { S with graph := g } = (called, T) → ∃ after, before ⊆ after ∧ Holding I J after T := by
    intro p g called T hrun hcallrun
    obtain ⟨after, hafter, hheld⟩ := hprepare hrun
    obtain ⟨last, hlast, hT, -⟩ :=
      (keepsIn_callSaving hJ (hcall p) r.cls _).of_run subset_rfl hheld hcallrun
    exact ⟨last, hafter.trans hlast, hT⟩
  have hrun := saveRecord_runs d r s expected S
  suffices h : ∃ after, before ⊆ after ∧ Holding I J after (saveRecord d r s expected S).2 by
    obtain ⟨after, hafter, hT⟩ := h
    exact ⟨after, hafter, hT, fun _ _ => trivial⟩
  generalize (saveRecord d r s expected S).1 = result, (saveRecord d r s expected S).2 = T at hrun ⊢
  cases hrun with
  | refused e => exact ⟨before, subset_rfl, hS⟩
  | unprepared prepared => exact hprepare prepared
  | failed _ prepared call => exact hcalled prepared call
  | unwritten _ prepared call => exact hcalled prepared call
  | written _ prepared call marked =>
    obtain ⟨after, hafter, hheld⟩ := hcalled prepared call
    have hr' := hafter (hknown hr)
    obtain ⟨last, hlast, hT, -⟩ := ((keepsIn_onRecords hJ (hI.keeps_mark hr' false)).bind
      fun _ _ h₁ _ => (keepsIn_onRecords hJ (hI.keeps_setSources .store (h₁ hr') _)).bind
        fun _ _ _ _ => .pure (Q := fun _ _ => True) fun _ _ => trivial).of_run subset_rfl hheld marked
    exact ⟨last, hafter.trans hlast, hT⟩

end

section

variable (hI : AllowsWriting d A C I) (hJ : AllowsLoading d C allowed J)

include hI hJ

theorem keepsIn_readInto {r : RecordRef} (hr : r ∈ known) (collection : String) (s : Selector)
    (descriptor : Object) :
    KeepsIn (Holding I J) known (readInto d collection r s descriptor) fun _ _ => True := by
  have hcalls := hJ.toAllowsCalls
  refine (keepsIn_onRecords hcalls (keepsIn_readSelector hI.toAllowsReading hr s)).bind
    fun s after₁ h₁ _ => (keepsIn_callDocument hJ _).bind fun found after₂ h₂ hfound => ?_
  split
  · exact .pure fun _ _ => trivial
  · next document =>
    refine KeepsIn.get.bind fun T after₃ h₃ _ => ?_
    exact (keepsIn_onRecords hcalls (keepsIn_applyDocument hI (hJ.found _) (h₃ (h₂ (h₁ hr))) s
      ((hfound document rfl).mono h₃))).bind fun _ _ _ _ => .pure fun _ _ => trivial

theorem keepsIn_loadWithin (steps : Nat) {r : RecordRef} (hr : r ∈ known) (s : Selector)
    (throwIfMissing : Bool) (visited : Visited) :
    KeepsIn (Holding I J) known (loadWithin d steps r s throwIfMissing visited) fun _ _ => True :=
  keepsIn_loadWithin_of hI.toAllowsReading hJ.toAllowsCalls (D := fun _ _ => True)
    (fun _ _ hr => (hI.toAllowsReading.descriptor hr).imp fun _ _ _ _ => trivial)
    (fun _ _ _ _ _ _ _ _ _ hr _ => keepsIn_readInto hI hJ hr _ _ _) steps hr s throwIfMissing visited

theorem keepsIn_load {r : RecordRef} (hr : r ∈ known) (s : Selector) (throwIfMissing : Bool) :
    KeepsIn (Holding I J) known (load d r s throwIfMissing) fun _ _ => True := by
  unfold load
  refine keepsIn_tracing hJ.toAllowsCalls (keepsIn_loadSteps.bind fun steps after hafter _ => ?_)
  exact (keepsIn_loadWithin hI hJ steps (hafter hr) s throwIfMissing []).bind
    fun _ _ _ _ => .pure fun _ _ => trivial

/-! ### Finding -/

theorem keepsIn_foundRecord (hd : d.Lawful) {c : ClassRef} (hc : C c) (s : Selector)
    (document : Document) :
    KeepsIn (Holding I J) known (foundRecord d c s document) fun after r => r ∈ after := by
  refine (keepsIn_onRecords hJ.toAllowsCalls (hI.keeps_withIdentifiers hd hc _)).bind
    fun r after₁ h₁ hr => ?_
  refine (keepsIn_onRecords hJ.toAllowsCalls (hI.keeps_setSources .store hr _)).bind
    fun _ after₂ h₂ _ => ?_
  split
  · exact .pure fun after hafter => hafter (h₂ hr)
  · refine keepsIn_loadSteps.bind fun steps after₃ h₃ _ => ?_
    exact (keepsIn_loadWithin hI hJ steps (h₃ (h₂ hr)) _ true []).bind
      fun _ last hlast _ => .pure fun after hafter => hafter (hlast (h₃ (h₂ hr)))

theorem keepsIn_find (hd : d.Lawful) (hfind : ∀ search, allowed (.find search)) {c : ClassRef}
    (hc : C c) {query : Value} (hquery : query.Within known) (options : FindOptions) :
    KeepsIn (Holding I J) known (find d c query options) fun after rs => ∀ r ∈ rs, r ∈ after := by
  refine keepsIn_tracing hJ.toAllowsCalls (KeepsIn.get.bind fun T after₁ h₁ _ =>
    (keepsIn_check _).bind fun _ after₂ h₂ _ => ?_)
  refine (keepsIn_compileQuery hI hJ.toAllowsCalls (hquery.mono (h₁.trans h₂))).bind
    fun es _ _ _ => KeepsIn.get.bind fun T _ _ _ =>
      (keepsIn_call hJ.toAllowsCalls (hfind _) _).bind fun answer _ _ _ => ?_
  split
  · exact .mapM (P := fun after r => r ∈ after)
      (fun document _ => keepsIn_foundRecord hI hJ hd hc options.selector document)
      fun _ _ _ hafter hr => hafter hr
  · exact .pure fun _ _ => by simp

end

end

end Store

end TypedRecords
