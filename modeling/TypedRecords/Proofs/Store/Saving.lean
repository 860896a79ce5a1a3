import TypedRecords.Store.Session
import TypedRecords.Proofs.Record.Encoding

/-! # Saving step by step

A save resolves the selector, validates, describes and encodes the record, and then makes one call to
the database: it creates the document of a new record, and patches that of another one.
-/

namespace TypedRecords.Store

variable {d : Directory} {r : RecordRef} {session session' : Session}

/-! ### Operations within a session -/

theorem onRecords_eq_ok {α : Type} {action : Action α} {a : α}
    (h : onRecords action session = (.ok a, session')) :
    ∃ g, action session.graph = (.ok a, g) ∧ session' = { session with graph := g } := by
  rcases haction : action session.graph with ⟨result, g⟩
  simp only [onRecords, haction] at h
  cases h
  exact ⟨g, rfl, rfl⟩

theorem check_eq_ok {α : Type} {x : Except Error α} {a : α}
    (h : check x session = (.ok a, session')) : x = .ok a ∧ session = session' := by
  cases x with
  | error e => cases h
  | ok b =>
    cases h
    exact ⟨rfl, rfl⟩

theorem requireRegistered_eq_ok {store : Store} {c : ClassRef}
    (h : store.requireRegistered c = .ok ()) : store.isRegistered c = true := by
  unfold requireRegistered at h
  split at h
  · assumption
  · cases h

/-- A traced operation answers what it answers without the trace. -/
theorem tracing_eq {α : Type} {operation : String} {parameters : List Value} {toValue : α → Value}
    {run : StoreAction α} {result : Except Error α}
    (h : tracing operation parameters toValue run session = (result, session')) :
    ∃ after, run session = (result, after) ∧ session'.graph = after.graph ∧
      ∃ trace, session'.store = { after.store with trace } := by
  unfold tracing at h
  rcases hrun : run session with ⟨result', after⟩
  simp only [hrun] at h
  split at h
  · cases h
    exact ⟨after, rfl, rfl, _, rfl⟩
  · cases h
    exact ⟨_, rfl, rfl, _, rfl⟩

theorem tracing_of_run {α : Type} (operation : String) (parameters : List Value)
    (toValue : α → Value) {run : StoreAction α} {result : Except Error α} {after : Session}
    (h : run session = (result, after)) : ∃ session',
      tracing operation parameters toValue run session = (result, session') ∧
        session'.graph = after.graph := by
  unfold tracing
  simp only [h]
  split
  · exact ⟨_, rfl, rfl⟩
  · exact ⟨_, rfl, rfl⟩

/-! ### Calls -/

/-- A call changes the database of the store and may extend its journal. -/
theorem call_eq {collection : String} {c : Call} {answer : Except Error Answer}
    (h : call collection c session = (answer, session')) :
    answer = (c.run collection session.store.database).1 ∧ session'.graph = session.graph ∧
      ∃ journal, session'.store = { session.store with
        database := (c.run collection session.store.database).2, journal } := by
  simp only [call] at h
  cases h
  exact ⟨rfl, rfl, _, rfl⟩

theorem callFlag_eq_ok {collection : String} {c : Call} {b : Bool}
    (h : callFlag collection c session = (.ok b, session')) :
    ∃ answer, call collection c session = (.ok answer, session') ∧
      (answer = .flag b ∨ b = false ∧ ∀ b', answer ≠ .flag b') := by
  obtain ⟨answer, t, hcall, hrest⟩ := Stateful.bind_eq_ok h
  refine ⟨answer, ?_⟩
  split at hrest
  · cases hrest
    exact ⟨hcall, .inl rfl⟩
  · next hother =>
    cases hrest
    exact ⟨hcall, .inr ⟨rfl, hother⟩⟩

/-- Whatever is answered, a call leaves the records alone and the store as the database says. -/
theorem callFlag_eq {collection : String} {c : Call} {called : Except Error Bool}
    (h : callFlag collection c session = (called, session')) :
    session'.graph = session.graph ∧
      (∃ journal, session'.store = { session.store with
        database := (c.run collection session.store.database).2, journal }) ∧
      (called = .ok true ↔ (c.run collection session.store.database).1 = .ok (.flag true)) := by
  rcases hcall : call collection c session with ⟨answer, after⟩
  obtain ⟨hanswer, hgraph, hstore⟩ := call_eq hcall
  rw [← hanswer]
  unfold callFlag at h
  cases answer with
  | error e =>
    rw [Stateful.bind_of_error hcall] at h
    cases h
    exact ⟨hgraph, hstore, nofun, nofun⟩
  | ok a =>
    rw [Stateful.bind_of_ok hcall] at h
    cases a <;> cases h <;> exact ⟨hgraph, hstore, by simp⟩

theorem callSaving_of_ok {collection : String} {wanted : Call} {b : Bool} (c : ClassRef)
    (h : callFlag collection wanted session = (.ok b, session')) :
    callSaving c collection wanted session = (.ok b, session') := by
  simp only [callSaving, tryCatch, tryCatchThe, MonadExceptOf.tryCatch, ExceptT.tryCatch, ExceptT.mk,
    bind, StateT.bind, h]
  rfl

theorem callSaving_of_error {collection : String} {wanted : Call} {e : Error} (c : ClassRef)
    (h : callFlag collection wanted session = (.error e, session')) :
    callSaving c collection wanted session = (.error (uniqueFault c e), session') := by
  simp only [callSaving, tryCatch, tryCatchThe, MonadExceptOf.tryCatch, ExceptT.tryCatch, ExceptT.mk,
    bind, StateT.bind, h]
  rfl

theorem callSaving_eq_ok {c : ClassRef} {collection : String} {wanted : Call} {b : Bool}
    (h : callSaving c collection wanted session = (.ok b, session')) :
    callFlag collection wanted session = (.ok b, session') := by
  rcases hcall : callFlag collection wanted session with ⟨result, t⟩
  cases result with
  | ok b' => rwa [callSaving_of_ok c hcall] at h
  | error e =>
    rw [callSaving_of_error c hcall] at h
    cases h

/-- A call that saves leaves behind what the call alone leaves. -/
theorem callSaving_snd (c : ClassRef) (collection : String) (wanted : Call) (session : Session) :
    (callSaving c collection wanted session).2 = (callFlag collection wanted session).2 := by
  rcases hrun : callFlag collection wanted session with ⟨result, t⟩
  cases result with
  | ok b => rw [callSaving_of_ok c hrun]
  | error e => rw [callSaving_of_error c hrun]

theorem callSaving_eq {c : ClassRef} {collection : String} {wanted : Call} {called : Except Error Bool}
    (h : callSaving c collection wanted session = (called, session')) :
    session'.graph = session.graph ∧
      (∃ journal, session'.store = { session.store with
        database := (wanted.run collection session.store.database).2, journal }) ∧
      (called = .ok true ↔ (wanted.run collection session.store.database).1 = .ok (.flag true)) := by
  rcases hcall : callFlag collection wanted session with ⟨result, after⟩
  obtain ⟨hgraph, hstore, hflag⟩ := callFlag_eq hcall
  cases result with
  | ok b =>
    rw [callSaving_of_ok c hcall] at h
    cases h
    exact ⟨hgraph, hstore, hflag⟩
  | error e =>
    rw [callSaving_of_error c hcall] at h
    cases h
    exact ⟨hgraph, hstore, nofun, fun hanswer => nomatch hflag.2 hanswer⟩

/-! ### What is written -/

/-- What a save works out before it writes: the resolved selector, the descriptor and the document. -/
structure Prepared where
  selector : Selector
  descriptor : Object
  document : Document

def prepare (d : Directory) (r : RecordRef) (s : Selector) : Action Prepared := do
  let selector ← writeSelector d r s
  Record.validate d r selector
  let descriptor ← Record.descriptor d r
  let document ← documentOf d r selector
  pure ⟨selector, descriptor, document⟩

theorem documentOf_eq_ok {s : Selector} {g g' : Graph} {document : Document}
    (h : documentOf d r s g = (.ok document, g')) :
    ∃ steps, Record.encodeWithin d .store steps [] true r s g = (.ok (.object document), g') := by
  obtain ⟨e, g₁, hencode, hmatch⟩ := Stateful.bind_eq_ok h
  obtain ⟨steps, g₂, hsteps, hwithin⟩ := Stateful.bind_eq_ok hencode
  cases hsteps
  split at hmatch
  · cases hmatch
    exact ⟨_, hwithin⟩
  · cases hmatch

theorem prepare_eq_ok {s : Selector} {g g' : Graph} {p : Prepared}
    (h : prepare d r s g = (.ok p, g')) :
    ∃ g₁ g₂ g₃, writeSelector d r s g = (.ok p.selector, g₁) ∧
      Record.validate d r p.selector g₁ = (.ok (), g₂) ∧
      Record.descriptor d r g₂ = (.ok p.descriptor, g₃) ∧
      documentOf d r p.selector g₃ = (.ok p.document, g') := by
  obtain ⟨selector, g₁, hselector, h₁⟩ := Stateful.bind_eq_ok h
  obtain ⟨_, g₂, hvalidate, h₂⟩ := Stateful.bind_eq_ok h₁
  obtain ⟨descriptor, g₃, hdescriptor, h₃⟩ := Stateful.bind_eq_ok h₂
  obtain ⟨document, g₄, hdocument, hpure⟩ := Stateful.bind_eq_ok h₃
  cases hpure
  exact ⟨g₁, g₂, g₃, hselector, hvalidate, hdescriptor, hdocument⟩

/-- The call that writes a record. -/
def savingCall (isNew : Bool) (p : Prepared) : Call :=
  if isNew then .create p.descriptor (Value.stripFields p.document)
  else .update p.descriptor (Patch.ofDocument p.document)

/-- How a save runs: it fails before it has changed anything, or while it prepares, or the database
fails or writes nothing, or what has been written is marked. -/
inductive SaveRun (d : Directory) (r : RecordRef) (s : Selector) (expected : Expectation)
    (session : Session) : Except Error (Option RecordRef) → Session → Prop
  | refused (e : Error) : SaveRun d r s expected session (.error e) session
  | unprepared {e : Error} {g : Graph} (prepared : prepare d r s session.graph = (.error e, g)) :
    SaveRun d r s expected session (.error e) { session with graph := g }
  | failed {p : Prepared} {g : Graph} {e : Error} {session' : Session}
    (registered : session.store.isRegistered r.cls = true)
    (prepared : prepare d r s session.graph = (.ok p, g))
    (call : callSaving r.cls (session.store.collectionName r.cls)
      (savingCall (session.graph.isNew r) p) { session with graph := g } = (.error e, session')) :
    SaveRun d r s expected session (.error e) session'
  | unwritten {p : Prepared} {g : Graph} {session' : Session}
    {result : Except Error (Option RecordRef)}
    (registered : session.store.isRegistered r.cls = true)
    (prepared : prepare d r s session.graph = (.ok p, g))
    (call : callSaving r.cls (session.store.collectionName r.cls)
      (savingCall (session.graph.isNew r) p) { session with graph := g } = (.ok false, session'))
    (unsaved : ∀ q, result ≠ .ok (some q))
    (quiet : result = .ok none → session.graph.isNew r = true →
      expected.throwIfExists.getD true = false) :
    SaveRun d r s expected session result session'
  | written {p : Prepared} {g : Graph} {called session' : Session}
    {result : Except Error (Option RecordRef)}
    (registered : session.store.isRegistered r.cls = true)
    (prepared : prepare d r s session.graph = (.ok p, g))
    (call : callSaving r.cls (session.store.collectionName r.cls)
      (savingCall (session.graph.isNew r) p) { session with graph := g } = (.ok true, called))
    (marked : (do
      onRecords (Record.mark r false)
      onRecords (Record.setSources d .store r p.selector)
      pure (some r) : StoreAction (Option RecordRef)) called = (result, session')) :
    SaveRun d r s expected session result session'

theorem saveRecord_runs (d : Directory) (r : RecordRef) (s : Selector) (expected : Expectation)
    (session : Session) : SaveRun d r s expected session (saveRecord d r s expected session).1
      (saveRecord d r s expected session).2 := by
  let P : Except Error (Option RecordRef) × Session → Prop := fun run =>
    SaveRun d r s expected session run.1 run.2
  show P (saveRecord d r s expected session)
  have hget : ∀ t : Session, (MonadState.get : StoreAction Session) t = (.ok t, t) := fun _ => rfl
  have hfailed : ∀ {α : Type} {action : Action α} {g : Graph} {e : Error} {t : Session},
      (∀ g', action g = (.error e, g') → prepare d r s session.graph = (.error e, g')) →
      onRecords action { session with graph := g } = (.error e, t) → P (.error e, t) := by
    intro α action g e t hprepare hrun
    rcases haction : action g with ⟨result, g'⟩
    simp only [onRecords, haction] at hrun
    cases hrun
    exact .unprepared (hprepare g' haction)
  unfold saveRecord
  rw [Stateful.bind_of_ok (hget session)]
  refine Stateful.bind_cases ?_ fun _ t hcheck => ?_
  · intro e t hcheck
    cases hrequired : session.store.requireRegistered r.cls <;> rw [hrequired] at hcheck <;>
      cases hcheck
    exact .refused e
  obtain ⟨hregistered, rfl⟩ := check_eq_ok hcheck
  rw [Stateful.bind_of_ok (hget session)]
  dsimp only
  split
  · exact .refused _
  refine Stateful.bind_cases (fun e t => hfailed fun g' hrun => ?_) fun selector t hselector' => ?_
  · unfold prepare
    exact Stateful.bind_of_error hrun
  obtain ⟨g₁, hselector, rfl⟩ := onRecords_eq_ok hselector'
  refine Stateful.bind_cases (fun e t => hfailed fun g' hrun => ?_) fun _ t hvalidate' => ?_
  · unfold prepare
    rw [Stateful.bind_of_ok hselector]
    exact Stateful.bind_of_error hrun
  obtain ⟨g₂, hvalidate, rfl⟩ := onRecords_eq_ok hvalidate'
  refine Stateful.bind_cases (fun e t => hfailed fun g' hrun => ?_) fun descriptor t hdescriptor' => ?_
  · unfold prepare
    rw [Stateful.bind_of_ok hselector, Stateful.bind_of_ok hvalidate]
    exact Stateful.bind_of_error hrun
  obtain ⟨g₃, hdescriptor, rfl⟩ := onRecords_eq_ok hdescriptor'
  rw [Stateful.bind_of_ok (hget _)]
  refine Stateful.bind_cases (fun e t => hfailed fun g' hrun => ?_) fun document t hdocument' => ?_
  · unfold prepare
    rw [Stateful.bind_of_ok hselector, Stateful.bind_of_ok hvalidate, Stateful.bind_of_ok hdescriptor]
    exact Stateful.bind_of_error hrun
  obtain ⟨g₄, hdocument, rfl⟩ := onRecords_eq_ok hdocument'
  have hprepare : prepare d r s session.graph = (.ok ⟨selector, descriptor, document⟩, g₄) := by
    unfold prepare
    rw [Stateful.bind_of_ok hselector, Stateful.bind_of_ok hvalidate, Stateful.bind_of_ok hdescriptor,
      Stateful.bind_of_ok hdocument]
    rfl
  have hregistered := requireRegistered_eq_ok hregistered
  refine Stateful.bind_cases (fun e t hcall => .failed hregistered hprepare hcall)
    fun written t hcall => ?_
  cases written with
  | true => exact .written hregistered hprepare hcall rfl
  | false =>
    rw [if_neg Bool.false_ne_true]
    split
    · exact .unwritten hregistered hprepare hcall (by rintro q ⟨⟩) (by rintro ⟨⟩)
    next hquiet =>
    split
    · exact .unwritten hregistered hprepare hcall (by rintro q ⟨⟩) (by rintro ⟨⟩)
    · refine .unwritten hregistered hprepare hcall (by rintro q ⟨⟩) fun _ hnew => ?_
      rw [hnew] at hquiet
      simpa using hquiet

/-- A save that does not fail has prepared, called the database, and has marked the record if it was
written. -/
theorem saveRecord_eq_ok {s : Selector} {expected : Expectation} {result : Option RecordRef}
    (h : saveRecord d r s expected session = (.ok result, session')) :
    session.store.isRegistered r.cls = true ∧ ∃ p g written called,
      prepare d r s session.graph = (.ok p, g) ∧
      callFlag (session.store.collectionName r.cls)
        (savingCall (session.graph.isNew r) p) { session with graph := g } =
          (.ok written, called) ∧
      result = (if written then some r else none) ∧ session'.store = called.store ∧
      (written = false → session.graph.isNew r = true →
        expected.throwIfExists.getD true = false) := by
  have hrun := saveRecord_runs d r s expected session
  rw [h] at hrun
  cases hrun with
  | unwritten registered prepared call unsaved quiet =>
    have hresult : result = none := by
      cases result with
      | none => rfl
      | some q => exact absurd rfl (unsaved q)
    subst hresult
    exact ⟨registered, _, _, false, _, prepared, callSaving_eq_ok call, rfl, rfl, fun _ => quiet rfl⟩
  | written registered prepared call marked =>
    obtain ⟨_, _, hmark, hrest⟩ := Stateful.bind_eq_ok marked
    obtain ⟨g₁, -, rfl⟩ := onRecords_eq_ok hmark
    obtain ⟨_, _, hsources, hpure⟩ := Stateful.bind_eq_ok hrest
    obtain ⟨g₂, -, rfl⟩ := onRecords_eq_ok hsources
    cases hpure
    exact ⟨registered, _, _, true, _, prepared, callSaving_eq_ok call, rfl, rfl, fun h => by cases h⟩

end TypedRecords.Store
