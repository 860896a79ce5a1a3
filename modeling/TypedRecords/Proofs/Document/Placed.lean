import TypedRecords.Proofs.Document.Written

/-! # Where a patch puts a key

A key to which the tagged objects of an encoded record lead stands at its place in the stored document
afterwards, whether the document was created or patched and whatever had been stored there.
-/

namespace TypedRecords

open TypedRecords.Path (Apart)

/-! ### Objects that lead to a value -/

namespace Value

/-- The named fields lead to a value: the ones on the way to it are tagged objects. -/
def Leads (v : Value) : List String → Object → Prop
  | [], _ => False
  | [name], fields => Fields.Distinct fields ∧ (∀ key ∈ Fields.keys fields, Path.IsName key) ∧
      Fields.get? name fields = some v
  | name :: rest, fields => Fields.Distinct fields ∧ (∀ key ∈ Fields.keys fields, Path.IsName key) ∧
      ∃ inner, Fields.get? name fields = some (.object inner) ∧ Tree.isTagged inner = true ∧
        Leads v rest inner

variable {v : Value} {place : List String} {fields : Object}

/-- A key is created where it stands in the encoded record. -/
theorem Leads.getAlong_stripFields (h : v.Leads place fields) (hv : v.IsKey) :
    Path.getAlong place (.object (stripFields fields)) = some v := by
  induction place generalizing fields with
  | nil => exact h.elim
  | cons name rest ih =>
    cases rest with
    | nil =>
      obtain ⟨hdistinct, -, hread⟩ := h
      rw [Path.getAlong_singleton]
      exact (get?_stripFields_eq_some_iff hdistinct).2 ⟨v, hread, hv.ne_undefined, hv.strip.symm⟩
    | cons next more =>
      obtain ⟨hdistinct, -, inner, hread, -, hinner⟩ := h
      have hstripped : Fields.get? name (stripFields fields) = some (.object (stripFields inner)) :=
        (get?_stripFields_eq_some_iff hdistinct).2 ⟨_, hread, by simp, rfl⟩
      rw [Path.getAlong_cons, hstripped]
      exact ih hinner

end Value

/-- A path of proper names goes down one level for each name. -/
theorem Path.get?_ofNames {names : List String} (hn : names ≠ []) (h : ∀ name ∈ names, IsName name)
    (v : Value) : get? v (ofNames names) = getAlong names v := by
  rw [get?_eq_getAlong (ofNames_ne_empty hn h), segments_ofNames hn h]

namespace Patch

open Value (Leads)

/-- The patch writes a value at a place, and nothing else has to do with the place. -/
structure Puts (place : List String) (v : Value) (p : Patch) : Prop where
  written : ∀ entry ∈ p.written,
    Apart (Path.segments entry.1) place ∨ Path.segments entry.1 = place ∧ entry.2 = v
  removed : ∀ path ∈ p.removed, Apart (Path.segments path) place
  reached : ∃ path, Fields.get? path p.written = some v ∧ Path.segments path = place

variable {p : Patch} {place : List String} {path : String} {v : Value}

theorem Avoids.puts_write (h : p.Avoids place) (hpath : Path.segments path = place) (v : Value) :
    (p.write path v).Puts place v where
  written entry hentry := by
    rcases Fields.mem_insert hentry with hmem | rfl
    · exact .inl (h.written entry.1 (List.mem_map_of_mem hmem))
    · exact .inr ⟨hpath, rfl⟩
  removed := h.removed
  reached := ⟨path, Fields.get?_insert_self path v p.written, hpath⟩

theorem allowsFields_puts (place : List String) (v : Value) :
    AllowsFields (fun path => path ≠ "" ∧ Apart (Path.segments path) place) (fun _ => True)
      (Puts place v) where
  join := (allowsFields_avoids place).join
  field _ _ _ _ := trivial
  write path w p hpath _ _ hp := by
    refine ⟨fun entry hentry => ?_, hp.removed, ?_⟩
    · rcases Fields.mem_insert hentry with hmem | rfl
      · exact hp.written entry hmem
      · exact .inl hpath.2
    · obtain ⟨other, hread, hother⟩ := hp.reached
      have hne : other ≠ path := by
        rintro rfl
        exact (hother ▸ hpath.2).1 List.prefix_rfl
      exact ⟨other, (Fields.get?_insert_of_ne hne _ _).trans hread, hother⟩
  remove path p hpath hp := by
    refine ⟨hp.written, fun other hother => ?_, hp.reached⟩
    rcases mem_removed_remove.1 hother with rfl | hother
    · exact hpath.2
    · exact hp.removed other hother

/-- A path through a field that is not on the way. -/
theorem apart_ofNames {outer : List String} (houter : ∀ name ∈ outer, Path.IsName name)
    {key name : String} (hkey : Path.IsName key) (hne : key ≠ name) (rest : List String) :
    Path.ofNames (outer ++ [key]) ≠ "" ∧
      Apart (Path.segments (Path.ofNames (outer ++ [key]))) (outer ++ name :: rest) := by
  have hnames : ∀ other ∈ outer ++ [key], Path.IsName other :=
    List.forall_mem_append.2 ⟨houter, List.forall_mem_singleton.2 hkey⟩
  have hnil : outer ++ [key] ≠ [] := by simp
  refine ⟨Path.ofNames_ne_empty hnil hnames, ?_⟩
  rw [Path.segments_ofNames hnil hnames]
  exact Path.apart_of_ne outer hne rest

theorem Puts.addFields {outer : List String} (houter : ∀ name ∈ outer, Path.IsName name)
    {name : String} {rest : List String} (h : p.Puts (outer ++ name :: rest) v) {fields : Object}
    (hfields : ∀ key ∈ Fields.keys fields, Path.IsName key ∧ key ≠ name) :
    (Patch.addFields (Path.ofNames outer) fields p).Puts (outer ++ name :: rest) v := by
  induction fields generalizing p with
  | nil => exact h
  | cons entry more ih =>
    obtain ⟨key, w⟩ := entry
    obtain ⟨⟨hkey, hne⟩, hmore⟩ := List.forall_mem_cons.1 hfields
    rw [Patch.addFields, Path.join_ofNames]
    exact ih ((allowsFields_puts _ v).addField (apart_ofNames houter hkey hne rest) trivial h) hmore

/-- One field of the fields is on the way, and what is added for it decides. -/
theorem puts_addFields_of_field {outer : List String} (houter : ∀ name ∈ outer, Path.IsName name)
    {name : String} {rest : List String} {fields : Object} (hdistinct : Fields.Distinct fields)
    (hnames : ∀ key ∈ Fields.keys fields, Path.IsName key) {t : Value}
    (ht : Fields.get? name fields = some t)
    (hadd : ∀ p : Patch, p.Avoids (outer ++ name :: rest) →
      (Patch.addField (Path.ofNames (outer ++ [name])) t p).Puts (outer ++ name :: rest) v)
    (hp : p.Avoids (outer ++ name :: rest)) :
    (Patch.addFields (Path.ofNames outer) fields p).Puts (outer ++ name :: rest) v := by
  induction fields generalizing p with
  | nil => cases ht
  | cons entry more ih =>
    obtain ⟨key, w⟩ := entry
    obtain ⟨hnew, hdistinctMore⟩ := Fields.distinct_cons.1 hdistinct
    obtain ⟨hkey, hmore⟩ := List.forall_mem_cons.1 hnames
    rw [Patch.addFields, Path.join_ofNames]
    by_cases hsame : key = name
    · subst hsame
      simp only [Fields.get?, if_true, Option.some.injEq] at ht
      subst ht
      refine (hadd p hp).addFields houter fun other hother => ⟨hmore other hother, ?_⟩
      rintro rfl
      exact hnew hother
    · simp only [Fields.get?, hsame, if_false] at ht
      obtain ⟨hpath, hapart⟩ := apart_ofNames houter hkey hsame rest
      exact ih hdistinctMore hmore ht (hp.addField hpath hapart w)

/-- What tagged objects lead to is written at its place. -/
theorem puts_addFields {fields : Object} (h : v.Leads place fields) (hv : v.IsKey)
    {outer : List String} (houter : ∀ name ∈ outer, Path.IsName name)
    (hp : p.Avoids (outer ++ place)) :
    (Patch.addFields (Path.ofNames outer) fields p).Puts (outer ++ place) v := by
  induction place generalizing fields outer p with
  | nil => exact h.elim
  | cons name rest ih =>
    cases rest with
    | nil =>
      obtain ⟨hdistinct, hnames, hread⟩ := h
      have hname := hnames name (Fields.mem_keys_iff.2 ⟨v, hread⟩)
      refine puts_addFields_of_field houter hdistinct hnames hread (fun p hp => ?_) hp
      have hsegments : Path.segments (Path.ofNames (outer ++ [name])) = outer ++ [name] :=
        Path.segments_ofNames (by simp) (List.forall_mem_append.2
          ⟨houter, List.forall_mem_singleton.2 hname⟩)
      have hwrite := hp.puts_write hsegments v
      rcases hv with ⟨s, rfl⟩ | ⟨x, rfl⟩ <;> exact hwrite
    | cons next more =>
      obtain ⟨hdistinct, hnames, inner, hread, htag, hinner⟩ := h
      have hname := hnames name (Fields.mem_keys_iff.2 ⟨_, hread⟩)
      refine puts_addFields_of_field houter hdistinct hnames hread (fun p hp => ?_) hp
      have hplace : outer ++ name :: next :: more = (outer ++ [name]) ++ next :: more := by simp
      rw [hplace] at hp ⊢
      rw [Patch.addField, if_pos htag]
      exact ih hinner (List.forall_mem_append.2 ⟨houter, List.forall_mem_singleton.2 hname⟩) hp

/-- Steps that each leave a place alone or put a value there put it there if one of them does. -/
theorem foldl_puts {α : Type} {f : Document → α → Document} {items : List α} {document : Document}
    (hstep : ∀ a ∈ items, ∀ document,
      Path.getAlong place (.object (f document a)) = Path.getAlong place (.object document) ∨
        Path.getAlong place (.object (f document a)) = some v)
    (h : Path.getAlong place (.object document) = some v ∨
      ∃ a ∈ items, ∀ document, Path.getAlong place (.object (f document a)) = some v) :
    Path.getAlong place (.object (items.foldl f document)) = some v := by
  induction items generalizing document with
  | nil =>
    rcases h with hread | ⟨a, ha, -⟩
    · exact hread
    · cases ha
  | cons a rest ih =>
    obtain ⟨ha, hrest⟩ := List.forall_mem_cons.1 hstep
    rcases h with hbefore | ⟨b, hb, hputs⟩
    · exact ih hrest (.inl ((ha document).elim (·.trans hbefore) id))
    · rcases List.mem_cons.1 hb with rfl | hb
      · exact ih hrest (.inl (hputs document))
      · exact ih hrest (.inr ⟨b, hb, hputs⟩)

theorem Puts.getAlong_apply (h : p.Puts place v) (stored : Document) :
    Path.getAlong place (.object (p.apply stored)) = some v := by
  have hset : ∀ {path : String} (document : Document), Path.segments path = place →
      Path.getAlong place (.object (Path.set document path v)) = some v := by
    rintro path document rfl
    exact Path.getAlong_setAlong v _ (Path.segments_ne_nil path) document
  have hwritten : Path.getAlong place
      (.object (p.written.foldl (fun doc entry => Path.set doc entry.1 entry.2) stored)) = some v := by
    refine foldl_puts (fun entry hentry document => ?_) (.inr ?_)
    · rcases h.written entry hentry with hapart | ⟨hplace, hv⟩
      · exact .inl (Path.getAlong_set_of_apart hapart entry.2 document)
      · exact .inr (hv ▸ hset document hplace)
    · obtain ⟨path, hread, hplace⟩ := h.reached
      exact ⟨(path, v), Fields.mem_of_get? hread, fun document => hset document hplace⟩
  exact foldl_puts (fun path hpath document =>
    .inl (Path.getAlong_remove_of_apart (h.removed path hpath) document)) (.inl hwritten)

/-- A key is patched in where it stands in the encoded record, whatever was stored. -/
theorem getAlong_apply_of_leads {fields : Object} (h : v.Leads place fields) (hv : v.IsKey)
    (stored : Document) :
    Path.getAlong place (.object ((ofDocument fields).apply stored)) = some v := by
  have hempty : Avoids {} ([] ++ place) := ⟨by simp [Fields.keys], by simp⟩
  have hplaces : (ofDocument fields).Puts place v := puts_addFields h hv (by simp) hempty
  exact hplaces.getAlong_apply stored

end Patch

end TypedRecords
