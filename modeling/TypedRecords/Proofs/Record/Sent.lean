import TypedRecords.Proofs.Record.Planted

/-! # Sending records

A record that is sent to a peer arrives as the tree that it unfolds to: whatever is reached on several
ways is made once for each of them. Classes are sent by name, so forks of classes do not arrive.
-/

namespace TypedRecords

namespace Record

variable {d : Directory} {registry : RegistryRef} {g : Graph} {known : Set RecordRef} {x : RecordRef}

/-- A record that holds what its types accept arrives, as a tree that unfolds what it reaches. -/
theorem sent_unfolds (hd : d.Lawful) (hg : g.Sound known) (hx : x ∈ known)
    (hsend : g.Sendable d registry (d.Registers registry) x)
    (hfits : ∀ r, g.Reaches d x r → g.Fits d r) (source : Source) :
    ∃ t, encode d .remote .all (.record x) g = (.ok t, g) ∧
      ∀ g₁, ∃ y g₂, decode d registry source t g₁ = (.ok (.record y), g₂) ∧
        g.Unfolds d source x g₂ y := by
  obtain ⟨t, hencode, hdepicts⟩ := encode_remote hd hg hx hsend.toTreelike
  refine ⟨t, hencode, fun g₁ => ?_⟩
  have hnames := hsend.imp fun _ hc => hc.names
  have hone : ∀ r ∈ (Value.record x).records, g.Sendable d registry (d.Names registry) r := by
    intro r hr
    rwa [List.mem_singleton.1 hr]
  have hlands : ∀ r ∈ (Value.record x).records, ∀ q, g.Reaches d r q → g.Lands d registry q := by
    intro r hr q hq
    rw [List.mem_singleton.1 hr] at hq
    exact (hfits q hq).lands (hsend.portable q hq)
  obtain ⟨v, g₂, hdecode⟩ := decode_of_lands hd hdepicts (.record x) hone hlands g₁
  have hreforked := decode_reforked hd (.record x) (fun r hr => (hone r hr).found r .refl) hdepicts
    hdecode (.refl _ g₂)
  cases hreforked with
  | leaf hleaf => cases hleaf
  | @record _ y hrebuilt =>
    have hplanted := decode_planted hd hdepicts (.record x) hone hdecode
    refine ⟨y, g₂, hdecode, hrebuilt.follow hd hsend, fun path path' q hq hq' => ?_⟩
    exact (hplanted.follow_apart hd (i := 0) (j := 0) rfl rfl hq hq').2

/-! ### An example: movies -/

def movieClass : ClassRef := .declared 0 "Movie"

def starClass : ClassRef := .declared 1 "Star"

/-- A class of movies that was forked from another one. -/
def sequelClass : ClassRef := .fork 2 movieClass

def starDefinition : Definition where
  attributes := [("name", ⟨"name", .plain, .scalar .string {}, none⟩)]
  indexes := []
  embedded := false
  storable := false

/-- Movies have stars, a class of movies, and notes. -/
def movieDefinition : Definition where
  attributes := [("cast", ⟨"cast", .plain, .array (.reference "Star" false {}) {}, none⟩),
    ("kind", ⟨"kind", .plain, .reference "Movie" true {}, none⟩),
    ("notes", ⟨"notes", .plain, .scalar .object { optional := true }, none⟩)]
  indexes := []
  embedded := false
  storable := false

def movieClasses : Directory where
  classes := #[
    { definition := movieDefinition, registry := some ⟨0⟩ },
    { definition := starDefinition, registry := some ⟨0⟩ },
    { definition := movieDefinition, registry := some ⟨0⟩ }]
  registries := #[{ members := [("Movie", movieClass), ("Star", starClass)] }]

def movie : RecordRef := .made 0 movieClass

def star : RecordRef := .made 1 starClass

/-- A movie of a kind, with a star in two parts. -/
def movieOf (kind : ClassRef) : Graph where
  cells := #[
    { slots := [("cast", some ⟨.array [.record star, .record star], .here⟩),
        ("kind", some ⟨.classRef kind, .here⟩),
        ("notes", some ⟨.object [("lead", .record star), ("year", .undefined)], .here⟩)]
      isNew := true },
    { slots := [("name", some ⟨.string "Ada", .here⟩)]
      isNew := false }]

theorem movieClasses_lawful : movieClasses.Lawful :=
  Directory.lawful_of_entries (by decide) (by decide)

theorem movieOf_sound (kind : ClassRef) : (movieOf kind).Sound {movie, star} := by
  refine .of_cells ?_ ?_ ?_ ?_ <;>
    simp [movieOf, movie, star, RecordRef.serial, Value.Within, Value.records, Value.recordsOfItems,
      Value.recordsOfFields, -Prod.forall]

variable {kind : ClassRef} {r q : RecordRef}

theorem fieldsOf_movie (kind : ClassRef) : (movieOf kind).fieldsOf movieClasses movie =
    [("cast", .array [.record star, .record star]), ("kind", .classRef kind),
      ("notes", .object [("lead", .record star), ("year", .undefined)])] :=
  rfl

theorem fieldsOf_star (kind : ClassRef) :
    (movieOf kind).fieldsOf movieClasses star = [("name", .string "Ada")] :=
  rfl

/-- The movie holds the star, and the star nothing. -/
theorem movieOf_nests (hr : r ∈ ({movie, star} : Set RecordRef))
    (h : (movieOf kind).Nests movieClasses r q) : r = movie ∧ q = star := by
  obtain ⟨entry, hentry, hq⟩ := Graph.nests_iff_field.1 h
  have hheld := Value.mem_records_object.2 ⟨entry, hentry, hq⟩
  rcases hr with rfl | rfl
  · have hthree : (Value.object ((movieOf kind).fieldsOf movieClasses movie)).records =
        [star, star, star] := rfl
    rw [hthree] at hheld
    exact ⟨rfl, by simpa using hheld⟩
  · cases hheld

theorem movieOf_reaches (h : (movieOf kind).Reaches movieClasses movie r) :
    r ∈ ({movie, star} : Set RecordRef) :=
  h.mem (fun _ hr _ hq => .inr (movieOf_nests hr hq).2) (Set.mem_insert _ _)

theorem movieOf_treelike (kind : ClassRef) : (movieOf kind).Treelike movieClasses movie where
  made q hq := by rcases movieOf_reaches hq with rfl | rfl <;> rfl
  acyclic q hq := by
    refine Graph.acyclic_of_rank (fun r => 1 - r.serial) ?_ ?_
      (movieOf_reaches hq)
    · exact fun r hr q hq => .inr (movieOf_nests hr hq).2
    · intro r hr q hq
      obtain ⟨rfl, rfl⟩ := movieOf_nests hr hq
      decide
  names q hq := by rcases movieOf_reaches hq with rfl | rfl <;> decide

theorem movieOf_found (hr : (movieOf kind).Reaches movieClasses movie r) :
    movieClasses.Registers ⟨0⟩ r.cls := by
  rcases movieOf_reaches hr with rfl | rfl <;> rfl

theorem movieOf_portable {classes : ClassRef → Prop} (hkind : classes kind)
    (hr : (movieOf kind).Reaches movieClasses movie r) :
    ∀ entry ∈ (movieOf kind).fieldsOf movieClasses r, entry.2.Portable classes := by
  rcases movieOf_reaches hr with rfl | rfl
  · have hparts : ∀ v ∈ [Value.record star, .record star], v.Portable classes := by
      simp [Value.Portable.record]
    have hnotes : ∀ entry ∈ [("lead", Value.record star), ("year", .undefined)],
        entry.2.Portable classes := by
      simp [Value.Portable.record, Value.Portable.undefined]
    rw [fieldsOf_movie]
    simp [Value.Portable.array hparts, Value.Portable.classRef hkind, Value.Portable.object rfl hnotes]
  · rw [fieldsOf_star]
    simp [Value.Portable.leaf (v := .string "Ada") rfl]

theorem movieOf_fits (hkind : kind.isSameOrForkOf movieClass = true)
    (hr : (movieOf kind).Reaches movieClasses movie r) : (movieOf kind).Fits movieClasses r := by
  intro a ha v hv
  rcases movieOf_reaches hr with rfl | rfl
  · have hthree : movieClasses.attributes movie.cls = [_, _, _] := rfl
    rw [hthree] at ha
    simp only [List.mem_cons, List.not_mem_nil, or_false] at ha
    rcases ha with rfl | rfl | rfl <;> cases hv
    · rfl
    · exact if_pos hkind
    · rfl
  · have hone : movieClasses.attributes star.cls = [_] := rfl
    rw [hone] at ha
    obtain rfl := List.mem_singleton.1 ha
    cases hv
    rfl

theorem sent_unfolds_movie :
    ∃ t, encode movieClasses .remote .all (.record movie) (movieOf movieClass) =
        (.ok t, movieOf movieClass) ∧
      ∀ g₁, ∃ y g₂, decode movieClasses ⟨0⟩ .here t g₁ = (.ok (.record y), g₂) ∧
        (movieOf movieClass).Unfolds movieClasses .here movie g₂ y :=
  sent_unfolds movieClasses_lawful (movieOf_sound movieClass) (Set.mem_insert _ _)
    { movieOf_treelike movieClass with
      found := fun _ hq => movieOf_found hq
      portable := fun _ hq => movieOf_portable (rfl : movieClasses.Registers ⟨0⟩ movieClass) hq }
    (fun _ hr => movieOf_fits rfl hr) .here

/-- A movie whose kind is a fork of a class arrives, but of the kind of the class. -/
theorem fork_arrives_as_base :
    movieClasses.Lawful ∧ (movieOf sequelClass).Sound {movie, star} ∧
      (movieOf sequelClass).Treelike movieClasses movie ∧
      (∀ r, (movieOf sequelClass).Reaches movieClasses movie r →
        movieClasses.Registers ⟨0⟩ r.cls ∧ (movieOf sequelClass).Fits movieClasses r ∧
          ∀ entry ∈ (movieOf sequelClass).fieldsOf movieClasses r,
            entry.2.Portable fun _ => True) ∧
      ∃ t y g₂, encode movieClasses .remote .all (.record movie) (movieOf sequelClass) =
          (.ok t, movieOf sequelClass) ∧
        decode movieClasses ⟨0⟩ .here t {} = (.ok (.record y), g₂) ∧
        (movieOf sequelClass).value? movie "kind" = some (.classRef sequelClass) ∧
        g₂.value? y "kind" = some (.classRef movieClass) ∧
        ¬(movieOf sequelClass).Unfolds movieClasses .here movie g₂ y := by
  refine ⟨movieClasses_lawful, movieOf_sound _, movieOf_treelike _, fun r hr =>
    ⟨movieOf_found hr, movieOf_fits rfl hr, movieOf_portable trivial hr⟩, _, movie, _, rfl, rfl, rfl, rfl,
    fun h => ?_⟩
  have hkind := h.root.value (a := ⟨"kind", .plain, .reference "Movie" true {}, none⟩)
    (List.mem_of_getElem? (i := 1) rfl) rfl rfl
  cases hkind

end Record

end TypedRecords
