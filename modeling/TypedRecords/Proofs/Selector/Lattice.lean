import TypedRecords.Proofs.Selector.Paths

/-! # The lattice of selectors

Unions and intersections of selectors are normal forms, and up to normal forms and the order of names
they obey the laws of a distributive lattice with a least and a greatest element, whose order is
inclusion.
-/

namespace TypedRecords.Selector

/-- The laws of a bounded distributive lattice, at three selectors. Equality is up to the order of
names. -/
structure LatticeLaws (a b c : Selector) : Prop where
  isNormal_merge : (a.merge b).IsNormal
  isNormal_intersect : (a.intersect b).IsNormal
  merge_comm : (a.merge b == b.merge a) = true
  intersect_comm : (a.intersect b == b.intersect a) = true
  merge_assoc : ((a.merge b).merge c == a.merge (b.merge c)) = true
  intersect_assoc : ((a.intersect b).intersect c == a.intersect (b.intersect c)) = true
  merge_idem : (a.merge a == a.normalize) = true
  intersect_idem : (a.intersect a == a.normalize) = true
  merge_absorb : (a.merge (a.intersect b) == a.normalize) = true
  intersect_absorb : (a.intersect (a.merge b) == a.normalize) = true
  intersect_merge :
    (a.intersect (b.merge c) == (a.intersect b).merge (a.intersect c)) = true
  merge_intersect :
    (a.merge (b.intersect c) == (a.merge b).intersect (a.merge c)) = true
  merge_none : (a.merge .none == a.normalize) = true
  merge_all : (a.merge .all == .all) = true
  intersect_all : (a.intersect .all == a.normalize) = true
  intersect_none : (a.intersect .none == .none) = true
  includes_refl : a.includes a = true
  includes_antisymm : a.IsNormal → b.IsNormal → a.includes b = true → b.includes a = true →
    (a == b) = true
  includes_trans : a.includes b = true → b.includes c = true → a.includes c = true
  merge_left : (a.merge b).includes a = true
  merge_right : (a.merge b).includes b = true
  merge_least : c.includes a = true → c.includes b = true → c.includes (a.merge b) = true
  intersect_left : a.includes (a.intersect b) = true
  intersect_right : b.includes (a.intersect b) = true
  intersect_greatest : a.includes c = true → b.includes c = true →
    (a.intersect b).includes c = true

/-! ### The order -/

section

variable {a b c : Selector}

theorem includes_self (ha : a.WellFormed) : a.includes a = true :=
  (includes_iff ha ha).2 fun _ h => h

theorem includes_trans (ha : a.WellFormed) (hb : b.WellFormed) (hc : c.WellFormed)
    (hab : a.includes b = true) (hbc : b.includes c = true) : a.includes c = true := by
  rw [includes_iff ha hb] at hab
  rw [includes_iff hb hc] at hbc
  exact (includes_iff ha hc).2 fun path h => hab path (hbc path h)

/-- Selectors in normal form that include each other keep the same paths. -/
theorem beq_of_includes (ha : a.WellFormed) (hb : b.WellFormed) (hna : a.IsNormal) (hnb : b.IsNormal)
    (hle : a.includes b = true) (hge : b.includes a = true) : (a == b) = true := by
  rw [includes_iff ha hb] at hle
  rw [includes_iff hb ha] at hge
  exact beq_of_keeps ha hb hna hnb fun path => ⟨hge path, hle path⟩

/-- A union is the least selector that includes both of its parts. -/
theorem includes_merge_iff (ha : a.WellFormed) (hb : b.WellFormed) (hc : c.WellFormed) :
    c.includes (a.merge b) = true ↔ c.includes a = true ∧ c.includes b = true := by
  rw [includes_iff hc (ha.merge hb), includes_iff hc ha, includes_iff hc hb]
  simp only [keeps_merge ha hb, or_imp, forall_and]

/-- An intersection is the greatest selector that both of its parts include. -/
theorem intersect_includes_iff (ha : a.WellFormed) (hb : b.WellFormed) (hc : c.WellFormed) :
    (a.intersect b).includes c = true ↔ a.includes c = true ∧ b.includes c = true := by
  rw [includes_iff (ha.intersect hb) hc, includes_iff ha hc, includes_iff hb hc]
  simp only [keeps_intersect ha hb, imp_and, forall_and]

end

/-! ### The laws -/

/-- Selectors form a distributive lattice: each law is that of "or" and "and" for the kept paths. -/
theorem latticeLaws {a b c : Selector} (ha : a.WellFormed) (hb : b.WellFormed)
    (hc : c.WellFormed) : LatticeLaws a b c := by
  have hmerge := ha.merge hb
  have hintersect := ha.intersect hb
  constructor
  case isNormal_merge => exact Selector.isNormal_merge a b
  case isNormal_intersect => exact Selector.isNormal_intersect a b
  case merge_comm =>
    refine beq_of_keeps hmerge (hb.merge ha) (isNormal_merge _ _) (isNormal_merge _ _) fun path => ?_
    rw [keeps_merge ha hb, keeps_merge hb ha, or_comm]
  case intersect_comm =>
    refine beq_of_keeps hintersect (hb.intersect ha) (isNormal_intersect _ _)
      (isNormal_intersect _ _) fun path => ?_
    rw [keeps_intersect ha hb, keeps_intersect hb ha, and_comm]
  case merge_assoc =>
    refine beq_of_keeps (hmerge.merge hc) (ha.merge (hb.merge hc)) (isNormal_merge _ _)
      (isNormal_merge _ _) fun path => ?_
    rw [keeps_merge hmerge hc, keeps_merge ha hb, keeps_merge ha (hb.merge hc), keeps_merge hb hc,
      or_assoc]
  case intersect_assoc =>
    refine beq_of_keeps (hintersect.intersect hc) (ha.intersect (hb.intersect hc))
      (isNormal_intersect _ _) (isNormal_intersect _ _) fun path => ?_
    rw [keeps_intersect hintersect hc, keeps_intersect ha hb,
      keeps_intersect ha (hb.intersect hc), keeps_intersect hb hc, and_assoc]
  case merge_idem =>
    refine beq_of_keeps (ha.merge ha) ha.normalize (isNormal_merge _ _) (isNormal_normalize a)
      fun path => ?_
    rw [keeps_merge ha ha, keeps_normalize ha, or_self]
  case intersect_idem =>
    refine beq_of_keeps (ha.intersect ha) ha.normalize (isNormal_intersect _ _)
      (isNormal_normalize a) fun path => ?_
    rw [keeps_intersect ha ha, keeps_normalize ha, and_self]
  case merge_absorb =>
    refine beq_of_keeps (ha.merge hintersect) ha.normalize (isNormal_merge _ _)
      (isNormal_normalize a) fun path => ?_
    rw [keeps_merge ha hintersect, keeps_intersect ha hb, keeps_normalize ha]
    exact or_iff_left_of_imp And.left
  case intersect_absorb =>
    refine beq_of_keeps (ha.intersect hmerge) ha.normalize (isNormal_intersect _ _)
      (isNormal_normalize a) fun path => ?_
    rw [keeps_intersect ha hmerge, keeps_merge ha hb, keeps_normalize ha]
    exact and_iff_left_of_imp Or.inl
  case intersect_merge =>
    refine beq_of_keeps (ha.intersect (hb.merge hc)) (hintersect.merge (ha.intersect hc))
      (isNormal_intersect _ _) (isNormal_merge _ _) fun path => ?_
    rw [keeps_intersect ha (hb.merge hc), keeps_merge hb hc,
      keeps_merge hintersect (ha.intersect hc), keeps_intersect ha hb, keeps_intersect ha hc,
      and_or_left]
  case merge_intersect =>
    refine beq_of_keeps (ha.merge (hb.intersect hc)) (hmerge.intersect (ha.merge hc))
      (isNormal_merge _ _) (isNormal_intersect _ _) fun path => ?_
    rw [keeps_merge ha (hb.intersect hc), keeps_intersect hb hc,
      keeps_intersect hmerge (ha.merge hc), keeps_merge ha hb, keeps_merge ha hc, or_and_left]
  case merge_none =>
    refine beq_of_keeps (ha.merge wellFormed_none) ha.normalize (isNormal_merge _ _) (isNormal_normalize a)
      fun path => ?_
    rw [keeps_merge ha wellFormed_none, keeps_normalize ha]
    exact or_iff_left (not_keeps_none path)
  case merge_all =>
    rw [Selector.merge_all]
    rfl
  case intersect_all =>
    refine beq_of_keeps (ha.intersect wellFormed_all) ha.normalize (isNormal_intersect _ _)
      (isNormal_normalize a) fun path => ?_
    rw [keeps_intersect ha wellFormed_all, keeps_normalize ha]
    exact and_iff_left (keeps_all path)
  case intersect_none =>
    rw [Selector.intersect_none]
    rfl
  case includes_refl => exact includes_self ha
  case includes_antisymm => exact beq_of_includes ha hb
  case includes_trans => exact Selector.includes_trans ha hb hc
  case merge_left => exact ((includes_merge_iff ha hb hmerge).1 (includes_self hmerge)).1
  case merge_right => exact ((includes_merge_iff ha hb hmerge).1 (includes_self hmerge)).2
  case merge_least => exact fun hca hcb => (includes_merge_iff ha hb hc).2 ⟨hca, hcb⟩
  case intersect_left =>
    exact ((intersect_includes_iff ha hb hintersect).1 (includes_self hintersect)).1
  case intersect_right =>
    exact ((intersect_includes_iff ha hb hintersect).1 (includes_self hintersect)).2
  case intersect_greatest => exact fun hac hbc => (intersect_includes_iff ha hb hc).2 ⟨hac, hbc⟩

/-- An excluded attribute, an attribute of which nothing is selected but that it is there, and part of
that attribute. -/
theorem latticeLaws_director :
    LatticeLaws (.only [("title", .all), ("year", .none), ("director", .only [])])
      (.only [("director", .only [("name", .all), ("country", .none)])]) (.only []) := by
  refine latticeLaws ?_ ?_ ?_
  · exact ⟨(by decide : ["title", "year", "director"].Nodup), trivial, trivial,
      ⟨List.nodup_nil, trivial⟩, trivial⟩
  · exact ⟨List.nodup_singleton _, ⟨(by decide : ["name", "country"].Nodup), trivial, trivial, trivial⟩,
      trivial⟩
  · exact ⟨List.nodup_nil, trivial⟩

end TypedRecords.Selector
