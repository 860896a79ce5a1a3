import TypedRecords.Proofs.Query.Compiled

/-! # The grammar of queries

Which values are queries, by their shape alone, and which expressions a query stands for: one for each
operator and for each value under an attribute, in the order of the keys. Exactly the queries compile,
and to these expressions.
-/

namespace TypedRecords.Query

/-! ### Queries -/

mutual

/-- A query as a whole. -/
inductive RootQuery : Value → Prop
  | object {fields : Object} (h : ∀ entry ∈ fields, RootCondition entry.1 entry.2) :
    RootQuery (.object fields)

inductive RootCondition : String → Value → Prop
  | named {key : String} {v : Value} (hkey : isOperator key = false) (h : Condition v) :
    RootCondition key v
  | logical {op : Operator} {items : List Value} (hop : op ∈ [.and, .or, .nor])
      (h : ∀ v ∈ items, RootQuery v) : RootCondition op.name (.array items)

/-- A value to equal, or a query below the root. -/
inductive Condition : Value → Prop
  | value {v : Value} (hv : v.asObject? = none) : Condition v
  | query {v : Value} (h : Subquery v) : Condition v

inductive Subquery : Value → Prop
  | attributes {fields : Object} (hkeys : ∀ entry ∈ fields, isOperator entry.1 = false)
      (h : ∀ entry ∈ fields, Condition entry.2) : Subquery (.object fields)
  | operators {fields : Object} (h : ∀ entry ∈ fields, Operation entry.1 entry.2) :
    Subquery (.object fields)

/-- An operator with an operand that it takes. -/
inductive Operation : String → Value → Prop
  | logical {op : Operator} {items : List Value} (hop : op ∈ [.and, .or, .nor])
      (h : ∀ v ∈ items, Subquery v) : Operation op.name (.array items)
  | negated {v : Value} (h : Condition v) : Operation Operator.not.name v
  | quantified {op : Operator} {v : Value} (hop : op ∈ [.some, .every]) (h : Condition v) :
    Operation op.name v
  | scalar {op : Operator} {v : Value} (h : Takes op v) : Operation op.name v

end

/-! ### Acceptance -/

/-- A query at the root, or below it. -/
def IsQuery (isRoot : Bool) (v : Value) : Prop := if isRoot then RootQuery v else Subquery v

/-- What a field of such a query may be. -/
def Allowed (isRoot : Bool) (key : String) (v : Value) : Prop :=
  if isRoot then RootCondition key v
  else isOperator key = false ∧ Condition v ∨ Operation key v

theorem Operation.isOperator {key : String} {v : Value} (h : Operation key v) :
    isOperator key = true := by
  cases h <;> exact isOperator_name _

theorem isMixed_eq_false_iff {fields : Object} :
    isMixed fields = false ↔ (∀ entry ∈ fields, isOperator entry.1 = false) ∨
      ∀ entry ∈ fields, isOperator entry.1 = true := by
  have hany : (Fields.keys fields).any isOperator = false ↔
      ∀ entry ∈ fields, isOperator entry.1 = false := by simp [Fields.keys]
  have hall : (Fields.keys fields).all isOperator = true ↔
      ∀ entry ∈ fields, isOperator entry.1 = true := by simp [Fields.keys]
  rw [← hany, ← hall, isMixed]
  cases (Fields.keys fields).any isOperator <;> simp

theorem isQuery_object_iff {isRoot : Bool} {fields : Object} :
    IsQuery isRoot (.object fields) ↔
      (isRoot = false → isMixed fields = false) ∧
        ∀ entry ∈ fields, Allowed isRoot entry.1 entry.2 := by
  cases isRoot with
  | true =>
    constructor
    · rintro ⟨h⟩
      exact ⟨by simp, h⟩
    · intro h
      exact .object h.2
  | false =>
    constructor
    · intro h
      cases h with
      | attributes hkeys h =>
        exact ⟨fun _ => isMixed_eq_false_iff.2 (.inl hkeys),
          fun entry hentry => .inl ⟨hkeys entry hentry, h entry hentry⟩⟩
      | operators h =>
        exact ⟨fun _ => isMixed_eq_false_iff.2 (.inr fun entry hentry => (h entry hentry).isOperator),
          fun entry hentry => .inr (h entry hentry)⟩
    · rintro ⟨hmixed, h⟩
      rcases isMixed_eq_false_iff.1 (hmixed rfl) with hkeys | hkeys
      · refine .attributes hkeys fun entry hentry => ?_
        rcases h entry hentry with ⟨-, hcondition⟩ | hoperation
        · exact hcondition
        · have hkey := hoperation.isOperator
          rw [hkeys entry hentry] at hkey
          cases hkey
      · refine .operators fun entry hentry => ?_
        rcases h entry hentry with ⟨hkey, -⟩ | hoperation
        · rw [hkeys entry hentry] at hkey
          cases hkey
        · exact hoperation

theorem condition_iff {v : Value} : Condition v ↔ Subquery v ∨ v.asObject? = none := by
  constructor
  · intro h
    cases h with
    | value hv => exact .inr hv
    | query h => exact .inl h
  · rintro (h | hv)
    · exact .query h
    · exact .value hv

/-- A field compiles if and only if it is one of a query, provided that this holds of the operand. -/
theorem exists_compiled_iff {isRoot : Bool} {path key : String} {v : Value}
    (hat : ∀ path, (∃ es, compileAt false path (equality path) v = .ok es) ↔ Condition v)
    (hlist : ∀ fault, (∃ lists, compileList isRoot path fault v = .ok lists) ↔
      ∃ items, v = .array items ∧ ∀ q ∈ items, IsQuery isRoot q) :
    (∃ here, Compiled isRoot path key v here) ↔ Allowed isRoot key v := by
  constructor
  · rintro ⟨here, h⟩
    cases h with
    | named hkey h =>
      have hcondition := (hat _).1 ⟨_, h⟩
      cases isRoot with
      | true => exact .named hkey hcondition
      | false => exact .inl ⟨hkey, hcondition⟩
    | scalar hroot h =>
      subst hroot
      exact .inr (.scalar h)
    | samePath hroot h =>
      subst hroot
      exact .inr (.negated ((hat _).1 ⟨_, h⟩))
    | items hroot hop h =>
      subst hroot
      exact .inr (.quantified (Operator.operands_eq_items_iff.1 hop) ((hat _).1 ⟨_, h⟩))
    | queries hop h =>
      obtain ⟨items, rfl, hitems⟩ := (hlist _).1 ⟨_, h⟩
      cases isRoot with
      | true => exact .logical (Operator.operands_eq_queries_iff.1 hop) hitems
      | false => exact .inr (.logical (Operator.operands_eq_queries_iff.1 hop) hitems)
  · intro h
    cases isRoot with
    | true =>
      cases h with
      | named hkey h =>
        obtain ⟨here, hhere⟩ := (hat _).2 h
        exact ⟨here, .named hkey hhere⟩
      | logical hop h =>
        obtain ⟨lists, hlists⟩ := (hlist _).2 ⟨_, rfl, h⟩
        exact ⟨_, .queries (Operator.operands_eq_queries_iff.2 hop) hlists⟩
    | false =>
      rcases h with ⟨hkey, h⟩ | h
      · obtain ⟨here, hhere⟩ := (hat _).2 h
        exact ⟨here, .named hkey hhere⟩
      · cases h with
        | logical hop h =>
          obtain ⟨lists, hlists⟩ := (hlist _).2 ⟨_, rfl, h⟩
          exact ⟨_, .queries (Operator.operands_eq_queries_iff.2 hop) hlists⟩
        | negated h =>
          obtain ⟨inner, hinner⟩ := (hat path).2 h
          exact ⟨_, .samePath rfl hinner⟩
        | quantified hop h =>
          obtain ⟨inner, hinner⟩ := (hat "").2 h
          exact ⟨_, .items rfl (Operator.operands_eq_items_iff.2 hop) hinner⟩
        | scalar h => exact ⟨_, .scalar rfl h⟩

theorem not_isQuery {isRoot : Bool} {v : Value} (hv : v.asObject? = none) : ¬ IsQuery isRoot v := by
  intro h
  cases isRoot with
  | true =>
    obtain ⟨_⟩ := h
    cases hv
  | false => cases h <;> cases hv

mutual

theorem exists_compileAt_iff (isRoot : Bool) (path : String)
    (other : Value → Except Error (List Expression)) : ∀ v : Value,
      (∃ es, compileAt isRoot path other v = .ok es) ↔
        IsQuery isRoot v ∨ v.asObject? = none ∧ ∃ es, other v = .ok es
  | .object fields => by
    have hfields := exists_compileFields_iff isRoot path fields fields
    rw [isQuery_object_iff, ← hfields, compileAt]
    by_cases hmixed : (!isRoot && isMixed fields) = true
    · rw [if_pos hmixed]
      constructor
      · rintro ⟨es, h⟩
        cases h
      · rintro (h | ⟨hobject, -⟩)
        · simp_all
        · cases hobject
    · rw [if_neg hmixed]
      constructor
      · intro h
        exact .inl ⟨fun hroot => by simpa [hroot] using hmixed, h⟩
      · rintro (h | ⟨hobject, -⟩)
        · exact h.2
        · cases hobject
  | .undefined | .null | .boolean _ | .number _ | .string _ | .date _ | .pattern _ | .array _
  | .record _ | .classRef _ => by
    constructor
    · intro h
      exact .inr ⟨rfl, h⟩
    · rintro (h | ⟨-, h⟩)
      · exact absurd h (not_isQuery rfl)
      · exact h
termination_by structural v => v

theorem exists_compileFields_iff (isRoot : Bool) (path : String) (query : Object) :
    ∀ fields : List (String × Value),
      (∃ es, compileFields isRoot path query fields = .ok es) ↔
        ∀ entry ∈ fields, Allowed isRoot entry.1 entry.2
  | [] => by
    constructor
    · intro _ entry hentry
      cases hentry
    · intro _
      exact ⟨[], rfl⟩
  | (key, v) :: rest => by
    have hat (path : String) :
        (∃ es, compileAt false path (equality path) v = .ok es) ↔ Condition v := by
      rw [exists_compileAt_iff false path (equality path) v, condition_iff]
      constructor
      · rintro (h | ⟨hv, -⟩)
        · exact .inl h
        · exact .inr hv
      · rintro (h | hv)
        · exact .inl h
        · exact .inr ⟨hv, _, rfl⟩
    have hfirst : (∃ here, Compiled isRoot path key v here) ↔ Allowed isRoot key v :=
      exists_compiled_iff hat fun fault => exists_compileList_iff isRoot path fault v
    have hrest := exists_compileFields_iff isRoot path query rest
    rw [List.forall_mem_cons, ← hfirst, ← hrest]
    constructor
    · rintro ⟨es, h⟩
      obtain ⟨here, below, hhere, hbelow, -⟩ := compiled_of_compileFields h
      exact ⟨⟨here, hhere⟩, below, hbelow⟩
    · rintro ⟨⟨here, hhere⟩, below, hbelow⟩
      exact ⟨_, hhere.compileFields hbelow⟩
termination_by structural fields => fields

theorem exists_compileList_iff (isRoot : Bool) (path : String) (fault : Error) : ∀ v : Value,
      (∃ lists, compileList isRoot path fault v = .ok lists) ↔
        ∃ items, v = .array items ∧ ∀ q ∈ items, IsQuery isRoot q
  | .array items => by
    have hitems := exists_compileItems_iff isRoot path fault items
    rw [compileList, hitems]
    constructor
    · intro h
      exact ⟨items, rfl, h⟩
    · rintro ⟨_, heq, h⟩
      cases heq
      exact h
  | .undefined | .null | .boolean _ | .number _ | .string _ | .date _ | .pattern _ | .object _
  | .record _ | .classRef _ => by
    constructor
    · rintro ⟨lists, h⟩
      cases h
    · rintro ⟨items, heq, -⟩
      cases heq
termination_by structural v => v

theorem exists_compileItems_iff (isRoot : Bool) (path : String) (fault : Error) :
    ∀ items : List Value, (∃ lists, compileItems isRoot path fault items = .ok lists) ↔
      ∀ q ∈ items, IsQuery isRoot q
  | [] => by
    constructor
    · intro _ q hq
      cases hq
    · intro _
      exact ⟨[], rfl⟩
  | v :: rest => by
    have hfirst : (∃ es, compileAt isRoot path (fun _ => throw fault) v = .ok es) ↔
        IsQuery isRoot v := by
      rw [exists_compileAt_iff isRoot path (fun _ => throw fault) v]
      constructor
      · rintro (h | ⟨-, es, h⟩)
        · exact h
        · cases h
      · exact .inl
    have hrest := exists_compileItems_iff isRoot path fault rest
    rw [List.forall_mem_cons, ← hfirst, ← hrest, compileItems]
    constructor
    · rintro ⟨lists, h⟩
      obtain ⟨es, hes, hnext⟩ := bind_eq_ok h
      obtain ⟨below, hbelow, -⟩ := bind_eq_ok hnext
      exact ⟨⟨es, hes⟩, below, hbelow⟩
    · rintro ⟨⟨es, hes⟩, below, hbelow⟩
      exact ⟨es :: below, by rw [hes, hbelow]; rfl⟩
termination_by structural items => items

end

/-! ### What a query stands for -/

mutual

/-- The expressions of the fields of a query at a path, in their order. -/
inductive Listed : String → List (String × Value) → List Expression → Prop
  | nil {path : String} : Listed path [] []
  | named {path key : String} {v : Value} {here below : List Expression}
      {rest : List (String × Value)} (hkey : isOperator key = false)
      (h : Stated (Path.join path key) v here) (hrest : Listed path rest below) :
    Listed path ((key, v) :: rest) (here ++ below)
  | operator {path : String} {op : Operator} {v : Value} {e : Expression}
      {below : List Expression} {rest : List (String × Value)} (h : Expressed path op v e)
      (hrest : Listed path rest below) : Listed path ((op.name, v) :: rest) (e :: below)

/-- Those of a query, or of a value to equal. -/
inductive Stated : String → Value → List Expression → Prop
  | value {path : String} {v : Value} (hv : v.asObject? = none) :
    Stated path v [.value path .equal v]
  | query {path : String} {fields : Object} {es : List Expression} (h : Listed path fields es) :
    Stated path (.object fields) es

/-- The one expression of an operator. Quantifiers begin a path of their own. -/
inductive Expressed : String → Operator → Value → Expression → Prop
  | scalar {path : String} {op : Operator} {v : Value} (h : Takes op v) :
    Expressed path op v (.value path op v)
  | negated {path : String} {v : Value} {es : List Expression} (h : Stated path v es) :
    Expressed path .not v (.nested path .not es)
  | quantified {path : String} {op : Operator} {v : Value} {es : List Expression}
      (hop : op ∈ [.some, .every]) (h : Stated "" v es) : Expressed path op v (.nested path op es)
  | logical {path : String} {op : Operator} {items : List Value} {lists : List (List Expression)}
      (hop : op ∈ [.and, .or, .nor]) (h : EachStated path items lists) :
    Expressed path op (.array items) (.lists path op lists)

inductive EachStated : String → List Value → List (List Expression) → Prop
  | nil {path : String} : EachStated path [] []
  | cons {path : String} {q : Value} {es : List Expression} {rest : List Value}
      {lists : List (List Expression)} (h : Stated path q es) (hrest : EachStated path rest lists) :
    EachStated path (q :: rest) (es :: lists)

end

mutual

theorem stated_of_compileAt {isRoot : Bool} {path : String}
    {other : Value → Except Error (List Expression)}
    (hother : ∀ v es, other v = .ok es → es = [.value path .equal v]) :
    ∀ (v : Value) (es : List Expression), compileAt isRoot path other v = .ok es →
      Stated path v es
  | .object fields => by
    intro es h
    rw [compileAt] at h
    split at h
    · cases h
    · exact .query (listed_of_compileFields fields es h)
  | .undefined | .null | .boolean _ | .number _ | .string _ | .date _ | .pattern _ | .array _
  | .record _ | .classRef _ => by
    intro es h
    rw [hother _ _ h]
    exact .value rfl
termination_by structural v => v

theorem listed_of_compileFields {isRoot : Bool} {path : String} {query : Object} :
    ∀ (fields : List (String × Value)) (es : List Expression),
      compileFields isRoot path query fields = .ok es → Listed path fields es
  | [] => by
    intro es h
    cases h
    exact .nil
  | (key, v) :: rest => by
    intro es h
    obtain ⟨here, below, hhere, hbelow, rfl⟩ := compiled_of_compileFields h
    have hrest := listed_of_compileFields rest below hbelow
    cases hhere with
    | named hkey hat => exact .named hkey (stated_of_compileAt (equality_eq_ok _) v _ hat) hrest
    | scalar hroot htakes => exact .operator (.scalar htakes) hrest
    | samePath hroot hat =>
      exact .operator (.negated (stated_of_compileAt (equality_eq_ok _) v _ hat)) hrest
    | items hroot hop hat =>
      exact .operator (.quantified (Operator.operands_eq_items_iff.1 hop)
        (stated_of_compileAt (equality_eq_ok _) v _ hat)) hrest
    | queries hop hlist =>
      obtain ⟨items, rfl, hitems⟩ := eachStated_of_compileList v _ hlist
      exact .operator (.logical (Operator.operands_eq_queries_iff.1 hop) hitems) hrest
termination_by structural fields => fields

theorem eachStated_of_compileList {isRoot : Bool} {path : String} {fault : Error} :
    ∀ (v : Value) (lists : List (List Expression)),
      compileList isRoot path fault v = .ok lists →
        ∃ items, v = .array items ∧ EachStated path items lists
  | .array items => by
    intro lists h
    exact ⟨items, rfl, eachStated_of_compileItems items lists h⟩
  | .undefined | .null | .boolean _ | .number _ | .string _ | .date _ | .pattern _ | .object _
  | .record _ | .classRef _ => by
    intro lists h
    cases h
termination_by structural v => v

theorem eachStated_of_compileItems {isRoot : Bool} {path : String} {fault : Error} :
    ∀ (items : List Value) (lists : List (List Expression)),
      compileItems isRoot path fault items = .ok lists → EachStated path items lists
  | [] => by
    intro lists h
    cases h
    exact .nil
  | v :: rest => by
    intro lists h
    obtain ⟨es, hes, hnext⟩ := bind_eq_ok h
    obtain ⟨below, hbelow, hlists⟩ := bind_eq_ok hnext
    cases hlists
    have hfault : ∀ w es, (fun _ : Value => (throw fault : Except Error (List Expression))) w =
        .ok es → es = [.value path .equal w] := by
      intro w es hw
      cases hw
    exact .cons (stated_of_compileAt hfault v es hes)
      (eachStated_of_compileItems rest below hbelow)
termination_by structural items => items

end

theorem stated_of_compile {query : Value} {es : List Expression} (h : compile query = .ok es) :
    Stated "" query es := by
  refine stated_of_compileAt ?_ query es h
  intro v es hv
  cases hv

/-- A value compiles if and only if it is a query, and then to the expressions that it stands for. -/
theorem compile_accepts (query : Value) :
    ((∃ es, compile query = .ok es) ↔ RootQuery query) ∧
      ∀ es, compile query = .ok es → Stated "" query es := by
  constructor
  · rw [compile, exists_compileAt_iff true]
    constructor
    · rintro (h | ⟨-, es, h⟩)
      · exact h
      · cases h
    · exact .inl
  · intro es h
    exact stated_of_compile h

/-- Named Alien or some genre of two, with no stars that are all from a list. -/
def titleOrGenres : Value :=
  .object [
    ("$or", .array [
      .object [("title", .string "Alien")],
      .object [("genres", .object [
        ("$some", .object [("$in", .array [.string "Horror", .string "Drama"])])])]]),
    ("stars", .object [
      ("$not", .object [("$every", .object [("name", .object [("$startsWith", .string "A")])])])])]

theorem compile_accepts_titleOrGenres :
    RootQuery titleOrGenres ∧ Stated "" titleOrGenres [
      .lists "" .or [
        [.value "title" .equal (.string "Alien")],
        [.nested "genres" .some [.value "" .in_ (.array [.string "Horror", .string "Drama"])]]],
      .nested "stars" .not [.nested "stars" .every [.value "name" .startsWith (.string "A")]]] := by
  have h : compile titleOrGenres = .ok [
      .lists "" .or [
        [.value "title" .equal (.string "Alien")],
        [.nested "genres" .some [.value "" .in_ (.array [.string "Horror", .string "Drama"])]]],
      .nested "stars" .not [.nested "stars" .every [.value "name" .startsWith (.string "A")]]] := rfl
  obtain ⟨haccepts, hstated⟩ := compile_accepts titleOrGenres
  exact ⟨haccepts.1 ⟨_, h⟩, hstated _ h⟩

end TypedRecords.Query
