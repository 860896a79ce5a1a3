import TypedRecords.Query.Compile
import TypedRecords.Proofs.Results

/-! # The fields of a query

What one field of a query is compiled to: under an attribute whatever its value is compiled to, under
an operator one expression. A query is compiled field by field, and so compiles if and only if each of
its fields does.
-/

namespace TypedRecords

/-! ### Operators by name -/

theorem Operator.ofName?_eq_some_iff {key : String} {op : Operator} :
    Operator.ofName? key = .some op ↔ key = op.name := by
  constructor
  · intro h
    have hfound : all.find? (fun op => op.name == key) = .some op := h
    have hname := List.find?_some hfound
    exact (beq_iff_eq.1 hname).symm
  · rintro rfl
    cases op <;> rfl

theorem Operator.isLogical_iff {op : Operator} :
    op.isLogical = true ↔ op.operands = .queries := beq_iff_eq

theorem Operator.operands_eq_queries_iff {op : Operator} :
    op.operands = .queries ↔ op ∈ [Operator.and, .or, .nor] := by
  cases op <;> simp [Operator.operands]

theorem Operator.operands_eq_items_iff {op : Operator} :
    op.operands = .items ↔ op ∈ [Operator.some, .every] := by
  cases op <;> simp [Operator.operands]

namespace Query

theorem isOperator_name (op : Operator) : isOperator op.name = true := by
  cases op <;> rfl

/-! ### Scalar operators -/

/-- What the operators without a query below them take. -/
def Takes (op : Operator) (v : Value) : Prop :=
  match op with
  | .in_ => ∃ items, v = .array items
  | .startsWith | .endsWith => ∃ s, v = .string s
  | .matches_ => ∃ p, v = .pattern p
  | .length => ∃ x, v = .number x
  | .some | .every | .not | .and | .or | .nor => False
  | _ => v.asObject? = none

theorem Takes.operands {op : Operator} {v : Value} (h : Takes op v) : op.operands = .scalar := by
  cases op with
  | some | every | not | and | or | nor => cases h
  | _ => rfl

theorem Takes.no_object {op : Operator} {v : Value} (h : Takes op v) : v.asObject? = none := by
  cases op with
  | in_ | startsWith | endsWith | matches_ | length =>
    obtain ⟨_, rfl⟩ := h
    rfl
  | some | every | not | and | or | nor => cases h
  | _ => exact h

theorem takes_iff {op : Operator} (hs : op.operands = .scalar) {v : Value}
    (hv : v.asObject? = none) : Takes op v ↔ operandFault? op v = none := by
  cases op with
  | in_ | startsWith | endsWith | matches_ | length =>
    cases v <;> simp [Takes, operandFault?]
  | some | every | not | and | or | nor => cases hs
  | _ => simp [Takes, operandFault?, hv]

theorem compileScalar_eq_ok_iff {path : String} {op : Operator} (hs : op.operands = .scalar)
    {v : Value} {e : Expression} :
    compileScalar path op v = .ok e ↔ Takes op v ∧ e = .value path op v := by
  cases hv : v.asObject? with
  | some fields =>
    have hobject : v = .object fields := by
      cases v with
      | object _ =>
        cases hv
        rfl
      | _ => cases hv
    subst hobject
    constructor
    · intro h
      cases h
    · intro h
      cases h.1.no_object
  | none =>
    have hscalar : compileScalar path op v = (operandFault? op v).elim
        (pure (.value path op v)) fun expected => throw (.invalidOperand op.name expected v) := by
      unfold compileScalar
      split
      · cases hv
      · cases operandFault? op v <;> rfl
    rw [hscalar, takes_iff hs hv]
    cases operandFault? op v with
    | none =>
      constructor
      · intro h
        cases h
        exact ⟨rfl, rfl⟩
      · rintro ⟨-, rfl⟩
        rfl
    | some expected =>
      constructor
      · intro h
        cases h
      · intro h
        cases h.1

theorem equality_eq_ok (path : String) (v : Value) (es : List Expression)
    (h : equality path v = .ok es) : es = [.value path .equal v] := by
  cases h
  rfl

/-! ### One field -/

/-- What one field of a query is compiled to. -/
inductive Compiled (isRoot : Bool) (path : String) : String → Value → List Expression → Prop
  | named {key : String} {v : Value} {here : List Expression} (hkey : isOperator key = false)
      (h : compileAt false (Path.join path key) (equality (Path.join path key)) v = .ok here) :
    Compiled isRoot path key v here
  | scalar {op : Operator} {v : Value} (hroot : isRoot = false) (h : Takes op v) :
    Compiled isRoot path op.name v [.value path op v]
  | samePath {v : Value} {inner : List Expression} (hroot : isRoot = false)
      (h : compileAt false path (equality path) v = .ok inner) :
    Compiled isRoot path Operator.not.name v [.nested path .not inner]
  | items {op : Operator} {v : Value} {inner : List Expression} (hroot : isRoot = false)
      (hop : op.operands = .items) (h : compileAt false "" (equality "") v = .ok inner) :
    Compiled isRoot path op.name v [.nested path op inner]
  | queries {op : Operator} {v : Value} {lists : List (List Expression)}
      (hop : op.operands = .queries) (h : compileList isRoot path (listFault op v) v = .ok lists) :
    Compiled isRoot path op.name v [.lists path op lists]

theorem operatorOf_eq_ok_iff {isRoot : Bool} {key : String} {query : Object} {op : Operator} :
    operatorOf isRoot key query = .ok op ↔
      key = op.name ∧ (isRoot = true → op.operands = .queries) := by
  rw [← Operator.ofName?_eq_some_iff, ← Operator.isLogical_iff]
  unfold operatorOf
  cases Operator.ofName? key with
  | none =>
    constructor
    · intro h
      cases isRoot <;> cases h
    · intro h
      cases h.1
  | some found =>
    dsimp only
    by_cases hlogical : (isRoot && !found.isLogical) = true
    · constructor
      · intro h
        rw [if_pos hlogical] at h
        cases h
      · rintro ⟨hfound, hroot⟩
        cases hfound
        simp_all
    · constructor
      · intro h
        rw [if_neg hlogical] at h
        cases h
        exact ⟨rfl, by simpa using hlogical⟩
      · rintro ⟨hfound, -⟩
        cases hfound
        exact if_neg hlogical

theorem compiled_of_compileFields {isRoot : Bool} {path key : String} {query : Object}
    {v : Value} {rest : List (String × Value)} {es : List Expression}
    (h : compileFields isRoot path query ((key, v) :: rest) = .ok es) :
    ∃ here below, Compiled isRoot path key v here ∧
      compileFields isRoot path query rest = .ok below ∧ es = here ++ below := by
  simp only [compileFields] at h
  by_cases hkey : isOperator key = true
  · simp only [hkey, if_true] at h
    obtain ⟨op, hop, hnext⟩ := bind_eq_ok h
    clear h
    obtain ⟨rfl, hroot⟩ := operatorOf_eq_ok_iff.1 hop
    have hbelow : op.operands ≠ .queries → isRoot = false := by
      intro hne
      cases isRoot with
      | true => exact absurd (hroot rfl) hne
      | false => rfl
    cases hs : op.operands with
    | scalar =>
      simp only [hs, pure_bind] at hnext
      obtain ⟨e, he, hnext⟩ := bind_eq_ok hnext
      obtain ⟨below, hrest, hnext⟩ := bind_eq_ok hnext
      cases hnext
      obtain ⟨htakes, rfl⟩ := (compileScalar_eq_ok_iff hs).1 he
      exact ⟨_, below, .scalar (hbelow (by simp [hs])) htakes, hrest, rfl⟩
    | samePath =>
      simp only [hs, pure_bind] at hnext
      obtain ⟨inner, hinner, hnext⟩ := bind_eq_ok hnext
      obtain ⟨below, hrest, hnext⟩ := bind_eq_ok hnext
      cases hnext
      obtain rfl : op = .not := by cases op <;> first | rfl | cases hs
      exact ⟨_, below, .samePath (hbelow (by simp [hs])) hinner, hrest, rfl⟩
    | items =>
      simp only [hs, pure_bind] at hnext
      obtain ⟨inner, hinner, hnext⟩ := bind_eq_ok hnext
      obtain ⟨below, hrest, hnext⟩ := bind_eq_ok hnext
      cases hnext
      exact ⟨_, below, .items (hbelow (by simp [hs])) hs hinner, hrest, rfl⟩
    | queries =>
      simp only [hs, pure_bind] at hnext
      obtain ⟨lists, hlists, hnext⟩ := bind_eq_ok hnext
      obtain ⟨below, hrest, hnext⟩ := bind_eq_ok hnext
      cases hnext
      exact ⟨_, below, .queries hs hlists, hrest, rfl⟩
  · simp only [hkey] at h
    obtain ⟨here, hhere, h⟩ := bind_eq_ok h
    obtain ⟨below, hrest, h⟩ := bind_eq_ok h
    cases h
    exact ⟨here, below, .named (Bool.eq_false_iff.2 hkey) hhere, hrest, rfl⟩

theorem Compiled.compileFields {isRoot : Bool} {path key : String} {v : Value}
    {here below : List Expression} (h : Compiled isRoot path key v here) {query : Object}
    {rest : List (String × Value)} (hrest : compileFields isRoot path query rest = .ok below) :
    compileFields isRoot path query ((key, v) :: rest) = .ok (here ++ below) := by
  have hname {op : Operator} (hop : isRoot = true → op.operands = .queries) :
      operatorOf isRoot op.name query = .ok op := operatorOf_eq_ok_iff.2 ⟨rfl, hop⟩
  cases h with
  | named hkey h =>
    simp only [Query.compileFields, hkey, h, hrest]
    rfl
  | scalar hroot h =>
    have hscalar : compileScalar path _ v = .ok _ :=
      (compileScalar_eq_ok_iff h.operands).2 ⟨h, rfl⟩
    simp only [Query.compileFields, isOperator_name, if_true, hname (by simp [hroot]), hrest]
    simp only [bind, Except.bind, h.operands, hscalar]
    rfl
  | samePath hroot h =>
    simp only [Query.compileFields, isOperator_name, if_true, hname (by simp [hroot]), hrest]
    simp only [bind, Except.bind, h, Operator.operands]
    rfl
  | items hroot hop h =>
    simp only [Query.compileFields, isOperator_name, if_true, hname (by simp [hroot]), hrest]
    simp only [bind, Except.bind, h, hop]
    rfl
  | queries hop h =>
    simp only [Query.compileFields, isOperator_name, if_true, hname fun _ => hop, hrest]
    simp only [bind, Except.bind, h, hop]
    rfl

end Query

end TypedRecords
