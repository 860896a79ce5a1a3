import TypedRecords.Query.Evaluate
import TypedRecords.Proofs.Document.Names
import TypedRecords.Proofs.Query.Compiled

/-! # The meaning of queries

A query read as a condition on a value, by its structure alone: an attribute goes down one level,
quantifiers go through the items of an array, and whatever is no object is a value to equal. The
expressions that a query is compiled to are met by exactly the documents that meet the query.
-/

namespace TypedRecords.Query

/-! ### Direct reading -/

/-- Whether two values are in order, and how. -/
def related (accepted : Ordering → Bool) (v operand : Value) : Bool :=
  (v.compare? operand).any accepted

/-- Whether a value stands in the relation of a scalar operator to its operand. -/
def relates (op : Operator) (v operand : Value) : Bool :=
  match op, v, operand with
  | .equal, v, w => v.beq w
  | .notEqual, v, w => !v.beq w
  | .greaterThan, v, w => related (· == .gt) v w
  | .greaterThanOrEqual, v, w => related (· != .lt) v w
  | .lessThan, v, w => related (· == .lt) v w
  | .lessThanOrEqual, v, w => related (· != .gt) v w
  | .in_, v, .array candidates => candidates.any fun candidate => candidate.beq v
  | .includes, .string text, .string part => Text.occursIn part.toList text.toList
  | .includes, .array items, w => items.any fun item => item.beq w
  | .startsWith, .string text, .string start => Text.startsWith text start
  | .endsWith, .string text, .string ending => Text.endsWith text ending
  | .matches_, .string text, .pattern p => p.matches? text == some true
  | .length, v, .number x => v.length?.any fun n => (Number.ofNat n).beq x
  | _, _, _ => false

mutual

/-- Whether a value meets a query. -/
def meets : (query v : Value) → Bool
  | .object conditions, v => meetsAll conditions v
  | operand, v => v.beq operand
termination_by structural query => query

/-- Whether a value meets every condition of an object. -/
def meetsAll : List (String × Value) → Value → Bool
  | [], _ => true
  | (key, query) :: rest, v =>
    (if isOperator key then
      match Operator.ofName? key with
      | some .not => !meets query v
      | some .some => v.asArray?.any fun items => items.any fun item => meets query item
      | some .every => v.asArray?.any fun items => items.all fun item => meets query item
      | some .and => (verdicts query v).all id
      | some .or => (verdicts query v).any id
      | some .nor => !(verdicts query v).any id
      | some op => relates op v query
      | none => false
    else meets query (v.field key)) && meetsAll rest v
termination_by structural conditions => conditions

/-- Which of the queries in a list a value meets. -/
def verdicts : (queries v : Value) → List Bool
  | .array queries, v => itemVerdicts queries v
  | _, _ => []
termination_by structural queries => queries

def itemVerdicts : List Value → Value → List Bool
  | [], _ => []
  | query :: rest, v => meets query v :: itemVerdicts rest v
termination_by structural queries => queries

end

/-! ### Proper queries -/

/-- Whether an operand is no pattern to match that does not compile. -/
def Compiles : Operator → Value → Prop
  | .matches_, .pattern p => p.compile?.isSome
  | _, _ => True

mutual

/-- Attributes are named by proper names, and patterns to match compile. -/
def Proper : Value → Prop
  | .object conditions => ProperAll conditions
  | _ => True

def ProperAll : List (String × Value) → Prop
  | [] => True
  | (key, query) :: rest =>
    (if isOperator key then
      match Operator.ofName? key with
      | some op =>
        match op.operands with
        | .scalar => Compiles op query
        | .queries => ProperList query
        | _ => Proper query
      | none => True
    else Path.IsName key ∧ Proper query) ∧ ProperAll rest

def ProperList : Value → Prop
  | .array queries => ProperItems queries
  | _ => True

def ProperItems : List Value → Prop
  | [] => True
  | query :: rest => Proper query ∧ ProperItems rest

end

/-! ### Scalars -/

theorem evaluateScalar_eq {op : Operator} {operand : Value} (hs : op.operands = .scalar)
    (hm : Compiles op operand) (v : Value) :
    evaluateScalar op v operand = .ok (relates op v operand) := by
  cases op with
  | equal | notEqual => rfl
  | greaterThan | greaterThanOrEqual | lessThan | lessThanOrEqual =>
    simp only [evaluateScalar, relates, related]
    rcases v.compare? operand with _ | o
    · rfl
    · cases o <;> rfl
  | in_ => cases operand <;> rfl
  | includes | startsWith | endsWith => cases v <;> cases operand <;> rfl
  | length =>
    cases operand with
    | number x =>
      cases h : v.length? with
      | none => simp only [evaluateScalar, relates, h]; rfl
      | some n => simp only [evaluateScalar, relates, h, Option.any]; rfl
    | _ => simp only [evaluateScalar, relates]; cases v.length? <;> rfl
  | matches_ =>
    cases v with
    | string text =>
      cases operand with
      | pattern p =>
        obtain ⟨regex, hr⟩ := Option.isSome_iff_exists.1 hm
        cases hb : regex.isMatch text <;>
          simp [evaluateScalar, relates, Pattern.test, Pattern.matches?, hr, hb] <;> rfl
      | _ => rfl
    | _ => cases operand <;> rfl
  | some | every | not | and | or | nor => simp [Operator.operands] at hs

/-! ### Lists of expressions -/

theorem evaluateAll_append {context : Value} {first second : List Expression} {a b : Bool}
    (hfirst : evaluateAll context first = .ok a) (hsecond : evaluateAll context second = .ok b) :
    evaluateAll context (first ++ second) = .ok (a && b) := by
  induction first generalizing a with
  | nil =>
    have ha : a = true := by simpa [evaluateAll, pure, Except.pure] using hfirst.symm
    simpa [ha] using hsecond
  | cons e rest ih =>
    simp only [List.cons_append, evaluateAll] at hfirst ⊢
    cases he : evaluate context e with
    | error fault => simp [he, bind, Except.bind] at hfirst
    | ok met =>
      simp only [he, bind, Except.bind] at hfirst ⊢
      cases met with
      | false =>
        have ha : a = false := by simpa [pure, Except.pure] using hfirst.symm
        simp [ha, pure, Except.pure]
      | true => exact ih hfirst

theorem evaluateAll_singleton {context : Value} {e : Expression} {b : Bool}
    (h : evaluate context e = .ok b) : evaluateAll context [e] = .ok b := by
  cases b <;> simp [evaluateAll, h, bind, Except.bind, pure, Except.pure]

theorem anyItem_eq {test : Value → Except Error Bool} {met : Value → Bool}
    (h : ∀ v, test v = .ok (met v)) (items : List Value) :
    anyItem test items = .ok (items.any met) := by
  induction items with
  | nil => rfl
  | cons v rest ih =>
    cases hv : met v <;> simp [anyItem, h, hv, ih, bind, Except.bind, pure, Except.pure]

theorem allItems_eq {test : Value → Except Error Bool} {met : Value → Bool}
    (h : ∀ v, test v = .ok (met v)) (items : List Value) :
    allItems test items = .ok (items.all met) := by
  induction items with
  | nil => rfl
  | cons v rest ih =>
    cases hv : met v <;> simp [allItems, h, hv, ih, bind, Except.bind, pure, Except.pure]

theorem allOf_eq {context : Value} {lists : List (List Expression)} {met : List Bool}
    (h : List.Forall₂ (fun es b => evaluateAll context es = .ok b) lists met) :
    allOf context lists = .ok (met.all id) := by
  induction h with
  | nil => rfl
  | @cons es b rest met hes _ ih =>
    cases b <;> simp [allOf, hes, ih, bind, Except.bind, pure, Except.pure]

theorem anyOf_eq {context : Value} {lists : List (List Expression)} {met : List Bool}
    (h : List.Forall₂ (fun es b => evaluateAll context es = .ok b) lists met) :
    anyOf context lists = .ok (met.any id) := by
  induction h with
  | nil => rfl
  | @cons es b rest met hes _ ih =>
    cases b <;> simp [anyOf, hes, ih, bind, Except.bind, pure, Except.pure]

/-! ### Conditions one by one -/

theorem meetsAll_cons (key : String) (query : Value) (rest : List (String × Value)) (v : Value) :
    meetsAll ((key, query) :: rest) v = (meetsAll [(key, query)] v && meetsAll rest v) := by
  simp only [meetsAll, Bool.and_true]

section

variable {key : String} {op : Operator} (hkey : isOperator key = true)
  (hop : Operator.ofName? key = some op)

include hkey hop

theorem meetsAll_scalar (hs : op.operands = .scalar) (query v : Value) :
    meetsAll [(key, query)] v = relates op v query := by
  cases op <;> first | (simp [Operator.operands] at hs; done) | simp [meetsAll, hkey, hop]

theorem evaluate_negated (hs : op.operands = .samePath) {context v query : Value} {path : String}
    {inner : List Expression} (hinner : evaluateAll context inner = .ok (meets query v)) :
    evaluate context (.nested path op inner) = .ok (meetsAll [(key, query)] v) := by
  obtain rfl : op = .not := by cases op <;> simp [Operator.operands] at hs ⊢
  simp only [meetsAll, hkey, hop, if_true, Bool.and_true, evaluate, hinner]
  rfl

theorem evaluate_quantified (hs : op.operands = .items) {context v query : Value} {path : String}
    {inner : List Expression} (hv : Path.get context path = v)
    (hinner : ∀ item, evaluateAll item inner = .ok (meets query item)) :
    evaluate context (.nested path op inner) = .ok (meetsAll [(key, query)] v) := by
  cases op with
  | some =>
    simp only [meetsAll, hkey, hop, if_true, Bool.and_true, evaluate, hv]
    cases v with
    | array items => exact anyItem_eq hinner items
    | _ => rfl
  | every =>
    simp only [meetsAll, hkey, hop, if_true, Bool.and_true, evaluate, hv]
    cases v with
    | array items => exact allItems_eq hinner items
    | _ => rfl
  | _ => simp [Operator.operands] at hs

theorem evaluate_combined (hs : op.operands = .queries) {context v query : Value} {path : String}
    {lists : List (List Expression)}
    (hlists : List.Forall₂ (fun es met => evaluateAll context es = .ok met) lists
      (verdicts query v)) :
    evaluate context (.lists path op lists) = .ok (meetsAll [(key, query)] v) := by
  cases op with
  | and => simp only [meetsAll, hkey, hop, if_true, Bool.and_true, evaluate, allOf_eq hlists]
  | or => simp only [meetsAll, hkey, hop, if_true, Bool.and_true, evaluate, anyOf_eq hlists]
  | nor =>
    simp only [meetsAll, hkey, hop, if_true, Bool.and_true, evaluate, anyOf_eq hlists]
    rfl
  | _ => simp [Operator.operands] at hs

end

/-- One step through the fields of a query, from what holds of the query under the first key. -/
theorem evaluateAll_compileFields_cons {isRoot : Bool} {names : List String}
    (hnames : ∀ name ∈ names, Path.IsName name) {query : Object} {key : String} {v : Value}
    {rest : List (String × Value)}
    (hat : ∀ names' : List String, (∀ name ∈ names', Path.IsName name) → ∀ es,
      compileAt false (Path.ofNames names') (equality (Path.ofNames names')) v = .ok es →
      Proper v → ∀ context,
        evaluateAll context es = .ok (meets v (names'.foldl Value.field context)))
    (hlist : ∀ fault lists, compileList isRoot (Path.ofNames names) fault v = .ok lists →
      ProperList v → ∀ context, List.Forall₂ (fun es met => evaluateAll context es = .ok met) lists
        (verdicts v (names.foldl Value.field context)))
    (hrest : ∀ below, compileFields isRoot (Path.ofNames names) query rest = .ok below →
      ProperAll rest → ∀ context,
        evaluateAll context below = .ok (meetsAll rest (names.foldl Value.field context)))
    {es : List Expression}
    (h : compileFields isRoot (Path.ofNames names) query ((key, v) :: rest) = .ok es)
    (hproper : ProperAll ((key, v) :: rest)) (context : Value) :
    evaluateAll context es =
      .ok (meetsAll ((key, v) :: rest) (names.foldl Value.field context)) := by
  obtain ⟨here, below, hhere, hbelow, rfl⟩ := compiled_of_compileFields h
  simp only [ProperAll] at hproper
  obtain ⟨hproper, hproperRest⟩ := hproper
  rw [meetsAll_cons]
  refine evaluateAll_append ?_ (hrest below hbelow hproperRest context)
  have hcontext := Path.get_ofNames hnames context
  have hfound {op : Operator} : Operator.ofName? op.name = some op :=
    Operator.ofName?_eq_some_iff.2 rfl
  cases hhere with
  | named hkey hhere =>
    simp only [hkey, Bool.false_eq_true, if_false] at hproper
    obtain ⟨hname, hproper⟩ := hproper
    rw [Path.join_ofNames] at hhere
    have hbelowNames : ∀ name ∈ names ++ [key], Path.IsName name := by
      intro name hmem
      rcases List.mem_append.1 hmem with hmem | hmem
      · exact hnames name hmem
      · rw [List.mem_singleton.1 hmem]
        exact hname
    have hv := hat _ hbelowNames here hhere hproper context
    rw [List.foldl_append] at hv
    simp only [meetsAll, hkey, Bool.false_eq_true, if_false, Bool.and_true]
    exact hv
  | scalar _ htakes =>
    have hs := htakes.operands
    simp only [isOperator_name, if_true, hfound, hs] at hproper
    apply evaluateAll_singleton
    rw [meetsAll_scalar (isOperator_name _) hfound hs, ← hcontext]
    exact evaluateScalar_eq hs hproper _
  | samePath _ hinner =>
    simp only [isOperator_name, if_true, hfound, Operator.operands] at hproper
    apply evaluateAll_singleton
    exact evaluate_negated (isOperator_name _) hfound rfl
      (hat names hnames _ hinner hproper context)
  | items _ hs hinner =>
    simp only [isOperator_name, if_true, hfound, hs] at hproper
    apply evaluateAll_singleton
    -- The path of a quantified query begins anew at each item.
    exact evaluate_quantified (isOperator_name _) hfound hs hcontext
      (hat [] (by simp) _ hinner hproper)
  | queries hs hlists =>
    simp only [isOperator_name, if_true, hfound, hs] at hproper
    apply evaluateAll_singleton
    exact evaluate_combined (isOperator_name _) hfound hs (hlist _ _ hlists hproper context)

mutual

theorem evaluateAll_compileAt {isRoot : Bool} {names : List String}
    {other : Value → Except Error (List Expression)} (hnames : ∀ name ∈ names, Path.IsName name)
    (hother : ∀ v es, other v = .ok es → es = [.value (Path.ofNames names) .equal v]) :
    ∀ (query : Value) (es : List Expression),
      compileAt isRoot (Path.ofNames names) other query = .ok es → Proper query →
      ∀ context, evaluateAll context es = .ok (meets query (names.foldl Value.field context))
  | .object conditions => by
    intro es h hproper context
    simp only [compileAt] at h
    split at h
    · cases h
    · simp only [meets]
      simp only [Proper] at hproper
      exact evaluateAll_compileFields hnames conditions conditions es h hproper context
  | .undefined | .null | .boolean _ | .number _ | .string _ | .date _ | .pattern _ | .array _
  | .record _ | .classRef _ => by
    intro es h _ context
    simp only [compileAt] at h
    rw [hother _ _ h]
    apply evaluateAll_singleton
    rw [← Path.get_ofNames hnames]
    simp only [evaluate, evaluateScalar, meets]
    rfl
termination_by structural query => query

theorem evaluateAll_compileFields {isRoot : Bool} {names : List String}
    (hnames : ∀ name ∈ names, Path.IsName name) (query : Object) :
    ∀ (conditions : List (String × Value)) (es : List Expression),
      compileFields isRoot (Path.ofNames names) query conditions = .ok es →
      ProperAll conditions →
      ∀ context, evaluateAll context es =
        .ok (meetsAll conditions (names.foldl Value.field context))
  | [] => by
    intro es h _ context
    simp only [compileFields] at h
    cases h
    simp only [evaluateAll, meetsAll]
    rfl
  | (key, v) :: rest => by
    intro es h hproper context
    refine evaluateAll_compileFields_cons hnames ?_ ?_ ?_ h hproper context
    · exact fun _ hnames' => evaluateAll_compileAt hnames' (equality_eq_ok _) v
    · exact fun _ => evaluateAll_compileList hnames v
    · exact evaluateAll_compileFields hnames query rest
termination_by structural conditions => conditions

theorem evaluateAll_compileList {isRoot : Bool} {names : List String} {fault : Error}
    (hnames : ∀ name ∈ names, Path.IsName name) :
    ∀ (queries : Value) (ess : List (List Expression)),
      compileList isRoot (Path.ofNames names) fault queries = .ok ess → ProperList queries →
      ∀ context, List.Forall₂ (fun es met => evaluateAll context es = .ok met) ess
        (verdicts queries (names.foldl Value.field context))
  | .array items => by
    intro ess h hproper context
    simp only [compileList] at h
    simp only [ProperList] at hproper
    simp only [verdicts]
    exact evaluateAll_compileItems hnames items ess h hproper context
  | .undefined | .null | .boolean _ | .number _ | .string _ | .date _ | .pattern _ | .object _
  | .record _ | .classRef _ => by
    intro _ h
    simp only [compileList] at h
    cases h
termination_by structural queries => queries

theorem evaluateAll_compileItems {isRoot : Bool} {names : List String} {fault : Error}
    (hnames : ∀ name ∈ names, Path.IsName name) :
    ∀ (queries : List Value) (ess : List (List Expression)),
      compileItems isRoot (Path.ofNames names) fault queries = .ok ess → ProperItems queries →
      ∀ context, List.Forall₂ (fun es met => evaluateAll context es = .ok met) ess
        (itemVerdicts queries (names.foldl Value.field context))
  | [] => by
    intro _ h _ _
    simp only [compileItems] at h
    cases h
    simp only [itemVerdicts]
    exact .nil
  | query :: rest => by
    intro ess h hproper context
    simp only [compileItems] at h
    obtain ⟨es, hes, h⟩ := bind_eq_ok h
    obtain ⟨below, hrest, h⟩ := bind_eq_ok h
    cases h
    have hother : ∀ v es, (fun _ : Value => (throw fault : Except Error (List Expression))) v =
        .ok es → es = [.value (Path.ofNames names) .equal v] := by
      intro v es hv
      cases hv
    simp only [ProperItems] at hproper
    simp only [itemVerdicts]
    refine .cons ?_ ?_
    · exact evaluateAll_compileAt hnames hother query es hes hproper.1 context
    · exact evaluateAll_compileItems hnames rest below hrest hproper.2 context
termination_by structural queries => queries

end

/-- Either some guest is named Ada, or the year is not null. -/
def guestOrYear : Value :=
  .object [("$or", .array [
    .object [("guests", .object [("$some", .object [("name", .string "Ada")])])],
    .object [("year", .object [("$not", .object [("$equal", .null)])])]])]

end TypedRecords.Query
