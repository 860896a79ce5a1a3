import TypedRecords.Database
import TypedRecords.Proofs.Query.Grammar
import TypedRecords.Proofs.Query.Meaning

/-! # Answered queries

What can go wrong with an accepted query when it meets the documents. Every operator stands with an
operand that it takes, so that no expression is malformed. But a pattern is read only when there is a
text to match, and one that does not compile fails there: whether it does depends on the documents.
-/

namespace TypedRecords

namespace Expression

/-! ### Shapes and patterns -/

/-- Every operator, however deep, stands with an operand that it takes. -/
inductive Shaped : Expression → Prop
  | value {path : String} {op : Operator} {v : Value} (h : Query.Takes op v) :
    Shaped (.value path op v)
  | nested {path : String} {op : Operator} {es : List Expression}
      (hop : op ∈ [.not, .some, .every]) (h : ∀ e ∈ es, Shaped e) : Shaped (.nested path op es)
  | lists {path : String} {op : Operator} {ess : List (List Expression)}
      (hop : op ∈ [.and, .or, .nor]) (h : ∀ es ∈ ess, ∀ e ∈ es, Shaped e) :
    Shaped (.lists path op ess)

def operandPatterns (op : Operator) (operand : Value) : List Pattern :=
  match op, operand with
  | .matches_, .pattern p => [p]
  | _, _ => []

mutual

/-- The patterns that an expression has texts matched with. -/
def patterns : Expression → List Pattern
  | .value _ op operand => operandPatterns op operand
  | .nested _ _ es => patternsOfAll es
  | .lists _ _ ess => patternsOfLists ess

def patternsOfAll : List Expression → List Pattern
  | [] => []
  | e :: rest => patterns e ++ patternsOfAll rest

def patternsOfLists : List (List Expression) → List Pattern
  | [] => []
  | es :: rest => patternsOfAll es ++ patternsOfLists rest

end

theorem patterns_subset_of_mem {e : Expression} {es : List Expression} (h : e ∈ es) :
    e.patterns ⊆ patternsOfAll es := by
  induction es with
  | nil => cases h
  | cons first rest ih =>
    rw [patternsOfAll]
    cases h with
    | head => exact List.subset_append_left _ _
    | tail _ h => exact List.subset_append_of_subset_right _ (ih h)

theorem patternsOfAll_subset_of_mem {es : List Expression} {lists : List (List Expression)}
    (h : es ∈ lists) : patternsOfAll es ⊆ patternsOfLists lists := by
  induction lists with
  | nil => cases h
  | cons first rest ih =>
    rw [patternsOfLists]
    cases h with
    | head => exact List.subset_append_left _ _
    | tail _ h => exact List.subset_append_of_subset_right _ (ih h)

end Expression

namespace Query

open Expression (Shaped patternsOfAll)

mutual

theorem Listed.shaped {path : String} {fields : List (String × Value)} {es : List Expression} :
    Listed path fields es → ∀ e ∈ es, Shaped e
  | .nil => by
    intro e he
    cases he
  | .named _ h hrest => by
    intro e he
    rcases List.mem_append.1 he with he | he
    · exact h.shaped e he
    · exact hrest.shaped e he
  | .operator h hrest => List.forall_mem_cons.2 ⟨h.shaped, hrest.shaped⟩

theorem Stated.shaped {path : String} {v : Value} {es : List Expression} :
    Stated path v es → ∀ e ∈ es, Shaped e
  | .value hv => by
    intro e he
    rw [List.mem_singleton.1 he]
    exact .value hv
  | .query h => h.shaped

theorem Expressed.shaped {path : String} {op : Operator} {v : Value} {e : Expression} :
    Expressed path op v e → Shaped e
  | .scalar h => .value h
  | .negated h => .nested (by decide) h.shaped
  | .quantified hop h => .nested (List.mem_cons_of_mem _ hop) h.shaped
  | .logical hop h => .lists hop h.shaped

theorem EachStated.shaped {path : String} {items : List Value} {lists : List (List Expression)} :
    EachStated path items lists → ∀ es ∈ lists, ∀ e ∈ es, Shaped e
  | .nil => by
    intro es hes
    cases hes
  | .cons h hrest => List.forall_mem_cons.2 ⟨h.shaped, hrest.shaped⟩

end

/-! ### Answers -/

/-- A result, or the error of a pattern among some that does not compile. -/
def Answers {α : Type} (patterns : List Pattern) (x : Except Error α) : Prop :=
  (∃ a, x = .ok a) ∨ x = .error (.usage .badPattern) ∧ ∃ p ∈ patterns, p.compile? = none

section

variable {α β : Type} {ps qs : List Pattern} {x : Except Error α} {context : Value}

theorem Answers.of_ok {a : α} (h : x = .ok a) : Answers ps x := .inl ⟨a, h⟩

theorem Answers.mono (h : Answers ps x) (hsub : ps ⊆ qs) : Answers qs x := by
  rcases h with hok | ⟨herror, p, hp, hbad⟩
  · exact .inl hok
  · exact .inr ⟨herror, p, hsub hp, hbad⟩

theorem Answers.bind {f : α → Except Error β} (h : Answers ps x) (hf : ∀ a, Answers ps (f a)) :
    Answers ps (x >>= f) := by
  rcases h with ⟨a, rfl⟩ | ⟨rfl, hbad⟩
  · exact hf a
  · exact .inr ⟨rfl, hbad⟩

theorem Answers.ite {x : Except Error Bool} {yes no : Except Error α} (h : Answers ps x)
    (hyes : Answers ps yes) (hno : Answers ps no) : Answers ps (do if ← x then yes else no) := by
  refine h.bind fun met => ?_
  cases met with
  | true => exact hyes
  | false => exact hno

theorem Answers.anyItem {test : Value → Except Error Bool} (h : ∀ v, Answers ps (test v))
    (items : List Value) : Answers ps (anyItem test items) := by
  induction items with
  | nil => exact .of_ok rfl
  | cons v rest ih => exact (h v).ite (.of_ok rfl) ih

theorem Answers.allItems {test : Value → Except Error Bool} (h : ∀ v, Answers ps (test v))
    (items : List Value) : Answers ps (allItems test items) := by
  induction items with
  | nil => exact .of_ok rfl
  | cons v rest ih => exact (h v).ite ih (.of_ok rfl)

theorem Answers.filterM {test : α → Except Error Bool} (h : ∀ a, Answers ps (test a))
    (items : List α) : Answers ps (items.filterM test) := by
  have hloop (found : List α) : Answers ps (List.filterAuxM test items found) := by
    induction items generalizing found with
    | nil => exact .of_ok rfl
    | cons a rest ih => exact (h a).bind fun met => ih _
  exact (hloop []).bind fun found => .of_ok rfl

theorem Answers.evaluateAll {es : List Expression}
    (h : ∀ e ∈ es, Answers ps (evaluate context e)) : Answers ps (evaluateAll context es) := by
  induction es with
  | nil => exact .of_ok rfl
  | cons e rest ih =>
    obtain ⟨hfirst, hrest⟩ := List.forall_mem_cons.1 h
    rw [Query.evaluateAll]
    exact hfirst.ite (ih hrest) (.of_ok rfl)

theorem Answers.allOf {lists : List (List Expression)}
    (h : ∀ es ∈ lists, Answers ps (Query.evaluateAll context es)) :
    Answers ps (allOf context lists) := by
  induction lists with
  | nil => exact .of_ok rfl
  | cons es rest ih =>
    obtain ⟨hfirst, hrest⟩ := List.forall_mem_cons.1 h
    rw [Query.allOf]
    exact hfirst.ite (ih hrest) (.of_ok rfl)

theorem Answers.anyOf {lists : List (List Expression)}
    (h : ∀ es ∈ lists, Answers ps (Query.evaluateAll context es)) :
    Answers ps (anyOf context lists) := by
  induction lists with
  | nil => exact .of_ok rfl
  | cons es rest ih =>
    obtain ⟨hfirst, hrest⟩ := List.forall_mem_cons.1 h
    rw [Query.anyOf]
    exact hfirst.ite (.of_ok rfl) (ih hrest)

theorem Answers.exists_ok (h : Answers ps x) (hps : ∀ p ∈ ps, p.compile?.isSome = true) :
    ∃ a, x = .ok a := by
  rcases h with hok | ⟨-, p, hp, hbad⟩
  · exact hok
  · have hcompiles := hps p hp
    rw [hbad] at hcompiles
    cases hcompiles

theorem Answers.error_eq {fault : Error} (h : Answers ps x) (hfault : x = .error fault) :
    fault = .usage .badPattern := by
  subst hfault
  rcases h with ⟨a, hok⟩ | ⟨herror, -⟩
  · cases hok
  · cases herror
    rfl

end

/-! ### Evaluation -/

theorem Takes.evaluateScalar_answers {op : Operator} {operand : Value} (h : Takes op operand)
    (v : Value) : Answers (Expression.operandPatterns op operand) (evaluateScalar op v operand) := by
  by_cases hcompiles : Compiles op operand
  · exact .of_ok (evaluateScalar_eq h.operands hcompiles v)
  · cases op with
    | matches_ =>
      obtain ⟨p, rfl⟩ := h
      have hbad : p.compile? = none := by
        simpa [Compiles] using hcompiles
      cases v with
      | string text =>
        refine .inr ⟨?_, p, List.mem_singleton_self p, hbad⟩
        simp only [evaluateScalar, Pattern.test, Pattern.matches?, hbad]
        rfl
      | _ => exact .of_ok rfl
    | _ => exact absurd trivial hcompiles

/-- An expression is met or not, whatever the value, or has a pattern that does not compile. -/
theorem evaluate_answers {e : Expression} (h : Shaped e) (context : Value) :
    Answers e.patterns (evaluate context e) := by
  induction h generalizing context with
  | value h =>
    rw [Expression.patterns, evaluate]
    exact h.evaluateScalar_answers _
  | @nested path op es hop _ ih =>
    have hall (context : Value) : Answers (patternsOfAll es) (evaluateAll context es) :=
      .evaluateAll fun e he => (ih e he context).mono (Expression.patterns_subset_of_mem he)
    have hop : op = .not ∨ op = .some ∨ op = .every := by simpa using hop
    rcases hop with rfl | rfl | rfl
    · rw [Expression.patterns, evaluate]
      exact (hall context).bind fun met => .of_ok rfl
    · rw [Expression.patterns, evaluate]
      cases Path.get context path with
      | array items => exact .anyItem hall items
      | _ => exact .of_ok rfl
    · rw [Expression.patterns, evaluate]
      cases Path.get context path with
      | array items => exact .allItems hall items
      | _ => exact .of_ok rfl
  | @lists path op lists hop _ ih =>
    have heach : ∀ es ∈ lists,
        Answers (Expression.patternsOfLists lists) (evaluateAll context es) := by
      intro es hes
      refine .evaluateAll fun e he => (ih es hes e he context).mono fun p hp => ?_
      apply Expression.patternsOfAll_subset_of_mem hes
      exact Expression.patterns_subset_of_mem he hp
    have hop : op = .and ∨ op = .or ∨ op = .nor := by simpa using hop
    rcases hop with rfl | rfl | rfl
    · rw [Expression.patterns, evaluate]
      exact .allOf heach
    · rw [Expression.patterns, evaluate]
      exact .anyOf heach
    · rw [Expression.patterns, evaluate]
      exact (Answers.anyOf heach).bind fun met => .of_ok rfl

end Query

/-! ### Databases -/

theorem Collection.select_answers {query : Value} {es : List Expression}
    (h : Query.compile query = .ok es) (c : Collection) :
    Query.Answers (Expression.patternsOfAll es) (c.select es) := by
  have hshaped := (Query.stated_of_compile h).shaped
  refine .filterM (fun document => .evaluateAll fun e he => ?_) c.documents
  exact (Query.evaluate_answers (hshaped e he) _).mono (Expression.patterns_subset_of_mem he)

namespace Database

variable {db : Database} {name : String}

theorem whenAvailable_answers {α β : Type} {ps : List Pattern} {x : Except Error α}
    (hx : Query.Answers ps x) (f : α → β) (hdb : db.available = true) :
    Query.Answers ps (db.whenAvailable (x >>= fun a => pure (f a, db))).1 := by
  unfold whenAvailable
  rw [if_pos hdb]
  rcases hx with ⟨a, rfl⟩ | ⟨rfl, hbad⟩
  · exact .of_ok rfl
  · exact .inr ⟨rfl, hbad⟩

def alien : Database :=
  { collections := [("Movie", { documents := [[("id", .string "1"), ("title", .string "Alien")]] })] }

/-- The movies with a title that a pattern matches. -/
def titled (source : String) : Value :=
  .object [("title", .object [("$matches", .pattern ⟨source, ""⟩)])]

def titledSearch (source : String) : Search :=
  { expressions := [.value "title" .matches_ (.pattern ⟨source, ""⟩)] }

end Database

end TypedRecords
