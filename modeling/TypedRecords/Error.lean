import TypedRecords.Types.Validator

/-! # Errors

Why an operation failed, as causes of the domain, and the one text of each cause.
-/

namespace TypedRecords

/-- What is wrong with a class, or with a tree that should describe a record of one. -/
inductive ClassFault where
  | badName (name : String)
  | embeddedAndStorable (component : String)
  | repeatedAttribute (attr component : String)
  | identifierType (place type : String)
  | secondPrimary (component : String)
  | missingPrimary (component : String)
  | emptyIndex (component : String)
  | tagNotText (tag : Value)
  | tagOfOther (tag : Value) (component : String)
deriving Inhabited

/-- What is wrong with the way an operation is called. -/
inductive UsageFault where
  | liveReference (kind : String)
  | notAnIdentifier (attr component : String)
  | unrelatedClass (component : String)
  | notATree (kind : String)
  | conflictingExpectations
  | badPattern
deriving Inhabited

/-- Why a class cannot be registered, or used unregistered. -/
inductive RegistrationFault where
  | nameTaken (component : String)
  | rootNameTaken (component : String)
  | notStorable (component : String)
  | storableNameTaken (component : String)
  | inOtherStore (component : String)
  | unregistered (component : String)
deriving DecidableEq, Repr, Inhabited

/-- What a store found, or did not find, against expectation. -/
inductive StoreFault where
  | loadMissing (component identifier : String)
  | saveMissing (component identifier : String)
  | deleteMissing (component identifier : String)
  | saveExisting (component identifier : String)
  | notUnique (component index : String)
deriving DecidableEq, Repr, Inhabited

/-- Why a database did not answer. -/
inductive DatabaseFault where
  | unavailable
  | malformedExpression (operator : String)
  | notADocument (kind : String)
deriving DecidableEq, Repr, Inhabited

inductive Error where
  | typeMismatch (attr expected actual : String)
  | invalidSpecifier (attr specifier : String)
  | unexpectedItems (attr specifier : String)
  | invalidSelector (found : Value)
  | unknownAttribute (component attr : String)
  | unsetAttribute (component attr : String)
  | unknownComponent (name origin : String)
  | invalidClass (fault : ClassFault)
  | missingIdentifier (component : String)
  | validation (component : String) (failures : List Failure)
  | queryNotObject (query : Value)
  | operatorAtRoot (operator : String) (query : Value)
  | mixedKeys (subquery : Value)
  | unexpectedObject (operator : String) (operand : Value)
  | unknownOperator (operator : String) (query : Value)
  | invalidOperand (operator expected : String) (operand : Value)
  | store (fault : StoreFault)
  | registration (fault : RegistrationFault)
  | usage (fault : UsageFault)
  | duplicateKey (collection index : String)
  | database (fault : DatabaseFault)
  | settings
  | serialization
  /-- A traversal went deeper than the graph of records has records: it does not end. -/
  | unending
deriving Inhabited

namespace ClassFault

def message : ClassFault → String
  | .badName name => s!"'{name}' is not a valid component name"
  | .embeddedAndStorable component =>
    s!"the component '{component}' cannot be both embedded and storable"
  | .repeatedAttribute attr component =>
    s!"the attribute '{attr}' is declared twice in '{component}'"
  | .identifierType place type =>
    s!"the identifier '{place}' must be of type 'string' or 'number' (type: '{type}')"
  | .secondPrimary component =>
    s!"the component '{component}' cannot have more than one primary identifier"
  | .missingPrimary component =>
    s!"the storable component '{component}' must have a primary identifier"
  | .emptyIndex component => s!"an index of '{component}' has no attributes"
  | .tagNotText tag => "'__component' must be a string (found: " ++ tag.text ++ ")"
  | .tagOfOther tag component =>
    "cannot deserialize " ++ tag.text ++ s!" into an instance of '{component}'"

end ClassFault

namespace UsageFault

def message : UsageFault → String
  | .liveReference kind => s!"cannot convert a live {kind} to JSON, serialize it first"
  | .notAnIdentifier attr component =>
    s!"'{attr}' is not an identifier attribute of '{component}'"
  | .unrelatedClass component =>
    s!"cannot fork an instance of '{component}' into an unrelated class"
  | .notATree kind => s!"cannot deserialize {kind} into a component"
  | .conflictingExpectations =>
    "The 'throwIfMissing' and 'throwIfExists' options cannot be both set to true"
  | .badPattern => "invalid RegExp"

end UsageFault

namespace RegistrationFault

def message : RegistrationFault → String
  | .nameTaken component => s!"a component named '{component}' is already registered"
  | .rootNameTaken component =>
    s!"A component with the same name is already registered (component: '{component}')"
  | .notStorable component =>
    s!"Cannot register a component that is not storable (component: '{component}')"
  | .storableNameTaken component =>
    "A storable component with the same name is already registered "
      ++ s!"(component: '{component}')"
  | .inOtherStore component =>
    "Cannot register a storable component that is already registered in another store "
      ++ s!"(component: '{component}')"
  | .unregistered component =>
    s!"The storable component '{component}' is not registered in this store"

end RegistrationFault

namespace StoreFault

/-- The code by which callers tell store faults apart. -/
def code : StoreFault → String
  | .loadMissing _ _ | .saveMissing _ _ | .deleteMissing _ _ => "COMPONENT_IS_MISSING_FROM_STORE"
  | .saveExisting _ _ => "COMPONENT_ALREADY_EXISTS_IN_STORE"
  | .notUnique _ _ => "UNIQUE_ATTRIBUTE_ALREADY_EXISTS_IN_STORE"

def indexName? : StoreFault → Option String
  | .notUnique _ index => some index
  | _ => none

def message : StoreFault → String
  | .loadMissing component identifier =>
    "Cannot load a component that is missing from the store "
      ++ s!"(component: '{component}', identifier: {identifier})"
  | .saveMissing component identifier =>
    "Cannot save an existing component that is missing from the store "
      ++ s!"(component: '{component}', identifier: {identifier})"
  | .deleteMissing component identifier =>
    "Cannot delete a component that is missing from the store "
      ++ s!"(component: '{component}', identifier: {identifier})"
  | .saveExisting component identifier =>
    "Cannot save a new component that already exists in the store "
      ++ s!"(component: '{component}', identifier: {identifier})"
  | .notUnique component index =>
    "Cannot save a component with an attribute value that should be unique but already exists "
      ++ s!"in the store (component: '{component}', index: '{index}')"

end StoreFault

namespace DatabaseFault

def message : DatabaseFault → String
  | .unavailable => "Simulated failure"
  | .malformedExpression operator => s!"Malformed expression for operator '{operator}'"
  | .notADocument kind => s!"Expected a document, found {kind}"

end DatabaseFault

namespace Error

def message : Error → String
  | .typeMismatch attr expected actual =>
    s!"Cannot assign a value of type '{actual}' to {attr} (expected type: '{expected}')"
  | .invalidSpecifier attr specifier =>
    s!"The specified type is invalid (attribute: '{attr}', type: '{specifier}')"
  | .unexpectedItems attr specifier =>
    "The 'items' option cannot be specified for a type that is not an array "
      ++ s!"(attribute: '{attr}', type: '{specifier}')"
  | .invalidSelector found =>
    "Invalid attribute selector: expected a boolean or an object, received " ++ found.text
  | .unknownAttribute component attr =>
    s!"The attribute '{attr}' does not exist in component '{component}'"
  | .unsetAttribute component attr =>
    s!"Cannot get the value of an unset attribute ({component}.{attr})"
  | .unknownComponent name origin => s!"Cannot get the component '{name}' from '{origin}'"
  | .invalidClass fault => "Invalid component definition: " ++ fault.message
  | .missingIdentifier component =>
    s!"Cannot get an identifier descriptor from component '{component}' (no identifier is set)"
  | .validation component failures =>
    s!"The following error(s) occurred while validating the component '{component}': "
      ++ ", ".intercalate (failures.map Failure.text)
  | .queryNotObject query => "A query must be an object (query: " ++ query.text ++ ")"
  | .operatorAtRoot operator query =>
    s!"The operator '{operator}' cannot be used at the root of a query (query: "
      ++ query.text ++ ")"
  | .mixedKeys subquery =>
    "A subquery cannot mix attribute names and operators (subquery: " ++ subquery.text ++ ")"
  | .unexpectedObject operator operand =>
    s!"An unexpected object was found in a query (operator: '{operator}', operand: "
      ++ operand.text ++ ")"
  | .unknownOperator operator query =>
    s!"The operator '{operator}' is not supported (query: " ++ query.text ++ ")"
  | .invalidOperand operator expected operand =>
    s!"The operator '{operator}' expects {expected} (operand: " ++ operand.text ++ ")"
  | .store fault => fault.message
  | .registration fault => "Registration error: " ++ fault.message
  | .usage fault => "Invalid options: " ++ fault.message
  | .duplicateKey collection index =>
    s!"Duplicate key in collection '{collection}' (index: '{index}')"
  | .database fault => "Backend error: " ++ fault.message
  | .settings => "Configuration error"
  | .serialization => "Serialization error"
  | .unending => "The operation does not end"

/-- The code of a store fault. -/
def code? : Error → Option String
  | .store fault => some fault.code
  | _ => none

end Error

end TypedRecords
