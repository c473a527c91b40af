import ScriptEngine.Coercion
import ScriptEngine.Generator

/-!
Faults: everything that ends an evaluation other than with a value. Host aborts cannot be caught,
and a suspension unwinds only the generator that yields.
-/

namespace ScriptEngine

inductive SyntaxIssue where
  | alreadyDeclared (name : String)
  | yieldOutsideGenerator
  | yieldPosition
  | strictWith
  | strictDelete
  | unexpectedSuper
  | other (message : String)

def SyntaxIssue.message : SyntaxIssue → String
  | .alreadyDeclared name => "Identifier '" ++ name ++ "' has already been declared"
  | .yieldOutsideGenerator => "yield is only valid in generator functions"
  | .yieldPosition => "yield is only supported as a statement, an assignment or " ++
      "declaration initializer, or a return argument"
  | .strictWith => "Strict mode code may not include a with statement"
  | .strictDelete => "Delete of an unqualified identifier in strict mode."
  | .unexpectedSuper => "'super' keyword unexpected here"
  | .other message => message

inductive ReferenceIssue where
  | notDefined (name : String)
  | uninitialized (name : String)
  | superNotCalled
  | superCalledTwice
  | other (message : String)

def ReferenceIssue.message : ReferenceIssue → String
  | .notDefined name => name ++ " is not defined"
  | .uninitialized name => "Cannot access '" ++ name ++ "' before initialization"
  | .superNotCalled => "Must call super constructor in derived class before " ++
      "accessing 'this' or returning from derived constructor"
  | .superCalledTwice => "Super constructor may only be called once"
  | .other message => message

inductive TypeIssue where
  | constantAssignment
  | readOnly (key : String)
  | globalFunction (name : String)
  | readOfNullish (base key : String)
  | writeToNullish (base key : String)
  | writeToPrimitive (key type text : String)
  | undeletable (key : String)
  | searchInPrimitive (key text : String)
  | notFunction (what : String)
  | notConstructor (what : String)
  | plainObjectCalled
  | classCalled (name : String)
  | superNotConstructor
  | derivedReturn
  | nullishToObject
  | instanceOfTarget
  | instanceOfPrototype
  | parentPrototype
  | parentNotConstructor (text : String)
  | notGenerator
  | brandMismatch
  | alreadyRunning
  | errorReceiver
  | argumentList
  | bindReceiver
  | other (message : String)

def TypeIssue.message : TypeIssue → String
  | .constantAssignment => "Assignment to constant variable."
  | .readOnly key => "Cannot assign to read only property '" ++ key ++ "' of object"
  | .globalFunction name => "Cannot redefine global function '" ++ name ++ "'"
  | .readOfNullish base key =>
    "Cannot read properties of " ++ base ++ " (reading '" ++ key ++ "')"
  | .writeToNullish base key =>
    "Cannot set properties of " ++ base ++ " (setting '" ++ key ++ "')"
  | .writeToPrimitive key type text =>
    "Cannot create property '" ++ key ++ "' on " ++ type ++ " '" ++ text ++ "'"
  | .undeletable key => "Cannot delete property '" ++ key ++ "' of object"
  | .searchInPrimitive key text =>
    "Cannot use 'in' operator to search for '" ++ key ++ "' in " ++ text
  | .notFunction what => what ++ " is not a function"
  | .notConstructor what => what ++ " is not a constructor"
  | .plainObjectCalled => "object is not a function"
  | .classCalled name => "Class constructor " ++ name ++ " cannot be invoked without 'new'"
  | .superNotConstructor => "Super constructor is not a constructor"
  | .derivedReturn => "Derived constructors may only return object or undefined"
  | .nullishToObject => "Cannot convert undefined or null to object"
  | .instanceOfTarget => "Right-hand side of 'instanceof' is not callable"
  | .instanceOfPrototype => "Function has non-object prototype in instanceof check"
  | .parentPrototype => "Class extends value does not have valid prototype property"
  | .parentNotConstructor text =>
    "Class extends value " ++ text ++ " is not a constructor or null"
  | .notGenerator => "receiver is not a generator"
  | .brandMismatch => "generator brand mismatch"
  | .alreadyRunning => "Generator is already running"
  | .errorReceiver => "Error.prototype.toString called on non-object"
  | .argumentList => "CreateListFromArrayLike called on non-object"
  | .bindReceiver => "Bind must be called on a function"
  | .other message => message

inductive LimitIssue where
  | statements (limit : Nat)
  | cancelled
  | other (message : String)

def LimitIssue.message : LimitIssue → String
  | .statements limit => "statement limit of " ++ toString limit ++ " exceeded"
  | .cancelled => "cancelled by host"
  | .other message => message

inductive InternalIssue where
  | missingBinding (name : String)
  | immutableObjectBinding
  | arrowThis
  | noThis
  | bindArrowThis
  | bindThisOutsideFunction
  | notGlobal
  | resumePoint (found : ResumePoint)
  | noHandler
  | primitiveThis
  | noParkedFrame
  | options
  | unknownHostFunction
  | other (message : String)

def InternalIssue.message : InternalIssue → String
  | .missingBinding name => "no binding '" ++ name ++ "' to initialize"
  | .immutableObjectBinding => "object environments hold no immutable bindings"
  | .arrowThis => "arrow environment has no this binding"
  | .noThis => "environment has no this binding"
  | .bindArrowThis => "cannot bind this in an arrow environment"
  | .bindThisOutsideFunction => "only function environments bind this"
  | .notGlobal => "not a global environment"
  | .resumePoint found => "mismatched generator resume point: " ++ found.name
  | .noHandler => "try statement has no catch clause"
  | .primitiveThis => "derived constructor bound a primitive this"
  | .noParkedFrame => "suspended generator has no frame"
  | .options => "invalid engine options"
  | .unknownHostFunction => "host function is not registered"
  | .other message => message

inductive Fault where
  | syntaxError (issue : SyntaxIssue) (location : Option Span := none)
  | typeError (issue : TypeIssue) (location : Option Span := none)
  | referenceError (issue : ReferenceIssue)
  | rangeError (message : String)
  | thrown (value : Value) (location : Option Span := none)
  | suspended (value : Value)
  | stackOverflow (depth : Nat)
  | limitExceeded (issue : LimitIssue)
  | internal (issue : InternalIssue)

namespace Fault

def isHostAbort : Fault → Bool
  | .stackOverflow _ | .limitExceeded _ | .internal _ => true
  | _ => false

def isSuspension : Fault → Bool
  | .suspended _ => true
  | _ => false

def location : Fault → Option Span
  | .syntaxError _ location | .typeError _ location | .thrown _ location => location
  | _ => none

def located (span : Span) : Fault → Fault
  | .syntaxError issue _ => .syntaxError issue span
  | .typeError issue _ => .typeError issue span
  | .thrown value _ => .thrown value span
  | fault => fault

def describeThrown (h : Heap) (value : Value) : String :=
  let errorLike := match value with
    | .object o => match h.getProperty? o "name", h.getProperty? o "message" with
      | some (.string name), some message => some (name ++ ": " ++ h.toText message)
      | _, _ => none
    | _ => none
  errorLike.getD (h.toText value)

def locationText : Option Span → String
  | some span => " at " ++ span.text
  | none => ""

def text (h : Heap) : Fault → String
  | .syntaxError issue location => "SyntaxError: " ++ issue.message ++ locationText location
  | .typeError issue location => "TypeError: " ++ issue.message ++ locationText location
  | .referenceError issue => "ReferenceError: " ++ issue.message
  | .rangeError message => "RangeError: " ++ message
  | .thrown value location => "Uncaught " ++ describeThrown h value ++ locationText location
  | .suspended _ => "GeneratorYield"
  | .stackOverflow depth =>
    "RangeError: Maximum call stack size exceeded (" ++ toString depth ++ " frames)"
  | .limitExceeded issue => "Execution aborted: " ++ issue.message
  | .internal issue => "Internal error: " ++ issue.message

end Fault

end ScriptEngine
