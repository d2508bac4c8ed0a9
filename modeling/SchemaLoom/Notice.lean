/-
Notices.

A run tells what it does and what it passes over.  Notices never change what is made; they are
kept in the order in which they arose.  Each `Notice` has a severity, the part of the program
that it is attributed to, and a wording.
-/
namespace SchemaLoom

/-- How much a notice matters. -/
inductive Severity where
  | debug | info | warning
  deriving DecidableEq, Repr

/-- The word for a severity. -/
def Severity.word : Severity → String
  | debug => "DEBUG"
  | info => "INFO"
  | warning => "WARNING"

/-- What a run tells. -/
inductive Notice where
  /-- A directive takes effect at a place. -/
  | applying (directive place : String)
  | registered (table : String)
  /-- A directive has no effect, since the type it stands on is no table. -/
  | notATable (directive place type : String)
  /-- An access rule has no effect, since its field is not bound to a function. -/
  | unboundRule (type field : String)
  /-- A relation leads to a type that is no table. -/
  | looseRelation (table field target : String)
  | classified (table field kind : String)
  | operationsEmitted (table : String)
  | compiled (schema : String) (tables fragments : Nat)
  | roundEnded (round documents : Nat)
  | assembled (location : String) (fragments : Nat)
  | kept (location : String)
  | wrote (location : String)
  | built (written files : Nat) (directory : String)
  deriving DecidableEq, Repr

namespace Notice

/-- How much a notice matters. -/
def severity : Notice → Severity
  | notATable .. | unboundRule .. | looseRelation .. => .warning
  | compiled .. | kept .. | built .. => .info
  | _ => .debug

/-- The part of the program that a notice is attributed to. -/
def channel : Notice → String
  | applying .. | unboundRule .. | compiled .. => "dynagraph.compiler.dispatcher"
  | registered .. | notATable .. => "dynagraph.compiler.directives"
  | looseRelation .. | classified .. => "dynagraph.compiler.resources.table"
  | operationsEmitted .. => "dynagraph.compiler.resources.crud"
  | assembled .. => "dynagraph.compiler.materializer"
  | roundEnded .. | kept .. | wrote .. | built .. => "dynagraph.compiler.build"

/-- The wording of a notice. -/
def message : Notice → String
  | applying directive place => "Applying @" ++ directive ++ " at " ++ place
  | registered table => "Registered table " ++ table
  | notATable directive place type =>
    "@" ++ directive ++ " on " ++ place ++ " is ignored: '" ++ type ++ "' is not a @model type"
  | unboundRule type field =>
    "@auth on " ++ type ++ "." ++ field
      ++ " is ignored: field rules apply only to @function fields"
  | looseRelation table field target =>
    "Relation " ++ table ++ "." ++ field ++ " targets '" ++ target
      ++ "', which is not a @model type; no index will be created"
  | classified table field kind => "Classified " ++ table ++ "." ++ field ++ " as " ++ kind
  | operationsEmitted table => "Emitted CRUD surface for " ++ table
  | compiled schema tables fragments =>
    "Compiled " ++ schema ++ ": " ++ toString tables ++ " table(s), " ++ toString fragments
      ++ " fragment(s)"
  | roundEnded round documents =>
    "Round " ++ toString round ++ " compiled " ++ toString documents ++ " document(s)"
  | assembled location fragments =>
    "Materialized " ++ location ++ " from " ++ toString fragments ++ " fragment(s)"
  | kept location => "Keeping existing " ++ location
  | wrote location => "Wrote " ++ location
  | built written files directory =>
    "Built " ++ toString written ++ " of " ++ toString files ++ " file(s) into " ++ directory

/-- The line of a log that a notice is. -/
def line (n : Notice) : String := n.severity.word ++ " " ++ n.channel ++ ": " ++ n.message

end Notice

end SchemaLoom
