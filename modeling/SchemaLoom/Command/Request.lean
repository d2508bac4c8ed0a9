/-
Requests.

A command line asks for help, for a new workspace or for a build (`Request`).  The program as a
whole and each of its commands is a `Scene` with a grammar of its own.  The program reads the
name of the command, and the command reads the words that are left.
-/
import SchemaLoom.Command.Grammar

namespace SchemaLoom.Command

/-- The program as a whole and its commands. -/
inductive Scene where
  | program | init | build
  deriving DecidableEq, Repr

/-- A path that an option gives. -/
inductive GivenPath where
  | text (path : String)
  /-- The option was given, but without an argument. -/
  | missing
  deriving DecidableEq, Repr

/-- The path that the arguments of an option give. -/
def GivenPath.ofArguments : List String → GivenPath
  | [] => missing
  | path :: _ => text path

/-- The text of a path that is given. -/
def GivenPath.text? : GivenPath → Option String
  | text path => some path
  | missing => none

/-- What a build is to do otherwise than the configuration says. -/
structure Overrides where
  inSchema : Option GivenPath := none
  buildDirectory : Option GivenPath := none
  appendOnly : Bool := false
  types : Option (List String) := none
  deriving DecidableEq, Repr

/-- What a command line asks for. -/
inductive Request where
  | help (scene : Scene)
  | init (directory : String)
  | build (directory : String) (overrides : Overrides) (isVerbose : Bool)
  deriving DecidableEq, Repr

/-! ### Grammars -/

def inSchemaSwitch : Switch := { names := ["--in-schema"], arity := .one }
def buildDirectorySwitch : Switch := { names := ["--build-dir"], arity := .one }
def appendOnlySwitch : Switch := { names := ["--append-only"] }
def typesSwitch : Switch := { names := ["--types"], arity := .many }
def verboseSwitch : Switch := { names := ["-v", "--verbose"] }

namespace Scene

/-- What is understood in a scene. -/
def grammar : Scene → Grammar
  | program => { switches := [helpSwitch], operands := .rest }
  | init => { switches := [helpSwitch], operands := .atMostOne }
  | build =>
    { switches := [helpSwitch, inSchemaSwitch, buildDirectorySwitch, appendOnlySwitch,
        typesSwitch, verboseSwitch]
      operands := .atMostOne }

/-- The commands by their names. -/
def commands : List (String × Scene) := [("init", init), ("build", build)]

end Scene

/-! ### Reading -/

/-- A fault and the scene in which it was found. -/
structure Refusal where
  scene : Scene
  fault : UsageFault
  deriving DecidableEq, Repr

/-- The directory that a line names, or else the current one. -/
def Line.directory (l : Line) : String := l.operand?.getD "."

/-- What a line asks for in a scene. -/
def Line.request (l : Line) : Scene → Request
  | .program => .help .program
  | .init => .init l.directory
  | .build =>
    .build l.directory
      { inSchema := (l.arguments? inSchemaSwitch).map .ofArguments
        buildDirectory := (l.arguments? buildDirectorySwitch).map .ofArguments
        appendOnly := l.has appendOnlySwitch
        types := l.arguments? typesSwitch }
      (l.has verboseSwitch)

/-- The request of a line; words that are left over, also `others`, are refused in the name of the
program. -/
def Line.settle (l : Line) (others : List String) (scene : Scene) : Except Refusal Request :=
  match others ++ l.leftOver with
  | [] => .ok (l.request scene)
  | words => .error ⟨.program, .unrecognized words⟩

/-- The request of a command line that was read, or why there is none. -/
def Scene.answer (scene : Scene) (read : Except Stop Line)
    (settle : Line → Except Refusal Request) : Except Refusal Request :=
  match read with
  | .error .help => .ok (.help scene)
  | .error (.fault f) => .error ⟨scene, f⟩
  | .ok line => settle line

/-- What the words of a command line ask for. -/
def Request.read (words : List String) : Except Refusal Request :=
  Scene.program.answer (Scene.program.grammar.read words) fun line =>
    match line.operands with
    | none | some [] => line.settle [] .program
    | some (name :: rest) =>
      match Scene.commands.lookup name with
      | none => .error ⟨.program, .unknownCommand name (Scene.commands.map (·.1))⟩
      | some scene =>
        scene.answer (scene.grammar.read rest) fun own => own.settle line.leftOver scene

end SchemaLoom.Command
