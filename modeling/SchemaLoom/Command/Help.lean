/-
What the program tells about its use.

Every `Scene` has its usage and its help.  A refused command line is told with the usage of the
scene in which it was refused (`Refusal.report`).
-/
import SchemaLoom.Command.Request

namespace SchemaLoom.Command

namespace Scene

/-- How a scene is called in messages. -/
def name : Scene → String
  | program => "dynagraph"
  | init => "dynagraph init"
  | build => "dynagraph build"

/-- The shortest description of a scene, as lines. -/
def usage : Scene → List String
  | program => ["usage: dynagraph [-h] COMMAND ..."]
  | init => ["usage: dynagraph init [-h] [directory]"]
  | build =>
    [ "usage: dynagraph build [-h] [--in-schema IN_SCHEMA] [--build-dir BUILD_DIR]",
      "                       [--append-only] [--types TYPE [TYPE ...]] [-v]",
      "                       [directory]" ]

/-- What a scene is about, as lines. -/
def description : Scene → List String
  | program =>
    [ "Dynagraph: compile annotated GraphQL schemas into DynamoDB tables and AppSync",
      "resolvers",
      "",
      "positional arguments:",
      "  COMMAND",
      "    init      Initialize a new Dynagraph workspace",
      "    build     Compile the schema into tables, resolvers and the published",
      "              schema",
      "",
      "options:",
      "  -h, --help  show this help message and exit" ]
  | init =>
    [ "Write a default .dynagraph.yaml into a directory.",
      "",
      "positional arguments:",
      "  directory   Directory to initialize the workspace in (default: current",
      "              directory)",
      "",
      "options:",
      "  -h, --help  show this help message and exit" ]
  | build =>
    [ "Compile the workspace schema and write the generated artifacts.",
      "",
      "positional arguments:",
      "  directory             Directory containing the Dynagraph workspace (default:",
      "                        current directory)",
      "",
      "options:",
      "  -h, --help            show this help message and exit",
      "  --in-schema IN_SCHEMA",
      "                        Input schema file, relative to the workspace",
      "                        (overrides the workspace config)",
      "  --build-dir BUILD_DIR",
      "                        Output directory, relative to the workspace (overrides",
      "                        the workspace config)",
      "  --append-only         Keep files that already exist in the output directory",
      "  --types TYPE [TYPE ...]",
      "                        Only let directives act on the named types",
      "  -v, --verbose         Log compilation progress" ]

/-- The help of a scene, as lines. -/
def help (s : Scene) : List String := s.usage ++ [""] ++ s.description

end Scene

/-- What is told about a refused command line, as lines. -/
def Refusal.report (r : Refusal) : List String :=
  r.scene.usage ++ [r.scene.name ++ ": error: " ++ r.fault.message]

end SchemaLoom.Command
