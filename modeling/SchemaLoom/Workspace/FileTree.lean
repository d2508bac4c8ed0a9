/-
File trees.

A `FileTree` says of every place if a file or a folder is there.  A `Place` is given by the names
of the folders around it and its own, none of which leads back; the root is always a folder.  A
path leads to a place by way of folders (`follow`).

Files hold text or, if their bytes are the encoding of no text, just bytes.  A file is read as a
text; whatever way its lines are broken, the text has plain line feeds.
-/
import SchemaLoom.Text.Escape
import SchemaLoom.Workspace.Path

namespace SchemaLoom.Workspace

/-- What a file holds. -/
inductive Content where
  | text (s : String)
  /-- Bytes that encode no text. -/
  | raw (bytes : List UInt8)
  deriving DecidableEq, Repr

/-- The content that bytes are. -/
def Content.ofBytes (bytes : ByteArray) : Content :=
  match String.fromUTF8? bytes with
  | some s => text s
  | none => raw bytes.toList

/-- What is at a place. -/
inductive Entry where
  | file (content : Content)
  | folder
  deriving DecidableEq, Repr

/-- A place. -/
abbrev Place := List String

/-- A file tree. -/
structure FileTree where
  entries : List (Place × Entry) := []
  deriving Repr

/-- Why a path cannot be used. -/
inductive FileCause where
  | notFound | exists | notAFolder | isAFolder | nameTooLong
  /-- A name cannot be handed to the disk at all. -/
  | brokenName
  deriving DecidableEq, Repr

/-- The number and the words for a cause. -/
def FileCause.description : FileCause → String
  | notFound => "[Errno 2] No such file or directory"
  | «exists» => "[Errno 17] File exists"
  | notAFolder => "[Errno 20] Not a directory"
  | isAFolder => "[Errno 21] Is a directory"
  | nameTooLong => "[Errno 36] File name too long"
  | brokenName => "embedded null byte"

/-- A cause and the path that has it. -/
structure FileFault where
  cause : FileCause
  path : Path
  deriving DecidableEq, Repr

/-- The wording of a fault. -/
def FileFault.message (fault : FileFault) : String :=
  fault.cause.description ++ ": " ++ Text.literal fault.path.text

namespace FileTree

/-! ### Places -/

/-- What is at a place. -/
def at? (t : FileTree) (place : Place) : Option Entry :=
  if place = [] then some .folder else t.entries.lookup place

/-- A tree with something else at a place. -/
def put (t : FileTree) (place : Place) (e : Entry) : FileTree :=
  ⟨(place, e) :: t.entries.filter fun other => other.1 ≠ place⟩

/-- A tree with nothing at a place or within it. -/
def remove (t : FileTree) (place : Place) : FileTree :=
  ⟨t.entries.filter fun other => !place.isPrefixOf other.1⟩

theorem at?_put_self {t : FileTree} {place : Place} (e : Entry) (h : place ≠ []) :
    (t.put place e).at? place = some e := by
  simp [at?, put, h]

theorem at?_put_of_ne {t : FileTree} {place other : Place} (e : Entry) (h : other ≠ place) :
    (t.put place e).at? other = t.at? other := by
  unfold at? put
  by_cases root : other = []
  · simp [root]
  · simp only [root, ↓reduceIte, List.lookup_cons, beq_eq_false_iff_ne.2 h]
    induction t.entries with
    | nil => rfl
    | cons entry rest ih =>
      obtain ⟨key, value⟩ := entry
      by_cases same : key = place
      · subst same
        simpa [List.lookup_cons, beq_eq_false_iff_ne.2 h] using ih
      · simp only [List.filter_cons, same, ne_eq, not_false_eq_true, decide_true, ↓reduceIte,
          List.lookup_cons, ih]

/-! ### Following paths -/

/-- The number of bytes that a name may have. -/
def nameLimit : Nat := 255

/-- The number of bytes that a path may have. -/
def pathLimit : Nat := 4095

/-- The place that names lead to, from a place on.  All but the last have to be folders; of the last
nothing is asked. -/
def follow (t : FileTree) (place : Place) : List String → Except FileCause Place
  | [] => .ok place
  | name :: rest =>
    match t.at? place with
    | none => .error .notFound
    | some (.file _) => .error .notAFolder
    | some .folder =>
      if nameLimit < name.utf8ByteSize then .error .nameTooLong
      else t.follow (if name = upward then place.dropLast else place ++ [name]) rest

/-- The place that a path leads to. -/
def locate (t : FileTree) (p : Path) : Except FileCause Place :=
  if p.isBroken then .error .brokenName
  else if pathLimit < p.text.utf8ByteSize then .error .nameTooLong
  else t.follow [] p.names

/-- What is at the end of a path.  Nothing is where a path leads nowhere, except that a name which
is too long is a fault. -/
def get? (t : FileTree) (p : Path) : Except FileFault (Option Entry) :=
  match t.locate p with
  | .ok place => .ok (t.at? place)
  | .error .nameTooLong => .error ⟨.nameTooLong, p⟩
  | .error _ => .ok none

/-- Something is at the end of the path `p`. -/
def has (t : FileTree) (p : Path) : Except FileFault Bool := (t.get? p).map (·.isSome)

/-- A file is at the end of the path `p`. -/
def isFile (t : FileTree) (p : Path) : Except FileFault Bool :=
  (t.get? p).map fun
    | some (.file _) => true
    | _ => false

/-- A folder is at the end of the path `p`. -/
def isFolder (t : FileTree) (p : Path) : Bool :=
  match t.get? p with
  | .ok entry => entry = some .folder
  | .error _ => false

/-! ### Reading and writing -/

/-- What the file at the end of a path holds. -/
def read (t : FileTree) (p : Path) : Except FileCause Content := do
  match t.at? (← t.locate p) with
  | some (.file content) => .ok content
  | some .folder => .error .isAFolder
  | none => .error .notFound

/-- Writes a file; the folder around it has to be there. -/
def write (t : FileTree) (p : Path) (content : Content) : Except FileCause FileTree := do
  let place ← t.locate p
  match t.at? place with
  | some .folder => .error .isAFolder
  | _ => .ok (t.put place (.file content))

/-- Makes a folder where nothing is. -/
def makeFolder (t : FileTree) (p : Path) : Except FileCause FileTree := do
  let place ← t.locate p
  match t.at? place with
  | some _ => .error .exists
  | none => .ok (t.put place .folder)

/-- A tree, and a fault if not all was done that should have been. -/
abbrev Changed := FileTree × Option FileFault

/-- Makes a folder, accepting one that is there. -/
def ensureFolder (t : FileTree) (p : Path) : Changed :=
  match t.makeFolder p with
  | .ok t => (t, none)
  | .error cause => if t.isFolder p then (t, none) else (t, some ⟨cause, p⟩)

/-- Makes a folder and those around it, as far as they are missing. -/
def ensureFolders (t : FileTree) (p : Path) : Changed :=
  match t.makeFolder p with
  | .error .notFound =>
    if p.names = [] then t.ensureFolder p
    else
      match t.ensureFolders p.parent with
      | (t, some fault) => (t, some fault)
      | (t, none) => t.ensureFolder p
  | _ => t.ensureFolder p
termination_by p.names.length
decreasing_by
  rename_i h
  have := List.length_pos_iff.2 h
  simp only [Path.parent, List.length_dropLast]
  omega

/-- Writes a file, making the folders around it. -/
def store (t : FileTree) (p : Path) (content : Content) : Changed :=
  match t.ensureFolders p.parent with
  | (t, some fault) => (t, some fault)
  | (t, none) =>
    match t.write p content with
    | .ok t => (t, none)
    | .error cause => (t, some ⟨cause, p⟩)

/-- The files of a tree. -/
def files (t : FileTree) : List (Place × Content) :=
  t.entries.filterMap fun
    | (place, .file content) => some (place, content)
    | (_, .folder) => none

end FileTree

/-! ### Files as texts -/

/-- Why a file cannot be read as a text. -/
inductive TextFault where
  | missing (path : Path)
  | unreadable (fault : FileFault)
  /-- The file holds bytes that encode no text. -/
  | undecodable (path : Path)
  deriving DecidableEq, Repr

/-- Characters with every line break written as a line feed. -/
def lineFeeds : List Char → List Char
  | '\r' :: '\n' :: cs => '\n' :: lineFeeds cs
  | '\r' :: cs => '\n' :: lineFeeds cs
  | c :: cs => c :: lineFeeds cs
  | [] => []

/-- The text that a content is. -/
def Content.text? : Content → Option String
  | text s => some (String.ofList (lineFeeds s.toList))
  | raw _ => none

/-- The text of a file. -/
def FileTree.readText (t : FileTree) (p : Path) : Except TextFault String :=
  match t.read p with
  | .error .notFound => .error (.missing p)
  | .error cause => .error (.unreadable ⟨cause, p⟩)
  | .ok content =>
    match content.text? with
    | some s => .ok s
    | none => .error (.undecodable p)

end SchemaLoom.Workspace
