/-
Listings of folders.

The files within a place are named by the way to them, and their bytes are shown as characters.
-/
import SchemaLoom.Text.Encoding
import SchemaLoom.Workspace.FileTree

namespace SchemaLoom.Workspace

/-- A content as it is shown to a reader. -/
def Content.shown : Content → String
  | text s => s
  | raw bytes => String.ofList (Text.shownBytes bytes)

namespace FileTree

/-- The files within a place, named by the way to them, in no particular order. -/
def filesWithin (t : FileTree) (place : Place) : List (String × Content) :=
  t.files.filterMap fun (other, content) =>
    if place.isPrefixOf other then some ("/".intercalate (other.drop place.length), content)
    else none

/-- The files within a place, in ascending order of the way to them. -/
def listing (t : FileTree) (place : Place) : List (String × Content) :=
  (t.filesWithin place).mergeSort fun a b => !decide (b.1 < a.1)

end FileTree

end SchemaLoom.Workspace
