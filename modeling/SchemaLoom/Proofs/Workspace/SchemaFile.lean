/-
What a build makes of the schema that it reads.

A build reads its schema and does not write it.  But it writes the files that it put together
wherever their paths lead, and nothing keeps a path from leading to the schema: the published
schema has the file name of the schema, and the folder to build into may be around it.

So the schema holds in the end what was written to its place last, or what it held (`leaves`).
This is told of every place that has a file, by induction on the files (`file_of_writeFiles`): a
file that is written there is found by all that follow, one that is written elsewhere leaves it
as it is, and so does one that cannot be written.

A file in a folder that is made on the way can have a path that leads back, so where the paths
lead is asked of the tree that the run leaves behind.
-/
import SchemaLoom.Proofs.Workspace.Overwriting

namespace SchemaLoom.Workspace

open Artifact

variable {folder : Path} {appendOnly : Bool} {t t' : FileTree} {f : File} {files : List File}
  {place : Place} {content : Content} {j : Job}

/-! ### What is written -/

/-- The files that a run of writing writes, up to the first that cannot be written. -/
def writtenFiles (folder : Path) (appendOnly : Bool) (t : FileTree) : List File → List File
  | [] => []
  | f :: rest =>
    match isKept t folder appendOnly f with
    | .error _ => []
    | .ok true => writtenFiles folder appendOnly t rest
    | .ok false =>
      match t.store (folder.join f.location) (.text f.body) with
      | (_, some _) => []
      | (t, none) => f :: writtenFiles folder appendOnly t rest

/-- The content that a file brings to a place, if its path leads there. -/
def brings (folder : Path) (t : FileTree) (place : Place) (f : File) : Option Content :=
  if t.locate (folder.join f.location) = .ok place then some (.text f.body) else none

/-- What files leave of a content at a place: what the last of them that lead there brings, or the
content itself. -/
def leaves (folder : Path) (t : FileTree) (place : Place) (content : Content) (files : List File) :
    Content :=
  ((files.filterMap (brings folder t place)).getLast?).getD content

theorem leaves_cons (f : File) (files : List File) :
    leaves folder t place content (f :: files)
      = leaves folder t place ((brings folder t place f).getD content) files := by
  unfold leaves
  cases hbrings : brings folder t place f with
  | none => rw [List.filterMap_cons_none hbrings, Option.getD_none]
  | some body =>
    rw [List.filterMap_cons_some hbrings, List.getLast?_cons, Option.getD_some, Option.getD_some]

/-- A content is left as it is just if what is brought last, if anything, is the same. -/
theorem leaves_eq_iff :
    leaves folder t place content files = content ↔
      ∀ body ∈ (files.filterMap (brings folder t place)).getLast?, body = content := by
  unfold leaves
  cases (files.filterMap (brings folder t place)).getLast? <;> simp

/-! ### A run of writing

The file at a place is followed through the run, which either brings a body there or leaves it
alone.
-/

/-- A run of writing lets a tree grow, whether it succeeds or not. -/
theorem grows_writeFiles (folder : Path) (appendOnly : Bool) (t : FileTree) (files : List File) :
    t.Grows (fun _ => True) (writeFiles folder appendOnly t files).tree :=
  (grows_where_mayWrite (FileTree.Grows.refl (fun _ => True) t)).weaken fun _ _ => trivial

/-- One file that is written leaves of a content what it brings. -/
theorem file_of_store (hstore : t.store (folder.join f.location) (.text f.body) = (t', none))
    {written : Place → Prop} {after : FileTree} (hlater : t'.Grows written after)
    (hfile : t.at? place = some (.file content)) :
    t'.at? place = some (.file ((brings folder after place f).getD content)) := by
  obtain ⟨own, hown, hbody, hgrows⟩ := FileTree.of_store hstore
  unfold brings
  rw [hlater.locate hown]
  by_cases hsame : own = place
  · subst hsame
    rw [if_pos rfl, Option.getD_some, hbody]
  · rw [if_neg fun hplace => hsame (Except.ok.inj hplace), Option.getD_none]
    exact hgrows.file_of_not (Ne.symm hsame) hfile

/-- **A run of writing, whether it succeeds or not, leaves of every file what its written files
leave of it** (`leaves`, `writtenFiles`). -/
theorem file_of_writeFiles (hfile : t.at? place = some (.file content)) :
    let after := (writeFiles folder appendOnly t files).tree
    after.at? place = some (.file
      (leaves folder after place content (writtenFiles folder appendOnly t files))) := by
  induction files generalizing t content with
  | nil => exact hfile
  | cons f rest ih =>
    rw [writeFiles, writtenFiles]
    cases hkept : isKept t folder appendOnly f with
    | error fault => exact hfile
    | ok isKept =>
      cases isKept with
      | true => exact ih hfile
      | false =>
        dsimp only
        rcases hstore : t.store (folder.join f.location) (.text f.body) with ⟨next, _ | fault⟩
        · have hlater := grows_writeFiles folder appendOnly next rest
          dsimp only
          rw [leaves_cons]
          exact ih (file_of_store hstore hlater hfile)
        · exact (FileTree.grows_of_failed_store hstore).file_of_not not_false hfile

/-! ### Builds -/

theorem FileTree.read_of_file {p : Path} (hplace : t.locate p = .ok place)
    (hfile : t.at? place = some (.file content)) : t.read p = .ok content := by
  simp [FileTree.read, hplace, hfile]

/-- **A build leaves its schema as it is, unless it writes files to the place of the schema; then
the schema holds what the last of them brought.**  This holds of builds that succeed and of those
that fail. A build whose files cannot be put together, for instance because there is no schema,
changes nothing. -/
theorem schema_of_build (j : Job) (t : FileTree) :
    (∀ fault, (j.files t).outcome = .error fault → (j.build t).tree = t) ∧
    ∀ files, (j.files t).outcome = .ok files → ∃ place content,
      t.locate j.schemaPath = .ok place ∧ t.read j.schemaPath = .ok content ∧
      let after := (j.build t).tree
      let written := writtenFiles j.buildPath j.config.appendOnly t files
      after.locate j.schemaPath = .ok place ∧
      after.read j.schemaPath = .ok (leaves j.buildPath after place content written) ∧
      (after.read j.schemaPath = t.read j.schemaPath ↔
        ∀ body ∈ (written.filterMap (brings j.buildPath after place)).getLast?, body =
          content) := by
  refine ⟨fun fault hfault => Job.build_of_fault hfault, fun files hfiles => ?_⟩
  obtain ⟨fragments, existing, ⟨text, htext, -⟩, -, -⟩ := Job.files_eq_ok.1 hfiles
  obtain ⟨place, content, hplace, hfile, -⟩ := FileTree.of_readText htext
  have htree := (Job.build_of_files hfiles).1
  have hgrows : t.Grows (fun _ => True) (j.build t).tree := htree ▸ grows_writeFiles _ _ t files
  have hafter : (j.build t).tree.at? place = some (.file (leaves j.buildPath (j.build t).tree place
      content (writtenFiles j.buildPath j.config.appendOnly t files))) := by
    rw [htree]
    exact file_of_writeFiles hfile
  have hread := FileTree.read_of_file hplace hfile
  have hleft := FileTree.read_of_file (hgrows.locate hplace) hafter
  refine ⟨place, content, hplace, hread, hgrows.locate hplace, hleft, ?_⟩
  rw [hread, hleft, Except.ok.injEq]
  exact leaves_eq_iff

/-- A schema that is published over itself: it is where a build places the schema of its name. -/
def ownSchema : Job where
  base := ⟨["w"], false⟩
  config := { inSchema := "build/schema/schema.graphql" }

/-- A workspace with nothing but that schema. -/
def ownWorkspace : FileTree :=
  ⟨[(["w"], .folder), (["w", "build"], .folder), (["w", "build", "schema"], .folder),
    (["w", "build", "schema", "schema.graphql"], .file (.text computedField))]⟩

/-- The build succeeds, and the schema is another one. -/
theorem ownSchema_replaced :
    Outcome.Holds (ownSchema.build ownWorkspace).report.outcome (fun _ => True) ∧
      ownWorkspace.read ownSchema.schemaPath = .ok (.text computedField) ∧
      Outcome.Holds ((ownSchema.build ownWorkspace).tree.read ownSchema.schemaPath)
        fun content => content ≠ .text computedField := by
  decide +kernel

end SchemaLoom.Workspace
