/-
The published schema.

The directives that the compiler acts on are no part of the published schema: they are stripped
wherever they are in scope (`stripEdits`).  A relation of an input type needs no stripping, for
the field as a whole is replaced.
-/
import SchemaLoom.Artifact.Fragment
import SchemaLoom.Catalog.Directive

namespace SchemaLoom.Surface

open Artifact

/-- The directives that are not published. -/
def internalDirectives : List String :=
  Role.all.map (·.name) ++ [Sdl.Declaration.bindingDirective]

/-- The names of the internal directives at a site, each once. -/
def internalNames (site : Sdl.Site) : List String :=
  Text.distinct ((site.directives.map (·.name)).filter (internalDirectives.contains ·))

/-- The site is a relation of an input type. -/
def isForeignInput : Sdl.Site → Bool
  | .field (.input _) f => f.directives.any fun d => d.name = Role.connection.name
  | _ => false

/-- The edits that strip the internal directives of a site. -/
def stripSite (site : Sdl.Site) : List Sdl.Edit :=
  if isForeignInput site then []
  else (internalNames site).map (.removeDirective site.typeName site.fieldName?)

/-- The edits that strip the internal directives of a document. -/
def stripEdits (c : Catalog) : List Sdl.Edit :=
  (c.document.sites.filter (·.inScope c.scope)).flatMap stripSite

/-- The fragments that strip the internal directives of the published schema. -/
def stripFragments (c : Catalog) : List Fragment :=
  (stripEdits c).map (Fragment.ofEdit c.publishedLocation)

end SchemaLoom.Surface
