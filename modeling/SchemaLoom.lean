import SchemaLoom.Access.Rule
import SchemaLoom.Artifact.Assembly
import SchemaLoom.Artifact.Fragment
import SchemaLoom.Catalog
import SchemaLoom.Catalog.Classification
import SchemaLoom.Catalog.Directive
import SchemaLoom.Catalog.Emission
import SchemaLoom.Command.Run
import SchemaLoom.Compile
import SchemaLoom.Form
import SchemaLoom.Main
import SchemaLoom.Number.Decimal
import SchemaLoom.Proofs.Artifact.Interleaving
import SchemaLoom.Proofs.Artifact.Interpretation
import SchemaLoom.Proofs.Artifact.SchemaText
import SchemaLoom.Proofs.Catalog.ArgumentNames
import SchemaLoom.Proofs.Catalog.Dispatch
import SchemaLoom.Proofs.Catalog.ImpliedKey
import SchemaLoom.Proofs.Catalog.KeySchema
import SchemaLoom.Proofs.Catalog.KeyType
import SchemaLoom.Proofs.Catalog.Readers
import SchemaLoom.Proofs.Catalog.Reclassification
import SchemaLoom.Proofs.Catalog.References
import SchemaLoom.Proofs.Catalog.RelatedItem
import SchemaLoom.Proofs.Catalog.RelationIndex
import SchemaLoom.Proofs.Catalog.ResolverField
import SchemaLoom.Proofs.Catalog.Scope
import SchemaLoom.Proofs.Catalog.SharedKey
import SchemaLoom.Proofs.Catalog.Stock
import SchemaLoom.Proofs.Catalog.Stripping
import SchemaLoom.Proofs.Compile.Annotations
import SchemaLoom.Proofs.Compile.DirectiveArguments
import SchemaLoom.Proofs.Compile.Ending
import SchemaLoom.Proofs.Compile.NamesApart
import SchemaLoom.Proofs.Compile.Order
import SchemaLoom.Proofs.Compile.PublishedFile
import SchemaLoom.Proofs.Compile.PublishedMarks
import SchemaLoom.Proofs.Compile.ResolverPlace
import SchemaLoom.Proofs.Compile.SchemaText
import SchemaLoom.Proofs.Compile.Scope
import SchemaLoom.Proofs.Resolver.Balance
import SchemaLoom.Proofs.Resolver.MarkerOwner
import SchemaLoom.Proofs.Resolver.PoolRules
import SchemaLoom.Proofs.Sdl.DirectiveEdits
import SchemaLoom.Proofs.Sdl.First
import SchemaLoom.Proofs.Sdl.Frame
import SchemaLoom.Proofs.Sdl.Replacement
import SchemaLoom.Proofs.Sdl.Restoring.Definition
import SchemaLoom.Proofs.Sdl.Restoring.Document
import SchemaLoom.Proofs.Sdl.Scope
import SchemaLoom.Proofs.Sdl.Wrapping
import SchemaLoom.Proofs.Surface.ForeignInput
import SchemaLoom.Proofs.Surface.KeyEntries
import SchemaLoom.Proofs.Surface.NamesApart
import SchemaLoom.Proofs.Surface.References
import SchemaLoom.Proofs.Surface.RelationKeys
import SchemaLoom.Proofs.Surface.Scope
import SchemaLoom.Proofs.Surface.Storage
import SchemaLoom.Proofs.Surface.TenantField
import SchemaLoom.Proofs.Surface.TypeSearch
import SchemaLoom.Proofs.Tree.Apart
import SchemaLoom.Proofs.Workspace.Failure
import SchemaLoom.Proofs.Workspace.Overwriting
import SchemaLoom.Proofs.Workspace.RootTypes
import SchemaLoom.Proofs.Workspace.SchemaFile
import SchemaLoom.Proofs.Workspace.Settings
import SchemaLoom.Resolver.Guard
import SchemaLoom.Resolver.Listing
import SchemaLoom.Resolver.Mutation
import SchemaLoom.Sdl.Document.Parser
import SchemaLoom.Sdl.Document.Printer
import SchemaLoom.Sdl.Edit
import SchemaLoom.Sdl.Shape
import SchemaLoom.Sdl.Site
import SchemaLoom.Sdl.Token.Lexer
import SchemaLoom.Table.Key
import SchemaLoom.Table.Relation
import SchemaLoom.Table.Tenancy
import SchemaLoom.Text.Case
import SchemaLoom.Text.CharClass
import SchemaLoom.Text.Escape
import SchemaLoom.Text.Layout
import SchemaLoom.Tree.Patch
import SchemaLoom.Workspace.Build
import SchemaLoom.Workspace.Config
import SchemaLoom.Workspace.Listing
import SchemaLoom.Yaml.Graph
import SchemaLoom.Yaml.Printer
import SchemaLoom.Yaml.Reading
import SchemaLoom.Yaml.Token.Lexer
