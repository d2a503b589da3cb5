import JavaMend.Engine
import JavaMend.Error
import JavaMend.Flow.Query
import JavaMend.Flow.State
import JavaMend.Flow.Walk
import JavaMend.Interchange.Fix
import JavaMend.Interchange.Reader
import JavaMend.Interchange.Report
import JavaMend.Interchange.Settings
import JavaMend.Interchange.Writer
import JavaMend.Json.Basic
import JavaMend.Json.Parser
import JavaMend.Json.Printer
import JavaMend.Match.Glob
import JavaMend.Match.Shape
import JavaMend.Match.Signature
import JavaMend.Patch.Guard
import JavaMend.Patch.Imports
import JavaMend.Patch.Note
import JavaMend.Patch.Pending
import JavaMend.Patch.Repair
import JavaMend.Patch.Replace
import JavaMend.Patch.Splice
import JavaMend.Patch.Template
import JavaMend.Proofs.Engine.Cycle
import JavaMend.Proofs.Engine.Findings
import JavaMend.Proofs.Engine.Isolation
import JavaMend.Proofs.Engine.Quiet
import JavaMend.Proofs.Engine.Builtin
import JavaMend.Proofs.Flow.Abrupt
import JavaMend.Proofs.Flow.Comparison
import JavaMend.Proofs.Flow.Course
import JavaMend.Proofs.Flow.Early
import JavaMend.Proofs.Flow.Exact
import JavaMend.Proofs.Flow.Expression
import JavaMend.Proofs.Flow.Idle
import JavaMend.Proofs.Flow.Loop
import JavaMend.Proofs.Flow.Sinkless
import JavaMend.Proofs.Flow.Sinks
import JavaMend.Proofs.Flow.State
import JavaMend.Proofs.Flow.Statement
import JavaMend.Proofs.Flow.Widening
import JavaMend.Proofs.Patch.Applied
import JavaMend.Proofs.Patch.Load
import JavaMend.Proofs.Patch.Replaced
import JavaMend.Proofs.Patch.Rewriting
import JavaMend.Proofs.TempFiles.Commuting
import JavaMend.Proofs.Remedy.Following
import JavaMend.Proofs.Patch.Segments
import JavaMend.Proofs.Patch.Success
import JavaMend.Proofs.Patch.Waiting
import JavaMend.Proofs.Remedy.Apart
import JavaMend.Proofs.Remedy.Containment
import JavaMend.Proofs.Remedy.Entries
import JavaMend.Proofs.Remedy.Guarded
import JavaMend.Proofs.Remedy.Mending
import JavaMend.Proofs.Remedy.Notes
import JavaMend.Proofs.Remedy.Regime
import JavaMend.Proofs.Remedy.Silent
import JavaMend.Proofs.Remedy.Success
import JavaMend.Proofs.Remedy.Untriggered
import JavaMend.Proofs.Remedy.Written
import JavaMend.Proofs.Traversal.Triple
import JavaMend.Proofs.Traversal.FreeNames
import JavaMend.Proofs.Traversal.Rebuild
import JavaMend.Proofs.Traversal.Surface
import JavaMend.Proofs.Tree.Fresh
import JavaMend.Proofs.Tree.Lens
import JavaMend.Proofs.Tree.Literals
import JavaMend.Proofs.Tree.Parts
import JavaMend.Proofs.Tree.Places
import JavaMend.Remedy.Catalog
import JavaMend.Remedy.Cookie
import JavaMend.Remedy.DocumentBuilder
import JavaMend.Remedy.Factory
import JavaMend.Remedy.Pass
import JavaMend.Remedy.PathTraversal
import JavaMend.Remedy.Privileged
import JavaMend.Remedy.Random
import JavaMend.Remedy.RandomString
import JavaMend.Remedy.Seed
import JavaMend.Remedy.Surroundings
import JavaMend.Remedy.TempDirectory
import JavaMend.Remedy.TempFile
import JavaMend.Remedy.Transformer
import JavaMend.Remedy.XmlInput
import JavaMend.Settings.Config
import JavaMend.Settings.Control
import JavaMend.Settings.Document
import JavaMend.Settings.Preset
import JavaMend.Settings.Provenance
import JavaMend.Text.CharClass
import JavaMend.Text.Distance
import JavaMend.Text.Ordered
import JavaMend.Traversal.Cursor
import JavaMend.Traversal.Path
import JavaMend.Traversal.Scope
import JavaMend.Traversal.Visitor
import JavaMend.Tree.Expr
import JavaMend.Tree.Fresh
import JavaMend.Tree.Library
import JavaMend.Tree.Node
import JavaMend.Tree.Printer
import JavaMend.Tree.Slots
import JavaMend.Tree.Stmt
import JavaMend.Tree.Type
import JavaMend.Yaml.Basic
import JavaMend.Yaml.Document
import JavaMend.Yaml.Parser
import JavaMend.Yaml.Printer
import JavaMend.Yaml.Source
import JavaMend.Yaml.Tag
import JavaMend.Yaml.Text
import JavaMend.Yaml.Token
import JavaMend.Yaml.Token.Lexer
import JavaMend.Proofs.Patch.Substitution
import JavaMend.Proofs.Patch.Inlining
import JavaMend.Proofs.Patch.Gaps
import JavaMend.Proofs.Patch.Scoping
import JavaMend.Proofs.Tree.Scoping
import JavaMend.Proofs.Remedy.Extracting
import JavaMend.Proofs.Flow.Conditions
import JavaMend.Proofs.Remedy.Randomness
import JavaMend.Proofs.Remedy.Made
import JavaMend.Proofs.Tree.Members
import JavaMend.Proofs.Remedy.Grouping
import JavaMend.Proofs.Remedy.Orderly
import JavaMend.Proofs.Remedy.Turning
import JavaMend.Proofs.Match.Names
import JavaMend.Proofs.Match.Descriptor
import JavaMend.Proofs.Text.Ordered
import JavaMend.Proofs.Yaml.Back
import JavaMend.Proofs.Settings.Documents
import JavaMend.Proofs.Settings.Overrides
import JavaMend.Proofs.Match.Grammar
import JavaMend.Proofs.Json.Reading
import JavaMend.Proofs.Catalog.Reload
import JavaMend.Proofs.Flow.Passing
import JavaMend.Proofs.Flow.Handlers
import JavaMend.Proofs.Flow.ShortCircuit
import JavaMend.Proofs.TempFiles.Passes
import JavaMend.Proofs.Remedy.Appending
import JavaMend.Proofs.Remedy.Appended
import JavaMend.Proofs.Remedy.Hardening
import JavaMend.Proofs.Remedy.Hardened
import JavaMend.Proofs.Remedy.Switching
import JavaMend.Proofs.Remedy.Redirected
import JavaMend.Proofs.Remedy.Shadowing
import JavaMend.Proofs.Remedy.Naming
import JavaMend.Proofs.Remedy.Redeclaring
import JavaMend.Proofs.Remedy.Splitting
import JavaMend.Proofs.TempFiles.Sequences
import JavaMend.Proofs.Patch.Handled
import JavaMend.Proofs.Patch.Importing
import JavaMend.Proofs.Patch.Messages
import JavaMend.Proofs.RandomStrings.Classes
import JavaMend.Proofs.RandomStrings.Turned
import JavaMend.Proofs.RandomStrings.Sweeping
import JavaMend.Proofs.RandomStrings.Repairing
import JavaMend.Proofs.RandomStrings.Visiting
import JavaMend.Proofs.RandomStrings.Owned
import JavaMend.Proofs.RandomStrings.Clashing
import JavaMend.Proofs.Flow.Settling
import JavaMend.Proofs.Tree.Refilling
import JavaMend.Proofs.Tree.Without
import JavaMend.Proofs.Remedy.Waiting
import JavaMend.Proofs.Remedy.Removing
import JavaMend.Proofs.Remedy.Completed
import JavaMend.Proofs.Remedy.Completing
import JavaMend.Proofs.Remedy.Separating
import JavaMend.Proofs.Remedy.Shedding
import JavaMend.Proofs.Remedy.Shielding
import JavaMend.Proofs.Remedy.Protecting
import JavaMend.Proofs.Remedy.Scoped
import JavaMend.Proofs.Remedy.Clearing
import JavaMend.Proofs.Remedy.Protected
import JavaMend.Proofs.Text.Distance
import JavaMend.Proofs.Settings.Builder
import JavaMend.Proofs.Traversal.Positions
import JavaMend.Proofs.Remedy.Reporting
import JavaMend.Proofs.Flow.Walker
import JavaMend.Proofs.Flow.Places
import JavaMend.Proofs.Traversal.Sharing
import JavaMend.Proofs.Patch.Named
import JavaMend.Proofs.Patch.Informed
import JavaMend.Proofs.Remedy.Informing
import JavaMend.Proofs.Remedy.Visible
