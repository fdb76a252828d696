import LiveDocument.Address.Basic
import LiveDocument.Address.Segment
import LiveDocument.Address.Slice
import LiveDocument.Arena
import LiveDocument.CommandLine.Arguments
import LiveDocument.CommandLine.Run
import LiveDocument.Digest.Basic
import LiveDocument.Digest.Compression
import LiveDocument.Document.Basic
import LiveDocument.Document.Description
import LiveDocument.Document.Edit
import LiveDocument.Document.Lookup
import LiveDocument.Document.Source
import LiveDocument.Failure
import LiveDocument.Format
import LiveDocument.Handle.Access
import LiveDocument.Handle.Basic
import LiveDocument.Json.Number
import LiveDocument.Json.Printer
import LiveDocument.Json.Reader
import LiveDocument.Main
import LiveDocument.Number.Binary64
import LiveDocument.Number.Integer
import LiveDocument.Number.Layout
import LiveDocument.Number.Shortest
import LiveDocument.Reference.Expansion
import LiveDocument.Reference.Scan
import LiveDocument.Session.Basic
import LiveDocument.Session.Call
import LiveDocument.Settings.Basic
import LiveDocument.Settings.File
import LiveDocument.Text.Blank
import LiveDocument.Text.Delimited
import LiveDocument.Text.Hex
import LiveDocument.Text.Literal
import LiveDocument.Text.Numeral
import LiveDocument.Text.Printable
import LiveDocument.Tree.Edit
import LiveDocument.Tree.Walk
import LiveDocument.Value.Basic
import LiveDocument.Value.Comparison
import LiveDocument.Value.Entries
import LiveDocument.Value.Equality
import LiveDocument.View
import LiveDocument.Yaml.Block
import LiveDocument.Yaml.Cursor
import LiveDocument.Yaml.Grammar
import LiveDocument.Yaml.Lexer
import LiveDocument.Yaml.Node
import LiveDocument.Yaml.Plain
import LiveDocument.Yaml.Printer
import LiveDocument.Yaml.Property
import LiveDocument.Yaml.Quoted
import LiveDocument.Yaml.Reader
import LiveDocument.Yaml.Scalar
import LiveDocument.Yaml.Token
import LiveDocument.Yaml.Written
import LiveDocument.Proofs.Address.Canonical
import LiveDocument.Proofs.Address.Parsed
import LiveDocument.Proofs.Arena.Issue
import LiveDocument.Proofs.Arena.Tenancy
import LiveDocument.Proofs.Document.Cache
import LiveDocument.Proofs.Document.Course
import LiveDocument.Proofs.Document.Ensures
import LiveDocument.Proofs.Document.Faithful
import LiveDocument.Proofs.Document.Retyping
import LiveDocument.Proofs.Document.Running
import LiveDocument.Proofs.Document.Sight
import LiveDocument.Proofs.Session.Calls
import LiveDocument.Proofs.Session.Deed
import LiveDocument.Proofs.Session.Direct
import LiveDocument.Proofs.Session.Identity
import LiveDocument.Proofs.Session.Likeness
import LiveDocument.Proofs.Session.Lookups
import LiveDocument.Proofs.Session.Mirrors
import LiveDocument.Proofs.Session.Retyping
import LiveDocument.Proofs.Session.Run
import LiveDocument.Proofs.Session.Transparency
import LiveDocument.Proofs.Session.Validity
import LiveDocument.Proofs.Tree.Alias
import LiveDocument.Proofs.Tree.Frame
import LiveDocument.Proofs.Tree.Spot
import LiveDocument.Proofs.Tree.Targets
import LiveDocument.Proofs.Arena.Ledger
import LiveDocument.Proofs.Arena.Refinement
import LiveDocument.Proofs.Tree.Writable
import LiveDocument.Proofs.Document.Atomic
import LiveDocument.Proofs.Session.Refusal
import LiveDocument.Proofs.Address.Decoding
import LiveDocument.Proofs.Reference.Substitution
import LiveDocument.Proofs.Reference.Graph
import LiveDocument.Proofs.Reference.Following
import LiveDocument.Proofs.Reference.Agreement
import LiveDocument.Proofs.Reference.Cycles
import LiveDocument.Proofs.Document.Settled
import LiveDocument.Proofs.Reference.Parts
import LiveDocument.Proofs.Tree.Selection
import LiveDocument.Proofs.Reference.Reading
import LiveDocument.Proofs.CommandLine.Get
import LiveDocument.Proofs.Session.Dead
import LiveDocument.Proofs.Tree.Throughout
import LiveDocument.Proofs.Session.Contents
import LiveDocument.Proofs.Session.Children
import LiveDocument.Proofs.Address.Naming
import LiveDocument.Proofs.Document.Naming
import LiveDocument.Proofs.Json.RoundTrip
import LiveDocument.Proofs.CommandLine.Edits
import LiveDocument.Proofs.Session.Names
import LiveDocument.Proofs.Reference.Termination
import LiveDocument.Proofs.Tree.Location
import LiveDocument.Proofs.Document.Effect
import LiveDocument.Proofs.Address.Places
import LiveDocument.Proofs.Tree.Replacement
import LiveDocument.Proofs.Document.Placement
import LiveDocument.Proofs.Session.Setting
import LiveDocument.Proofs.Tree.Laws
import LiveDocument.Proofs.Document.Laws
import LiveDocument.Proofs.Address.Reckoning
import LiveDocument.Proofs.Session.Slices
import LiveDocument.Proofs.Address.Numerals
import LiveDocument.Proofs.Session.Keys
import LiveDocument.Proofs.Tree.Entry
import LiveDocument.Proofs.Reference.Occurrences
import LiveDocument.Proofs.Reference.Splicing
import LiveDocument.Proofs.Session.Views
import LiveDocument.Proofs.Value.Correspondence
import LiveDocument.Proofs.Value.Coherence
import LiveDocument.Proofs.Value.Ranking
import LiveDocument.Proofs.Value.Integers
import LiveDocument.Proofs.Number.Rounding
import LiveDocument.Proofs.Session.Comparisons
import LiveDocument.Proofs.Tree.Concrete
import LiveDocument.Proofs.Arena.Upkeep
import LiveDocument.Proofs.Arena.Growth
