import CallGraph.Bookmark
import CallGraph.Builtins
import CallGraph.CommandLine.Arguments
import CallGraph.CommandLine.Printout
import CallGraph.CommandLine.Program
import CallGraph.Config
import CallGraph.Config.Toml
import CallGraph.Definition
import CallGraph.Element
import CallGraph.Explorer
import CallGraph.Files.Tree
import CallGraph.Frontier.Basic
import CallGraph.Frontier.Column
import CallGraph.Frontier.Highlight
import CallGraph.Frontier.Navigation
import CallGraph.Frontier.Replay
import CallGraph.Json.Codec
import CallGraph.Json.Reader
import CallGraph.Json.Value
import CallGraph.Json.Writer
import CallGraph.Ledger
import CallGraph.Location
import CallGraph.Log
import CallGraph.Main
import CallGraph.ModuleName
import CallGraph.Node
import CallGraph.Path
import CallGraph.Proofs.Bookmark
import CallGraph.Proofs.Builtins
import CallGraph.Proofs.CommandLine.Exploring
import CallGraph.Proofs.Config
import CallGraph.Proofs.Explorer.Focus
import CallGraph.Proofs.Explorer.Journeys
import CallGraph.Proofs.Explorer.Operations
import CallGraph.Proofs.Explorer.Replaying
import CallGraph.Proofs.Explorer.Scope
import CallGraph.Proofs.Explorer.Sessions
import CallGraph.Proofs.Explorer.Unsaved
import CallGraph.Proofs.Files.Directories
import CallGraph.Proofs.Files.Edits
import CallGraph.Proofs.Files.Lookup
import CallGraph.Proofs.Files.Replacing
import CallGraph.Proofs.Files.Sound
import CallGraph.Proofs.Files.Spelling
import CallGraph.Proofs.Frontier.Attended
import CallGraph.Proofs.Frontier.Callers
import CallGraph.Proofs.Frontier.ChangingRoots
import CallGraph.Proofs.Frontier.Confluence
import CallGraph.Proofs.Frontier.Following
import CallGraph.Proofs.Frontier.Interleaving
import CallGraph.Proofs.Frontier.Meanwhile
import CallGraph.Proofs.Frontier.Orderly
import CallGraph.Proofs.Frontier.Printing
import CallGraph.Proofs.Frontier.Progress
import CallGraph.Proofs.Frontier.Queued
import CallGraph.Proofs.Frontier.Recorded
import CallGraph.Proofs.Frontier.Reference
import CallGraph.Proofs.Frontier.Roots
import CallGraph.Proofs.Frontier.Selecting
import CallGraph.Proofs.Frontier.Sequential
import CallGraph.Proofs.Frontier.Session
import CallGraph.Proofs.Frontier.Slots
import CallGraph.Proofs.Frontier.Viewing
import CallGraph.Proofs.Frontier.Worker
import CallGraph.Proofs.Json.Codec
import CallGraph.Proofs.Json.Forms
import CallGraph.Proofs.Ledger
import CallGraph.Proofs.ModuleName
import CallGraph.Proofs.Path
import CallGraph.Proofs.Recency.History
import CallGraph.Proofs.Recency.Links
import CallGraph.Proofs.Recency.Reference
import CallGraph.Proofs.Recency.Refinement
import CallGraph.Proofs.Scripted
import CallGraph.Proofs.Search.AllOrNothing
import CallGraph.Proofs.Search.Among
import CallGraph.Proofs.Search.Answered
import CallGraph.Proofs.Search.Around
import CallGraph.Proofs.Search.Attentive
import CallGraph.Proofs.Search.Browsing
import CallGraph.Proofs.Search.Callers
import CallGraph.Proofs.Search.Children
import CallGraph.Proofs.Search.Conduct
import CallGraph.Proofs.Search.Consulting
import CallGraph.Proofs.Search.Ensures
import CallGraph.Proofs.Search.Halted
import CallGraph.Proofs.Search.Ignored
import CallGraph.Proofs.Search.InStep
import CallGraph.Proofs.Search.Independent
import CallGraph.Proofs.Search.Indexed
import CallGraph.Proofs.Search.Interrupted
import CallGraph.Proofs.Search.Members
import CallGraph.Proofs.Search.Neighbours
import CallGraph.Proofs.Search.Offering
import CallGraph.Proofs.Search.Parts
import CallGraph.Proofs.Search.Recorded
import CallGraph.Proofs.Search.Repeated
import CallGraph.Proofs.Search.Roots
import CallGraph.Proofs.Search.Sites
import CallGraph.Proofs.Search.Transcript
import CallGraph.Proofs.Search.Truthful
import CallGraph.Proofs.Search.Wider
import CallGraph.Proofs.SearchScope
import CallGraph.Proofs.Searches
import CallGraph.Proofs.Settings.Additions
import CallGraph.Proofs.Settings.Agreement
import CallGraph.Proofs.Settings.Anew
import CallGraph.Proofs.Settings.Arguments
import CallGraph.Proofs.Settings.Failing
import CallGraph.Proofs.Settings.Kept
import CallGraph.Proofs.Settings.Openings
import CallGraph.Proofs.Settings.Outcomes
import CallGraph.Proofs.Settings.Reconciling
import CallGraph.Proofs.Settings.Reopening
import CallGraph.Proofs.Settings.Repeats
import CallGraph.Proofs.Settings.Replacement
import CallGraph.Proofs.Settings.Resolving
import CallGraph.Proofs.Settings.Roots
import CallGraph.Proofs.Settings.Saving
import CallGraph.Proofs.Signals
import CallGraph.Proofs.Source.Backward
import CallGraph.Proofs.Source.Bindings
import CallGraph.Proofs.Source.Dotted
import CallGraph.Proofs.Source.Editing
import CallGraph.Proofs.Source.Index
import CallGraph.Proofs.Source.Lookup
import CallGraph.Proofs.Source.Naming
import CallGraph.Proofs.Source.Nesting
import CallGraph.Proofs.Source.Occurrences
import CallGraph.Proofs.Source.Outline
import CallGraph.Proofs.Source.Packages
import CallGraph.Proofs.Source.Readable
import CallGraph.Proofs.Source.Records
import CallGraph.Proofs.Source.Respelling
import CallGraph.Proofs.Source.Scopes
import CallGraph.Proofs.Source.Searched
import CallGraph.Proofs.Source.Served
import CallGraph.Proofs.Source.Tree
import CallGraph.Proofs.Source.Unchanged
import CallGraph.Proofs.Source.Usages
import CallGraph.Proofs.Source.Walk
import CallGraph.Proofs.Source.Wider
import CallGraph.Proofs.Tasks
import CallGraph.Proofs.Tasks.Runs
import CallGraph.Provider.Basic
import CallGraph.Provider.Disturbed
import CallGraph.Provider.Error
import CallGraph.Provider.Question
import CallGraph.Provider.Scripted
import CallGraph.Provider.Sum
import CallGraph.Recency
import CallGraph.Report
import CallGraph.Roster
import CallGraph.ScopeSettings
import CallGraph.Search.Basic
import CallGraph.Search.Children
import CallGraph.Search.Modules
import CallGraph.Search.Neighbours
import CallGraph.Search.Parents
import CallGraph.Search.Roots
import CallGraph.SearchScope
import CallGraph.Searches
import CallGraph.Settings.Category
import CallGraph.Settings.Project
import CallGraph.Settings.Store
import CallGraph.Signals
import CallGraph.Source.Grammar
import CallGraph.Source.Index
import CallGraph.Source.Lexer
import CallGraph.Source.Outline
import CallGraph.Source.Survey
import CallGraph.Source.Token
import CallGraph.Source.Tree
import CallGraph.Source.Usages
import CallGraph.Tasks
import CallGraph.Text.Decimal
import CallGraph.Text.Glyph
import CallGraph.Text.Lines
import CallGraph.Text.Outlay
import CallGraph.Text.Quoted
import CallGraph.Text.Utf8
import CallGraph.TextCache
import CallGraph.Workspace
