import AuditSettings.Command.Arguments
import AuditSettings.Command.Run
import AuditSettings.Discovery.Disk
import AuditSettings.Discovery.Error
import AuditSettings.Discovery.FileTree
import AuditSettings.Discovery.Search
import AuditSettings.Log.Event
import AuditSettings.Log.Filter
import AuditSettings.Main
import AuditSettings.Number.Binary64
import AuditSettings.Number.Numeral
import AuditSettings.Number.Shortest
import AuditSettings.OrderedSet
import AuditSettings.Path
import AuditSettings.Policy.Advisory
import AuditSettings.Policy.Category
import AuditSettings.Policy.Keyword
import AuditSettings.Policy.Severity
import AuditSettings.Proofs.Discovery.FirstFound
import AuditSettings.Proofs.Discovery.Places
import AuditSettings.Proofs.Settings.Sections
import AuditSettings.Proofs.Settings.Shown
import AuditSettings.Proofs.Settings.Spelling
import AuditSettings.Proofs.Toml.BasicString
import AuditSettings.Proofs.Toml.Coherence
import AuditSettings.Proofs.Toml.Following
import AuditSettings.Proofs.Toml.Lexing
import AuditSettings.Proofs.Toml.Merging
import AuditSettings.Proofs.Toml.Newest
import AuditSettings.Proofs.Toml.Row
import AuditSettings.Proofs.Toml.Sites
import AuditSettings.Proofs.Toml.Survey
import AuditSettings.Report.Json
import AuditSettings.Report.Terminal
import AuditSettings.Settings.Basic
import AuditSettings.Settings.Field
import AuditSettings.Settings.Reading
import AuditSettings.Text.Blank
import AuditSettings.Text.Hidden
import AuditSettings.Text.Location
import AuditSettings.Text.Quoted
import AuditSettings.Text.Split
import AuditSettings.Text.Utf8
import AuditSettings.Toml.Document
import AuditSettings.Toml.Error
import AuditSettings.Toml.Grammar
import AuditSettings.Toml.Node
import AuditSettings.Toml.Parse
import AuditSettings.Toml.Scalar
import AuditSettings.Toml.Token.Basic
import AuditSettings.Toml.Token.Scan
import AuditSettings.Toml.Token.Span
import AuditSettings.Toml.Tree
import AuditSettings.Proofs.Settings.Assigning
import AuditSettings.Proofs.Settings.Drafting
import AuditSettings.Proofs.Settings.RoundTrip
import AuditSettings.Proofs.Toml.Building
import AuditSettings.Proofs.Toml.Marks
import AuditSettings.Proofs.Toml.Parsing
import AuditSettings.Proofs.Toml.Order
import AuditSettings.Proofs.Toml.Recording
import AuditSettings.Proofs.Toml.Refusal
import AuditSettings.Proofs.Toml.UniqueKeys
import AuditSettings.Proofs.Settings.Accepting
import AuditSettings.Proofs.Settings.Meaning
import AuditSettings.Proofs.Toml.Acts
import AuditSettings.Proofs.Toml.Seen
import AuditSettings.Proofs.Toml.Kinds
import AuditSettings.Proofs.Toml.Redefinition
import AuditSettings.Proofs.Toml.Spots
import AuditSettings.Proofs.Toml.Standing
import AuditSettings.Proofs.Toml.Located
import AuditSettings.Proofs.Toml.Locations
import AuditSettings.Proofs.Toml.Repeats
import AuditSettings.Proofs.Text.Encoding
import AuditSettings.Proofs.Discovery.Precedence
import AuditSettings.Proofs.Discovery.SameReading
import AuditSettings.Proofs.Toml.Meeting
import AuditSettings.Proofs.Toml.Stops
import AuditSettings.Proofs.Toml.Words
import AuditSettings.Proofs.Toml.AtOrigin
import AuditSettings.Proofs.Toml.Joining
import AuditSettings.Proofs.Toml.TreeAtOrigin
import AuditSettings.Proofs.Toml.Insertion
import AuditSettings.Proofs.Settings.ReadAtOrigin
import AuditSettings.Proofs.Settings.UnknownSection
import AuditSettings.Proofs.Report.Unambiguous
import AuditSettings.Proofs.Settings.Answers
import AuditSettings.Proofs.Command.Agreement
import AuditSettings.Proofs.Toml.Integers
import AuditSettings.Proofs.Toml.Union
import AuditSettings.Proofs.Toml.UsedOnce
import AuditSettings.Proofs.Settings.Accounting
import AuditSettings.Proofs.Text.QuotedWords
import AuditSettings.Proofs.Settings.FirstOffence
import AuditSettings.Proofs.Text.ByteOrder
import AuditSettings.Proofs.Settings.Canonical
import AuditSettings.Proofs.Text.Decoding
import AuditSettings.Proofs.Discovery.InvalidBytes
import AuditSettings.Proofs.Toml.LineBreaks
import AuditSettings.Proofs.Settings.LineEndings
import AuditSettings.Proofs.Toml.TextOrder
import AuditSettings.Proofs.Text.Trimming
import AuditSettings.Proofs.Policy.Labels
import AuditSettings.Proofs.Text.DigitRows
import AuditSettings.Proofs.Policy.AdvisoryNames
import AuditSettings.Proofs.Text.Offsets
import AuditSettings.Proofs.Toml.LaterKey
import AuditSettings.Proofs.Number.Digits
import AuditSettings.Proofs.Text.Quoting
import AuditSettings.Proofs.Number.Rounding
import AuditSettings.Proofs.Settings.Descriptions
import AuditSettings.Proofs.Number.Decimals
import AuditSettings.Proofs.Policy.Scores
