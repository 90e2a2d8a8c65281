import EpubStyle.Bytes.Charset
import EpubStyle.Bytes.Encoding
import EpubStyle.Bytes.Feed
import EpubStyle.Bytes.Files
import EpubStyle.Bytes.Source
import EpubStyle.Bytes.Utf8
import EpubStyle.Command.Arguments
import EpubStyle.Command.Output
import EpubStyle.Command.Run
import EpubStyle.Construct.Basic
import EpubStyle.Construct.Nesting
import EpubStyle.Construct.Printer
import EpubStyle.Failure
import EpubStyle.Grammar.Draft
import EpubStyle.Grammar.Event
import EpubStyle.Grammar.Selecting
import EpubStyle.Grammar.Sheet
import EpubStyle.Grammar.StyleAttribute
import EpubStyle.Json
import EpubStyle.Main
import EpubStyle.Markup.Attribute
import EpubStyle.Markup.EmbeddedStyle
import EpubStyle.Markup.Library
import EpubStyle.Markup.PlainXml
import EpubStyle.Parse
import EpubStyle.Problem.Code
import EpubStyle.Problem.Wording
import EpubStyle.Profile.Check
import EpubStyle.Profile.Finding
import EpubStyle.Profile.Href
import EpubStyle.Profile.MediaType
import EpubStyle.Profile.Report
import EpubStyle.Profile.Validate
import EpubStyle.Proofs.Bytes.Charsets
import EpubStyle.Proofs.Bytes.Conservation
import EpubStyle.Proofs.Bytes.Delivery
import EpubStyle.Proofs.Bytes.Encoders
import EpubStyle.Proofs.Bytes.Marks
import EpubStyle.Proofs.Bytes.Streams
import EpubStyle.Proofs.Calls.Declarations
import EpubStyle.Proofs.Calls.Importance
import EpubStyle.Proofs.Calls.Machines
import EpubStyle.Proofs.Calls.Reports
import EpubStyle.Proofs.Calls.Sheets
import EpubStyle.Proofs.Calls.StyleAttributes
import EpubStyle.Proofs.Concrete.Conservation
import EpubStyle.Proofs.Concrete.Entries
import EpubStyle.Proofs.Concrete.InlineStyles
import EpubStyle.Proofs.Concrete.Limits
import EpubStyle.Proofs.Concrete.Parts
import EpubStyle.Proofs.Concrete.Properties
import EpubStyle.Proofs.Concrete.Punctuation
import EpubStyle.Proofs.Concrete.SelectorReading
import EpubStyle.Proofs.Concrete.SelectorTrees
import EpubStyle.Proofs.Concrete.Selectors
import EpubStyle.Proofs.Concrete.SheetReading
import EpubStyle.Proofs.Concrete.SheetTrees
import EpubStyle.Proofs.Concrete.Sheets
import EpubStyle.Proofs.Concrete.SignTexts
import EpubStyle.Proofs.Concrete.Signs
import EpubStyle.Proofs.Concrete.Tokens
import EpubStyle.Proofs.Concrete.Values
import EpubStyle.Proofs.Json.Reader
import EpubStyle.Proofs.Json.Rendering
import EpubStyle.Proofs.Markup.Coordinates
import EpubStyle.Proofs.Markup.Readings
import EpubStyle.Proofs.Markup.StylePlaces
import EpubStyle.Proofs.Markup.Tags
import EpubStyle.Proofs.Markup.ValuePlaces
import EpubStyle.Proofs.Parse.Aborting
import EpubStyle.Proofs.Parse.Documents
import EpubStyle.Proofs.Parse.FaultAccounts
import EpubStyle.Proofs.Parse.Handlers
import EpubStyle.Proofs.Parse.Locales
import EpubStyle.Proofs.Parse.PrematureEnds
import EpubStyle.Proofs.Parse.Sources
import EpubStyle.Proofs.Parse.StepsBack
import EpubStyle.Proofs.Profile.FontFaces
import EpubStyle.Proofs.Profile.Hrefs
import EpubStyle.Proofs.Profile.References
import EpubStyle.Proofs.Profile.SyntaxErrors
import EpubStyle.Proofs.Rescan.Addresses
import EpubStyle.Proofs.Rescan.Idents
import EpubStyle.Proofs.Rescan.Names
import EpubStyle.Proofs.Rescan.Numbers
import EpubStyle.Proofs.Rescan.Readers
import EpubStyle.Proofs.Rescan.Tokens
import EpubStyle.Proofs.Sheet.BlockSteps
import EpubStyle.Proofs.Sheet.Braces
import EpubStyle.Proofs.Sheet.Bracketing
import EpubStyle.Proofs.Sheet.Comments
import EpubStyle.Proofs.Sheet.Feed
import EpubStyle.Proofs.Sheet.Isolation
import EpubStyle.Proofs.Sheet.Locations
import EpubStyle.Proofs.Sheet.Outcomes
import EpubStyle.Proofs.Sheet.Resynchronisation
import EpubStyle.Proofs.Sheet.Signals
import EpubStyle.Proofs.Sheet.Turns
import EpubStyle.Proofs.Sheet.Verdicts
import EpubStyle.Proofs.Spans.Basic
import EpubStyle.Proofs.Spans.Blanks
import EpubStyle.Proofs.Spans.NameParts
import EpubStyle.Proofs.Spans.Names
import EpubStyle.Proofs.Spans.Order
import EpubStyle.Proofs.Spans.Transcripts
import EpubStyle.Proofs.Spans.Unescape
import EpubStyle.Proofs.StyleAttribute.Blocks
import EpubStyle.Proofs.StyleAttribute.Signals
import EpubStyle.Proofs.Text.Case
import EpubStyle.Proofs.Text.Escapes
import EpubStyle.Proofs.Text.Lookahead
import EpubStyle.Proofs.Text.Positions
import EpubStyle.Proofs.Text.Weight
import EpubStyle.Proofs.Token.AddressSpellings
import EpubStyle.Proofs.Token.Branches
import EpubStyle.Proofs.Token.Ends
import EpubStyle.Proofs.Token.FaultPlaces
import EpubStyle.Proofs.Token.Forms
import EpubStyle.Proofs.Token.Joining
import EpubStyle.Proofs.Token.Lexemes
import EpubStyle.Proofs.Token.Names
import EpubStyle.Proofs.Token.Notes
import EpubStyle.Proofs.Token.Numerals
import EpubStyle.Proofs.Token.Openings
import EpubStyle.Proofs.Token.Semicolons
import EpubStyle.Proofs.Token.Shapes
import EpubStyle.Proofs.WellFormed.Events
import EpubStyle.Proofs.WellFormed.Selectors
import EpubStyle.Proofs.WellFormed.Values
import EpubStyle.Proofs.Writing.Alignment
import EpubStyle.Proofs.Writing.Carrying
import EpubStyle.Proofs.Writing.Layout
import EpubStyle.Proofs.Writing.Legibility
import EpubStyle.Proofs.Writing.Locations
import EpubStyle.Proofs.Writing.Measures
import EpubStyle.Proofs.Writing.RoundTrip
import EpubStyle.Proofs.Writing.SelectorRereading
import EpubStyle.Proofs.Writing.SheetRereading
import EpubStyle.Proofs.Writing.Strokes
import EpubStyle.Proofs.Writing.ValueRereading
import EpubStyle.Text.Chars
import EpubStyle.Text.Cursor
import EpubStyle.Text.Escape
import EpubStyle.Text.Location
import EpubStyle.Token.Basic
import EpubStyle.Token.Lexeme
import EpubStyle.Token.Measure
import EpubStyle.Token.Piece
import EpubStyle.Token.Scan
import EpubStyle.Token.Walk
