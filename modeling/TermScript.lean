import TermScript.Command.Folder
import TermScript.Command.Options
import TermScript.Command.Run
import TermScript.Json
import TermScript.Layout
import TermScript.Main
import TermScript.Proofs.CallDepth
import TermScript.Proofs.ErrorPlaces
import TermScript.Proofs.Grammar.CommonPart
import TermScript.Proofs.Grammar.Completeness
import TermScript.Proofs.Grammar.Derivation
import TermScript.Proofs.Grammar.EarliestFault
import TermScript.Proofs.Grammar.Language
import TermScript.Proofs.Grammar.Limits
import TermScript.Proofs.Grammar.Nesting
import TermScript.Proofs.Grammar.Retained
import TermScript.Proofs.Grammar.Soundness
import TermScript.Proofs.Grammar.Spelled
import TermScript.Proofs.Grammar.ViablePrefix
import TermScript.Proofs.Grammar.Written
import TermScript.Proofs.Json.Decoding
import TermScript.Proofs.Json.UniqueText
import TermScript.Proofs.Layout.Frames
import TermScript.Proofs.Layout.Retains
import TermScript.Proofs.Layout.Tidy
import TermScript.Proofs.Layout.Writable
import TermScript.Proofs.Positions
import TermScript.Proofs.RoundTrip
import TermScript.Proofs.Rule.CommaLists
import TermScript.Proofs.Rule.Congruence
import TermScript.Proofs.Rule.Elements
import TermScript.Proofs.Rule.Entries
import TermScript.Proofs.Rule.Lists
import TermScript.Proofs.Rule.Locality
import TermScript.Proofs.Rule.Pairing
import TermScript.Proofs.Rule.Places
import TermScript.Proofs.Rule.Reach
import TermScript.Proofs.Rule.Runs
import TermScript.Proofs.Session.Counter
import TermScript.Proofs.Session.Reuse
import TermScript.Proofs.Spacing
import TermScript.Proofs.Text.Quotable
import TermScript.Proofs.Text.Regex
import TermScript.Proofs.Token.Cutting
import TermScript.Proofs.Token.Lossless
import TermScript.Proofs.Token.Munch
import TermScript.Proofs.Token.Quoting
import TermScript.Proofs.Token.Rules
import TermScript.Proofs.Token.Seams
import TermScript.Proofs.Token.Spelling
import TermScript.Proofs.TraceLog
import TermScript.Reader
import TermScript.Rule.Basic
import TermScript.Rule.Input
import TermScript.Session
import TermScript.Syntax
import TermScript.Text
import TermScript.Token.Basic
import TermScript.Token.Scan
