import Cicode.Tree.Sexp
import Cicode.Program.Check
import Cicode.Program.Symbols
import Cicode.Grammar.Language
import Cicode.Report.Draw
import Cicode.Files.Workspace
import Cicode.Main
import Cicode.Proofs.Grammar.Implementation
import Cicode.Proofs.Command.Silence
import Cicode.Proofs.Command.Abort
import Cicode.Proofs.Program.Losses
import Cicode.Proofs.Program.Printing
import Cicode.Proofs.Tree.Root
import Cicode.Proofs.Lex.Words
import Cicode.Proofs.Parse.Straight
import Cicode.Proofs.Parse.Written
import Cicode.Proofs.Program.RoundTrip
import Cicode.Proofs.Parse.Source
import Cicode.Proofs.Program.Names
import Cicode.Proofs.Tree.Recased
import Cicode.Proofs.Command.Agreement
import Cicode.Proofs.Program.Breaches
import Cicode.Proofs.Program.Documentation
import Cicode.Proofs.Files.History
import Cicode.Proofs.Command.Lines
import Cicode.Proofs.Tree.Outermost
import Cicode.Proofs.Program.Limit
import Cicode.Proofs.Tree.NestedLists
import Cicode.Proofs.Program.Arranged
import Cicode.Proofs.Lex.Extents
import Cicode.Proofs.Lex.Blanks
import Cicode.Proofs.Json.Reader
import Cicode.Proofs.Program.Contents
import Cicode.Proofs.Program.DocumentedParameters
import Cicode.Proofs.Program.OutlineJson
import Cicode.Proofs.Parse.Derived
import Cicode.Proofs.Parse.Sequence
import Cicode.Proofs.Program.QuotedStrings
import Cicode.Proofs.Program.Signatures
import Cicode.Proofs.Program.Completeness
import Cicode.Proofs.Program.Returns
import Cicode.Proofs.Lex.Cuts
import Cicode.Proofs.Lex.Closing
import Cicode.Proofs.Parse.Beside
import Cicode.Proofs.Parse.Cutting
import Cicode.Proofs.Parse.Insertion
import Cicode.Proofs.Program.Relocation
import Cicode.Proofs.Tree.Held
import Cicode.Proofs.Program.Comments
import Cicode.Proofs.Program.Concatenation
