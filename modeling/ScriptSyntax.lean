import ScriptSyntax.Main
import ScriptSyntax.Proofs.Lexical.Run
import ScriptSyntax.Proofs.Parser.Climbing
import ScriptSyntax.Proofs.Parser.Coverage
import ScriptSyntax.Proofs.Parser.RoundTrip
import ScriptSyntax.Proofs.Lexical.Respacing
import ScriptSyntax.Proofs.Lexical.Order
import ScriptSyntax.Proofs.Parser.Places
import ScriptSyntax.Proofs.Parser.Failure
import ScriptSyntax.Proofs.Lexical.Restart
import ScriptSyntax.Proofs.Lexical.Spelling
import ScriptSyntax.Proofs.Cursor.Walker
import ScriptSyntax.Proofs.Parser.Dumping
import ScriptSyntax.Proofs.Parser.NestingLimit
import ScriptSyntax.Proofs.Parser.Height
import ScriptSyntax.Proofs.Parser.Controls
import ScriptSyntax.Proofs.Parser.Composition
import ScriptSyntax.Proofs.Parser.Permissions
import ScriptSyntax.Proofs.Parser.Logging
import ScriptSyntax.Proofs.CommandLine.Lines
import ScriptSyntax.Proofs.CommandLine.Files
import ScriptSyntax.Proofs.Session.Table
import ScriptSyntax.Proofs.Parser.FirstEnd
import ScriptSyntax.Proofs.Parser.LineBreaks
import ScriptSyntax.Proofs.Lexical.NumeralTexts
import ScriptSyntax.Proofs.Lexical.NumeralValues
import ScriptSyntax.Proofs.Lexical.StringExtents
import ScriptSyntax.Proofs.Text.Bytes
import ScriptSyntax.Proofs.Lexical.TextUnits
import ScriptSyntax.Proofs.Lexical.Characters
import ScriptSyntax.Proofs.Lexical.ByteEscapes
import ScriptSyntax.Proofs.Lexical.DumpedLiterals
import ScriptSyntax.Proofs.Lexical.DumpedNumerals
import ScriptSyntax.Proofs.Bytewise.Runs
import ScriptSyntax.Proofs.Lexical.LongestMatch
import ScriptSyntax.Proofs.Lexical.NotIn
import ScriptSyntax.Proofs.Tree.Assembly
import ScriptSyntax.Proofs.Lexical.UnexpectedCharacters
import ScriptSyntax.Proofs.Lexical.RadixEscapes
