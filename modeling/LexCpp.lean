import LexCpp.Regex.Parser
import LexCpp.Runtime.Chunks
import LexCpp.Runtime.Destroy
import LexCpp.Runtime.Eof
import LexCpp.Runtime.Stale
import LexCpp.Scanner.Bol
import LexCpp.Scanner.LineEnd
import LexCpp.Scanner.Lineno
import LexCpp.Scanner.Modes
import LexCpp.Control.Eval
import LexCpp.Regex.Bracketed
import LexCpp.Scanner.Caseless
import LexCpp.Source.Braces
import LexCpp.Source.PatternText
import LexCpp.Regex.Classes
import LexCpp.Regex.Stray
import LexCpp.Scanner.TableCheck
import LexCpp.Regex.Counts
import LexCpp.Source.Lines
import LexCpp.Source.Actions
import LexCpp.Regex.Operators
import LexCpp.Control.Switch
import LexCpp.Runtime.Look
import LexCpp.Runtime.Stacks
import LexCpp.Scanner.Extent
import LexCpp.Driver.Fuel
import LexCpp.Driver.LineEnds
