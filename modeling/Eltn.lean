import Eltn.Lexer.Basic
import Eltn.Lexer.Scan
import Eltn.Lexer.Spans
import Eltn.Unescape
import Eltn.Lexer.Quoted
import Eltn.Buffer.Basic
import Eltn.Buffer.Fifo
import Eltn.Parser.Basic
import Eltn.Parser.Step
import Eltn.Parser.Run
import Eltn.Parser.Events
import Eltn.Grammar
import Eltn.Parser.Accepts
import Eltn.Parser.Errors
import Eltn.Parser.Residual
import Eltn.Parser.Documents
import Eltn.Lexer.Tokens
import Eltn.Buffer.Source
import Eltn.Parser.Refines
import Eltn.Parser.Chunks
import Eltn.KeySet.Basic
import Eltn.KeySet.Table
import Eltn.KeySet.Values
import Eltn.KeySet.Refines
import Eltn.KeySet.Numbers
import Eltn.KeySet.Strings
import Eltn.Lib.Search
import Eltn.Lexer.Compare
import Eltn.Lexer.Names
import Eltn.Lexer.Brackets
import Eltn.Lexer.Literals
import Eltn.Lexer.Room
import Eltn.Lexer.Numbers
import Eltn.Lexer.Slices
import Eltn.Lexer.Comments
import Eltn.Lexer.Insertion
import Eltn.Lib.Unicode
import Eltn.Convert.Order
import Eltn.Convert.Flips
import Eltn.Convert.Text
import Eltn.Convert.RoundTrip
import Eltn.Pool.Basic
import Eltn.Pool.Construct
import Eltn.Lib.Runs
import Eltn.Buffer.Capacity
import Eltn.Lib.Streams
import Eltn.Buffer.Reader
import Eltn.KeySet.Failures
import Eltn.Lib.Nearest
import Eltn.Rounding
import Eltn.Lexer.Values
import Eltn.KeySet.Blocks
import Eltn.KeySet.Iterator
import Eltn.Strtol
import Eltn.Unescape.Values
import Eltn.Lexer.Suffixes
import Eltn.Lib.Blocks
import Eltn.Convert.Stores
import Eltn.Convert.Units
import Eltn.Convert.Room
import Eltn.Lib.Rfc2279
import Eltn.Convert.LongForms
import Eltn.Convert.Aligned
import Eltn.Unescape.Memory
import Eltn.Parser.Block
import Eltn.Parser.Integers
import Eltn.Lib.Signed
import Eltn.KeySet.Bounds
import Eltn.Lib.Program
import Eltn.Parser.Program
import Eltn.Lexer.Settled
import Eltn.Parser.Push
import Eltn.Lib.Heap
import Eltn.Pool.Memory
import Eltn.Parser.Memory
import Eltn.Parser.Ownership
import Eltn.Parser.Order
import Eltn.Document
import Eltn.Parser.Strings
import Eltn.Document.Tokens
import Eltn.Lexer.Layout
import Eltn.Document.Parses
import Eltn.Document.Texts
import Eltn.Document.Printed
import Eltn.Parser.Blocked
import Eltn.Parser.Completions
import Eltn.Document.Errors
import Eltn.Files
import Eltn.KeySet.Memory
import Eltn.KeySet.Ownership
