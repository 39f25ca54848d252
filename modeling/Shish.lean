import Shish.Arith.Divide
import Shish.Arith.IntText
import Shish.Arith.Precedence
import Shish.Arith.RoundTrip
import Shish.Awk.Record
import Shish.Builtin.Expr
import Shish.Builtin.Printf
import Shish.Builtin.Read
import Shish.Builtin.TrapScope
import Shish.Builtin.Umask
import Shish.Dfa.Compiled
import Shish.Eval.If
import Shish.Eval.Suppress
import Shish.Hashmap
import Shish.History.Session
import Shish.Path.Canonicalize
import Shish.Path.Inside
import Shish.Path.Language
import Shish.Path.Relative
import Shish.Shell.Options
import Shish.Source.Lookahead
import Shish.Utf8.Utf16
import Shish.Var.Export
import Shish.Var.Local
import Shish.Var.Print
import Shish.Exec.Hash
import Shish.Expand.Quoting
import Shish.Fd.Stack
import Shish.Job.Recall
import Shish.Json
import Shish.Expand.Assign
import Shish.Expand.Brace
import Shish.Arith.Numeral
import Shish.Dfa.Replace
import Shish.Eval.Case
import Shish.Sed.List
import Shish.Filter.Tail
import Shish.Filter.Cut
import Shish.Filter.Tr
import Shish.Filter.Sort
import Shish.Xargs.Batch
import Shish.Sed.Newline
import Shish.Awk.Call
import Shish.Awk.Sub
import Shish.Term.Read
import Shish.Sed.Block
