import ArithCompiler.Main
import ArithCompiler.Target.Bare
import ArithCompiler.Proofs.Codegen.Stack
import ArithCompiler.Proofs.Codegen.Listing
import ArithCompiler.Proofs.Target.Machine
import ArithCompiler.Proofs.Target.Line
import ArithCompiler.Proofs.Target.X8664
import ArithCompiler.Proofs.Target.AArch64
import ArithCompiler.Proofs.Expr.Chain
import ArithCompiler.Proofs.Source.Cursor
import ArithCompiler.Proofs.Token.Lexeme
import ArithCompiler.Proofs.Expr.Language
import ArithCompiler.Proofs.Codegen.Runs
import ArithCompiler.Proofs.Codegen.Demand
import ArithCompiler.Proofs.Expr.OnePass
import ArithCompiler.Proofs.Expr.Verdict
import ArithCompiler.Proofs.Expr.FirstFailure
import ArithCompiler.Proofs.Source.Steps
import ArithCompiler.Proofs.Source.Place
import ArithCompiler.Proofs.Token.Lines
import ArithCompiler.Proofs.Token.Layout
import ArithCompiler.Proofs.Codegen.Slots
import ArithCompiler.Proofs.Codegen.Handles
import ArithCompiler.Proofs.Target.AnyOrder
import ArithCompiler.Proofs.Codegen.Ownership
import ArithCompiler.Proofs.Command.Delivered
import ArithCompiler.Proofs.Source.Columns
import ArithCompiler.Proofs.Token.Spans
import ArithCompiler.Proofs.Expr.Diagnosis
import ArithCompiler.Proofs.Expr.Limit
import ArithCompiler.Proofs.Expr.Batch
import ArithCompiler.Proofs.Expr.Calls
import ArithCompiler.Proofs.Expr.Exact
import ArithCompiler.Proofs.Codegen.Foreign
import ArithCompiler.Proofs.Expr.Readable
import ArithCompiler.Proofs.Target.Override
import ArithCompiler.Proofs.Token.Watched
