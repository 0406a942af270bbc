import ExactCover.Main
import ExactCover.Sudoku.Board.Rows
import ExactCover.Proofs.Matrix.Link
import ExactCover.Proofs.Matrix.Walk
import ExactCover.Proofs.Matrix.Splice
import ExactCover.Proofs.Matrix.Table
import ExactCover.Proofs.Matrix.Shows
import ExactCover.Proofs.Matrix.Cover
import ExactCover.Proofs.Matrix.AddRow
import ExactCover.Proofs.Matrix.Ring
import ExactCover.Proofs.Matrix.Check
import ExactCover.Proofs.Matrix.Nesting
import ExactCover.Proofs.Matrix.Climb
import ExactCover.Proofs.Matrix.Mirror
import ExactCover.Proofs.Matrix.Operations
import ExactCover.Proofs.Matrix.NewRow
import ExactCover.Proofs.Matrix.Pairing
import ExactCover.Proofs.Matrix.Order
import ExactCover.Proofs.Selection
import ExactCover.Proofs.AlgorithmX.Basic
import ExactCover.Proofs.AlgorithmX.Covers
import ExactCover.Proofs.AlgorithmX.Outcome
import ExactCover.Proofs.Search.Agreement
import ExactCover.Proofs.Search.Refinement
import ExactCover.Proofs.Search.Enumeration
import ExactCover.Proofs.Search.Requests
import ExactCover.Proofs.Search.Descent
import ExactCover.Proofs.Sudoku.House
import ExactCover.Proofs.Sudoku.Rows
import ExactCover.Proofs.Sudoku.Checks
import ExactCover.Proofs.Sudoku.Reduction
import ExactCover.Proofs.Sudoku.CoverSolver
import ExactCover.Proofs.Sudoku.Counting
import ExactCover.Proofs.Sudoku.Text
import ExactCover.Proofs.Sudoku.Grid
import ExactCover.Proofs.NodeLimit
import ExactCover.Proofs.Search.Calls
import ExactCover.Proofs.Search.NodeLimit
import ExactCover.Proofs.Sudoku.NodeLimit
import ExactCover.Proofs.Sudoku.Backtracking
import ExactCover.Proofs.Sudoku.Restoring
import ExactCover.Proofs.AlgorithmX.Tally
import ExactCover.Proofs.Search.Sequence
import ExactCover.Proofs.Search.Guarded
import ExactCover.Proofs.Search.Safety
import ExactCover.Proofs.Sudoku.Printing
import ExactCover.Proofs.Yields
import ExactCover.Proofs.Search.Accounts
import ExactCover.Proofs.AlgorithmX.Depth
import ExactCover.Proofs.Sudoku.Accounts
import ExactCover.Proofs.Sudoku.Solver
import ExactCover.Proofs.CommandLine.Report
import ExactCover.Proofs.CommandLine.Tree
import ExactCover.Proofs.CommandLine.Directory
