import DryadSynth.Library.QFBV
import DryadSynth.Library.Machine
import DryadSynth.Parse.SExpr
import DryadSynth.Enumerate.Expr
import DryadSynth.Enumerate.Display
import DryadSynth.Enumerate.Vector
import DryadSynth.Parse.Problem
import DryadSynth.Enumerate.Config
import DryadSynth.Enumerate.Algo
import DryadSynth.Deductive.Reverse
import DryadSynth.Enumerate.Bank
import DryadSynth.Enumerate.Complete
import DryadSynth.Enumerate.Panic
import DryadSynth.Library.Masked
import DryadSynth.Parse.Pbe
import DryadSynth.Deductive.Combine
import DryadSynth.Parse.Constraint
import DryadSynth.Search.Solver
import DryadSynth.Search.CegisSound
import DryadSynth.Library.Blocks
import DryadSynth.TreeLearning.Bits
import DryadSynth.TreeLearning.Tree
import DryadSynth.Search.Solutions
import DryadSynth.Search.SearchSound
import DryadSynth.Dispatch.RunAlgorithm
import DryadSynth.Library.LIA.Eval
import DryadSynth.Library.LIA.Sort
import DryadSynth.Library.LIA.Subst
import DryadSynth.Library.Reach
import DryadSynth.Library.LIA.Quantified
import DryadSynth.Invariant.Region
import DryadSynth.Invariant.Transf
import DryadSynth.Library.LIA.Closed
import DryadSynth.Invariant.Problem
import DryadSynth.Invariant.Template
import DryadSynth.Reduce.Request
import DryadSynth.Reduce.Determined
import DryadSynth.Reduce.Extractor
import DryadSynth.Library.LIA.Classes
import DryadSynth.Invariant.InvDnC
import DryadSynth.Library.Boundary
import DryadSynth.SSI.Commutative
import DryadSynth.TreeLearning.Partition
import DryadSynth.Search.Collector
import DryadSynth.Search.Bookkeeping
import DryadSynth.Search.Ending
import DryadSynth.Invariant.NormalForm
import DryadSynth.Enumerate.Bounded
import DryadSynth.Enumerate.Algo2
import DryadSynth.General.DnC
import DryadSynth.Library.Widths
import DryadSynth.Enumerate.Width
import DryadSynth.Library.LIA.Every
import DryadSynth.Dispatch.Format
import DryadSynth.Dispatch.Printable
import DryadSynth.Dispatch.ConvertITE
import DryadSynth.Dispatch.PostFormatting
import DryadSynth.Library.Lists
import DryadSynth.Library.Worklist
import DryadSynth.General.Substitute
import DryadSynth.Reduce.Rewrite
import DryadSynth.SSI.PushInNots
import DryadSynth.SSI.Acceptance
import DryadSynth.Invariant.Overflow
import DryadSynth.Library.Merge
import DryadSynth.Reduce.VarsRelation
import DryadSynth.Library.Offers
import DryadSynth.General.UnitProductions
import DryadSynth.Library.DecisionTree
import DryadSynth.Cegis.Template
import DryadSynth.SSI.Sufficient
import DryadSynth.Library.Entries
import DryadSynth.Dispatch.Meaning
import DryadSynth.Dispatch.TimesTen
import DryadSynth.Library.Ones
import DryadSynth.Library.Iteration
import DryadSynth.Enumerate.Comb
import DryadSynth.Library.Adapters
import DryadSynth.Library.Submasks
import DryadSynth.Enumerate.Subsets
import DryadSynth.Enumerate.Traversal
import DryadSynth.Enumerate.Lanes
import DryadSynth.Parse.Text
import DryadSynth.Enumerate.RoundTrip
import DryadSynth.Library.Outcomes
import DryadSynth.Parse.Panics
import DryadSynth.Library.Least
import DryadSynth.Enumerate.Translation
import DryadSynth.Library.Substitution
import DryadSynth.BVEnum.BitVector
import DryadSynth.BVEnum.DefinedFunc
import DryadSynth.Library.Exits
import DryadSynth.BVEnum.Permutations
import DryadSynth.BVEnum.Heights
import DryadSynth.BVEnum.Complete
import DryadSynth.Chatgpt.Parsing
import DryadSynth.Chatgpt.Python
import DryadSynth.Chatgpt.Literals
import DryadSynth.Chatgpt.Translation
import DryadSynth.Library.Splitting
import DryadSynth.Library.Sampling
import DryadSynth.PBEEnum.EnumSize
import DryadSynth.PBEEnum.Values
import DryadSynth.PBEEnum.Covered
import DryadSynth.PBEEnum.Classes
import DryadSynth.PBEEnum.Run
import DryadSynth.PBEEnum.Solver
import DryadSynth.PBEEnum.Tree
import DryadSynth.PBEEnum.Selection
import DryadSynth.Library.LIA.Definitions
import DryadSynth.Cegis.Decompose
import DryadSynth.Cegis.Memo
import DryadSynth.Library.Divisions
import DryadSynth.General.Encoding
import DryadSynth.General.Derivations
import DryadSynth.General.Interpretation
import DryadSynth.General.Solutions
import DryadSynth.Parse.Script
import DryadSynth.Parse.Dropped
import DryadSynth.Library.Keeping
import DryadSynth.Parse.Language
import DryadSynth.Enumerate.Diversity
import DryadSynth.Enumerate.Built
import DryadSynth.Search.Filter
import DryadSynth.Search.Conformity
import DryadSynth.Invariant.Extraction
import DryadSynth.Invariant.Conditions
import DryadSynth.Invariant.Extracted
