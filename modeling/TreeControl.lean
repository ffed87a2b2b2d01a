import TreeControl.Automaton.Text
import TreeControl.Automaton.Union
import TreeControl.Main
import TreeControl.Table.Text
import TreeControl.Proofs.Automaton.Run
import TreeControl.Proofs.Automaton.Subsets
import TreeControl.Proofs.Automaton.Built
import TreeControl.Proofs.Automaton.Prepared
import TreeControl.Proofs.Tree.Levels
import TreeControl.Proofs.Tree.Replay
import TreeControl.Proofs.Grammar.Built
import TreeControl.Proofs.Grammar.Derivation
import TreeControl.Proofs.Grammar.Prediction
import TreeControl.Proofs.Table.Items
import TreeControl.Proofs.Table.Filling
import TreeControl.Proofs.Parser.Soundness
import TreeControl.Proofs.Parser.Completeness
import TreeControl.Proofs.Parser.LevelFilter
import TreeControl.Proofs.Automaton.Language
import TreeControl.Proofs.Table.Conflicts
import TreeControl.Proofs.Parser.Reached
import TreeControl.Proofs.Parser.Guided
import TreeControl.Proofs.Grammar.Forms
import TreeControl.Proofs.Grammar.Exact
import TreeControl.Proofs.Table.Canonical
import TreeControl.Proofs.Parser.Refusal
import TreeControl.Proofs.Precedence
import TreeControl.Proofs.Grammar.Operators
import TreeControl.Proofs.Parser.Operators
import TreeControl.Proofs.Parser.Termination
import TreeControl.Proofs.Parser.Dependence
import TreeControl.Proofs.Automaton.Coherence
import TreeControl.Proofs.Automaton.Register.Representation
import TreeControl.Proofs.Loops
import TreeControl.Proofs.Table.Construction
import TreeControl.Proofs.Automaton.Stepping
import TreeControl.Proofs.Automaton.Idempotence
import TreeControl.Proofs.Tree.Positions
import TreeControl.Proofs.Tree.Arena
import TreeControl.Proofs.Tree.Traversal
import TreeControl.Proofs.Token.Words
import TreeControl.Proofs.Automaton.Union
import TreeControl.Proofs.Parser.Resolution
import TreeControl.Proofs.Table.Reports
import TreeControl.Proofs.Automaton.Closure
import TreeControl.Proofs.Parser.Idle
import TreeControl.Proofs.Precedence.Groups
import TreeControl.Proofs.Table.Labels
import TreeControl.Proofs.Token.Splitting
import TreeControl.Proofs.Demo.Balance
import TreeControl.Proofs.Grammar.Declarations
