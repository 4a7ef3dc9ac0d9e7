import Lox.Main
import Lox.Workbench
import Lox.Proofs.Calls.CutOff
import Lox.Proofs.Finishing.Finishes
import Lox.Proofs.Steps.Truncated
import Lox.Proofs.Lines.Blame
import Lox.Proofs.Swap.Swapping
import Lox.Proofs.Renaming.Running
import Lox.Proofs.Scope.Acceptance
import Lox.Proofs.Scope.Sites
import Lox.Proofs.Grammar.Indexed
import Lox.Proofs.Token.Respacing
import Lox.Proofs.Lines.Counting
import Lox.Proofs.Lines.Starting
import Lox.Proofs.Reach.Chains
import Lox.Proofs.Loops.Signals
import Lox.Proofs.Operators.Equality
import Lox.Proofs.Objects.Properties
import Lox.Proofs.Prompt.Transcript
import Lox.Proofs.Number.ReadBack
import Lox.Proofs.Tree.Unambiguous
import Lox.Proofs.Scope.Settled
