import Ifj24.Main
import Ifj24.Proofs.Initialisation
import Ifj24.Proofs.FunctionOrder
import Ifj24.Proofs.CacheTransparency
import Ifj24.Proofs.BuildTurns
import Ifj24.Proofs.Builtins
import Ifj24.Proofs.Comparisons
import Ifj24.Proofs.PassAgreement
import Ifj24.Proofs.Inference
import Ifj24.Proofs.StackDepth
import Ifj24.Proofs.ScopeBalance
import Ifj24.Proofs.Escapes
import Ifj24.Proofs.NumberTokens
import Ifj24.Proofs.StackShape
import Ifj24.Proofs.StrictMutability
