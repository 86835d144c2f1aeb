import Bispe.Backend.Activations
import Bispe.Backend.CallStack
import Bispe.Backend.CryptoMemory
import Bispe.Backend.Hash
import Bispe.Backend.Statics
import Bispe.Backend.Threads
import Bispe.Compiler.Accepted
import Bispe.Compiler.Arithmetic
import Bispe.Compiler.CallTargets
import Bispe.Compiler.Grammar
import Bispe.Compiler.Jumps
import Bispe.Compiler.Literals
import Bispe.Compiler.Main
import Bispe.Compiler.Spelling
import Bispe.Frontend.Password
