import CadoNfs.Ecm.BytecoderStream
import CadoNfs.Ecm.EcmStage2
import CadoNfs.Ecm.Facul
import CadoNfs.Ecm.Montgomery12
import CadoNfs.Ecm.Stage2Codes
import CadoNfs.Filter.Dup2
import CadoNfs.Filter.HistoryFile
import CadoNfs.Filter.Markowitz
import CadoNfs.Filter.MstMinimal
import CadoNfs.Filter.PurgePrune
import CadoNfs.Filter.ReadBuffers
import CadoNfs.Filter.Renumber
import CadoNfs.Filter.ReplaySlices
import CadoNfs.Filter.Sparse
import CadoNfs.Linalg.BalancedMatrix
import CadoNfs.Linalg.BalancingFlags
import CadoNfs.Linalg.Characters
import CadoNfs.Linalg.CommitF
import CadoNfs.Linalg.ComposeStrassen
import CadoNfs.Linalg.ElimTable
import CadoNfs.Linalg.EndpointLoop
import CadoNfs.Linalg.KernelFiles
import CadoNfs.Linalg.LingenInit
import CadoNfs.Linalg.MatmulSliced
import CadoNfs.Linalg.Rollbuf
import CadoNfs.Linalg.ThreadPipe
import CadoNfs.Linalg.Transpose
import CadoNfs.Linalg.WorkerThreads
import CadoNfs.Polyselect.Match
import CadoNfs.Sieve.BadPrimesRun
import CadoNfs.Sieve.BucketPurge
import CadoNfs.Sieve.FbLinear
import CadoNfs.Sieve.LeftoverNorm
import CadoNfs.Sieve.Makefb
import CadoNfs.Sieve.NormForm
import CadoNfs.Sieve.Redc32
import CadoNfs.Sieve.SurvivorFactors
import CadoNfs.Sieve.Unsieve
import CadoNfs.Sqrt.EvenColumns
import CadoNfs.Sqrt.ProductTrees
import CadoNfs.Utils.Barrier
import CadoNfs.Utils.ModIsprime
import CadoNfs.Utils.ModJacobi
import CadoNfs.Utils.ModredcGcd
import CadoNfs.Utils.PolyBase
import CadoNfs.Utils.PolyOps
import CadoNfs.Utils.Purgedfile
