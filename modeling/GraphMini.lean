import GraphMini.Exec.Omp
import GraphMini.Exec.Reuse
import GraphMini.Codegen.Parents
import GraphMini.Codegen.Bounded
import GraphMini.Preprocess.Capacity
import GraphMini.Backend.MiniGraphStale
import GraphMini.Backend.Positions
import GraphMini.Backend.Accesses
import GraphMini.Backend.ContainerPool
import GraphMini.Codegen.OmpScope
import GraphMini.Codegen.CleanUp
import GraphMini.Codegen.SortedOps
import GraphMini.Codegen.SelfContained
import GraphMini.Exec.NestedTotal
import GraphMini.Codegen.Restrictions
import GraphMini.Backend.GetIndices
import GraphMini.Backend.IntersectLoops
import GraphMini.Codegen.AverageDegree
import GraphMini.Query.GeneratorSpec
import GraphMini.Exec.Assertions
import GraphMini.Exec.IepCounts
import GraphMini.Exec.Pruning
import GraphMini.Backend.SubtractLoops
import GraphMini.Backend.SearchLoops
import GraphMini.Exec.IepResult
import GraphMini.Backend.VertexSetPool
import GraphMini.Exec.PoolEval
import GraphMini.Exec.PoolFree
import GraphMini.Exec.PoolSafety
import GraphMini.GraphPi.Agreement
import GraphMini.GraphPi.Divisor
import GraphMini.GraphPi.Pipeline
import GraphMini.GraphPi.Workers
import GraphMini.GraphPi.FromPattern
