import R10000.Results.Queue
import R10000.Results.Parser
import R10000.Results.Printer
import R10000.Results.Selection
import R10000.Results.Safety
import R10000.Results.Commit
import R10000.Results.LifeCycle
import R10000.Results.Operands
import R10000.Results.Refinement
import R10000.Results.Allocation
import R10000.Results.Recovery
import R10000.Results.Undo
import R10000.Results.Termination
import R10000.Results.Trace
import R10000.Results.Placement
import R10000.Results.Timing
import R10000.Results.Arithmetic
import R10000.Results.Length
import R10000.Results.Forwarding
import R10000.Results.Dataflow
import R10000.Results.Causality
import R10000.Results.Main
import R10000.Results.Pace
