import LibShr.Lib.Prog
import LibShr.Lib.Seq
import LibShr.Lib.Words
import LibShr.Model.Layout
import LibShr.Model.Machine
import LibShr.Lib.Bits
import LibShr.Model.SharedInt
import LibShr.Model.SharedQ
import LibShr.Model.Api
import LibShr.Seq.Rules
import LibShr.Seq.Extents
import LibShr.Lib.Links
import LibShr.Seq.Heap
import LibShr.Seq.Moves
import LibShr.Seq.Lists
import LibShr.Seq.Bytes
import LibShr.Seq.Alloc
import LibShr.Seq.Create
import LibShr.Seq.Arena
import LibShr.Seq.Effects
import LibShr.Seq.Payload
import LibShr.Seq.Aside
import LibShr.Lib.Trace
import LibShr.Lib.Pool
import LibShr.Lib.Noted
import LibShr.Conc.Reclaim
import LibShr.Conc.Tokens
import LibShr.Spec.Queue
import LibShr.Refine.Sim
import LibShr.Refine.Steps
import LibShr.Refine.Events
import LibShr.Refine.Add
import LibShr.Refine.Gates
import LibShr.Refine.Remove
import LibShr.Refine.Clean
import LibShr.Refine.Calls
import LibShr.Spec.Change
import LibShr.Runs.History
import LibShr.Runs.View
import LibShr.Spec.Expire
import LibShr.Runs.Prods
import LibShr.Runs.Emptying
import LibShr.Spec.Flags
import LibShr.Runs.Subscriptions
import LibShr.Runs.Delivery
import LibShr.Runs.Advertised
import LibShr.Spec.Times
import LibShr.Runs.Ages
import LibShr.Seq.Writes
import LibShr.Runs.Codec
import LibShr.Runs.Classes
import LibShr.Runs.Cleaning
import LibShr.Conc.Processes
import LibShr.Conc.Registration
import LibShr.Conc.OneShot
import LibShr.Conc.Publication
import LibShr.Runs.Overdue
import LibShr.Runs.Service
import LibShr.Conc.Expansion
import LibShr.Seq.Growth
import LibShr.Lib.Layers
import LibShr.Model.Objects
import LibShr.Life.Behind
import LibShr.Life.Create
import LibShr.Cli.Depth
import LibShr.Life.Open
import LibShr.Cli.Lines
import LibShr.Runs.Mapped
import LibShr.Conc.Conservation
import LibShr.Conc.Chains
import LibShr.Conc.Tagged
import LibShr.Runs.Discards
import LibShr.Spec.Blocks
import LibShr.Runs.Storage
import LibShr.Spec.Moves
import LibShr.Runs.Ledger
import LibShr.Lib.Atomic
import LibShr.Model.Queries
import LibShr.Conc.Settings
import LibShr.Conc.Rest
import LibShr.Runs.Queries
import LibShr.Life.Marks
import LibShr.Model.Destroy
import LibShr.Life.Registry
import LibShr.Conc.Entries
import LibShr.Conc.Handing
import LibShr.Conc.LockFree
import LibShr.Conc.Outset
import LibShr.Runs.Residue
import LibShr.Cli.Printed
import LibShr.Conc.Outset
