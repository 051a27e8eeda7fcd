import BStackRaii.Logic.Run
import BStackRaii.Logic.Threads
import BStackRaii.Logic.Bytes
import BStackRaii.Logic.Ranges
import BStackRaii.Logic.Plan
import BStackRaii.Logic.SortedMap
import BStackRaii.Logic.Codec
import BStackRaii.Logic.Probing
import BStackRaii.Logic.ProbingReader
import BStackRaii.Logic.CountingFilter
import BStackRaii.Logic.Linearize
import BStackRaii.Logic.Chain
import BStackRaii.Logic.Heap
import BStackRaii.Logic.Cyclic
import BStackRaii.Logic.Lockstep
import BStackRaii.Logic.Cursor
import BStackRaii.Logic.Ledger
import BStackRaii.Logic.Worklist
import BStackRaii.Logic.Keeps
import BStackRaii.Logic.Rank
import BStackRaii.Logic.MaskedProbing
import BStackRaii.Model.World
import BStackRaii.Model.Gen
import BStackRaii.Model.Wal
import BStackRaii.Model.Refcount
import BStackRaii.Model.Rc
import BStackRaii.Model.Tree
import BStackRaii.Model.Table
import BStackRaii.Model.HashMap
import BStackRaii.Model.CheckedTable
import BStackRaii.Model.BloomFilter
import BStackRaii.Model.TableCalls
import BStackRaii.Model.HashSet
import BStackRaii.Model.Shared
import BStackRaii.Model.Schema
import BStackRaii.Model.Registry
import BStackRaii.Model.CloneLock
import BStackRaii.Model.FileRegistry
import BStackRaii.Model.Update
import BStackRaii.Model.LinkedList
import BStackRaii.Model.Heap
import BStackRaii.Model.Deque
import BStackRaii.Model.Vec
import BStackRaii.Model.Teardown
import BStackRaii.Model.WeakSlot
import BStackRaii.Model.Read
import BStackRaii.Model.SlotWalk
import BStackRaii.Model.RttiWalk
import BStackRaii.Model.Recursion
import BStackRaii.Proof.Wal.State
import BStackRaii.Proof.Wal.Recover
import BStackRaii.Proof.Wal.Stage
import BStackRaii.Proof.Wal.Clone
import BStackRaii.Proof.Wal.Commit
import BStackRaii.Proof.Wal.Takeover
import BStackRaii.Proof.Wal.Overwrite
import BStackRaii.Proof.Rc.Counters
import BStackRaii.Proof.Rc.Calls
import BStackRaii.Proof.Rc.Protocol
import BStackRaii.Proof.Rc.Upgrade
import BStackRaii.Proof.Effects
import BStackRaii.Proof.Tree.Shape
import BStackRaii.Proof.Tree.Insert
import BStackRaii.Proof.Tree.Delete
import BStackRaii.Proof.Tree.Disk
import BStackRaii.Proof.Tree.Commit
import BStackRaii.Proof.Tree.Lookup
import BStackRaii.Proof.Tree.Map
import BStackRaii.Proof.Tree.Iter
import BStackRaii.Proof.Table.Disk
import BStackRaii.Proof.Table.Probe
import BStackRaii.Proof.Table.Grow
import BStackRaii.Proof.Table.Stages
import BStackRaii.Proof.Table.Lookups
import BStackRaii.Proof.Table.Calls
import BStackRaii.Proof.Shared
import BStackRaii.Proof.Interleaving
import BStackRaii.Proof.HashMap
import BStackRaii.Proof.HashMap.Threads
import BStackRaii.Proof.BloomFilter
import BStackRaii.Proof.HashSet.Disk
import BStackRaii.Proof.HashSet.Threads
import BStackRaii.Proof.HashSet
import BStackRaii.Proof.Schema
import BStackRaii.Proof.Reencode
import BStackRaii.Proof.ClassValue
import BStackRaii.Proof.Registry
import BStackRaii.Proof.Agreement
import BStackRaii.Proof.Sync
import BStackRaii.Proof.ClassSlot
import BStackRaii.Proof.ClassUpdate
import BStackRaii.Proof.CloneLock
import BStackRaii.Proof.FileRegistry
import BStackRaii.Proof.SelfRepr
import BStackRaii.Proof.Update
import BStackRaii.Proof.List.Disk
import BStackRaii.Proof.List.Calls
import BStackRaii.Proof.Faults
import BStackRaii.Proof.LinkedList
import BStackRaii.Proof.List.Pop
import BStackRaii.Proof.List.Walk
import BStackRaii.Proof.List.Threads
import BStackRaii.Proof.Heap.Disk
import BStackRaii.Proof.Heap.Calls
import BStackRaii.Proof.Heap
import BStackRaii.Proof.Deque.Disk
import BStackRaii.Proof.Deque.Commit
import BStackRaii.Proof.Deque.Calls
import BStackRaii.Proof.Deque
import BStackRaii.Proof.Iterators
import BStackRaii.Proof.Vec
import BStackRaii.Proof.Wal.Batch
import BStackRaii.Proof.Wal.Sinks
import BStackRaii.Proof.Teardown.Structure
import BStackRaii.Proof.Teardown.Counters
import BStackRaii.Proof.Teardown.Walk
import BStackRaii.Proof.Teardown.Release
import BStackRaii.Proof.Teardown.Drop
import BStackRaii.Proof.Teardown.Chain
import BStackRaii.Proof.Teardown
import BStackRaii.Proof.Teardown.Roots
import BStackRaii.Proof.Read.Rules
import BStackRaii.Proof.Read.Turn
import BStackRaii.Proof.Read
import BStackRaii.Proof.WeakSlot.Objects
import BStackRaii.Proof.WeakSlot.Invariant
import BStackRaii.Proof.WeakSlot.Phases
import BStackRaii.Proof.WeakSlot.Swaps
import BStackRaii.Proof.WeakSlot.Protocol
import BStackRaii.Proof.WeakSlot.Schedules
import BStackRaii.Proof.WeakSlot.Code
import BStackRaii.Proof.WeakSlot
import BStackRaii.Proof.RttiWalk
import BStackRaii.Proof.SlotWalk
import BStackRaii.Proof.Recursion
import BStackRaii.Proof.Discriminant
import BStackRaii.Proof.VecGrowth
import BStackRaii.Proof.Growth
import BStackRaii.Proof.ForeignHandle
import BStackRaii.Proof.Table.Ends
import BStackRaii.Proof.Table.Checks
import BStackRaii.Proof.Table.Rounds
import BStackRaii.Proof.TableCalls
