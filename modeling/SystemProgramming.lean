import SystemProgramming.Lib.Exec
import SystemProgramming.Lib.CInt
import SystemProgramming.Lib.Linked
import SystemProgramming.Lib.Tiling
import SystemProgramming.HeapMgr.Chunk
import SystemProgramming.HeapMgr.Blocks
import SystemProgramming.HeapMgr.ChunkSpec
import SystemProgramming.HeapMgr.Reshape
import SystemProgramming.HeapMgr.Layout
import SystemProgramming.HeapMgr.FreeLists
import SystemProgramming.HeapMgr.Common
import SystemProgramming.HeapMgr.Heapmgr2
import SystemProgramming.HeapMgr.Heapmgr2Spec
import SystemProgramming.HeapMgr.Heapmgr2Check
import SystemProgramming.HeapMgr.Heapmgr2Malloc
import SystemProgramming.HeapMgr.Heapmgr2Run
import SystemProgramming.HeapMgr.Heapmgr1
import SystemProgramming.HeapMgr.Heapmgr1Spec
import SystemProgramming.HeapMgr.Heapmgr1Malloc
import SystemProgramming.Rwlock.Lock
import SystemProgramming.Rwlock.Threads
import SystemProgramming.Rwlock.Exclusion
import SystemProgramming.Rwlock.Tickets
import SystemProgramming.Rwlock.Counts
import SystemProgramming.Rwlock.Fifo
import SystemProgramming.Rwlock.Turns
import SystemProgramming.Rwlock.Wakeups
import SystemProgramming.Rwlock.Admission
import SystemProgramming.Rwlock.Stranded
import SystemProgramming.Rwlock.Overflow
import SystemProgramming.Lib.Lines
import SystemProgramming.Server.Client
import SystemProgramming.Server.Buffer
import SystemProgramming.Server.Framing
import SystemProgramming.Dirtree.Match
import SystemProgramming.Lib.Prefixes
import SystemProgramming.Dirtree.Pattern
import SystemProgramming.Dirtree.Listing
import SystemProgramming.Dirtree.Tree
import SystemProgramming.Dirtree.ListingSpec
import SystemProgramming.Hashtable.Table
import SystemProgramming.Hashtable.Chains
import SystemProgramming.Hashtable.Steps
import SystemProgramming.Hashtable.Calls
import SystemProgramming.Hashtable.Refinement
import SystemProgramming.Rwlock.Holding
import SystemProgramming.Hashtable.Threads
import SystemProgramming.Hashtable.Exclusive
import SystemProgramming.Hashtable.Owners
import SystemProgramming.Hashtable.Atomic
import SystemProgramming.HeapMgr.Heapmgr1Check
import SystemProgramming.HeapMgr.Heapmgr1Free
import SystemProgramming.HeapMgr.InOrder
import SystemProgramming.HeapMgr.Heapmgr1Run
import SystemProgramming.HeapMgr.Heapmgr2Search
import SystemProgramming.HeapMgr.Heapmgr2Order
import SystemProgramming.HeapMgr.Heapmgr1Frame
import SystemProgramming.Server.Progress
import SystemProgramming.Rwlock.Destroy
import SystemProgramming.Rwlock.Misuse
import SystemProgramming.Dirtree.Validate
import SystemProgramming.Dirtree.Bounds
import SystemProgramming.Dirtree.Grouping
import SystemProgramming.HeapMgr.Heapmgr2Verdict
import SystemProgramming.HeapMgr.Heapmgr1InOrder
import SystemProgramming.HeapMgr.Heapmgr2Neutral
import SystemProgramming.HeapMgr.Heapmgr2Frame
import SystemProgramming.HeapMgr.Agreement
import SystemProgramming.HeapMgr.Sizes
import SystemProgramming.HeapMgr.CommonSpec
import SystemProgramming.Decomment.Machine
import SystemProgramming.Decomment.Lexer
import SystemProgramming.Decomment.Tracking
import SystemProgramming.Decomment.Comments
import SystemProgramming.Decomment.Output
import SystemProgramming.Dirtree.Faults
import SystemProgramming.Hashtable.Destroy
import SystemProgramming.HeapMgr.Navigation
import SystemProgramming.Lib.Ownership
import SystemProgramming.Lib.Budget
import SystemProgramming.Server.Workers
import SystemProgramming.Server.Lifetime
import SystemProgramming.Server.Interleaved
import SystemProgramming.Server.Shutdown
import SystemProgramming.Server.Solo
import SystemProgramming.Lib.Strtol
import SystemProgramming.Dirtree.Arguments
import SystemProgramming.Dirtree.Tally
import SystemProgramming.Dirtree.Main
import SystemProgramming.Dirtree.ReadOrder
import SystemProgramming.Lib.Printf
import SystemProgramming.Dirtree.Columns
import SystemProgramming.Hashtable.Leaks
import SystemProgramming.Hashtable.Dump
import SystemProgramming.Lib.Ledger
import SystemProgramming.Hashtable.Resources
import SystemProgramming.Decomment.Pieces
import SystemProgramming.Lib.Singly
import SystemProgramming.HeapMgr.Base
import SystemProgramming.HeapMgr.BaseBlocks
import SystemProgramming.HeapMgr.BaseSpec
import SystemProgramming.HeapMgr.BaseMalloc
import SystemProgramming.HeapMgr.BaseArena
import SystemProgramming.HeapMgr.BaseRun
import SystemProgramming.Lib.Loops
import SystemProgramming.HeapMgr.TestDriver
import SystemProgramming.HeapMgr.TestDriverSpec
import SystemProgramming.HeapMgr.TestDriverRuns
import SystemProgramming.HeapMgr.TestDriverMain
import SystemProgramming.HeapMgr.KrRun
