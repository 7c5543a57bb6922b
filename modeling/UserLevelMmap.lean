import UserLevelMmap.Library.Run
import UserLevelMmap.Library.Simulation
import UserLevelMmap.Library.Accounting
import UserLevelMmap.Library.Linked
import UserLevelMmap.Library.Ledger
import UserLevelMmap.MemoryPool.Basic
import UserLevelMmap.MemoryPool.Effect
import UserLevelMmap.MemoryPool.Ownership
import UserLevelMmap.MemoryPool.Construct
import UserLevelMmap.MemoryPool.Exclusive
import UserLevelMmap.MemoryPool.Window
import UserLevelMmap.MemoryPool.Counters
import UserLevelMmap.MemoryPool.Linearization
import UserLevelMmap.MemoryPool.Progress
import UserLevelMmap.MemoryPool.Drift
import UserLevelMmap.MemoryPool.Exhaustion
import UserLevelMmap.MemoryPool.Fallback
import UserLevelMmap.MemoryPool.Allocation
import UserLevelMmap.Library.ByteMemory
import UserLevelMmap.BufferManager.PageState
import UserLevelMmap.BufferManager.Lock
import UserLevelMmap.BufferManager.Workload
import UserLevelMmap.BufferManager.Fixable
import UserLevelMmap.BufferManager.DataFile
import UserLevelMmap.BufferManager.Contents
import UserLevelMmap.Library.Congruential
import UserLevelMmap.BufferManager.AccessPattern
import UserLevelMmap.Library.RadixTree
import UserLevelMmap.Library.Extents
import UserLevelMmap.Library.Rwsem
import UserLevelMmap.PageTable.Entry
import UserLevelMmap.PageTable.Walk
import UserLevelMmap.PageTable.Resolve
import UserLevelMmap.PageTable.Translation
import UserLevelMmap.PageTable.Walked
import UserLevelMmap.PageTable.Editor
import UserLevelMmap.PageTable.Update
import UserLevelMmap.PageTable.Dump
import UserLevelMmap.PageTable.MemoryTypes
import UserLevelMmap.Pteditor.Basic
import UserLevelMmap.Pteditor.Exclusion
import UserLevelMmap.Pteditor.Atomicity
import UserLevelMmap.FaultHandler.Basic
import UserLevelMmap.FaultHandler.Wake
import UserLevelMmap.FaultHandler.Environment
import UserLevelMmap.FaultHandler.Service
import UserLevelMmap.FaultHandler.Content
import UserLevelMmap.FaultHandler.Frames
import UserLevelMmap.FaultHandler.Stores
import UserLevelMmap.FaultHandler.Transparency
import UserLevelMmap.FaultHandler.Regions
import UserLevelMmap.FaultHandler.Registry
import UserLevelMmap.FaultHandler.Unmap
import UserLevelMmap.FaultHandler.Permissions
