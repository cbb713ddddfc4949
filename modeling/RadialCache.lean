import RadialCache.Basic
import RadialCache.LockFreeHeap.Step
import RadialCache.LockFreeHeap.Sequential
import RadialCache.LockFreeHeap.Clients
import RadialCache.LockFreeHeap.Safety
import RadialCache.LockFreeHeap.OneClient
import RadialCache.LockFreeMap
import RadialCache.LockFreeMap.Safety
import RadialCache.LockFreeMap.Published
import RadialCache.LockFreeMap.OneClient
import RadialCache.RadialCircularList.Sequential
import RadialCache.RadialCircularList.Inserts
import RadialCache.MemoryManager
import RadialCache.LockFreeQueue
import RadialCache.LockFreeQueue.Sequential
import RadialCache.RadialCircularList.Clients
import RadialCache.RadialCircularList.Claims
import RadialCache.RadialCircularList.Provenance
import RadialCache.BloomFilter
import RadialCache.CountingBloomFilter
import RadialCache.RadialCircularList.Slots
import RadialCache.RadialCircularList.Solo
import RadialCache.RadialCircularList.OneClient
