import MarketFeed.Stats.Window
import MarketFeed.Word

/-!
# Statistics

What a session and a book set count, and order statistics of the latest latencies.
-/

namespace MarketFeed

structure LatencyStats where
  min : UInt64
  max : UInt64
  mean : Float
  median : UInt64
  percentile99 : UInt64

/-- The statistics of a window, unless it is empty. -/
def Window.stats? (w : Window) : Option LatencyStats :=
  let sorted := w.toList.mergeSort
  let n := sorted.length
  if n = 0 then none
  else some {
    min := sorted.getD 0 0
    max := sorted.getD (n - 1) 0
    mean := (sorted.foldl (· + ·) 0).toFloat / n.toFloat
    median := sorted.getD (n / 2) 0
    percentile99 := sorted.getD (n * 99 / 100) 0 }

structure FeedStats where
  /-- Whether a message or bytes have been counted since the start. -/
  isStarted : Bool := false
  messages : UInt64 := 0
  bytes : UInt64 := 0
  garbled : UInt64 := 0
  partialReads : UInt64 := 0
  decodeLatencies : Window := .empty
  updateLatencies : Window := .empty
  /-- Missing sequence numbers, as many as the counter holds. -/
  gaps : UInt64 := 0
  gapEvents : UInt64 := 0
  joins : UInt64 := 0
  joinRetries : UInt64 := 0
  recoveries : UInt64 := 0
  replayed : UInt64 := 0
deriving Inhabited

namespace FeedStats

def empty : FeedStats := {}

variable (s : FeedStats)

def countMessage : FeedStats := { s with isStarted := true, messages := s.messages + 1 }

def countRead (bytes : UInt64) : FeedStats :=
  { s with isStarted := true, bytes := s.bytes + bytes }

def countGarbled : FeedStats := { s with garbled := s.garbled + 1 }

/-- Counts an attempt to decode that ran out of bytes. -/
def countPartial : FeedStats := { s with partialReads := s.partialReads + 1 }

def countDecodeLatency (nanoseconds : UInt64) : FeedStats :=
  { s with decodeLatencies := s.decodeLatencies.push nanoseconds }

def countUpdateLatency (nanoseconds : UInt64) : FeedStats :=
  { s with updateLatencies := s.updateLatencies.push nanoseconds }

/-- Counts a gap of so many sequence numbers. -/
def countGap (missing : UInt64) : FeedStats :=
  { s with gaps := saturatingAdd s.gaps missing, gapEvents := s.gapEvents + 1 }

def countJoin : FeedStats := { s with joins := s.joins + 1 }

def countJoinRetry : FeedStats := { s with joinRetries := s.joinRetries + 1 }

def countRecovery : FeedStats := { s with recoveries := s.recoveries + 1 }

def countReplayed (n : UInt64) : FeedStats := { s with replayed := s.replayed + n }

/-- A rate, which is zero until something has been counted. -/
def rate (count : UInt64) (seconds : Float) : Float :=
  if s.isStarted && 0 < seconds then count.toFloat / seconds else 0

end FeedStats

end MarketFeed
