import Scuttlecast.State
import Scuttlecast.Sender.Group
import Scuttlecast.Sender.Rate
import Mathlib.Data.List.MinMax
import Mathlib.Data.List.Sort

/-! What a tick of the send loop makes of its group and its controller: how much parity to ask for,
what holds the transfer back, and a row for every receiver. -/
namespace Scuttlecast

abbrev tickInterval : ℕ := 200 * 10 ^ 6

abbrev sourceWaitFloor : ℕ := tickInterval / 10 ^ 6 / 8 * 10 ^ 6

/-- In milliseconds. -/
abbrev sinkStallFloor : ℕ := statsInterval / 10 ^ 6 / 4

abbrev parityHeadroom : ℚ := 2

abbrev unusedAllowance : ℚ := 0.8

/-- The cast to `u8` saturates. -/
def parityFor (loss : Option ℚ) (blocksPerSlice maxParity : ℕ) : ℕ :=
  match loss with
  | none => maxParity
  | some loss =>
    let shards := loss * blocksPerSlice * parityHeadroom
    min (min ⌈shards⌉.toNat (2 ^ 8 - 1)) maxParity

inductive LimitingFactor where
  | unconstrained
  | atConfiguredMax
  | rateLimited (worst : ℕ) (demand : ℚ)
  | windowStalled (blockedBy slicesBehind : ℕ)
  | sourceStarved (readWaitMs : ℕ)
  | sinkStalled (receiver stallMs : ℕ)
  | senderBound (allowed achieved : ℚ)
  deriving DecidableEq

structure Bottleneck where
  slowest : Option (ℕ × ℕ)
  worstDemand : Option (ℕ × ℚ)
  demandThreshold : ℚ
  maxLiveSlices : ℕ
  atCeiling : Bool
  sourceWait : ℕ
  worstSinkStall : Option (ℕ × ℕ)
  sinkStallThreshold : ℕ
  allowedRate : ℚ
  achievedRate : ℚ
  creditUnused : Bool
  draining : Bool

namespace Bottleneck

def windowStalled (b : Bottleneck) : Option LimitingFactor :=
  (b.slowest.filter fun slowest => b.maxLiveSlices ≤ slowest.2).map fun slowest =>
    .windowStalled slowest.1 slowest.2

def rateLimited (b : Bottleneck) : Option LimitingFactor :=
  (b.worstDemand.filter fun worst => b.demandThreshold < worst.2).map fun worst =>
    .rateLimited worst.1 worst.2

def sourceStarved (b : Bottleneck) : Option LimitingFactor :=
  if ¬ b.draining ∧ b.sourceWait ≠ 0 then
    some (.sourceStarved (min (b.sourceWait / 10 ^ 6) (2 ^ 32 - 1)))
  else none

def sinkStalled (b : Bottleneck) : Option LimitingFactor :=
  (b.worstSinkStall.filter fun worst => b.sinkStallThreshold ≤ worst.2).map fun worst =>
    .sinkStalled worst.1 worst.2

def atConfiguredMax (b : Bottleneck) : Option LimitingFactor :=
  if b.atCeiling then some .atConfiguredMax else none

def senderBound (b : Bottleneck) : Option LimitingFactor :=
  if b.creditUnused ∧ b.achievedRate < b.allowedRate * unusedAllowance then
    some (.senderBound b.allowedRate b.achievedRate)
  else none

/-- Called `attribute` in the source: the first of them that applies. -/
def limiting (b : Bottleneck) : LimitingFactor :=
  (b.windowStalled <|> b.rateLimited <|> b.sourceStarved <|> b.sinkStalled <|> b.atConfiguredMax <|>
    b.senderBound).getD .unconstrained

end Bottleneck

/-- A receiver as the progress shows it. -/
structure ReceiverState where
  receiverId : ℕ
  windowedLoss : ℚ
  unrecoveredLoss : ℚ
  lifetimeLoss : ℚ
  nextNeededSlice : ℕ
  slicesBehind : ℕ
  naks : ℕ
  sinkStallMs : ℕ
  deriving DecidableEq

namespace Group

def slicesBehind (g : Group) (p : Participant) : ℕ := g.emitted - p.nextNeeded

def row (g : Group) (receiverId : ℕ) (p : Participant) : ReceiverState where
  receiverId := receiverId
  windowedLoss := p.windowedLoss.getD 0
  unrecoveredLoss := p.unrecoveredLoss
  lifetimeLoss := p.cumulativeLoss
  nextNeededSlice := p.nextNeeded
  slicesBehind := g.slicesBehind p
  naks := p.naks
  sinkStallMs := p.sinkStallMs

def rows (g : Group) : List ReceiverState :=
  (g.participants.entries.map fun e => g.row e.1 e.2).insertionSort fun a b =>
    a.slicesBehind ≤ b.slicesBehind

/-- The first of those that need the earliest slice. -/
def slowestParticipant (g : Group) : Option (ℕ × ℕ) :=
  (g.participants.entries.argmin fun e => e.2.nextNeeded).map fun e => (e.1, g.slicesBehind e.2)

/-- The last of those that stalled longest. -/
def worstSinkStall (g : Group) : Option (ℕ × ℕ) :=
  (g.participants.entries.reverse.argmax fun e => e.2.sinkStallMs).map fun e =>
    (e.1, e.2.sinkStallMs)

end Group

namespace RateController

def atCeiling (c : RateController) : Bool := c.ceiling.any fun ceiling => ceiling ≤ c.rate

/-- The last of those with the highest demand of late. -/
def worst (c : RateController) (now : ℕ) : Option (ℕ × ℚ) :=
  ((c.clients.entries.filter fun e => now - e.2.lastReportAt < stalenessLimit).reverse.argmax
    fun e => e.2.ewma).map fun e => (e.1, e.2.ewma)

end RateController

namespace TransferState

/-- The last of the rows furthest behind. -/
def slowest (receivers : List ReceiverState) : Option ReceiverState :=
  receivers.reverse.argmax fun receiver => receiver.slicesBehind

end TransferState

end Scuttlecast
