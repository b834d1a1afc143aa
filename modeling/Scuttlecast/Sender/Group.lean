import Scuttlecast.Proto.Payload
import Scuttlecast.Library.Table
import Mathlib.Data.Rat.Defs
import Mathlib.Algebra.Order.Ring.Rat

/-! The sender's view of its receivers: who takes part, how far each one says it is, and which
shards were asked for a moment ago. Losses are exact quotients. -/
namespace Scuttlecast

abbrev minLossSample : ℕ := 200

structure Participant where
  nextNeeded : ℕ
  reachedEnd : Bool
  lastSeen : Option ℕ
  lastReport : Option (ℕ × ℕ)
  windowedLoss : Option ℚ
  cumulativeLoss : ℚ
  naks : ℕ
  shardsRequested : ℕ
  requestedAtLastWindow : ℕ
  unrecoveredLoss : ℚ
  sinkStallMs : ℕ
  deriving DecidableEq

def Participant.new : Participant where
  nextNeeded := 0
  reachedEnd := false
  lastSeen := none
  lastReport := none
  windowedLoss := none
  cumulativeLoss := 0
  naks := 0
  shardsRequested := 0
  requestedAtLastWindow := 0
  unrecoveredLoss := 0
  sinkStallMs := 0

/-- The demand of the window that the report closes, if it closes one, and the participant
after the report. -/
def Participant.report (p : Participant) (stats : Stats) : Option ℚ × Participant :=
  let received := stats.totalReceived
  let expected := stats.totalExpected
  let p := { p with
    sinkStallMs := stats.sinkStallMs
    cumulativeLoss := if 0 < expected then 1 - received / expected else p.cumulativeLoss }
  match p.lastReport with
  | none =>
    (none, { p with lastReport := some (received, expected)
                    requestedAtLastWindow := p.shardsRequested })
  | some (seen, before) =>
    if expected ≤ before ∨ received < seen ∨ expected - before < minLossSample then (none, p)
    else
      let transmissions := expected - before
      let requested := p.shardsRequested - p.requestedAtLastWindow
      let unrecovered : ℚ := min (requested / transmissions) 1
      (some unrecovered, { p with
        lastReport := some (received, expected)
        requestedAtLastWindow := p.shardsRequested
        windowedLoss := some (1 - (received - seen : ℕ) / transmissions)
        unrecoveredLoss := unrecovered })

structure Group where
  participants : Table ℕ Participant
  neededFrom : ℕ
  emitted : ℕ
  totalSlices : Option ℕ
  suppressed : Table (ℕ × ℕ) ℕ

namespace Group

def empty : Group := ⟨∅, 0, 0, none, ∅⟩

/-- Whether the receiver is a new participant, and the group with it in its initial state. -/
def join (g : Group) (receiverId : ℕ) : Bool × Group :=
  (receiverId ∉ g.participants,
    { g with participants := g.participants.insert receiverId .new })

def leave (g : Group) (receiverId : ℕ) : Bool × Group :=
  (receiverId ∈ g.participants, { g with participants := g.participants.erase receiverId })

def contains (g : Group) (receiverId : ℕ) : Bool := receiverId ∈ g.participants

def len (g : Group) : ℕ := g.participants.values.length

def allComplete (g : Group) : Bool :=
  g.participants.values ≠ [] ∧ g.participants.values.all fun p => p.reachedEnd

def completeCount (g : Group) : ℕ := (g.participants.values.filter fun p => p.reachedEnd).length

def markAllSeen (g : Group) (now : ℕ) : Group :=
  { g with participants := g.participants.mapValues fun p => { p with lastSeen := some now } }

def markSeen (g : Group) (receiverId now : ℕ) : Group :=
  { g with participants :=
      g.participants.modify receiverId fun p => { p with lastSeen := some now } }

/-- Participants heard of longer than `timeout` ago, with where each of them was stuck. -/
def stale (g : Group) (now timeout : ℕ) : List (ℕ × ℕ) :=
  (g.participants.entries.filter fun e => e.2.lastSeen.any fun seen => timeout < now - seen).map
    fun e => (e.1, e.2.nextNeeded)

def reapSilent (g : Group) (now timeout : ℕ) : List (ℕ × ℕ) × Group :=
  (g.stale now timeout,
    { g with participants := g.participants.eraseAll ((g.stale now timeout).map Prod.fst) })

def repairDemand (g : Group) (stats : Stats) : Option ℚ × Group :=
  match g.participants.lookup stats.receiverId with
  | none => (none, g)
  | some p =>
    let (demand, p) := p.report stats
    (demand, { g with participants := g.participants.insert stats.receiverId p })

def worstLoss (g : Group) : Option ℚ := (g.participants.values.filterMap (·.windowedLoss)).max?

def onEof (g : Group) (totalSlices : ℕ) : Group :=
  { g with totalSlices := some totalSlices
           participants := g.participants.mapValues fun p => { p with reachedEnd := false } }

def slowest (g : Group) : ℕ :=
  ((g.participants.values.map (·.nextNeeded)).min?).getD g.neededFrom

def advance (g : Group) : Option ℕ × Group :=
  let neededFrom := g.slowest
  if neededFrom ≤ g.neededFrom then (none, g)
  else (some neededFrom, { g with
    neededFrom := neededFrom
    suppressed := g.suppressed.retain fun block => neededFrom ≤ block.1 })

def onStats (g : Group) (stats : Stats) : Option ℕ × Group :=
  let reachedEnd := g.totalSlices.any fun totalSlices => totalSlices ≤ stats.nextNeededSlice
  match g.participants.lookup stats.receiverId with
  | none => (none, g)
  | some p =>
    let p := { p with nextNeeded := stats.nextNeededSlice, reachedEnd := reachedEnd }
    advance { g with participants := g.participants.insert stats.receiverId p }

def nobodyNeeds (g : Group) (sliceNo : ℕ) : Bool := sliceNo < g.neededFrom

def suppress (g : Group) (block : ℕ × ℕ) (now : ℕ) : Bool × Group :=
  if (g.suppressed.lookup block).any fun sent => now - sent < holdoff then (false, g)
  else (true, { g with suppressed := g.suppressed.insert block now })

/-- The shards of the list that are not held off, in order. -/
def wanted (g : Group) (sliceNo now : ℕ) : List ℕ → List ℕ × Group
  | [] => ([], g)
  | shard :: missing =>
    let (take, g) := g.suppress (sliceNo, shard) now
    let (shards, g) := g.wanted sliceNo now missing
    (if take then shard :: shards else shards, g)

def onNak (g : Group) (nak : Nak) (now : ℕ) : List ℕ × Group :=
  if ¬ g.contains nak.receiverId ∨ g.nobodyNeeds nak.sliceNo then ([], g)
  else
    wanted { g with participants := g.participants.modify nak.receiverId fun p =>
        { p with naks := p.naks + 1
                 shardsRequested := p.shardsRequested + nak.missing.length } }
      nak.sliceNo now nak.missing

def onEmitted (g : Group) (slices : ℕ) : Group := { g with emitted := max g.emitted slices }

end Group
end Scuttlecast
