import DistributedCloud.RaftLab.Network

/-!
# The apply loop of one incarnation

`applyCommittedLogs` by itself, from `Make` on, among handlers that may do anything to the log and
to `committedIndex`. It is the only goroutine that writes `lastApplied` or sends on `applyCh`. The
steps are those of `World.applyTake`, `World.applySend` and `World.applyDone`; `Kill` and a slice
expression out of range end the run.
-/

namespace DistributedCloud.RaftLab

variable {Command : Type}

/-- What the loop reads and writes. `held` is a history of the values of `committedIndex`. -/
structure Applier (Command : Type) where
  log : List (LogEntries Command)
  committedIndex : Int
  lastApplied : Int
  applyLoop : ApplyLoop Command
  sent : List (ApplyMsg Command)
  held : List Int

/-- One critical section of a handler or of the loop, or one send. `beyond` is what the log's
    backing array holds past the log's length. -/
inductive ApplierEvent (Command : Type) where
  | handle (log : List (LogEntries Command)) (committedIndex : Int)
  | take (beyond : List (LogEntries Command))
  | send
  | done

/-- The loop wakes up behind the commit index and takes the entries up to it out of the log. -/
def Applier.take (s : Applier Command) (beyond : List (LogEntries Command)) :
    Option (Applier Command) :=
  match s.applyLoop with
  | .sending _ _ _ => none
  | .waiting =>
    if s.lastApplied ≥ s.committedIndex then none
    else do
      let applyStart := s.lastApplied + 1
      let applyEnd := s.committedIndex
      let upTo ← goSliceTo (s.log ++ beyond) (applyEnd + 1)
      let entries ← goSliceFrom upTo applyStart
      return { s with applyLoop := .sending applyEnd applyStart entries }

/-- The next of these entries is sent. -/
def Applier.send (s : Applier Command) : Option (Applier Command) :=
  match s.applyLoop with
  | .sending applyEnd next (entry :: rest) =>
    some { s with
      applyLoop := .sending applyEnd (next + 1) rest
      sent := s.sent ++ [⟨true, entry.command, next⟩] }
  | _ => none

/-- All of them have been sent. -/
def Applier.done (s : Applier Command) : Option (Applier Command) :=
  match s.applyLoop with
  | .sending applyEnd _ [] =>
    some { s with
      lastApplied := if applyEnd > s.lastApplied then applyEnd else s.lastApplied
      applyLoop := .waiting }
  | _ => none

/-- A handler's critical section, which may leave anything in the log and in `committedIndex`. -/
def Applier.handle (s : Applier Command) (log : List (LogEntries Command)) (committedIndex : Int) :
    Applier Command :=
  { s with log := log, committedIndex := committedIndex, held := s.held ++ [committedIndex] }

/-- One event. -/
def Applier.step (s : Applier Command) : ApplierEvent Command → Option (Applier Command)
  | .handle log committedIndex => some (s.handle log committedIndex)
  | .take beyond => s.take beyond
  | .send => s.send
  | .done => s.done

/-- The loop of an instance that `Make` has started with the persisted log `log`. -/
def applier (log : List (LogEntries Command)) : Machine (Applier Command) (ApplierEvent Command) where
  init := ⟨log, 0, 0, .waiting, [], [0]⟩
  step := Applier.step

end DistributedCloud.RaftLab
