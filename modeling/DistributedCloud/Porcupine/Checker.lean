import DistributedCloud.Misc.LinkedList
import DistributedCloud.Porcupine.Bitset

/-!
# The linearizability checker

`porcupine/model.go` and the search of `porcupine/checker.go`. A history is a doubly linked list of
call and return entries, and the search takes the two entries of an operation out of the list and
puts them back. Nodes live at addresses: the node of an entry at its position in the history. A nil
pointer that is followed and an index out of range stop the program, which is `none` here.
-/

namespace DistributedCloud.Porcupine

variable {I O σ : Type}

/-! ## Histories and models -/

/-- `Operation`, with the times of its call and its return. -/
structure Operation (I O : Type) where
  clientId : Int
  input : I
  call : Int
  output : O
  ret : Int
  deriving DecidableEq, Repr

/-- The dynamic types behind `interface{}`: the input of a call or the output of a return. -/
abbrev Value (I O : Type) := I ⊕ O

/-- `EventKind`. -/
inductive EventKind where
  | callEvent
  | returnEvent
  deriving DecidableEq, Repr

/-- `Event`, a call or a return of the operation `id`. -/
structure Event (I O : Type) where
  clientId : Int
  kind : EventKind
  value : Value I O
  id : Int
  deriving DecidableEq, Repr

/-- A model as it is written down; a missing function is `none`. -/
structure Model (I O σ : Type) where
  partition : Option (List (Operation I O) → List (List (Operation I O)))
  partitionEvent : Option (List (Event I O) → List (List (Event I O)))
  init : σ
  step : σ → I → O → Bool × σ
  equal : Option (σ → σ → Bool)

/-- A model whose functions are all there. -/
structure FilledModel (I O σ : Type) where
  partition : List (Operation I O) → List (List (Operation I O))
  partitionEvent : List (Event I O) → List (List (Event I O))
  init : σ
  step : σ → I → O → Bool × σ
  equal : σ → σ → Bool

/-- `NoPartition`. -/
def noPartition (history : List (Operation I O)) : List (List (Operation I O)) := [history]

/-- `NoPartitionEvent`. -/
def noPartitionEvent (history : List (Event I O)) : List (List (Event I O)) := [history]

/-- `ShallowEqual`. -/
def shallowEqual [DecidableEq σ] (state1 state2 : σ) : Bool := state1 == state2

/-- `fillDefault`. -/
def fillDefault [DecidableEq σ] (model : Model I O σ) : FilledModel I O σ where
  partition := model.partition.getD noPartition
  partitionEvent := model.partitionEvent.getD noPartitionEvent
  init := model.init
  step := model.step
  equal := model.equal.getD shallowEqual

/-- `model.Step` on entries: it asserts the dynamic types of its arguments first. -/
def FilledModel.stepValues (model : FilledModel I O σ) (state : σ) :
    Value I O → Value I O → Option (Bool × σ)
  | .inl input, .inr output => some (model.step state input output)
  | _, _ => none

/-! ## Entries -/

/-- `entryKind`. -/
inductive EntryKind where
  | callEntry
  | returnEntry
  deriving DecidableEq, Repr

/-- `entry`, a call or a return at some time. -/
structure Entry (I O : Type) where
  kind : EntryKind
  value : Value I O
  id : Nat
  time : Int
  clientId : Int
  deriving DecidableEq, Repr

/-- `byTime.Less`: if the timestamps are the same, calls are ordered before returns. -/
def Entry.less (a b : Entry I O) : Bool :=
  if a.time ≠ b.time then decide (a.time < b.time)
  else decide (a.kind = .callEntry) && decide (b.kind = .returnEntry)

/-- `sort.Sort(byTime(..))` puts the entries in order, and is not stable: entries that are not less
    than each other stay in any order. -/
def SortsByTime (sort : List (Entry I O) → List (Entry I O)) : Prop :=
  ∀ entries, (sort entries).Perm entries ∧
    (sort entries).Pairwise fun a b => b.less a = false

/-- The loop of `makeEntries`, from an id on. -/
def appendEntries (id : Nat) : List (Operation I O) → List (Entry I O)
  | [] => []
  | elem :: history =>
    ⟨.callEntry, .inl elem.input, id, elem.call, elem.clientId⟩ ::
      ⟨.returnEntry, .inr elem.output, id, elem.ret, elem.clientId⟩ ::
      appendEntries (id + 1) history

/-- `makeEntries`: the calls and returns of a history, sorted by time. -/
def makeEntries (sort : List (Entry I O) → List (Entry I O)) (history : List (Operation I O)) :
    List (Entry I O) := sort (appendEntries 0 history)

/-- The loop of `renumber`: the ids given so far, and the next one. -/
def renumberFrom (m : Int → Option Nat) (id : Nat) :
    List (Event I O) → List (Nat × Event I O)
  | [] => []
  | v :: events =>
    match m v.id with
    | some r => (r, v) :: renumberFrom m id events
    | none => (id, v) :: renumberFrom (Function.update m v.id (some id)) (id + 1) events

/-- The events with their new ids. -/
def renumber (events : List (Event I O)) : List (Nat × Event I O) :=
  renumberFrom (fun _ => none) 0 events

/-- `convertEntries`: the positions of the events are their times. -/
def convertEntries (events : List (Nat × Event I O)) : List (Entry I O) :=
  events.mapIdx fun i elem =>
    { kind := if elem.2.kind = .returnEvent then .returnEntry else .callEntry
      value := elem.2.value
      id := elem.1
      time := i
      clientId := elem.2.clientId }

/-! ## Linked entries -/

/-- A node without its pointers in the list. -/
structure Node (I O : Type) where
  value : Value I O
  /-- The return of a call; a node without it is a return. -/
  matching : Option Nat
  id : Nat

/-- `insertBefore`: node `n` gets in front of another one, if there is one. -/
def insertBefore (links : Links Nat) (n : Nat) : Option Nat → Links Nat
  | none => links
  | some mark =>
    let beforeMark := links.prev mark
    let links := (links.setPrev mark (some n)).setNext n (some mark)
    match beforeMark with
    | none => links
    | some before => (links.setPrev n (some before)).setNext before (some n)

/-- The variables of `makeLinkedEntries`, with the nodes that exist. -/
structure Linking (I O : Type) where
  root : Option Nat
  matching : Nat → Option Nat
  node : Nat → Option (Node I O)
  links : Links Nat

/-- There are no nodes. -/
def Linking.empty : Linking I O where
  root := none
  matching := fun _ => none
  node := fun _ => none
  links := ⟨fun _ => none, fun _ => none⟩

/-- The body of the loop for entry `i`. -/
def Linking.insert (linking : Linking I O) (i : Nat) (elem : Entry I O) : Linking I O :=
  match elem.kind with
  | .returnEntry =>
    { root := some i
      matching := Function.update linking.matching elem.id (some i)
      node := Function.update linking.node i (some ⟨elem.value, none, elem.id⟩)
      links := insertBefore linking.links i linking.root }
  | .callEntry =>
    { linking with
      root := some i
      node := Function.update linking.node i
        (some ⟨elem.value, linking.matching elem.id, elem.id⟩)
      links := insertBefore linking.links i linking.root }

/-- The entries from position `i` on, the last one first. -/
def linkFrom (i : Nat) : List (Entry I O) → Linking I O
  | [] => Linking.empty
  | elem :: entries => (linkFrom (i + 1) entries).insert i elem

/-- `makeLinkedEntries`, which goes through the entries from the last to the first. -/
def makeLinkedEntries (entries : List (Entry I O)) : Linking I O := linkFrom 0 entries

/-- The loop of `length`. The fuel is the number of nodes that exist. -/
def length (links : Links Nat) : Nat → Option Nat → Nat
  | 0, _ => 0
  | _ + 1, none => 0
  | fuel + 1, some n => length links fuel (links.next n) + 1

/-- `a.prev.next = target`. -/
def setNextOfPrev (links : Links Nat) (a : Nat) (target : Option Nat) : Option (Links Nat) :=
  (links.prev a).map fun p => links.setNext p target

/-- `a.next.prev = target`. -/
def setPrevOfNext (links : Links Nat) (a : Nat) (target : Option Nat) : Option (Links Nat) :=
  (links.next a).map fun n => links.setPrev n target

/-- `if a.next != nil { a.next.prev = target }`. -/
def setPrevOfNextIfAny (links : Links Nat) (a : Nat) (target : Option Nat) : Links Nat :=
  match links.next a with
  | some n => links.setPrev n target
  | none => links

/-- `lift` takes a call and its return out of the list. The nodes keep their own pointers. -/
def lift (links : Links Nat) (entry : Nat) (matching : Option Nat) : Option (Links Nat) := do
  let links ← setNextOfPrev links entry (links.next entry)
  let links ← setPrevOfNext links entry (links.prev entry)
  let matching ← matching
  let links ← setNextOfPrev links matching (links.next matching)
  return setPrevOfNextIfAny links matching (links.prev matching)

/-- `unlift` puts them back, the return first. -/
def unlift (links : Links Nat) (entry : Nat) (matching : Option Nat) : Option (Links Nat) := do
  let matching ← matching
  let links ← setNextOfPrev links matching (some matching)
  let links := setPrevOfNextIfAny links matching (some matching)
  let links ← setNextOfPrev links entry (some entry)
  setPrevOfNext links entry (some entry)

/-! ## The search -/

/-- `cacheEntry`: the operations chosen and the state that they led to. -/
structure CacheEntry (σ : Type) where
  linearized : Bitset
  state : σ

/-- The map from hash to cache entries. -/
abbrev Cache (σ : Type) := UInt64 → List (CacheEntry σ)

/-- `cacheContains`. -/
def cacheContains (model : FilledModel I O σ) (cache : Cache σ) (entry : CacheEntry σ) : Bool :=
  (cache entry.linearized.hash).any fun elem =>
    entry.linearized.equals elem.linearized && model.equal entry.state elem.state

/-- `cache[hash] = append(cache[hash], entry)`. -/
def Cache.append (cache : Cache σ) (entry : CacheEntry σ) : Cache σ :=
  Function.update cache entry.linearized.hash (cache entry.linearized.hash ++ [entry])

/-- `callsEntry`: a call that was chosen, and the state before it. -/
structure CallsEntry (σ : Type) where
  entry : Nat
  state : σ

/-- The longest linearizable sequence of ids noted for each id. -/
abbrev Longest := List (Option (List Nat))

/-- What does not change during the search. -/
structure Setup (I O σ : Type) where
  model : FilledModel I O σ
  computePartial : Bool
  node : Nat → Option (Node I O)
  headEntry : Nat
  n : Nat

/-- The variables of the loop of `checkSingle`. -/
structure Loop (σ : Type) where
  entry : Option Nat
  links : Links Nat
  linearized : Bitset
  cache : Cache σ
  calls : List (CallsEntry σ)
  longest : Longest
  state : σ

namespace Setup

variable (setup : Setup I O σ)

/-- The ids of the calls made so far: `seq`. -/
def sequence (calls : List (CallsEntry σ)) : Option (List Nat) :=
  calls.mapM fun v => (setup.node v.entry).map Node.id

/-- The loop over `calls` that notes `seq` where nothing longer is noted. -/
def noteLongest (seq : List Nat) (longest : Longest) : List Nat → Option Longest
  | [] => some longest
  | id :: ids => do
    let known ← longest[id]?
    match known with
    | none => noteLongest seq (longest.set id (some seq)) ids
    | some order =>
      if seq.length > order.length then noteLongest seq (longest.set id (some seq)) ids
      else noteLongest seq longest ids

/-- `entry = entry.next`. -/
def advance (s : Loop σ) (entry : Nat) : Loop σ := { s with entry := s.links.next entry }

/-- The call entry at `address`, whose return is at `matching`. -/
def visitCall (s : Loop σ) (address : Nat) (entry : Node I O) (matching : Nat) :
    Option (Loop σ) := do
  let returned ← setup.node matching
  let (ok, newState) ← setup.model.stepValues s.state entry.value returned.value
  if ok then
    let newLinearized ← s.linearized.set entry.id
    let newCacheEntry := ⟨newLinearized, newState⟩
    if cacheContains setup.model s.cache newCacheEntry then
      return advance s address
    else
      let linearized ← s.linearized.set entry.id
      let links ← lift s.links address entry.matching
      return { s with
        entry := links.next setup.headEntry
        links
        linearized
        cache := s.cache.append newCacheEntry
        calls := s.calls ++ [⟨address, s.state⟩]
        state := newState }
  else
    return advance s address

/-- A return entry, with `callsTop` the last call made. -/
def undo (s : Loop σ) (callsTop : CallsEntry σ) : Option (Loop σ) := do
  let longest ← if setup.computePartial then do
      let seq ← setup.sequence s.calls
      noteLongest seq s.longest seq
    else some s.longest
  let entry ← setup.node callsTop.entry
  let linearized ← s.linearized.clear entry.id
  let links ← unlift s.links callsTop.entry entry.matching
  return { s with
    entry := links.next callsTop.entry
    links
    linearized
    calls := s.calls.dropLast
    longest
    state := callsTop.state }

/-- One turn of the loop: the test of the loop, the look at `kill`, and the body. A result is what
    `checkSingle` returns. -/
def turn (kill : Bool) (s : Loop σ) : Option (Loop σ ⊕ (Bool × Longest)) :=
  if s.links.next setup.headEntry = none then do
    let seq ← setup.sequence s.calls
    return .inr (true, List.replicate setup.n (some seq))
  else if kill then some (.inr (false, s.longest))
  else do
    let address ← s.entry
    let entry ← setup.node address
    match entry.matching with
    | some matching => (setup.visitCall s address entry matching).map .inl
    | none =>
      match s.calls.getLast? with
      | none => some (.inr (false, s.longest))
      | some callsTop => (setup.undo s callsTop).map .inl

/-- The loop; `kill i` is what turn `i` reads. -/
def loop (kill : Nat → Bool) : Nat → Nat → Loop σ → Option (Bool × Longest)
  | 0, _, _ => none
  | fuel + 1, i, s => do
    match ← setup.turn (kill i) s with
    | .inl s => loop kill fuel (i + 1) s
    | .inr result => some result

end Setup

/-- What `checkSingle` sets up in front of the loop: the head node is put before the first entry,
    at the address after the last one. -/
def setUp (model : FilledModel I O σ) (history : List (Entry I O)) (computePartial : Bool) :
    Setup I O σ × Loop σ :=
  let linking := makeLinkedEntries history
  let n := length linking.links history.length linking.root / 2
  ({ model
     computePartial
     node := linking.node
     headEntry := history.length
     n },
   { entry := linking.root
     links := insertBefore linking.links history.length linking.root
     linearized := Bitset.newBitset n
     cache := fun _ => []
     calls := []
     longest := List.replicate n none
     state := model.init })

/-- `none` if the program stops or the fuel is used up. -/
def checkSingle (model : FilledModel I O σ) (history : List (Entry I O)) (computePartial : Bool)
    (kill : Nat → Bool) (fuel : Nat) : Option (Bool × Longest) :=
  let (setup, s) := setUp model history computePartial
  setup.loop kill fuel 0 s

end DistributedCloud.Porcupine
