import DistributedCloud.MapReduce.System
import DistributedCloud.MapReduce.Worker

/-!
# A job in a shared directory

The coordinator and its workers as in a job, where a worker that has been given a task executes it
action by action in the directory that all of them share.
-/

namespace DistributedCloud.MapReduce

/-- The `FileName` that a worker reads off its reply. -/
def TaskAssingnemnt.fileName (reply : TaskAssingnemnt) : String :=
  (reply.tas.map Task.fileName).getD ""

/-- The call that a worker makes for its reply. -/
def TaskAssingnemnt.execution (reply : TaskAssingnemnt) : Execution :=
  match reply.taskType with
  | .mapTask => .map reply.fileName reply.taskID reply.nReduce .reading
  | _ => .reduce reply.taskID .listing

/-- The coordinator, the workers and the directory. -/
structure Cluster where
  job : Job
  pool : Pool

/-- The events of a job, with the actions of a task in place of its execution at once. -/
inductive ClusterEvent where
  | check (worker : Nat)
  | assign (worker : Nat) (now : Nat → Int)
  /-- The next action of the task that the worker executes. -/
  | work (worker : Nat) (action : Action)
  | report (worker : Nat)
  | crash (worker : Nat)

/-- The file-system call of the event, if there is one, succeeds. -/
def ClusterEvent.Succeeds : ClusterEvent → Prop
  | work _ action => action.Succeeds
  | _ => True

instance : DecidablePred ClusterEvent.Succeeds
  | .check _ => isTrue trivial
  | .assign _ _ => isTrue trivial
  | .work _ action => inferInstanceAs (Decidable action.Succeeds)
  | .report _ => isTrue trivial
  | .crash _ => isTrue trivial

namespace Cluster

/-- A task that has returned is executed in the job; a crashed worker leaves its files behind. -/
def step (setting : Setting) (s : Cluster) : ClusterEvent → Option Cluster
  | .check worker => do
    let job ← s.job.step (.check worker)
    return { s with job := job }
  | .assign worker now => do
    let job ← s.job.step (.assign worker now)
    match job.workers worker with
    | .doing reply => return ⟨job, s.pool.set worker (some reply.execution)⟩
    | _ => return { s with job := job }
  | .work worker action => do
    let pool ← s.pool.work setting worker action
    match pool.running worker with
    | some _ => return { s with pool := pool }
    | none =>
      let job ← s.job.step (.execute worker)
      return ⟨job, pool⟩
  | .report worker => do
    let job ← s.job.step (.report worker)
    return { s with job := job }
  | .crash worker => do
    let job ← s.job.step (.crash worker)
    return ⟨job, s.pool.set worker none⟩

/-- The history of the job. -/
def record (s : Cluster) (e : ClusterEvent) (s' : Cluster) (h : History) : History :=
  match e with
  | .check worker => History.record s.job (.check worker) s'.job h
  | .assign worker now => History.record s.job (.assign worker now) s'.job h
  | .work worker _ =>
    match s'.pool.running worker with
    | some _ => h
    | none => History.record s.job (.execute worker) s'.job h
  | .report worker => History.record s.job (.report worker) s'.job h
  | .crash worker => History.record s.job (.crash worker) s'.job h

end Cluster

/-- The job on the given input files, in a directory with the given contents. -/
def cluster (setting : Setting) (files : List String) (nReduce : Nat) (directory : Directory) :
    Machine Cluster ClusterEvent where
  init := ⟨(job files nReduce).init, ⟨directory, fun _ => none⟩⟩
  step := Cluster.step setting

/-- The job with its history. -/
def recordedCluster (setting : Setting) (files : List String) (nReduce : Nat)
    (directory : Directory) : Machine (Cluster × History) ClusterEvent :=
  (cluster setting files nReduce directory).withHistory History.start Cluster.record

/-! ## Which files were put in place -/

/-- For each intermediate file, whether the last `Rename` onto it moved a file to which no `Encode` had
    failed; `none` as long as nothing has been renamed to it. -/
abbrev Placements : Type := Nat → Nat → Option Bool

/-- What an action adds to the placements. -/
def Execution.place (placements : Placements) : Execution → Action → Placements
  | map _ taskID _ (.placing _ broken i), .rename _ true =>
    Function.update placements taskID
      (Function.update (placements taskID) i (some (decide (i ∉ broken))))
  | _, _ => placements

/-- Keeps the placements. -/
def Cluster.notePlacement (s : Cluster) (e : ClusterEvent) (_ : Cluster) (placements : Placements) :
    Placements :=
  match e with
  | .work worker action =>
    match s.pool.running worker with
    | some execution => execution.place placements action
    | none => placements
  | _ => placements

/-- The job with its placements. -/
def placedCluster (setting : Setting) (files : List String) (nReduce : Nat)
    (directory : Directory) : Machine (Cluster × Placements) ClusterEvent :=
  (cluster setting files nReduce directory).withHistory (fun _ _ => none) Cluster.notePlacement

end DistributedCloud.MapReduce
