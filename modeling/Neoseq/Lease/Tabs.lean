import Neoseq.Lease.Election

/-! The leases of one graph. In every tab the consumers of a lease share one acquisition and
take turns with it; the tabs compete through the lock manager or through an election. Each
action is what one caller does until it waits. -/

namespace Neoseq.Lease

inductive Route where
  | webLocks | elected
  deriving DecidableEq

/-- The promise of a mode. -/
inductive Mode where
  | pending
  | resolved (mode : LeaseMode)
  | rejected
  deriving DecidableEq

structure TabLease where
  tab : Nat
  wait : Bool
  aborted : Bool
  consumers : Nat
  mode : Mode
  /-- `releaseLock` was called. -/
  released : Bool
  /-- The lock manager has granted the lock, and the promise it was given is pending. -/
  locked : Bool
  /-- The acquisition waits before it claims again. -/
  reclaims : Bool

inductive ConsumerStage where
  | awaitingMode
  | awaitingTurn
  | holding (mode : LeaseMode)
  | released
  | failed
  /-- A read-only acquisition was given up for another one. -/
  | retired
  deriving DecidableEq

structure Consumer where
  lease : Nat
  wait : Bool
  stage : ConsumerStage
  /-- `finishTurn` was called. -/
  finished : Bool
  deriving DecidableEq

/-- An attempt of an election, and whether its outcome has reached the acquisition. -/
structure Claimant where
  lease : Nat
  concluded : Bool
  deriving DecidableEq

structure Browser (K : Type) where
  leases : List TabLease
  /-- `tabLeases` of every tab. -/
  tabLeases : Nat → Option Nat
  /-- In the order in which they asked. -/
  consumers : List Consumer
  election : Election K
  /-- Whose attempts they are. -/
  claimants : List Claimant

inductive Action (K : Type) where
  /-- `claim` is what an attempt would draw. -/
  | acquireLease (tab : Nat) (wait aborted : Bool) (claim : K)
  /-- The mode of the shared acquisition has reached a consumer. -/
  | resume (consumer : Nat) (aborted : Bool) (claim : K)
  /-- The predecessors of a consumer have finished. -/
  | takeTurn (consumer : Nat)
  | release (consumer : Nat)
  | abort (lease : Nat)
  | grant (lease : Nat)
  /-- The lock manager has no lock to give to an acquisition that does not wait. -/
  | refuse (lease : Nat)
  | rejectAborted (lease : Nat)
  /-- The lock manager sees that the promise it was given has resolved. -/
  | unlock (lease : Nat)
  | deliver (mail : Nat)
  | timer (attempt : Nat)
  | close (attempt : Nat)
  | conclude (attempt : Nat)
  /-- A waiting acquisition goes on after the claim window. -/
  | reclaim (lease : Nat) (claim : K)

def Consumer.isActive (consumer : Consumer) : Bool :=
  match consumer.stage with
  | .awaitingMode | .awaitingTurn | .holding _ => true
  | .released | .failed | .retired => false

/-- The promises that `tail` has chained before the consumer have resolved. -/
def isTurn (consumers : List Consumer) (c : Nat) (consumer : Consumer) : Bool :=
  (consumers.take c).all fun other => decide (other.lease ≠ consumer.lease) || other.finished

namespace Browser

variable {K : Type}

def empty : Browser K := ⟨[], fun _ => none, [], .empty, []⟩

def putLease (b : Browser K) (l : Nat) (lease : TabLease) : Browser K :=
  { b with leases := b.leases.set l lease }

def putConsumer (b : Browser K) (c : Nat) (consumer : Consumer) : Browser K :=
  { b with consumers := b.consumers.set c consumer }

def electionAttempt (b : Browser K) (l : Nat) (claim : K) : Browser K :=
  { b with
    election := b.election.attempt claim
    claimants := b.claimants ++ [⟨l, false⟩] }

/-- Up to where the request or the first attempt is under way. -/
def createTabLease (route : Route) (b : Browser K) (tab : Nat) (wait aborted : Bool) (claim : K) :
    Browser K :=
  let mode := if route = .elected ∧ aborted then .rejected else .pending
  let created := { b with
    leases := b.leases ++ [⟨tab, wait, aborted, 0, mode, false, false, false⟩]
    tabLeases := Function.update b.tabLeases tab (some b.leases.length) }
  if route = .elected ∧ aborted = false then created.electionAttempt b.leases.length claim
  else created

/-- The consumer joins the acquisition of its tab. -/
def join (b : Browser K) (l : Nat) (lease : TabLease) (wait : Bool) : Browser K :=
  { b with
    leases := b.leases.set l { lease with consumers := lease.consumers + 1 }
    consumers := b.consumers ++ [⟨l, wait, .awaitingMode, false⟩] }

def joinTab (b : Browser K) (tab : Nat) (wait : Bool) : Browser K :=
  match b.tabLeases tab with
  | some l => match b.leases[l]? with
    | some lease => b.join l lease wait
    | none => b
  | none => b

def acquireLease (route : Route) (b : Browser K) (tab : Nat) (wait aborted : Bool) (claim : K) :
    Browser K :=
  match b.tabLeases tab with
  | some _ => b.joinTab tab wait
  | none => (b.createTabLease route tab wait aborted claim).joinTab tab wait

def releaseConsumer (b : Browser K) (l : Nat) (lease : TabLease) : Browser K :=
  if 0 < lease.consumers - 1 then b.putLease l { lease with consumers := lease.consumers - 1 }
  else { b.putLease l { lease with consumers := lease.consumers - 1, released := true } with
    tabLeases := if b.tabLeases lease.tab = some l then Function.update b.tabLeases lease.tab none
      else b.tabLeases }

/-- A consumer is done with its lease. -/
def leave (b : Browser K) (c : Nat) (consumer : Consumer) (stage : ConsumerStage)
    (lease : TabLease) : Browser K :=
  (b.putConsumer c { consumer with stage := stage, finished := true }).releaseConsumer
    consumer.lease lease

/-- The acquisition is no longer that of the tab. -/
def retire (b : Browser K) (l : Nat) (lease : TabLease) : Browser K :=
  { b with tabLeases := if b.tabLeases lease.tab = some l
      then Function.update b.tabLeases lease.tab none else b.tabLeases }

def resume (route : Route) (b : Browser K) (c : Nat) (consumer : Consumer) (lease : TabLease)
    (aborted : Bool) (claim : K) : Browser K :=
  match lease.mode with
  | .pending => b
  | .rejected => b.leave c consumer .failed lease
  | .resolved .exclusive => b.putConsumer c { consumer with stage := .awaitingTurn }
  | .resolved .readonly =>
    if consumer.wait then
      ((b.leave c consumer .retired lease).retire consumer.lease lease).acquireLease route
        lease.tab consumer.wait aborted claim
    else b.putConsumer c { consumer with stage := .holding .readonly, finished := true }

/-- Nobody has the lock. -/
def isFree (b : Browser K) : Bool := b.leases.all fun lease => !lease.locked

def conclude (b : Browser K) (i : Nat) (l : Nat) (lease : TabLease) (mode : LeaseMode) : Browser K :=
  let b := { b with claimants := b.claimants.set i ⟨l, true⟩ }
  if mode = .exclusive ∨ lease.wait = false then b.putLease l { lease with mode := .resolved mode }
  else b.putLease l { lease with reclaims := true }

def reclaim (b : Browser K) (l : Nat) (lease : TabLease) (claim : K) : Browser K :=
  if lease.aborted then b.putLease l { lease with mode := .rejected, reclaims := false }
  else (b.putLease l { lease with reclaims := false }).electionAttempt l claim

variable [LinearOrder K]

/-- An action whose turn it is not does nothing. -/
def step (route : Route) (b : Browser K) : Action K → Browser K
  | .acquireLease tab wait aborted claim => b.acquireLease route tab wait aborted claim
  | .resume c aborted claim => match b.consumers[c]? with
    | some consumer => match b.leases[consumer.lease]? with
      | some lease =>
        if consumer.stage = .awaitingMode then b.resume route c consumer lease aborted claim else b
      | none => b
    | none => b
  | .takeTurn c => match b.consumers[c]? with
    | some consumer =>
      if consumer.stage = .awaitingTurn ∧ isTurn b.consumers c consumer then
        b.putConsumer c { consumer with stage := .holding .exclusive }
      else b
    | none => b
  | .release c => match b.consumers[c]? with
    | some consumer => match consumer.stage, b.leases[consumer.lease]? with
      | .holding _, some lease => b.leave c consumer .released lease
      | _, _ => b
    | none => b
  | .abort l => match b.leases[l]? with
    | some lease => b.putLease l { lease with aborted := true }
    | none => b
  | .grant l => match b.leases[l]? with
    | some lease =>
      if route = .webLocks ∧ lease.mode = .pending ∧ b.isFree then
        b.putLease l { lease with mode := .resolved .exclusive, locked := true }
      else b
    | none => b
  | .refuse l => match b.leases[l]? with
    | some lease =>
      if route = .webLocks ∧ lease.mode = .pending ∧ lease.wait = false then
        b.putLease l { lease with mode := .resolved .readonly }
      else b
    | none => b
  | .rejectAborted l => match b.leases[l]? with
    | some lease =>
      if route = .webLocks ∧ lease.mode = .pending ∧ lease.wait ∧ lease.aborted then
        b.putLease l { lease with mode := .rejected }
      else b
    | none => b
  | .unlock l => match b.leases[l]? with
    | some lease => if lease.released then b.putLease l { lease with locked := false } else b
    | none => b
  | .deliver k => { b with election := b.election.deliver k }
  | .timer i => { b with election := b.election.timer i }
  | .close i => match b.claimants[i]?, b.election.attempts[i]? with
    | some claimant, some attempt => match b.leases[claimant.lease]? with
      | some lease =>
        if attempt.outcome = some .exclusive ∧ lease.released then
          { b with election := b.election.close i }
        else b
      | none => b
    | _, _ => b
  | .conclude i => match b.claimants[i]?, b.election.attempts[i]? with
    | some claimant, some attempt => match attempt.outcome, b.leases[claimant.lease]? with
      | some mode, some lease =>
        if route = .elected ∧ claimant.concluded = false ∧ lease.mode = .pending then
          b.conclude i claimant.lease lease mode
        else b
      | _, _ => b
    | _, _ => b
  | .reclaim l claim => match b.leases[l]? with
    | some lease =>
      if route = .elected ∧ lease.reclaims ∧ lease.mode = .pending then b.reclaim l lease claim
      else b
    | none => b

end Browser

/-- The runs of the tabs of a browser. -/
inductive Run {K : Type} [LinearOrder K] (route : Route) : Browser K → Prop
  | empty : Run route .empty
  | step {b : Browser K} (run : Run route b) (action : Action K) : Run route (b.step route action)

end Neoseq.Lease
