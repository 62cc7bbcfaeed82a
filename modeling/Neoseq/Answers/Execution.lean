import Neoseq.Collections.InsertionMap
import Neoseq.Collections.Keyed

/-! Query answers and the questions that are on their way. An owner asks one question at a time;
what an earlier one brings later is dropped, and entries nobody looks at go when there are too
many. -/

namespace Neoseq.Answers

open Collections (InsertionMap Keyed)

def maxCachedQueries : Nat := 64

structure QueryResult (Rows : Type) where
  revision : Nat
  frontier : String
  rows : Rows
  deriving DecidableEq

/-- One executed question and the answer published from that execution. -/
structure QueryFrame (Request Rows : Type) where
  request : Request
  result : QueryResult Rows
  canonicalRevision : Nat
  deriving DecidableEq

structure TaggedResult (Request Rows : Type) where
  signature : String
  frame : QueryFrame Request Rows
  deriving DecidableEq

structure TaggedError (Cause : Type) where
  signature : String
  canonicalRevision : Nat
  cause : Cause
  deriving DecidableEq

/-- The token stands for the promise and for what aborts the query too. -/
structure PendingExecution where
  signature : String
  canonicalRevision : Nat
  token : Nat
  deriving DecidableEq

structure QueryExecutionEntry (Request Rows Cause : Type) where
  result : Option (TaggedResult Request Rows)
  error : Option (TaggedError Cause)
  pending : Option PendingExecution
  deriving DecidableEq

structure QueryExecutionSnapshot (Request Rows Cause : Type) where
  frame : Option (QueryFrame Request Rows)
  error : Option Cause
  loading : Bool
  deriving DecidableEq

structure QueryExecutionStore (Request Rows Cause Listener : Type) [DecidableEq Listener] where
  entries : InsertionMap String (QueryExecutionEntry Request Rows Cause)
  listeners : Keyed String (Finset Listener)
  versions : String → Nat
  sequence : Nat

/-- What a call leaves, and the listeners it called. -/
structure Called (Request Rows Cause Listener : Type) [DecidableEq Listener] where
  store : QueryExecutionStore Request Rows Cause Listener
  listeners : Finset Listener

/-- The promise that `run` returns: of a query, or one that is resolved. -/
inductive Promised where
  | query (token : Nat)
  | resolved
  deriving DecidableEq

/-- How a query settles. -/
inductive Outcome (Request Rows Cause : Type) where
  | answer (frame : QueryFrame Request Rows)
  | failure (cause : Cause)
  deriving DecidableEq

variable {Request Rows Cause Listener : Type} [DecidableEq Listener]

def TaggedError.matches (tagged : TaggedError Cause) (signature : String) (revision : Nat) : Bool :=
  tagged.signature = signature && tagged.canonicalRevision = revision

def PendingExecution.matches (tagged : PendingExecution) (signature : String)
    (revision : Nat) : Bool :=
  tagged.signature = signature && tagged.canonicalRevision = revision

/-- An answer's rows and descriptors, without the revision that produced them. -/
def answerValue (stringify : QueryResult Rows → String) (result : QueryResult Rows) : String :=
  stringify { result with revision := 0, frontier := "" }

namespace QueryExecutionStore

/-! ## The store -/

def empty : QueryExecutionStore Request Rows Cause Listener :=
  ⟨InsertionMap.empty, Keyed.empty, fun _ => 0, 0⟩

def version (s : QueryExecutionStore Request Rows Cause Listener) (owner : String) : Nat :=
  s.versions owner

def entryOf (s : QueryExecutionStore Request Rows Cause Listener) (owner : String) :
    Option (QueryExecutionEntry Request Rows Cause) :=
  s.entries.get? owner

def subscribers (s : QueryExecutionStore Request Rows Cause Listener) (owner : String) :
    Finset Listener :=
  s.listeners.under owner

def setEntry (s : QueryExecutionStore Request Rows Cause Listener) (owner : String)
    (entry : QueryExecutionEntry Request Rows Cause) :
    QueryExecutionStore Request Rows Cause Listener :=
  { s with entries := s.entries.set owner entry }

def touch (s : QueryExecutionStore Request Rows Cause Listener) (owner : String) :
    QueryExecutionStore Request Rows Cause Listener :=
  match s.entryOf owner with
  | none => s
  | some entry => { s with entries := (s.entries.delete owner).set owner entry }

def bump (s : QueryExecutionStore Request Rows Cause Listener) (owner : String) :
    Called Request Rows Cause Listener where
  store :=
    { s with
      versions := fun o => if o = owner then s.sequence + 1 else s.versions o
      sequence := s.sequence + 1 }
  listeners := s.subscribers owner

/-- The least recent entry that nobody waits for or looks at. -/
def disposable (s : QueryExecutionStore Request Rows Cause Listener) : Option String :=
  (s.entries.pairs.find? fun p => p.2.pending.isNone && decide (s.subscribers p.1 = ∅)).map
    Prod.fst

def evict (s : QueryExecutionStore Request Rows Cause Listener) (owner : String) :
    QueryExecutionStore Request Rows Cause Listener :=
  { s with
    entries := s.entries.delete owner
    versions := fun o => if o = owner then 0 else s.versions o }

/-- Each round takes an entry away, so that there are at most as many as there are entries. -/
def trimRounds : (rounds : Nat) → QueryExecutionStore Request Rows Cause Listener →
    QueryExecutionStore Request Rows Cause Listener
  | 0, s => s
  | rounds + 1, s =>
    if s.entries.size ≤ maxCachedQueries then s
    else
      match s.disposable with
      | none => s
      | some owner => trimRounds rounds (s.evict owner)

def trim (s : QueryExecutionStore Request Rows Cause Listener) :
    QueryExecutionStore Request Rows Cause Listener :=
  trimRounds s.entries.size s

def subscribe (s : QueryExecutionStore Request Rows Cause Listener) (owner : String)
    (listener : Listener) : QueryExecutionStore Request Rows Cause Listener :=
  { s with listeners := s.listeners.insert owner listener }.touch owner

def unsubscribe (s : QueryExecutionStore Request Rows Cause Listener) (owner : String)
    (listener : Listener) : QueryExecutionStore Request Rows Cause Listener :=
  { s with listeners := s.listeners.remove owner listener }.trim

def snapshot (s : QueryExecutionStore Request Rows Cause Listener) (owner signature : String)
    (revision : Nat) : QueryExecutionSnapshot Request Rows Cause :=
  match s.entryOf owner with
  | none => ⟨none, none, false⟩
  | some entry =>
    { frame := entry.result.map TaggedResult.frame
      error := (entry.error.filter fun e => e.matches signature revision).map TaggedError.cause
      loading := entry.pending.any fun p => p.matches signature revision }

def clear (s : QueryExecutionStore Request Rows Cause Listener) (owner : String) :
    Called Request Rows Cause Listener :=
  match s.entryOf owner with
  | none => ⟨s, ∅⟩
  | some _ => { s with entries := s.entries.delete owner }.bump owner

/-- The entry answers the question as it stands. -/
def Cached (entry : QueryExecutionEntry Request Rows Cause) (signature : String)
    (revision : Nat) : Bool :=
  entry.result.any (fun r =>
      r.signature = signature && r.frame.canonicalRevision = revision) &&
    !entry.error.any fun e => e.matches signature revision

/-- `token` is the one the query gets where the session has to be asked. -/
def run (s : QueryExecutionStore Request Rows Cause Listener) (owner signature : String)
    (revision token : Nat) (force : Bool) : Called Request Rows Cause Listener × Promised :=
  let entry := (s.entryOf owner).getD ⟨none, none, none⟩
  match entry.pending.filter fun p => p.matches signature revision with
  | some pending => (⟨s, ∅⟩, .query pending.token)
  | none =>
    if !force && Cached entry signature revision then
      match entry.pending with
      | some _ =>
        let called := (s.setEntry owner { entry with pending := none }).bump owner
        (⟨called.store.touch owner, called.listeners⟩, .resolved)
      | none => (⟨s.touch owner, ∅⟩, .resolved)
    else
      let asked := s.setEntry owner
        { entry with error := none, pending := some ⟨signature, revision, token⟩ }
      ((asked.touch owner).bump owner, .query token)

/-- The entry once the query it waited for has settled. A repeated answer keeps its value. -/
def settleEntry (stringify : QueryResult Rows → String)
    (current : QueryExecutionEntry Request Rows Cause) (signature : String) (revision : Nat) :
    Outcome Request Rows Cause → QueryExecutionEntry Request Rows Cause
  | .answer frame =>
    let kept := (current.result.filter fun previous =>
      previous.signature = signature &&
        answerValue stringify previous.frame.result = answerValue stringify frame.result).elim
      frame.result fun previous => previous.frame.result
    ⟨some ⟨signature, { frame with result := kept }⟩, none, none⟩
  | .failure cause => ⟨current.result, some ⟨signature, revision, cause⟩, none⟩

def settle (stringify : QueryResult Rows → String)
    (s : QueryExecutionStore Request Rows Cause Listener) (owner signature : String)
    (revision token : Nat) (outcome : Outcome Request Rows Cause) :
    Called Request Rows Cause Listener :=
  match (s.entryOf owner).filter fun e => e.pending.any fun p => p.token = token with
  | none => ⟨s, ∅⟩
  | some current =>
    let settled := s.setEntry owner (settleEntry stringify current signature revision outcome)
    let called := (settled.touch owner).bump owner
    ⟨called.store.trim, called.listeners⟩

/-! ## What the entries are afterwards -/

section Entries

variable (s : QueryExecutionStore Request Rows Cause Listener) (owner : String)

@[simp] theorem entryOf_setEntry (entry : QueryExecutionEntry Request Rows Cause) (o : String) :
    (s.setEntry owner entry).entryOf o = if o = owner then some entry else s.entryOf o :=
  s.entries.get?_set owner o entry

@[simp] theorem subscribers_setEntry (entry : QueryExecutionEntry Request Rows Cause)
    (o : String) : (s.setEntry owner entry).subscribers o = s.subscribers o := rfl

@[simp] theorem entryOf_touch (o : String) : (s.touch owner).entryOf o = s.entryOf o := by
  unfold touch
  cases hentry : s.entryOf owner with
  | none => rfl
  | some entry =>
    change ((s.entries.delete owner).set owner entry).get? o = s.entryOf o
    rw [InsertionMap.get?_set]
    split
    · next h => rw [h, hentry]
    · next h => exact s.entries.get?_delete_of_ne h

@[simp] theorem subscribers_touch (o : String) :
    (s.touch owner).subscribers o = s.subscribers o := by
  unfold touch
  split <;> rfl

@[simp] theorem entryOf_bump (o : String) : (s.bump owner).store.entryOf o = s.entryOf o := rfl

@[simp] theorem subscribers_bump (o : String) :
    (s.bump owner).store.subscribers o = s.subscribers o := rfl

@[simp] theorem listeners_bump : (s.bump owner).listeners = s.subscribers owner := rfl

@[simp] theorem entryOf_evict (o : String) :
    (s.evict owner).entryOf o = if o = owner then none else s.entryOf o :=
  s.entries.get?_delete owner o
@[simp] theorem subscribers_evict (o : String) :
    (s.evict owner).subscribers o = s.subscribers o := rfl

end Entries

/-- Some entries are gone that nobody waits for or looks at. -/
structure Trimmed (s s' : QueryExecutionStore Request Rows Cause Listener) : Prop where
  entries : ∀ o, s'.entryOf o = s.entryOf o ∨
    (s'.entryOf o = none ∧ s.subscribers o = ∅ ∧
      ∃ entry, s.entryOf o = some entry ∧ entry.pending = none)
  subscribers : ∀ o, s'.subscribers o = s.subscribers o

variable {s s' s'' : QueryExecutionStore Request Rows Cause Listener}

theorem Trimmed.of_eq (hentries : ∀ o, s'.entryOf o = s.entryOf o)
    (hsubscribers : ∀ o, s'.subscribers o = s.subscribers o) : Trimmed s s' :=
  ⟨fun o => .inl (hentries o), hsubscribers⟩

theorem Trimmed.trans (h : Trimmed s s') (h' : Trimmed s' s'') : Trimmed s s'' := by
  refine ⟨fun o => ?_, fun o => (h'.subscribers o).trans (h.subscribers o)⟩
  rcases h'.entries o with heq | ⟨hnone, hsub, entry, hentry, hpending⟩
  · rw [heq]
    exact h.entries o
  · rcases h.entries o with heq | ⟨hgone, -⟩
    · rw [heq] at hentry
      rw [h.subscribers] at hsub
      exact .inr ⟨hnone, hsub, entry, hentry, hpending⟩
    · rw [hgone] at hentry
      cases hentry

theorem disposable_eq_some {owner : String} (h : s.disposable = some owner) :
    s.subscribers owner = ∅ ∧ ∃ entry, s.entryOf owner = some entry ∧ entry.pending = none := by
  obtain ⟨⟨o, entry⟩, hfind, rfl⟩ := Option.map_eq_some_iff.mp h
  have hp := List.find?_some hfind
  simp only [Bool.and_eq_true, Option.isNone_iff_eq_none, decide_eq_true_eq] at hp
  exact ⟨hp.2, entry, InsertionMap.mem_pairs.mp (List.mem_of_find?_eq_some hfind), hp.1⟩

theorem trimmed_evict {owner : String} (h : s.disposable = some owner) :
    Trimmed s (s.evict owner) := by
  obtain ⟨hsub, hentry⟩ := disposable_eq_some h
  refine ⟨fun o => ?_, fun o => rfl⟩
  rw [entryOf_evict]
  split
  · next ho =>
    subst ho
    exact .inr ⟨rfl, hsub, hentry⟩
  · exact .inl rfl

theorem trimmed_trimRounds (rounds : Nat) : Trimmed s (trimRounds rounds s) := by
  induction rounds generalizing s with
  | zero => exact .of_eq (fun _ => rfl) fun _ => rfl
  | succ rounds ih =>
    unfold trimRounds
    split
    · exact .of_eq (fun _ => rfl) fun _ => rfl
    · split
      · exact .of_eq (fun _ => rfl) fun _ => rfl
      · next h => exact (trimmed_evict h).trans ih

theorem trimmed_trim : Trimmed s s.trim := trimmed_trimRounds _

/-! ## What a call can do -/

/-- An owner has another entry, and all others are as before. -/
structure Replaces (s s' : QueryExecutionStore Request Rows Cause Listener) (owner : String)
    (entry : Option (QueryExecutionEntry Request Rows Cause)) : Prop where
  entries : ∀ o, s'.entryOf o = if o = owner then entry else s.entryOf o
  subscribers : ∀ o, s'.subscribers o = s.subscribers o

theorem clear_replaces (owner : String) : Replaces s (s.clear owner).store owner none := by
  unfold clear
  split
  · next h =>
    refine ⟨fun o => ?_, fun _ => rfl⟩
    split
    · next ho => rw [ho, h]
    · rfl
  · exact ⟨fun o => s.entries.get?_delete owner o, fun _ => rfl⟩

theorem clear_listeners {owner : String} (h : s.entryOf owner ≠ none) :
    (s.clear owner).listeners = s.subscribers owner := by
  unfold clear
  split
  · next hnone => exact absurd hnone h
  · rfl

/-- A run joins the query that is on its way, finds its answer in the entry, or asks. -/
theorem run_cases (s : QueryExecutionStore Request Rows Cause Listener)
    (owner signature : String) (revision token : Nat) (force : Bool) :
    (∃ entry pending, s.entryOf owner = some entry ∧ entry.pending = some pending ∧
      pending.matches signature revision = true ∧
      s.run owner signature revision token force = (⟨s, ∅⟩, .query pending.token)) ∨
    (∃ entry called, s.entryOf owner = some entry ∧
      (force = false ∧ Cached entry signature revision = true) ∧
      Replaces s called.store owner (some { entry with pending := none }) ∧
      (entry.pending ≠ none → called.listeners = s.subscribers owner) ∧
      s.run owner signature revision token force = (called, .resolved)) ∨
    ∃ called, Replaces s called.store owner
        (some ⟨(s.entryOf owner).bind QueryExecutionEntry.result, none,
          some ⟨signature, revision, token⟩⟩) ∧
      called.listeners = s.subscribers owner ∧
      s.run owner signature revision token force = (called, .query token) := by
  unfold run
  dsimp only
  split
  · next pending hpending =>
    refine .inl ?_
    cases hentry : s.entryOf owner with
    | none =>
      rw [hentry] at hpending
      cases hpending
    | some entry =>
      rw [hentry, Option.getD_some, Option.filter_eq_some_iff] at hpending
      exact ⟨entry, pending, rfl, hpending.1, hpending.2, rfl⟩
  · split
    · next hcached =>
      refine .inr (.inl ?_)
      cases hentry : s.entryOf owner with
      | none =>
        rw [hentry] at hcached
        simp [Cached] at hcached
      | some entry =>
        rw [hentry, Option.getD_some, Bool.and_eq_true, Bool.not_eq_true'] at hcached
        rw [Option.getD_some]
        split
        · refine ⟨entry, _, rfl, hcached, ⟨fun o => ?_, fun o => ?_⟩, fun _ => rfl, rfl⟩
          · simp
          · simp
        · next hnone =>
          refine ⟨entry, _, rfl, hcached, ⟨fun o => ?_, fun o => ?_⟩, absurd hnone, rfl⟩
          · rw [entryOf_touch]
            split
            · next ho =>
              subst ho
              rw [hentry, ← hnone]
            · rfl
          · simp
    · refine .inr (.inr ⟨_, ⟨fun o => ?_, fun o => ?_⟩, ?_, rfl⟩)
      · simp only [entryOf_bump, entryOf_touch, entryOf_setEntry]
        cases s.entryOf owner <;> rfl
      · simp
      · simp

/-- A query settles into the entry that waits for it, or nothing happens. -/
theorem settle_cases (stringify : QueryResult Rows → String)
    (s : QueryExecutionStore Request Rows Cause Listener) (owner signature : String)
    (revision token : Nat) (outcome : Outcome Request Rows Cause) :
    ((∀ entry pending, s.entryOf owner = some entry → entry.pending = some pending →
        pending.token ≠ token) ∧
      s.settle stringify owner signature revision token outcome = ⟨s, ∅⟩) ∨
    ∃ entry pending settled, s.entryOf owner = some entry ∧ entry.pending = some pending ∧
      pending.token = token ∧
      Replaces s settled owner
        (some (settleEntry stringify entry signature revision outcome)) ∧
      Trimmed settled (s.settle stringify owner signature revision token outcome).store ∧
      (s.settle stringify owner signature revision token outcome).listeners =
        s.subscribers owner := by
  unfold settle
  split
  · next hnone =>
    refine .inl ⟨fun entry pending hentry hpending htoken => ?_, rfl⟩
    rw [hentry] at hnone
    simp [Option.filter_some, hpending, htoken] at hnone
  · next entry hsome =>
    rw [Option.filter_eq_some_iff] at hsome
    obtain ⟨hentry, hwaits⟩ := hsome
    obtain ⟨pending, hpending, htoken⟩ := (Option.any_eq_true _ _).mp hwaits
    refine .inr ⟨entry, pending, _, hentry, hpending, of_decide_eq_true htoken, ?_,
      trimmed_trim, ?_⟩
    · refine ⟨fun o => ?_, fun o => ?_⟩
      · simp
      · simp
    · simp

/-! ## Snapshots -/

theorem snapshot_congr {owner : String} (h : s'.entryOf owner = s.entryOf owner)
    (signature : String) (revision : Nat) :
    s'.snapshot owner signature revision = s.snapshot owner signature revision := by
  unfold snapshot
  rw [h]

/-! ## What an owner shows -/

/-- The outcome of a query, up to the value of an answer that was published before. -/
def Shows (stringify : QueryResult Rows → String) (entry : QueryExecutionEntry Request Rows Cause)
    (signature : String) (revision : Nat) : Outcome Request Rows Cause → Prop
  | .answer frame =>
    ∃ kept, entry.result = some ⟨signature, { frame with result := kept }⟩ ∧
      answerValue stringify kept = answerValue stringify frame.result ∧ entry.error = none
  | .failure cause => entry.error = some ⟨signature, revision, cause⟩

theorem shows_settleEntry (stringify : QueryResult Rows → String)
    (current : QueryExecutionEntry Request Rows Cause) (signature : String) (revision : Nat)
    (outcome : Outcome Request Rows Cause) :
    Shows stringify (settleEntry stringify current signature revision outcome) signature revision
      outcome := by
  cases outcome with
  | failure cause => rfl
  | answer frame =>
    refine ⟨_, rfl, ?_, rfl⟩
    cases hkept : current.result.filter fun previous =>
        previous.signature = signature &&
          answerValue stringify previous.frame.result = answerValue stringify frame.result with
    | none => rfl
    | some previous =>
      have hsame := (Option.filter_eq_some_iff.mp hkept).2
      rw [Bool.and_eq_true] at hsame
      exact of_decide_eq_true hsame.2

theorem pending_settleEntry (stringify : QueryResult Rows → String)
    (current : QueryExecutionEntry Request Rows Cause) (signature : String) (revision : Nat)
    (outcome : Outcome Request Rows Cause) :
    (settleEntry stringify current signature revision outcome).pending = none := by
  cases outcome <;> rfl

end QueryExecutionStore

/-! ## The session that is asked -/

open QueryExecutionStore (Shows Replaces Trimmed)

structure Query (Request : Type) where
  owner : String
  signature : String
  canonicalRevision : Nat
  request : Request

/-- A store, and the session it asks. -/
structure World (Request Rows Cause Listener : Type) [DecidableEq Listener] where
  store : QueryExecutionStore Request Rows Cause Listener
  /-- The place of a query is its token. -/
  asked : List (Query Request)
  outcomes : Nat → Option (Outcome Request Rows Cause)
  /-- What the most recent run of an owner returned, where it has not been cleared since. -/
  last : String → Option Promised

inductive Event (Request Rows Cause Listener : Type) where
  | run (owner signature : String) (revision : Nat) (request : Request) (force : Bool)
  | clear (owner : String)
  | subscribe (owner : String) (listener : Listener)
  | unsubscribe (owner : String) (listener : Listener)
  /-- Aborted queries settle too, in whatever way. -/
  | settle (token : Nat) (outcome : Outcome Request Rows Cause)

namespace World

variable (stringify : QueryResult Rows → String)

def initial : World Request Rows Cause Listener :=
  ⟨QueryExecutionStore.empty, [], fun _ => none, fun _ => none⟩

/-- What an event leaves, and the listeners it called. -/
def step (w : World Request Rows Cause Listener) :
    Event Request Rows Cause Listener → World Request Rows Cause Listener × Finset Listener
  | .run owner signature revision request force =>
    let reply := w.store.run owner signature revision w.asked.length force
    ({ w with
        store := reply.1.store
        asked := if reply.2 = .query w.asked.length then
          w.asked ++ [⟨owner, signature, revision, request⟩] else w.asked
        last := fun o => if o = owner then some reply.2 else w.last o }, reply.1.listeners)
  | .clear owner =>
    let called := w.store.clear owner
    ({ w with
        store := called.store
        last := fun o => if o = owner then none else w.last o }, called.listeners)
  | .subscribe owner listener => ({ w with store := w.store.subscribe owner listener }, ∅)
  | .unsubscribe owner listener => ({ w with store := w.store.unsubscribe owner listener }, ∅)
  | .settle token outcome =>
    match w.outcomes token, w.asked[token]? with
    | none, some query =>
      let called := w.store.settle stringify query.owner query.signature query.canonicalRevision
        token outcome
      ({ w with
          store := called.store
          outcomes := fun t => if t = token then some outcome else w.outcomes t },
        called.listeners)
    | _, _ => (w, ∅)

def after (events : List (Event Request Rows Cause Listener)) :
    World Request Rows Cause Listener :=
  events.foldl (fun w event => (w.step stringify event).1) initial

/-- The answer to a query is on its way to the entry, or the entry shows it. -/
def Follows (w : World Request Rows Cause Listener) (token : Nat) (query : Query Request) :
    Prop :=
  match w.outcomes token with
  | none => ∃ entry pending, w.store.entryOf query.owner = some entry ∧
      entry.pending = some pending ∧ pending.token = token ∧
      pending.matches query.signature query.canonicalRevision = true
  | some outcome => ∀ entry, w.store.entryOf query.owner = some entry →
      entry.pending = none ∧
        Shows stringify entry query.signature query.canonicalRevision outcome

structure Inv (w : World Request Rows Cause Listener) : Prop where
  waits : ∀ o entry pending, w.store.entryOf o = some entry → entry.pending = some pending →
    w.last o = some (.query pending.token) ∧ w.outcomes pending.token = none
  last : ∀ o token, w.last o = some (.query token) →
    ∃ query, w.asked[token]? = some query ∧ query.owner = o ∧ w.Follows stringify token query
  outcomes : ∀ token, w.outcomes token ≠ none → token < w.asked.length

variable {stringify} {w : World Request Rows Cause Listener}

theorem inv_initial : (initial : World Request Rows Cause Listener).Inv stringify := by
  refine ⟨fun o entry pending hentry _ => ?_, fun o token hlast => ?_, fun token h => ?_⟩
  · exact absurd hentry (by simp [initial, QueryExecutionStore.empty, QueryExecutionStore.entryOf])
  · cases hlast
  · exact absurd rfl h

/-- An entry that is gone shows nothing that could be overtaken. -/
theorem Inv.trimmed (h : w.Inv stringify) {store : QueryExecutionStore Request Rows Cause Listener}
    (htrim : Trimmed w.store store) : Inv stringify { w with store := store } := by
  have hkept {o entry} (hentry : store.entryOf o = some entry) :
      w.store.entryOf o = some entry := by
    rcases htrim.entries o with heq | ⟨hnone, -⟩
    · rw [← heq, hentry]
    · rw [hnone] at hentry
      cases hentry
  refine ⟨fun o entry pending hentry => h.waits o entry pending (hkept hentry), ?_, h.outcomes⟩
  intro o token hlast
  obtain ⟨query, hquery, howner, hfollows⟩ := h.last o token hlast
  refine ⟨query, hquery, howner, ?_⟩
  unfold Follows at hfollows ⊢
  dsimp only
  split at hfollows
  · obtain ⟨entry, pending, hentry, hpending, htoken⟩ := hfollows
    rcases htrim.entries query.owner with heq | ⟨-, -, entry', hentry', hnone⟩
    · exact ⟨entry, pending, heq.trans hentry, hpending, htoken⟩
    · rw [hentry] at hentry'
      obtain rfl := Option.some.inj hentry'
      rw [hpending] at hnone
      cases hnone
  · exact fun entry hentry => hfollows entry (hkept hentry)

theorem Follows.congr {w' : World Request Rows Cause Listener} {token : Nat}
    {query : Query Request} (h : w.Follows stringify token query)
    (houtcome : w'.outcomes token = w.outcomes token)
    (hentry : w'.store.entryOf query.owner = w.store.entryOf query.owner) :
    w'.Follows stringify token query := by
  unfold Follows
  rw [houtcome, hentry]
  exact h

theorem Inv.token_lt (h : w.Inv stringify) {o : String} {token : Nat}
    (hlast : w.last o = some (.query token)) : token < w.asked.length := by
  obtain ⟨query, hquery, -⟩ := h.last o token hlast
  exact (List.getElem?_eq_some_iff.mp hquery).1

theorem Inv.run (h : w.Inv stringify) (owner signature : String) (revision : Nat)
    (request : Request) (force : Bool) :
    (w.step stringify (.run owner signature revision request force)).1.Inv stringify := by
  dsimp only [step]
  rcases w.store.run_cases owner signature revision w.asked.length force with
    ⟨entry, pending, hentry, hpending, -, hrun⟩ | ⟨entry, called, -, -, hcalled, -, hrun⟩ |
    ⟨called, hcalled, -, hrun⟩
  · rw [hrun]
    obtain ⟨hlast, -⟩ := h.waits owner entry pending hentry hpending
    have hne : ¬Promised.query pending.token = .query w.asked.length := by
      intro heq
      exact (h.token_lt hlast).ne (Promised.query.inj heq)
    have hsame : (fun o => if o = owner then some (Promised.query pending.token) else w.last o) =
        w.last := by
      funext o
      split
      · next ho => rw [ho, hlast]
      · rfl
    dsimp only
    rw [if_neg hne, hsame]
    exact h
  · rw [hrun]
    dsimp only
    rw [if_neg nofun]
    refine ⟨fun o entry' pending hentry hpending => ?_, fun o token hlast => ?_, h.outcomes⟩
    · dsimp only at hentry ⊢
      rw [hcalled.entries] at hentry
      split at hentry
      · obtain rfl := Option.some.inj hentry
        cases hpending
      · next ho =>
        rw [if_neg ho]
        exact h.waits o entry' pending hentry hpending
    · dsimp only at hlast
      split at hlast
      · cases hlast
      · next ho =>
        obtain ⟨query, hquery, rfl, hfollows⟩ := h.last o token hlast
        refine ⟨query, hquery, rfl, hfollows.congr rfl ?_⟩
        dsimp only
        rw [hcalled.entries, if_neg ho]
  · rw [hrun]
    dsimp only
    rw [if_pos rfl]
    have hfresh : w.outcomes w.asked.length = none := by
      by_contra hne
      exact (h.outcomes _ hne).false
    refine ⟨fun o entry' pending hentry hpending => ?_, fun o token hlast => ?_,
      fun token hne => ?_⟩
    · dsimp only at hentry ⊢
      rw [hcalled.entries] at hentry
      split at hentry
      · next ho =>
        obtain rfl := Option.some.inj hentry
        obtain rfl := Option.some.inj hpending
        rw [if_pos ho]
        exact ⟨rfl, hfresh⟩
      · next ho =>
        rw [if_neg ho]
        exact h.waits o entry' pending hentry hpending
    · dsimp only at hlast ⊢
      split at hlast
      · next ho =>
        obtain rfl := Promised.query.inj (Option.some.inj hlast)
        refine ⟨_, List.getElem?_concat_length, ho.symm, ?_⟩
        unfold Follows
        dsimp only
        rw [hfresh, hcalled.entries, if_pos rfl]
        exact ⟨_, _, rfl, rfl, rfl, by simp [PendingExecution.matches]⟩
      · next ho =>
        obtain ⟨query, hquery, rfl, hfollows⟩ := h.last o token hlast
        refine ⟨query, ?_, rfl, hfollows.congr rfl ?_⟩
        · rw [List.getElem?_append_left (h.token_lt hlast), hquery]
        · dsimp only
          rw [hcalled.entries, if_neg ho]
    · rw [List.length_append]
      exact Nat.lt_add_right _ (h.outcomes token hne)

theorem Inv.clear (h : w.Inv stringify) (owner : String) :
    (w.step stringify (.clear owner)).1.Inv stringify := by
  have hcleared := w.store.clear_replaces owner
  refine ⟨fun o entry pending hentry hpending => ?_, fun o token hlast => ?_, h.outcomes⟩
  · dsimp only [step] at hentry ⊢
    rw [hcleared.entries] at hentry
    split at hentry
    · cases hentry
    · next ho =>
      rw [if_neg ho]
      exact h.waits o entry pending hentry hpending
  · dsimp only [step] at hlast ⊢
    split at hlast
    · cases hlast
    · next ho =>
      obtain ⟨query, hquery, rfl, hfollows⟩ := h.last o token hlast
      refine ⟨query, hquery, rfl, hfollows.congr rfl ?_⟩
      dsimp only
      rw [hcleared.entries, if_neg ho]

/-- The state where a query has settled into its entry. -/
theorem Inv.settled (h : w.Inv stringify) {query : Query Request} {token : Nat}
    {entry : QueryExecutionEntry Request Rows Cause} {pending : PendingExecution}
    {outcome : Outcome Request Rows Cause}
    {settled : QueryExecutionStore Request Rows Cause Listener}
    (hquery : w.asked[token]? = some query) (hentry : w.store.entryOf query.owner = some entry)
    (hpending : entry.pending = some pending) (htoken : pending.token = token)
    (hsettled : Replaces w.store settled query.owner (some
      (QueryExecutionStore.settleEntry stringify entry query.signature query.canonicalRevision
        outcome))) :
    Inv stringify { w with
      store := settled
      outcomes := fun t => if t = token then some outcome else w.outcomes t } := by
  obtain ⟨howned, -⟩ := h.waits query.owner entry pending hentry hpending
  rw [htoken] at howned
  refine ⟨fun o entry' pending' hentry' hpending' => ?_, fun o t hlast => ?_, fun t hne => ?_⟩
  · dsimp only at hentry' ⊢
    rw [hsettled.entries] at hentry'
    split at hentry'
    · obtain rfl := Option.some.inj hentry'
      rw [QueryExecutionStore.pending_settleEntry] at hpending'
      cases hpending'
    · next ho =>
      obtain ⟨hlast, hnone⟩ := h.waits o entry' pending' hentry' hpending'
      refine ⟨hlast, ?_⟩
      rw [if_neg, hnone]
      intro ht
      obtain ⟨query', hquery', rfl, -⟩ := h.last o _ hlast
      rw [ht, hquery] at hquery'
      exact ho (congrArg Query.owner (Option.some.inj hquery').symm)
  · dsimp only at hlast ⊢
    obtain ⟨query', hquery', rfl, hfollows⟩ := h.last o t hlast
    refine ⟨query', hquery', rfl, ?_⟩
    by_cases ht : t = token
    · subst ht
      obtain rfl := Option.some.inj (hquery.symm.trans hquery')
      unfold Follows
      dsimp only
      rw [if_pos rfl, hsettled.entries, if_pos rfl]
      intro entry' hentry'
      obtain rfl := Option.some.inj hentry'
      exact ⟨QueryExecutionStore.pending_settleEntry _ _ _ _ _,
        QueryExecutionStore.shows_settleEntry _ _ _ _ _⟩
    · refine hfollows.congr (if_neg ht) ?_
      dsimp only
      rw [hsettled.entries, if_neg]
      intro ho
      rw [ho, howned] at hlast
      exact ht (Promised.query.inj (Option.some.inj hlast)).symm
  · dsimp only at hne
    split at hne
    · next ht =>
      rw [ht]
      exact (List.getElem?_eq_some_iff.mp hquery).1
    · exact h.outcomes t hne

/-- Nobody waits for a query that settles into nothing. -/
theorem Inv.dropped (h : w.Inv stringify) {query : Query Request} {token : Nat}
    {outcome : Outcome Request Rows Cause} (hopen : w.outcomes token = none)
    (hquery : w.asked[token]? = some query)
    (hdropped : ∀ entry pending, w.store.entryOf query.owner = some entry →
      entry.pending = some pending → pending.token ≠ token) :
    Inv stringify { w with
      outcomes := fun t => if t = token then some outcome else w.outcomes t } := by
  have hlast {o} : w.last o ≠ some (.query token) := by
    intro hlast
    obtain ⟨query', hquery', rfl, hfollows⟩ := h.last o token hlast
    obtain rfl := Option.some.inj (hquery.symm.trans hquery')
    unfold Follows at hfollows
    rw [hopen] at hfollows
    obtain ⟨entry, pending, hentry, hpending, htoken, -⟩ := hfollows
    exact hdropped entry pending hentry hpending htoken
  refine ⟨fun o entry pending hentry hpending => ?_, fun o t ht => ?_, fun t hne => ?_⟩
  · obtain ⟨howned, hnone⟩ := h.waits o entry pending hentry hpending
    refine ⟨howned, ?_⟩
    dsimp only
    rw [if_neg, hnone]
    intro heq
    exact hlast (heq ▸ howned)
  · obtain ⟨query', hquery', howner, hfollows⟩ := h.last o t ht
    refine ⟨query', hquery', howner, hfollows.congr (if_neg ?_) rfl⟩
    intro heq
    exact hlast (heq ▸ ht)
  · dsimp only at hne
    split at hne
    · next ht =>
      rw [ht]
      exact (List.getElem?_eq_some_iff.mp hquery).1
    · exact h.outcomes t hne

theorem Inv.settle (h : w.Inv stringify) (token : Nat) (outcome : Outcome Request Rows Cause) :
    (w.step stringify (.settle token outcome)).1.Inv stringify := by
  dsimp only [step]
  split
  · next query hopen hquery =>
    rcases QueryExecutionStore.settle_cases stringify w.store query.owner query.signature
      query.canonicalRevision token outcome with
      ⟨hdropped, heq⟩ | ⟨entry, pending, settled, hentry, hpending, htoken, hsettled, htrim, -⟩
    · rw [heq]
      exact h.dropped hopen hquery hdropped
    · exact (h.settled hquery hentry hpending htoken hsettled).trimmed htrim
  · exact h

/-- Who listens does not matter to what is asked. -/
theorem Inv.relisten (h : w.Inv stringify) (listeners : Keyed String (Finset Listener)) :
    Inv stringify { w with store := { w.store with listeners := listeners } } :=
  ⟨h.waits, h.last, h.outcomes⟩

theorem Inv.step (h : w.Inv stringify) (event : Event Request Rows Cause Listener) :
    (w.step stringify event).1.Inv stringify := by
  cases event with
  | run owner signature revision request force => exact h.run owner signature revision request force
  | clear owner => exact h.clear owner
  | subscribe owner listener =>
    exact (h.relisten (w.store.listeners.insert owner listener)).trimmed
      (.of_eq (QueryExecutionStore.entryOf_touch _ owner)
        (QueryExecutionStore.subscribers_touch _ owner))
  | unsubscribe owner listener =>
    exact (h.relisten (w.store.listeners.remove owner listener)).trimmed
      QueryExecutionStore.trimmed_trim
  | settle token outcome => exact h.settle token outcome

theorem inv_after (events : List (Event Request Rows Cause Listener)) :
    (after stringify events).Inv stringify := by
  unfold after
  induction events using List.reverseRecOn with
  | nil => exact inv_initial
  | append_singleton events event ih =>
    rw [List.foldl_append]
    exact ih.step event

/-! ## No answer is overtaken -/

/-- An owner has an answer or an error that it did not have. -/
def Publishes (s s' : QueryExecutionStore Request Rows Cause Listener) (owner : String) : Prop :=
  (∃ entry result, s'.entryOf owner = some entry ∧ entry.result = some result ∧
    (s.entryOf owner).bind QueryExecutionEntry.result ≠ some result) ∨
  ∃ entry error, s'.entryOf owner = some entry ∧ entry.error = some error ∧
    (s.entryOf owner).bind QueryExecutionEntry.error ≠ some error

theorem not_publishes_of_eq {s s' : QueryExecutionStore Request Rows Cause Listener}
    {owner : String} (h : s'.entryOf owner = s.entryOf owner) : ¬Publishes s s' owner := by
  rintro (⟨entry, result, hentry, hresult, hne⟩ | ⟨entry, error, hentry, herror, hne⟩)
  · rw [← h, hentry] at hne
    exact hne hresult
  · rw [← h, hentry] at hne
    exact hne herror

theorem Publishes.of_trimmed {s s' s'' : QueryExecutionStore Request Rows Cause Listener}
    {owner : String} (h : Publishes s s'' owner) (htrim : Trimmed s' s'') :
    Publishes s s' owner := by
  rcases htrim.entries owner with heq | ⟨hnone, -⟩
  · unfold Publishes at h ⊢
    rwa [heq] at h
  · rcases h with ⟨entry, result, hentry, -⟩ | ⟨entry, error, hentry, -⟩
    · rw [hnone] at hentry
      cases hentry
    · rw [hnone] at hentry
      cases hentry

/-- An event leaves the entries alone but for what is trimmed, or gives one owner another one:
it clears it, keeps what it published, or settles its query. -/
theorem step_cases (stringify : QueryResult Rows → String) (w : World Request Rows Cause Listener)
    (event : Event Request Rows Cause Listener) :
    (∃ listeners, Trimmed { w.store with listeners := listeners }
      (w.step stringify event).1.store ∧ (w.step stringify event).2 = ∅) ∨
    ∃ owner entry middle, Replaces w.store middle owner entry ∧
      Trimmed middle (w.step stringify event).1.store ∧
      (entry ≠ w.store.entryOf owner →
        (w.step stringify event).2 = w.store.subscribers owner) ∧
      ((entry = none ∧ event = .clear owner) ∨
        (entry ≠ none ∧ ¬Publishes w.store middle owner ∧
          (w.step stringify event).1.store = middle) ∨
        ∃ old pending outcome, w.store.entryOf owner = some old ∧ old.pending = some pending ∧
          entry ≠ none ∧ event = .settle pending.token outcome) := by
  have hself {s : QueryExecutionStore Request Rows Cause Listener} : Trimmed s s :=
    .of_eq (fun _ => rfl) fun _ => rfl
  cases event with
  | run owner signature revision request force =>
    dsimp only [step]
    rcases w.store.run_cases owner signature revision w.asked.length force with
      ⟨entry, pending, -, -, -, hrun⟩ | ⟨entry, called, hentry, -, hcalled, hcalls, hrun⟩ |
      ⟨called, hcalled, hcalls, hrun⟩
    · rw [hrun]
      exact .inl ⟨w.store.listeners, hself, rfl⟩
    · rw [hrun]
      refine .inr ⟨owner, _, called.store, hcalled, hself, fun hne => hcalls fun hnone => ?_,
        .inr (.inl ⟨nofun, ?_, rfl⟩)⟩
      · rw [hentry, ← hnone] at hne
        exact hne rfl
      · rintro (⟨entry', result, hentry', hresult, hne⟩ | ⟨entry', error, hentry', herror, hne⟩)
        · rw [hcalled.entries, if_pos rfl] at hentry'
          obtain rfl := Option.some.inj hentry'
          rw [hentry] at hne
          exact hne hresult
        · rw [hcalled.entries, if_pos rfl] at hentry'
          obtain rfl := Option.some.inj hentry'
          rw [hentry] at hne
          exact hne herror
    · rw [hrun]
      refine .inr ⟨owner, _, called.store, hcalled, hself, fun _ => hcalls,
        .inr (.inl ⟨nofun, ?_, rfl⟩)⟩
      rintro (⟨entry', result, hentry', hresult, hne⟩ | ⟨entry', error, hentry', herror, hne⟩)
      · rw [hcalled.entries, if_pos rfl] at hentry'
        obtain rfl := Option.some.inj hentry'
        exact hne hresult
      · rw [hcalled.entries, if_pos rfl] at hentry'
        obtain rfl := Option.some.inj hentry'
        cases herror
  | clear owner =>
    refine .inr ⟨owner, none, _, w.store.clear_replaces owner, hself, fun hne => ?_,
      .inl ⟨rfl, rfl⟩⟩
    exact QueryExecutionStore.clear_listeners hne.symm
  | subscribe owner listener =>
    exact .inl ⟨w.store.listeners.insert owner listener,
      .of_eq (QueryExecutionStore.entryOf_touch _ owner)
        (QueryExecutionStore.subscribers_touch _ owner), rfl⟩
  | unsubscribe owner listener =>
    exact .inl ⟨w.store.listeners.remove owner listener, QueryExecutionStore.trimmed_trim, rfl⟩
  | settle token outcome =>
    dsimp only [step]
    split
    · next query hopen hquery =>
      rcases QueryExecutionStore.settle_cases stringify w.store query.owner query.signature
        query.canonicalRevision token outcome with
        ⟨-, heq⟩ | ⟨entry, pending, settled, hentry, hpending, htoken, hsettled, htrim, hcalls⟩
      · rw [heq]
        exact .inl ⟨w.store.listeners, hself, rfl⟩
      · exact .inr ⟨query.owner, _, settled, hsettled, htrim, fun _ => hcalls,
          .inr (.inr ⟨entry, pending, outcome, hentry, hpending, nofun, by rw [htoken]⟩)⟩
    · exact .inl ⟨w.store.listeners, hself, rfl⟩

variable (stringify)

/-- The stored answer is the one to a question, and there is no error to it. -/
def HoldsAnswer (entry : QueryExecutionEntry Request Rows Cause) (signature : String)
    (revision : Nat) : Prop :=
  (∃ result, entry.result = some result ∧ result.signature = signature ∧
    result.frame.canonicalRevision = revision) ∧
  ∀ error, entry.error = some error →
    ¬(error.signature = signature ∧ error.canonicalRevision = revision)

/-- A run is answered at once only by the stored answer to that very question, where it need not
be fresh. Any other waits for a query of the question, which is on its way. -/
def Answered (w : World Request Rows Cause Listener) (owner signature : String) (revision : Nat)
    (request : Request) (force : Bool) : Prop :=
  let asking := (w.step stringify (.run owner signature revision request force)).1
  (asking.last owner = some .resolved ∧ force = false ∧ ∃ entry,
    w.store.entryOf owner = some entry ∧ HoldsAnswer entry signature revision ∧
      asking.store.entryOf owner = some { entry with pending := none }) ∨
  ∃ token query, asking.last owner = some (.query token) ∧ asking.asked[token]? = some query ∧
    query.owner = owner ∧ query.signature = signature ∧ query.canonicalRevision = revision ∧
    asking.outcomes token = none

structure NeverOvertaken (w : World Request Rows Cause Listener) : Prop where
  /-- Only the query of an owner's most recent run publishes anything. -/
  published : ∀ event owner, Publishes w.store (w.step stringify event).1.store owner →
    ∃ token outcome, event = .settle token outcome ∧ w.last owner = some (.query token)
  /-- Any other query leaves the store as it is. -/
  ignored : ∀ token outcome query, w.asked[token]? = some query →
    w.last query.owner ≠ some (.query token) →
    (w.step stringify (.settle token outcome)).1.store = w.store ∧
      (w.step stringify (.settle token outcome)).2 = ∅
  /-- When all queries have settled nothing is pending, and every entry that is left shows the
  outcome of its owner's most recent run. -/
  settled : (∀ token < w.asked.length, w.outcomes token ≠ none) → ∀ owner,
    (∀ entry, w.store.entryOf owner = some entry → entry.pending = none) ∧
    ∀ token, w.last owner = some (.query token) → ∃ query outcome,
      w.asked[token]? = some query ∧ query.owner = owner ∧ w.outcomes token = some outcome ∧
      ∀ entry, w.store.entryOf owner = some entry →
        Shows stringify entry query.signature query.canonicalRevision outcome
  /-- Unless it is cleared an entry goes only while nobody waits for it or looks at it. -/
  evicted : ∀ event owner entry, w.store.entryOf owner = some entry →
    (w.step stringify event).1.store.entryOf owner = none →
    event = .clear owner ∨ (w.step stringify event).1.store.subscribers owner = ∅ ∧
      ∀ pending, entry.pending = some pending → ∃ outcome, event = .settle pending.token outcome
  answered : ∀ owner signature revision request force,
    w.Answered stringify owner signature revision request force
  /-- A run leaves an entry. -/
  entered : ∀ owner signature revision request force, ∃ entry,
    (w.step stringify (.run owner signature revision request force)).1.store.entryOf owner =
      some entry
  notified : ∀ event owner signature revision,
    (w.step stringify event).1.store.snapshot owner signature revision ≠
      w.store.snapshot owner signature revision →
    (w.step stringify event).1.store.subscribers owner ⊆ (w.step stringify event).2

variable {stringify}

theorem Inv.published (h : w.Inv stringify) {event : Event Request Rows Cause Listener}
    {owner : String} (hpublishes : Publishes w.store (w.step stringify event).1.store owner) :
    ∃ token outcome, event = .settle token outcome ∧ w.last owner = some (.query token) := by
  rcases w.step_cases stringify event with
    ⟨listeners, htrim, -⟩ | ⟨o, entry, middle, hreplaces, htrim, -, hcause⟩
  · exact absurd (hpublishes.of_trimmed htrim) (not_publishes_of_eq rfl)
  · have hmiddle := hpublishes.of_trimmed htrim
    by_cases ho : owner = o
    · subst ho
      rcases hcause with ⟨hnone, -⟩ | ⟨-, hkept, -⟩ |
        ⟨old, pending, outcome, hold, hpending, -, rfl⟩
      · have hgone := hreplaces.entries owner
        rw [if_pos rfl, hnone] at hgone
        rcases hmiddle with ⟨_, _, hentry, -⟩ | ⟨_, _, hentry, -⟩
        · rw [hgone] at hentry
          cases hentry
        · rw [hgone] at hentry
          cases hentry
      · exact absurd hmiddle hkept
      · exact ⟨pending.token, outcome, rfl, (h.waits owner old pending hold hpending).1⟩
    · refine absurd hmiddle (not_publishes_of_eq ?_)
      rw [hreplaces.entries, if_neg ho]

theorem Inv.ignored (h : w.Inv stringify) {token : Nat} {query : Query Request}
    (outcome : Outcome Request Rows Cause) (hquery : w.asked[token]? = some query)
    (hlast : w.last query.owner ≠ some (.query token)) :
    (w.step stringify (.settle token outcome)).1.store = w.store ∧
      (w.step stringify (.settle token outcome)).2 = ∅ := by
  dsimp only [World.step]
  rw [hquery]
  split
  · next query' _ heq =>
    obtain rfl := Option.some.inj heq
    rcases QueryExecutionStore.settle_cases stringify w.store query.owner query.signature
      query.canonicalRevision token outcome with
      ⟨-, heq⟩ | ⟨entry, pending, settled, hentry, hpending, htoken, -⟩
    · rw [heq]
      exact ⟨rfl, rfl⟩
    · have howned := (h.waits query.owner entry pending hentry hpending).1
      rw [htoken] at howned
      exact absurd howned hlast
  · exact ⟨rfl, rfl⟩

theorem Inv.idle (h : w.Inv stringify)
    (hidle : ∀ token < w.asked.length, w.outcomes token ≠ none) (owner : String) :
    (∀ entry, w.store.entryOf owner = some entry → entry.pending = none) ∧
    ∀ token, w.last owner = some (.query token) → ∃ query outcome,
      w.asked[token]? = some query ∧ query.owner = owner ∧ w.outcomes token = some outcome ∧
      ∀ entry, w.store.entryOf owner = some entry →
        Shows stringify entry query.signature query.canonicalRevision outcome := by
  constructor
  · intro entry hentry
    cases hpending : entry.pending with
    | none => rfl
    | some pending =>
      obtain ⟨hlast, hopen⟩ := h.waits owner entry pending hentry hpending
      exact absurd hopen (hidle _ (h.token_lt hlast))
  · intro token hlast
    obtain ⟨query, hquery, rfl, hfollows⟩ := h.last owner token hlast
    obtain ⟨outcome, houtcome⟩ := Option.ne_none_iff_exists'.mp (hidle _ (h.token_lt hlast))
    unfold Follows at hfollows
    rw [houtcome] at hfollows
    exact ⟨query, outcome, hquery, rfl, houtcome, fun entry hentry => (hfollows entry hentry).2⟩

theorem evicted_of_step (w : World Request Rows Cause Listener)
    (event : Event Request Rows Cause Listener) {owner : String}
    {entry : QueryExecutionEntry Request Rows Cause} (hentry : w.store.entryOf owner = some entry)
    (hgone : (w.step stringify event).1.store.entryOf owner = none) :
    event = .clear owner ∨ (w.step stringify event).1.store.subscribers owner = ∅ ∧
      ∀ pending, entry.pending = some pending →
        ∃ outcome, event = .settle pending.token outcome := by
  rcases w.step_cases stringify event with
    ⟨listeners, htrim, -⟩ | ⟨o, new, middle, hreplaces, htrim, -, hcause⟩
  · rcases htrim.entries owner with heq | ⟨-, hsub, entry', hentry', hnone⟩
    · rw [hgone] at heq
      exact absurd (heq.trans hentry) nofun
    · obtain rfl := Option.some.inj (hentry.symm.trans hentry')
      rw [htrim.subscribers, hsub]
      exact .inr ⟨rfl, fun pending hpending => absurd (hpending.symm.trans hnone) nofun⟩
  · have hmiddle := hreplaces.entries owner
    by_cases ho : owner = o
    · subst ho
      rw [if_pos rfl] at hmiddle
      rcases hcause with ⟨-, hclear⟩ | ⟨hne, -, hstore⟩ |
        ⟨old, pending, outcome, hold, hpending, hne, hevent⟩
      · exact .inl hclear
      · rw [hstore, hmiddle] at hgone
        exact absurd hgone hne
      · rcases htrim.entries owner with heq | ⟨-, hsub, -⟩
        · rw [hgone, hmiddle] at heq
          exact absurd heq.symm hne
        · obtain rfl := Option.some.inj (hentry.symm.trans hold)
          rw [htrim.subscribers, hsub]
          refine .inr ⟨rfl, fun pending' hpending' => ⟨outcome, ?_⟩⟩
          rw [hpending] at hpending'
          obtain rfl := Option.some.inj hpending'
          exact hevent
    · rw [if_neg ho, hentry] at hmiddle
      rcases htrim.entries owner with heq | ⟨-, hsub, entry', hentry', hnone⟩
      · rw [hgone, hmiddle] at heq
        cases heq
      · obtain rfl := Option.some.inj (hmiddle.symm.trans hentry')
        rw [htrim.subscribers, hsub]
        exact .inr ⟨rfl, fun pending hpending => absurd (hpending.symm.trans hnone) nofun⟩

theorem holdsAnswer_of_cached {entry : QueryExecutionEntry Request Rows Cause} {signature : String}
    {revision : Nat} (h : QueryExecutionStore.Cached entry signature revision = true) :
    HoldsAnswer entry signature revision := by
  obtain ⟨hresult, herror⟩ := (Bool.and_eq_true _ _).mp h
  obtain ⟨result, hsome, hsame⟩ := (Option.any_eq_true _ _).mp hresult
  obtain ⟨hsignature, hrevision⟩ := (Bool.and_eq_true _ _).mp hsame
  refine ⟨⟨result, hsome, of_decide_eq_true hsignature, of_decide_eq_true hrevision⟩, ?_⟩
  rintro error hentry ⟨rfl, rfl⟩
  rw [hentry] at herror
  simp [TaggedError.matches] at herror

theorem Inv.answered (h : w.Inv stringify) (owner signature : String) (revision : Nat)
    (request : Request) (force : Bool) :
    w.Answered stringify owner signature revision request force := by
  unfold Answered
  dsimp only [World.step]
  rcases w.store.run_cases owner signature revision w.asked.length force with
    ⟨entry, pending, hentry, hpending, hmatches, hrun⟩ |
    ⟨entry, called, hentry, ⟨hforce, hcached⟩, hcalled, -, hrun⟩ | ⟨called, hcalled, -, hrun⟩
  · -- The query that is on its way asks the same.
    obtain ⟨hlast, hopen⟩ := h.waits owner entry pending hentry hpending
    obtain ⟨query, hquery, rfl, hfollows⟩ := h.last owner _ hlast
    unfold Follows at hfollows
    rw [hopen] at hfollows
    obtain ⟨entry', pending', hentry', hpending', -, hsame⟩ := hfollows
    obtain rfl := Option.some.inj (hentry.symm.trans hentry')
    obtain rfl := Option.some.inj (hpending.symm.trans hpending')
    have hne : ¬Promised.query pending.token = .query w.asked.length := by
      intro heq
      exact (h.token_lt hlast).ne (Promised.query.inj heq)
    rw [hrun]
    refine .inr ⟨pending.token, query, by simp, ?_, rfl, ?_, ?_, hopen⟩
    · rw [if_neg hne]
      exact hquery
    · exact (of_decide_eq_true (Bool.and_eq_true_iff.mp hsame).1).symm.trans
        (of_decide_eq_true (Bool.and_eq_true_iff.mp hmatches).1)
    · exact (of_decide_eq_true (Bool.and_eq_true_iff.mp hsame).2).symm.trans
        (of_decide_eq_true (Bool.and_eq_true_iff.mp hmatches).2)
  · rw [hrun]
    exact .inl ⟨by simp, hforce, entry, hentry, holdsAnswer_of_cached hcached,
      by rw [hcalled.entries, if_pos rfl]⟩
  · have hfresh : w.outcomes w.asked.length = none := by
      by_contra hne
      exact (h.outcomes _ hne).false
    rw [hrun]
    exact .inr ⟨w.asked.length, ⟨owner, signature, revision, request⟩, by simp, by simp, rfl, rfl,
      rfl, hfresh⟩

theorem entered_of_run (w : World Request Rows Cause Listener) (owner signature : String)
    (revision : Nat) (request : Request) (force : Bool) : ∃ entry,
    (w.step stringify (.run owner signature revision request force)).1.store.entryOf owner =
      some entry := by
  dsimp only [step]
  rcases w.store.run_cases owner signature revision w.asked.length force with
    ⟨entry, pending, hentry, -, -, hrun⟩ | ⟨entry, called, -, -, hcalled, -, hrun⟩ |
    ⟨called, hcalled, -, hrun⟩
  · rw [hrun]
    exact ⟨entry, hentry⟩
  · rw [hrun, hcalled.entries, if_pos rfl]
    exact ⟨_, rfl⟩
  · rw [hrun, hcalled.entries, if_pos rfl]
    exact ⟨_, rfl⟩

theorem notified_of_step (w : World Request Rows Cause Listener)
    (event : Event Request Rows Cause Listener) {owner signature : String} {revision : Nat}
    (hne : (w.step stringify event).1.store.snapshot owner signature revision ≠
      w.store.snapshot owner signature revision) :
    (w.step stringify event).1.store.subscribers owner ⊆ (w.step stringify event).2 := by
  rcases w.step_cases stringify event with
    ⟨listeners, htrim, -⟩ | ⟨o, new, middle, hreplaces, htrim, hcalls, -⟩
  · rcases htrim.entries owner with heq | ⟨-, hsub, -⟩
    · exact absurd (QueryExecutionStore.snapshot_congr heq signature revision) hne
    · rw [htrim.subscribers, hsub]
      exact Finset.empty_subset _
  · rcases htrim.entries owner with heq | ⟨-, hsub, -⟩
    · have hmiddle := hreplaces.entries owner
      by_cases ho : owner = o
      · subst ho
        rw [if_pos rfl] at hmiddle
        rw [hcalls, htrim.subscribers, hreplaces.subscribers]
        intro hsame
        rw [hmiddle, hsame] at heq
        exact hne (QueryExecutionStore.snapshot_congr heq signature revision)
      · rw [if_neg ho] at hmiddle
        rw [hmiddle] at heq
        exact absurd (QueryExecutionStore.snapshot_congr heq signature revision) hne
    · rw [htrim.subscribers, hsub]
      exact Finset.empty_subset _

/-- What owners show when all queries have settled is what their queries brought. -/
def ShowsOutcomes (w : World Request Rows Cause Listener) : Prop :=
  (∀ token < w.asked.length, w.outcomes token ≠ none) → ∀ owner token outcome,
    w.last owner = some (.query token) → w.outcomes token = some outcome →
    ∃ entry, w.store.entryOf owner = some entry ∧
      match outcome with
      | .answer frame => entry.result.map TaggedResult.frame = some frame
      | .failure cause => entry.error.map TaggedError.cause = some cause

def sampleText (result : QueryResult String) : String :=
  result.rows ++ "@" ++ toString result.revision ++ result.frontier

def sampleFrame (revision : Nat) : QueryFrame Unit String := ⟨(), ⟨revision, "", ""⟩, revision⟩

/-- One owner more than are kept. -/
def crowd : List (Event Unit String Unit Nat) :=
  (List.range (maxCachedQueries + 1)).flatMap fun n =>
    [.run (toString n) "" 0 () false, .settle n (.answer (sampleFrame 0))]

/-- The same rows at another revision. -/
def repeated : List (Event Unit String Unit Nat) :=
  [.run "" "" 0 () false, .settle 0 (.answer (sampleFrame 0)),
    .run "" "" 1 () false, .settle 1 (.answer (sampleFrame 1))]

/-- The first owner of a crowd has lost its entry, and a repeated answer keeps the value it had
at the earlier revision. -/
theorem not_showsOutcomes :
    ¬ShowsOutcomes (after sampleText crowd) ∧ ¬ShowsOutcomes (after sampleText repeated) := by
  constructor
  · intro h
    have hcrowd :
        (∀ token < (after sampleText crowd).asked.length,
          (after sampleText crowd).outcomes token ≠ none) ∧
        (after sampleText crowd).last "0" = some (.query 0) ∧
        (after sampleText crowd).outcomes 0 = some (.answer (sampleFrame 0)) ∧
        (after sampleText crowd).store.entryOf "0" = none := by decide +kernel
    obtain ⟨hidle, hlast, houtcome, hnone⟩ := hcrowd
    obtain ⟨entry, hentry, -⟩ := h hidle "0" 0 _ hlast houtcome
    rw [hnone] at hentry
    cases hentry
  · intro h
    obtain ⟨entry, hentry, hshown⟩ := h (by decide +kernel) "" 1 (.answer (sampleFrame 1))
      (by decide +kernel) (by decide +kernel)
    have hkept : ((after sampleText repeated).store.entryOf "").map (fun e =>
        e.result.map TaggedResult.frame) = some (some ⟨(), ⟨0, "", ""⟩, 1⟩) := by decide +kernel
    rw [hentry, Option.map_some] at hkept
    rw [Option.some.inj hkept] at hshown
    exact absurd hshown (by simp [sampleFrame])

theorem neverOvertaken_after (events : List (Event Request Rows Cause Listener)) :
    NeverOvertaken stringify (after stringify events) where
  published _ _ := (inv_after events).published
  ignored _ outcome _ := (inv_after events).ignored outcome
  settled := (inv_after events).idle
  evicted event _ _ := evicted_of_step _ event
  answered := (inv_after events).answered
  entered := entered_of_run _
  notified event _ _ _ := notified_of_step _ event

end World

end Neoseq.Answers
