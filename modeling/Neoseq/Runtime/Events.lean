import Mathlib.Data.List.Range

/-! The events of a runtime. A reader asks for what came after a cursor and gets it, or is
told to read everything again where some of it is no longer there. -/

namespace Neoseq.Runtime

/-- The name under which a change is published. -/
inductive SemanticEvent where
  | commandDeduplicated
  | pageEnsured
  | journalEnsured
  | pageRenamed
  | pageDeleted
  | pageRestored
  | tagEnsured
  | tagRenamed
  | tagDeleted
  | tagRestored
  | propertiesChanged
  | tagPropertiesChanged
  | tagDefaultsChanged
  | tagAddedAndDefaultsMaterialized
  | tagRemoved
  | blockTextChanged
  | blockInserted
  | blockSplit
  | blockMergedBackward
  | subtreeMoved
  | subtreesDeleted
  | graphSettingsChanged
  | commandBatchApplied
  | localUndo
  | localRedo
  | entityKindChanged
  deriving DecidableEq

inductive EventSource where
  | local
  | remote
  deriving DecidableEq

inductive GraphEventKind where
  | semantic (name : SemanticEvent) (commandId : String)
  | savedLocally (localSequence : Nat) (checksum : String)
  | remoteImported
  deriving DecidableEq

structure GraphEvent where
  cursor : Nat
  source : EventSource
  kind : GraphEventKind
  deriving DecidableEq

inductive EventBatch where
  | events (events : List GraphEvent) (nextCursor : Nat)
  | resyncRequired (oldestCursor latestCursor : Nat)

/-- The ring of a runtime: the newest events, as many as it holds. -/
structure EventRing where
  events : List GraphEvent
  eventCapacity : Nat
  nextCursor : Nat

namespace EventRing

def empty (eventCapacity : Nat) : EventRing := ⟨[], eventCapacity, 1⟩

def nextEvent (ring : EventRing) (source : EventSource) (kind : GraphEventKind) : GraphEvent :=
  ⟨ring.nextCursor, source, kind⟩

def push (ring : EventRing) (source : EventSource) (kind : GraphEventKind) : EventRing :=
  let events := ring.events ++ [ring.nextEvent source kind]
  { ring with
    events := events.drop (events.length - ring.eventCapacity)
    nextCursor := ring.nextCursor + 1 }

def subscribe (ring : EventRing) (afterCursor : Nat) : EventBatch :=
  let latest := ring.nextCursor - 1
  let oldest := (ring.events.head?.map GraphEvent.cursor).getD ring.nextCursor
  if afterCursor + 1 < oldest then .resyncRequired oldest latest
  else .events (ring.events.filter fun e => decide (afterCursor < e.cursor)) latest

/-- The ring after events that were published one after the other. -/
def pushAll (ring : EventRing) (events : List (EventSource × GraphEventKind)) : EventRing :=
  events.foldl (fun ring event => ring.push event.1 event.2) ring

end EventRing

/-! ## What a ring holds -/

/-- Of all the events that were published the ring holds the newest, and their cursors count
from one. -/
structure Holds (published : List GraphEvent) (ring : EventRing) : Prop where
  capacity : 0 < ring.eventCapacity
  cursors : published.map GraphEvent.cursor = List.range' 1 published.length
  next : ring.nextCursor = published.length + 1
  newest : ring.events = published.drop (published.length - ring.eventCapacity)

/-- What a reader of the events after a cursor is told. -/
inductive Read (published : List GraphEvent) (ring : EventRing) (afterCursor : Nat) :
    EventBatch → Prop
  | events (kept : ∀ e ∈ published, afterCursor < e.cursor → e ∈ ring.events) :
    Read published ring afterCursor (.events
      (published.filter fun e => decide (afterCursor < e.cursor)) published.length)
  | dropped {event : GraphEvent} (oldest : Nat) (mem : event ∈ published)
    (later : afterCursor < event.cursor) (gone : event ∉ ring.events) :
    Read published ring afterCursor (.resyncRequired oldest published.length)

variable {published : List GraphEvent} {ring : EventRing}

theorem holds_empty {eventCapacity : Nat} (h : 0 < eventCapacity) :
    Holds [] (.empty eventCapacity) := ⟨h, rfl, rfl, List.drop_nil.symm⟩

theorem Holds.push (h : Holds published ring) (source : EventSource) (kind : GraphEventKind) :
    Holds (published ++ [ring.nextEvent source kind]) (ring.push source kind) := by
  refine ⟨h.capacity, ?_, ?_, ?_⟩
  · rw [List.map_append, h.cursors, List.length_append, List.length_singleton,
      List.range'_concat]
    show _ ++ [ring.nextCursor] = _
    rw [h.next, Nat.one_mul, Nat.add_comm]
  · show ring.nextCursor + 1 = _
    rw [h.next, List.length_append, List.length_singleton]
  · show (ring.events ++ [_]).drop _ = _
    have hcapacity := h.capacity
    rw [h.newest, List.length_append, List.length_append, List.length_drop, List.length_singleton]
    show List.drop _ (_ ++ [_]) = (published ++ [_]).drop (_ - ring.eventCapacity)
    by_cases hfull : ring.eventCapacity ≤ published.length
    · rw [List.drop_append_of_le_length (by rw [List.length_drop]; omega), List.drop_drop,
        List.drop_append_of_le_length (by omega)]
      congr 2
      omega
    · have hnone : published.length - ring.eventCapacity = 0 := by omega
      rw [hnone, List.drop_zero]
      rfl

/-- The event of a cursor. -/
theorem Holds.cursor_eq (h : Holds published ring) {i : Nat} (hi : i < published.length) :
    (published[i]).cursor = i + 1 := by
  have hcursor : (published.map GraphEvent.cursor)[i]? = (List.range' 1 published.length)[i]? := by
    rw [h.cursors]
  rw [List.getElem?_map, List.getElem?_eq_getElem hi, List.getElem?_range' hi] at hcursor
  have hcursor := Option.some.inj hcursor
  omega

theorem Holds.mem_events (h : Holds published ring) {e : GraphEvent} (he : e ∈ published) :
    e ∈ ring.events ↔ published.length - ring.eventCapacity < e.cursor := by
  obtain ⟨i, hi, rfl⟩ := List.getElem_of_mem he
  rw [h.cursor_eq hi, h.newest, List.mem_drop_iff_getElem]
  constructor
  · intro ⟨j, hj, heq⟩
    have hcursor := congrArg GraphEvent.cursor heq
    rw [h.cursor_eq hi, h.cursor_eq (by omega)] at hcursor
    omega
  · intro hlt
    refine ⟨i - (published.length - ring.eventCapacity), by omega, ?_⟩
    congr 1
    omega

/-- A reader gets exactly the later events, or is told that one of them was dropped. -/
theorem Holds.subscribe (h : Holds published ring) (afterCursor : Nat) :
    Read published ring afterCursor (ring.subscribe afterCursor) := by
  have hlatest : ring.nextCursor - 1 = published.length := by
    rw [h.next]
    rfl
  have hcapacity := h.capacity
  have holdest : (ring.events.head?.map GraphEvent.cursor).getD ring.nextCursor =
      published.length - ring.eventCapacity + 1 := by
    rw [h.newest, List.head?_drop]
    by_cases hsome : published.length - ring.eventCapacity < published.length
    · rw [List.getElem?_eq_getElem hsome, Option.map_some, Option.getD_some, h.cursor_eq hsome]
    · rw [List.getElem?_eq_none (by omega), Option.map_none, Option.getD_none, h.next]
      omega
  unfold EventRing.subscribe
  rw [hlatest, holdest]
  dsimp only
  by_cases hdropped : afterCursor + 1 < published.length - ring.eventCapacity + 1
  · rw [if_pos hdropped]
    have hi : afterCursor < published.length := by omega
    refine .dropped _ (List.getElem_mem hi) ?_ fun hmem => ?_
    · rw [h.cursor_eq hi]
      exact Nat.lt_succ_self _
    · have hlt := (h.mem_events (List.getElem_mem hi)).mp hmem
      rw [h.cursor_eq hi] at hlt
      omega
  · rw [if_neg hdropped]
    have hkept (e : GraphEvent) (he : e ∈ published) (hlt : afterCursor < e.cursor) :
        e ∈ ring.events := (h.mem_events he).mpr (by omega)
    have hold : (published.take (published.length - ring.eventCapacity)).filter
        (fun e => decide (afterCursor < e.cursor)) = [] := by
      refine List.filter_eq_nil_iff.mpr fun e he hlt => ?_
      have hlt := of_decide_eq_true hlt
      obtain ⟨i, hi, rfl⟩ := List.mem_take_iff_getElem.mp he
      rw [h.cursor_eq (by omega)] at hlt
      omega
    have hsplit : published.filter (fun e => decide (afterCursor < e.cursor)) =
        ring.events.filter fun e => decide (afterCursor < e.cursor) := by
      rw [h.newest]
      conv_lhs => rw [← List.take_append_drop (published.length - ring.eventCapacity) published,
        List.filter_append, hold, List.nil_append]
    rw [← hsplit]
    exact .events hkept

/-- The events with their cursors. -/
def publishedEvents (events : List (EventSource × GraphEventKind)) : List GraphEvent :=
  (events.zipIdx 1).map fun e => ⟨e.2, e.1.1, e.1.2⟩

theorem holds_pushAll {eventCapacity : Nat} (h : 0 < eventCapacity)
    (events : List (EventSource × GraphEventKind)) :
    Holds (publishedEvents events) ((EventRing.empty eventCapacity).pushAll events) := by
  induction events using List.reverseRecOn with
  | nil => exact holds_empty h
  | append_singleton events event ih =>
    have hnext := ih.next
    unfold publishedEvents at hnext
    rw [List.length_map, List.length_zipIdx] at hnext
    have hsplit : publishedEvents (events ++ [event]) = publishedEvents events ++
        [((EventRing.empty eventCapacity).pushAll events).nextEvent event.1 event.2] := by
      unfold publishedEvents EventRing.nextEvent
      rw [List.zipIdx_append, List.map_append, hnext, Nat.add_comm events.length]
      rfl
    have hpush : (EventRing.empty eventCapacity).pushAll (events ++ [event]) =
        ((EventRing.empty eventCapacity).pushAll events).push event.1 event.2 :=
      List.foldl_concat ..
    rw [hsplit, hpush]
    exact ih.push event.1 event.2

/-- Whatever was published, a reader at any cursor gets the later events or is told to read
everything again. -/
theorem read_subscribe {eventCapacity : Nat} (h : 0 < eventCapacity)
    (events : List (EventSource × GraphEventKind)) (afterCursor : Nat) :
    Read (publishedEvents events) ((EventRing.empty eventCapacity).pushAll events) afterCursor
      (((EventRing.empty eventCapacity).pushAll events).subscribe afterCursor) :=
  (holds_pushAll h events).subscribe afterCursor

end Neoseq.Runtime
