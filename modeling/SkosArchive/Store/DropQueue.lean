import SkosArchive.Store.Connection

namespace SkosArchive

/-- Graphs to be dropped together, each once, in the order of their first
queueing. -/
structure DropQueue where
  pending : List Iri
  nodup : pending.Nodup

namespace DropQueue

instance : DecidableEq DropQueue := fun s t =>
  if h : s.pending = t.pending then
    isTrue (by cases s; cases t; cases h; rfl)
  else isFalse (fun e => h (e ▸ rfl))

def empty : DropQueue := ⟨[], .nil⟩

def size (q : DropQueue) : Nat := q.pending.length

def isEmpty (q : DropQueue) : Bool := q.pending.isEmpty

def enqueue (q : DropQueue) (graph : Iri) : DropQueue :=
  if h : graph ∈ q.pending then q
  else ⟨q.pending ++ [graph], List.nodup_append.2
    ⟨q.nodup, List.pairwise_singleton _ _, fun _ ha _ hb e =>
      h (List.mem_singleton.1 hb ▸ e ▸ ha)⟩⟩

def enqueueAll (q : DropQueue) (graphs : List Iri) : DropQueue := graphs.foldl enqueue q

/-- Takes all that is pending off the queue and drops it in one step: the number
of graphs and the store without them, and the queue after that. If the step
fails the graphs are queued again. An empty queue makes no call. -/
def flush (q : DropQueue) (c : Connection) : Except StorageError (Nat × Store) × DropQueue :=
  if q.isEmpty then (.ok (0, c.store), empty)
  else
    match c.apply (q.pending.map Update.dropGraph) with
    | .ok s => (.ok (q.size, s), empty)
    | .error e => (.error e, empty.enqueueAll q.pending)

/-- How many periods of `period` milliseconds end in the time from `start` on
up to `stop`. -/
def flushesDue (period start stop : Nat) : Nat := stop / period - start / period

end DropQueue

end SkosArchive
