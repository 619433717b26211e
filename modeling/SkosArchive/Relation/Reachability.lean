namespace SkosArchive

variable {α ε : Type} [DecidableEq α]

/-- What is reached from the start in any number of steps of `next`. -/
inductive Reachable (next : α → Except ε (List α)) (start : α) : α → Prop where
  | refl : Reachable next start start
  | step {a b : α} {l : List α} :
    Reachable next start a → next a = .ok l → b ∈ l → Reachable next start b

namespace Reachable

/-- A search, breadth first: takes the front of the queue, and appends to queue
and visited what it leads to and was not visited. At most `fuel` members of the
queue are taken. -/
def explore (next : α → Except ε (List α)) :
    (fuel : Nat) → (queue visited : List α) → Except ε (List α)
  | 0, _, visited => .ok visited
  | _ + 1, [], visited => .ok visited
  | fuel + 1, a :: queue, visited => do
    let found ← next a
    let fresh := found.eraseDups.filter fun b => b ∉ visited
    explore next fuel (queue ++ fresh) (visited ++ fresh)

/-- All that is reached from `start`, if no more than `fuel` are. -/
def from? (next : α → Except ε (List α)) (fuel : Nat) (start : α) : Except ε (List α) :=
  explore next fuel [start] [start]

end Reachable

end SkosArchive
