import Mathlib.Data.List.Basic

/-!
# Bounded queues

A queue that has room for `room` entries, and what an implementation of it answers to a sequence
of operations.

* `BoundedQueue.enqueue` fails when there is no room, `BoundedQueue.dequeue` when there is no
  entry.
* `answers push pop q ops` are the answers of a queue with the operations `push` and `pop`.

## Main results

* `answers_eq`: an implementation whose operations commute with a map to another one gives the
  same answers.
-/

namespace Oak.Lib

/-- The entries of a queue, the next one to be read first, and how many it has room for. -/
structure BoundedQueue (α : Type*) where
  room : ℕ
  entries : List α

namespace BoundedQueue

variable {α : Type*}

/-- Put an entry at the end, if there is room. -/
def enqueue (q : BoundedQueue α) (a : α) : Option (BoundedQueue α) :=
  if q.entries.length < q.room then some { q with entries := q.entries ++ [a] } else none

/-- Take the first entry, if there is one. -/
def dequeue (q : BoundedQueue α) : Option (α × BoundedQueue α) :=
  match q.entries with
  | [] => none
  | a :: l => some (a, { q with entries := l })

end BoundedQueue

/-- An operation on a queue. -/
inductive QueueOp (α : Type*)
  | push (a : α)
  | pop

variable {α Q Q' : Type*}

/-- The answers to a sequence of operations: whether a push succeeded, and what a pop returned. -/
def answers (push : Q → α → Option Q) (pop : Q → Option (α × Q)) :
    Q → List (QueueOp α) → List (Bool ⊕ Option α)
  | _, [] => []
  | q, .push a :: ops =>
    match push q a with
    | none => .inl false :: answers push pop q ops
    | some q' => .inl true :: answers push pop q' ops
  | q, .pop :: ops =>
    match pop q with
    | none => .inr none :: answers push pop q ops
    | some (a, q') => .inr (some a) :: answers push pop q' ops

/-- Operations that commute with a map between two queues give the same answers. -/
theorem answers_eq {push : Q → α → Option Q} {pop : Q → Option (α × Q)}
    {push' : Q' → α → Option Q'} {pop' : Q' → Option (α × Q')} {f : Q → Q'}
    (hpush : ∀ q a, (push q a).map f = push' (f q) a)
    (hpop : ∀ q, (pop q).map (Prod.map id f) = pop' (f q)) (q : Q) (ops : List (QueueOp α)) :
    answers push pop q ops = answers push' pop' (f q) ops := by
  induction ops generalizing q with
  | nil => rfl
  | cons op ops ih =>
    cases op with
    | push a =>
      rw [answers, answers, ← hpush]
      rcases push q a with _ | q'
      · exact congrArg _ (ih q)
      · exact congrArg _ (ih q')
    | pop =>
      rw [answers, answers, ← hpop]
      rcases pop q with _ | ⟨a, q'⟩
      · exact congrArg _ (ih q)
      · exact congrArg _ (ih q')

end Oak.Lib
