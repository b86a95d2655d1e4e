/-
First in, first out.

A queue is what it lists: `toList` has the elements in the order in which they leave. The
front is kept as it leaves and the back as it came, the last one first, so that an element
is moved from one to the other only once.
-/
set_option autoImplicit false

namespace Shell

structure Queue (α : Type) where
  /-- The first elements, the next one first. -/
  front : List α := []
  /-- The elements after them, the last one first. -/
  back : List α := []
  deriving Repr, Inhabited

namespace Queue

variable {α : Type}

/-- The elements in the order in which they leave. -/
def toList (q : Queue α) : List α := q.front ++ q.back.reverse

def push (q : Queue α) (a : α) : Queue α := { q with back := a :: q.back }

theorem toList_push (q : Queue α) (a : α) : (q.push a).toList = q.toList ++ [a] := by
  simp [toList, push]

/-- Adds elements in their order. -/
def pushAll (q : Queue α) (as : List α) : Queue α := as.foldl push q

theorem toList_pushAll (q : Queue α) (as : List α) : (q.pushAll as).toList = q.toList ++ as := by
  induction as generalizing q with
  | nil => simp [pushAll]
  | cons a as ih =>
    have h : q.pushAll (a :: as) = (q.push a).pushAll as := rfl
    rw [h, ih, toList_push, List.append_assoc, List.singleton_append]

def isEmpty (q : Queue α) : Bool := q.front.isEmpty && q.back.isEmpty

theorem isEmpty_iff (q : Queue α) : q.isEmpty = true ↔ q.toList = [] := by
  simp [isEmpty, toList]

/-- The next element and the queue after it has left; none if the queue is empty. -/
def next? (q : Queue α) : Option (α × Queue α) :=
  match q.front with
  | a :: front => some (a, { q with front := front })
  | [] =>
    match q.back.reverse with
    | [] => none
    | a :: front => some (a, ⟨front, []⟩)

/-- Taking the next element is taking the head of the list. -/
theorem next?_eq (q : Queue α) :
    q.next?.map (fun r => (r.1, r.2.toList)) = q.toList.head?.map fun a => (a, q.toList.tail) := by
  obtain ⟨front, back⟩ := q
  cases front with
  | cons a front => simp [next?, toList]
  | nil =>
    cases h : back.reverse with
    | nil => simp [next?, toList, h]
    | cons a rest => simp [next?, toList, h]

/-- The elements that satisfy a condition, in their order. -/
def filter (q : Queue α) (p : α → Bool) : Queue α := ⟨q.front.filter p, q.back.filter p⟩

theorem toList_filter (q : Queue α) (p : α → Bool) : (q.filter p).toList = q.toList.filter p := by
  simp [toList, filter, List.filter_append, List.filter_reverse]

def any (q : Queue α) (p : α → Bool) : Bool := q.front.any p || q.back.any p

end Queue

end Shell
