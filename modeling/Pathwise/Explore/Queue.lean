/-!
# First in, first out

A queue in two lists: what comes out next, and, in reverse, what went in last.
-/

namespace Pathwise

/-- A queue. -/
structure Queue (α : Type) where
  /-- The items that come out next. -/
  front : List α
  /-- The items that come out after them, the last one first. -/
  back : List α

namespace Queue

variable {α : Type}

/-- The queue without items. -/
def empty : Queue α := ⟨[], []⟩

/-- The items in the order in which they come out. -/
def toList (q : Queue α) : List α := q.front ++ q.back.reverse

/-- Puts an item in. -/
def push (q : Queue α) (a : α) : Queue α := { q with back := a :: q.back }

/-- Takes the next item out. -/
def pop? (q : Queue α) : Option (α × Queue α) :=
  match q.front with
  | a :: rest => some (a, { q with front := rest })
  | [] =>
    match q.back.reverse with
    | a :: rest => some (a, ⟨rest, []⟩)
    | [] => none

@[simp]
theorem toList_empty : (empty : Queue α).toList = [] := rfl

@[simp]
theorem toList_push (q : Queue α) (a : α) : (q.push a).toList = q.toList ++ [a] := by
  simp [push, toList]

/-- What comes out is the first item, and the rest stays in order. -/
theorem toList_of_pop? {q rest : Queue α} {a : α} (h : q.pop? = some (a, rest)) :
    q.toList = a :: rest.toList := by
  obtain ⟨front, back⟩ := q
  cases front with
  | cons b front =>
    simp only [pop?, Option.some.injEq, Prod.mk.injEq] at h
    obtain ⟨rfl, rfl⟩ := h
    rfl
  | nil =>
    cases hback : back.reverse with
    | nil => simp [pop?, hback] at h
    | cons b items =>
      simp only [pop?, hback, Option.some.injEq, Prod.mk.injEq] at h
      obtain ⟨rfl, rfl⟩ := h
      simp [toList, hback]

/-- A queue out of which nothing comes is empty. -/
theorem toList_eq_nil_of_pop? {q : Queue α} (h : q.pop? = none) : q.toList = [] := by
  obtain ⟨front, back⟩ := q
  cases front with
  | cons b front => cases h
  | nil =>
    cases hback : back.reverse with
    | nil => simp [toList, hback]
    | cons b items => simp [pop?, hback] at h

end Queue

end Pathwise
