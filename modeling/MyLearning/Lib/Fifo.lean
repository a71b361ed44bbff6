import Mathlib.Data.List.Basic
import Mathlib.Order.Nat
import Mathlib.Tactic.Basic

/-!
# Queues

A first-in first-out queue as everything ever put in and the number of elements
taken out again; its content is the rest.
-/

namespace MyLearning

structure Fifo (α : Type*) where
  put : List α
  taken : Nat
  le : taken ≤ put.length

namespace Fifo

variable {α : Type*}

def empty : Fifo α := ⟨[], 0, le_refl _⟩

def content (q : Fifo α) : List α := q.put.drop q.taken

def push (q : Fifo α) (l : List α) : Fifo α :=
  ⟨q.put ++ l, q.taken, le_trans q.le (by simp)⟩

def pop (q : Fifo α) (n : Nat) : Fifo α := ⟨q.put, min (q.taken + n) q.put.length, min_le_right _ _⟩

def clear (q : Fifo α) : Fifo α := ⟨q.put, q.put.length, le_refl _⟩

@[simp] theorem content_empty : (empty : Fifo α).content = [] := rfl

@[simp] theorem content_push (q : Fifo α) (l : List α) : (q.push l).content = q.content ++ l :=
  List.drop_append_of_le_length q.le

@[simp] theorem content_pop (q : Fifo α) (n : Nat) : (q.pop n).content = q.content.drop n := by
  show q.put.drop (min (q.taken + n) q.put.length) = (q.put.drop q.taken).drop n
  rw [List.drop_drop]
  rcases le_total (q.taken + n) q.put.length with h | h
  · rw [min_eq_left h]
  · rw [min_eq_right h, List.drop_length, List.drop_eq_nil_of_le h]

@[simp] theorem content_clear (q : Fifo α) : q.clear.content = [] := List.drop_length

end Fifo

end MyLearning
