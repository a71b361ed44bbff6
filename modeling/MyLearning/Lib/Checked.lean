import Mathlib.Data.Rat.Floor
import Mathlib.Logic.Function.Basic
import Mathlib.Tactic.Basic

/-!
# Code that can fail

A piece of code that aborts on a failed assertion or with a fatal message, uses a
freed object, leaves the range of a signed type or the bounds of an array, or asks
for more memory than there can be, ends in a `Fault`; what it computes otherwise
is an `Except Fault`. A heap maps addresses to the objects that live there.
-/

namespace MyLearning

universe u v

inductive Fault where
  | assertion
  | fatal
  | dangling
  | overflow
  | bounds
  | lengthError
  deriving DecidableEq, Repr

/-! ## Results of code that can fail -/

theorem bind_eq_ok {ε : Type u} {α β : Type v} {x : Except ε α} {f : α → Except ε β} {b : β} :
    (x >>= f) = .ok b ↔ ∃ a, x = .ok a ∧ f a = .ok b := by
  constructor
  · intro h
    cases x with
    | error e => cases h
    | ok a => exact ⟨a, rfl, h⟩
  · intro ⟨a, hx, hf⟩
    rw [hx]; exact hf

theorem bind_eq_error {ε : Type u} {α β : Type v} {x : Except ε α} {f : α → Except ε β} {e : ε} :
    (x >>= f) = .error e ↔ x = .error e ∨ ∃ a, x = .ok a ∧ f a = .error e := by
  constructor
  · intro h
    cases x with
    | error e' => cases h; exact .inl rfl
    | ok a => exact .inr ⟨a, rfl, h⟩
  · intro h
    rcases h with hx | ⟨a, hx, hf⟩
    · rw [hx]; rfl
    · rw [hx]; exact hf

theorem map_eq_ok {ε α β : Type*} {x : Except ε α} {f : α → β} {b : β} :
    x.map f = .ok b ↔ ∃ a, x = .ok a ∧ f a = b := by
  constructor
  · intro h
    cases x with
    | error e => cases h
    | ok a => cases h; exact ⟨a, rfl, rfl⟩
  · intro ⟨a, hx, hf⟩
    rw [hx, ← hf]; rfl

theorem map_eq_error {ε α β : Type*} {x : Except ε α} {f : α → β} {e : ε} (h : x.map f = .error e) : x = .error e := by
  cases x with
  | error e' => cases h; rfl
  | ok a => cases h

@[simp] theorem ok_bind {ε : Type u} {α β : Type v} (a : α) (f : α → Except ε β) : ((.ok a : Except ε α) >>= f) = f a := rfl

@[simp] theorem error_bind {ε : Type u} {α β : Type v} (e : ε) (f : α → Except ε β) :
    ((.error e : Except ε α) >>= f) = .error e := rfl

@[simp] theorem pure_eq_ok {ε α : Type*} (a : α) : (pure a : Except ε α) = .ok a := rfl

def check (p : Prop) [Decidable p] : Except Fault Unit := if p then .ok () else .error .assertion

@[simp] theorem check_eq_ok {p : Prop} [Decidable p] : check p = .ok () ↔ p := by
  unfold check; split <;> simp_all

theorem check_neg {p : Prop} [Decidable p] (h : ¬ p) : check p = .error .assertion := if_neg h

theorem check_error {p : Prop} [Decidable p] {f : Fault} (h : check p = .error f) : f = .assertion := by
  unfold check at h; split at h <;> simp_all

theorem check_pos {p : Prop} [Decidable p] (h : p) : check p = .ok () := if_pos h

@[simp] theorem check_true : check True = .ok () := rfl

theorem check_bind_error {α : Type} {p : Prop} [Decidable p] {f : Unit → Except Fault α} (h : ¬ p) :
    (check p >>= f) = .error .assertion := by
  rw [check_neg h, error_bind]

theorem check_bind_eq_ok {α : Type} {p : Prop} [Decidable p] {f : Unit → Except Fault α} {b : α} :
    (check p >>= f) = .ok b ↔ p ∧ f () = .ok b := by
  by_cases hp : p
  · rw [check_pos hp, ok_bind]
    simp [hp]
  · rw [check, if_neg hp]
    simp [hp, bind, Except.bind]

/-! ## One fault left -/

/-- The code succeeds with a result in `P`, or it ends in the fault `e`. -/
def Yields {α : Type v} (e : Fault) (P : α → Prop) (x : Except Fault α) : Prop :=
  (∃ a, x = .ok a ∧ P a) ∨ x = .error e

theorem Yields.ok {α : Type v} {e : Fault} {P : α → Prop} {a : α} (h : P a) : Yields e P (.ok a) := .inl ⟨a, rfl, h⟩

theorem Yields.bind {α β : Type v} {e : Fault} {P : α → Prop} {Q : β → Prop} {x : Except Fault α}
    {f : α → Except Fault β} (hx : Yields e P x) (hf : ∀ a, P a → Yields e Q (f a)) : Yields e Q (x >>= f) := by
  rcases hx with ⟨a, rfl, ha⟩ | rfl
  · exact hf a ha
  · exact .inr rfl

theorem Yields.check_bind {α : Type} {e : Fault} {p : Prop} [Decidable p] {Q : α → Prop} {f : Unit → Except Fault α}
    (hp : p) (hf : Yields e Q (f ())) : Yields e Q (check p >>= f) := by
  rw [check_pos hp]; exact hf

theorem Yields.error {α : Type v} {e f : Fault} {P : α → Prop} {x : Except Fault α} (h : Yields e P x)
    (hx : x = .error f) : f = e := by
  subst hx
  rcases h with ⟨a, ha, -⟩ | h
  · cases ha
  · cases h; rfl

theorem Yields.post {α : Type v} {e : Fault} {P : α → Prop} {x : Except Fault α} {a : α} (h : Yields e P x)
    (hx : x = .ok a) : P a := by
  subst hx
  rcases h with ⟨b, hb, hP⟩ | h
  · cases hb; exact hP
  · cases h

/-! ## Signed integers -/

/-- A signed 64-bit result: leaving the range is undefined. -/
def int64 (x : Int) : Except Fault Int := if -2 ^ 63 ≤ x ∧ x < 2 ^ 63 then .ok x else .error .overflow

def int32 (x : Int) : Except Fault Int := if -2 ^ 31 ≤ x ∧ x < 2 ^ 31 then .ok x else .error .overflow

def sizeT (x : Int) : Nat := (x % 2 ^ 64).toNat

theorem sizeT_natCast {n : Nat} (h : n < 2 ^ 64) : sizeT n = n := by unfold sizeT; omega

theorem sizeT_sub {m n : Nat} (h : n ≤ m) (hm : m < 2 ^ 64) : sizeT (m - n) = m - n := by unfold sizeT; omega

def truncate (x : ℚ) : Int := if 0 ≤ x then ⌊x⌋ else ⌈x⌉

def toInt32 (x : ℚ) : Except Fault Int := int32 (truncate x)

theorem int64_eq_ok {x y : Int} : int64 x = .ok y ↔ (-2 ^ 63 ≤ x ∧ x < 2 ^ 63) ∧ x = y := by
  unfold int64; split <;> simp_all

theorem int64_error {x : Int} {f : Fault} (h : int64 x = .error f) : f = .overflow := by
  unfold int64 at h; split at h <;> simp_all

theorem int32_eq_ok {x y : Int} : int32 x = .ok y ↔ (-2 ^ 31 ≤ x ∧ x < 2 ^ 31) ∧ x = y := by
  unfold int32; split <;> simp_all

theorem int32_error {x : Int} {f : Fault} (h : int32 x = .error f) : f = .overflow := by
  unfold int32 at h; split at h <;> simp_all

theorem truncate_nonneg {x : ℚ} (hx : 0 ≤ x) : 0 ≤ truncate x := by
  unfold truncate; rw [if_pos hx]; exact Int.floor_nonneg.mpr hx

/-! ## Heaps -/

theorem update_some {α β : Type*} [DecidableEq α] {f : α → Option β} {a b : α} {x : Option β} {y : β}
    (h : Function.update f a x b = some y) : (b = a ∧ x = some y) ∨ (b ≠ a ∧ f b = some y) := by
  by_cases hb : b = a
  · subst hb; rw [Function.update_self] at h; exact .inl ⟨rfl, h⟩
  · rw [Function.update_of_ne hb] at h; exact .inr ⟨hb, h⟩

abbrev Addr := Nat

def uintptrMax : Addr := 2 ^ 64 - 1

abbrev Heap (α : Type*) := Addr → Option α

namespace Heap

variable {α : Type*}

def deref (h : Heap α) (p : Addr) : Except Fault α :=
  match h p with
  | some a => .ok a
  | none => .error .dangling

def write (h : Heap α) (p : Addr) (a : α) : Heap α := Function.update h p (some a)

/-- `delete p`: freeing an object that is not live is an error. -/
def free (h : Heap α) (p : Addr) : Except Fault (Heap α) :=
  match h p with
  | some _ => .ok (Function.update h p none)
  | none => .error .dangling

theorem deref_some {h : Heap α} {p : Addr} {a : α} (hp : h p = some a) : h.deref p = .ok a := by
  unfold deref; rw [hp]

theorem free_some {h : Heap α} {p : Addr} {a : α} (hp : h p = some a) :
    h.free p = .ok (Function.update h p none) := by
  unfold free; rw [hp]

theorem deref_eq_ok {h : Heap α} {p : Addr} {a : α} (hd : h.deref p = .ok a) : h p = some a := by
  unfold deref at hd
  split at hd
  · rename_i hp
    cases hd
    exact hp
  · cases hd

theorem free_eq_ok {h h' : Heap α} {p : Addr} (hf : h.free p = .ok h') : h' = Function.update h p none := by
  unfold free at hf
  split at hf <;> cases hf
  rfl

theorem deref_error {h : Heap α} {p : Addr} {f : Fault} (hd : h.deref p = .error f) : f = .dangling := by
  unfold deref at hd
  split at hd
  · cases hd
  · cases hd
    rfl

theorem free_error {h : Heap α} {p : Addr} {f : Fault} (hf : h.free p = .error f) : f = .dangling := by
  unfold free at hf
  split at hf
  · cases hf
  · cases hf
    rfl

@[simp] theorem write_self (h : Heap α) (p : Addr) (a : α) : h.write p a p = some a := Function.update_self ..

end Heap

end MyLearning
