import Mathlib.Data.List.TakeWhile
import MyLearning.Lib.Checked

/-!
# Strings that end at a NUL

A `char*` gives the memory from a position on. The string there is what comes before the first NUL; reading
on where there is none leaves the object. A view is a position with a size, and what follows the view in
memory is behind it.
-/

namespace MyLearning.CString

def nul : Char := Char.ofNat 0

def text (mem : List Char) : List Char := mem.takeWhile fun c => c ≠ nul

/-- What a function is given that takes a string by its address. -/
def read (mem : List Char) : Except Fault (List Char) := if nul ∈ mem then .ok (text mem) else .error .bounds

def strchr (mem : List Char) (c : Char) : Except Fault Bool := do
  let str ← read mem
  return decide (c ∈ str)

/-- `std::string_view`: the memory from `data()` on, and the size. -/
structure View where
  data : List Char
  size : Nat

def View.within (s t : List Char) : View := ⟨s ++ t ++ [nul], s.length⟩

def View.ofCString (s : List Char) : View := ⟨s ++ [nul], (text s).length⟩

theorem text_terminated (s : List Char) : text (s ++ [nul]) = text s := by
  induction s with
  | nil => simp [text]
  | cons c s ih =>
    by_cases hc : c = nul
    · simp [text, hc]
    · simpa [text, hc] using ih

theorem read_terminated (s : List Char) : read (s ++ [nul]) = .ok (text s) := by
  rw [read, if_pos (by simp), text_terminated]

/-! ## What follows a string -/

/-- The string ends before `t` begins. -/
def Ends (s t : List Char) : Prop := nul ∈ s ∨ t = [] ∨ t.head? = some nul

instance (s t : List Char) : Decidable (Ends s t) :=
  inferInstanceAs (Decidable (nul ∈ s ∨ t = [] ∨ t.head? = some nul))

theorem text_nil_iff {t : List Char} : text t = [] ↔ t = [] ∨ t.head? = some nul := by
  cases t with
  | nil => simp [text]
  | cons c t => by_cases hc : c = nul <;> simp [text, hc]

theorem text_append_iff (s t : List Char) : text (s ++ t) = text s ↔ Ends s t := by
  induction s with
  | nil =>
    have hnil : text [] = [] := rfl
    rw [List.nil_append, hnil, text_nil_iff]
    simp [Ends]
  | cons c s ih =>
    by_cases hc : c = nul
    · simp [text, Ends, hc]
    · have hends : Ends (c :: s) t ↔ Ends s t := by simp [Ends, Ne.symm hc]
      rw [hends, ← ih]
      simp [text, hc]

end MyLearning.CString
