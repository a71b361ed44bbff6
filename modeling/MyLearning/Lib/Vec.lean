import Mathlib.Data.List.Basic
import Mathlib.Data.List.TakeDrop
import Mathlib.Order.Bounds.Basic
import MyLearning.Lib.Checked

/-!
# Vectors

A growable array as the list of its cells. Reading and writing outside the cells
is a `Fault`; moving no cell at all is allowed at any position. `copy` goes from
the first cell to the last, so source and destination may overlap as long as
the destination starts first.
-/

namespace MyLearning.Vec

variable {α : Type*}

def maxSize : Nat := 2 ^ 63 - 1

def resize (v : List α) (n : Nat) (a : α) : Except Fault (List α) :=
  if n ≤ maxSize then .ok (v.take n ++ List.replicate (n - v.length) a) else .error .lengthError

def load (v : List α) (pos len : Nat) : Except Fault (List α) :=
  if len = 0 ∨ pos + len ≤ v.length then .ok ((v.drop pos).take len) else .error .bounds

def store (v : List α) (pos : Nat) : List α → Except Fault (List α)
  | [] => .ok v
  | a :: data => if pos < v.length then store (v.set pos a) (pos + 1) data else .error .bounds

def copy (v : List α) (src dst : Nat) : Nat → Except Fault (List α)
  | 0 => .ok v
  | n + 1 =>
    match v[src]? with
    | some a => if dst < v.length then copy (v.set dst a) (src + 1) (dst + 1) n else .error .bounds
    | none => .error .bounds

theorem resize_eq_ok {v v' : List α} {n : Nat} {a : α} :
    resize v n a = .ok v' ↔ n ≤ maxSize ∧ v.take n ++ List.replicate (n - v.length) a = v' := by
  unfold resize; split <;> simp_all

theorem resize_error {v : List α} {n : Nat} {a : α} {f : Fault} (h : resize v n a = .error f) : maxSize < n := by
  unfold resize at h
  split at h
  · cases h
  · exact not_le.mp ‹_›

theorem load_eq {v : List α} {pos len : Nat} (h : len = 0 ∨ pos + len ≤ v.length) :
    load v pos len = .ok ((v.drop pos).take len) := if_pos h

/-! ## Writing -/

theorem take_set_succ {v : List α} {pos : Nat} {a : α} (h : pos < v.length) :
    (v.set pos a).take (pos + 1) = v.take pos ++ [a] := by
  rw [List.take_add_one, List.take_set_of_le (le_refl _), List.getElem?_set_self h]
  rfl

theorem store_eq : ∀ {data v : List α} {pos : Nat}, pos + data.length ≤ v.length →
    store v pos data = .ok (v.take pos ++ data ++ v.drop (pos + data.length))
  | [], v, pos, _ => by simp [store]
  | a :: data, v, pos, h => by
    rw [List.length_cons] at h
    have hp : pos < v.length := by omega
    rw [store, if_pos hp, store_eq (by rw [List.length_set]; omega), take_set_succ hp,
      List.drop_set_of_lt (by omega)]
    simp [Nat.add_comm, Nat.add_left_comm]

theorem store_le : ∀ {data v v' : List α} {pos : Nat}, store v pos data = .ok v' →
    data = [] ∨ pos + data.length ≤ v.length
  | [], _, _, _, _ => .inl rfl
  | a :: data, v, v', pos, h => by
    right
    rw [store] at h
    split at h
    · rename_i hp
      rcases store_le h with rfl | hl
      · exact hp
      · simp only [List.length_set, List.length_cons] at hl ⊢
        omega
    · cases h

theorem length_store : ∀ {data v v' : List α} {pos : Nat}, store v pos data = .ok v' → v'.length = v.length
  | [], _, _, _, h => by cases h; rfl
  | a :: data, v, v', pos, h => by
    rw [store] at h
    split at h
    · rw [length_store h, List.length_set]
    · cases h

/-! ## Copying to the front -/

theorem copy_eq : ∀ {n : Nat} {v : List α} {src dst : Nat}, dst ≤ src → src + n ≤ v.length →
    copy v src dst n = .ok (v.take dst ++ (v.drop src).take n ++ v.drop (dst + n))
  | 0, v, src, dst, _, _ => by simp [copy]
  | n + 1, v, src, dst, hd, hn => by
    have hs : src < v.length := by omega
    have hdst : dst < v.length := by omega
    have hc : (v.drop src).take (n + 1) = v[src] :: (v.drop (src + 1)).take n := by
      rw [List.drop_eq_getElem_cons hs, List.take_succ_cons]
    rw [copy, List.getElem?_eq_getElem hs]
    simp only [hdst, if_true]
    rw [copy_eq (by omega) (by rw [List.length_set]; omega), take_set_succ hdst, hc,
      List.drop_set_of_lt (by omega), List.drop_set_of_lt (by omega)]
    simp [Nat.add_comm, Nat.add_left_comm]

theorem length_copy : ∀ {n : Nat} {v v' : List α} {src dst : Nat}, copy v src dst n = .ok v' → v'.length = v.length
  | 0, _, _, _, _, h => by cases h; rfl
  | n + 1, v, v', src, dst, h => by
    rw [copy] at h
    split at h
    · split at h
      · rw [length_copy h, List.length_set]
      · cases h
    · cases h

theorem copy_error : ∀ {n : Nat} {v : List α} {src dst : Nat} {f : Fault}, copy v src dst n = .error f → f = .bounds
  | 0, _, _, _, _, h => by cases h
  | n + 1, v, src, dst, f, h => by
    rw [copy] at h
    split at h
    · split at h
      · exact copy_error h
      · cases h; rfl
    · cases h; rfl

/-! ## Searching -/

section
variable {α : Type} [DecidableEq α] {pat : List α}

def firstAt (pat : List α) : List α → Option Nat
  | [] => if pat.isPrefixOf [] then some 0 else none
  | a :: l => if pat.isPrefixOf (a :: l) then some 0 else (firstAt pat l).map (· + 1)

/-- `std::search` of `pat` in the cells from `first` up to `last`, which is the result where
`pat` is not among them. -/
def search (v : List α) (first last : Nat) (pat : List α) : Except Fault Nat := do
  let cells ← load v first (last - first)
  match firstAt pat cells with
  | some i => return first + i
  | none => return last

theorem firstAt_none : ∀ {l : List α}, firstAt pat l = none → ∀ i, ¬ pat <+: l.drop i
  | [], h, i => by
    by_cases hp : pat.isPrefixOf []
    · simp [firstAt, hp] at h
    · rwa [List.drop_nil, ← List.isPrefixOf_iff_prefix]
  | a :: l, h, i => by
    by_cases hp : pat.isPrefixOf (a :: l)
    · simp [firstAt, hp] at h
    · simp only [firstAt, hp] at h
      cases i with
      | zero => rwa [List.drop_zero, ← List.isPrefixOf_iff_prefix]
      | succ i => exact firstAt_none (by simpa using h) i

theorem firstAt_least : ∀ {l : List α} {i : Nat}, firstAt pat l = some i → IsLeast {j | pat <+: l.drop j} i
  | [], i, h => by
    by_cases hp : pat.isPrefixOf []
    · simp only [firstAt, hp, if_true, Option.some.injEq] at h
      subst h
      exact ⟨by simpa using hp, fun j _ => Nat.zero_le j⟩
    · simp [firstAt, hp] at h
  | a :: l, i, h => by
    by_cases hp : pat.isPrefixOf (a :: l)
    · simp only [firstAt, hp, if_true, Option.some.injEq] at h
      subst h
      exact ⟨List.isPrefixOf_iff_prefix.mp hp, fun j _ => Nat.zero_le j⟩
    · simp only [firstAt, hp] at h
      obtain ⟨k, hk, rfl⟩ := Option.map_eq_some_iff.mp h
      obtain ⟨hocc, hleast⟩ := firstAt_least hk
      refine ⟨hocc, ?_⟩
      intro j hj
      cases j with
      | zero => exact absurd (List.isPrefixOf_iff_prefix.mpr hj) hp
      | succ j => exact Nat.succ_le_succ (hleast hj)

theorem search_spec {v : List α} {first last : Nat} (pat : List α) (hle : first ≤ last) (hlast : last ≤ v.length) :
    ∃ r, search v first last pat = .ok r ∧
      ((r = last ∧ ∀ p, first ≤ p → ¬ pat <+: (v.take last).drop p) ∨
        IsLeast {p | first ≤ p ∧ pat <+: (v.take last).drop p} r) := by
  unfold search
  rw [load_eq (.inr (by omega)), ← List.drop_take, ok_bind]
  have hshift : ∀ i, ((v.take last).drop first).drop i = (v.take last).drop (first + i) := fun i => List.drop_drop
  cases hf : firstAt pat ((v.take last).drop first) with
  | none =>
    refine ⟨last, rfl, .inl ⟨rfl, ?_⟩⟩
    intro p hp
    have hnot := firstAt_none hf (p - first)
    rwa [hshift, Nat.add_sub_cancel' hp] at hnot
  | some i =>
    obtain ⟨hocc, hleast⟩ := firstAt_least hf
    refine ⟨first + i, rfl, .inr ⟨⟨Nat.le_add_right .., ?_⟩, ?_⟩⟩
    · exact hshift i ▸ hocc
    · intro p hp
      have hp' : p - first ∈ {j | pat <+: ((v.take last).drop first).drop j} := by
        rw [Set.mem_ofPred_eq, hshift, Nat.add_sub_cancel' hp.1]
        exact hp.2
      have hi := hleast hp'
      have hfirst := hp.1
      omega

end

end MyLearning.Vec
