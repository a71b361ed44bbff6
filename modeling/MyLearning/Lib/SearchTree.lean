import Mathlib.Data.List.Nodup
import Mathlib.Data.List.Perm.Basic
import Mathlib.Data.Tree.Basic
import Mathlib.Order.Lattice

/-!
# Search trees

Binary trees whose keys increase from left to right: what is left of a node is
smaller, what is right of it is not. A place in a tree is the list of turns that lead
to it, innermost first, and `plug` puts a subtree there; order and traversal of
`plug c t` come apart into those of `c` and `t`. Insertion and removal walk down to a
place and plug something else into it.
-/

namespace MyLearning.SearchTree

open BinaryTree

variable {α κ : Type*}

/-! ## Trees and places -/

def inorder : BinaryTree α → List α
  | .nil => []
  | .node a l r => inorder l ++ a :: inorder r

/-- A turn to the left past `a` and its right subtree, or to the right past its left one. -/
inductive Turn (α : Type*) where
  | left (a : α) (r : BinaryTree α)
  | right (a : α) (l : BinaryTree α)

def plug : List (Turn α) → BinaryTree α → BinaryTree α
  | [], t => t
  | .left a r :: c, t => plug c (.node a t r)
  | .right a l :: c, t => plug c (.node a l t)

def before : List (Turn α) → List α
  | [] => []
  | .left _ _ :: c => before c
  | .right a l :: c => before c ++ (inorder l ++ [a])

def after : List (Turn α) → List α
  | [] => []
  | .left a r :: c => a :: inorder r ++ after c
  | .right _ _ :: c => after c

theorem inorder_plug : ∀ (c : List (Turn α)) (t : BinaryTree α), inorder (plug c t) = before c ++ inorder t ++ after c
  | [], t => by simp [plug, before, after]
  | .left a r :: c, t => by simp [plug, before, after, inorder_plug c, inorder]
  | .right a l :: c, t => by simp [plug, before, after, inorder_plug c, inorder]

def nodes : List (Turn α) → List α
  | [] => []
  | .left a r :: c => a :: (inorder r ++ nodes c)
  | .right a l :: c => a :: (inorder l ++ nodes c)

theorem plug_append : ∀ (c c' : List (Turn α)) (t : BinaryTree α), plug (c ++ c') t = plug c' (plug c t)
  | [], _, _ => rfl
  | .left a r :: c, c', t => plug_append c c' (.node a t r)
  | .right a l :: c, c', t => plug_append c c' (.node a l t)

theorem plug_ne_nil : ∀ {c : List (Turn α)} {t : BinaryTree α}, t ≠ .nil → plug c t ≠ .nil
  | [], _, h => h
  | .left _ _ :: c, _, _ => plug_ne_nil (c := c) (by simp)
  | .right _ _ :: c, _, _ => plug_ne_nil (c := c) (by simp)

theorem plug_cons_ne_nil {x : Turn α} {c : List (Turn α)} {t : BinaryTree α} : plug (x :: c) t ≠ .nil := by
  cases x with
  | left a r => exact plug_ne_nil (c := c) (by simp)
  | right a l => exact plug_ne_nil (c := c) (by simp)

theorem nodes_append : ∀ c c' : List (Turn α), nodes (c ++ c') = nodes c ++ nodes c'
  | [], _ => rfl
  | .left a r :: c, c' => by simp [nodes, nodes_append c]
  | .right a l :: c, c' => by simp [nodes, nodes_append c]

theorem perm_plug : ∀ (c : List (Turn α)) (t : BinaryTree α), (inorder (plug c t)).Perm (inorder t ++ nodes c)
  | [], t => by simp [plug, nodes]
  | .left a r :: c, t => by
    refine (perm_plug c _).trans ?_
    simp [inorder, nodes]
  | .right a l :: c, t => by
    refine (perm_plug c _).trans ?_
    simp only [inorder, nodes]
    rw [List.append_assoc, List.cons_append]
    refine List.perm_middle.trans (List.Perm.trans (.cons _ ?_) List.perm_middle.symm)
    rw [← List.append_assoc, ← List.append_assoc]
    exact List.perm_append_comm.append_right _

/-! ## Order -/

section
variable [LinearOrder κ] (key : α → κ)

def Ordered : BinaryTree α → Prop
  | .nil => True
  | .node a l r => (∀ b ∈ inorder l, key b < key a) ∧ (∀ b ∈ inorder r, key a ≤ key b) ∧ Ordered l ∧ Ordered r

def Fits (x : κ) : List (Turn α) → Prop
  | [] => True
  | .left a _ :: c => x < key a ∧ Fits x c
  | .right a _ :: c => key a ≤ x ∧ Fits x c

variable {key}

theorem ordered_plug : ∀ {c : List (Turn α)} {t : BinaryTree α}, Ordered key (plug c t) ↔
    Ordered key (plug c .nil) ∧ Ordered key t ∧ ∀ b ∈ inorder t, Fits key (key b) c
  | [], t => by simp [plug, Ordered, Fits]
  | .left a r :: c, t => by
    simp only [plug, ordered_plug (c := c) (t := .node _ _ _), Ordered, inorder, Fits, List.mem_append, List.mem_cons,
      List.not_mem_nil, false_or]
    constructor
    · intro h
      obtain ⟨hc, ⟨hl, hr, ht, hor⟩, hb⟩ := h
      exact ⟨⟨hc, ⟨by simp, hr, trivial, hor⟩, fun b h => hb b (.inr h)⟩, ht, fun b h => ⟨hl b h, hb b (.inl h)⟩⟩
    · intro h
      obtain ⟨⟨hc, ⟨-, hr, -, hor⟩, hb⟩, ht, hl⟩ := h
      exact ⟨hc, ⟨fun b h => (hl b h).1, hr, ht, hor⟩, fun b h => h.elim (fun h => (hl b h).2) (hb b)⟩
  | .right a l :: c, t => by
    simp only [plug, ordered_plug (c := c) (t := .node _ _ _), Ordered, inorder, Fits, List.mem_append, List.mem_cons,
      List.not_mem_nil, or_false]
    constructor
    · intro h
      obtain ⟨hc, ⟨hl, hr, hol, ht⟩, hb⟩ := h
      exact ⟨⟨hc, ⟨hl, by simp, hol, trivial⟩, fun b h => hb b (h.imp_right .inl)⟩, ht,
        fun b h => ⟨hr b h, hb b (.inr (.inr h))⟩⟩
    · intro h
      obtain ⟨⟨hc, ⟨hl, -, hol, -⟩, hb⟩, ht, hr⟩ := h
      exact ⟨hc, ⟨hl, fun b h => (hr b h).1, hol, ht⟩,
        fun b h => h.elim (fun h => hb b (.inl h)) fun h => h.elim (fun h => hb b (.inr h)) fun h => (hr b h).2⟩

theorem sorted_inorder : ∀ {t : BinaryTree α}, Ordered key t → (inorder t).Pairwise (fun a b => key a ≤ key b)
  | .nil, _ => List.Pairwise.nil
  | .node a l r, h => by
    obtain ⟨hl, hr, hol, hor⟩ := h
    refine List.pairwise_append.mpr ⟨sorted_inorder hol, List.pairwise_cons.mpr ⟨hr, sorted_inorder hor⟩, ?_⟩
    intro b hb c hc
    rcases List.mem_cons.mp hc with rfl | hc
    · exact (hl b hb).le
    · exact (hl b hb).le.trans (hr c hc)

/-! ## Walking down -/

variable (key)

def locate (x : κ) : List (Turn α) → BinaryTree α → List (Turn α) × BinaryTree α
  | c, .nil => (c, .nil)
  | c, .node a l r =>
    if key a = x then (c, .node a l r)
    else if key a < x then locate x (.right a l :: c) r
    else locate x (.left a r :: c) l

def descend (x : κ) : List (Turn α) → BinaryTree α → List (Turn α)
  | c, .nil => c
  | c, .node a l r => if x < key a then descend x (.left a r :: c) l else descend x (.right a l :: c) r

variable {key}

variable (key) in
theorem plug_locate (x : κ) : ∀ (t : BinaryTree α) (c : List (Turn α)),
    plug (locate key x c t).1 (locate key x c t).2 = plug c t
  | .nil, c => rfl
  | .node a l r, c => by
    unfold locate
    split
    · rfl
    · split
      · exact plug_locate x r _
      · exact plug_locate x l _

theorem plug_descend (x : κ) : ∀ (t : BinaryTree α) (c : List (Turn α)), plug (descend key x c t) .nil = plug c t
  | .nil, c => rfl
  | .node a l r, c => by
    unfold descend
    split
    · exact plug_descend x l _
    · exact plug_descend x r _

theorem fits_descend {x : κ} : ∀ {t : BinaryTree α} {c : List (Turn α)}, Fits key x c → Fits key x (descend key x c t)
  | .nil, _, h => h
  | .node a l r, c, h => by
    unfold descend
    split
    · rename_i hlt
      exact fits_descend ⟨hlt, h⟩
    · rename_i hlt
      exact fits_descend ⟨not_lt.mp hlt, h⟩

theorem locate_key {x : κ} : ∀ {t : BinaryTree α} {c : List (Turn α)} {a : α} {l r : BinaryTree α},
    (locate key x c t).2 = .node a l r → key a = x
  | .nil, _, _, _, _, h => by cases h
  | .node b l' r', c, a, l, r, h => by
    unfold locate at h
    split at h
    · rename_i hb
      cases h
      exact hb
    · split at h <;> exact locate_key h

variable (key) in
theorem height_locate (x : κ) : ∀ (t : BinaryTree α) (c : List (Turn α)), (locate key x c t).2.height ≤ t.height
  | .nil, _ => Nat.le_refl _
  | .node a l r, c => by
    have hl := height_locate x l (.left a r :: c)
    have hr := height_locate x r (.right a l :: c)
    unfold locate
    simp only [height] at *
    split
    · exact Nat.le_refl _
    · split <;> omega

theorem locate_nil {x : κ} : ∀ {t : BinaryTree α} {c : List (Turn α)}, Ordered key t → (locate key x c t).2 = .nil →
    ∀ b ∈ inorder t, key b ≠ x
  | .nil, _, _, _, b, hb => by cases hb
  | .node a l r, c, ho, h, b, hb => by
    obtain ⟨hl, hr, hol, hor⟩ := ho
    unfold locate at h
    split at h
    · cases h
    · rename_i hne
      rcases List.mem_append.mp hb with hb | hb
      · split at h
        · rename_i hlt
          exact ((hl b hb).trans hlt).ne
        · exact locate_nil hol h b hb
      · rcases List.mem_cons.mp hb with rfl | hb
        · exact hne
        · split at h
          · exact locate_nil hor h b hb
          · rename_i hlt
            exact ((lt_of_le_of_ne (not_lt.mp hlt) (Ne.symm hne)).trans_le (hr b hb)).ne'

end

/-! ## Insertion -/

section
variable [LinearOrder κ] (key : α → κ)

def insert (a : α) (t : BinaryTree α) : BinaryTree α := plug (descend key (key a) [] t) (.node a .nil .nil)

variable {key}

theorem ordered_insert {t : BinaryTree α} (h : Ordered key t) (a : α) : Ordered key (insert key a t) := by
  refine ordered_plug.mpr ⟨?_, by simp [Ordered, inorder], ?_⟩
  · rw [plug_descend]
    exact h
  · intro b hb
    have hb : b = a := by simpa [inorder] using hb
    rw [hb]
    exact fits_descend trivial

theorem inorder_insert (a : α) (t : BinaryTree α) : (inorder (insert key a t)).Perm (a :: inorder t) := by
  have ht : inorder t = before (descend key (key a) [] t) ++ after (descend key (key a) [] t) := by
    have h := inorder_plug (descend key (key a) [] t) .nil
    rw [plug_descend] at h
    simpa [inorder, plug] using h
  rw [insert, inorder_plug, ht]
  simp [inorder]

end

/-! ## Removal -/

/-- Down to the leftmost node of `node a l r`: its place, the node, and what is right of it. -/
def leftmost : List (Turn α) → α → BinaryTree α → BinaryTree α → List (Turn α) × α × BinaryTree α
  | c, a, .nil, r => (c, a, r)
  | c, a, .node b l' r', r => leftmost (.left a r :: c) b l' r'

/-- What takes the place of a removed node with these subtrees. -/
def join : BinaryTree α → BinaryTree α → BinaryTree α
  | .nil, r => r
  | l, .nil => l
  | l, .node a l' r' =>
    let (c, m, r'') := leftmost [] a l' r'
    .node m l (plug c r'')

theorem join_node (a b : α) (l r l' r' : BinaryTree α) : join (.node b l r) (.node a l' r') =
    .node (leftmost [] a l' r').2.1 (.node b l r) (plug (leftmost [] a l' r').1 (leftmost [] a l' r').2.2) := rfl

theorem plug_leftmost : ∀ (l : BinaryTree α) (c : List (Turn α)) (a : α) (r : BinaryTree α),
    plug (leftmost c a l r).1 (.node (leftmost c a l r).2.1 .nil (leftmost c a l r).2.2) = plug c (.node a l r)
  | .nil, _, _, _ => rfl
  | .node b l' r', _, _, _ => plug_leftmost l' _ b r'

theorem leftmost_append : ∀ (l : BinaryTree α) (c c' : List (Turn α)) (a : α) (r : BinaryTree α),
    leftmost (c ++ c') a l r = ((leftmost c a l r).1 ++ c', (leftmost c a l r).2)
  | .nil, _, _, _, _ => rfl
  | .node b l' r', c, c', a, r => leftmost_append l' (.left a r :: c) c' b r'

theorem before_leftmost : ∀ (l : BinaryTree α) (c : List (Turn α)) (a : α) (r : BinaryTree α),
    before (leftmost c a l r).1 = before c
  | .nil, _, _, _ => rfl
  | .node b l' r', _, _, _ => before_leftmost l' _ b r'

theorem inorder_leftmost (a : α) (l r : BinaryTree α) : inorder (.node a l r) =
    (leftmost [] a l r).2.1 :: inorder (plug (leftmost [] a l r).1 (leftmost [] a l r).2.2) := by
  have h := congrArg inorder (plug_leftmost l [] a r)
  rw [inorder_plug] at h
  rw [inorder_plug, before_leftmost] at *
  simpa [inorder, before, after, plug] using h.symm

theorem inorder_join : ∀ l r : BinaryTree α, inorder (join l r) = inorder l ++ inorder r
  | .nil, r => rfl
  | .node b l r, .nil => by simp [join, inorder]
  | .node b l r, .node a l' r' => by
    rw [inorder_leftmost a]
    rfl

section
variable [LinearOrder κ] {key : α → κ}

theorem ordered_join {a : α} : ∀ {l r : BinaryTree α}, Ordered key (.node a l r) → Ordered key (join l r)
  | .nil, r, h => h.2.2.2
  | .node b l r, .nil, h => h.2.2.1
  | .node b l r, .node d l' r', h => by
    obtain ⟨hl, hr, hol, hor⟩ := h
    have hsorted := sorted_inorder hor
    rw [inorder_leftmost] at hsorted
    have hmin := (List.pairwise_cons.mp hsorted).1
    have hplug : Ordered key (plug _ _) := (plug_leftmost l' [] d r').symm ▸ (show Ordered key (plug [] _) from hor)
    obtain ⟨hc, ho, hfit⟩ := ordered_plug.mp hplug
    have hm : key a ≤ key (leftmost [] d l' r').2.1 := by
      apply hr
      rw [inorder_leftmost]
      exact List.mem_cons_self ..
    refine ⟨fun b hb => (hl b hb).trans_le hm, hmin, hol, ordered_plug.mpr ⟨hc, ho.2.2.2, fun b hb => hfit b ?_⟩⟩
    simp [inorder, hb]

variable (key)

def remove (x : κ) (t : BinaryTree α) : BinaryTree α :=
  match locate key x [] t with
  | (_, .nil) => t
  | (c, .node _ l r) => plug c (join l r)

variable {key}

theorem remove_of_nil {x : κ} {t : BinaryTree α} (h : (locate key x [] t).2 = .nil) : remove key x t = t := by
  unfold remove
  split
  · rfl
  · rename_i he
    rw [he] at h
    cases h

theorem remove_of_node {x : κ} {t : BinaryTree α} {a : α} {l r : BinaryTree α}
    (h : (locate key x [] t).2 = .node a l r) : remove key x t = plug (locate key x [] t).1 (join l r) := by
  unfold remove
  split
  · rename_i he
    rw [he] at h
    cases h
  · rename_i he
    rw [he] at h
    cases h
    rw [he]

theorem ordered_remove {t : BinaryTree α} (h : Ordered key t) (x : κ) : Ordered key (remove key x t) := by
  have hp := plug_locate key x t []
  unfold remove
  split
  · exact h
  · rename_i c a l r he
    rw [he] at hp
    have hp : plug c (.node a l r) = t := hp
    obtain ⟨hc, ho, hfit⟩ := ordered_plug.mp (hp ▸ h)
    refine ordered_plug.mpr ⟨hc, ordered_join ho, fun b hb => hfit b ?_⟩
    rw [inorder_join] at hb
    simp only [inorder, List.mem_append, List.mem_cons] at hb ⊢
    exact hb.imp_right .inr

theorem inorder_remove_of_node {x : κ} {t : BinaryTree α} {a : α} {l r : BinaryTree α}
    (h : (locate key x [] t).2 = .node a l r) : (inorder t).Perm (a :: inorder (remove key x t)) := by
  have hp := plug_locate key x t []
  rw [h] at hp
  have hp : plug (locate key x [] t).1 (.node a l r) = t := hp
  rw [remove_of_node h, ← congrArg inorder hp, inorder_plug, inorder_plug, inorder_join]
  generalize (locate key x [] t).1 = c
  have hmiddle : ((before c ++ inorder l) ++ a :: (inorder r ++ after c)).Perm
      (a :: ((before c ++ inorder l) ++ (inorder r ++ after c))) := List.perm_middle
  simpa [inorder] using hmiddle

theorem inorder_remove {t : BinaryTree α} (h : Ordered key t) (x : κ) :
    (∃ a, key a = x ∧ (inorder t).Perm (a :: inorder (remove key x t))) ∨
      (∀ b ∈ inorder t, key b ≠ x) ∧ remove key x t = t := by
  cases hloc : (locate key x [] t).2 with
  | nil => exact .inr ⟨locate_nil h hloc, remove_of_nil hloc⟩
  | node a l r => exact .inl ⟨a, locate_key hloc, inorder_remove_of_node hloc⟩

end

end MyLearning.SearchTree
