import MyLearning.Alog.BinarySearchTree
import MyLearning.Lib.SearchTree

/-!
# Trees on the heap

`IsTree h p par t` says that `p` points to the tree `t` on the heap, whose root has the
parent `par`; the labels of `t` are the addresses and keys of its nodes. `IsPlace` says
the same of a tree with an empty place: the pointer there is `p` and the node above it
`par`. Both depend on nothing but their own nodes, and the two pointers through which
`transplant` goes change one of them each.
-/

namespace MyLearning.BinarySearchTree

open SearchTree

abbrev Label := Addr × Int

abbrev Tree := BinaryTree Label

def key (x : Label) : Int := x.2

def IsTree (h : Heap TreeNode) : Option Addr → Option Addr → Tree → Prop
  | p, _, .nil => p = none
  | p, par, .node (a, k) l r => p = some a ∧ ∃ lp rp, h a = some ⟨lp, rp, par, k⟩ ∧
      IsTree h lp (some a) l ∧ IsTree h rp (some a) r

def IsPlace (h : Heap TreeNode) (root : Option Addr) : Option Addr → Option Addr → List (Turn Label) → Prop
  | p, par, [] => p = root ∧ par = none
  | p, par, .left (a, k) r :: c => par = some a ∧ ∃ rp gp, h a = some ⟨p, rp, gp, k⟩ ∧
      IsTree h rp (some a) r ∧ IsPlace h root (some a) gp c
  | p, par, .right (a, k) l :: c => par = some a ∧ ∃ lp gp, h a = some ⟨lp, p, gp, k⟩ ∧
      IsTree h lp (some a) l ∧ IsPlace h root (some a) gp c

/-! ## Coming apart -/

theorem isTree_plug {h : Heap TreeNode} {root : Option Addr} : ∀ {c : List (Turn Label)} {t : Tree},
    IsTree h root none (plug c t) ↔ ∃ p par, IsPlace h root p par c ∧ IsTree h p par t
  | [], t => by
    constructor
    · intro ht
      exact ⟨root, none, ⟨rfl, rfl⟩, ht⟩
    · intro ht
      obtain ⟨p, par, ⟨rfl, rfl⟩, ht⟩ := ht
      exact ht
  | .left (a, k) r :: c, t => by
    rw [plug, isTree_plug]
    constructor
    · intro ht
      obtain ⟨p, par, hc, rfl, lp, rp, ha, hl, hr⟩ := ht
      exact ⟨lp, some a, ⟨rfl, rp, par, ha, hr, hc⟩, hl⟩
    · intro ht
      obtain ⟨p, par, ⟨rfl, rp, gp, ha, hr, hc⟩, hl⟩ := ht
      exact ⟨some a, gp, hc, rfl, p, rp, ha, hl, hr⟩
  | .right (a, k) l :: c, t => by
    rw [plug, isTree_plug]
    constructor
    · intro ht
      obtain ⟨p, par, hc, rfl, lp, rp, ha, hl, hr⟩ := ht
      exact ⟨rp, some a, ⟨rfl, lp, par, ha, hl, hc⟩, hr⟩
    · intro ht
      obtain ⟨p, par, ⟨rfl, lp, gp, ha, hl, hc⟩, hr⟩ := ht
      exact ⟨some a, gp, hc, rfl, lp, p, ha, hl, hr⟩

theorem isPlace_append {h : Heap TreeNode} {root : Option Addr} {c c' : List (Turn Label)} {t : Tree} :
    (∃ p par, IsPlace h root p par (c ++ c') ∧ IsTree h p par t) ↔
      ∃ p par, IsPlace h root p par c' ∧ IsTree h p par (plug c t) := by
  rw [← isTree_plug, ← isTree_plug, plug_append]

/-! ## Frames -/

theorem IsTree.frame {h h' : Heap TreeNode} : ∀ {t : Tree} {p par : Option Addr}, IsTree h p par t →
    (∀ x ∈ inorder t, h' x.1 = h x.1) → IsTree h' p par t
  | .nil, _, _, ht, _ => ht
  | .node (a, k) l r, _, _, ht, heq => by
    obtain ⟨rfl, lp, rp, ha, hl, hr⟩ := ht
    refine ⟨rfl, lp, rp, ?_, hl.frame fun x hx => heq x ?_, hr.frame fun x hx => heq x ?_⟩
    · rw [heq (a, k) (by simp [inorder]), ha]
    · simp [inorder, hx]
    · simp [inorder, hx]

theorem IsPlace.frame {h h' : Heap TreeNode} {root : Option Addr} : ∀ {c : List (Turn Label)} {p par : Option Addr},
    IsPlace h root p par c → (∀ x ∈ nodes c, h' x.1 = h x.1) → IsPlace h' root p par c
  | [], _, _, hc, _ => hc
  | .left (a, k) r :: c, _, _, hc, heq => by
    obtain ⟨rfl, rp, gp, ha, hr, hc⟩ := hc
    refine ⟨rfl, rp, gp, ?_, hr.frame fun x hx => heq x ?_, hc.frame fun x hx => heq x ?_⟩
    · rw [heq (a, k) (by simp [nodes]), ha]
    · simp [nodes, hx]
    · simp [nodes, hx]
  | .right (a, k) l :: c, _, _, hc, heq => by
    obtain ⟨rfl, lp, gp, ha, hl, hc⟩ := hc
    refine ⟨rfl, lp, gp, ?_, hl.frame fun x hx => heq x ?_, hc.frame fun x hx => heq x ?_⟩
    · rw [heq (a, k) (by simp [nodes]), ha]
    · simp [nodes, hx]
    · simp [nodes, hx]

theorem IsTree.root {h : Heap TreeNode} {t : Tree} {a : Addr} {par : Option Addr} (ht : IsTree h (some a) par t) :
    ∃ k l r lp rp, t = .node (a, k) l r ∧ h a = some ⟨lp, rp, par, k⟩ ∧ IsTree h lp (some a) l ∧
      IsTree h rp (some a) r := by
  cases t with
  | nil => cases ht
  | node x l r =>
    obtain ⟨b, k⟩ := x
    obtain ⟨he, lp, rp, hb, hl, hr⟩ := ht
    cases he
    exact ⟨k, l, r, lp, rp, rfl, hb, hl, hr⟩

/-! ## Writing one pointer -/

def addrs (l : List Label) : List Addr := l.map Prod.fst

theorem ne_of_not_mem_addrs {l : List Label} {a : Addr} (h : a ∉ addrs l) {x : Label} (hx : x ∈ l) : x.1 ≠ a := by
  intro he
  exact h (he ▸ List.mem_map_of_mem hx)

theorem IsTree.frame_addrs {h h' : Heap TreeNode} {t : Tree} {p par : Option Addr} (ht : IsTree h p par t)
    (heq : ∀ b ∈ addrs (inorder t), h' b = h b) : IsTree h' p par t :=
  ht.frame fun _ hx => heq _ (List.mem_map_of_mem hx)

theorem IsPlace.frame_addrs {h h' : Heap TreeNode} {root : Option Addr} {c : List (Turn Label)} {p par : Option Addr}
    (hc : IsPlace h root p par c) (heq : ∀ b ∈ addrs (nodes c), h' b = h b) : IsPlace h' root p par c :=
  hc.frame fun _ hx => heq _ (List.mem_map_of_mem hx)

theorem write_of_ne {h : Heap TreeNode} {a b : Addr} {x : TreeNode} (hb : b ≠ a) : h.write a x b = h b :=
  Function.update_of_ne hb ..

theorem load_eq {h : Heap TreeNode} {a : Addr} {x : TreeNode} (ha : h a = some x) : load h (some a) = .ok x := by
  rw [load, Heap.deref_some ha]
  rfl

theorem store_eq {h : Heap TreeNode} {a : Addr} {x : TreeNode} {f : TreeNode → TreeNode} (ha : h a = some x) :
    store h (some a) f = .ok (h.write a (f x)) := by
  rw [store, load_eq ha]
  rfl

theorem IsTree.reparent {h : Heap TreeNode} {t : Tree} {a : Addr} {par : Option Addr} (ht : IsTree h (some a) par t)
    (hn : (addrs (inorder t)).Nodup) (par' : Option Addr) :
    ∃ h', store h (some a) (fun x => { x with parent := par' }) = .ok h' ∧ IsTree h' (some a) par' t ∧
      ∀ b, b ∉ addrs (inorder t) → h' b = h b := by
  obtain ⟨k, l, r, lp, rp, rfl, ha, hl, hr⟩ := ht.root
  simp only [addrs, inorder, List.map_append, List.map_cons] at hn ⊢
  have hal : a ∉ addrs (inorder l) := fun h => (List.nodup_append.mp hn).2.2 a h a (by simp) rfl
  have har : a ∉ addrs (inorder r) := (List.nodup_cons.mp (List.nodup_append.mp hn).2.1).1
  refine ⟨_, store_eq ha, ⟨rfl, lp, rp, Heap.write_self .., ?_, ?_⟩, ?_⟩
  · exact hl.frame fun x hx => write_of_ne (ne_of_not_mem_addrs hal hx)
  · exact hr.frame fun x hx => write_of_ne (ne_of_not_mem_addrs har hx)
  · intro b hb
    exact write_of_ne fun he => hb (by simp [he])

theorem IsPlace.repoint {s : State} {src : Addr} {x : TreeNode} {par : Option Addr} {c : List (Turn Label)}
    (hc : IsPlace s.heap s.root (some src) par c) (hx : s.heap src = some x) (hpar : x.parent = par)
    (hn : (addrs (nodes c)).Nodup) (hsrc : src ∉ addrs (nodes c)) (p' : Option Addr) :
    ∃ s', repoint s src p' = .ok s' ∧ IsPlace s'.heap s'.root p' par c ∧
      ∀ b, b ∉ addrs (nodes c) → s'.heap b = s.heap b := by
  unfold BinarySearchTree.repoint
  rw [load_eq hx, ok_bind]
  cases c with
  | nil =>
    obtain ⟨hroot, rfl⟩ := hc
    rw [hpar]
    exact ⟨_, rfl, ⟨rfl, rfl⟩, fun _ _ => rfl⟩
  | cons turn c =>
    cases turn with
    | left y r =>
      obtain ⟨a, k⟩ := y
      obtain ⟨rfl, rp, gp, ha, hr, hc⟩ := hc
      simp only [addrs, nodes, List.map_cons, List.map_append, List.nodup_cons, List.mem_append, not_or] at hn
      simp only [hpar]
      rw [load_eq ha, ok_bind, if_pos rfl, store_eq ha]
      refine ⟨_, rfl, ⟨rfl, rp, gp, Heap.write_self .., ?_, ?_⟩, ?_⟩
      · exact hr.frame fun x hx => write_of_ne (ne_of_not_mem_addrs hn.1.1 hx)
      · exact hc.frame fun x hx => write_of_ne (ne_of_not_mem_addrs hn.1.2 hx)
      · intro b hb
        exact write_of_ne fun he => hb (by simp [addrs, nodes, he])
    | right y l =>
      obtain ⟨a, k⟩ := y
      obtain ⟨rfl, lp, gp, ha, hl, hc⟩ := hc
      -- a left child with the same address would be in the tree twice
      have hlp : lp ≠ some src := by
        intro he
        rw [he] at hl
        obtain ⟨k', l', r', lp', rp', rfl, -, -, -⟩ := hl.root
        exact hsrc (by simp [addrs, nodes, inorder])
      simp only [addrs, nodes, List.map_cons, List.map_append, List.nodup_cons, List.mem_append, not_or] at hn
      simp only [hpar]
      rw [load_eq ha, ok_bind, if_neg hlp, store_eq ha]
      refine ⟨_, rfl, ⟨rfl, lp, gp, Heap.write_self .., ?_, ?_⟩, ?_⟩
      · exact hl.frame fun x hx => write_of_ne (ne_of_not_mem_addrs hn.1.1 hx)
      · exact hc.frame fun x hx => write_of_ne (ne_of_not_mem_addrs hn.1.2 hx)
      · intro b hb
        exact write_of_ne fun he => hb (by simp [addrs, nodes, he])

/-- `transplant` puts the tree at `tp` where `src` is. -/
theorem transplant_eq {s : State} {src : Addr} {x : TreeNode} {par par₀ tp : Option Addr} {c : List (Turn Label)}
    {t : Tree} (hc : IsPlace s.heap s.root (some src) par c) (hx : s.heap src = some x) (hpar : x.parent = par)
    (ht : IsTree s.heap tp par₀ t) (hn : (addrs (inorder t ++ nodes c)).Nodup) (hsrc : src ∉ addrs (inorder t ++ nodes c)) :
    ∃ s', transplant s src tp = .ok s' ∧ IsPlace s'.heap s'.root tp par c ∧ IsTree s'.heap tp par t ∧
      ∀ b, b ∉ addrs (inorder t ++ nodes c) → s'.heap b = s.heap b := by
  simp only [addrs, List.map_append, List.mem_append, not_or] at hn hsrc ⊢
  obtain ⟨hnt, hnc, hdisj⟩ := List.nodup_append.mp hn
  obtain ⟨s₁, h₁, hc₁, hf₁⟩ := hc.repoint hx hpar hnc hsrc.2 tp
  have ht₁ : IsTree s₁.heap tp par₀ t := ht.frame fun y hy => hf₁ _ fun hmem =>
    hdisj y.1 (List.mem_map_of_mem hy) y.1 hmem rfl
  unfold transplant
  rw [h₁, ok_bind]
  cases tp with
  | none =>
    cases t with
    | nil => exact ⟨s₁, rfl, hc₁, rfl, fun b hb => hf₁ b hb.2⟩
    | node y l r => exact absurd ht₁.1 (by simp)
  | some a =>
    obtain ⟨h₂, hs₂, ht₂, hf₂⟩ := ht₁.reparent hnt par
    have hx₁ : s₁.heap src = some x := (hf₁ src hsrc.2).trans hx
    simp only [load_eq hx₁, ok_bind, hpar, hs₂]
    refine ⟨_, rfl, ?_, ht₂, fun b hb => (hf₂ b hb.1).trans (hf₁ b hb.2)⟩
    exact hc₁.frame fun y hy => hf₂ _ fun hmem => hdisj y.1 hmem y.1 (List.mem_map_of_mem hy) rfl

end MyLearning.BinarySearchTree
