import Mathlib.Data.Int.ConditionallyCompleteOrder
import Mathlib.Data.Multiset.Sort
import Mathlib.Data.Set.Finite.List
import MyLearning.Alog.TreeSteps

/-!
# Runs of the binary search tree

After every sequence of calls the pointers make up a search tree, and the keys in it
are those of the multiset that the same calls make of an empty one.
-/

namespace MyLearning.BinarySearchTree

open SearchTree

/-! ## Every call returns -/

def Act.apply (M : Multiset Int) : Act → Multiset Int
  | .insert _ key => key ::ₘ M
  | .remove key => M.erase key

def contents (tr : List Act) : Multiset Int := tr.foldl Act.apply 0

def keys (t : Tree) : Multiset Int := ((inorder t).map key : List Int)

theorem keys_insert (a : Addr) (k : Int) (t : Tree) : keys (SearchTree.insert key (a, k) t) = k ::ₘ keys t :=
  Multiset.coe_eq_coe.mpr ((inorder_insert (a, k) t).map key)

theorem keys_remove {t : Tree} (h : Ordered key t) (k : Int) : keys (SearchTree.remove key k t) = (keys t).erase k := by
  rcases inorder_remove h k with hperm | habsent
  · obtain ⟨x, hx, hperm⟩ := hperm
    have hperm := hperm.map key
    rw [List.map_cons, hx] at hperm
    have hkeys : keys t = k ::ₘ keys (SearchTree.remove key k t) := Multiset.coe_eq_coe.mpr hperm
    rw [hkeys, Multiset.erase_cons_head]
  · obtain ⟨habsent, hsame⟩ := habsent
    rw [hsame, Multiset.erase_of_notMem]
    intro hmem
    obtain ⟨x, hx, hxk⟩ := List.mem_map.mp (Multiset.mem_coe.mp hmem)
    exact habsent x hx hxk

theorem Represents.returns {s : State} {t : Tree} (ht : Represents s t) {a : Act} (ha : a.allowed s) :
    ∃ s' t', Returns s a s' ∧ Represents s' t' ∧ keys t' = a.apply (keys t) := by
  cases a with
  | insert newNode k =>
    obtain ⟨s', ht', h'⟩ := insert_eq ht ha k
    exact ⟨s', _, ⟨t.height + 1, h'⟩, ht', keys_insert ..⟩
  | remove k =>
    obtain ⟨s', ht', h'⟩ := remove_eq ht k
    exact ⟨s', _, ⟨t.height + 1, h'⟩, ht', keys_remove ht.ordered k⟩

theorem represents_initial : Represents initial .nil := ⟨rfl, List.nodup_nil, trivial⟩

theorem returns_unique {s t u : State} {a : Act} (h : Returns s a t) (h' : Returns s a u) : t = u := by
  obtain ⟨n, h⟩ := h
  obtain ⟨m, h'⟩ := h'
  have he := (h (n + m) (Nat.le_add_right ..)).symm.trans (h' (n + m) (Nat.le_add_left ..))
  exact Except.ok.inj he

theorem Represents.run {s s' : State} {tr : List Act} (hr : lts.Run s tr s') : ∀ {t : Tree}, Represents s t →
    ∃ t', Represents s' t' ∧ keys t' = tr.foldl Act.apply (keys t) := by
  induction hr with
  | nil s =>
    intro t ht
    exact ⟨t, ht, rfl⟩
  | cons hs _ ih =>
    intro t ht
    obtain ⟨s₁, t₁, hret, ht₁, hkeys⟩ := ht.returns hs.1
    rw [returns_unique hs.2 hret] at ih
    obtain ⟨t', ht', hkeys'⟩ := ih ht₁
    rw [hkeys] at hkeys'
    exact ⟨t', ht', hkeys'⟩

theorem represents_of_run {s : State} {tr : List Act} (hr : lts.Run initial tr s) :
    ∃ t, Represents s t ∧ keys t = contents tr := Represents.run hr represents_initial

/-! ## The representation -/

/-- The nodes that are reached from a pointer through `left` and `right`. -/
inductive Below (h : Heap TreeNode) : Option Addr → Addr → Prop
  | here (a : Addr) : Below h (some a) a
  | left {a b : Addr} {x : TreeNode} : h a = some x → Below h x.left b → Below h (some a) b
  | right {a b : Addr} {x : TreeNode} : h a = some x → Below h x.right b → Below h (some a) b

/-- The node at `a` is live and agrees with its children and with the keys below it. -/
structure WellPlaced (h : Heap TreeNode) (a : Addr) (x : TreeNode) : Prop where
  live : h a = some x
  leftParent : ∀ l, x.left = some l → ∃ y, h l = some y ∧ y.parent = some a
  rightParent : ∀ r, x.right = some r → ∃ y, h r = some y ∧ y.parent = some a
  acyclic : ¬ Below h x.left a ∧ ¬ Below h x.right a
  unshared : ∀ b, ¬ (Below h x.left b ∧ Below h x.right b)
  leftKeys : ∀ b, Below h x.left b → ∃ y, h b = some y ∧ y.data < x.data
  rightKeys : ∀ b, Below h x.right b → ∃ y, h b = some y ∧ x.data ≤ y.data

structure WellFormed (s : State) : Prop where
  finite : {a | Below s.heap s.root a}.Finite
  rootParent : ∀ a, s.root = some a → ∃ x, s.heap a = some x ∧ x.parent = none
  nodes : ∀ a, Below s.heap s.root a → ∃ x, WellPlaced s.heap a x

theorem IsTree.below_iff {h : Heap TreeNode} : ∀ {t : Tree} {p par : Option Addr}, IsTree h p par t →
    ∀ {b}, Below h p b ↔ b ∈ addrs (inorder t)
  | .nil, p, par, ht, b => by
    have hp : p = none := ht
    subst hp
    constructor
    · intro hb
      cases hb
    · intro hb
      simp [addrs, inorder] at hb
  | .node (a, k) l r, p, par, ht, b => by
    obtain ⟨rfl, lp, rp, ha, hl, hr⟩ := ht
    simp only [inorder, addrs_append, addrs_cons, List.mem_append, List.mem_cons, ← hl.below_iff, ← hr.below_iff]
    constructor
    · intro hb
      cases hb with
      | here _ => exact .inr (.inl rfl)
      | left hx hb =>
        rw [ha] at hx
        cases hx
        exact .inl hb
      | right hx hb =>
        rw [ha] at hx
        cases hx
        exact .inr (.inr hb)
    · intro hb
      rcases hb with hb | rfl | hb
      · exact .left ha hb
      · exact .here b
      · exact .right ha hb

theorem IsTree.below_data {h : Heap TreeNode} {t : Tree} {p par : Option Addr} (ht : IsTree h p par t) {b : Addr}
    (hb : Below h p b) : ∃ y ∈ inorder t, ∃ x, h b = some x ∧ x.data = key y := by
  obtain ⟨y, hy, rfl⟩ := List.mem_map.mp (ht.below_iff.mp hb)
  exact ⟨y, hy, ht.data y hy⟩

theorem IsTree.wellPlaced {h : Heap TreeNode} : ∀ {t : Tree} {p par : Option Addr}, IsTree h p par t →
    (addrs (inorder t)).Nodup → Ordered key t → ∀ a ∈ addrs (inorder t), ∃ x, WellPlaced h a x
  | .nil, _, _, _, _, _, a, hmem => by simp [addrs, inorder] at hmem
  | .node (a, k) l r, p, par, ht, hn, ho, b, hmem => by
    obtain ⟨rfl, lp, rp, ha, hl, hr⟩ := ht
    obtain ⟨hlk, hrk, hol, hor⟩ := ho
    simp only [inorder, addrs_append, addrs_cons, List.nodup_append, List.nodup_cons, List.mem_append,
      List.mem_cons] at hn hmem
    obtain ⟨hnl, ⟨har, hnr⟩, hdisj⟩ := hn
    rcases hmem with hmem | rfl | hmem
    · exact hl.wellPlaced hnl hol b hmem
    · refine ⟨_, ha, ?_, ?_, ⟨?_, ?_⟩, ?_, ?_, ?_⟩
      · intro x hx
        obtain ⟨kx, l', r', lp', rp', -, hx', -, -⟩ := (hx ▸ hl : IsTree h (some x) (some b) l).root
        exact ⟨_, hx', rfl⟩
      · intro x hx
        obtain ⟨kx, l', r', lp', rp', -, hx', -, -⟩ := (hx ▸ hr : IsTree h (some x) (some b) r).root
        exact ⟨_, hx', rfl⟩
      · intro hb
        exact hdisj b (hl.below_iff.mp hb) b (.inl rfl) rfl
      · intro hb
        exact har (hr.below_iff.mp hb)
      · intro c hc
        exact hdisj c (hl.below_iff.mp hc.1) c (.inr (hr.below_iff.mp hc.2)) rfl
      · intro c hc
        obtain ⟨y, hy, x, hx, hxk⟩ := hl.below_data hc
        exact ⟨x, hx, hxk ▸ hlk y hy⟩
      · intro c hc
        obtain ⟨y, hy, x, hx, hxk⟩ := hr.below_data hc
        exact ⟨x, hx, hxk ▸ hrk y hy⟩
    · exact hr.wellPlaced hnr hor b hmem

theorem Represents.wellFormed {s : State} {t : Tree} (ht : Represents s t) : WellFormed s := by
  refine ⟨?_, ?_, ?_⟩
  · refine (addrs (inorder t)).finite_toSet.subset ?_
    intro a ha
    exact ht.tree.below_iff.mp ha
  · intro a ha
    obtain ⟨k, l, r, lp, rp, -, hx, -, -⟩ := (ha ▸ ht.tree : IsTree s.heap (some a) none t).root
    exact ⟨_, hx, rfl⟩
  · intro a ha
    exact ht.tree.wellPlaced ht.nodup ht.ordered a (ht.tree.below_iff.mp ha)

/-- After every sequence of calls the pointers make up a search tree, and every further call returns. -/
theorem calls_keep_tree (tr : List Act) (s : State) (hr : lts.Run initial tr s) :
    WellFormed s ∧ ∀ a : Act, a.allowed s → ∃ t, Returns s a t := by
  obtain ⟨t, ht, -⟩ := represents_of_run hr
  refine ⟨ht.wellFormed, ?_⟩
  intro a ha
  obtain ⟨s', -, h', -, -⟩ := ht.returns ha
  exact ⟨s', h'⟩

theorem returns_of {s t : State} {a : Act} (n₀ : Nat) (h : ∀ n, run (n + n₀) s a = .ok t) : Returns s a t := by
  refine ⟨n₀, ?_⟩
  intro n hn
  obtain ⟨m, rfl⟩ := Nat.exists_eq_add_of_le' hn
  exact h m

/-- The root has two children, and its successor is below the right one. -/
def fiveInserts : List Act := [.insert 0 10, .insert 1 5, .insert 2 20, .insert 3 15, .insert 4 30]

theorem remove_root : ∃ s t, lts.Run initial fiveInserts s ∧ (∀ n, search s.heap 10 (n + 1) s.root = .ok (some 0)) ∧
    lts.Run initial (fiveInserts ++ [.remove 10]) t ∧ t.root = some 3 := by
  have h₁ : lts.Run initial [.insert 0 10] _ := .single ⟨rfl, returns_of 1 fun n => rfl⟩
  have h₂ := h₁.snoc (a := .insert 1 5) ⟨by rfl, returns_of 2 fun n => rfl⟩
  have h₃ := h₂.snoc (a := .insert 2 20) ⟨by rfl, returns_of 2 fun n => rfl⟩
  have h₄ := h₃.snoc (a := .insert 3 15) ⟨by rfl, returns_of 3 fun n => rfl⟩
  have h₅ := h₄.snoc (a := .insert 4 30) ⟨by rfl, returns_of 3 fun n => rfl⟩
  have h₆ := h₅.snoc (a := .remove 10) ⟨by exact trivial, returns_of 3 fun n => rfl⟩
  exact ⟨_, _, h₅, fun n => rfl, h₆, rfl⟩

theorem calls_keep_tree_root : ∃ s, s.root = some 3 ∧ WellFormed s ∧ ∀ a : Act, a.allowed s → ∃ t, Returns s a t := by
  obtain ⟨-, t, -, -, hr, hroot⟩ := remove_root
  exact ⟨t, hroot, calls_keep_tree _ t hr⟩

/-! ## The keys -/

theorem Represents.sorted {s : State} {t : Tree} (ht : Represents s t) :
    (inorder t).map key = (keys t).sort (· ≤ ·) := by
  have hsorted : ((inorder t).map key).Pairwise (· ≤ ·) := List.pairwise_map.mpr (sorted_inorder ht.ordered)
  have hperm : ((inorder t).map key).Perm ((keys t).sort (· ≤ ·)) := Multiset.coe_eq_coe.mp (Multiset.sort_eq ..).symm
  exact hperm.eq_of_pairwise' hsorted (Multiset.pairwise_sort ..)

theorem Represents.search {s : State} {t : Tree} (ht : Represents s t) (k : Int) :
    ∃ p, (∀ n, t.height < n → search s.heap k n s.root = .ok p) ∧ (p ≠ none ↔ k ∈ keys t) ∧
      ∀ a, p = some a → ∃ x, s.heap a = some x ∧ x.data = k := by
  obtain ⟨p, par, -, hsub, hsearch⟩ := search_eq (k := k) (c := []) ⟨rfl, rfl⟩ ht.tree
  have hplug := plug_locate key k t []
  refine ⟨p, hsearch, ?_⟩
  cases hloc : (locate key k [] t).2 with
  | nil =>
    rw [hloc] at hsub
    have hp : p = none := hsub
    subst hp
    refine ⟨⟨fun h => absurd rfl h, ?_⟩, by simp⟩
    intro hmem
    obtain ⟨x, hx, hxk⟩ := List.mem_map.mp (Multiset.mem_coe.mp hmem)
    exact absurd hxk (locate_nil ht.ordered hloc x hx)
  | node x l r =>
    obtain ⟨a, ka⟩ := x
    have hka : ka = k := locate_key hloc
    rw [hloc] at hsub hplug
    obtain ⟨rfl, lp, rp, ha, -, -⟩ := hsub
    refine ⟨⟨fun _ => ?_, by simp⟩, ?_⟩
    · have hplug : plug _ _ = t := hplug
      rw [keys, ← hplug, Multiset.mem_coe]
      exact List.mem_map.mpr ⟨(a, ka), by simp [inorder_plug, inorder], hka⟩
    · intro b hb
      cases hb
      exact ⟨_, ha, hka⟩

/-- The tree is a sorted multiset: `inorderPrint` prints the multiset that the calls make, `search` finds
what is in it. -/
theorem calls_refine_multiset (tr : List Act) (s : State) (hr : lts.Run initial tr s) :
    (∃ n₀, ∀ n ≥ n₀, inorderPrint s.heap n s.root = .ok ((contents tr).sort (· ≤ ·))) ∧
      ∀ k, ∃ p, (∃ n₀, ∀ n ≥ n₀, search s.heap k n s.root = .ok p) ∧ (p ≠ none ↔ k ∈ contents tr) ∧
        ∀ a, p = some a → ∃ x, s.heap a = some x ∧ x.data = k := by
  obtain ⟨t, ht, hkeys⟩ := represents_of_run hr
  rw [← hkeys]
  constructor
  · refine ⟨t.height + 1, ?_⟩
    intro n hn
    rw [inorderPrint_eq ht.tree hn, ht.sorted]
  · intro k
    obtain ⟨p, hsearch, hp⟩ := ht.search k
    exact ⟨p, ⟨t.height + 1, hsearch⟩, hp⟩

theorem calls_refine_multiset_root : ∃ s : State, s.root = some 3 ∧
    (∃ p n₀ x, (∀ n ≥ n₀, search s.heap 15 n s.root = .ok (some p)) ∧ s.heap p = some x ∧ x.data = 15) ∧
      ∃ n₀, ∀ n ≥ n₀, search s.heap 10 n s.root = .ok none := by
  obtain ⟨-, t, -, -, hr, hroot⟩ := remove_root
  obtain ⟨-, hsearch⟩ := calls_refine_multiset _ t hr
  obtain ⟨p, ⟨n₀, h₁⟩, hmem₁, hdata⟩ := hsearch 15
  obtain ⟨a, rfl⟩ := Option.ne_none_iff_exists'.mp (hmem₁.mpr (by decide))
  obtain ⟨x, hx, hkey⟩ := hdata a rfl
  obtain ⟨q, h₂, hmem₂, -⟩ := hsearch 10
  have hq : q = none := by
    by_contra hne
    exact absurd (hmem₂.mp hne) (by decide)
  subst hq
  exact ⟨t, hroot, ⟨a, n₀, x, h₁, hx, hkey⟩, h₂⟩

end MyLearning.BinarySearchTree
