import MyLearning.Alog.TreeHeap

/-!
# Walking down a tree on the heap

The loops of `insert`, `search` and `minimun` follow the pointers just as `descend`,
`locate` and `leftmost` go down the tree, and end within as many turns as the tree is high.
-/

namespace MyLearning.BinarySearchTree

open SearchTree

variable {h : Heap TreeNode} {root : Option Addr}

theorem forall_turns {P : Nat → Prop} {m : Nat} (hp : ∀ n, m ≤ n → P (n + 1)) : ∀ n, m < n → P n
  | 0, hn => absurd hn (Nat.not_lt_zero _)
  | n + 1, hn => hp n (Nat.le_of_lt_succ hn)

theorem insertLoop_eq {k : Int} : ∀ {t : Tree} {c : List (Turn Label)} {p par : Option Addr},
    IsPlace h root p par c → IsTree h p par t →
    ∃ par', IsPlace h root none par' (descend key k c t) ∧ ∀ n, t.height < n → insertLoop h k n par p = .ok par'
  | .nil, c, p, par, hc, ht => by
    have hp : p = none := ht
    subst hp
    refine ⟨par, hc, forall_turns ?_⟩
    intro n hn
    rfl
  | .node (a, ka) l r, c, p, par, hc, ht => by
    obtain ⟨rfl, lp, rp, ha, hl, hr⟩ := ht
    unfold descend
    by_cases hk : k < ka
    · obtain ⟨par', hc', hloop⟩ := insertLoop_eq (c := .left (a, ka) r :: c) ⟨rfl, rp, par, ha, hr, hc⟩ hl
      rw [if_pos (show k < key (a, ka) from hk)]
      refine ⟨par', hc', forall_turns ?_⟩
      intro n hn
      simp only [BinaryTree.height] at hn
      rw [insertLoop, load_eq ha, ok_bind, if_pos hk]
      exact hloop n (by omega)
    · obtain ⟨par', hc', hloop⟩ := insertLoop_eq (c := .right (a, ka) l :: c) ⟨rfl, lp, par, ha, hl, hc⟩ hr
      rw [if_neg (show ¬ k < key (a, ka) from hk)]
      refine ⟨par', hc', forall_turns ?_⟩
      intro n hn
      simp only [BinaryTree.height] at hn
      rw [insertLoop, load_eq ha, ok_bind, if_neg hk]
      exact hloop n (by omega)

theorem search_eq {k : Int} : ∀ {t : Tree} {c : List (Turn Label)} {p par : Option Addr},
    IsPlace h root p par c → IsTree h p par t →
    ∃ p' par', IsPlace h root p' par' (locate key k c t).1 ∧ IsTree h p' par' (locate key k c t).2 ∧
      ∀ n, t.height < n → search h k n p = .ok p'
  | .nil, c, p, par, hc, ht => by
    have hp : p = none := ht
    subst hp
    refine ⟨none, par, hc, rfl, forall_turns ?_⟩
    intro n hn
    rfl
  | .node (a, ka) l r, c, p, par, hc, ht => by
    have ht' := ht
    obtain ⟨rfl, lp, rp, ha, hl, hr⟩ := ht
    unfold locate
    by_cases heq : ka = k
    · rw [if_pos (show key (a, ka) = k from heq)]
      refine ⟨some a, par, hc, ht', forall_turns ?_⟩
      intro n hn
      rw [search, load_eq ha, ok_bind, if_pos heq]
      rfl
    · rw [if_neg (show ¬ key (a, ka) = k from heq)]
      by_cases hk : ka < k
      · obtain ⟨p', par', hc', ht', hloop⟩ := search_eq (c := .right (a, ka) l :: c) ⟨rfl, lp, par, ha, hl, hc⟩ hr
        rw [if_pos (show key (a, ka) < k from hk)]
        refine ⟨p', par', hc', ht', forall_turns ?_⟩
        intro n hn
        simp only [BinaryTree.height] at hn
        rw [search, load_eq ha, ok_bind, if_neg heq, if_pos hk]
        exact hloop n (by omega)
      · obtain ⟨p', par', hc', ht', hloop⟩ := search_eq (c := .left (a, ka) r :: c) ⟨rfl, rp, par, ha, hr, hc⟩ hl
        rw [if_neg (show ¬ key (a, ka) < k from hk)]
        refine ⟨p', par', hc', ht', forall_turns ?_⟩
        intro n hn
        simp only [BinaryTree.height] at hn
        rw [search, load_eq ha, ok_bind, if_neg heq, if_neg hk]
        exact hloop n (by omega)

theorem minimun_eq : ∀ {l : Tree} {c : List (Turn Label)} {a : Addr} {k : Int} {r : Tree} {par : Option Addr},
    IsPlace h root (some a) par c → IsTree h (some a) par (.node (a, k) l r) →
    ∃ m km rm par', (leftmost c (a, k) l r).2 = ((m, km), rm) ∧ IsPlace h root (some m) par' (leftmost c (a, k) l r).1 ∧
      IsTree h (some m) par' (.node (m, km) .nil rm) ∧ ∀ n, l.height < n → minimun h n a = .ok m
  | .nil, c, a, k, r, par, hc, ht => by
    have ht' := ht
    obtain ⟨-, lp, rp, ha, hl, hr⟩ := ht
    have hlp : lp = none := hl
    subst hlp
    refine ⟨a, k, r, par, rfl, hc, ht', forall_turns ?_⟩
    intro n hn
    rw [minimun, load_eq ha]
    rfl
  | .node (b, kb) l' r', c, a, k, r, par, hc, ht => by
    obtain ⟨-, lp, rp, ha, hl, hr⟩ := ht
    have hl' := hl
    obtain ⟨rfl, lp', rp', hb, -, -⟩ := hl
    obtain ⟨m, km, rm, par', hleft, hc', hm, hloop⟩ :=
      minimun_eq (c := .left (a, k) r :: c) ⟨rfl, rp, par, ha, hr, hc⟩ hl'
    refine ⟨m, km, rm, par', hleft, hc', hm, forall_turns ?_⟩
    intro n hn
    simp only [BinaryTree.height] at hn
    rw [minimun, load_eq ha]
    exact hloop n (by omega)

theorem inorderPrint_eq : ∀ {t : Tree} {p par : Option Addr} {n : Nat}, IsTree h p par t → t.height < n →
    inorderPrint h n p = .ok ((inorder t).map key)
  | _, _, _, 0, _, hn => absurd hn (Nat.not_lt_zero _)
  | .nil, p, par, n + 1, ht, _ => by
    have hp : p = none := ht
    subst hp
    rfl
  | .node (a, k) l r, p, par, n + 1, ht, hn => by
    obtain ⟨rfl, lp, rp, ha, hl, hr⟩ := ht
    simp only [BinaryTree.height] at hn
    unfold inorderPrint
    rw [load_eq ha, ok_bind, inorderPrint_eq hl (by omega), ok_bind, inorderPrint_eq hr (by omega)]
    simp [inorder, key]

end MyLearning.BinarySearchTree
