import Mathlib.Data.Set.Card
import MyLearning.Alog.TreeHandles

/-!
# The end of the binary search tree

After every sequence of calls the objects on the heap are the nodes of the tree, one for each key. The
destructor walks the tree in postorder, so it reads no node that it has freed, and frees every one.
-/

namespace MyLearning.BinarySearchTree

open SearchTree

/-- The heap after `destroy(node)`, which reads `node->right` behind the first of its calls. -/
def destroy : Nat → Heap TreeNode → Option Addr → Except (Option Fault) (Heap TreeNode)
  | 0, _, _ => .error none
  | _ + 1, h, none => .ok h
  | n + 1, h, some node => do
    let x ← load h (some node)
    let h ← destroy n h x.left
    let x ← load h (some node)
    let h ← destroy n h x.right
    delete h node

/-! ## Freeing a tree -/

def without (h : Heap TreeNode) (l : List Addr) : Heap TreeNode := fun b => if b ∈ l then none else h b

theorem without_of_not_mem {h : Heap TreeNode} {l : List Addr} {b : Addr} (hb : b ∉ l) : without h l b = h b := if_neg hb

theorem without_append (h : Heap TreeNode) (l r : List Addr) (a : Addr) :
    Function.update (without (without h l) r) a none = without h (l ++ a :: r) := by
  funext b
  by_cases hb : b = a
  · subst hb
    simp [without]
  · rw [Function.update_of_ne hb]
    by_cases hr : b ∈ r <;> by_cases hl : b ∈ l <;> simp [without, hr, hl, hb]

theorem delete_eq {h : Heap TreeNode} {a : Addr} {x : TreeNode} (ha : h a = some x) :
    delete h a = .ok (Function.update h a none) := by
  rw [delete, Heap.free_some ha]
  rfl

theorem destroy_eq : ∀ {t : Tree} {h : Heap TreeNode} {p par : Option Addr}, IsTree h p par t →
    (addrs (inorder t)).Nodup → ∀ n, t.height < n → destroy n h p = .ok (without h (addrs (inorder t)))
  | .nil, h, p, par, ht, _ => by
    have hp : p = none := ht
    subst hp
    refine forall_turns ?_
    intro n _
    rfl
  | .node (a, k) l r, h, p, par, ht, hn => by
    obtain ⟨rfl, lp, rp, ha, hl, hr⟩ := ht
    rw [inorder, addrs_append, addrs_cons] at hn ⊢
    obtain ⟨hnl, hnr, hdisj⟩ := List.nodup_append.mp hn
    obtain ⟨har, hnr⟩ := List.nodup_cons.mp hnr
    have hal : a ∉ addrs (inorder l) := fun hmem => hdisj a hmem a List.mem_cons_self rfl
    have hr' : IsTree (without h (addrs (inorder l))) rp (some a) r := by
      refine hr.frame_addrs ?_
      intro b hb
      exact without_of_not_mem fun hmem => hdisj b hmem b (List.mem_cons_of_mem _ hb) rfl
    have ha' := (without_of_not_mem hal).trans ha
    refine forall_turns ?_
    intro n hheight
    simp only [BinaryTree.height] at hheight
    rw [destroy, load_eq ha, ok_bind, destroy_eq hl hnl n (by omega), ok_bind, load_eq ha', ok_bind,
      destroy_eq hr' hnr n (by omega), ok_bind, delete_eq ((without_of_not_mem har).trans ha'), without_append]

/-! ## What is on the heap -/

/-- Every object is a node of the tree. -/
def NoLeak (s : State) : Prop := ∀ b, s.heap b ≠ none → Below s.heap s.root b

theorem SameData.live {h h' : Heap TreeNode} (hd : SameData h h') {b : Addr} (hb : h' b ≠ none) : h b ≠ none := by
  intro hnone
  have hdata := hd b
  rw [hnone, Option.map_none, Option.map_eq_none_iff] at hdata
  exact hb hdata

theorem insert_keeps {n : Nat} {s s' : State} {a : Addr} {k : Int} (hi : insert n s a k = .ok s') :
    SameData (s.heap.write a (newTreeNode k)) s'.heap := by
  unfold insert at hi
  obtain ⟨p, -, hi⟩ := bind_eq_ok.mp hi
  obtain ⟨h, hstore, hi⟩ := bind_eq_ok.mp hi
  have hkeep := store_keeps hstore fun _ => rfl
  unfold link at hi
  cases p with
  | none =>
    cases hi
    exact hkeep
  | some p =>
    obtain ⟨node, -, hi⟩ := bind_eq_ok.mp hi
    by_cases hk : node.data > k
    · rw [if_pos hk] at hi
      exact hkeep.trans (stored_keeps hi fun _ => rfl)
    · rw [if_neg hk] at hi
      exact hkeep.trans (stored_keeps hi fun _ => rfl)

theorem NoLeak.insert {s s' : State} {t : Tree} (hs : NoLeak s) (ht : Represents s t) {a : Addr} {k : Int}
    (ha : s.heap a = none) (hret : Returns s (.insert a k) s') : NoLeak s' := by
  obtain ⟨s₁, ht', h⟩ := insert_eq ht ha k
  cases returns_unique hret ⟨t.height + 1, h⟩
  intro b hb
  have hinserted : (inorder (SearchTree.insert key (a, k) t)).Perm ((a, k) :: inorder t) := inorder_insert (a, k) t
  have hperm := perm_addrs hinserted
  rw [ht'.tree.below_iff, hperm.mem_iff, addrs_cons, List.mem_cons]
  by_cases hba : b = a
  · exact .inl hba
  · have hlive := (insert_keeps (h (t.height + 1) (Nat.lt_succ_self _))).live hb
    rw [write_of_ne hba] at hlive
    exact .inr (ht.tree.below_iff.mp (hs b hlive))

theorem NoLeak.remove {s s' : State} {t : Tree} (hs : NoLeak s) (ht : Represents s t) {k : Int}
    (hret : Returns s (.remove k) s') : NoLeak s' := by
  obtain ⟨p, s₁, hcalls, hbelow⟩ := search_remove ht k
  obtain ⟨hsearch, hremove⟩ := hcalls (t.height + 1) (Nat.lt_succ_self _)
  cases returns_unique hret ⟨t.height + 1, fun n hn => (hcalls n hn).2⟩
  cases p with
  | none =>
    rw [remove_absent hremove hsearch]
    exact hs
  | some a =>
    have hfrees := remove_frees hremove hsearch
    intro b hb
    have hba : b ≠ a := by
      intro he
      exact hb (he ▸ hfrees.freed)
    refine ((hbelow a rfl).2 b).mpr ⟨hs b ?_, hba⟩
    intro hnone
    have hdata := hfrees.kept b hba
    rw [hnone, Option.map_none, Option.map_eq_none_iff] at hdata
    exact hb hdata

theorem noLeak_of_run {s : State} {tr : List Act} (hr : lts.Run initial tr s) : NoLeak s := by
  refine (hr.invariant (I := fun s => (∃ t, Represents s t) ∧ NoLeak s) ?_ ?_).2
  · intro s a u h hstep
    obtain ⟨⟨t, ht⟩, hs⟩ := h
    obtain ⟨hallowed, hret⟩ := hstep
    obtain ⟨s', t', hret', ht', -⟩ := ht.returns hallowed
    cases returns_unique hret hret'
    refine ⟨⟨t', ht'⟩, ?_⟩
    cases a with
    | insert newNode k => exact hs.insert ht hallowed hret
    | remove k => exact hs.remove ht hret
  · exact ⟨⟨_, represents_initial⟩, fun b hb => absurd rfl hb⟩

/-- **Nothing leaks.** After every sequence of calls there are as many objects as keys, and the destructor,
which touches no object that is gone, frees all of them. -/
theorem destroy_empties_heap (tr : List Act) (s : State) (hr : lts.Run initial tr s) :
    Set.ncard {b | s.heap b ≠ none} = Multiset.card (contents tr) ∧
      ∃ n₀, ∀ n ≥ n₀, destroy n s.heap s.root = .ok fun _ => none := by
  obtain ⟨t, ht, hkeys⟩ := represents_of_run hr
  have hlive : ∀ b, s.heap b ≠ none ↔ b ∈ addrs (inorder t) := by
    intro b
    constructor
    · intro hb
      exact ht.tree.below_iff.mp (noLeak_of_run hr b hb)
    · intro hb
      obtain ⟨y, hy, rfl⟩ := List.mem_map.mp hb
      obtain ⟨x, hx, -⟩ := ht.tree.data y hy
      rw [hx]
      nofun
  constructor
  · have hset : {b | s.heap b ≠ none} = ((addrs (inorder t)).toFinset : Set Addr) := by
      ext b
      simp only [Set.mem_ofPred_eq, List.coe_toFinset, hlive]
    rw [hset, Set.ncard_coe_finset, List.toFinset_card_of_nodup ht.nodup, ← hkeys]
    simp [addrs, keys]
  · refine ⟨t.height + 1, ?_⟩
    intro n hn
    rw [destroy_eq ht.tree ht.nodup n hn]
    congr 1
    funext b
    by_cases hb : b ∈ addrs (inorder t)
    · exact if_pos hb
    · rw [without_of_not_mem hb]
      exact not_not.mp fun h => hb ((hlive b).mp h)

theorem destroy_empties_heap_root : ∃ s : State, s.root = some 3 ∧ Set.ncard {b | s.heap b ≠ none} = 4 ∧
    ∃ n₀, ∀ n ≥ n₀, destroy n s.heap s.root = .ok fun _ => none := by
  obtain ⟨-, t, -, -, hr, hroot⟩ := remove_root
  obtain ⟨hcard, hfree⟩ := destroy_empties_heap _ t hr
  exact ⟨t, hroot, hcard.trans (by decide), hfree⟩

end MyLearning.BinarySearchTree
