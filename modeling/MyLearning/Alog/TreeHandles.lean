import MyLearning.Alog.TreeRuns

/-!
# Pointers into the binary search tree

What `search` has returned stays good while other nodes are removed. Relinking writes
`left`, `right` and `parent` only, so every object keeps its key; the one that `remove`
frees is the one that `search` finds, and the walk from the root reaches the others as before.
-/

namespace MyLearning.BinarySearchTree

open SearchTree

/-! ## What relinking writes -/

def SameData (h h' : Heap TreeNode) : Prop := ∀ b, (h' b).map TreeNode.data = (h b).map TreeNode.data

theorem SameData.refl (h : Heap TreeNode) : SameData h h := fun _ => rfl

theorem SameData.trans {h h' h'' : Heap TreeNode} (hab : SameData h h') (hbc : SameData h' h'') : SameData h h'' :=
  fun b => (hbc b).trans (hab b)

theorem load_some {h : Heap TreeNode} {p : Option Addr} {x : TreeNode} (hl : load h p = .ok x) :
    ∃ a, p = some a ∧ h a = some x := by
  cases p with
  | none => cases hl
  | some a =>
    refine ⟨a, rfl, ?_⟩
    simp only [load, Heap.deref] at hl
    cases ha : h a with
    | none =>
      rw [ha] at hl
      cases hl
    | some y =>
      rw [ha] at hl
      cases hl
      rfl

theorem store_keeps {h h' : Heap TreeNode} {p : Option Addr} {f : TreeNode → TreeNode}
    (hs : store h p f = .ok h') (hf : ∀ x, (f x).data = x.data) : SameData h h' := by
  obtain ⟨x, hx, hs⟩ := bind_eq_ok.mp hs
  obtain ⟨a, rfl, ha⟩ := load_some hx
  cases hs
  intro b
  by_cases hb : b = a
  · subst hb
    rw [Heap.write_self, ha]
    simp [hf]
  · rw [write_of_ne hb]

theorem stored_keeps {s s' : State} {h : Heap TreeNode} {p : Option Addr} {f : TreeNode → TreeNode}
    (hs : (do let h ← store h p f; return { s with heap := h } : Except (Option Fault) State) = .ok s')
    (hf : ∀ x, (f x).data = x.data) : SameData h s'.heap := by
  obtain ⟨h', hstore, hs⟩ := bind_eq_ok.mp hs
  cases hs
  exact store_keeps hstore hf

theorem repoint_keeps {s s' : State} {source : Addr} {target : Option Addr} (hr : repoint s source target = .ok s') :
    SameData s.heap s'.heap := by
  obtain ⟨node, -, hr⟩ := bind_eq_ok.mp hr
  cases hpar : node.parent with
  | none =>
    simp only [hpar] at hr
    cases hr
    exact .refl _
  | some p =>
    simp only [hpar] at hr
    obtain ⟨par, -, hr⟩ := bind_eq_ok.mp hr
    by_cases hleft : par.left = some source
    · rw [if_pos hleft] at hr
      exact stored_keeps hr fun _ => rfl
    · rw [if_neg hleft] at hr
      exact stored_keeps hr fun _ => rfl

theorem transplant_keeps {s s' : State} {source : Addr} {target : Option Addr}
    (ht : transplant s source target = .ok s') : SameData s.heap s'.heap := by
  obtain ⟨s₁, hr, ht⟩ := bind_eq_ok.mp ht
  have hkeep := repoint_keeps hr
  cases target with
  | none =>
    cases ht
    exact hkeep
  | some b =>
    obtain ⟨node, -, ht⟩ := bind_eq_ok.mp ht
    exact hkeep.trans (stored_keeps ht fun _ => rfl)

theorem adopt_keeps {s s' : State} {replace target : Addr} {f : TreeNode → TreeNode → TreeNode}
    {c : TreeNode → Option Addr} (hf : ∀ node r, (f node r).data = r.data)
    (ha : (do
        let node ← load s.heap (some target)
        let h ← store s.heap (some replace) (f node)
        let r ← load h (some replace)
        let h ← store h (c r) fun x => { x with parent := some replace }
        return { s with heap := h } : Except (Option Fault) State) = .ok s') : SameData s.heap s'.heap := by
  obtain ⟨node, -, ha⟩ := bind_eq_ok.mp ha
  obtain ⟨h, hstore, ha⟩ := bind_eq_ok.mp ha
  obtain ⟨r, -, ha⟩ := bind_eq_ok.mp ha
  have hkeep : SameData s.heap h := store_keeps hstore (hf node)
  exact hkeep.trans (stored_keeps ha fun _ => rfl)

theorem adoptRight_keeps {s s' : State} {replace target : Addr} (ha : adoptRight s replace target = .ok s') :
    SameData s.heap s'.heap :=
  adopt_keeps (f := fun node r => { r with right := node.right }) (c := TreeNode.right) (fun _ _ => rfl) ha

theorem adoptLeft_keeps {s s' : State} {replace target : Addr} (ha : adoptLeft s replace target = .ok s') :
    SameData s.heap s'.heap :=
  adopt_keeps (f := fun node r => { r with left := node.left }) (c := TreeNode.left) (fun _ _ => rfl) ha

theorem replaceBySuccessor_keeps {n : Nat} {s s' : State} {target right : Addr}
    (hr : replaceBySuccessor n s target right = .ok s') : SameData s.heap s'.heap := by
  obtain ⟨replace, -, hr⟩ := bind_eq_ok.mp hr
  obtain ⟨r, -, hr⟩ := bind_eq_ok.mp hr
  obtain ⟨s₁, hfree, hr⟩ := bind_eq_ok.mp hr
  obtain ⟨s₂, htake, hadopt⟩ := bind_eq_ok.mp hr
  have hkeep : SameData s₁.heap s'.heap := (transplant_keeps htake).trans (adoptLeft_keeps hadopt)
  by_cases hpar : r.parent ≠ some target
  · rw [if_pos hpar] at hfree
    obtain ⟨s₀, htrans, hright⟩ := bind_eq_ok.mp hfree
    exact ((transplant_keeps htrans).trans (adoptRight_keeps hright)).trans hkeep
  · rw [if_neg hpar] at hfree
    cases hfree
    exact hkeep

theorem unlink_keeps {n : Nat} {s s' : State} {target : Addr} (hu : unlink n s target = .ok s') :
    SameData s.heap s'.heap := by
  obtain ⟨node, -, hu⟩ := bind_eq_ok.mp hu
  cases hl : node.left with
  | none =>
    simp only [hl] at hu
    exact transplant_keeps hu
  | some l =>
    cases hr : node.right with
    | none =>
      simp only [hl, hr] at hu
      exact transplant_keeps hu
    | some r =>
      simp only [hl, hr] at hu
      exact replaceBySuccessor_keeps hu

/-! ## What removal frees -/

/-- Of the objects `a` alone is gone. -/
structure Frees (h h' : Heap TreeNode) (a : Addr) : Prop where
  freed : h' a = none
  kept : ∀ b, b ≠ a → (h' b).map TreeNode.data = (h b).map TreeNode.data

theorem remove_frees {n : Nat} {s s' : State} {k : Int} {a : Addr} (hr : remove n s k = .ok s')
    (ha : search s.heap k n s.root = .ok (some a)) : Frees s.heap s'.heap a := by
  rw [remove, ha, ok_bind] at hr
  obtain ⟨s₁, hunlink, hr⟩ := bind_eq_ok.mp hr
  obtain ⟨h, hdelete, hr⟩ := bind_eq_ok.mp hr
  cases hr
  have hfree : s₁.heap.free a = .ok h := by
    cases hf : s₁.heap.free a with
    | error f =>
      rw [delete, hf] at hdelete
      cases hdelete
    | ok h' =>
      rw [delete, hf] at hdelete
      cases hdelete
      rfl
  have hh := Heap.free_eq_ok hfree
  constructor
  · show h a = none
    rw [hh, Function.update_self]
  · intro b hb
    show (h b).map TreeNode.data = _
    rw [hh, Function.update_of_ne hb]
    exact unlink_keeps hunlink b

theorem remove_absent {n : Nat} {s s' : State} {k : Int} (hr : remove n s k = .ok s')
    (ha : search s.heap k n s.root = .ok none) : s' = s := by
  rw [remove, ha, ok_bind] at hr
  cases hr
  rfl

/-! ## What is reached afterwards -/

theorem search_remove {s : State} {t : Tree} (ht : Represents s t) (k : Int) :
    ∃ p s', (∀ n, t.height < n → search s.heap k n s.root = .ok p ∧ remove n s k = .ok s') ∧
      ∀ a, p = some a → (∃ x, s.heap a = some x ∧ x.data = k) ∧
        ∀ b, Below s'.heap s'.root b ↔ Below s.heap s.root b ∧ b ≠ a := by
  obtain ⟨p, par, -, hsub, hsearch⟩ := search_eq (k := k) (c := []) ⟨rfl, rfl⟩ ht.tree
  obtain ⟨s', ht', hremove⟩ := remove_eq ht k
  refine ⟨p, s', fun n hn => ⟨hsearch n hn, hremove n hn⟩, ?_⟩
  intro a hp
  subst hp
  cases hloc : (locate key k [] t).2 with
  | nil =>
    rw [hloc] at hsub
    cases hsub
  | node x l r =>
    have hxk : key x = k := locate_key hloc
    have hperm := perm_addrs (inorder_remove_of_node hloc)
    have hnodup := hperm.nodup_iff.mp ht.nodup
    rw [hloc] at hsub
    obtain ⟨b, kb⟩ := x
    obtain ⟨hb, lp, rp, hlive, -, -⟩ := hsub
    have hab : a = b := Option.some.inj hb
    subst hab
    refine ⟨⟨_, hlive, hxk⟩, ?_⟩
    intro b
    rw [ht'.tree.below_iff, ht.tree.below_iff, hperm.mem_iff, addrs_cons, List.mem_cons]
    constructor
    · intro hmem
      refine ⟨.inr hmem, ?_⟩
      intro hba
      rw [hba] at hmem
      exact (List.nodup_cons.mp hnodup).1 hmem
    · intro hmem
      exact hmem.1.resolve_left hmem.2

/-- `remove` frees exactly the node that `search` finds; every other object stays, keeps its key and is
reached from the root as before. Where `search` finds nothing, nothing changes. -/
theorem remove_frees_found (tr : List Act) (s : State) (hr : lts.Run initial tr s) (k : Int) :
    ∃ p s', (∃ n₀, ∀ n ≥ n₀, search s.heap k n s.root = .ok p) ∧ Returns s (.remove k) s' ∧ (p = none → s' = s) ∧
      ∀ a, p = some a → (∃ x, s.heap a = some x ∧ x.data = k) ∧ Frees s.heap s'.heap a ∧
        ∀ b, Below s'.heap s'.root b ↔ Below s.heap s.root b ∧ b ≠ a := by
  obtain ⟨t, ht, -⟩ := represents_of_run hr
  obtain ⟨p, s', hcalls, hbelow⟩ := search_remove ht k
  have hcall := hcalls (t.height + 1) (Nat.lt_succ_self _)
  refine ⟨p, s', ⟨t.height + 1, fun n hn => (hcalls n hn).1⟩, ⟨t.height + 1, fun n hn => (hcalls n hn).2⟩, ?_, ?_⟩
  · intro hp
    rw [hp] at hcall
    exact remove_absent hcall.2 hcall.1
  · intro a hp
    obtain ⟨hlive, hb⟩ := hbelow a hp
    rw [hp] at hcall
    exact ⟨hlive, remove_frees hcall.2 hcall.1, hb⟩

theorem remove_frees_found_root : ∃ s s' : State, Returns s (.remove 10) s' ∧ Frees s.heap s'.heap 0 ∧
    ∀ b, Below s'.heap s'.root b ↔ Below s.heap s.root b ∧ b ≠ 0 := by
  obtain ⟨s, -, hr, hroot, -⟩ := remove_root
  obtain ⟨p, s', ⟨n₀, hsearch⟩, hret, -, hp⟩ := remove_frees_found _ s hr 10
  have hfound : some 0 = p := Except.ok.inj ((hroot n₀).symm.trans (hsearch (n₀ + 1) (Nat.le_succ n₀)))
  obtain ⟨-, hfrees, hbelow⟩ := hp 0 hfound.symm
  exact ⟨s, s', hret, hfrees, hbelow⟩

end MyLearning.BinarySearchTree
