import MyLearning.Alog.TreeWalks

/-!
# The operations on the tree

`insert` and `remove` on the heap do what they do on the tree that is represented there.
Of the nodes of `remove`, those with two children take two steps: the least node on the
right is made the root of what is right of the target, and then takes the target's place.
-/

namespace MyLearning.BinarySearchTree

open SearchTree

structure Represents (s : State) (t : Tree) : Prop where
  tree : IsTree s.heap s.root none t
  nodup : (addrs (inorder t)).Nodup
  ordered : Ordered key t

/-! ## Nodes -/

theorem IsTree.data {h : Heap TreeNode} : ∀ {t : Tree} {p par : Option Addr}, IsTree h p par t →
    ∀ y ∈ inorder t, ∃ x, h y.1 = some x ∧ x.data = key y
  | .nil, _, _, _, y, hy => by simp [inorder] at hy
  | .node (b, k) l r, _, _, ht, y, hy => by
    obtain ⟨rfl, lp, rp, hb, hl, hr⟩ := ht
    rcases List.mem_append.mp hy with hy | hy
    · exact hl.data y hy
    · rcases List.mem_cons.mp hy with rfl | hy
      · exact ⟨_, hb, rfl⟩
      · exact hr.data y hy

theorem IsTree.eq_nil {h : Heap TreeNode} {par : Option Addr} {t : Tree} (ht : IsTree h none par t) : t = .nil := by
  cases t with
  | nil => rfl
  | node x l r => exact absurd ht.1 (by simp)

theorem addrs_append (l l' : List Label) : addrs (l ++ l') = addrs l ++ addrs l' := List.map_append

theorem addrs_cons (x : Label) (l : List Label) : addrs (x :: l) = x.1 :: addrs l := rfl

theorem perm_addrs {l l' : List Label} (h : l.Perm l') : (addrs l).Perm (addrs l') := h.map _

/-! ## Insertion -/

theorem IsPlace.link {s : State} {par : Option Addr} {a : Addr} {k : Int} {c : List (Turn Label)}
    (hc : IsPlace s.heap s.root none par c) (hfit : Fits key k c) (hn : (a :: addrs (nodes c)).Nodup) :
    ∃ s', link s par a k = .ok s' ∧ IsPlace s'.heap s'.root (some a) par c ∧ s'.heap a = s.heap a := by
  unfold BinarySearchTree.link
  cases c with
  | nil =>
    obtain ⟨-, rfl⟩ := hc
    exact ⟨_, rfl, ⟨rfl, rfl⟩, rfl⟩
  | cons turn c =>
    cases turn with
    | left x r =>
      obtain ⟨b, kb⟩ := x
      obtain ⟨rfl, rp, gp, hb, hr, hc⟩ := hc
      simp only [nodes, addrs_cons, addrs_append, List.nodup_cons, List.mem_cons, List.mem_append, not_or] at hn
      have hk : kb > k := hfit.1
      simp only
      rw [load_eq hb, ok_bind, if_pos hk, store_eq hb]
      refine ⟨_, rfl, ⟨rfl, rp, gp, Heap.write_self .., ?_, ?_⟩, write_of_ne hn.1.1⟩
      · exact hr.frame fun x hx => write_of_ne (ne_of_not_mem_addrs hn.2.1.1 hx)
      · exact hc.frame fun x hx => write_of_ne (ne_of_not_mem_addrs hn.2.1.2 hx)
    | right x l =>
      obtain ⟨b, kb⟩ := x
      obtain ⟨rfl, lp, gp, hb, hl, hc⟩ := hc
      simp only [nodes, addrs_cons, addrs_append, List.nodup_cons, List.mem_cons, List.mem_append, not_or] at hn
      have hk : ¬ kb > k := not_lt.mpr hfit.1
      simp only
      rw [load_eq hb, ok_bind, if_neg hk, store_eq hb]
      refine ⟨_, rfl, ⟨rfl, lp, gp, Heap.write_self .., ?_, ?_⟩, write_of_ne hn.1.1⟩
      · exact hl.frame fun x hx => write_of_ne (ne_of_not_mem_addrs hn.2.1.1 hx)
      · exact hc.frame fun x hx => write_of_ne (ne_of_not_mem_addrs hn.2.1.2 hx)

theorem insert_eq {s : State} {t : Tree} (ht : Represents s t) {a : Addr} (ha : s.heap a = none) (k : Int) :
    ∃ s', Represents s' (SearchTree.insert key (a, k) t) ∧ ∀ n, t.height < n → insert n s a k = .ok s' := by
  have hnew : a ∉ addrs (inorder t) := by
    intro hmem
    obtain ⟨y, hy, rfl⟩ := List.mem_map.mp hmem
    obtain ⟨x, hx, -⟩ := ht.tree.data y hy
    rw [ha] at hx
    cases hx
  have hnodup : (a :: addrs (inorder t)).Nodup := List.nodup_cons.mpr ⟨hnew, ht.nodup⟩
  have hperm := perm_addrs (perm_plug (descend key k [] t) .nil)
  rw [plug_descend] at hperm
  have hnodes : (a :: addrs (nodes (descend key k [] t))).Nodup := (hperm.cons a).nodup_iff.mp hnodup
  have hframe : ∀ (h : Heap TreeNode) x, ∀ y ∈ inorder t, h.write a x y.1 = h y.1 := by
    intro h x y hy
    exact write_of_ne (ne_of_not_mem_addrs hnew hy)
  have htree : IsTree (s.heap.write a (newTreeNode k)) s.root none t := ht.tree.frame (hframe _ _)
  obtain ⟨par, hplace, hloop⟩ := insertLoop_eq (k := k) (c := []) ⟨rfl, rfl⟩ htree
  have hplace' : IsPlace ((s.heap.write a (newTreeNode k)).write a { newTreeNode k with parent := par }) s.root none par
      (descend key k [] t) :=
    hplace.frame fun x hx => write_of_ne (ne_of_not_mem_addrs (List.nodup_cons.mp hnodes).1 hx)
  obtain ⟨s', hlink, hc', ha'⟩ := hplace'.link (s := ⟨s.root, _⟩) (fits_descend trivial) hnodes
  refine ⟨s', ⟨?_, ?_, ordered_insert ht.ordered _⟩, ?_⟩
  · refine isTree_plug.mpr ⟨some a, par, hc', rfl, none, none, ?_, rfl, rfl⟩
    rw [ha']
    exact Heap.write_self ..
  · exact (perm_addrs (inorder_insert (a, k) t)).nodup_iff.mpr hnodup
  · intro n hn
    unfold insert
    simp only [hloop n hn, ok_bind, store_eq (Heap.write_self s.heap a (newTreeNode k))]
    exact hlink

/-! ## Removal -/

theorem adopt_eq {h : Heap TreeNode} {m x : Addr} {par : Option Addr} {t : Tree} (ht : IsTree h (some x) par t)
    (hn : (m :: addrs (inorder t)).Nodup) (nm : TreeNode) :
    ∃ h', store (h.write m nm) (some x) (fun y => { y with parent := some m }) = .ok h' ∧ h' m = some nm ∧
      IsTree h' (some x) (some m) t ∧ ∀ b, b ∉ m :: addrs (inorder t) → h' b = h b := by
  obtain ⟨hmt, hnt⟩ := List.nodup_cons.mp hn
  have ht' : IsTree (h.write m nm) (some x) par t := ht.frame fun y hy => write_of_ne (ne_of_not_mem_addrs hmt hy)
  obtain ⟨h', hs, ht'', hf⟩ := ht'.reparent hnt (some m)
  refine ⟨h', hs, (hf m hmt).trans (Heap.write_self ..), ht'', ?_⟩
  intro b hb
  rw [List.mem_cons, not_or] at hb
  exact (hf b hb.2).trans (write_of_ne hb.1)

theorem adoptRight_eq {s : State} {m a x : Addr} {na nm : TreeNode} {par : Option Addr} {t : Tree}
    (ha : s.heap a = some na) (hm : s.heap m = some nm) (hx : na.right = some x) (ht : IsTree s.heap (some x) par t)
    (hn : (m :: addrs (inorder t)).Nodup) :
    ∃ s', adoptRight s m a = .ok s' ∧ s'.root = s.root ∧ s'.heap m = some { nm with right := some x } ∧
      IsTree s'.heap (some x) (some m) t ∧ ∀ b, b ∉ m :: addrs (inorder t) → s'.heap b = s.heap b := by
  obtain ⟨h', hs, h'⟩ := adopt_eq ht hn { nm with right := some x }
  unfold adoptRight
  simp only [load_eq ha, ok_bind, hx, store_eq hm, load_eq (Heap.write_self ..), hs]
  exact ⟨_, rfl, rfl, h'⟩

theorem adoptLeft_eq {s : State} {m a x : Addr} {na nm : TreeNode} {par : Option Addr} {t : Tree}
    (ha : s.heap a = some na) (hm : s.heap m = some nm) (hx : na.left = some x) (ht : IsTree s.heap (some x) par t)
    (hn : (m :: addrs (inorder t)).Nodup) :
    ∃ s', adoptLeft s m a = .ok s' ∧ s'.root = s.root ∧ s'.heap m = some { nm with left := some x } ∧
      IsTree s'.heap (some x) (some m) t ∧ ∀ b, b ∉ m :: addrs (inorder t) → s'.heap b = s.heap b := by
  obtain ⟨h', hs, h'⟩ := adopt_eq ht hn { nm with left := some x }
  unfold adoptLeft
  simp only [load_eq ha, ok_bind, hx, store_eq hm, load_eq (Heap.write_self ..), hs]
  exact ⟨_, rfl, rfl, h'⟩

/-- The node `m`, which has no left child, takes the place of `a` and its left subtree. -/
theorem takePlace_eq {s : State} {a m lb : Addr} {k km : Int} {rp par parm : Option Addr} {l r : Tree}
    {c : List (Turn Label)} (hc : IsPlace s.heap s.root (some a) par c)
    (ha : s.heap a = some ⟨some lb, rp, par, k⟩) (hl : IsTree s.heap (some lb) (some a) l)
    (hm : IsTree s.heap (some m) parm (.node (m, km) .nil r))
    (hn : (a :: m :: (addrs (inorder l) ++ (addrs (inorder r) ++ addrs (nodes c)))).Nodup) :
    ∃ s₁ s', transplant s a (some m) = .ok s₁ ∧ adoptLeft s₁ m a = .ok s' ∧
      IsPlace s'.heap s'.root (some m) par c ∧ IsTree s'.heap (some m) par (.node (m, km) l r) ∧
      s'.heap a = s.heap a := by
  have hmr : addrs (inorder (.node (m, km) .nil r) ++ nodes c) = m :: (addrs (inorder r) ++ addrs (nodes c)) := by
    simp [addrs, inorder]
  simp only [List.nodup_cons, List.mem_cons, List.mem_append, not_or, List.nodup_append] at hn
  obtain ⟨⟨ham, hal, har, hac⟩, ⟨hml, hmr', hmc⟩, hnl, ⟨hnr, hnc, hrc⟩, hlrc⟩ := hn
  obtain ⟨s₁, h₁, hc₁, hm₁, hf₁⟩ := transplant_eq hc ha rfl hm (by rw [hmr]; grind) (by rw [hmr]; grind)
  rw [hmr] at hf₁
  have hl₁ : IsTree s₁.heap (some lb) (some a) l := hl.frame_addrs fun b hb => hf₁ b (by grind)
  have ha₁ := (hf₁ a (by grind)).trans ha
  obtain ⟨-, lp, rp', hm₁, hlp, hr₁⟩ := hm₁
  have hlp : lp = none := hlp
  subst hlp
  obtain ⟨s', h', hroot, hm', hl', hf'⟩ := adoptLeft_eq ha₁ hm₁ rfl hl₁ (List.nodup_cons.mpr ⟨hml, hnl⟩)
  refine ⟨s₁, s', h₁, h', ?_, ⟨rfl, some lb, rp', hm', hl', ?_⟩, ?_⟩
  · rw [hroot]
    exact hc₁.frame_addrs fun b hb => hf' b (by grind)
  · exact hr₁.frame_addrs fun b hb => hf' b (by grind)
  · exact (hf' a (by grind)).trans (ha₁.trans ha.symm)

/-- The least node of the tree right of `a` is made the root of that tree. -/
theorem freeSuccessor_eq {s : State} {a m : Addr} {k km : Int} {parm : Option Addr} {l r : Tree} {turn : Turn Label}
    {cr c : List (Turn Label)} (hc : IsPlace s.heap s.root (some m) parm (turn :: cr ++ .right (a, k) l :: c))
    (hm : IsTree s.heap (some m) parm (.node (m, km) .nil r))
    (hn : (a :: m :: (addrs (inorder l) ++ (addrs (inorder (plug (turn :: cr) r)) ++ addrs (nodes c)))).Nodup) :
    ∃ rm, s.heap m = some ⟨none, rm, parm, km⟩ ∧ ∃ s₁ s', transplant s m rm = .ok s₁ ∧ adoptRight s₁ m a = .ok s' ∧
      ∃ lp rp par, s'.heap a = some ⟨lp, rp, par, k⟩ ∧ IsPlace s'.heap s'.root (some a) par c ∧
        IsTree s'.heap lp (some a) l ∧ IsTree s'.heap (some m) parm (.node (m, km) .nil (plug (turn :: cr) r)) := by
  have hnodes : (addrs (inorder r ++ nodes (turn :: cr ++ .right (a, k) l :: c))).Perm
      (a :: (addrs (inorder l) ++ (addrs (inorder (plug (turn :: cr) r)) ++ addrs (nodes c)))) := by
    have hperm := perm_addrs (perm_plug (turn :: cr) r)
    simp only [nodes_append, nodes, addrs_append, addrs_cons] at hperm ⊢
    rw [← List.append_assoc]
    refine List.perm_middle.trans (.cons a ?_)
    exact (hperm.symm.append_right _).trans (List.perm_append_comm_assoc ..)
  obtain ⟨-, lp, rm, hm', hlp, hr⟩ := hm
  have hlp : lp = none := hlp
  subst hlp
  have hn₁ := hnodes.nodup_iff.mpr (hn.sublist (by simp))
  simp only [List.nodup_cons, List.mem_cons, List.mem_append, not_or, List.nodup_append] at hn
  obtain ⟨⟨ham, hal, har, hac⟩, ⟨hml, hmr, hmc⟩, hnl, ⟨hnr, hnc, hrc⟩, hlrc⟩ := hn
  have hm₁ : m ∉ addrs (inorder r ++ nodes (turn :: cr ++ .right (a, k) l :: c)) := by
    rw [hnodes.mem_iff]
    grind
  obtain ⟨s₁, h₁, hc₁, hr₁, hf₁⟩ := transplant_eq hc hm' rfl hr hn₁ hm₁
  obtain ⟨p, par', hplace, hplug⟩ := isPlace_append.mp ⟨_, _, hc₁, hr₁⟩
  obtain ⟨rfl, lp, par, ha₁, hl₁, hc₁⟩ := hplace
  cases p with
  | none => exact absurd hplug.eq_nil plug_cons_ne_nil
  | some x =>
    have hm₁ := (hf₁ m hm₁).trans hm'
    obtain ⟨s', h', hroot, hm₂, hplug', hf'⟩ := adoptRight_eq ha₁ hm₁ rfl hplug (List.nodup_cons.mpr ⟨hmr, hnr⟩)
    refine ⟨rm, hm', s₁, s', h₁, h', lp, some x, par, (hf' a (by grind)).trans ha₁, ?_, ?_, ?_⟩
    · rw [hroot]
      exact hc₁.frame_addrs fun b hb => hf' b (by grind)
    · exact hl₁.frame_addrs fun b hb => hf' b (by grind)
    · exact ⟨rfl, none, some x, hm₂, rfl, hplug'⟩

theorem IsPlace.parent_mem {h : Heap TreeNode} {root p : Option Addr} {a : Addr} {turn : Turn Label}
    {c c' : List (Turn Label)} (hc : IsPlace h root p (some a) (turn :: c ++ c')) : a ∈ addrs (nodes (turn :: c)) := by
  cases turn with
  | left x r =>
    have hx : some a = some x.1 := hc.1
    simp [nodes, addrs, Option.some.inj hx]
  | right x l =>
    have hx : some a = some x.1 := hc.1
    simp [nodes, addrs, Option.some.inj hx]

theorem replaceBySuccessor_eq {s : State} {a lb d : Addr} {k kd : Int} {par : Option Addr} {l l₂ r₂ : Tree}
    {c : List (Turn Label)} (hc : IsPlace s.heap s.root (some a) par c)
    (ha : s.heap a = some ⟨some lb, some d, par, k⟩) (hl : IsTree s.heap (some lb) (some a) l)
    (hr : IsTree s.heap (some d) (some a) (.node (d, kd) l₂ r₂))
    (hn : (a :: (addrs (inorder l) ++ (addrs (inorder (.node (d, kd) l₂ r₂)) ++ addrs (nodes c)))).Nodup) :
    ∃ s', (∃ x, s'.heap a = some x) ∧ (∃ p par, IsPlace s'.heap s'.root p par c ∧
      IsTree s'.heap p par (join l (.node (d, kd) l₂ r₂))) ∧
      ∀ n, l₂.height < n → replaceBySuccessor n s a d = .ok s' := by
  obtain ⟨m, km, rm, parm, hleft, hplace, hm, hmin⟩ :=
    minimun_eq (c := .right (a, k) l :: c) ⟨rfl, some lb, par, ha, hl, hc⟩ hr
  have hcr := leftmost_append l₂ [] (.right (a, k) l :: c) (d, kd) r₂
  rw [List.nil_append] at hcr
  rw [hcr] at hleft hplace
  simp only at hleft hplace
  have hinorder := inorder_leftmost (d, kd) l₂ r₂
  have hjoin : join l (.node (d, kd) l₂ r₂) = .node (m, km) l (plug (leftmost [] (d, kd) l₂ r₂).1 rm) := by
    obtain ⟨kb, l₁, r₁, -, -, rfl, -, -, -⟩ := hl.root
    rw [join_node, hleft]
  rw [hleft] at hinorder
  have hn' : (a :: m :: (addrs (inorder l) ++
      (addrs (inorder (plug (leftmost [] (d, kd) l₂ r₂).1 rm)) ++ addrs (nodes c)))).Nodup := by
    rw [hinorder] at hn
    exact (List.perm_middle.cons a).nodup_iff.mp hn
  obtain ⟨-, lpm, rpm, hmn, hlpm, hrm⟩ := hm
  rw [hjoin]
  generalize (leftmost [] (d, kd) l₂ r₂).1 = cr at *
  cases cr with
  | nil =>
    -- the right child is the successor itself
    have hparm : parm = some a := hplace.1
    obtain ⟨s₁, s', h₁, h', hc', ht', ha'⟩ := takePlace_eq hc ha hl ⟨rfl, lpm, rpm, hmn, hlpm, hrm⟩ hn'
    refine ⟨s', ⟨_, ha'.trans ha⟩, ⟨some m, par, hc', ht'⟩, ?_⟩
    intro n hn
    unfold replaceBySuccessor
    rw [hmin n hn, ok_bind, load_eq hmn, ok_bind, if_neg (not_not.mpr hparm), ok_bind, h₁]
    exact h'
  | cons turn cr =>
    -- the successor lies deeper and is freed from its place first
    have hparm : parm ≠ some a := by
      intro hparm
      rw [hparm] at hplace
      have hmem := IsPlace.parent_mem hplace
      have hmem' : a ∈ addrs (inorder (plug (turn :: cr) rm)) := by
        rw [(perm_addrs (perm_plug (turn :: cr) rm)).mem_iff, addrs_append]
        exact List.mem_append_right _ hmem
      simp [hmem'] at hn'
    obtain ⟨rm', hm', s₁, s₂, h₁, h₂, lp, rp, par, ha₂, hc₂, hl₂, hm₂⟩ :=
      freeSuccessor_eq hplace ⟨rfl, lpm, rpm, hmn, hlpm, hrm⟩ hn'
    have hrpm : rm' = rpm := by
      rw [hm'] at hmn
      exact (TreeNode.mk.inj (Option.some.inj hmn)).2.1
    obtain ⟨kb, l₁, r₁, -, -, rfl, -, -, -⟩ := hl.root
    have hlp : lp = some lb := hl₂.1
    subst hlp
    obtain ⟨s₃, s', h₃, h', hc', ht', ha'⟩ := takePlace_eq hc₂ ha₂ hl₂ hm₂ hn'
    refine ⟨s', ⟨_, ha'.trans ha₂⟩, ⟨some m, par, hc', ht'⟩, ?_⟩
    intro n hn
    unfold replaceBySuccessor
    rw [hmin n hn, ok_bind, load_eq hmn, ok_bind]
    simp only [ne_eq, hparm, not_false_eq_true, if_true]
    rw [← hrpm, h₁, ok_bind, h₂, ok_bind, h₃]
    exact h'

theorem unlink_eq {s : State} {a : Addr} {k : Int} {par : Option Addr} {l r : Tree} {c : List (Turn Label)}
    (hc : IsPlace s.heap s.root (some a) par c) (ht : IsTree s.heap (some a) par (.node (a, k) l r))
    (hn : (addrs (inorder (.node (a, k) l r) ++ nodes c)).Nodup) :
    ∃ s', (∃ x, s'.heap a = some x) ∧ (∃ p par, IsPlace s'.heap s'.root p par c ∧ IsTree s'.heap p par (join l r)) ∧
      ∀ n, r.height ≤ n → unlink n s a = .ok s' := by
  obtain ⟨-, lp, rp, ha, hl, hr⟩ := ht
  have hn' : (a :: (addrs (inorder l) ++ (addrs (inorder r) ++ addrs (nodes c)))).Nodup := by
    simpa [inorder, addrs_append, addrs_cons, List.perm_middle.nodup_iff] using hn
  obtain ⟨hmem, hnodup⟩ := List.nodup_cons.mp hn'
  simp only [List.mem_append, not_or] at hmem
  cases lp with
  | none =>
    have hnil := hl.eq_nil
    subst hnil
    obtain ⟨s', h', hc', hr', hf'⟩ := transplant_eq hc ha rfl hr (by simpa [addrs, inorder] using hnodup)
      (by simp [addrs_append, hmem])
    refine ⟨s', ⟨_, (hf' a (by simp [addrs_append, hmem])).trans ha⟩, ⟨rp, par, hc', hr'⟩, ?_⟩
    intro n _
    rw [unlink, load_eq ha]
    exact h'
  | some lb =>
    obtain ⟨kb, l₁, r₁, lp₁, rp₁, rfl, hlb, hl₁, hr₁⟩ := hl.root
    cases rp with
    | none =>
      have hnil := hr.eq_nil
      subst hnil
      obtain ⟨s', h', hc', hl', hf'⟩ := transplant_eq hc ha rfl hl
        (by simpa [addrs, inorder] using hnodup) (by simp [addrs_append, hmem])
      refine ⟨s', ⟨_, (hf' a (by simp [addrs_append, hmem])).trans ha⟩, ⟨some lb, par, hc', hl'⟩, ?_⟩
      intro n _
      rw [unlink, load_eq ha]
      exact h'
    | some d =>
      obtain ⟨kd, l₂, r₂, -, -, rfl, -, -, -⟩ := hr.root
      obtain ⟨s', ha', hj', h'⟩ := replaceBySuccessor_eq hc ha hl hr hn'
      refine ⟨s', ha', hj', ?_⟩
      intro n hheight
      simp only [BinaryTree.height] at hheight
      rw [unlink, load_eq ha]
      exact h' n (by omega)

theorem remove_eq {s : State} {t : Tree} (ht : Represents s t) (k : Int) :
    ∃ s', Represents s' (SearchTree.remove key k t) ∧ ∀ n, t.height < n → remove n s k = .ok s' := by
  obtain ⟨p, par, hc, hsub, hsearch⟩ := search_eq (k := k) (c := []) ⟨rfl, rfl⟩ ht.tree
  have hheight := height_locate key k t []
  have hperm := perm_addrs (perm_plug (locate key k [] t).1 (locate key k [] t).2)
  rw [plug_locate] at hperm
  have hnodup := hperm.nodup_iff.mp ht.nodup
  have hordered := ordered_remove ht.ordered k
  cases hloc : (locate key k [] t).2 with
  | nil =>
    rw [hloc] at hsub
    have hp : p = none := hsub
    subst hp
    rw [remove_of_nil hloc]
    refine ⟨s, ht, ?_⟩
    intro n hn
    rw [remove, hsearch n hn]
    rfl
  | node x l r =>
    obtain ⟨a, ka⟩ := x
    rw [hloc] at hsub hheight hnodup
    rw [remove_of_node hloc] at hordered ⊢
    generalize (locate key k [] t).1 = c at *
    have hp : p = some a := hsub.1
    subst hp
    obtain ⟨s₁, ⟨x, hx⟩, ⟨p, par, hc₁, hj₁⟩, h₁⟩ := unlink_eq hc hsub hnodup
    have hn₁ : (a :: addrs (inorder (plug c (join l r)))).Nodup := by
      rw [((perm_addrs (perm_plug c (join l r))).cons a).nodup_iff, inorder_join]
      simpa [inorder, addrs, List.perm_middle.nodup_iff] using hnodup
    have htree := isTree_plug.mpr ⟨p, par, hc₁, hj₁⟩
    have htree' : IsTree (Function.update s₁.heap a none) s₁.root none (plug c (join l r)) := htree.frame fun y hy =>
      Function.update_of_ne (ne_of_not_mem_addrs (List.nodup_cons.mp hn₁).1 hy) ..
    refine ⟨⟨s₁.root, _⟩, ⟨htree', (List.nodup_cons.mp hn₁).2, hordered⟩, ?_⟩
    intro n hn
    simp only [BinaryTree.height] at hheight
    rw [remove, hsearch n hn, ok_bind]
    simp only [h₁ n (by omega), ok_bind, delete, Heap.free_some hx]
    rfl

end MyLearning.BinarySearchTree
