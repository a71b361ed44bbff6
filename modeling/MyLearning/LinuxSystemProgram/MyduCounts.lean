import Mathlib.Algebra.Order.BigOperators.Group.Finset
import MyLearning.Lib.Walk
import MyLearning.LinuxSystemProgram.MyduListing

/-!
# What is counted

A run of `mydu` is the walk that the listings make. It counts every entry of the tree once
where each directory that has entries is matched by the pathname of exactly one directory
of the tree, and the sum fits into `res`.
-/

namespace MyLearning.Mydu

open FileSystem Walk

variable {fs : FileSystem}

/-! ## Accounts -/

namespace Account

def after (fs : FileSystem) (s : Account) (paths : List Str) : Account :=
  ⟨s.res + ((paths.map fs.blocksAt).sum : Nat), s.counted ++ paths⟩

theorem after_nil (s : Account) : s.after fs [] = s := by simp [after]

theorem after_append (s : Account) (l l' : List Str) : s.after fs (l ++ l') = (s.after fs l).after fs l' := by
  simp [after, add_assoc]

theorem after_cons (s : Account) (p : Str) (l : List Str) : s.after fs (p :: l) = (s.after fs [p]).after fs l :=
  s.after_append [p] l

theorem res_le_after (s : Account) (l : List Str) : s.res ≤ (s.after fs l).res := by
  simp only [after]
  omega

end Account

theorem lstat_ok {p : Str} {st : Stat} (h : lstat fs p = .ok st) :
    fs.lookup p ≠ none ∧ st = ⟨fs.isDir p, fs.blocksAt p⟩ := by
  unfold lstat at h
  unfold FileSystem.isDir blocksAt
  split at h
  · cases h
  · rename_i i hi
    cases h
    simp [hi]

theorem lstat_eq {p : Str} (h : fs.lookup p ≠ none) : lstat fs p = .ok ⟨fs.isDir p, fs.blocksAt p⟩ := by
  cases hi : fs.lookup p with
  | none => exact absurd hi h
  | some i => simp [lstat, FileSystem.isDir, blocksAt, hi]

theorem add_ok {p : Str} {d : Bool} {s s' : Account} (h : add s p ⟨d, fs.blocksAt p⟩ = .ok s') :
    s' = s.after fs [p] ∧ s'.res < 2 ^ 63 := by
  obtain ⟨res, hres, h⟩ := bind_eq_ok.mp h
  cases hint : int64 (s.res + fs.blocksAt p) with
  | error f =>
    rw [hint] at hres
    cases hres
  | ok x =>
    rw [hint] at hres
    cases hres
    cases h
    obtain ⟨hrange, rfl⟩ := int64_eq_ok.mp hint
    exact ⟨by simp [Account.after], hrange.2⟩

theorem add_eq {p : Str} {d : Bool} {s : Account} (hlow : -2 ^ 63 ≤ s.res) (hres : (s.after fs [p]).res < 2 ^ 63) :
    add s p ⟨d, fs.blocksAt p⟩ = .ok (s.after fs [p]) := by
  have hle : s.res ≤ (s.after fs [p]).res := s.res_le_after [p]
  have hsum : (s.after fs [p]).res = s.res + fs.blocksAt p := by simp [Account.after]
  have hint : int64 (s.res + fs.blocksAt p) = .ok (s.res + fs.blocksAt p) :=
    int64_eq_ok.mpr ⟨by omega, rfl⟩
  simp only [add, hint]
  simp [Except.mapError, Account.after]

/-! ## Runs -/

theorem visit_filter (f : Str → Account → Except (Option Fault) Account) :
    ∀ {paths : List Str}, (∀ q ∈ paths, ∃ p n, '/' ∉ n ∧ q = p ++ '/' :: n) → ∀ s,
      visit f paths s = (paths.filter fun q => kept q).foldlM (fun s q => f q s) s
  | [], _, s => rfl
  | q :: paths, hq, s => by
    rw [List.forall_mem_cons] at hq
    obtain ⟨⟨p, n, hn, rfl⟩, hq⟩ := hq
    have ih := visit_filter f hq
    rw [visit, pathSkip_slash hn, ok_bind]
    by_cases hdots : n = ['.'] ∨ n = ['.', '.']
    · have hkept : ¬ kept (p ++ '/' :: n) = true := by
        rw [kept_slash hn]
        tauto
      rw [List.filter_cons_of_neg hkept, ← ih s]
      simp only [hdots, decide_true, if_true]
    · have hkept : kept (p ++ '/' :: n) = true := by
        rw [kept_slash hn]
        tauto
      rw [List.filter_cons_of_pos hkept, List.foldlM_cons]
      simp only [hdots, decide_false, Bool.false_eq_true, if_false, ih]

theorem glob_slash {p q : Str} (h : q ∈ glob fs (p ++ ['/', '*']) ++ glob fs (p ++ ['/', '.', '*'])) :
    ∃ p n, '/' ∉ n ∧ q = p ++ '/' :: n := by
  rcases List.mem_append.mp h with h | h
  · obtain ⟨x, -, e, he, -, rfl⟩ := mem_glob_star.mp h
    exact ⟨_, e.1, slash_ls fs _ e he, rfl⟩
  · obtain ⟨x, -, e, he, -, rfl⟩ := mem_glob_period_star.mp h
    exact ⟨_, e.1, slash_ls fs _ e he, rfl⟩

theorem mydu_dir {n : Nat} {p : Str} (hp : fs.lookup p ≠ none) (hdir : fs.isDir p) (s : Account) :
    mydu fs (n + 1) p s = (do
      let _ ← nextPath p ['/', '*']
      let _ ← nextPath p ['/', '.', '*']
      let s ← add s p ⟨true, fs.blocksAt p⟩
      (next fs p).foldlM (fun s q => mydu fs n q s) s) := by
  rw [mydu, lstat_eq hp, ok_bind]
  simp only [hdir, if_true]
  unfold nextPath
  split
  · split
    · simp only [ok_bind, next, hdir, if_true, visit_filter _ fun q => glob_slash]
    · rfl
  · rfl

theorem mydu_other {n : Nat} {p : Str} (hp : fs.lookup p ≠ none) (hdir : ¬ fs.isDir p) (s : Account) :
    mydu fs (n + 1) p s = add s p ⟨false, fs.blocksAt p⟩ := by
  rw [mydu, lstat_eq hp, ok_bind]
  simp only [hdir]
  rfl

/-- A run that returns has made the walk of the listings, and counted it. -/
def Counts (fs : FileSystem) (n : Nat) (p : Str) : Prop := ∀ s s', mydu fs n p s = .ok s' →
  Complete (next fs) n p ∧ s' = s.after fs (walk (next fs) n p) ∧ s'.res < 2 ^ 63

theorem loop_ok {n : Nat} (ih : ∀ p, Counts fs n p) : ∀ {l : List Str} {s s' : Account}, s.res < 2 ^ 63 →
    l.foldlM (fun s q => mydu fs n q s) s = .ok s' →
    (∀ q ∈ l, Complete (next fs) n q) ∧ s' = s.after fs (l.flatMap (walk (next fs) n)) ∧ s'.res < 2 ^ 63
  | [], s, s', hs, h => by
    cases h
    simpa [Account.after_nil] using hs
  | q :: l, s, s', hs, h => by
    rw [List.foldlM_cons] at h
    obtain ⟨s₁, hq, h⟩ := bind_eq_ok.mp h
    obtain ⟨hc, hs₁, hres⟩ := ih q s s₁ hq
    obtain ⟨hcs, hs', hres'⟩ := loop_ok ih hres h
    rw [List.flatMap_cons, Account.after_append, ← hs₁]
    exact ⟨List.forall_mem_cons.mpr ⟨hc, hcs⟩, hs', hres'⟩

theorem run_ok (n : Nat) : ∀ p, Counts fs n p := by
  induction n with
  | zero =>
    intro p s s' h
    cases h
  | succ n ih =>
    intro p s s' h
    have hp : fs.lookup p ≠ none := by
      obtain ⟨st, hst, -⟩ := bind_eq_ok.mp h
      exact (lstat_ok hst).1
    by_cases hdir : fs.isDir p
    · rw [mydu_dir hp hdir] at h
      obtain ⟨-, -, h⟩ := bind_eq_ok.mp h
      obtain ⟨-, -, h⟩ := bind_eq_ok.mp h
      obtain ⟨s₁, hadd, h⟩ := bind_eq_ok.mp h
      obtain ⟨hs₁, hres⟩ := add_ok hadd
      rw [walk, Account.after_cons, ← hs₁]
      exact loop_ok ih hres h
    · rw [mydu_other hp hdir] at h
      have hnil : next fs p = [] := by simp [next, hdir]
      simpa [Complete, walk, hnil] using add_ok h

theorem nextPath_eq {p suffix : Str} (h : p.length + suffix.length < pathsize) :
    nextPath p suffix = .ok (p ++ suffix) := if_pos h

/-- The pathname of a directory leaves room for the longer one of the two patterns. -/
def Fits (fs : FileSystem) (p : Str) : Prop := fs.isDir p → p.length + 3 < pathsize

/-- A walk that stays among pathnames that exist and fit, on a sum that fits, is made. -/
def Returns (fs : FileSystem) (n : Nat) (p : Str) : Prop := ∀ s : Account, Complete (next fs) n p →
  (∀ q ∈ walk (next fs) n p, fs.lookup q ≠ none ∧ Fits fs q) → -2 ^ 63 ≤ s.res →
  (s.after fs (walk (next fs) n p)).res < 2 ^ 63 → mydu fs n p s = .ok (s.after fs (walk (next fs) n p))

theorem loop_eq {n : Nat} (ih : ∀ p, Returns fs n p) : ∀ {l : List Str} {s : Account},
    (∀ q ∈ l, Complete (next fs) n q) →
    (∀ q ∈ l.flatMap (walk (next fs) n), fs.lookup q ≠ none ∧ Fits fs q) → -2 ^ 63 ≤ s.res →
    (s.after fs (l.flatMap (walk (next fs) n))).res < 2 ^ 63 →
    l.foldlM (fun s q => mydu fs n q s) s = .ok (s.after fs (l.flatMap (walk (next fs) n)))
  | [], s, _, _, _, _ => by simp [Account.after_nil]
  | q :: l, s, hc, hwalk, hlow, hres => by
    rw [List.forall_mem_cons] at hc
    rw [List.flatMap_cons, Account.after_append] at hres ⊢
    simp only [List.flatMap_cons, List.mem_append] at hwalk
    have hq := ih q s hc.1 (fun r hr => hwalk r (.inl hr)) hlow ((Account.res_le_after ..).trans_lt hres)
    rw [List.foldlM_cons, hq, ok_bind]
    exact loop_eq ih hc.2 (fun r hr => hwalk r (.inr hr)) (hlow.trans (Account.res_le_after ..)) hres

theorem run_eq (n : Nat) : ∀ p, Returns fs n p := by
  induction n with
  | zero =>
    intro p s hc
    exact hc.elim
  | succ n ih =>
    intro p s hc hwalk hlow hres
    obtain ⟨hp, hfits⟩ := hwalk p (List.mem_cons_self ..)
    rw [walk, Account.after_cons] at hres ⊢
    have hadd : ∀ d, add s p ⟨d, fs.blocksAt p⟩ = .ok (s.after fs [p]) := fun d =>
      add_eq hlow ((Account.res_le_after ..).trans_lt hres)
    by_cases hdir : fs.isDir p
    · have hfits : p.length + 3 < pathsize := hfits hdir
      rw [mydu_dir hp hdir, nextPath_eq (Nat.lt_of_succ_lt hfits), ok_bind, nextPath_eq hfits, ok_bind, hadd, ok_bind]
      exact loop_eq ih hc (fun q hq => hwalk q (List.mem_cons_of_mem _ hq))
        (hlow.trans (Account.res_le_after ..)) hres
    · have hnil : next fs p = [] := by simp [next, hdir]
      rw [mydu_other hp hdir, hadd, hnil]
      simp [Account.after_nil]

/-! ## Every entry once -/

/-- Each directory that has entries is matched by the pathname of exactly one directory of the tree if it is
of the tree itself, and by none if it is not. -/
structure Legible (fs : FileSystem) (path : Str) : Prop where
  inside : ∀ p ∈ fs.tree path, fs.isDir p → ∀ q ∈ glob fs p, fs.opened q ≠ [] → q ∈ fs.tree path ∧ fs.isDir q
  once : ∀ q ∈ fs.tree path, fs.children q ≠ [] → ∃! p, (p ∈ fs.tree path ∧ fs.isDir p) ∧ q ∈ glob fs p

theorem Legible.listsOnce {path : Str} (h : Legible fs path) : ListsOnce (next fs) (fs.tree path) path := by
  constructor
  · intro p hp c hc
    obtain ⟨hdir, q, hq, hc⟩ := mem_next.mp hc
    obtain ⟨hqT, hqdir⟩ := h.inside p hp hdir q hq (List.ne_nil_of_mem hc)
    rw [opened_of_isDir hqdir] at hc
    exact children_tree hqT hc
  · intro c hcT hne
    obtain ⟨q, hq, hc⟩ := (tree_cases hcT).resolve_left hne
    obtain ⟨p, ⟨⟨hp, hdir⟩, hqp⟩, huniq⟩ := h.once q hq (List.ne_nil_of_mem hc)
    refine ⟨p, ⟨hp, mem_next.mpr ⟨hdir, q, hqp, opened_of_children hc⟩⟩, ?_⟩
    intro p' hp'
    obtain ⟨hdir', q', hqp', hc'⟩ := mem_next.mp hp'.2
    rw [← opened_inj (opened_of_children hc) hc'] at hqp'
    exact huniq p' ⟨⟨hp'.1, hdir'⟩, hqp'⟩

theorem legible_of_listsOnce {path : Str} (h : ListsOnce (next fs) (fs.tree path) path) : Legible fs path := by
  have hne : ∀ p ∈ fs.tree path, ∀ c ∈ next fs p, c ≠ path := by
    intro p hp c hc heq
    have hlt := depth_next hc
    have hle := depth_tree hp
    rw [heq] at hlt
    omega
  constructor
  · intro p hp hdir q hq hopened
    obtain ⟨c, hc⟩ := List.exists_mem_of_ne_nil _ hopened
    have hnext : c ∈ next fs p := mem_next.mpr ⟨hdir, q, hq, hc⟩
    obtain ⟨q', hq', hc'⟩ := (tree_cases (h.inside p hp c hnext)).resolve_left (hne p hp c hnext)
    rw [opened_inj hc (opened_of_children hc')]
    exact ⟨hq', isDir_of_children hc'⟩
  · intro q hq hchildren
    obtain ⟨c, hc⟩ := List.exists_mem_of_ne_nil _ hchildren
    have hpath : c ≠ path := by
      intro heq
      obtain ⟨n, hn, hcq⟩ := opened_slash (opened_of_children hc)
      have hle := depth_tree hq
      rw [← heq, hcq, depth_slash hn] at hle
      omega
    obtain ⟨p, ⟨hp, hnext⟩, huniq⟩ := h.once c (children_tree hq hc) hpath
    obtain ⟨hdir, q', hq', hc'⟩ := mem_next.mp hnext
    rw [← opened_inj (opened_of_children hc) hc'] at hq'
    refine ⟨p, ⟨⟨hp, hdir⟩, hq'⟩, ?_⟩
    intro p' hp'
    exact huniq p' ⟨hp'.1.1, mem_next.mpr ⟨hp'.1.2, q, hp'.2, opened_of_children hc⟩⟩

theorem legible_iff_covers {path : Str} (hfin : (fs.tree path).Finite) :
    Legible fs path ↔ Covers (next fs) (fs.tree path) path := by
  constructor
  · intro h
    exact h.listsOnce.covers hfin .refl nodup_next (fun _ _ => depth_next) fun _ => depth_tree
  · intro h
    exact legible_of_listsOnce h.listsOnce

theorem legible_of_plain {path : Str} (hpath : fs.lookup path ≠ none)
    (h : ∀ p ∈ fs.tree path, fs.isDir p → Glob.Plain p) : Legible fs path := by
  have hglob : ∀ p ∈ fs.tree path, fs.isDir p → ∀ q, q ∈ glob fs p ↔ q = p := fun p hp hdir q =>
    glob_plain (h p hp hdir) (lookup_tree hpath hp)
  constructor
  · intro p hp hdir q hq _
    rw [(hglob p hp hdir q).mp hq]
    exact ⟨hp, hdir⟩
  · intro q hq hchildren
    obtain ⟨c, hc⟩ := List.exists_mem_of_ne_nil _ hchildren
    have hdir := isDir_of_children hc
    refine ⟨q, ⟨⟨hq, hdir⟩, (hglob q hq hdir q).mpr rfl⟩, ?_⟩
    intro p hp
    exact ((hglob p hp.1.1 hp.1.2 q).mp hp.2).symm

def CountsOnce (fs : FileSystem) (path : Str) (hfin : (fs.tree path).Finite) (res : Int) : Prop :=
  ∃ s : Account, (∃ n₀, ∀ n ≥ n₀, mydu fs n path ⟨res, []⟩ = .ok s) ∧
    s.res = res + (∑ q ∈ hfin.toFinset, fs.blocksAt q : Nat) ∧ s.counted.Nodup ∧
    ∀ q, q ∈ s.counted ↔ q ∈ fs.tree path

theorem sum_walk {T : Set Str} (hfin : T.Finite) {l : List Str} (hnodup : l.Nodup) (hl : ∀ q, q ∈ l ↔ q ∈ T) :
    (l.map fs.blocksAt).sum = ∑ q ∈ hfin.toFinset, fs.blocksAt q := by
  rw [← List.sum_toFinset _ hnodup]
  congr 1
  ext q
  simp [hl]

theorem CountsOnce.covers {path : Str} {hfin : (fs.tree path).Finite} {res : Int} (h : CountsOnce fs path hfin res) :
    Covers (next fs) (fs.tree path) path ∧ res + (∑ q ∈ hfin.toFinset, fs.blocksAt q : Nat) < 2 ^ 63 := by
  obtain ⟨s, ⟨n, hn⟩, hsum, hnodup, hmem⟩ := h
  obtain ⟨hc, rfl, hlt⟩ := run_ok n path _ _ (hn n (Nat.le_refl _))
  have hcounted : (Account.after fs ⟨res, []⟩ (walk (next fs) n path)).counted = walk (next fs) n path := rfl
  rw [hcounted] at hnodup hmem
  rw [hsum] at hlt
  exact ⟨⟨n, hc, hnodup, hmem⟩, hlt⟩

theorem countsOnce_of_covers {path : Str} {hfin : (fs.tree path).Finite} {res : Int} (hpath : fs.lookup path ≠ none)
    (hfits : ∀ q ∈ fs.tree path, Fits fs q) (hres : -2 ^ 63 ≤ res) (h : Covers (next fs) (fs.tree path) path)
    (hlt : res + (∑ q ∈ hfin.toFinset, fs.blocksAt q : Nat) < 2 ^ 63) : CountsOnce fs path hfin res := by
  obtain ⟨n, hc, hnodup, hmem⟩ := h
  have hsum : ((walk (next fs) n path).map fs.blocksAt).sum = _ := sum_walk hfin hnodup hmem
  rw [← hsum] at hlt
  refine ⟨Account.after fs ⟨res, []⟩ (walk (next fs) n path), ⟨n, ?_⟩, by rw [← hsum]; rfl, hnodup, hmem⟩
  intro m hm
  have hwalk : ∀ q ∈ walk (next fs) m path, fs.lookup q ≠ none ∧ Fits fs q := by
    intro q hq
    rw [walk_mono hm hc, hmem] at hq
    exact ⟨lookup_tree hpath hq, hfits q hq⟩
  have hrun := run_eq m path ⟨res, []⟩ (complete_mono hm hc) hwalk hres
  rw [walk_mono hm hc] at hrun
  exact hrun hlt

/-- `mydu` counts every entry of a finite tree once, if and only if each directory with entries is matched by
the pathname of exactly one directory of the tree, and none outside is; and the sum fits. -/
theorem counts_once_iff (path : Str) (res : Int) (hpath : fs.lookup path ≠ none) (hfin : (fs.tree path).Finite)
    (hfits : ∀ q ∈ fs.tree path, Fits fs q) (hres : -2 ^ 63 ≤ res) : CountsOnce fs path hfin res ↔
      Legible fs path ∧ res + (∑ q ∈ hfin.toFinset, fs.blocksAt q : Nat) < 2 ^ 63 := by
  rw [legible_iff_covers hfin]
  constructor
  · intro h
    exact h.covers
  · intro h
    exact countsOnce_of_covers hpath hfits hres h.1 h.2

def nested (name : Str) (h : name ≠ [] ∧ '/' ∉ name ∧ name ≠ ['.'] ∧ name ≠ ['.', '.']) : FileSystem where
  node
    | 0 => .directory ⟨0, [(['d'], 1)], by decide, by decide⟩
    | 1 => .directory ⟨0, [(name, 2)], by simp, by simpa using h⟩
    | 2 => .directory ⟨1, [(['x'], 3)], by decide, by decide⟩
    | _ => .other
  blocks _ := 8
  root := 0
  cwd := 0

theorem sum_le {path : Str} (hfin : (fs.tree path).Finite) {l : List Str} (hl : ∀ q ∈ fs.tree path, q ∈ l) :
    ∑ q ∈ hfin.toFinset, fs.blocksAt q ≤ ∑ q ∈ l.toFinset, fs.blocksAt q := by
  apply Finset.sum_le_sum_of_subset
  intro q hq
  simpa using hl q (by simpa using hq)

theorem counts_once_plain : ∃ hfin, CountsOnce (nested ['a'] (by decide)) ['d'] hfin 0 := by
  have hsub : ∀ q ∈ (nested ['a'] (by decide)).tree ['d'],
      q ∈ [['d'], ['d', '/', 'a'], ['d', '/', 'a', '/', 'x']] := tree_subset (by decide) (by decide)
  have hfin : ((nested ['a'] (by decide)).tree ['d']).Finite := (List.finite_toSet _).subset hsub
  have hfits : ∀ p ∈ [['d'], ['d', '/', 'a'], ['d', '/', 'a', '/', 'x']], p.length + 3 < pathsize := by
    simp [pathsize]
  have hplain : ∀ p ∈ [['d'], ['d', '/', 'a'], ['d', '/', 'a', '/', 'x']],
      ∀ c ∈ p, c ≠ '*' ∧ c ≠ '?' ∧ c ≠ '[' ∧ c ≠ '\\' := by simp
  have hlegible : Legible (nested ['a'] (by decide)) ['d'] :=
    legible_of_plain (by decide) fun p hp _ => hplain p (hsub p hp)
  have hsum := (sum_le hfin hsub).trans (show _ ≤ 24 by decide +kernel)
  have hiff := counts_once_iff ['d'] 0 (by decide) hfin (fun q hq _ => hfits q (hsub q hq)) (by omega)
  exact ⟨hfin, hiff.mpr ⟨hlegible, by omega⟩⟩

/-- The pattern `d/[a]/*` does not match `d/[a]/x`. -/
theorem bracket_not_counted : ∃ (fs : FileSystem) (path : Str) (hfin : (fs.tree path).Finite),
    fs.lookup path ≠ none ∧ (∀ q ∈ fs.tree path, Fits fs q) ∧ ¬ CountsOnce fs path hfin 0 := by
  have hsub : ∀ q ∈ (nested ['[', 'a', ']'] (by decide)).tree ['d'],
      q ∈ [['d'], ['d', '/', '[', 'a', ']'], ['d', '/', '[', 'a', ']', '/', 'x']] :=
    tree_subset (by decide) (by decide)
  have hfits : ∀ p ∈ [['d'], ['d', '/', '[', 'a', ']'], ['d', '/', '[', 'a', ']', '/', 'x']],
      p.length + 3 < pathsize := by simp [pathsize]
  have hnone : ∀ p ∈ [['d'], ['d', '/', '[', 'a', ']'], ['d', '/', '[', 'a', ']', '/', 'x']],
      ['d', '/', '[', 'a', ']'] ∉ glob (nested ['[', 'a', ']'] (by decide)) p := by decide +kernel
  refine ⟨_, ['d'], (List.finite_toSet _).subset hsub, by decide, fun q hq _ => hfits q (hsub q hq), ?_⟩
  intro h
  have hlegible := legible_of_listsOnce h.covers.1.listsOnce
  obtain ⟨p, ⟨⟨hp, -⟩, hglob⟩, -⟩ := hlegible.once ['d', '/', '[', 'a', ']'] (children_tree .refl (by decide)) (by decide)
  exact hnone p (hsub p hp) hglob

end MyLearning.Mydu
