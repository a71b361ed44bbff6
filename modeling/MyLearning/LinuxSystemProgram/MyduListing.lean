import Mathlib.Logic.Relation
import MyLearning.LinuxSystemProgram.Mydu

/-!
# What is listed

The pathname of a directory is part of the two patterns that list it, and so it is read
as a pattern itself: what is listed are the entries of all directories that it matches.
-/

namespace MyLearning.Mydu

open FileSystem

variable (fs : FileSystem)

/-! ## Trees -/

namespace FileSystem

def entries (i : Ino) : List (Str × Ino) :=
  match fs.node i with
  | .directory dir => dir.entries
  | _ => []

def isDir (path : Str) : Bool :=
  match fs.lookup path with
  | none => false
  | some i => (fs.node i).isDir

def children (path : Str) : List Str :=
  match fs.lookup path with
  | none => []
  | some i => (fs.entries i).map fun e => path ++ '/' :: e.1

/-- The pathnames that are reached by opening: a link is followed. -/
def opened (path : Str) : List Str :=
  match fs.lookup path with
  | none => []
  | some i => (fs.entries (fs.follow i)).map fun e => path ++ '/' :: e.1

def blocksAt (path : Str) : Nat :=
  match fs.lookup path with
  | none => 0
  | some i => fs.blocks i

def tree (path : Str) : Set Str := {q | Relation.ReflTransGen (fun p q => q ∈ fs.children p) path q}

end FileSystem

variable {fs}

/-! ## Pathnames -/

theorem components_slash {p n : Str} (hn : '/' ∉ n) : components (p ++ '/' :: n) = components p ++ [n] := by
  rw [components, List.splitOn_append_cons_self, List.splitOn_eq_singleton hn]
  rfl

theorem components_inj {p q : Str} (h : components p = components q) : p = q := by
  have hself : ∀ p : Str, ['/'].intercalate (components p) = p := fun p => List.intercalate_splitOn '/'
  rw [← hself p, ← hself q, h]

theorem slash_inj {p q n m : Str} (hn : '/' ∉ n) (hm : '/' ∉ m) (h : p ++ '/' :: n = q ++ '/' :: m) : p = q ∧ n = m := by
  have hc := congrArg components h
  rw [components_slash hn, components_slash hm] at hc
  obtain ⟨hp, hn⟩ := List.append_inj' hc rfl
  exact ⟨components_inj hp, by simpa using hn⟩

theorem components_ne_nil (p : Str) : components p ≠ [] := List.splitOn_ne_nil '/' p

theorem components_intercalate {ns : List Str} (hns : ∀ n ∈ ns, '/' ∉ n) (h : ns ≠ []) :
    components (['/'].intercalate ns) = ns := List.splitOn_intercalate '/' hns h

theorem start_append {ns ms : List Str} (h : ns ≠ []) : fs.start (ns ++ ms) = fs.start ns := by
  obtain ⟨n, ns, rfl⟩ := List.exists_cons_of_ne_nil h
  rfl

/-! ## Listings -/

theorem follow_of_isDir {i : Ino} (h : (fs.node i).isDir) : fs.follow i = i := by
  unfold follow
  split
  · rename_i ht
    rw [ht] at h
    cases h
  · rfl

theorem mem_ls {i : Ino} {e : Str × Ino} (he : e ∈ fs.ls i) :
    e ∈ fs.entries (fs.follow i) ∨ e.1 = ['.'] ∨ e.1 = ['.', '.'] := by
  unfold ls at he
  unfold entries
  cases hnode : fs.node (fs.follow i) with
  | directory dir =>
    simp only [hnode, List.mem_cons] at he
    rcases he with rfl | rfl | he
    · exact .inr (.inl rfl)
    · exact .inr (.inr rfl)
    · exact .inl he
  | symlink target => simp [hnode] at he
  | other => simp [hnode] at he

theorem entries_subset_ls {i : Ino} {e : Str × Ino} (he : e ∈ fs.entries (fs.follow i)) : e ∈ fs.ls i := by
  unfold entries at he
  unfold ls
  cases hnode : fs.node (fs.follow i) with
  | directory dir =>
    simp only [hnode] at he ⊢
    exact List.mem_cons_of_mem _ (List.mem_cons_of_mem _ he)
  | symlink target => simp [hnode] at he
  | other => simp [hnode] at he

theorem entries_proper {i : Ino} {e : Str × Ino} (he : e ∈ fs.entries i) :
    e.1 ≠ [] ∧ '/' ∉ e.1 ∧ e.1 ≠ ['.'] ∧ e.1 ≠ ['.', '.'] := by
  unfold entries at he
  split at he
  · exact Directory.proper _ e he
  · cases he

theorem lists_ls (fs : FileSystem) : Glob.Lists fs.ls := by
  constructor
  · intro i
    unfold ls
    split
    · rename_i dir _
      have hproper := dir.proper
      simp only [List.map_cons, List.nodup_cons, List.mem_cons, List.mem_map, not_or, not_exists, not_and]
      refine ⟨⟨by decide, ?_⟩, ?_, dir.nodup⟩
      · intro e he
        exact (hproper e he).2.2.1
      · intro e he
        exact (hproper e he).2.2.2
    · simp
  · intro i e he
    rcases mem_ls he with he | he | he
    · exact (entries_proper he).1
    · simp [he]
    · simp [he]

theorem slash_ls (fs : FileSystem) : ∀ i, ∀ e ∈ fs.ls i, '/' ∉ e.1 := by
  intro i e he
  rcases mem_ls he with he | he | he
  · exact (entries_proper he).2.1
  · simp [he]
  · simp [he]

theorem lookup_slash {p : Str} {i : Ino} (hp : fs.lookup p = some i) {e : Str × Ino} (he : e ∈ fs.ls i) :
    fs.lookup (p ++ '/' :: e.1) = some e.2 := by
  unfold lookup at hp ⊢
  by_cases hnil : p = []
  · simp [hnil] at hp
  · rw [if_neg hnil] at hp
    rw [if_neg (by simp), components_slash (slash_ls fs i e he), start_append (components_ne_nil p),
      Glob.resolve_append, hp]
    simp [Glob.resolve, (lists_ls fs).ne_nil i e he, Glob.find_of_mem (lists_ls fs) he]

/-! ## Patterns -/

/-- What `glob` finds for a pathname `p`: `names` are the components, `i` is what they lead to. -/
def Found (fs : FileSystem) (p : Str) (x : List Str × Ino) : Prop :=
  x ∈ Glob.expand fs.ls fs.enter (components p) (fs.start (components p))

def text (names : List Str) : Str := ['/'].intercalate names

theorem mem_glob {p q : Str} : q ∈ glob fs p ↔ ∃ x, Found fs p x ∧ text x.1 = q := by
  rw [glob, (List.perm_insertionSort ..).mem_iff, List.mem_map]
  rfl

theorem Found.components {p : Str} {x : List Str × Ino} (hx : Found fs p x) : components (text x.1) = x.1 := by
  refine components_intercalate (Glob.mem_names (by simp) (slash_ls fs) hx) ?_
  intro hnil
  have hlen := Glob.length_of_mem hx
  rw [hnil] at hlen
  exact components_ne_nil p (List.length_eq_zero_iff.mp hlen.symm)

theorem Found.lookup {p : Str} (hp : p ≠ []) {x : List Str × Ino} (hx : Found fs p x) :
    fs.lookup (text x.1) = some x.2 := by
  have hc := hx.components
  have hhead := Glob.head_of_mem (lists_ls fs) hx
  have hne : text x.1 ≠ [] := by
    intro hnil
    rw [hnil] at hc
    have hlen := Glob.length_of_mem hx
    rw [← hc] at hlen hhead
    obtain ⟨n, hn⟩ := List.length_eq_one_iff.mp hlen.symm
    rw [hn] at hhead
    have hn' : n = [] := by simpa [FileSystem.components] using hhead
    rw [hn', ← show FileSystem.components [] = [[]] from rfl] at hn
    exact hp (components_inj hn)
  have hstart : fs.start x.1 = fs.start (FileSystem.components p) := by
    unfold start
    rw [if_congr hhead rfl rfl]
  rw [FileSystem.lookup, if_neg hne, hc, hstart]
  exact Glob.resolve_of_mem (lists_ls fs) hx

theorem found_slash {p n : Str} (hn : '/' ∉ n) (hne : n ≠ []) {y : List Str × Ino} :
    Found fs (p ++ '/' :: n) y ↔
      ∃ x, Found fs p x ∧ ∃ e ∈ fs.ls x.2, Glob.fnmatch n e.1 ∧ y = (x.1 ++ [e.1], e.2) := by
  rw [Found, components_slash hn, start_append (components_ne_nil p), Glob.expand_append, List.mem_flatMap]
  simp only [Glob.expand_singleton, Glob.component, if_neg hne, List.mem_map, List.mem_filter]
  constructor
  · intro h
    obtain ⟨x, hx, z, ⟨e, he, rfl⟩, rfl⟩ := h
    exact ⟨x, hx, e, he.1, he.2, rfl⟩
  · intro h
    obtain ⟨x, hx, e, he, hm, rfl⟩ := h
    exact ⟨x, hx, _, ⟨e, ⟨he, hm⟩, rfl⟩, rfl⟩

theorem text_append {names : List Str} (h : names ≠ []) (n : Str) : text (names ++ [n]) = text names ++ '/' :: n := by
  induction names with
  | nil => exact absurd rfl h
  | cons m names ih =>
    cases names with
    | nil => simp [text, List.intercalate]
    | cons m' names =>
      have ih := ih (by simp)
      simp only [text, List.cons_append, List.intercalate_cons_cons] at ih ⊢
      rw [ih]
      simp

theorem mem_glob_slash {p n : Str} (hn : '/' ∉ n) (hne : n ≠ []) {q : Str} : q ∈ glob fs (p ++ '/' :: n) ↔
    ∃ x, Found fs p x ∧ ∃ e ∈ fs.ls x.2, Glob.fnmatch n e.1 ∧ q = text x.1 ++ '/' :: e.1 := by
  have htext : ∀ x : List Str × Ino, Found fs p x → ∀ m, text (x.1 ++ [m]) = text x.1 ++ '/' :: m := by
    intro x hx m
    refine text_append ?_ m
    rw [← hx.components]
    exact components_ne_nil _
  rw [mem_glob]
  constructor
  · intro h
    obtain ⟨y, hy, rfl⟩ := h
    obtain ⟨x, hx, e, he, hm, rfl⟩ := (found_slash hn hne).mp hy
    exact ⟨x, hx, e, he, hm, htext x hx e.1⟩
  · intro h
    obtain ⟨x, hx, e, he, hm, rfl⟩ := h
    exact ⟨_, (found_slash hn hne).mpr ⟨x, hx, e, he, hm, rfl⟩, htext x hx e.1⟩

theorem nodup_glob (p : Str) : (glob fs p).Nodup := by
  rw [glob, (List.perm_insertionSort ..).nodup_iff]
  have hnodup : ((Glob.expand fs.ls fs.enter (components p) (fs.start (components p))).map Prod.fst).Nodup :=
    Glob.nodup_expand (lists_ls fs) ..
  have htext : ∀ l : List (List Str × Ino), l.map (fun x => ['/'].intercalate x.1) = (l.map Prod.fst).map text := by
    intro l
    rw [List.map_map]
    rfl
  rw [htext]
  refine hnodup.map_on ?_
  intro ns hns ms hms heq
  obtain ⟨x, hx, rfl⟩ := List.mem_map.mp hns
  obtain ⟨y, hy, rfl⟩ := List.mem_map.mp hms
  rw [← Found.components hx, ← Found.components hy, heq]

/-! ## Plain pathnames -/

theorem mem_text {names : List Str} {n : Str} (hn : n ∈ names) : ∀ c ∈ n, c ∈ text names := by
  intro c hc
  induction names with
  | nil => cases hn
  | cons m names ih =>
    cases names with
    | nil =>
      rw [List.mem_singleton] at hn
      subst hn
      simpa [text, List.intercalate] using hc
    | cons m' names =>
      simp only [text, List.intercalate_cons_cons, List.mem_append] at ih ⊢
      rcases List.mem_cons.mp hn with rfl | hn
      · exact .inl (.inl hc)
      · exact .inr (ih hn)

theorem glob_plain {p : Str} (hplain : Glob.Plain p) (hp : fs.lookup p ≠ none) {q : Str} : q ∈ glob fs p ↔ q = p := by
  have hcomp : ∀ n ∈ components p, Glob.Plain n := by
    intro n hn c hc
    apply hplain
    have hmem := mem_text hn c hc
    rwa [text, components, List.intercalate_splitOn] at hmem
  have hself : text (components p) = p := List.intercalate_splitOn '/'
  rw [mem_glob]
  constructor
  · intro h
    obtain ⟨x, hx, rfl⟩ := h
    rw [((Glob.expand_plain (lists_ls fs) hcomp).mp hx).1, hself]
  · intro h
    subst h
    cases hi : fs.lookup q with
    | none => exact absurd hi hp
    | some i =>
      refine ⟨(components q, i), (Glob.expand_plain (lists_ls fs) hcomp).mpr ⟨rfl, ?_⟩, hself⟩
      unfold lookup at hi
      split at hi
      · cases hi
      · exact hi

/-! ## What a directory lists -/

theorem strrchr_slash {p n : Str} (hn : '/' ∉ n) : strrchr '/' (p ++ '/' :: n) = some ('/' :: n) := by
  induction p with
  | nil =>
    have hnone : strrchr '/' n = none := by
      induction n with
      | nil => rfl
      | cons c n ih =>
        rw [List.mem_cons, not_or] at hn
        simp [strrchr, ih hn.2, Ne.symm hn.1]
    simp [strrchr, hnone]
  | cons c p ih => simp [strrchr, ih]

def kept (path : Str) : Bool :=
  match pathSkip path with
  | .ok skip => !skip
  | .error _ => false

theorem pathSkip_slash {p n : Str} (hn : '/' ∉ n) :
    pathSkip (p ++ '/' :: n) = .ok (decide (n = ['.'] ∨ n = ['.', '.'])) := by
  rw [pathSkip, strrchr_slash hn]
  rfl

theorem kept_slash {p n : Str} (hn : '/' ∉ n) : kept (p ++ '/' :: n) = true ↔ n ≠ ['.'] ∧ n ≠ ['.', '.'] := by
  simp [kept, pathSkip_slash hn]

def next (fs : FileSystem) (path : Str) : List Str :=
  if fs.isDir path then
    (glob fs (path ++ ['/', '*']) ++ glob fs (path ++ ['/', '.', '*'])).filter fun q => kept q
  else []

theorem mem_glob_star {p q : Str} : q ∈ glob fs (p ++ ['/', '*']) ↔
    ∃ x, Found fs p x ∧ ∃ e ∈ fs.ls x.2, e.1.head? ≠ some '.' ∧ q = text x.1 ++ '/' :: e.1 := by
  rw [mem_glob_slash (n := ['*']) (by decide) (by decide)]
  simp only [Glob.fnmatch_star]

theorem mem_glob_period_star {p q : Str} : q ∈ glob fs (p ++ ['/', '.', '*']) ↔
    ∃ x, Found fs p x ∧ ∃ e ∈ fs.ls x.2, e.1.head? = some '.' ∧ q = text x.1 ++ '/' :: e.1 := by
  rw [mem_glob_slash (n := ['.', '*']) (by decide) (by decide)]
  simp only [Glob.fnmatch_period_star]

theorem ne_nil_of_isDir {p : Str} (h : fs.isDir p) : p ≠ [] := by
  intro hp
  subst hp
  cases h

theorem mem_opened {q r : Str} {i : Ino} (hq : fs.lookup q = some i) :
    r ∈ fs.opened q ↔ ∃ e ∈ fs.entries (fs.follow i), r = q ++ '/' :: e.1 := by
  simp only [opened, hq, List.mem_map, @eq_comm _ r]

theorem mem_next {p r : Str} : r ∈ next fs p ↔ fs.isDir p ∧ ∃ q ∈ glob fs p, r ∈ fs.opened q := by
  unfold next
  by_cases hdir : fs.isDir p
  · have hp := ne_nil_of_isDir hdir
    rw [if_pos hdir, List.mem_filter, List.mem_append, mem_glob_star, mem_glob_period_star]
    simp only [hdir, true_and]
    constructor
    · intro h
      obtain ⟨hmem, hkept⟩ := h
      obtain ⟨x, hx, e, he, rfl⟩ : ∃ x, Found fs p x ∧ ∃ e ∈ fs.ls x.2, r = text x.1 ++ '/' :: e.1 := by
        rcases hmem with ⟨x, hx, e, he, -, hr⟩ | ⟨x, hx, e, he, -, hr⟩
        · exact ⟨x, hx, e, he, hr⟩
        · exact ⟨x, hx, e, he, hr⟩
      rw [kept_slash (slash_ls fs _ e he)] at hkept
      refine ⟨text x.1, mem_glob.mpr ⟨x, hx, rfl⟩, (mem_opened (hx.lookup hp)).mpr ⟨e, ?_, rfl⟩⟩
      rcases mem_ls he with he | he | he
      · exact he
      · exact absurd he hkept.1
      · exact absurd he hkept.2
    · intro h
      obtain ⟨q, hq, hr⟩ := h
      obtain ⟨x, hx, rfl⟩ := mem_glob.mp hq
      obtain ⟨e, he, rfl⟩ := (mem_opened (hx.lookup hp)).mp hr
      obtain ⟨-, hslash, hdot⟩ := entries_proper he
      refine ⟨?_, (kept_slash hslash).mpr hdot⟩
      have hls := entries_subset_ls he
      by_cases hperiod : e.1.head? = some '.'
      · exact .inr ⟨x, hx, e, hls, hperiod, rfl⟩
      · exact .inl ⟨x, hx, e, hls, hperiod, rfl⟩
  · simp [hdir]

theorem nodup_next (p : Str) : (next fs p).Nodup := by
  unfold next
  split
  · refine List.Nodup.filter _ ((nodup_glob _).append (nodup_glob _) ?_)
    intro q hq hq'
    obtain ⟨x, -, e, he, hne, rfl⟩ := mem_glob_star.mp hq
    obtain ⟨y, -, e', he', hperiod, heq⟩ := mem_glob_period_star.mp hq'
    obtain ⟨-, hname⟩ := slash_inj (slash_ls fs _ e he) (slash_ls fs _ e' he') heq
    rw [← hname] at hperiod
    exact hne hperiod
  · exact List.nodup_nil

/-! ## Trees -/

theorem opened_slash {q r : Str} (h : r ∈ fs.opened q) : ∃ n, '/' ∉ n ∧ r = q ++ '/' :: n := by
  unfold opened at h
  split at h
  · cases h
  · obtain ⟨e, he, rfl⟩ := List.mem_map.mp h
    exact ⟨e.1, (entries_proper he).2.1, rfl⟩

theorem isDir_of_children {p c : Str} (h : c ∈ fs.children p) : fs.isDir p := by
  unfold children at h
  unfold FileSystem.isDir
  split at h
  · cases h
  · rename_i i hi
    obtain ⟨e, he, -⟩ := List.mem_map.mp h
    unfold entries at he
    split at he
    · rename_i hnode
      simp [hnode, Node.isDir]
    · cases he

theorem opened_of_isDir {p : Str} (h : fs.isDir p) : fs.opened p = fs.children p := by
  unfold FileSystem.isDir at h
  unfold opened children
  split at h
  · cases h
  · rename_i i hi
    simp only [follow_of_isDir h]

theorem opened_of_children {p c : Str} (h : c ∈ fs.children p) : c ∈ fs.opened p := by
  rw [opened_of_isDir (isDir_of_children h)]
  exact h

theorem lookup_of_children {p c : Str} (h : c ∈ fs.children p) : fs.lookup c ≠ none := by
  have hc := opened_of_children h
  cases hp : fs.lookup p with
  | none => simp [opened, hp] at hc
  | some i =>
    obtain ⟨e, he, rfl⟩ := (mem_opened hp).mp hc
    rw [lookup_slash hp (entries_subset_ls he)]
    simp

theorem opened_inj {p q c : Str} (hp : c ∈ fs.opened p) (hq : c ∈ fs.opened q) : p = q := by
  obtain ⟨n, hn, rfl⟩ := opened_slash hp
  obtain ⟨m, hm, heq⟩ := opened_slash hq
  exact (slash_inj hn hm heq).1

theorem children_tree {path p c : Str} (hp : p ∈ fs.tree path) (hc : c ∈ fs.children p) : c ∈ fs.tree path :=
  Relation.ReflTransGen.tail hp hc

theorem tree_cases {path q : Str} (hq : q ∈ fs.tree path) : q = path ∨ ∃ p ∈ fs.tree path, q ∈ fs.children p := by
  rcases Relation.ReflTransGen.cases_tail hq with rfl | ⟨p, hp, hq⟩
  · exact .inl rfl
  · exact .inr ⟨p, hp, hq⟩

theorem lookup_tree {path q : Str} (hpath : fs.lookup path ≠ none) (hq : q ∈ fs.tree path) : fs.lookup q ≠ none := by
  rcases tree_cases hq with rfl | ⟨p, -, hq⟩
  · exact hpath
  · exact lookup_of_children hq

theorem tree_subset {path : Str} {l : List Str} (hpath : path ∈ l) (hl : ∀ p ∈ l, ∀ c ∈ fs.children p, c ∈ l) :
    ∀ q ∈ fs.tree path, q ∈ l := by
  intro q hq
  induction hq with
  | refl => exact hpath
  | tail _ hc ih => exact hl _ ih _ hc

/-! ## Depth -/

def depth (path : Str) : Nat := (components path).length

theorem depth_slash {p n : Str} (hn : '/' ∉ n) : depth (p ++ '/' :: n) = depth p + 1 := by
  simp [depth, components_slash hn]

theorem depth_glob {p q : Str} (h : q ∈ glob fs p) : depth q = depth p := by
  obtain ⟨x, hx, rfl⟩ := mem_glob.mp h
  rw [depth, hx.components, Glob.length_of_mem hx]
  rfl

theorem depth_next {p r : Str} (h : r ∈ next fs p) : depth p < depth r := by
  obtain ⟨-, q, hq, hr⟩ := mem_next.mp h
  obtain ⟨n, hn, rfl⟩ := opened_slash hr
  rw [depth_slash hn, depth_glob hq]
  exact Nat.lt_succ_self _

theorem depth_tree {path q : Str} (hq : q ∈ fs.tree path) : depth path ≤ depth q := by
  induction hq with
  | refl => exact Nat.le_refl _
  | tail _ hc ih =>
    obtain ⟨n, hn, rfl⟩ := opened_slash (opened_of_children hc)
    rw [depth_slash hn]
    exact Nat.le_succ_of_le ih

end MyLearning.Mydu
