import Mathlib.Data.List.Infix
import Mathlib.Data.List.Nodup

/-!
# Filename patterns

A pattern is matched against one component of a pathname: `*` stands for any string, `?`
for any character, `[` and `]` enclose a set of characters, a backslash quotes. A list of
patterns is expanded by walking down directories, whose listings are a parameter.
-/

namespace MyLearning.Glob

/-! ## Sets of characters -/

def charClass (name : List Char) (c : Char) : Bool :=
  match String.ofList name with
  | "alnum" => c.isAlphanum
  | "alpha" => c.isAlpha
  | "blank" => c.val == 32 || c.val == 9
  | "cntrl" => c.val < 32 || c.val == 127
  | "digit" => c.isDigit
  | "graph" => 32 < c.val && c.val < 127
  | "lower" => c.isLower
  | "print" => 32 ≤ c.val && c.val < 127
  | "punct" => 32 < c.val && c.val < 127 && !c.isAlphanum
  | "space" => c.val == 32 || 9 ≤ c.val && c.val ≤ 13
  | "upper" => c.isUpper
  | "xdigit" => c.isDigit || 'a' ≤ c && c ≤ 'f' || 'A' ≤ c && c ≤ 'F'
  | _ => false

/-- A class after its `[:`, and what comes after its `:]`. -/
def className : List Char → Option (List Char × List Char)
  | [] => none
  | ':' :: ']' :: s => some ([], s)
  | c :: s => (className s).map fun x => (c :: x.1, x.2)

/-- A single character; a backslash quotes here as well. -/
def element : List Char → Option (Char × List Char)
  | [] => none
  | '\\' :: c :: s => some (c, s)
  | '[' :: '.' :: c :: '.' :: ']' :: s => some (c, s)
  | '[' :: '=' :: c :: '=' :: ']' :: s => some (c, s)
  | c :: s => some (c, s)

def range (s : List Char) : Option ((Char → Bool) × List Char) := do
  let (a, s) ← element s
  match s with
  | '-' :: ']' :: _ => return ((· == a), s)
  | '-' :: s => do
    let (b, s) ← element s
    return (fun c => a ≤ c && c ≤ b, s)
  | s => return ((· == a), s)

def item : List Char → Option ((Char → Bool) × List Char)
  | '[' :: ':' :: s =>
    match className s with
    | some (name, s) => some (charClass name, s)
    | none => range ('[' :: ':' :: s)
  | s => range s

def items : Nat → Bool → List Char → Option ((Char → Bool) × List Char)
  | 0, _, _ => none
  | n + 1, first, s =>
    if s.head? = some ']' ∧ first = false then some (fun _ => false, s.tail)
    else do
      let (p, s) ← item s
      let (q, s) ← items n false s
      return (fun c => p c || q c, s)

/-- What follows an opening bracket; `none` if it is never closed. -/
def bracket : List Char → Option ((Char → Bool) × List Char)
  | '!' :: s => (items (s.length + 1) true s).map fun x => (fun c => !x.1 c, x.2)
  | '^' :: s => (items (s.length + 1) true s).map fun x => (fun c => !x.1 c, x.2)
  | s => items (s.length + 1) true s

/-! ## Patterns -/

inductive Token where
  | any
  | one
  | char (c : Char)
  | set (p : Char → Bool)

/-- A bracket that is never closed is a character. A last backslash quotes the slash after it. -/
def tokens : Nat → List Char → List Token
  | 0, _ => []
  | _ + 1, [] => []
  | _ + 1, ['\\'] => []
  | n + 1, '\\' :: c :: s => .char c :: tokens n s
  | n + 1, '*' :: s => .any :: tokens n s
  | n + 1, '?' :: s => .one :: tokens n s
  | n + 1, '[' :: s =>
    match bracket s with
    | some (p, s) => .set p :: tokens n s
    | none => .char '[' :: tokens n s
  | n + 1, c :: s => .char c :: tokens n s

def parse (pattern : List Char) : List Token := tokens pattern.length pattern

def accepts : List Token → List Char → Bool
  | [], s => s.isEmpty
  | .any :: ts, s => s.tails.any (accepts ts)
  | .one :: ts, _ :: s => accepts ts s
  | .char d :: ts, c :: s => c == d && accepts ts s
  | .set p :: ts, c :: s => p c && accepts ts s
  | _ :: _, [] => false

def period : List Token → Bool
  | .char c :: _ => c == '.'
  | _ => false

/-- The name matches; a leading period only by a period. -/
def fnmatch (pattern name : List Char) : Bool :=
  (name.head? != some '.' || period (parse pattern)) && accepts (parse pattern) name

theorem accepts_any (s : List Char) : accepts [.any] s = true := by
  simp [accepts]

theorem fnmatch_star (name : List Char) : fnmatch ['*'] name = true ↔ name.head? ≠ some '.' := by
  simp [fnmatch, parse, tokens, accepts_any, period]

theorem fnmatch_period_star (name : List Char) : fnmatch ['.', '*'] name = true ↔ name.head? = some '.' := by
  cases name with
  | nil => simp [fnmatch, parse, tokens, accepts]
  | cons c s => simp [fnmatch, parse, tokens, accepts, period]

def Plain (s : List Char) : Prop := ∀ c ∈ s, c ≠ '*' ∧ c ≠ '?' ∧ c ≠ '[' ∧ c ≠ '\\'

theorem tokens_plain {s : List Char} (hs : Plain s) : ∀ {n : Nat}, s.length ≤ n → tokens n s = s.map .char := by
  induction s with
  | nil =>
    intro n _
    cases n <;> simp [tokens]
  | cons c s ih =>
    intro n hn
    obtain ⟨n, rfl⟩ := Nat.exists_eq_add_of_le' (Nat.le_of_add_left_le hn)
    obtain ⟨hstar, hone, hopen, hquote⟩ := hs c (List.mem_cons_self ..)
    have ih := ih (fun d hd => hs d (List.mem_cons_of_mem _ hd)) (Nat.le_of_succ_le_succ hn)
    rw [tokens, ih, List.map_cons]
    · simp [hquote]
    · simp [hquote]
    · simp [hstar]
    · simp [hone]
    · simp [hopen]

theorem accepts_map_char {s name : List Char} : accepts (s.map .char) name = true ↔ name = s := by
  induction s generalizing name with
  | nil => simp [accepts]
  | cons c s ih =>
    cases name with
    | nil => simp [accepts]
    | cons d name => simp [accepts, ih]

theorem fnmatch_plain {s name : List Char} (hs : Plain s) : fnmatch s name = true ↔ name = s := by
  rw [fnmatch, parse, tokens_plain hs (Nat.le_refl _), Bool.and_eq_true, accepts_map_char]
  constructor
  · intro h
    exact h.2
  · intro h
    subst h
    cases name with
    | nil => simp
    | cons c s => by_cases hc : c = '.' <;> simp [period, hc]

/-! ## Expansion -/

section
variable {δ : Type*} (ls : δ → List (List Char × δ)) (enter : δ → Option δ)

/-- The names in a directory that match, with what they lead to. An empty component stays in the directory. -/
def component (pattern : List Char) (d : δ) : List (List Char × δ) :=
  if pattern = [] then (enter d).toList.map fun d' => ([], d')
  else (ls d).filter fun e => fnmatch pattern e.1

def expand : List (List Char) → δ → List (List (List Char) × δ)
  | [], d => [([], d)]
  | pattern :: patterns, d =>
    (component ls enter pattern d).flatMap fun e => (expand patterns e.2).map fun x => (e.1 :: x.1, x.2)

def resolve : List (List Char) → δ → Option δ
  | [], d => some d
  | name :: names, d =>
    if name = [] then (enter d).bind (resolve names)
    else ((ls d).find? fun e => e.1 == name).bind fun e => resolve names e.2

variable {ls enter}

theorem expand_append (ps qs : List (List Char)) (d : δ) : expand ls enter (ps ++ qs) d =
    (expand ls enter ps d).flatMap fun x => (expand ls enter qs x.2).map fun y => (x.1 ++ y.1, y.2) := by
  induction ps generalizing d with
  | nil => simp [expand]
  | cons p ps ih =>
    simp only [List.cons_append, expand, ih, List.flatMap_assoc, List.flatMap_map, List.map_flatMap, List.map_map]
    rfl

theorem expand_singleton (p : List Char) (d : δ) :
    expand ls enter [p] d = (component ls enter p d).map fun e => ([e.1], e.2) := by
  simp [expand, List.map_eq_flatMap]

theorem resolve_append (ns ms : List (List Char)) (d : δ) :
    resolve ls enter (ns ++ ms) d = (resolve ls enter ns d).bind (resolve ls enter ms) := by
  induction ns generalizing d with
  | nil => rfl
  | cons n ns ih =>
    by_cases hn : n = []
    · rw [List.cons_append, resolve, resolve, if_pos hn, if_pos hn, Option.bind_assoc, funext ih]
    · rw [List.cons_append, resolve, resolve, if_neg hn, if_neg hn, Option.bind_assoc]
      simp only [ih]

/-- The listings name everything once, and nothing by the empty name. -/
structure Lists (ls : δ → List (List Char × δ)) : Prop where
  nodup : ∀ d, ((ls d).map Prod.fst).Nodup
  ne_nil : ∀ d, ∀ e ∈ ls d, e.1 ≠ []

theorem find_of_mem (hl : Lists ls) {d : δ} {e : List Char × δ} (he : e ∈ ls d) :
    (ls d).find? (fun e' => e'.1 == e.1) = some e := by
  have hnodup := hl.nodup d
  revert he hnodup
  generalize ls d = l
  intro he hnodup
  induction l with
  | nil => cases he
  | cons e' l ih =>
    rw [List.map_cons, List.nodup_cons] at hnodup
    rcases List.mem_cons.mp he with rfl | he
    · simp
    · have hne : e'.1 ≠ e.1 := by
        intro heq
        exact hnodup.1 (heq ▸ List.mem_map_of_mem he)
      simp [hne, ih he hnodup.2]

theorem mem_component {p : List Char} {d : δ} {e : List Char × δ} : e ∈ component ls enter p d ↔
    p = [] ∧ e.1 = [] ∧ enter d = some e.2 ∨ p ≠ [] ∧ e ∈ ls d ∧ fnmatch p e.1 = true := by
  unfold component
  by_cases hp : p = []
  · obtain ⟨name, d'⟩ := e
    rw [if_pos hp, List.mem_map]
    simp [hp, @eq_comm _ [], and_comm]
  · simp [hp]

theorem component_nil_iff (hl : Lists ls) {p : List Char} {d : δ} {e : List Char × δ}
    (he : e ∈ component ls enter p d) : e.1 = [] ↔ p = [] := by
  rcases mem_component.mp he with ⟨hp, hnil, -⟩ | ⟨hp, hmem, -⟩
  · simp [hp, hnil]
  · simp [hp, hl.ne_nil d e hmem]

theorem resolve_of_mem (hl : Lists ls) {ps : List (List Char)} {d : δ} {x : List (List Char) × δ}
    (hx : x ∈ expand ls enter ps d) : resolve ls enter x.1 d = some x.2 := by
  induction ps generalizing d x with
  | nil =>
    rw [expand, List.mem_singleton] at hx
    subst hx
    rfl
  | cons p ps ih =>
    obtain ⟨e, he, hx⟩ := List.mem_flatMap.mp hx
    obtain ⟨y, hy, rfl⟩ := List.mem_map.mp hx
    have ih := ih hy
    rcases mem_component.mp he with ⟨-, hnil, hd⟩ | ⟨-, hmem, -⟩
    · simp [resolve, hnil, hd, ih]
    · simp [resolve, hl.ne_nil d e hmem, find_of_mem hl hmem, ih]

theorem length_of_mem {ps : List (List Char)} {d : δ} {x : List (List Char) × δ} (hx : x ∈ expand ls enter ps d) :
    x.1.length = ps.length := by
  induction ps generalizing d x with
  | nil =>
    rw [expand, List.mem_singleton] at hx
    subst hx
    rfl
  | cons p ps ih =>
    obtain ⟨e, he, hx⟩ := List.mem_flatMap.mp hx
    obtain ⟨y, hy, rfl⟩ := List.mem_map.mp hx
    simp [ih hy]

theorem head_of_mem (hl : Lists ls) {ps : List (List Char)} {d : δ} {x : List (List Char) × δ}
    (hx : x ∈ expand ls enter ps d) : x.1.head? = some [] ↔ ps.head? = some [] := by
  cases ps with
  | nil =>
    rw [expand, List.mem_singleton] at hx
    subst hx
    simp
  | cons p ps =>
    obtain ⟨e, he, hx⟩ := List.mem_flatMap.mp hx
    obtain ⟨y, hy, rfl⟩ := List.mem_map.mp hx
    simpa using component_nil_iff hl he

theorem nodup_expand (hl : Lists ls) (ps : List (List Char)) (d : δ) :
    ((expand ls enter ps d).map Prod.fst).Nodup := by
  induction ps generalizing d with
  | nil => simp [expand]
  | cons p ps ih =>
    have hcomp : ((component ls enter p d).map Prod.fst).Nodup := by
      unfold component
      by_cases hp : p = []
      · cases enter d <;> simp [hp]
      · rw [if_neg hp]
        exact (hl.nodup d).sublist (List.filter_sublist.map _)
    simp only [expand, List.map_flatMap, List.map_map]
    refine List.nodup_flatMap.mpr ⟨?_, ?_⟩
    · intro e _
      have hcons := (ih e.2).map (List.cons_injective (a := e.1))
      rw [List.map_map] at hcons
      exact hcons
    · refine (List.pairwise_map.mp hcomp).imp ?_
      intro e e' hne ns hns hns'
      obtain ⟨x, -, rfl⟩ := List.mem_map.mp hns
      obtain ⟨y, -, hy⟩ := List.mem_map.mp hns'
      exact hne (List.cons.inj hy).1.symm

theorem mem_names {P : List Char → Prop} (hnil : P []) (hP : ∀ d, ∀ e ∈ ls d, P e.1) {ps : List (List Char)} {d : δ}
    {x : List (List Char) × δ} (hx : x ∈ expand ls enter ps d) : ∀ n ∈ x.1, P n := by
  induction ps generalizing d x with
  | nil =>
    rw [expand, List.mem_singleton] at hx
    subst hx
    simp
  | cons p ps ih =>
    obtain ⟨e, he, hx⟩ := List.mem_flatMap.mp hx
    obtain ⟨y, hy, rfl⟩ := List.mem_map.mp hx
    refine List.forall_mem_cons.mpr ⟨?_, ih hy⟩
    rcases mem_component.mp he with ⟨-, he, -⟩ | ⟨-, hmem, -⟩
    · rw [he]
      exact hnil
    · exact hP d e hmem

theorem expand_plain (hl : Lists ls) {ps : List (List Char)} (hps : ∀ p ∈ ps, Plain p) {d : δ}
    {x : List (List Char) × δ} : x ∈ expand ls enter ps d ↔ x.1 = ps ∧ resolve ls enter ps d = some x.2 := by
  induction ps generalizing d x with
  | nil =>
    rw [expand, List.mem_singleton, Prod.ext_iff, resolve, Option.some.injEq, @eq_comm _ d]
  | cons p ps ih =>
    rw [List.forall_mem_cons] at hps
    constructor
    · intro hx
      have hres := resolve_of_mem hl hx
      obtain ⟨e, he, hx⟩ := List.mem_flatMap.mp hx
      obtain ⟨y, hy, rfl⟩ := List.mem_map.mp hx
      have hys := ((ih hps.2).mp hy).1
      have hep : e.1 = p := by
        rcases mem_component.mp he with ⟨hp, hnil, -⟩ | ⟨-, -, hmatch⟩
        · rw [hp, hnil]
        · exact (fnmatch_plain hps.1).mp hmatch
      simp only [hep, hys] at hres ⊢
      exact ⟨trivial, hres⟩
    · intro hx
      obtain ⟨hx, hres⟩ := hx
      obtain ⟨ns, d'⟩ := x
      simp only at hx hres
      subst hx
      refine List.mem_flatMap.mpr ?_
      by_cases hp : p = []
      · rw [resolve, if_pos hp, Option.bind_eq_some_iff] at hres
        obtain ⟨d₁, hd, hres⟩ := hres
        refine ⟨([], d₁), mem_component.mpr (.inl ⟨hp, rfl, hd⟩), ?_⟩
        rw [hp]
        exact List.mem_map.mpr ⟨(ps, d'), (ih hps.2).mpr ⟨rfl, hres⟩, rfl⟩
      · rw [resolve, if_neg hp, Option.bind_eq_some_iff] at hres
        obtain ⟨e, he, hres⟩ := hres
        have hep : e.1 = p := by simpa using List.find?_some he
        refine ⟨e, mem_component.mpr (.inr ⟨hp, List.mem_of_find?_eq_some he, (fnmatch_plain hps.1).mpr hep⟩), ?_⟩
        exact List.mem_map.mpr ⟨(ps, d'), (ih hps.2).mpr ⟨rfl, hres⟩, by rw [hep]⟩

end

end MyLearning.Glob
