import MyLearning.MyMuduo.Buffer

/-!
# Lines in a buffer

Both versions of `findCRLF` search the readable bytes from `peek()` on; the one with a
`start` looks at it in its assertions only. So a second call finds the first line
again, and a caller that goes on behind each result never comes to an end.

A pointer into the buffer is its distance from `begin()`.
-/

namespace MyLearning.Buffer

def kCRLF : List UInt8 := [13, 10]

def peek (b : Buffer) : Nat := b.readIndex

def beginWrite (b : Buffer) : Nat := b.writeIndex

def findCRLF (b : Buffer) : Except Fault (Option Nat) := do
  let crlf ← Vec.search b.buffer b.peek b.beginWrite kCRLF
  return if crlf = b.beginWrite then none else some crlf

def findCRLFFrom (b : Buffer) (start : Nat) : Except Fault (Option Nat) := do
  check (b.peek ≤ start)
  check (start ≤ b.beginWrite)
  let crlf ← Vec.search b.buffer b.peek b.beginWrite kCRLF
  return if crlf = b.beginWrite then none else some crlf

/-! ## What a search should find -/

def CrlfAt (b : Buffer) (p : Nat) : Prop :=
  p + 1 < b.beginWrite ∧ b.buffer[p]? = some 13 ∧ b.buffer[p + 1]? = some 10

/-- The first line end from `start` on, and `nullptr` where there is none. -/
def IsNext (b : Buffer) (start : Nat) (r : Option Nat) : Prop :=
  ∀ p, r = some p ↔ IsLeast {q | start ≤ q ∧ CrlfAt b q} p

/-- Called from `start` and then from behind each result, `findCRLF` finds `ps` and nothing more. -/
inductive Scans (b : Buffer) : Nat → List Nat → Prop
  | done {start} : b.findCRLFFrom start = .ok none → Scans b start []
  | line {start p ps} : b.findCRLFFrom start = .ok (some p) → Scans b (p + kCRLF.length) ps → Scans b start (p :: ps)

instance (b : Buffer) (p : Nat) : Decidable (CrlfAt b p) := inferInstanceAs (Decidable (_ ∧ _ ∧ _))

theorem prefix_iff_crlfAt {b : Buffer} {p : Nat} : kCRLF <+: (b.buffer.take b.beginWrite).drop p ↔ CrlfAt b p := by
  unfold CrlfAt kCRLF
  rw [List.prefix_iff_getElem?]
  constructor
  · intro h
    have hcr := h 0 (by simp)
    have hlf := h 1 (by simp)
    simp only [List.getElem?_drop, List.getElem?_take, List.getElem_cons_zero, List.getElem_cons_succ,
      Option.ite_none_right_eq_some] at hcr hlf
    exact ⟨hlf.1, hcr.2, hlf.2⟩
  · intro h i hi
    obtain ⟨hlt, hcr, hlf⟩ := h
    rw [List.getElem?_drop, List.getElem?_take]
    match i with
    | 0 =>
      have hp : p < b.beginWrite := by omega
      simp [hp, hcr]
    | 1 => simp [hlt, hlf]

theorem exists_least {b : Buffer} {start p : Nat} (hp : start ≤ p) (h : CrlfAt b p) :
    ∃ m, IsLeast {q | start ≤ q ∧ CrlfAt b q} m ∧ m ≤ p := by
  have hex : ∃ q, start ≤ q ∧ CrlfAt b q := ⟨p, hp, h⟩
  exact ⟨Nat.find hex, ⟨Nat.find_spec hex, fun q hq => Nat.find_min' hex hq⟩, Nat.find_min' hex ⟨hp, h⟩⟩

theorem IsNext.none_iff {b : Buffer} {start : Nat} {r : Option Nat} (h : IsNext b start r) :
    r = none ↔ ∀ p, start ≤ p → ¬ CrlfAt b p := by
  constructor
  · intro hr p hp hc
    obtain ⟨m, hm, -⟩ := exists_least hp hc
    rw [(h m).mpr hm] at hr
    cases hr
  · intro hall
    cases r with
    | none => rfl
    | some p =>
      obtain ⟨⟨hp, hc⟩, -⟩ := (h p).mp rfl
      exact absurd hc (hall p hp)

theorem IsNext.from_iff {b : Buffer} {first start : Nat} {r : Option Nat} (h : IsNext b first r) (hle : first ≤ start) :
    IsNext b start r ↔ ∀ p, first ≤ p → p < start → ¬ CrlfAt b p := by
  constructor
  · intro hnext p hp hlt hc
    obtain ⟨m, hm, hmp⟩ := exists_least hp hc
    obtain ⟨⟨hstart, -⟩, -⟩ := (hnext m).mp ((h m).mpr hm)
    omega
  · intro hnone
    have hsame : {q | start ≤ q ∧ CrlfAt b q} = {q | first ≤ q ∧ CrlfAt b q} := by
      ext q
      simp only [Set.mem_ofPred_eq]
      constructor
      · intro hq
        exact ⟨hle.trans hq.1, hq.2⟩
      · intro hq
        exact ⟨not_lt.mp fun hlt => hnone q hq.1 hlt hq.2, hq.2⟩
    unfold IsNext
    rw [hsame]
    exact h

/-! ## What the search finds -/

theorem findCRLF_next {b : Buffer} (horder : b.peek ≤ b.beginWrite) (hin : b.beginWrite ≤ b.buffer.length) :
    ∃ r, b.findCRLF = .ok r ∧ IsNext b b.peek r := by
  obtain ⟨q, hq, hspec⟩ := Vec.search_spec kCRLF horder hin
  simp only [prefix_iff_crlfAt] at hspec
  unfold findCRLF
  rw [hq, ok_bind]
  rcases hspec with ⟨rfl, hnone⟩ | hleast
  · rw [if_pos rfl]
    refine ⟨none, rfl, ?_⟩
    intro p
    refine iff_of_false nofun ?_
    intro hp
    exact hnone p hp.1.1 hp.1.2
  · have hlt : q ≠ b.beginWrite := by
      intro he
      have hin' := hleast.1.2.1
      omega
    rw [if_neg hlt]
    refine ⟨some q, rfl, ?_⟩
    intro p
    rw [Option.some.injEq]
    constructor
    · intro hp
      exact hp ▸ hleast
    · intro hp
      exact hleast.unique hp

theorem findCRLFFrom_eq_ok {b : Buffer} {start : Nat} {r : Option Nat} :
    b.findCRLFFrom start = .ok r ↔ (b.peek ≤ start ∧ start ≤ b.beginWrite) ∧ b.findCRLF = .ok r := by
  unfold findCRLFFrom
  rw [check_bind_eq_ok, check_bind_eq_ok, and_assoc]
  rfl

theorem Scans.findCRLF_none {b : Buffer} {start : Nat} {ps : List Nat} (h : Scans b start ps) :
    b.findCRLF = .ok none := by
  induction h with
  | done hfind => exact (findCRLFFrom_eq_ok.mp hfind).2
  | line _ _ ih => exact ih

/-- **Resuming a scan.** `findCRLF(start)` finds the first line end from `start` on if and only if no
line ends before `start`; and calls that go on behind each result enumerate the lines and end
if and only if there is no line. -/
theorem findCRLF_resumes_iff {b : Buffer} {start : Nat} (hpeek : b.peek ≤ start) (hend : start ≤ b.beginWrite)
    (hin : b.beginWrite ≤ b.buffer.length) :
    ((∃ r, b.findCRLFFrom start = .ok r ∧ IsNext b start r) ↔ ∀ p, b.peek ≤ p → p < start → ¬ CrlfAt b p) ∧
    ((∃ ps, Scans b start ps ∧ (∀ p, p ∈ ps ↔ start ≤ p ∧ CrlfAt b p) ∧ ps.Pairwise (· < ·)) ↔
      ∀ p, b.peek ≤ p → ¬ CrlfAt b p) := by
  obtain ⟨r, hr, hnext⟩ := findCRLF_next (hpeek.trans hend) hin
  have hfrom : b.findCRLFFrom start = .ok r := findCRLFFrom_eq_ok.mpr ⟨⟨hpeek, hend⟩, hr⟩
  constructor
  · rw [← hnext.from_iff hpeek, hfrom]
    simp
  · rw [← hnext.none_iff]
    constructor
    · intro hscan
      obtain ⟨ps, hps, -⟩ := hscan
      rw [hps.findCRLF_none] at hr
      cases hr
      rfl
    · intro hnone
      subst hnone
      have hall := hnext.none_iff.mp rfl
      refine ⟨[], .done hfrom, ?_, .nil⟩
      intro p
      simp only [List.not_mem_nil, false_iff, not_and]
      intro hp
      exact hall p (hpeek.trans hp)

def twoLines : Buffer := ⟨List.replicate 8 0 ++ [97, 13, 10, 98, 13, 10], 8, 14⟩

/-- From behind the first line the first line is found again. -/
theorem second_line_not_found : twoLines.findCRLFFrom 11 = .ok (some 9) ∧ IsLeast {q | 11 ≤ q ∧ CrlfAt twoLines q} 12 := by
  refine ⟨by decide, by decide, ?_⟩
  intro q hq
  by_contra hlt
  have hq' : q = 11 := by have := hq.1; omega
  subst hq'
  exact absurd hq.2 (by decide)

theorem first_line_found : ∃ r, twoLines.findCRLFFrom 9 = .ok r ∧ IsNext twoLines 9 r := by
  have hpeek : twoLines.peek ≤ 9 := by decide
  have hend : 9 ≤ twoLines.beginWrite := by decide
  refine (findCRLF_resumes_iff hpeek hend (by decide)).1.mpr ?_
  decide

end MyLearning.Buffer
