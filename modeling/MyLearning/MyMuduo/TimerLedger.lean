import MyLearning.MyMuduo.TimerQueue

/-!
# Who owns a timer

The abstract view of a timer queue: `Slots` says of each address whether a
`Timer` lives there and who holds it. `Ledger` is what every such view keeps
about sequence numbers: a live timer has its own, not yet deleted, and it was
passed to `addTimerInLoop` unless it is still pending; and every number handed
out belongs to a timer that was passed or is pending. The lemmas say how the
ledger moves when a timer is allocated, handed over, moved or deleted.
-/

namespace MyLearning.TimerQueue

inductive Place where
  | pending
  | queued
  | batch
  deriving DecidableEq, Repr

structure Slot where
  place : Place
  timer : Timer

abbrev Slots := Addr → Option Slot

theorem update_place {m : Slots} {p : Addr} {x : Option Slot} {pl : Place} (hp : ∀ t, m p ≠ some ⟨pl, t⟩)
    (hx : ∀ t, x ≠ some ⟨pl, t⟩) (q : Addr) (t : Timer) :
    Function.update m p x q = some ⟨pl, t⟩ ↔ m q = some ⟨pl, t⟩ := by
  by_cases hq : q = p
  · subst hq; simp [hp, hx]
  · rw [Function.update_of_ne hq]

theorem heap_update {h : Heap Timer} {m : Slots} (hh : ∀ p, h p = (m p).map Slot.timer) (p : Addr)
    (x : Option Slot) (q : Addr) :
    Function.update h p (x.map Slot.timer) q = (Function.update m p x q).map Slot.timer := by
  by_cases hq : q = p
  · subst hq; simp
  · rw [Function.update_of_ne hq, Function.update_of_ne hq, hh]

theorem update_free {m : Slots} {p : Addr} (hp : m p = none) (x : Option Slot) {q : Addr} {c : Slot} (hc : m q = some c) :
    Function.update m p x q = some c := by
  have hq : q ≠ p := by
    intro e
    rw [e, hp] at hc
    cases hc
  rw [Function.update_of_ne hq]
  exact hc

theorem update_sequence {m : Slots} {p : Addr} {c d : Slot} (hp : m p = some c)
    (hs : d.timer.sequence = c.timer.sequence) (q : Addr) (e : Slot) (he : m q = some e) :
    ∃ f, Function.update m p (some d) q = some f ∧ f.timer.sequence = e.timer.sequence := by
  by_cases hq : q = p
  · subst hq
    rw [hp] at he
    cases he
    exact ⟨d, Function.update_self .., hs⟩
  · exact ⟨e, by rw [Function.update_of_ne hq]; exact he, rfl⟩

structure Ledger (m : Slots) (numCreate : Nat) (created : List TimerId) (passed deleted : List Nat) : Prop where
  addr : ∀ p c, m p = some c → p < uintptrMax
  fresh : ∀ p c, m p = some c → c.timer.sequence < numCreate
  inj : ∀ p q c d, m p = some c → m q = some d → c.timer.sequence = d.timer.sequence → p = q
  handed : ∀ p c, m p = some c → (c.timer.sequence ∈ passed ↔ c.place ≠ .pending)
  dead : ∀ p c, m p = some c → c.timer.sequence ∉ deleted
  gone : ∀ k ∈ deleted, k ∈ passed
  found : ∀ k ∈ passed, k ∈ deleted ∨ ∃ p c, m p = some c ∧ c.timer.sequence = k
  issued : ∀ k < numCreate, k ∈ passed ∨ ∃ p t, m p = some ⟨.pending, t⟩ ∧ t.sequence = k
  bound : ∀ k ∈ passed, k < numCreate
  nodup : deleted.Nodup
  ids : ∀ id ∈ created, id.sequence < numCreate ∧
    ∀ p c, m p = some c → c.timer.sequence = id.sequence → p = id.timer

section
variable {m : Slots} {n : Nat} {created : List TimerId} {passed deleted : List Nat}

theorem ledger_empty : Ledger (fun _ => none) 0 [] [] [] where
  addr _ _ h := by cases h
  fresh _ _ h := by cases h
  inj _ _ _ _ h := by cases h
  handed _ _ h := by cases h
  dead _ _ h := by cases h
  gone _ h := by cases h
  found _ h := by cases h
  issued _ h := absurd h (Nat.not_lt_zero _)
  bound _ h := by cases h
  nodup := List.nodup_nil
  ids _ h := by cases h

theorem Ledger.alloc (L : Ledger m n created passed deleted) {p : Addr} {t : Timer} (hp : m p = none)
    (ha : p < uintptrMax) (ht : t.sequence = n) :
    Ledger (Function.update m p (some ⟨.pending, t⟩)) (n + 1) (created ++ [⟨p, n⟩]) passed deleted where
  addr q d h := by
    rcases update_some h with ⟨rfl, -⟩ | ⟨-, h⟩
    · exact ha
    · exact L.addr q d h
  fresh q d h := by
    rcases update_some h with ⟨rfl, e⟩ | ⟨-, h⟩
    · cases e; rw [ht]; exact Nat.lt_succ_self n
    · exact Nat.lt_succ_of_lt (L.fresh q d h)
  inj q r c d hc hd he := by
    rcases update_some hc with ⟨hq, e⟩ | ⟨-, hc'⟩ <;> rcases update_some hd with ⟨hr, e'⟩ | ⟨-, hd'⟩
    · rw [hq, hr]
    · cases e; exact absurd (L.fresh r d hd') (by rw [← he, ht]; exact Nat.lt_irrefl n)
    · cases e'; exact absurd (L.fresh q c hc') (by rw [he, ht]; exact Nat.lt_irrefl n)
    · exact L.inj q r c d hc' hd' he
  handed q d h := by
    rcases update_some h with ⟨rfl, e⟩ | ⟨-, h⟩
    · cases e
      refine iff_of_false ?_ (fun h => h rfl)
      intro hm
      exact absurd (L.bound _ hm) (by rw [ht]; exact Nat.lt_irrefl n)
    · exact L.handed q d h
  dead q d h := by
    rcases update_some h with ⟨rfl, e⟩ | ⟨-, h⟩
    · cases e
      exact fun hm => absurd (L.bound _ (L.gone _ hm)) (by rw [ht]; exact Nat.lt_irrefl n)
    · exact L.dead q d h
  gone := L.gone
  found k hk := by
    rcases L.found k hk with h | ⟨q, c, hc, hs⟩
    · exact .inl h
    · exact .inr ⟨q, c, update_free hp _ hc, hs⟩
  issued k hk := by
    rcases Nat.lt_succ_iff_lt_or_eq.mp hk with hk | rfl
    · rcases L.issued k hk with h | ⟨q, u, hu, hs⟩
      · exact .inl h
      · exact .inr ⟨q, u, update_free hp _ hu, hs⟩
    · exact .inr ⟨p, t, Function.update_self .., ht⟩
  bound k hk := Nat.lt_succ_of_lt (L.bound k hk)
  nodup := L.nodup
  ids id hid := by
    rcases List.mem_append.mp hid with hid | hid
    · obtain ⟨hlt, hu⟩ := L.ids id hid
      refine ⟨Nat.lt_succ_of_lt hlt, ?_⟩
      intro q d h he
      rcases update_some h with ⟨rfl, e⟩ | ⟨-, h⟩
      · cases e; rw [← he, ht] at hlt; exact absurd hlt (Nat.lt_irrefl n)
      · exact hu q d h he
    · simp only [List.mem_singleton] at hid
      subst hid
      refine ⟨Nat.lt_succ_self n, ?_⟩
      intro q d h he
      rcases update_some h with ⟨rfl, -⟩ | ⟨-, h⟩
      · rfl
      · exact absurd (L.fresh q d h) (by rw [he]; exact Nat.lt_irrefl n)

theorem Ledger.relabel (L : Ledger m n created passed deleted) {m' : Slots} {passed' : List Nat}
    (old : ∀ p d, m' p = some d → ∃ c, m p = some c ∧ d.timer.sequence = c.timer.sequence ∧
      (c.timer.sequence ∈ passed' ↔ d.place ≠ .pending))
    (stay : ∀ p c, m p = some c → ∃ d, m' p = some d ∧ d.timer.sequence = c.timer.sequence)
    (more : ∀ k ∈ passed, k ∈ passed')
    (live : ∀ k ∈ passed', k ∈ passed ∨ ∃ p c, m p = some c ∧ c.timer.sequence = k) :
    Ledger m' n created passed' deleted where
  addr p d hd := by
    obtain ⟨c, hc, -, -⟩ := old p d hd
    exact L.addr p c hc
  fresh p d hd := by
    obtain ⟨c, hc, hs, -⟩ := old p d hd
    rw [hs]; exact L.fresh p c hc
  inj p q c d hc hd he := by
    obtain ⟨c', hc', hs, -⟩ := old p c hc
    obtain ⟨d', hd', hs', -⟩ := old q d hd
    exact L.inj p q c' d' hc' hd' (by rw [← hs, ← hs', he])
  handed p d hd := by
    obtain ⟨c, hc, hs, hp⟩ := old p d hd
    rw [hs]; exact hp
  dead p d hd := by
    obtain ⟨c, hc, hs, -⟩ := old p d hd
    rw [hs]; exact L.dead p c hc
  gone k hk := more k (L.gone k hk)
  found k hk := by
    have hlive : k ∈ deleted ∨ ∃ p c, m p = some c ∧ c.timer.sequence = k := by
      rcases live k hk with hk | hk
      · exact L.found k hk
      · exact .inr hk
    rcases hlive with hk | ⟨p, c, hc, hs⟩
    · exact .inl hk
    · obtain ⟨d, hd, hs'⟩ := stay p c hc
      exact .inr ⟨p, d, hd, by rw [hs', hs]⟩
  issued k hk := by
    rcases L.issued k hk with hk | ⟨p, t, ht, hs⟩
    · exact .inl (more k hk)
    · obtain ⟨⟨pl, u⟩, hd, hs'⟩ := stay p _ ht
      obtain ⟨c, hc, -, hpl⟩ := old p _ hd
      rw [ht] at hc; cases hc
      by_cases hm : k ∈ passed'
      · exact .inl hm
      · have : pl = .pending := by
          by_contra hne
          exact hm (hs ▸ hpl.mpr hne)
        subst this
        exact .inr ⟨p, u, hd, by rw [← hs]; exact hs'⟩
  bound k hk := by
    rcases live k hk with hk | ⟨p, c, hc, rfl⟩
    · exact L.bound k hk
    · exact L.fresh p c hc
  nodup := L.nodup
  ids id hid := by
    obtain ⟨hlt, hu⟩ := L.ids id hid
    refine ⟨hlt, ?_⟩
    intro p d hd he
    obtain ⟨c, hc, hs, -⟩ := old p d hd
    exact hu p c hc (by rw [← hs, he])

theorem Ledger.move (L : Ledger m n created passed deleted) {p : Addr} {c d : Slot} (hp : m p = some c)
    (hc : c.place ≠ .pending) (hd : d.place ≠ .pending) (hs : d.timer.sequence = c.timer.sequence) :
    Ledger (Function.update m p (some d)) n created passed deleted := by
  refine L.relabel ?_ (update_sequence hp hs) (fun _ hk => hk) fun _ hk => .inl hk
  intro q e h
  rcases update_some h with ⟨rfl, e'⟩ | ⟨-, h⟩
  · cases e'
    exact ⟨c, hp, hs, iff_of_true ((L.handed _ c hp).mpr hc) hd⟩
  · exact ⟨e, h, rfl, L.handed q e h⟩

theorem Ledger.hand (L : Ledger m n created passed deleted) {p : Addr} {t : Timer}
    (hp : m p = some ⟨.pending, t⟩) {pl : Place} (hpl : pl ≠ .pending) :
    Ledger (Function.update m p (some ⟨pl, t⟩)) n created (passed ++ [t.sequence]) deleted := by
  refine L.relabel ?_ (update_sequence hp rfl) (fun _ hk => List.mem_append_left _ hk) ?_
  · intro q d h
    rcases update_some h with ⟨rfl, e⟩ | ⟨hq, h⟩
    · cases e
      exact ⟨_, hp, rfl, iff_of_true (List.mem_append_right _ (List.mem_singleton_self _)) hpl⟩
    · have hne : d.timer.sequence ≠ t.sequence := fun e => hq (L.inj _ _ _ _ h hp e)
      refine ⟨d, h, rfl, ?_⟩
      rw [List.mem_append, List.mem_singleton, or_iff_left hne, L.handed q d h]
  · intro k hk
    rcases List.mem_append.mp hk with hk | hk
    · exact .inl hk
    · exact .inr ⟨p, _, hp, (List.mem_singleton.mp hk).symm⟩

theorem Ledger.delete (L : Ledger m n created passed deleted) {p : Addr} {c : Slot} (hp : m p = some c)
    (hc : c.place ≠ .pending) :
    Ledger (Function.update m p none) n created passed (deleted ++ [c.timer.sequence]) := by
  have old : ∀ q d, Function.update m p none q = some d → q ≠ p ∧ m q = some d := by
    intro q d h
    rcases update_some h with ⟨-, e⟩ | h
    · cases e
    · exact h
  exact {
    addr := fun q d h => L.addr q d (old q d h).2
    fresh := fun q d h => L.fresh q d (old q d h).2
    inj := fun q r c d hc hd he => L.inj q r c d (old q c hc).2 (old r d hd).2 he
    handed := fun q d h => L.handed q d (old q d h).2
    dead := fun q d h => by
      obtain ⟨hq, h⟩ := old q d h
      simp only [List.mem_append, List.mem_singleton, not_or]
      exact ⟨L.dead q d h, fun e => hq (L.inj _ _ _ _ h hp e)⟩
    gone := fun k hk => by
      rcases List.mem_append.mp hk with hk | hk
      · exact L.gone k hk
      · rw [List.mem_singleton.mp hk]; exact (L.handed _ _ hp).mpr hc
    found := fun k hk => by
      rcases L.found k hk with hk | ⟨q, d, hd, hs⟩
      · exact .inl (List.mem_append_left _ hk)
      · by_cases hq : q = p
        · subst hq; rw [hp] at hd; cases hd
          exact .inl (List.mem_append_right _ (by simp [hs]))
        · exact .inr ⟨q, d, by rw [Function.update_of_ne hq]; exact hd, hs⟩
    issued := fun k hk => by
      rcases L.issued k hk with hk | ⟨q, u, hu, hs⟩
      · exact .inl hk
      · have hq : q ≠ p := by intro e; rw [e, hp] at hu; cases hu; exact hc rfl
        exact .inr ⟨q, u, by rw [Function.update_of_ne hq]; exact hu, hs⟩
    bound := L.bound
    nodup := by
      refine List.nodup_append.mpr ⟨L.nodup, by simp, ?_⟩
      intro a ha b hb e
      rw [List.mem_singleton.mp hb] at e
      exact L.dead _ _ hp (e ▸ ha)
    ids := fun id hid =>
      ⟨(L.ids id hid).1, fun q d h he => (L.ids id hid).2 q d (old q d h).2 he⟩ }

end

end MyLearning.TimerQueue
