import MyLearning.MyMuduo.TimerLedger
import MyLearning.MyMuduo.TimerThreads

/-!
# Timers on their way to the loop

`Linked` is what the queued functors, the calls of `addTimer` under way and the ids
returned have to do with the timers: a timer whose `addTimerInLoop` is queued is
pending, an id that was returned has been handed over, and in front of every queued
`cancelInLoop` its timer has been. The lemmas say how this moves when a functor is
pushed or run, a timer is allocated and an id is returned.
-/

namespace MyLearning.TimerThreads

open TimerQueue (Slots)

def Pending (m : Slots) (id : TimerId) : Prop := ∃ t, m id.timer = some ⟨.pending, t⟩ ∧ t.sequence = id.sequence

/-- The timer of `id` was passed to `addTimerInLoop`, or the call is among `fs`. -/
def Handed (fs : List Functor) (m : Slots) (passed : List Nat) (id : TimerId) : Prop :=
  id.sequence ∈ passed ∨ .addTimerInLoop id.timer ∈ fs ∧ Pending m id

structure Linked {T : Type} (fs : List Functor) (m : Slots) (created : List TimerId) (passed : List Nat)
    (adding : T → Option Adding) (returned : List TimerId) : Prop where
  adds : ∀ p, .addTimerInLoop p ∈ fs → ∃ t, m p = some ⟨.pending, t⟩
  once : ∀ p, fs.count (.addTimerInLoop p) ≤ 1
  allocated : ∀ th id, adding th = some (.allocated id) →
    id ∈ created ∧ Pending m id ∧ .addTimerInLoop id.timer ∉ fs
  apart : ∀ th th' id id', adding th = some (.allocated id) → adding th' = some (.allocated id') →
    id.timer = id'.timer → th = th'
  handed : ∀ th id, adding th = some (.handed id) → id ∈ created ∧ Handed fs m passed id
  returned : ∀ id ∈ returned, id ∈ created ∧ Handed fs m passed id
  ordered : ∀ pre post id, fs = pre ++ .cancelInLoop id :: post → id ∈ created ∧ Handed pre m passed id

theorem linked_empty {T : Type} {m : Slots} : Linked (T := T) [] m [] [] (fun _ => none) [] where
  adds _ h := by cases h
  once _ := Nat.zero_le _
  allocated _ _ h := by cases h
  apart _ _ _ _ h := by cases h
  handed _ _ h := by cases h
  returned _ h := by cases h
  ordered pre post id h := by simp at h

theorem Handed.mono {fs fs' : List Functor} {m m' : Slots} {passed passed' : List Nat} {id : TimerId}
    (h : Handed fs m passed id) (hp : ∀ k ∈ passed, k ∈ passed')
    (hq : .addTimerInLoop id.timer ∈ fs → Pending m id → Handed fs' m' passed' id) : Handed fs' m' passed' id := by
  rcases h with h | ⟨ha, hpe⟩
  · exact .inl (hp _ h)
  · exact hq ha hpe

theorem Handed.stay {fs : List Functor} {m m' : Slots} {passed passed' : List Nat} {id : TimerId}
    (h : Handed fs m passed id) (hm : ∀ p t, m p = some ⟨.pending, t⟩ → m' p = some ⟨.pending, t⟩)
    (hp : ∀ k ∈ passed, k ∈ passed') : Handed fs m' passed' id := by
  apply h.mono hp
  intro ha hpe
  obtain ⟨t, ht, hs⟩ := hpe
  exact .inr ⟨ha, t, hm _ _ ht, hs⟩

theorem Handed.drop {f : Functor} {rest : List Functor} {m : Slots} {passed : List Nat} {id : TimerId}
    (h : Handed (f :: rest) m passed id) (hf : ∀ p, f ≠ .addTimerInLoop p) : Handed rest m passed id := by
  apply h.mono fun _ hk => hk
  intro ha hpe
  exact .inr ⟨(List.mem_cons.mp ha).resolve_left fun e => hf _ e.symm, hpe⟩

theorem Handed.push {fs : List Functor} {f : Functor} {m : Slots} {passed : List Nat} {id : TimerId}
    (h : Handed fs m passed id) : Handed (fs ++ [f]) m passed id := by
  apply h.mono fun _ hk => hk
  intro ha hpe
  exact .inr ⟨List.mem_append_left _ ha, hpe⟩

section
variable {T : Type} {fs : List Functor} {m : Slots} {created : List TimerId} {passed : List Nat}
  {adding : T → Option Adding} {returned : List TimerId} (L : Linked fs m created passed adding returned)
include L

/-! ## The queue moves -/

theorem Linked.mono {m' : Slots} {created' : List TimerId} {passed' : List Nat}
    (hm : ∀ p t, m p = some ⟨.pending, t⟩ → m' p = some ⟨.pending, t⟩) (hc : ∀ id ∈ created, id ∈ created')
    (hp : ∀ k ∈ passed, k ∈ passed') : Linked fs m' created' passed' adding returned where
  adds p h := by
    obtain ⟨t, ht⟩ := L.adds p h
    exact ⟨t, hm p t ht⟩
  once := L.once
  allocated th id h := by
    obtain ⟨hid, ⟨t, ht, hs⟩, hno⟩ := L.allocated th id h
    exact ⟨hc _ hid, ⟨t, hm _ _ ht, hs⟩, hno⟩
  apart := L.apart
  handed th id h := by
    obtain ⟨hid, hh⟩ := L.handed th id h
    exact ⟨hc _ hid, hh.stay hm hp⟩
  returned id h := by
    obtain ⟨hid, hh⟩ := L.returned id h
    exact ⟨hc _ hid, hh.stay hm hp⟩
  ordered pre post id h := by
    obtain ⟨hid, hh⟩ := L.ordered pre post id h
    exact ⟨hc _ hid, hh.stay hm hp⟩

/-! ## Functors are run -/

theorem Linked.drop {f : Functor} {rest : List Functor} (hfs : fs = f :: rest)
    (hf : ∀ p, f ≠ .addTimerInLoop p) : Linked rest m created passed adding returned := by
  subst hfs
  exact {
    adds := fun p h => L.adds p (List.mem_cons_of_mem _ h)
    once := fun p => by
      have := L.once p
      rw [List.count_cons] at this
      omega
    allocated := fun th id h => by
      obtain ⟨hid, hpe, hno⟩ := L.allocated th id h
      exact ⟨hid, hpe, fun hin => hno (List.mem_cons_of_mem _ hin)⟩
    apart := L.apart
    handed := fun th id h => ⟨(L.handed th id h).1, (L.handed th id h).2.drop hf⟩
    returned := fun id h => ⟨(L.returned id h).1, (L.returned id h).2.drop hf⟩
    ordered := fun pre post id h => by
      obtain ⟨hid, hh⟩ := L.ordered (f :: pre) post id (by rw [h]; rfl)
      exact ⟨hid, hh.drop hf⟩ }

theorem Linked.pass {p : Addr} {rest : List Functor} {t : TimerQueue.Slot} {m' : Slots}
    (hfs : fs = .addTimerInLoop p :: rest) (hp : m p = some t)
    (hm : ∀ q ≠ p, m' q = m q) : Linked rest m' created (passed ++ [t.timer.sequence]) adding returned := by
  subst hfs
  have hno : .addTimerInLoop p ∉ rest := by
    have := L.once p
    rw [List.count_cons_self] at this
    exact List.count_eq_zero.mp (by omega)
  have hand : ∀ {gs gs' : List Functor} {id : TimerId}, (∀ f ∈ gs, f ∈ .addTimerInLoop p :: gs') →
      Handed gs m passed id → Handed gs' m' (passed ++ [t.timer.sequence]) id := by
    intro gs gs' id hsub hh
    apply hh.mono fun k hk => List.mem_append_left _ hk
    intro ha hpe
    obtain ⟨u, hu, hs⟩ := hpe
    by_cases he : id.timer = p
    · rw [he, hp] at hu
      cases hu
      exact .inl (List.mem_append_right _ (List.mem_singleton.mpr hs.symm))
    · refine .inr ⟨(List.mem_cons.mp (hsub _ ha)).resolve_left fun e => he (by injection e), u, ?_, hs⟩
      rw [hm _ he, hu]
  exact {
    adds := fun q h => by
      have hq : q ≠ p := fun e => hno (e ▸ h)
      obtain ⟨u, hu⟩ := L.adds q (List.mem_cons_of_mem _ h)
      exact ⟨u, (hm q hq).trans hu⟩
    once := fun q => by
      have := L.once q
      rw [List.count_cons] at this
      omega
    allocated := fun th id h => by
      obtain ⟨hid, ⟨u, hu, hs⟩, hn⟩ := L.allocated th id h
      have he : id.timer ≠ p := fun e => hn (e ▸ List.mem_cons_self)
      exact ⟨hid, ⟨u, (hm _ he).trans hu, hs⟩, fun hin => hn (List.mem_cons_of_mem _ hin)⟩
    apart := L.apart
    handed := fun th id h => ⟨(L.handed th id h).1, hand (fun _ hf => hf) (L.handed th id h).2⟩
    returned := fun id h => ⟨(L.returned id h).1, hand (fun _ hf => hf) (L.returned id h).2⟩
    ordered := fun pre post id h => by
      obtain ⟨hid, hh⟩ := L.ordered (.addTimerInLoop p :: pre) post id (by rw [h]; rfl)
      exact ⟨hid, hand (fun _ hf => hf) hh⟩ }

/-! ## Functors are pushed -/

omit L in
theorem split_push {f : Functor} {pre post : List Functor} {id : TimerId}
    (h : fs ++ [f] = pre ++ .cancelInLoop id :: post) :
    (pre = fs ∧ f = .cancelInLoop id) ∨ ∃ post', fs = pre ++ .cancelInLoop id :: post' := by
  rcases List.eq_nil_or_concat post with rfl | ⟨post', g, rfl⟩
  · obtain ⟨h₁, h₂⟩ := List.append_inj' h rfl
    exact .inl ⟨h₁.symm, List.singleton_inj.mp h₂⟩
  · rw [List.concat_eq_append, ← List.cons_append, ← List.append_assoc] at h
    exact .inr ⟨post', (List.append_inj' h rfl).1⟩

theorem Linked.push {f : Functor} (hf : ∀ p, f ≠ .addTimerInLoop p)
    (hc : ∀ id, f = .cancelInLoop id → id ∈ returned) : Linked (fs ++ [f]) m created passed adding returned where
  adds p h := L.adds p ((List.mem_append.mp h).resolve_right fun h => hf p (List.mem_singleton.mp h).symm)
  once p := by
    rw [List.count_append, List.count_eq_zero.mpr fun h => hf p (List.mem_singleton.mp h).symm]
    exact L.once p
  allocated th id h := by
    obtain ⟨hid, hpe, hno⟩ := L.allocated th id h
    refine ⟨hid, hpe, ?_⟩
    intro hin
    exact hno ((List.mem_append.mp hin).resolve_right fun h => hf _ (List.mem_singleton.mp h).symm)
  apart := L.apart
  handed th id h := ⟨(L.handed th id h).1, (L.handed th id h).2.push⟩
  returned id h := ⟨(L.returned id h).1, (L.returned id h).2.push⟩
  ordered pre post id h := by
    rcases split_push h with ⟨rfl, rfl⟩ | ⟨post', h⟩
    · exact L.returned id (hc id rfl)
    · exact L.ordered pre post' id h

theorem Linked.give {id : TimerId} (hid : id ∈ created) (hh : Handed fs m passed id) :
    Linked fs m created passed adding (returned ++ [id]) where
  adds := L.adds
  once := L.once
  allocated := L.allocated
  apart := L.apart
  handed := L.handed
  returned id' h := by
    rcases List.mem_append.mp h with h | h
    · exact L.returned id' h
    · rw [List.mem_singleton.mp h]; exact ⟨hid, hh⟩
  ordered := L.ordered

variable [DecidableEq T]

theorem Linked.pushAdd {th : T} {id : TimerId} (h : adding th = some (.allocated id)) :
    Linked (fs ++ [.addTimerInLoop id.timer]) m created passed
      (Function.update adding th (some (.handed id))) returned where
  adds p hp := by
    rcases List.mem_append.mp hp with hp | hp
    · exact L.adds p hp
    · obtain ⟨-, ⟨t, ht, -⟩, -⟩ := L.allocated th id h
      injection List.mem_singleton.mp hp with hp
      exact ⟨t, hp ▸ ht⟩
  once p := by
    rw [List.count_append]
    by_cases he : p = id.timer
    · subst he
      rw [List.count_eq_zero.mpr (L.allocated th id h).2.2]
      simp
    · rw [List.count_eq_zero (l := [_]).mpr fun hin => he (by injection List.mem_singleton.mp hin)]
      exact L.once p
  allocated th' id' h' := by
    rcases update_some h' with ⟨-, e⟩ | ⟨he, h'⟩
    · cases e
    · obtain ⟨hid, hpe, hno⟩ := L.allocated th' id' h'
      refine ⟨hid, hpe, ?_⟩
      intro hin
      rcases List.mem_append.mp hin with hin | hin
      · exact hno hin
      · injection List.mem_singleton.mp hin with hin
        exact he (L.apart th' th id' id h' h hin)
  apart th₁ th₂ id₁ id₂ h₁ h₂ := by
    rcases update_some h₁ with ⟨-, e⟩ | ⟨-, h₁⟩
    · cases e
    rcases update_some h₂ with ⟨-, e⟩ | ⟨-, h₂⟩
    · cases e
    exact L.apart th₁ th₂ id₁ id₂ h₁ h₂
  handed th' id' h' := by
    rcases update_some h' with ⟨-, e⟩ | ⟨-, h'⟩
    · cases e
      obtain ⟨hid, hpe, -⟩ := L.allocated th id h
      exact ⟨hid, .inr ⟨List.mem_append_right _ (List.mem_singleton_self _), hpe⟩⟩
    · obtain ⟨hid, hh⟩ := L.handed th' id' h'
      exact ⟨hid, hh.push⟩
  returned id' h' := ⟨(L.returned id' h').1, (L.returned id' h').2.push⟩
  ordered pre post id' h' := by
    rcases split_push h' with ⟨-, hf⟩ | ⟨post', h'⟩
    · cases hf
    · exact L.ordered pre post' id' h'

/-! ## Calls of `addTimer` -/

theorem Linked.allocate {th : T} {id : TimerId} (hid : id ∈ created) (hpe : Pending m id)
    (hno : .addTimerInLoop id.timer ∉ fs)
    (hap : ∀ th' id', adding th' = some (.allocated id') → id'.timer ≠ id.timer) :
    Linked fs m created passed (Function.update adding th (some (.allocated id))) returned where
  adds := L.adds
  once := L.once
  allocated th' id' h := by
    rcases update_some h with ⟨-, e⟩ | ⟨-, h⟩
    · cases e
      exact ⟨hid, hpe, hno⟩
    · exact L.allocated th' id' h
  apart th₁ th₂ id₁ id₂ h₁ h₂ he := by
    rcases update_some h₁ with ⟨e₁, x₁⟩ | ⟨-, h₁⟩ <;> rcases update_some h₂ with ⟨e₂, x₂⟩ | ⟨-, h₂⟩
    · rw [e₁, e₂]
    · cases x₁
      exact absurd he.symm (hap th₂ id₂ h₂)
    · cases x₂
      exact absurd he (hap th₁ id₁ h₁)
    · exact L.apart th₁ th₂ id₁ id₂ h₁ h₂ he
  handed th' id' h := by
    rcases update_some h with ⟨-, e⟩ | ⟨-, h⟩
    · cases e
    · exact L.handed th' id' h
  returned := L.returned
  ordered := L.ordered

theorem Linked.leave (th : T) : Linked fs m created passed (Function.update adding th none) returned := by
  have other : ∀ {th' x}, Function.update adding th none th' = some x → adding th' = some x := fun h =>
    (update_some h).elim (fun h => nomatch h.2) fun h => h.2
  exact {
    adds := L.adds
    once := L.once
    allocated := fun th' id h => L.allocated th' id (other h)
    apart := fun th₁ th₂ id₁ id₂ h₁ h₂ => L.apart th₁ th₂ id₁ id₂ (other h₁) (other h₂)
    handed := fun th' id h => L.handed th' id (other h)
    returned := L.returned
    ordered := L.ordered }

end

end MyLearning.TimerThreads
