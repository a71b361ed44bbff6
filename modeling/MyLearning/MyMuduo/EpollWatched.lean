import MyLearning.MyMuduo.EpollMirror

/-!
# Channels that want no events

`updateChannel` takes a channel out of the interest list where it is `kAdded` and
wants no event, but puts a `kNew` or `kDeleted` channel in whatever it wants. So a
channel that is disabled twice, or before it was ever enabled, is watched for no
event, and the kernel still reports hang-ups and errors on it.
-/

namespace MyLearning.EpollPoller

variable {ι : Type} {k : EventFlags} {fd : ι → Int}

/-- A descriptor is in the interest list if and only if it has a registered channel
that wants some event. -/
def Watched (k : EventFlags) (s : State ι) : Prop :=
  ∀ f, (∃ e, s.epollfd f = some e) ↔ ∃ c, s.channels f = some c ∧ (s.channel c).events ≠ k.kNoneEvent

def Settled (k : EventFlags) (x : Channel) : Prop :=
  x.index ≠ kNew → (x.index = kAdded ↔ x.events ≠ k.kNoneEvent)

theorem watched_iff_settled {s : State ι} (m : Mirror fd s) (hfd : Function.Injective fd) :
    Watched k s ↔ ∀ c, Settled k (s.channel c) := by
  constructor
  · intro hw c hn
    have hc := m.channels_some hn
    refine ⟨?_, ?_⟩
    · intro ha
      obtain ⟨d, hd, he⟩ := (hw (fd c)).mp ⟨_, m.interest_some ha⟩
      rw [hc] at hd
      cases hd
      exact he
    · intro he
      obtain ⟨e, he⟩ := (hw (fd c)).mpr ⟨c, hc, he⟩
      obtain ⟨hf, ha, -⟩ := (m.interest _ e).mp he
      exact hfd hf ▸ ha
  · intro hs f
    constructor
    · intro h
      obtain ⟨e, he⟩ := h
      obtain ⟨hf, ha, -⟩ := (m.interest f e).mp he
      have hn : (s.channel e.data).index ≠ kNew := by rw [ha]; decide
      exact ⟨e.data, (m.channels f _).mpr ⟨hf, hn⟩, (hs _ hn).mp ha⟩
    · intro h
      obtain ⟨c, hc, he⟩ := h
      obtain ⟨hf, hn⟩ := (m.channels f c).mp hc
      exact ⟨_, hf ▸ m.interest_some ((hs c hn).mpr he)⟩

theorem settled_nextIndex {index : Int} {events : BitVec 32} :
    Settled k ⟨events, nextIndex k index events⟩ ↔ (events = k.kNoneEvent → index = kAdded) := by
  unfold Settled nextIndex
  split
  · rename_i h
    simp [h.1, h.2, kDeleted, kNew, kAdded]
  · rename_i h
    simp only [kAdded, kNew] at h ⊢
    tauto

variable [DecidableEq ι]

/-- A channel that the step leaves without events is in the interest list before it. -/
def StepSettles (k : EventFlags) (s : State ι) : Act ι → Prop
  | .remove _ => True
  | a => a.events k s = k.kNoneEvent → (s.channel a.channel).index = kAdded

theorem step_watched {s t : State ι} {a : Act ι} (hfd : Function.Injective fd) (m : Mirror fd s)
    (hw : Watched k s) (h : (lts k fd).step s a t) : Watched k t ↔ StepSettles k s a := by
  have m' := step_mirror hfd m h
  have hs := (watched_iff_settled m hfd).mp hw
  rw [watched_iff_settled m' hfd]
  cases step_eq m hfd h
  have hplace : (∀ c, Settled k ((place fd s a.channel ⟨a.events k s, a.index k s⟩).channel c)) ↔
      Settled k ⟨a.events k s, a.index k s⟩ := by
    refine ⟨fun h => by simpa [place] using h a.channel, ?_⟩
    intro hx c
    by_cases hc : c = a.channel
    · subst hc; simpa [place] using hx
    · simpa [place, hc] using hs c
  rw [hplace]
  cases a with
  | remove c => exact iff_of_true (fun hn => absurd rfl hn) trivial
  | _ => exact settled_nextIndex

theorem disableAll_twice {s t u : State ι} {c : ι} (hfd : Function.Injective fd) (m : Mirror fd s)
    (h₁ : (lts k fd).step s (.disableAll c) t) (h₂ : (lts k fd).step t (.disableAll c) u) :
    (u.channel c).index ≠ (t.channel c).index := by
  have m' := step_mirror hfd m h₁
  cases step_eq m hfd h₁
  cases step_eq m' hfd h₂
  simp only [place, Act.channel, Act.events, Act.index, nextIndex, Function.update_self, and_true]
  by_cases hi : (s.channel c).index = kAdded
  · rw [if_pos hi, if_neg (by decide)]; decide
  · rw [if_neg hi, if_pos rfl]; decide

/-- Along any run from new channels: **the interest list is the descriptors of the
registered channels that want some event, in every state of the run, if and only if
every step that leaves a channel without events finds it in the list**; and a second
`disableAll` never leaves the index of its channel alone. -/
theorem watched_iff (hfd : Function.Injective fd) {s₀ : State ι} (h₀ : (lts k fd).init s₀) (tr : List (Act ι)) :
    ((∀ tr' s, tr' <+: tr → (lts k fd).Run s₀ tr' s → Watched k s) ↔
      ∀ tr' s a t, tr' ++ [a] <+: tr → (lts k fd).Run s₀ tr' s → (lts k fd).step s a t → StepSettles k s a) ∧
    ∀ s t u c, (lts k fd).Reachable s → (lts k fd).step s (.disableAll c) t →
      (lts k fd).step t (.disableAll c) u → (u.channel c).index ≠ (t.channel c).index := by
  have m₀ := reachable_mirror hfd (.init h₀)
  refine ⟨Lts.Run.always_iff (I := Mirror fd) (fun s a t m hw h => step_watched hfd m hw h)
    (fun s a t m _ _ h => step_mirror hfd m h) ⟨m₀, ?_⟩ tr, fun s t u c hr => disableAll_twice hfd (reachable_mirror hfd hr)⟩
  exact (watched_iff_settled m₀ hfd).mpr fun c hn => absurd (h₀.2.2.2 c) hn

theorem watched_enable_disable : ∃ s,
    (lts pollFlags twoFds).Run (fresh Bool) [.enableReading true, .disableAll true] s ∧ Watched pollFlags s := by
  have hrun : (lts pollFlags twoFds).Run (fresh Bool) [.enableReading true, .disableAll true] _ :=
    .cons rfl (.cons rfl (.nil _))
  refine ⟨_, hrun, (watched_iff twoFds_injective init_fresh _).1.mpr (fun tr' s a t hpre hr _ => ?_) _ _
    List.prefix_rfl hrun⟩
  rcases tr' with _ | ⟨b, _ | ⟨c, tr'⟩⟩
  · simp only [List.nil_append, List.cons_prefix_cons, List.nil_prefix, and_true] at hpre
    subst hpre
    cases hr
    exact fun h => absurd h (by decide)
  · simp only [List.cons_append, List.nil_append, List.cons_prefix_cons, List.nil_prefix, and_true] at hpre
    obtain ⟨rfl, rfl⟩ := hpre
    cases hr with
    | cons hs hn =>
      cases hn
      cases step_eq (reachable_mirror (k := pollFlags) twoFds_injective (.init init_fresh)) twoFds_injective hs
      exact fun _ => by decide
  · have := hpre.length_le
    simp at this

/-- A channel that is disabled twice is back in the interest list, and one that was
never enabled enters it. -/
theorem disabled_twice_watched : ¬ ∀ s, (lts pollFlags twoFds).Reachable s → Watched pollFlags s := by
  intro hall
  have hrun : (Lts.exec (next pollFlags twoFds) (fresh Bool)
      [.enableReading true, .disableAll true, .disableAll true]).map
        (fun s => (s.channels 3, s.epollfd 3, (s.channel true).events)) =
          some (some true, some ⟨0, true⟩, 0) := by decide +kernel
  obtain ⟨s, hs, h⟩ := Option.map_eq_some_iff.mp hrun
  simp only [Prod.mk.injEq] at h
  obtain ⟨hc, he, hev⟩ := h
  obtain ⟨c, hc', hne⟩ := (hall s (reachable_of_exec hs) 3).mp ⟨_, he⟩
  rw [hc] at hc'
  cases hc'
  exact hne hev

end MyLearning.EpollPoller
