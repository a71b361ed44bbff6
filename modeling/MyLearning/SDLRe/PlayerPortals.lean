import MyLearning.SDLRe.PlayerWalls

/-!
# When the portal is entered

`handleEvent` takes a blocked move back, and then still compares the hitbox of the attempt
with the portal. So a player that runs into a wall beside the portal is teleported from
where it stands.
-/

namespace MyLearning.SDLRe

/-! ## Attempts -/

/-- The hitbox that the pressed keys ask for. -/
def attempt (s : Player) (keystates : Keystates) : Option Hitbox :=
  if keystates .DOWN ≠ 0 ∨ keystates .S ≠ 0 then some ⟨s.x, s.y + s.speed, Scale * Size, Scale * Size⟩
  else if keystates .UP ≠ 0 ∨ keystates .W ≠ 0 then some ⟨s.x, s.y - s.speed, Scale * Size, Scale * Size⟩
  else if keystates .RIGHT ≠ 0 ∨ keystates .D ≠ 0 then some ⟨s.x + s.speed, s.y, Scale * Size, Scale * Size⟩
  else if keystates .LEFT ≠ 0 ∨ keystates .A ≠ 0 then some ⟨s.x - s.speed, s.y, Scale * Size, Scale * Size⟩
  else none

instance (a b : Hitbox) : Decidable (Overlap a b) :=
  inferInstanceAs (Decidable ((a.x < b.x + b.w ∧ b.x < a.x + a.w) ∧ a.y < b.y + b.h ∧ b.y < a.y + a.h))

def Blocked (s : Player) (player : Hitbox) : Prop := ∃ b ∈ s.mg.currentMap.Forbidden, Overlap player b

instance (s : Player) (player : Hitbox) : Decidable (Blocked s player) :=
  inferInstanceAs (Decidable (∃ b ∈ s.mg.currentMap.Forbidden, Overlap player b))

/-- Where the player is before it may be teleported: a blocked attempt is taken back. -/
def taken (s : Player) (keystates : Keystates) : Hitbox :=
  match attempt s keystates with
  | none => s.hitbox
  | some player => if Blocked s player then s.hitbox else player

def OnPortal (s : Player) (player : Hitbox) : Prop :=
  ∃ zone, s.mg.currentMap.tpPoint.trigerZone = some zone ∧ Overlap player zone

structure Unmoved (s t : Player) : Prop where
  x : t.x = s.x
  y : t.y = s.y
  currentMap : t.mg.currentMap = s.mg.currentMap
  trigerZone : t.trigerZone = s.trigerZone

/-- A rejected attempt changes nothing, and the map changes only under a player on the portal. -/
structure Commits (s : Player) (keystates : Keystates) (t : Player) : Prop where
  rejected : ∀ player, attempt s keystates = some player → Blocked s player → Unmoved s t
  portal : t.mg.currentMap ≠ s.mg.currentMap → OnPortal s (taken s keystates)

/-- The portal of this map leads to where the player stands. -/
structure AtTarget (s : Player) : Prop where
  x : s.x = 64 * s.mg.tp.newX
  y : s.y = 64 * s.mg.tp.newY
  nextMap : s.mg.maps s.mg.tp.nextMap = some s.mg.currentMap

def Separate (s : Player) (keystates : Keystates) : Prop :=
  ∀ player, attempt s keystates = some player → Blocked s player → OnPortal s player → AtTarget s

variable {config : Config} {locate : Locate} {s t : Player} {keystates : Keystates}

theorem move_attempt {moved : Option Player} (h : move s keystates = .ok moved) :
    attempt s keystates = moved.map Player.hitbox := by
  unfold attempt
  unfold move at h
  split at h
  · rename_i hkey
    obtain ⟨y, hy, h⟩ := bind_eq_ok.mp h
    obtain ⟨-, rfl⟩ := int32_eq_ok.mp hy
    cases h
    rw [if_pos hkey]
    rfl
  · rename_i hkey
    rw [if_neg hkey]
    split at h
    · rename_i hkey
      obtain ⟨y, hy, h⟩ := bind_eq_ok.mp h
      obtain ⟨-, rfl⟩ := int32_eq_ok.mp hy
      cases h
      rw [if_pos hkey]
      rfl
    · rename_i hkey
      rw [if_neg hkey]
      split at h
      · rename_i hkey
        obtain ⟨x, hx, h⟩ := bind_eq_ok.mp h
        obtain ⟨-, rfl⟩ := int32_eq_ok.mp hx
        cases h
        rw [if_pos hkey]
        rfl
      · rename_i hkey
        rw [if_neg hkey]
        split at h
        · rename_i hkey
          obtain ⟨x, hx, h⟩ := bind_eq_ok.mp h
          obtain ⟨-, rfl⟩ := int32_eq_ok.mp hx
          cases h
          rw [if_pos hkey]
          rfl
        · rename_i hkey
          cases h
          rw [if_neg hkey]
          rfl

/-! ## Steps -/

inductive Outcome (s : Player) (keystates : Keystates) (t : Player) : Prop
  | rests : attempt s keystates = none → Unmoved s t → Outcome s keystates t
  | rejected (player zone : Hitbox) : attempt s keystates = some player → Blocked s player →
      s.trigerZone = some zone → ¬ Overlap player zone → Unmoved s t → Outcome s keystates t
  | accepted (player zone : Hitbox) : attempt s keystates = some player → ¬ Blocked s player →
      s.trigerZone = some zone → ¬ Overlap player zone → t.mg.currentMap = s.mg.currentMap → Outcome s keystates t
  | teleports (player zone : Hitbox) : attempt s keystates = some player → s.trigerZone = some zone →
      Overlap player zone → Tp s.mg = .ok t.mg → t.x = 64 * s.mg.tp.newX → t.y = 64 * s.mg.tp.newY →
      t.trigerZone = t.mg.tp.trigerZone → Outcome s keystates t

theorem portal_cases {player : Hitbox} (h : (match s.trigerZone with
    | none => .error .dangling
    | some zone => do
      let hit ← checkBoth player zone
      if hit then teleport s else return s : Except Fault Player) = .ok t) :
    ∃ zone, s.trigerZone = some zone ∧ (¬ Overlap player zone ∧ t = s ∨ Overlap player zone ∧ Tp s.mg = .ok t.mg ∧
      t.x = 64 * s.mg.tp.newX ∧ t.y = 64 * s.mg.tp.newY ∧ t.trigerZone = t.mg.tp.trigerZone) := by
  split at h
  · cases h
  · rename_i zone hzone
    obtain ⟨hit, hhit, h⟩ := bind_eq_ok.mp h
    have hhit := checkBoth_eq_ok hhit
    refine ⟨zone, hzone, ?_⟩
    cases hit with
    | true => exact .inr ⟨hhit.mp rfl, (teleport_eq_ok h).2⟩
    | false =>
      cases h
      refine .inl ⟨?_, rfl⟩
      intro ho
      cases hhit.mpr ho

theorem handleEvent_outcome (h : handleEvent s keystates = .ok t) : Outcome s keystates t := by
  obtain ⟨moved, hmove, h⟩ := bind_eq_ok.mp h
  have hattempt := move_attempt hmove
  cases moved with
  | none =>
    cases h
    exact .rests hattempt ⟨rfl, rfl, rfl, rfl⟩
  | some s₁ =>
    obtain ⟨dx, dy, d, -, rfl⟩ := move_eq_ok hmove
    obtain ⟨blocked, hblocked, h⟩ := bind_eq_ok.mp h
    have hblocked := isBlocked_eq_ok hblocked
    obtain ⟨s₂, hanimate, h⟩ := bind_eq_ok.mp h
    obtain ⟨f, c, rfl⟩ := animate_eq_ok hanimate
    obtain ⟨zone, hzone, hend⟩ := portal_cases h
    cases blocked with
    | true =>
      rcases hend with ⟨hno, rfl⟩ | ⟨hover, hmg, hx, hy, hz⟩
      · exact .rejected _ zone hattempt (hblocked.mp rfl) hzone hno ⟨rfl, rfl, rfl, rfl⟩
      · exact .teleports _ zone hattempt hzone hover hmg hx hy hz
    | false =>
      rcases hend with ⟨hno, rfl⟩ | ⟨hover, hmg, hx, hy, hz⟩
      · refine .accepted _ zone hattempt ?_ hzone hno rfl
        intro hb
        cases hblocked.mpr hb
      · exact .teleports _ zone hattempt hzone hover hmg hx hy hz

/-! ## Runs -/

/-- On maps that were loaded the player knows the portal, whatever the maps are like. -/
structure Known (config : Config) (s : Player) : Prop where
  on : ∃ name, On config name s.mg
  zone : s.trigerZone = s.mg.currentMap.tpPoint.trigerZone

theorem known_newGame (h : newGame config locate = .ok s) : Known config s := by
  obtain ⟨mg, hmg, h⟩ := bind_eq_ok.mp h
  obtain ⟨x, -, h⟩ := bind_eq_ok.mp h
  obtain ⟨y, -, h⟩ := bind_eq_ok.mp h
  cases h
  exact ⟨⟨_, newMapManager_eq_ok hmg⟩, rfl⟩

theorem Known.step (hs : Known config s) (h : handleEvent s keystates = .ok t) : Known config t := by
  obtain ⟨-, heffect⟩ := handleEvent_effect h
  obtain ⟨name, hmg⟩ := hs.on
  cases heffect with
  | stays _ _ hm hz => exact ⟨⟨name, hm ▸ hmg⟩, by rw [hz, hm, hs.zone]⟩
  | walks _ _ _ _ _ hm hz _ => exact ⟨⟨name, hm ▸ hmg⟩, by rw [hz, hm, hs.zone]⟩
  | teleports htp _ _ hz =>
    have hmg' := hmg.Tp htp
    exact ⟨⟨_, hmg'⟩, by rw [hz, hmg'.tp]⟩

theorem known_of_run {s₀ : Player} {tr : List Keystates} (h₀ : newGame config locate = .ok s₀)
    (hr : (lts config locate).Run s₀ tr s) : Known config s := by
  refine hr.invariant ?_ (known_newGame h₀)
  intro s keystates t hs h
  exact hs.step h

theorem enter_currentMap {maps : String → Option TileMap} {name : String} {mg : MapManager}
    (h : enter maps name = .ok mg) : maps name = some mg.currentMap := by
  unfold enter at h
  split at h
  · cases h
  · rename_i map hmap
    cases h
    exact hmap

theorem Known.onPortal (hs : Known config s) {player zone : Hitbox} (hz : s.trigerZone = some zone) :
    OnPortal s player ↔ Overlap player zone := by
  rw [hs.zone] at hz
  simp [OnPortal, hz]

theorem commits_of_stays (hmap : t.mg.currentMap = s.mg.currentMap)
    (h : ∀ player, attempt s keystates = some player → Blocked s player → Unmoved s t) : Commits s keystates t := by
  refine ⟨h, ?_⟩
  intro hchange
  exact absurd hmap hchange

theorem AtTarget.unmoved (hat : AtTarget s) (hs : Known config s) (ht : Known config t) (hmg : Tp s.mg = .ok t.mg)
    (hx : t.x = 64 * s.mg.tp.newX) (hy : t.y = 64 * s.mg.tp.newY) : Unmoved s t := by
  have hnext := enter_currentMap hmg
  rw [hat.nextMap] at hnext
  have hback : t.mg.currentMap = s.mg.currentMap := (Option.some.inj hnext).symm
  exact ⟨hx.trans hat.x.symm, hy.trans hat.y.symm, hback, by rw [ht.zone, hback, hs.zone]⟩

theorem Unmoved.atTarget (h : Unmoved s t) (hmg : Tp s.mg = .ok t.mg) (hx : t.x = 64 * s.mg.tp.newX)
    (hy : t.y = 64 * s.mg.tp.newY) : AtTarget s := by
  have hnext := enter_currentMap hmg
  refine ⟨h.x.symm.trans hx, h.y.symm.trans hy, ?_⟩
  rw [hnext, h.currentMap]

theorem Known.commits_iff (hs : Known config s) (h : handleEvent s keystates = .ok t) :
    Commits s keystates t ↔ Separate s keystates := by
  have ht := hs.step h
  cases handleEvent_outcome h with
  | rests hnone hsame =>
    refine iff_of_true (commits_of_stays hsame.currentMap ?_) ?_
    · intro _ _ _
      exact hsame
    · intro player hattempt
      rw [hnone] at hattempt
      cases hattempt
  | rejected player zone hattempt hblocked hzone hno hsame =>
    refine iff_of_true (commits_of_stays hsame.currentMap ?_) ?_
    · intro _ _ _
      exact hsame
    · intro player' hattempt' _ hportal
      rw [hattempt] at hattempt'
      cases hattempt'
      exact absurd ((hs.onPortal hzone).mp hportal) hno
  | accepted player zone hattempt hfree hzone hno hmap =>
    have hfree : ∀ player', attempt s keystates = some player' → ¬ Blocked s player' := by
      intro player' hattempt'
      rw [hattempt] at hattempt'
      cases hattempt'
      exact hfree
    refine iff_of_true (commits_of_stays hmap ?_) ?_
    · intro player' hattempt' hblocked
      exact absurd hblocked (hfree player' hattempt')
    · intro player' hattempt' hblocked
      exact absurd hblocked (hfree player' hattempt')
  | teleports player zone hattempt hzone hover hmg hx hy _ =>
    constructor
    · intro hc player' hattempt' hblocked _
      exact (hc.rejected player' hattempt' hblocked).atTarget hmg hx hy
    · intro hsep
      -- where the portal leads to the same place, the blocked player comes back to it
      have hunmoved : Blocked s player → Unmoved s t := by
        intro hblocked
        have hat := hsep player hattempt hblocked ((hs.onPortal hzone).mpr hover)
        exact hat.unmoved hs ht hmg hx hy
      constructor
      · intro player' hattempt' hblocked
        rw [hattempt] at hattempt'
        cases hattempt'
        exact hunmoved hblocked
      · intro hchange
        by_cases hblocked : Blocked s player
        · exact absurd (hunmoved hblocked).currentMap hchange
        · rw [taken, hattempt]
          simp only [if_neg hblocked]
          exact (hs.onPortal hzone).mpr hover

/-- A step of the game commits to its move before it teleports exactly where the attempt does not
overlap a wall and the portal at once, or the portal leads to where the player stands. -/
theorem teleport_commits_iff (tr : List Keystates) (s₀ s t : Player) (h₀ : newGame config locate = .ok s₀)
    (hr : (lts config locate).Run s₀ tr s) (h : handleEvent s keystates = .ok t) :
    Commits s keystates t ↔ Separate s keystates := (known_of_run h₀ hr).commits_iff h

/-- The portal of `Map1` has a wall beside it. -/
def twoMaps : Config := ⟨["Map1", "Map2"], fun name =>
  if name = "Map1" then ⟨[[1, 1, 1, 1], [1, 0, 0, 1], [1, 3, 1, 1], [1, 1, 1, 1]], 1, 1, "Map2"⟩
  else ⟨[[1, 1, 1, 1], [1, 0, 3, 1], [1, 1, 1, 1]], 1, 1, "Map1"⟩⟩

def press (key : Scancode) : Keystates := fun k => if k = key then 1 else 0

theorem teleport_commits_below : ∃ s₀ t, newGame twoMaps ⟨1, 1, 32⟩ = .ok s₀ ∧
    handleEvent s₀ (press .DOWN) = .ok t ∧ t.mg.currentMap ≠ s₀.mg.currentMap ∧
    (Commits s₀ (press .DOWN) t ↔ Separate s₀ (press .DOWN)) := by
  have hnew : ∃ s₀, newGame twoMaps ⟨1, 1, 32⟩ = .ok s₀ ∧ ∃ t, handleEvent s₀ (press .DOWN) = .ok t ∧
      t.mg.currentMap.map.length = 3 ∧ s₀.mg.currentMap.map.length = 4 := ⟨_, rfl, _, rfl, rfl, rfl⟩
  obtain ⟨s₀, h₀, t, h, ht, hs⟩ := hnew
  refine ⟨s₀, t, h₀, h, ?_, teleport_commits_iff [] s₀ s₀ t h₀ (.nil s₀) h⟩
  intro hmap
  rw [hmap, hs] at ht
  cases ht

/-- One step to the right, and the move down is rejected, but the player is teleported. -/
theorem rejected_teleports : ∃ (s₀ s t : Player), newGame twoMaps ⟨1, 1, 32⟩ = .ok s₀ ∧
    (lts twoMaps ⟨1, 1, 32⟩).Run s₀ [press .D] s ∧ handleEvent s (press .DOWN) = .ok t ∧
    ¬ Commits s (press .DOWN) t := by
  have hnew : ∃ s₀, newGame twoMaps ⟨1, 1, 32⟩ = .ok s₀ ∧ ∃ s, handleEvent s₀ (press .D) = .ok s ∧
      ∃ t, handleEvent s (press .DOWN) = .ok t ∧ attempt s (press .DOWN) = some ⟨96, 96, 64, 64⟩ ∧
        ⟨128, 128, 64, 64⟩ ∈ s.mg.currentMap.Forbidden ∧ s.x = 96 ∧ t.x = 64 :=
    ⟨_, rfl, _, rfl, _, rfl, rfl, by decide, rfl, rfl⟩
  obtain ⟨s₀, h₀, s, hs, t, ht, hattempt, hwall, hx, hx'⟩ := hnew
  refine ⟨s₀, s, t, h₀, .single hs, ht, ?_⟩
  intro hc
  have hsame := hc.rejected _ hattempt ⟨_, hwall, by decide⟩
  rw [hsame.x, hx] at hx'
  cases hx'

end MyLearning.SDLRe
