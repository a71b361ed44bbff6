import MyLearning.SDLRe.TileMaps

/-!
# The player never stands in a wall

A step ends where the player was, where its hitbox is not blocked, or on the target of
a portal. Where a border of walls surrounds the map, a stride of less than two tiles
cannot leave its interior: the hitbox would overlap the border.
-/

namespace MyLearning.SDLRe

/-! ## Steps -/

def Player.hitbox (s : Player) : Hitbox := ⟨s.x, s.y, Scale * Size, Scale * Size⟩

def Stride (speed dx dy : Int) : Prop := dx = 0 ∧ (dy = speed ∨ dy = -speed) ∨ dy = 0 ∧ (dx = speed ∨ dx = -speed)

inductive Effect (s t : Player) : Prop
  | stays : t.x = s.x → t.y = s.y → t.mg = s.mg → t.trigerZone = s.trigerZone → Effect s t
  | walks (dx dy : Int) : Stride s.speed dx dy → t.x = s.x + dx → t.y = s.y + dy → t.mg = s.mg →
      t.trigerZone = s.trigerZone → (∀ b ∈ s.mg.currentMap.Forbidden, ¬ Overlap t.hitbox b) → Effect s t
  | teleports : Tp s.mg = .ok t.mg → t.x = 64 * s.mg.tp.newX → t.y = 64 * s.mg.tp.newY →
      t.trigerZone = t.mg.tp.trigerZone → Effect s t

variable {s t : Player} {keystates : Keystates}

theorem move_eq_ok (h : move s keystates = .ok (some t)) :
    ∃ dx dy d, Stride s.speed dx dy ∧ t = { s with x := s.x + dx, y := s.y + dy, direction := d } := by
  unfold move at h
  split at h
  · obtain ⟨y, hy, h⟩ := bind_eq_ok.mp h
    obtain ⟨-, rfl⟩ := int32_eq_ok.mp hy
    cases h
    exact ⟨0, s.speed, .down, .inl ⟨rfl, .inl rfl⟩, by simp⟩
  · split at h
    · obtain ⟨y, hy, h⟩ := bind_eq_ok.mp h
      obtain ⟨-, rfl⟩ := int32_eq_ok.mp hy
      cases h
      exact ⟨0, -s.speed, .up, .inl ⟨rfl, .inr rfl⟩, by simp [sub_eq_add_neg]⟩
    · split at h
      · obtain ⟨x, hx, h⟩ := bind_eq_ok.mp h
        obtain ⟨-, rfl⟩ := int32_eq_ok.mp hx
        cases h
        exact ⟨s.speed, 0, .right, .inr ⟨rfl, .inl rfl⟩, by simp⟩
      · split at h
        · obtain ⟨x, hx, h⟩ := bind_eq_ok.mp h
          obtain ⟨-, rfl⟩ := int32_eq_ok.mp hx
          cases h
          exact ⟨-s.speed, 0, .left, .inr ⟨rfl, .inr rfl⟩, by simp [sub_eq_add_neg]⟩
        · cases h

theorem animate_eq_ok (h : animate s = .ok t) : ∃ f c, t = { s with frame := f, frameCounter := c } := by
  obtain ⟨c, hc, h⟩ := bind_eq_ok.mp h
  split at h
  · obtain ⟨f, hf, h⟩ := bind_eq_ok.mp h
    cases h
    exact ⟨_, _, rfl⟩
  · cases h
    exact ⟨_, _, rfl⟩

theorem teleport_eq_ok (h : teleport s = .ok t) : t.speed = s.speed ∧ Tp s.mg = .ok t.mg ∧
    t.x = 64 * s.mg.tp.newX ∧ t.y = 64 * s.mg.tp.newY ∧ t.trigerZone = t.mg.tp.trigerZone := by
  obtain ⟨x, hx, h⟩ := bind_eq_ok.mp h
  obtain ⟨y, hy, h⟩ := bind_eq_ok.mp h
  obtain ⟨mg, hmg, h⟩ := bind_eq_ok.mp h
  cases h
  exact ⟨rfl, hmg, scaled_eq_ok hx, scaled_eq_ok hy, rfl⟩

theorem handleEvent_effect (h : handleEvent s keystates = .ok t) : t.speed = s.speed ∧ Effect s t := by
  obtain ⟨moved, hmove, h⟩ := bind_eq_ok.mp h
  cases moved with
  | none =>
    cases h
    exact ⟨rfl, .stays rfl rfl rfl rfl⟩
  | some s₁ =>
    obtain ⟨dx, dy, d, hstride, rfl⟩ := move_eq_ok hmove
    obtain ⟨blocked, hblocked, h⟩ := bind_eq_ok.mp h
    obtain ⟨s₂, hanimate, h⟩ := bind_eq_ok.mp h
    obtain ⟨f, c, hs₂⟩ := animate_eq_ok hanimate
    have hblocked := isBlocked_eq_ok hblocked
    split at h
    · cases h
    · rename_i zone hzone
      obtain ⟨hit, hhit, h⟩ := bind_eq_ok.mp h
      cases hit with
      | true =>
        obtain ⟨hspeed, hmg, hx, hy, hz⟩ := teleport_eq_ok h
        subst hs₂
        cases blocked with
        | true => exact ⟨hspeed, .teleports hmg hx hy hz⟩
        | false => exact ⟨hspeed, .teleports hmg hx hy hz⟩
      | false =>
        cases h
        subst hs₂
        cases blocked with
        | true => exact ⟨rfl, .stays rfl rfl rfl rfl⟩
        | false =>
          refine ⟨rfl, .walks dx dy hstride rfl rfl rfl rfl ?_⟩
          intro b hb ho
          cases hblocked.mpr ⟨b, hb, ho⟩

/-! ## The interior -/

def width (rows : List (List Int)) : Nat := (rows.head?.map List.length).getD 0

def Rectangular (rows : List (List Int)) : Prop := ∀ row ∈ rows, row.length = width rows

def Bordered (rows : List (List Int)) : Prop :=
  ∀ h j i, IsTile rows h j i → (h = 0 ∨ h + 1 = width rows ∨ j = 0 ∨ j + 1 = rows.length) → i = 1

def InteriorTile (rows : List (List Int)) (h j : Int) : Prop :=
  (0 < h ∧ h + 1 < width rows) ∧ 0 < j ∧ j + 1 < rows.length

def Interior (rows : List (List Int)) (x y : Int) : Prop :=
  (64 ≤ x ∧ x + 64 ≤ 64 * (width rows - 1)) ∧ 64 ≤ y ∧ y + 64 ≤ 64 * (rows.length - 1)

theorem interior_of_tile {rows : List (List Int)} {h j : Int} (ht : InteriorTile rows h j) :
    Interior rows (64 * h) (64 * j) := by
  unfold InteriorTile at ht
  unfold Interior
  omega

theorem exists_tile {rows : List (List Int)} (hr : Rectangular rows) {h j : Int} (hh : 0 ≤ h ∧ h < width rows)
    (hj : 0 ≤ j ∧ j < rows.length) : ∃ i, IsTile rows h j i := by
  obtain ⟨a, rfl⟩ := Int.eq_ofNat_of_zero_le hh.1
  obtain ⟨b, rfl⟩ := Int.eq_ofNat_of_zero_le hj.1
  have hb : b < rows.length := by omega
  have ha : a < rows[b].length := by
    rw [hr _ (List.getElem_mem hb)]
    omega
  exact ⟨rows[b][a], a, b, rows[b], List.getElem?_eq_getElem hb, List.getElem?_eq_getElem ha, rfl, rfl⟩

theorem border_wall {rows : List (List Int)} (hr : Rectangular rows) (hb : Bordered rows) {h j : Int}
    (hh : 0 ≤ h ∧ h < width rows) (hj : 0 ≤ j ∧ j < rows.length)
    (hborder : h = 0 ∨ h + 1 = width rows ∨ j = 0 ∨ j + 1 = rows.length) : IsTile rows h j 1 := by
  obtain ⟨i, hi⟩ := exists_tile hr hh hj
  rw [hb h j i hi hborder] at hi
  exact hi

theorem inside_of_stride {n x d speed : Int} (hspeed : 0 ≤ speed ∧ speed < 128) (hd : d = speed ∨ d = -speed)
    (hx : 64 ≤ x ∧ x + 64 ≤ 64 * (n - 1)) (hfirst : ¬ (x + d < 64 * 0 + 64 ∧ 64 * 0 < x + d + 64))
    (hlast : ¬ (x + d < 64 * (n - 1) + 64 ∧ 64 * (n - 1) < x + d + 64)) :
    64 ≤ x + d ∧ x + d + 64 ≤ 64 * (n - 1) := by
  omega

theorem tile_under {n x : Int} (hx : 64 ≤ x ∧ x + 64 ≤ 64 * (n - 1)) :
    (0 ≤ x / 64 ∧ x / 64 < n) ∧ x < 64 * (x / 64) + 64 ∧ 64 * (x / 64) < x + 64 := by
  omega

theorem interior_of_stride {rows : List (List Int)} (hr : Rectangular rows) (hb : Bordered rows) {x y dx dy speed : Int}
    (hspeed : 0 ≤ speed ∧ speed < 128) (hi : Interior rows x y) (hstride : Stride speed dx dy)
    (hfree : ∀ h j, IsTile rows h j 1 → ¬ Overlap ⟨x + dx, y + dy, 64, 64⟩ (box h j)) :
    Interior rows (x + dx) (y + dy) := by
  obtain ⟨hx, hy⟩ := hi
  obtain ⟨hcol, hxin⟩ := tile_under hx
  obtain ⟨hrow, hyin⟩ := tile_under hy
  have hfree' : ∀ h j : Int, (0 ≤ h ∧ h < width rows) → (0 ≤ j ∧ j < rows.length) →
      (h = 0 ∨ h + 1 = width rows ∨ j = 0 ∨ j + 1 = rows.length) →
      ¬ ((x + dx < 64 * h + 64 ∧ 64 * h < x + dx + 64) ∧ y + dy < 64 * j + 64 ∧ 64 * j < y + dy + 64) := by
    intro h j hh hj hborder
    exact hfree h j (border_wall hr hb hh hj hborder)
  rcases hstride with ⟨rfl, hd⟩ | ⟨rfl, hd⟩
  · -- along its column: the walls are in the first and the last row
    rw [add_zero] at *
    refine ⟨hx, inside_of_stride hspeed hd hy ?_ ?_⟩
    · intro ho
      exact hfree' (x / 64) 0 hcol (by omega) (by simp) ⟨hxin, ho⟩
    · intro ho
      exact hfree' (x / 64) (rows.length - 1) hcol (by omega) (by simp) ⟨hxin, ho⟩
  · rw [add_zero] at *
    refine ⟨inside_of_stride hspeed hd hx ?_ ?_, hy⟩
    · intro ho
      exact hfree' 0 (y / 64) (by omega) hrow (by simp) ⟨ho, hyin⟩
    · intro ho
      exact hfree' (width rows - 1) (y / 64) (by omega) hrow (by simp) ⟨ho, hyin⟩

/-! ## The game -/

/-- What the maps and the start have to be like. -/
structure Playable (config : Config) (locate : Locate) : Prop where
  rectangular : ∀ name ∈ config.Maps, Rectangular (config.map name).Map
  nextMap : ∀ name ∈ config.Maps, (config.map name).nextMap ∈ config.Maps
  portal : ∀ name ∈ config.Maps, ∃ h j, IsTile (config.map name).Map h j 3
  start : ¬ IsTile (config.map "Map1").Map locate.x locate.y 1
  target : ∀ name ∈ config.Maps,
    ¬ IsTile (config.map (config.map name).nextMap).Map (config.map name).x (config.map name).y 1
  speed : 0 ≤ locate.speed ∧ locate.speed < 128

/-- Every map has a border of walls, the start and the targets are in the interior. -/
structure Walled (config : Config) (locate : Locate) : Prop where
  bordered : ∀ name ∈ config.Maps, Bordered (config.map name).Map
  start : InteriorTile (config.map "Map1").Map locate.x locate.y
  target : ∀ name ∈ config.Maps,
    InteriorTile (config.map (config.map name).nextMap).Map (config.map name).x (config.map name).y

variable {config : Config} {locate : Locate}

def Free (s : Player) : Prop := ∀ b ∈ s.mg.currentMap.Forbidden, ¬ Overlap s.hitbox b

structure Inv (config : Config) (locate : Locate) (s : Player) : Prop where
  on : ∃ name, On config name s.mg
  zone : s.trigerZone = s.mg.currentMap.tpPoint.trigerZone
  speed : s.speed = locate.speed
  free : Free s
  interior : Walled config locate → Interior s.mg.currentMap.map s.x s.y

theorem free_of_tile {name : String} {h j : Int} (hmg : On config name s.mg) (hx : s.x = 64 * h) (hy : s.y = 64 * j)
    (ht : ¬ IsTile (config.map name).Map h j 1) : Free s := by
  intro b hb ho
  obtain ⟨h', j', htile, rfl⟩ := (hmg.current.walls b).mp hb
  have hbox : s.hitbox = box h j := by
    rw [Player.hitbox, hx, hy]
    rfl
  rw [hbox] at ho
  obtain ⟨rfl, rfl⟩ := overlap_box ho
  exact ht htile

theorem inv_newGame (hp : Playable config locate) (h : newGame config locate = .ok s) : Inv config locate s := by
  obtain ⟨mg, hmg, h⟩ := bind_eq_ok.mp h
  have hmg := newMapManager_eq_ok hmg
  obtain ⟨x, hx, h⟩ := bind_eq_ok.mp h
  obtain ⟨y, hy, h⟩ := bind_eq_ok.mp h
  cases scaled_eq_ok hx
  cases scaled_eq_ok hy
  cases h
  refine ⟨⟨_, hmg⟩, rfl, rfl, free_of_tile hmg rfl rfl hp.start, ?_⟩
  intro hw
  rw [hmg.current.map]
  exact interior_of_tile hw.start

theorem Inv.step (hp : Playable config locate) (hs : Inv config locate s) (h : handleEvent s keystates = .ok t) :
    Inv config locate t := by
  obtain ⟨hspeed, heffect⟩ := handleEvent_effect h
  obtain ⟨name, hmg⟩ := hs.on
  have hspeed := hspeed.trans hs.speed
  cases heffect with
  | stays hx hy hm hz =>
    refine ⟨⟨name, hm ▸ hmg⟩, by rw [hz, hm, hs.zone], hspeed, ?_, ?_⟩
    · rw [Free, Player.hitbox, hx, hy, hm]
      exact hs.free
    · rw [hx, hy, hm]
      exact hs.interior
  | walks dx dy hstride hx hy hm hz hfree =>
    refine ⟨⟨name, hm ▸ hmg⟩, by rw [hz, hm, hs.zone], hspeed, ?_, ?_⟩
    · rw [Free, hm]
      exact hfree
    · intro hw
      have hinterior := hs.interior hw
      rw [hs.speed] at hstride
      rw [hmg.current.map] at hinterior
      rw [hx, hy, hm, hmg.current.map]
      refine interior_of_stride (hp.rectangular name hmg.mem) (hw.bordered name hmg.mem) hp.speed hinterior hstride ?_
      intro h j htile ho
      refine hfree _ ((hmg.current.walls _).mpr ⟨h, j, htile, rfl⟩) ?_
      rw [Player.hitbox, hx, hy]
      exact ho
  | teleports htp hx hy hz =>
    have hmg' := hmg.Tp htp
    rw [hmg.tp, hmg.current.newX] at hx
    rw [hmg.tp, hmg.current.newY] at hy
    refine ⟨⟨_, hmg'⟩, by rw [hz, hmg'.tp], hspeed, free_of_tile hmg' hx hy (hp.target name hmg.mem), ?_⟩
    intro hw
    rw [hx, hy, hmg'.current.map]
    exact interior_of_tile (hw.target name hmg.mem)

theorem inv_of_run (hp : Playable config locate) {s₀ s : Player} {tr : List Keystates}
    (h₀ : newGame config locate = .ok s₀) (hr : (lts config locate).Run s₀ tr s) : Inv config locate s := by
  refine hr.invariant ?_ (inv_newGame hp h₀)
  intro s keystates t hs h
  exact hs.step hp h

/-! ## What can go wrong -/

/-- The code fails on no account but that a coordinate leaves the range of `int`. -/
def OnlyOverflow {α : Type} (x : Except Fault α) : Prop := ∀ f, x = .error f → f = .overflow

theorem onlyOverflow_ok {α : Type} (a : α) : OnlyOverflow (.ok a : Except Fault α) := by
  intro f hf
  cases hf

theorem onlyOverflow_int32 (x : Int) : OnlyOverflow (int32 x) := by
  intro f hf
  exact int32_error hf

theorem OnlyOverflow.bind {α β : Type} {x : Except Fault α} {g : α → Except Fault β} (hx : OnlyOverflow x)
    (hg : ∀ a, x = .ok a → OnlyOverflow (g a)) : OnlyOverflow (x >>= g) := by
  cases x with
  | error e =>
    intro f hf
    cases hf
    exact hx e rfl
  | ok a => exact hg a rfl

theorem onlyOverflow_scaled (n : Int) : OnlyOverflow (scaled n) :=
  (onlyOverflow_int32 _).bind fun _ _ => onlyOverflow_int32 _

theorem onlyOverflow_ite {α : Type} {p : Prop} [Decidable p] {x y : Except Fault α} (hx : OnlyOverflow x)
    (hy : OnlyOverflow y) : OnlyOverflow (if p then x else y) := by
  split
  · exact hx
  · exact hy

theorem onlyOverflow_sums (a b c : Int) (p : Int → Bool) : OnlyOverflow (do
    let r ← int32 b
    if a < r then do
      let r ← int32 c
      return p r
    else return false) := by
  apply (onlyOverflow_int32 _).bind
  intro r _
  apply onlyOverflow_ite
  · apply (onlyOverflow_int32 _).bind
    intro r _
    exact onlyOverflow_ok _
  · exact onlyOverflow_ok _

theorem onlyOverflow_checkBoth (a b : Hitbox) : OnlyOverflow (checkBoth a b) := by
  apply (onlyOverflow_sums _ _ _ _).bind
  intro x _
  exact onlyOverflow_ite (onlyOverflow_sums _ _ _ _) (onlyOverflow_ok _)

theorem onlyOverflow_isBlocked (player : Hitbox) (blocks : List Hitbox) : OnlyOverflow (isBlocked player blocks) := by
  induction blocks with
  | nil => exact onlyOverflow_ok _
  | cons block blocks ih =>
    apply (onlyOverflow_checkBoth player block).bind
    intro hit _
    exact onlyOverflow_ite (onlyOverflow_ok _) ih

theorem onlyOverflow_move (s : Player) (keystates : Keystates) : OnlyOverflow (move s keystates) := by
  have hint : ∀ (n : Int) (f : Int → Option Player), OnlyOverflow (int32 n >>= fun m => .ok (f m)) := by
    intro n f
    apply (onlyOverflow_int32 n).bind
    intro m _
    exact onlyOverflow_ok _
  unfold move
  repeat' apply onlyOverflow_ite
  · exact hint _ _
  · exact hint _ _
  · exact hint _ _
  · exact hint _ _
  · exact onlyOverflow_ok _

theorem onlyOverflow_animate (s : Player) : OnlyOverflow (animate s) := by
  apply (onlyOverflow_int32 _).bind
  intro c _
  apply onlyOverflow_ite
  · apply (onlyOverflow_int32 _).bind
    intro f _
    exact onlyOverflow_ok _
  · exact onlyOverflow_ok _

theorem onlyOverflow_teleport {name : String} (hp : Playable config locate) (hmg : On config name s.mg) :
    OnlyOverflow (teleport s) := by
  refine (onlyOverflow_scaled _).bind fun _ _ => (onlyOverflow_scaled _).bind fun _ _ => ?_
  refine OnlyOverflow.bind ?_ fun _ _ => onlyOverflow_ok _
  have hnext : s.mg.maps s.mg.tp.nextMap ≠ none := by
    rw [hmg.tp, hmg.current.nextMap]
    exact hmg.maps.all _ (hp.nextMap name hmg.mem)
  unfold Tp enter
  split
  · rename_i hnone
    exact absurd hnone hnext
  · exact onlyOverflow_ok _

theorem Inv.portal (hp : Playable config locate) (hs : Inv config locate s) : s.trigerZone ≠ none := by
  obtain ⟨name, hmg⟩ := hs.on
  obtain ⟨h, j, htile⟩ := hp.portal name hmg.mem
  rw [hs.zone]
  exact hmg.current.portal h j htile

theorem Inv.onlyOverflow (hp : Playable config locate) (hs : Inv config locate s) (keystates : Keystates) :
    OnlyOverflow (handleEvent s keystates) := by
  obtain ⟨name, hmg⟩ := hs.on
  apply (onlyOverflow_move s keystates).bind
  intro moved hmove
  cases moved with
  | none => exact onlyOverflow_ok _
  | some s₁ =>
    obtain ⟨dx, dy, d, -, rfl⟩ := move_eq_ok hmove
    apply (onlyOverflow_isBlocked _ _).bind
    intro blocked _
    apply (onlyOverflow_animate _).bind
    intro s₂ hanimate
    -- blocked or not, the map and the zone are those of `s`
    have hsame : s₂.mg = s.mg ∧ s₂.trigerZone = s.trigerZone := by
      obtain ⟨f, c, rfl⟩ := animate_eq_ok hanimate
      cases blocked with
      | true => exact ⟨rfl, rfl⟩
      | false => exact ⟨rfl, rfl⟩
    obtain ⟨hmg₂, hz₂⟩ := hsame
    cases hzone : s₂.trigerZone with
    | none => exact absurd (hz₂.symm.trans hzone) (hs.portal hp)
    | some zone =>
      apply (onlyOverflow_checkBoth _ _).bind
      intro hit _
      apply onlyOverflow_ite
      · apply onlyOverflow_teleport hp
        rw [hmg₂]
        exact hmg
      · exact onlyOverflow_ok _

/-- However the keys are pressed, the player is in no wall, knows the portal of its map, and with a border
of walls stays inside; a step can only fail by leaving the range of `int`. -/
theorem never_in_wall (hp : Playable config locate) (tr : List Keystates) (s₀ s : Player)
    (h₀ : newGame config locate = .ok s₀) (hr : (lts config locate).Run s₀ tr s) :
    Free s ∧ s.trigerZone = s.mg.currentMap.tpPoint.trigerZone ∧
      (Walled config locate → Interior s.mg.currentMap.map s.x s.y) ∧
      ∀ keystates, OnlyOverflow (handleEvent s keystates) := by
  have hs := inv_of_run hp h₀ hr
  exact ⟨hs.free, hs.zone, hs.interior, hs.onlyOverflow hp⟩

theorem isTile_unique {rows : List (List Int)} {a b : Nat} {row : List Int} {i i' : Int} (hb : rows[b]? = some row)
    (ha : row[a]? = some i) (h : IsTile rows a b i') : i' = i := by
  obtain ⟨a', b', row', hb', ha', haa, hbb⟩ := h
  obtain rfl := Int.ofNat.inj haa
  obtain rfl := Int.ofNat.inj hbb
  rw [hb] at hb'
  cases hb'
  rw [ha] at ha'
  exact (Option.some.inj ha').symm

def oneMap : Config := ⟨["Map1"], fun _ => ⟨[[1, 1, 1, 1], [1, 0, 3, 1], [1, 1, 1, 1]], 1, 1, "Map1"⟩⟩

theorem playable_oneMap : Playable oneMap ⟨1, 1, 5⟩ := by
  have hstart : ¬ IsTile (oneMap.map "Map1").Map 1 1 1 := by
    intro h
    have h := isTile_unique (a := 1) (b := 1) rfl rfl h
    cases h
  refine ⟨?_, ?_, ?_, hstart, ?_, by decide⟩
  · intro name _
    show ∀ row ∈ (oneMap.map "Map1").Map, row.length = width (oneMap.map "Map1").Map
    decide
  · intro name _
    exact List.mem_singleton.mpr rfl
  · intro name _
    exact ⟨2, 1, 2, 1, [1, 0, 3, 1], rfl, rfl, rfl, rfl⟩
  · intro name _
    exact hstart

/-- The key D takes the player into the portal. -/
theorem never_in_wall_portal : ∃ s₀ s, newGame oneMap ⟨1, 1, 5⟩ = .ok s₀ ∧
    (lts oneMap ⟨1, 1, 5⟩).Run s₀ [fun key => if key = .D then 1 else 0] s ∧ Free s := by
  have hnew : ∃ s₀, newGame oneMap ⟨1, 1, 5⟩ = .ok s₀ ∧ ∃ s, handleEvent s₀ (fun key => if key = .D then 1 else 0) = .ok s :=
    ⟨_, rfl, _, rfl⟩
  obtain ⟨s₀, h₀, s, hs⟩ := hnew
  have hr : (lts oneMap ⟨1, 1, 5⟩).Run s₀ [fun key => if key = .D then 1 else 0] s := .single hs
  exact ⟨s₀, s, h₀, hr, (never_in_wall playable_oneMap _ s₀ s h₀ hr).1⟩

end MyLearning.SDLRe
