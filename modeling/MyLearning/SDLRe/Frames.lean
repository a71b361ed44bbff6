import MyLearning.SDLRe.PlayerWalls

/-!
# What a frame shows

`TileMap::render` copies a texture to the place of every tile, and `Player::render` the parts of the player
to where it stands. The walls that are drawn are the ones that block the player. The portal has an animation
of eight pictures, but `frame_/100` is zero for all of them.
-/

namespace MyLearning.SDLRe

/-! ## The functions of the source -/

abbrev Rect := Hitbox

/-- A call of `SDL_RenderCopy`, with its texture by name. -/
structure Copy where
  texture : String
  srcRect : Rect
  dstRect : Rect
  deriving DecidableEq, Repr

/-- The copy and what becomes of `frame_`. -/
def renderPortal (frame : Int) (dstRect : Rect) : Except Fault (Copy × Int) := do
  let n ← int32 (frame.tdiv 100 + 1)
  let x ← int32 (n * Size)
  let x ← int32 (x * Scale)
  let frame ← int32 (frame + 1)
  return (⟨"protal", ⟨x, 0, Size * Scale, Size * Scale⟩, dstRect⟩, if frame > 8 then frame.tmod 8 else frame)

def tileSrc : Rect := ⟨0, 0, Scale * Size * 10, Scale * Size * 10⟩

def renderTile (tile frame : Int) (dstRect : Rect) : Except Fault (List Copy × Int) :=
  if tile = 0 then return ([⟨"grass", tileSrc, dstRect⟩], frame)
  else if tile = 1 then return ([⟨"wall", tileSrc, dstRect⟩], frame)
  else if tile = 3 then do
    let r ← renderPortal frame dstRect
    return ([⟨"grass", tileSrc, dstRect⟩, r.1], r.2)
  else return ([], frame)

/-- The loop over `j`, with the row from `map_[i][j]` on and the number of turns left. -/
def renderRow (i : Int) : Nat → Int → List Int → Int → Except Fault (List Copy × Int)
  | 0, _, _, frame => .ok ([], frame)
  | n + 1, j, row, frame => do
    let dstRect ← tileBox j i
    match row with
    | [] => .error .bounds
    | tile :: row => do
      let r ← renderTile tile frame dstRect
      let rest ← renderRow i n (j + 1) row r.2
      return (r.1 ++ rest.1, rest.2)

/-- The loop over `i`; every row has as many turns as the first one has tiles. -/
def renderRows (n : Nat) : Int → List (List Int) → Int → Except Fault (List Copy × Int)
  | _, [], frame => .ok ([], frame)
  | i, row :: rows, frame => do
    let r ← renderRow i n 0 row frame
    let rest ← renderRows n (i + 1) rows r.2
    return (r.1 ++ rest.1, rest.2)

def TileMap.render (t : TileMap) (frame : Int) : Except Fault (List Copy × Int) := renderRows (width t.map) 0 t.map frame

def Direction.toInt : Direction → Int
  | down => 0
  | left => 1
  | right => 2
  | up => 3

def Player.update (s : Player) : Except Fault (Rect × Rect) := do
  let x ← int32 (s.frame * Size)
  let y ← int32 (s.direction.toInt * Size)
  return (⟨x, y, Size, Size⟩, s.hitbox)

structure Picture where
  tiles : List Copy
  role : List Copy
  frame : Int

/-- `Game::render`, for the parts in `roleElement_` and `frame_` of the current map. -/
def Player.picture (s : Player) (roleElement : List String) (frame : Int) : Except Fault Picture := do
  let rects ← s.update
  let tiles ← s.mg.currentMap.render frame
  return ⟨tiles.1, roleElement.map fun part => ⟨part, rects.1, rects.2⟩, tiles.2⟩

/-! ## One map -/

def InCycle (frame : Int) : Prop := 0 ≤ frame ∧ frame ≤ 8

def tileCopies (tile : Int) (dstRect : Rect) : List Copy :=
  if tile = 0 then [⟨"grass", tileSrc, dstRect⟩]
  else if tile = 1 then [⟨"wall", tileSrc, dstRect⟩]
  else if tile = 3 then [⟨"grass", tileSrc, dstRect⟩, ⟨"protal", ⟨64, 0, 64, 64⟩, dstRect⟩]
  else []

def rowCopies (i : Int) : Int → List Int → List Copy
  | _, [] => []
  | j, tile :: row => tileCopies tile (box j i) ++ rowCopies i (j + 1) row

def rowsCopies (n : Nat) : Int → List (List Int) → List Copy
  | _, [] => []
  | i, row :: rows => rowCopies i 0 (row.take n) ++ rowsCopies n (i + 1) rows

def TileMap.copies (t : TileMap) : List Copy := rowsCopies (width t.map) 0 t.map

theorem int32_of_range {n : Int} (h : -2 ^ 31 ≤ n ∧ n < 2 ^ 31) : int32 n = .ok n := int32_eq_ok.mpr ⟨h, rfl⟩

theorem renderPortal_eq {frame : Int} (hf : InCycle frame) (dstRect : Rect) :
    ∃ f, renderPortal frame dstRect = .ok (⟨"protal", ⟨64, 0, 64, 64⟩, dstRect⟩, f) ∧ InCycle f := by
  obtain ⟨h₀, h₈⟩ := hf
  have hdiv : frame.tdiv 100 = 0 := Int.tdiv_eq_zero_of_lt h₀ (by omega)
  refine ⟨if frame + 1 > 8 then (frame + 1).tmod 8 else frame + 1, ?_, ?_⟩
  · rw [renderPortal, hdiv, int32_of_range (n := frame + 1) (by omega)]
    rfl
  · unfold InCycle
    split
    · have h : frame = 8 := by omega
      subst h
      decide
    · omega

theorem renderTile_eq {tile frame : Int} (hf : InCycle frame) (dstRect : Rect) :
    ∃ f, renderTile tile frame dstRect = .ok (tileCopies tile dstRect, f) ∧ InCycle f := by
  unfold renderTile tileCopies
  split
  · exact ⟨frame, rfl, hf⟩
  · split
    · exact ⟨frame, rfl, hf⟩
    · split
      · obtain ⟨f, hr, hf⟩ := renderPortal_eq hf dstRect
        rw [hr]
        exact ⟨f, rfl, hf⟩
      · exact ⟨frame, rfl, hf⟩

theorem renderRow_eq {i : Int} : ∀ {n : Nat} {j : Int} {row : List Int} {frame : Int}, InCycle frame →
    (n ≤ row.length → OnlyOverflow (renderRow i n j row frame)) ∧
    ∀ r, renderRow i n j row frame = .ok r → n ≤ row.length ∧ r.1 = rowCopies i j (row.take n) ∧ InCycle r.2
  | 0, j, row, frame, hf => by
    refine ⟨fun _ => onlyOverflow_ok _, ?_⟩
    intro r hr
    cases hr
    exact ⟨Nat.zero_le _, rfl, hf⟩
  | n + 1, j, [], frame, hf => by
    refine ⟨fun h => absurd h (by simp), ?_⟩
    intro r hr
    obtain ⟨dstRect, -, hr⟩ := bind_eq_ok.mp hr
    cases hr
  | n + 1, j, tile :: row, frame, hf => by
    have htile : ∀ dstRect : Rect, ∃ f, renderTile tile frame dstRect = .ok (tileCopies tile dstRect, f) ∧ InCycle f :=
      renderTile_eq hf
    constructor
    · intro h
      have hbox : OnlyOverflow (tileBox j i) :=
        (onlyOverflow_scaled _).bind fun _ _ => (onlyOverflow_scaled _).bind fun _ _ => onlyOverflow_ok _
      refine hbox.bind ?_
      intro dstRect _
      obtain ⟨f, hr, hf⟩ := htile dstRect
      simp only [hr, ok_bind]
      refine OnlyOverflow.bind ((renderRow_eq hf).1 (by simpa using h)) ?_
      intro rest _
      exact onlyOverflow_ok _
    · intro r hr
      obtain ⟨dstRect, hdst, hr⟩ := bind_eq_ok.mp hr
      cases tileBox_eq_ok hdst
      obtain ⟨f, htile, hf⟩ := htile (box j i)
      simp only [htile, ok_bind] at hr
      obtain ⟨rest, hrest, hr⟩ := bind_eq_ok.mp hr
      cases hr
      obtain ⟨hlen, hcopies, hf⟩ := (renderRow_eq hf).2 rest hrest
      refine ⟨by simpa using hlen, ?_, hf⟩
      rw [List.take_succ_cons, rowCopies, ← hcopies]

theorem renderRows_eq {n : Nat} : ∀ {rows : List (List Int)} {i frame : Int}, InCycle frame →
    ((∀ row ∈ rows, n ≤ row.length) → OnlyOverflow (renderRows n i rows frame)) ∧
    ∀ r, renderRows n i rows frame = .ok r → (∀ row ∈ rows, n ≤ row.length) ∧ r.1 = rowsCopies n i rows ∧ InCycle r.2
  | [], i, frame, hf => by
    refine ⟨fun _ => onlyOverflow_ok _, ?_⟩
    intro r hr
    cases hr
    exact ⟨nofun, rfl, hf⟩
  | row :: rows, i, frame, hf => by
    have hrow : (n ≤ row.length → OnlyOverflow (renderRow i n 0 row frame)) ∧ _ := renderRow_eq hf
    constructor
    · intro h
      refine (hrow.1 (h row List.mem_cons_self)).bind ?_
      intro r hr
      obtain ⟨-, -, hf⟩ := hrow.2 r hr
      refine OnlyOverflow.bind ((renderRows_eq hf).1 fun row hmem => h row (List.mem_cons_of_mem _ hmem)) ?_
      intro rest _
      exact onlyOverflow_ok _
    · intro r hr
      obtain ⟨first, hfirst, hr⟩ := bind_eq_ok.mp hr
      obtain ⟨hlen, hcopies, hf⟩ := hrow.2 first hfirst
      obtain ⟨rest, hrest, hr⟩ := bind_eq_ok.mp hr
      cases hr
      obtain ⟨hlens, hcopies', hf⟩ := (renderRows_eq hf).2 rest hrest
      exact ⟨List.forall_mem_cons.mpr ⟨hlen, hlens⟩, by rw [rowsCopies, ← hcopies, ← hcopies'], hf⟩

def renders (t : TileMap) : Nat → Int → Except Fault (List (List Copy) × Int)
  | 0, frame => .ok ([], frame)
  | k + 1, frame => do
    let r ← t.render frame
    let rest ← renders t k r.2
    return (r.1 :: rest.1, rest.2)

theorem renders_eq {t : TileMap} : ∀ {k : Nat} {frame : Int}, InCycle frame →
    ((∀ row ∈ t.map, width t.map ≤ row.length) → OnlyOverflow (renders t k frame)) ∧
    ∀ r, renders t k frame = .ok r → r.1 = List.replicate k t.copies ∧ InCycle r.2 ∧
      (0 < k → ∀ row ∈ t.map, width t.map ≤ row.length)
  | 0, frame, hf => by
    refine ⟨fun _ => onlyOverflow_ok _, ?_⟩
    intro r hr
    cases hr
    exact ⟨rfl, hf, nofun⟩
  | k + 1, frame, hf => by
    have hone : ((∀ row ∈ t.map, width t.map ≤ row.length) → OnlyOverflow (renderRows (width t.map) 0 t.map frame)) ∧ _ :=
      renderRows_eq hf
    constructor
    · intro h
      refine (hone.1 h).bind ?_
      intro r hr
      refine OnlyOverflow.bind ((renders_eq (hone.2 r hr).2.2).1 h) ?_
      intro rest _
      exact onlyOverflow_ok _
    · intro r hr
      obtain ⟨first, hfirst, hr⟩ := bind_eq_ok.mp hr
      obtain ⟨hlen, hcopies, hf⟩ := hone.2 first hfirst
      obtain ⟨rest, hrest, hr⟩ := bind_eq_ok.mp hr
      cases hr
      obtain ⟨hsame, hf, -⟩ := (renders_eq hf).2 rest hrest
      exact ⟨by rw [List.replicate_succ, ← hsame, TileMap.copies, ← hcopies], hf, fun _ => hlen⟩

/-- **The picture of a map.** Where no row is shorter than the first, a map can be drawn any number of times
but for coordinates out of range, and where one is, not even once; all the pictures are the same. -/
theorem renders_same (t : TileMap) (k : Nat) :
    ((∀ row ∈ t.map, width t.map ≤ row.length) → OnlyOverflow (renders t k 0)) ∧
    ∀ r, renders t k 0 = .ok r → r.1 = List.replicate k t.copies ∧ InCycle r.2 ∧
      (0 < k → ∀ row ∈ t.map, width t.map ≤ row.length) :=
  renders_eq ⟨by decide, by decide⟩

/-! ## Tiles -/

theorem mem_rowCopies {c : Copy} {i : Int} : ∀ {row : List Int} {j : Int},
    c ∈ rowCopies i j row ↔ ∃ (a : Nat) (tile : Int), row[a]? = some tile ∧ c ∈ tileCopies tile (box (j + a) i)
  | [], j => by simp [rowCopies]
  | tile :: row, j => by
    rw [rowCopies, List.mem_append, mem_rowCopies]
    constructor
    · intro h
      rcases h with h | ⟨a, tile', ha, h⟩
      · exact ⟨0, tile, rfl, by simpa using h⟩
      · refine ⟨a + 1, tile', ha, ?_⟩
        rw [Nat.cast_add_one, add_comm (a : Int), ← add_assoc]
        exact h
    · intro h
      obtain ⟨a, tile', ha, h⟩ := h
      cases a with
      | zero =>
        cases ha
        exact .inl (by simpa using h)
      | succ a =>
        rw [Nat.cast_add_one, add_comm (a : Int), ← add_assoc] at h
        exact .inr ⟨a, tile', ha, h⟩

theorem mem_rowsCopies {c : Copy} {n : Nat} : ∀ {rows : List (List Int)} {i : Int},
    (∀ row ∈ rows, row.length = n) → (c ∈ rowsCopies n i rows ↔ ∃ (a b : Nat) (row : List Int) (tile : Int),
      rows[b]? = some row ∧ row[a]? = some tile ∧ c ∈ tileCopies tile (box a (i + b)))
  | [], i, _ => by simp [rowsCopies]
  | row :: rows, i, hlen => by
    obtain ⟨hrow, hrows⟩ := List.forall_mem_cons.mp hlen
    rw [rowsCopies, List.mem_append, mem_rowsCopies hrows, List.take_of_length_le (le_of_eq hrow), mem_rowCopies]
    constructor
    · intro h
      rcases h with ⟨a, tile, ha, h⟩ | ⟨a, b, row', tile, hb, ha, h⟩
      · exact ⟨a, 0, row, tile, rfl, ha, by simpa using h⟩
      · refine ⟨a, b + 1, row', tile, hb, ha, ?_⟩
        rw [Nat.cast_add_one, add_comm (b : Int), ← add_assoc]
        exact h
    · intro h
      obtain ⟨a, b, row', tile, hb, ha, h⟩ := h
      cases b with
      | zero =>
        cases hb
        exact .inl ⟨a, tile, ha, by simpa using h⟩
      | succ b =>
        rw [Nat.cast_add_one, add_comm (b : Int), ← add_assoc] at h
        exact .inr ⟨a, b, row', tile, hb, ha, h⟩

theorem mem_copies {t : TileMap} (hr : Rectangular t.map) {c : Copy} :
    c ∈ t.copies ↔ ∃ h j i, IsTile t.map h j i ∧ c ∈ tileCopies i (box h j) := by
  rw [TileMap.copies, mem_rowsCopies hr]
  constructor
  · intro h
    obtain ⟨a, b, row, tile, hb, ha, h⟩ := h
    exact ⟨a, b, tile, ⟨a, b, row, hb, ha, rfl, rfl⟩, by simpa using h⟩
  · intro h
    obtain ⟨-, -, tile, ⟨a, b, row, hb, ha, rfl, rfl⟩, h⟩ := h
    exact ⟨a, b, row, tile, hb, ha, by simpa using h⟩

theorem wall_copy {c : Copy} {tile : Int} {dstRect : Rect} :
    c ∈ tileCopies tile dstRect ∧ c.texture = "wall" ↔ tile = 1 ∧ c = ⟨"wall", tileSrc, dstRect⟩ := by
  unfold tileCopies
  constructor
  · intro h
    obtain ⟨hc, hw⟩ := h
    split at hc
    · rw [List.mem_singleton.mp hc] at hw
      exact absurd hw (by simp)
    · split at hc
      · rename_i h₁
        exact ⟨h₁, List.mem_singleton.mp hc⟩
      · split at hc
        · rcases List.mem_pair.mp hc with rfl | rfl
          · exact absurd hw (by simp)
          · exact absurd hw (by simp)
        · cases hc
  · intro h
    obtain ⟨rfl, rfl⟩ := h
    exact ⟨List.mem_singleton_self _, rfl⟩

theorem drawn_walls {config : MapConfig} {t : TileMap} (ht : Loaded config t) (hr : Rectangular t.map) (r : Rect) :
    (∃ c ∈ t.copies, c.texture = "wall" ∧ c.dstRect = r) ↔ r ∈ t.Forbidden := by
  rw [ht.walls]
  constructor
  · intro h
    obtain ⟨c, hc, hw, rfl⟩ := h
    obtain ⟨h, j, i, htile, hc⟩ := (mem_copies hr).mp hc
    obtain ⟨rfl, rfl⟩ := wall_copy.mp ⟨hc, hw⟩
    exact ⟨h, j, ht.map ▸ htile, rfl⟩
  · intro h
    obtain ⟨h, j, htile, rfl⟩ := h
    obtain ⟨hc, hw⟩ : (⟨"wall", tileSrc, box h j⟩ : Copy) ∈ tileCopies 1 (box h j) ∧ _ := wall_copy.mpr ⟨rfl, rfl⟩
    exact ⟨_, (mem_copies hr).mpr ⟨h, j, 1, ht.map.symm ▸ htile, hc⟩, hw, rfl⟩

/-! ## The player -/

/-- The sheet of a part has three pictures for each of the four directions. -/
structure Animated (s : Player) : Prop where
  frame : 0 ≤ s.frame ∧ s.frame ≤ 2
  frameCounter : 0 ≤ s.frameCounter ∧ s.frameCounter ≤ 9

variable {config : Config} {locate : Locate} {s t : Player} {keystates : Keystates}

theorem Animated.animate (ha : Animated s) (h : animate s = .ok t) : Animated t := by
  obtain ⟨hf, hc⟩ := ha
  obtain ⟨c, hc', h⟩ := bind_eq_ok.mp h
  obtain ⟨-, rfl⟩ := int32_eq_ok.mp hc'
  split at h
  · obtain ⟨f, hf', h⟩ := bind_eq_ok.mp h
    obtain ⟨-, rfl⟩ := int32_eq_ok.mp hf'
    cases h
    refine ⟨?_, by simp⟩
    have hmod : (s.frame + 1).tmod 3 = (s.frame + 1) % 3 := Int.tmod_eq_emod_of_nonneg (by omega)
    show 0 ≤ (s.frame + 1).tmod 3 ∧ (s.frame + 1).tmod 3 ≤ 2
    omega
  · cases h
    exact ⟨hf, by dsimp only; omega⟩

theorem Animated.step (ha : Animated s) (h : handleEvent s keystates = .ok t) : Animated t := by
  obtain ⟨moved, hmove, h⟩ := bind_eq_ok.mp h
  cases moved with
  | none =>
    cases h
    exact ⟨by simp, ha.frameCounter⟩
  | some s₁ =>
    obtain ⟨dx, dy, d, -, rfl⟩ := move_eq_ok hmove
    obtain ⟨blocked, -, h⟩ := bind_eq_ok.mp h
    obtain ⟨s₂, hanimate, h⟩ := bind_eq_ok.mp h
    have ha₂ : Animated s₂ := by
      refine Animated.animate ?_ hanimate
      cases blocked with
      | true => exact ⟨ha.frame, ha.frameCounter⟩
      | false => exact ⟨ha.frame, ha.frameCounter⟩
    split at h
    · cases h
    · obtain ⟨hit, -, h⟩ := bind_eq_ok.mp h
      split at h
      · obtain ⟨x, -, h⟩ := bind_eq_ok.mp h
        obtain ⟨y, -, h⟩ := bind_eq_ok.mp h
        obtain ⟨mg, -, h⟩ := bind_eq_ok.mp h
        cases h
        exact ⟨ha₂.frame, ha₂.frameCounter⟩
      · cases h
        exact ha₂

theorem animated_of_run {s₀ : Player} {tr : List Keystates} (h₀ : newGame config locate = .ok s₀)
    (hr : (lts config locate).Run s₀ tr s) : Animated s := by
  refine hr.invariant (fun s keystates t ha h => ha.step h) ?_
  obtain ⟨mg, -, h⟩ := bind_eq_ok.mp h₀
  obtain ⟨x, -, h⟩ := bind_eq_ok.mp h
  obtain ⟨y, -, h⟩ := bind_eq_ok.mp h
  cases h
  exact ⟨by simp, by simp⟩

/-- The source rectangle is one of the twelve pictures of the sheet. -/
def InSheet (r : Rect) : Prop := (r.x = 0 ∨ r.x = 32 ∨ r.x = 64) ∧ (r.y = 0 ∨ r.y = 32 ∨ r.y = 64 ∨ r.y = 96) ∧ r.w = 32 ∧ r.h = 32

theorem Animated.update (ha : Animated s) : ∃ src, s.update = .ok (src, s.hitbox) ∧ InSheet src := by
  obtain ⟨hf, -⟩ := ha
  have hd : 0 ≤ s.direction.toInt ∧ s.direction.toInt ≤ 3 := by cases s.direction <;> decide
  refine ⟨⟨s.frame * Size, s.direction.toInt * Size, Size, Size⟩, ?_, ?_⟩
  · rw [Player.update, int32_of_range (n := s.frame * Size) (by simp only [Size]; omega),
      int32_of_range (n := s.direction.toInt * Size) (by simp only [Size]; omega)]
    rfl
  · refine ⟨?_, ?_, rfl, rfl⟩
    · simp only [Size]
      omega
    · simp only [Size]
      omega

/-! ## The game -/

/-- **What a frame shows.** Whatever keys were pressed and however often the map has been drawn before, a frame
of the game shows the walls where the forbidden hitboxes of the map are and no others, the player clear of all
of them with a picture from its sheet; only a coordinate out of the range of `int` can stop it. -/
theorem frame_clear (hp : Playable config locate) (tr : List Keystates) (s₀ s : Player)
    (h₀ : newGame config locate = .ok s₀) (hr : (lts config locate).Run s₀ tr s) (roleElement : List String)
    (k : Nat) (before : List (List Copy) × Int) (hk : renders s.mg.currentMap k 0 = .ok before) :
    OnlyOverflow (s.picture roleElement before.2) ∧ ∀ p, s.picture roleElement before.2 = .ok p →
      (∀ r, (∃ c ∈ p.tiles, c.texture = "wall" ∧ c.dstRect = r) ↔ r ∈ s.mg.currentMap.Forbidden) ∧
      p.role.map Copy.texture = roleElement ∧
      ∀ c ∈ p.role, InSheet c.srcRect ∧ ∀ w ∈ p.tiles, w.texture = "wall" → ¬ Overlap c.dstRect w.dstRect := by
  have hs := inv_of_run hp h₀ hr
  obtain ⟨name, hon⟩ := hs.on
  have hrect : Rectangular s.mg.currentMap.map := by
    rw [hon.current.map]
    exact hp.rectangular name hon.mem
  obtain ⟨src, hupdate, hsheet⟩ := (animated_of_run h₀ hr).update
  -- however often the map was drawn, `frame_` has come round to a value that it may have
  have hcycle := ((renders_eq ⟨by decide, by decide⟩).2 before hk).2.1
  obtain ⟨honly, hdrawn⟩ : ((∀ row ∈ s.mg.currentMap.map, width s.mg.currentMap.map ≤ row.length) →
      OnlyOverflow (renderRows (width s.mg.currentMap.map) 0 s.mg.currentMap.map before.2)) ∧ _ := renderRows_eq hcycle
  constructor
  · unfold Player.picture
    rw [hupdate, ok_bind]
    refine OnlyOverflow.bind (honly fun row hrow => le_of_eq (hrect row hrow).symm) ?_
    intro tiles _
    exact onlyOverflow_ok _
  · intro p hpic
    unfold Player.picture at hpic
    rw [hupdate, ok_bind] at hpic
    obtain ⟨tiles, htiles, hpic⟩ := bind_eq_ok.mp hpic
    cases hpic
    have hcopies : tiles.1 = s.mg.currentMap.copies := (hdrawn tiles htiles).2.1
    have hwalls : ∀ r, (∃ c ∈ tiles.1, c.texture = "wall" ∧ c.dstRect = r) ↔ r ∈ s.mg.currentMap.Forbidden := by
      rw [hcopies]
      exact drawn_walls hon.current hrect
    refine ⟨hwalls, by simp [Function.comp_def], ?_⟩
    intro c hc
    obtain ⟨part, -, rfl⟩ := List.mem_map.mp hc
    refine ⟨hsheet, ?_⟩
    intro w hw hwall
    exact hs.free _ ((hwalls _).mp ⟨w, hw, hwall, rfl⟩)

theorem frame_clear_portal : ∃ s₀ s p, newGame oneMap ⟨1, 1, 5⟩ = .ok s₀ ∧
    (lts oneMap ⟨1, 1, 5⟩).Run s₀ [fun key => if key = .D then 1 else 0] s ∧
    (∃ before, renders s.mg.currentMap 2 0 = .ok before ∧ s.picture ["Skin", "Hair"] before.2 = .ok p) ∧
    (∃ w ∈ p.tiles, w.texture = "wall" ∧ w.dstRect = ⟨0, 0, 64, 64⟩) ∧
    ∀ c ∈ p.role, ∀ w ∈ p.tiles, w.texture = "wall" → ¬ Overlap c.dstRect w.dstRect := by
  have hgame : ∃ s₀, newGame oneMap ⟨1, 1, 5⟩ = .ok s₀ ∧
      ∃ s, handleEvent s₀ (fun key => if key = .D then 1 else 0) = .ok s ∧
        (∃ before, renders s.mg.currentMap 2 0 = .ok before ∧ ∃ p, s.picture ["Skin", "Hair"] before.2 = .ok p) ∧
        ⟨0, 0, 64, 64⟩ ∈ s.mg.currentMap.Forbidden :=
    ⟨_, rfl, _, rfl, ⟨_, rfl, _, rfl⟩, by decide⟩
  obtain ⟨s₀, h₀, s, hs, ⟨before, hbefore, p, hpic⟩, hwall⟩ := hgame
  have hrun : (lts oneMap ⟨1, 1, 5⟩).Run s₀ [fun key => if key = .D then 1 else 0] s := .single hs
  obtain ⟨-, hframe⟩ := frame_clear playable_oneMap _ s₀ s h₀ hrun ["Skin", "Hair"] 2 before hbefore
  obtain ⟨hwalls, -, hclear⟩ := hframe p hpic
  exact ⟨s₀, s, p, h₀, hrun, ⟨before, hbefore, hpic⟩, (hwalls _).mpr hwall, fun c hc => (hclear c hc).2⟩

end MyLearning.SDLRe
