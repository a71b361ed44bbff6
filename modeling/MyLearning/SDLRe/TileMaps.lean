import MyLearning.SDLRe.Player

/-!
# The maps that are loaded

The forbidden hitboxes of a `TileMap` are the walls of its configuration, and it has a
zone where the configuration has a portal. A `MapManager` has loaded the maps in `Maps`.
-/

namespace MyLearning.SDLRe

/-! ## Hitboxes -/

def box (h j : Int) : Hitbox := ⟨64 * h, 64 * j, 64, 64⟩

def Overlap (a b : Hitbox) : Prop :=
  (a.x < b.x + b.w ∧ b.x < a.x + a.w) ∧ a.y < b.y + b.h ∧ b.y < a.y + a.h

theorem overlap_box {a b h j : Int} (ho : Overlap (box a b) (box h j)) : a = h ∧ b = j := by
  simp only [Overlap, box] at ho
  omega

theorem scaled_eq_ok {n m : Int} (h : scaled n = .ok m) : m = 64 * n := by
  obtain ⟨k, hk, h⟩ := bind_eq_ok.mp h
  obtain ⟨-, rfl⟩ := int32_eq_ok.mp hk
  obtain ⟨-, rfl⟩ := int32_eq_ok.mp h
  simp only [Scale, Size]
  omega

theorem tileBox_eq_ok {h j : Int} {b : Hitbox} (hb : tileBox h j = .ok b) : b = box h j := by
  obtain ⟨x, hx, hb⟩ := bind_eq_ok.mp hb
  obtain ⟨y, hy, hb⟩ := bind_eq_ok.mp hb
  cases scaled_eq_ok hx
  cases scaled_eq_ok hy
  cases hb
  rfl

theorem span_eq_ok {a v b w : Int} {r : Bool} (h : (do
    let r ← int32 (b + w)
    if a < r then do
      let r ← int32 (a + v)
      return decide (r > b)
    else return false) = Except.ok r) : r = true ↔ a < b + w ∧ b < a + v := by
  obtain ⟨k, hk, h⟩ := bind_eq_ok.mp h
  obtain ⟨-, rfl⟩ := int32_eq_ok.mp hk
  by_cases hlt : a < b + w
  · rw [if_pos hlt] at h
    obtain ⟨k, hk, h⟩ := bind_eq_ok.mp h
    obtain ⟨-, rfl⟩ := int32_eq_ok.mp hk
    cases h
    simp [hlt]
  · rw [if_neg hlt] at h
    cases h
    simp [hlt]

theorem checkX_eq_ok {a b : Hitbox} {r : Bool} (h : checkX a b = .ok r) :
    r = true ↔ a.x < b.x + b.w ∧ b.x < a.x + a.w :=
  span_eq_ok h

theorem checkY_eq_ok {a b : Hitbox} {r : Bool} (h : checkY a b = .ok r) :
    r = true ↔ a.y < b.y + b.h ∧ b.y < a.y + a.h :=
  span_eq_ok h

theorem checkBoth_eq_ok {a b : Hitbox} {r : Bool} (h : checkBoth a b = .ok r) : r = true ↔ Overlap a b := by
  obtain ⟨x, hx, h⟩ := bind_eq_ok.mp h
  have hx := checkX_eq_ok hx
  cases x with
  | true =>
    have hy := checkY_eq_ok h
    rw [hy, Overlap, ← hx]
    simp
  | false =>
    cases h
    rw [Overlap, ← hx]
    simp

theorem isBlocked_eq_ok {player : Hitbox} : ∀ {blocks : List Hitbox} {r : Bool}, isBlocked player blocks = .ok r →
    (r = true ↔ ∃ b ∈ blocks, Overlap player b)
  | [], r, h => by
    cases h
    simp
  | block :: blocks, r, h => by
    obtain ⟨hit, hhit, h⟩ := bind_eq_ok.mp h
    have hhit := checkBoth_eq_ok hhit
    cases hit with
    | true =>
      cases h
      simp [hhit.mp rfl]
    | false =>
      have hno : ¬ Overlap player block := fun ho => by cases hhit.mpr ho
      rw [isBlocked_eq_ok h]
      simp [hno]

/-! ## Tiles -/

def IsTile (rows : List (List Int)) (h j i : Int) : Prop :=
  ∃ (a b : Nat) (row : List Int), rows[b]? = some row ∧ row[a]? = some i ∧ h = a ∧ j = b

/-- What the constructor has done after the tiles in `seen`. -/
structure Placed (config : MapConfig) (seen : Int → Int → Int → Prop) (t : TileMap) : Prop where
  newX : t.tpPoint.newX = config.x
  newY : t.tpPoint.newY = config.y
  nextMap : t.tpPoint.nextMap = config.nextMap
  walls : ∀ b, b ∈ t.Forbidden ↔ ∃ h j, seen h j 1 ∧ b = box h j
  portal : ∀ h j, seen h j 3 → t.tpPoint.trigerZone ≠ none

variable {config : MapConfig} {seen : Int → Int → Int → Prop} {t t' : TileMap}

theorem Placed.congr {seen' : Int → Int → Int → Prop} (ht : Placed config seen t)
    (h : ∀ h j i, seen' h j i ↔ seen h j i) : Placed config seen' t := by
  refine ⟨ht.newX, ht.newY, ht.nextMap, ?_, ?_⟩
  · simp only [h]
    exact ht.walls
  · simp only [h]
    exact ht.portal

theorem Placed.withMap (ht : Placed config seen t) (rows : List (List Int)) :
    Placed config seen { t with map := rows } :=
  ⟨ht.newX, ht.newY, ht.nextMap, ht.walls, ht.portal⟩

theorem Placed.addTile {j h i : Int} (ht : Placed config seen t) (hadd : addTile j h i t = .ok t') :
    Placed config (fun h' j' i' => seen h' j' i' ∨ h' = h ∧ j' = j ∧ i' = i) t' := by
  unfold SDLRe.addTile at hadd
  split at hadd
  · rename_i hi
    obtain ⟨b, hb, hadd⟩ := bind_eq_ok.mp hadd
    cases tileBox_eq_ok hb
    cases hadd
    subst hi
    refine ⟨ht.newX, ht.newY, ht.nextMap, ?_, ?_⟩
    · intro b
      rw [List.mem_append, List.mem_singleton, ht.walls]
      constructor
      · intro hmem
        rcases hmem with ⟨h', j', hs, hb'⟩ | hb'
        · exact ⟨h', j', .inl hs, hb'⟩
        · exact ⟨h, j, .inr ⟨rfl, rfl, rfl⟩, hb'⟩
      · intro hmem
        obtain ⟨h', j', hs | ⟨rfl, rfl, -⟩, hb'⟩ := hmem
        · exact .inl ⟨h', j', hs, hb'⟩
        · exact .inr hb'
    · intro h' j' hs
      exact ht.portal h' j' (hs.resolve_right (by simp))
  · rename_i hi
    have hwalls : ∀ b, b ∈ t.Forbidden ↔ ∃ h' j', (seen h' j' 1 ∨ h' = h ∧ j' = j ∧ 1 = i) ∧ b = box h' j' := by
      intro b
      rw [ht.walls]
      simp [Ne.symm hi]
    split at hadd
    · obtain ⟨b, -, hadd⟩ := bind_eq_ok.mp hadd
      cases hadd
      exact ⟨ht.newX, ht.newY, ht.nextMap, hwalls, by simp⟩
    · rename_i hi'
      cases hadd
      refine ⟨ht.newX, ht.newY, ht.nextMap, hwalls, ?_⟩
      intro h' j' hs
      exact ht.portal h' j' (hs.resolve_right (by simp [Ne.symm hi']))

theorem Placed.addRow {j : Int} : ∀ {col : List Int} {h : Int} {seen : Int → Int → Int → Prop} {t t' : TileMap},
    Placed config seen t → addRow j h col t = .ok t' →
    Placed config (fun h' j' i' => seen h' j' i' ∨ ∃ a : Nat, col[a]? = some i' ∧ h' = h + a ∧ j' = j) t'
  | [], h, seen, t, t', ht, hadd => by
    cases hadd
    exact ht.congr (by simp)
  | i :: col, h, seen, t, t', ht, hadd => by
    obtain ⟨t₁, h₁, hadd⟩ := bind_eq_ok.mp hadd
    obtain ⟨h', hh, hadd⟩ := bind_eq_ok.mp hadd
    obtain ⟨-, rfl⟩ := int32_eq_ok.mp hh
    refine ((ht.addTile h₁).addRow hadd).congr ?_
    intro h' j' i'
    rw [or_assoc]
    refine or_congr_right ?_
    constructor
    · intro hs
      obtain ⟨a, ha, rfl, rfl⟩ := hs
      cases a with
      | zero => exact .inl ⟨by simp, rfl, by simpa using ha.symm⟩
      | succ a => exact .inr ⟨a, ha, by push_cast; omega, rfl⟩
    · intro hs
      rcases hs with ⟨rfl, rfl, rfl⟩ | ⟨a, ha, rfl, rfl⟩
      · exact ⟨0, rfl, by simp, rfl⟩
      · exact ⟨a + 1, ha, by push_cast; omega, rfl⟩

theorem addTile_map {j h i : Int} (hadd : addTile j h i t = .ok t') : t'.map = t.map := by
  unfold addTile at hadd
  split at hadd
  · obtain ⟨b, -, hadd⟩ := bind_eq_ok.mp hadd
    cases hadd
    rfl
  · split at hadd
    · obtain ⟨b, -, hadd⟩ := bind_eq_ok.mp hadd
      cases hadd
      rfl
    · cases hadd
      rfl

theorem addRow_map {j : Int} : ∀ {col : List Int} {h : Int} {t t' : TileMap}, addRow j h col t = .ok t' →
    t'.map = t.map
  | [], _, _, _, hadd => by
    cases hadd
    rfl
  | i :: col, _, _, _, hadd => by
    obtain ⟨t₁, h₁, hadd⟩ := bind_eq_ok.mp hadd
    obtain ⟨h', -, hadd⟩ := bind_eq_ok.mp hadd
    exact (addRow_map hadd).trans (addTile_map h₁)

theorem Placed.addRows : ∀ {rows : List (List Int)} {j : Int} {seen : Int → Int → Int → Prop} {t t' : TileMap},
    Placed config seen t → addRows j rows t = .ok t' →
    t'.map = t.map ++ rows ∧ Placed config (fun h' j' i' => seen h' j' i' ∨
      ∃ (a b : Nat) (row : List Int), rows[b]? = some row ∧ row[a]? = some i' ∧ h' = a ∧ j' = j + b) t'
  | [], j, seen, t, t', ht, hadd => by
    cases hadd
    exact ⟨by simp, ht.congr (by simp)⟩
  | col :: rows, j, seen, t, t', ht, hadd => by
    obtain ⟨t₁, h₁, hadd⟩ := bind_eq_ok.mp hadd
    obtain ⟨j', hj, hadd⟩ := bind_eq_ok.mp hadd
    obtain ⟨-, rfl⟩ := int32_eq_ok.mp hj
    have ht₁ := ht.addRow h₁
    obtain ⟨hmap, hplaced⟩ := (ht₁.withMap (t₁.map ++ [col])).addRows hadd
    refine ⟨?_, hplaced.congr ?_⟩
    · rw [hmap, addRow_map h₁]
      simp
    · intro h' j' i'
      rw [or_assoc]
      refine or_congr_right ?_
      constructor
      · intro hs
        obtain ⟨a, b, row, hb, ha, rfl, rfl⟩ := hs
        cases b with
        | zero =>
          cases hb
          exact .inl ⟨a, ha, by simp, by simp⟩
        | succ b => exact .inr ⟨a, b, row, hb, ha, rfl, by push_cast; omega⟩
      · intro hs
        rcases hs with ⟨a, ha, rfl, rfl⟩ | ⟨a, b, row, hb, ha, rfl, rfl⟩
        · exact ⟨a, 0, col, rfl, ha, by simp, by simp⟩
        · exact ⟨a, b + 1, row, hb, ha, rfl, by push_cast; omega⟩

structure Loaded (config : MapConfig) (t : TileMap) : Prop extends Placed config (IsTile config.Map) t where
  map : t.map = config.Map

theorem newTileMap_eq_ok {name : String} (h : newTileMap name config = .ok t) : Loaded config t := by
  have hempty : Placed config (fun _ _ _ => False) ⟨name, [], ⟨config.x, config.y, none, config.nextMap⟩, []⟩ :=
    ⟨rfl, rfl, rfl, by simp, by simp⟩
  obtain ⟨hmap, hplaced⟩ := hempty.addRows h
  exact ⟨hplaced.congr (by simp [IsTile]), hmap⟩

/-! ## The map manager -/

/-- The maps in `Maps`, and no others, have been loaded. -/
structure AllLoaded (config : Config) (maps : String → Option TileMap) : Prop where
  loaded : ∀ name t, maps name = some t → name ∈ config.Maps ∧ Loaded (config.map name) t
  all : ∀ name ∈ config.Maps, maps name ≠ none

theorem loadMaps_eq_ok {config : Config} : ∀ {names : List String} {maps maps' : String → Option TileMap},
    loadMaps config names maps = .ok maps' → (∀ name ∈ names, name ∈ config.Maps) →
    (∀ name t, maps name = some t → name ∈ config.Maps ∧ Loaded (config.map name) t) →
    (∀ name t, maps' name = some t → name ∈ config.Maps ∧ Loaded (config.map name) t) ∧
      ∀ name, (maps name ≠ none ∨ name ∈ names) → maps' name ≠ none
  | [], maps, maps', h, _, hmaps => by
    cases h
    exact ⟨hmaps, by simp⟩
  | name :: names, maps, maps', h, hnames, hmaps => by
    obtain ⟨t, ht, h⟩ := bind_eq_ok.mp h
    have ht := newTileMap_eq_ok ht
    rw [List.forall_mem_cons] at hnames
    by_cases hname : maps name = none
    · rw [if_pos hname] at h
      obtain ⟨hloaded, hall⟩ := loadMaps_eq_ok h hnames.2 (by
        intro name' t' ht'
        obtain ⟨rfl, he⟩ | ⟨-, he⟩ := update_some ht'
        · cases he
          exact ⟨hnames.1, ht⟩
        · exact hmaps name' t' he)
      refine ⟨hloaded, ?_⟩
      intro name' hname'
      apply hall name'
      by_cases hne : name' = name
      · subst hne
        simp
      · simp only [List.mem_cons, hne, false_or] at hname'
        rw [Function.update_of_ne hne]
        exact hname'
    · -- `insert` keeps the map that is there
      rw [if_neg hname] at h
      obtain ⟨hloaded, hall⟩ := loadMaps_eq_ok h hnames.2 hmaps
      refine ⟨hloaded, ?_⟩
      intro name' hname'
      apply hall name'
      by_cases hne : name' = name
      · subst hne
        exact .inl hname
      · simpa [hne] using hname'

theorem allLoaded_of_loadMaps {config : Config} {maps : String → Option TileMap}
    (h : loadMaps config config.Maps (fun _ => none) = .ok maps) : AllLoaded config maps := by
  obtain ⟨hloaded, hall⟩ := loadMaps_eq_ok h (fun _ hname => hname) (by simp)
  exact ⟨hloaded, fun name hname => hall name (.inr hname)⟩

structure On (config : Config) (name : String) (mg : MapManager) : Prop where
  maps : AllLoaded config mg.maps
  mem : name ∈ config.Maps
  current : Loaded (config.map name) mg.currentMap
  tp : mg.tp = mg.currentMap.tpPoint

theorem enter_eq_ok {config : Config} {maps : String → Option TileMap} {name : String} {mg : MapManager}
    (hmaps : AllLoaded config maps) (h : enter maps name = .ok mg) : On config name mg := by
  unfold enter at h
  split at h
  · cases h
  · rename_i t ht
    cases h
    obtain ⟨hmem, hloaded⟩ := hmaps.loaded name t ht
    exact ⟨hmaps, hmem, hloaded, rfl⟩

theorem newMapManager_eq_ok {config : Config} {mg : MapManager} (h : newMapManager config = .ok mg) :
    On config "Map1" mg := by
  obtain ⟨maps, hmaps, h⟩ := bind_eq_ok.mp h
  exact enter_eq_ok (allLoaded_of_loadMaps hmaps) h

theorem On.Tp {config : Config} {name : String} {mg mg' : MapManager} (hmg : On config name mg) (h : Tp mg = .ok mg') :
    On config (config.map name).nextMap mg' := by
  have hnext : mg.tp.nextMap = (config.map name).nextMap := by rw [hmg.tp, hmg.current.nextMap]
  rw [← hnext]
  exact enter_eq_ok hmg.maps h

end MyLearning.SDLRe
