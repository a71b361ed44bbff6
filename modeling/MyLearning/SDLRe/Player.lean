import MyLearning.Lib.Checked
import MyLearning.Lib.Lts

/-!
# The player on the tile maps

`TileMap` and `MapManager` as they are built from `Map.json`, and the player that the
keyboard moves over them. All coordinates are `int`. What the constructor of `TileMap`
does not set, and what a null `TileMap*` points to, must not be read.
-/

namespace MyLearning.SDLRe

/-! ## Maps -/

structure Hitbox where
  x : Int
  y : Int
  h : Int
  w : Int
  deriving DecidableEq, Repr

structure TeleportPoint where
  newX : Int
  newY : Int
  trigerZone : Option Hitbox
  nextMap : String
  deriving DecidableEq, Repr

def Scale : Int := 2

def Size : Int := 32

structure TileMap where
  name_ : String
  map : List (List Int)
  tpPoint : TeleportPoint
  Forbidden : List Hitbox
  deriving DecidableEq, Repr

/-- A map in `Map.json`: its rows, and `x`, `y` and `nextMap` of its `TeleportPoint`. -/
structure MapConfig where
  Map : List (List Int)
  x : Int
  y : Int
  nextMap : String

def scaled (n : Int) : Except Fault Int := do
  let m ← int32 (n * Scale)
  int32 (m * Size)

/-- `hitbox{h*Scale*Size,j*Scale*Size,Scale*Size,Scale*Size}` -/
def tileBox (h j : Int) : Except Fault Hitbox := do
  let x ← scaled h
  let y ← scaled j
  return ⟨x, y, Scale * Size, Scale * Size⟩

/-- What the constructor does for the number `i` in row `j` and column `h`. -/
def addTile (j h i : Int) (t : TileMap) : Except Fault TileMap :=
  if i = 1 then do
    let box ← tileBox h j
    return { t with Forbidden := t.Forbidden ++ [box] }
  else if i = 3 then do
    let box ← tileBox h j
    return { t with tpPoint := { t.tpPoint with trigerZone := some box } }
  else return t

def addRow (j : Int) : Int → List Int → TileMap → Except Fault TileMap
  | _, [], t => .ok t
  | h, i :: col, t => do
    let t ← addTile j h i t
    let h ← int32 (h + 1)
    addRow j h col t

def addRows : Int → List (List Int) → TileMap → Except Fault TileMap
  | _, [], t => .ok t
  | j, col :: rows, t => do
    let t ← addRow j 0 col t
    let j ← int32 (j + 1)
    addRows j rows { t with map := t.map ++ [col] }

def newTileMap (name : String) (config : MapConfig) : Except Fault TileMap :=
  addRows 0 config.Map ⟨name, [], ⟨config.x, config.y, none, config.nextMap⟩, []⟩

/-- `Map.json`: the names in `Maps`, and the map of each name. -/
structure Config where
  Maps : List String
  map : String → MapConfig

structure MapManager where
  maps : String → Option TileMap
  currentMap : TileMap
  tp : TeleportPoint

/-- The loop over `config["Maps"]`; `insert` keeps a map that is there. -/
def loadMaps (config : Config) : List String → (String → Option TileMap) → Except Fault (String → Option TileMap)
  | [], maps => .ok maps
  | name :: names, maps => do
    let t ← newTileMap name (config.map name)
    loadMaps config names (if maps name = none then Function.update maps name (some t) else maps)

/-- `currentMap_=maps_[name]; tp_=currentMap_->tpPoint();` -/
def enter (maps : String → Option TileMap) (name : String) : Except Fault MapManager :=
  match maps name with
  | none => .error .dangling
  | some t => .ok ⟨maps, t, t.tpPoint⟩

def newMapManager (config : Config) : Except Fault MapManager := do
  let maps ← loadMaps config config.Maps fun _ => none
  enter maps "Map1"

def Tp (mg : MapManager) : Except Fault MapManager := enter mg.maps mg.tp.nextMap

/-! ## The player -/

inductive Direction where
  | down
  | left
  | right
  | up
  deriving DecidableEq, Repr

structure Player where
  x : Int
  y : Int
  mg : MapManager
  trigerZone : Option Hitbox
  frame : Int
  frameCounter : Int
  direction : Direction
  speed : Int

structure Locate where
  x : Int
  y : Int
  speed : Int

def newPlayer (mg : MapManager) (locate : Locate) : Except Fault Player := do
  let x ← scaled locate.x
  let y ← scaled locate.y
  return ⟨x, y, mg, mg.currentMap.tpPoint.trigerZone, 0, 0, .down, locate.speed⟩

def checkX (a b : Hitbox) : Except Fault Bool := do
  let r ← int32 (b.x + b.w)
  if a.x < r then do
    let r ← int32 (a.x + a.w)
    return decide (r > b.x)
  else return false

def checkY (a b : Hitbox) : Except Fault Bool := do
  let r ← int32 (b.y + b.h)
  if a.y < r then do
    let r ← int32 (a.y + a.h)
    return decide (r > b.y)
  else return false

def checkBoth (a b : Hitbox) : Except Fault Bool := do
  let x ← checkX a b
  if x then checkY a b else return false

def isBlocked (player : Hitbox) : List Hitbox → Except Fault Bool
  | [] => .ok false
  | block :: blocks => do
    let hit ← checkBoth player block
    if hit then return true else isBlocked player blocks

inductive Scancode where
  | DOWN
  | S
  | UP
  | W
  | RIGHT
  | D
  | LEFT
  | A
  deriving DecidableEq, Repr

abbrev Keystates := Scancode → UInt8

/-- The chain of `if`s on the keys; `none` is its last `else`. -/
def move (s : Player) (keystates : Keystates) : Except Fault (Option Player) :=
  if keystates .DOWN ≠ 0 ∨ keystates .S ≠ 0 then do
    let y ← int32 (s.y + s.speed)
    return some { s with y := y, direction := .down }
  else if keystates .UP ≠ 0 ∨ keystates .W ≠ 0 then do
    let y ← int32 (s.y - s.speed)
    return some { s with y := y, direction := .up }
  else if keystates .RIGHT ≠ 0 ∨ keystates .D ≠ 0 then do
    let x ← int32 (s.x + s.speed)
    return some { s with x := x, direction := .right }
  else if keystates .LEFT ≠ 0 ∨ keystates .A ≠ 0 then do
    let x ← int32 (s.x - s.speed)
    return some { s with x := x, direction := .left }
  else return none

def animate (s : Player) : Except Fault Player := do
  let frameCounter ← int32 (s.frameCounter + 1)
  if frameCounter ≥ 10 then do
    let frame ← int32 (s.frame + 1)
    return { s with frame := frame.tmod 3, frameCounter := 0 }
  else return { s with frameCounter := frameCounter }

/-- What follows when the hitbox overlaps `trigerZone_`. -/
def teleport (s : Player) : Except Fault Player := do
  let x ← scaled s.mg.tp.newX
  let y ← scaled s.mg.tp.newY
  let mg ← Tp s.mg
  return { s with x := x, y := y, mg := mg, trigerZone := mg.tp.trigerZone }

def handleEvent (s : Player) (keystates : Keystates) : Except Fault Player := do
  let x := s.x
  let y := s.y
  let moved ← move s keystates
  match moved with
  | none => return { s with frame := 1 }
  | some s => do
    let player : Hitbox := ⟨s.x, s.y, Scale * Size, Scale * Size⟩
    let blocked ← isBlocked player s.mg.currentMap.Forbidden
    let s := if blocked then { s with x := x, y := y } else s
    let s ← animate s
    match s.trigerZone with
    | none => .error .dangling
    | some zone => do
      let hit ← checkBoth player zone
      if hit then teleport s else return s

/-! ## The system -/

def newGame (config : Config) (locate : Locate) : Except Fault Player := do
  let mg ← newMapManager config
  newPlayer mg locate

def lts (config : Config) (locate : Locate) : Lts Player Keystates where
  init s := newGame config locate = .ok s
  step s keystates t := handleEvent s keystates = .ok t

end MyLearning.SDLRe
