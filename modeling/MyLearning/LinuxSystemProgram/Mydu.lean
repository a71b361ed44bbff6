import Mathlib.Data.List.Sort
import MyLearning.Lib.Checked
import MyLearning.Lib.Glob

/-!
# The disk usage of a directory

`mydu` adds up the blocks of a directory and, through two `glob` patterns, of what is in
it. A string is the list of its characters. The recursion is given the number of calls
that may be nested: `.error none` says that these were not enough, `.error (some f)` that
the code failed.
-/

namespace MyLearning.Mydu

/-! ## Files -/

abbrev Str := List Char

abbrev Ino := Nat

structure Directory where
  parent : Ino
  entries : List (Str × Ino)
  nodup : (entries.map Prod.fst).Nodup
  proper : ∀ e ∈ entries, e.1 ≠ [] ∧ '/' ∉ e.1 ∧ e.1 ≠ ['.'] ∧ e.1 ≠ ['.', '.']

/-- A symbolic link has the file that it leads to, if there is one. -/
inductive Node where
  | directory (dir : Directory)
  | symlink (target : Option Ino)
  | other

def Node.isDir : Node → Bool
  | .directory _ => true
  | _ => false

structure FileSystem where
  node : Ino → Node
  blocks : Ino → Nat
  root : Ino
  cwd : Ino

namespace FileSystem

variable (fs : FileSystem)

def follow (i : Ino) : Ino :=
  match fs.node i with
  | .symlink (some target) => target
  | _ => i

/-- What `opendir` opens: a link is followed. -/
def enter (i : Ino) : Option Ino := if (fs.node (fs.follow i)).isDir then some (fs.follow i) else none

def ls (i : Ino) : List (Str × Ino) :=
  match fs.node (fs.follow i) with
  | .directory dir => (['.'], fs.follow i) :: (['.', '.'], dir.parent) :: dir.entries
  | _ => []

def components (path : Str) : List Str := path.splitOn '/'

def start (names : List Str) : Ino := if names.head? = some [] then fs.root else fs.cwd

/-- The file that a pathname names; a link at its end is not followed. -/
def lookup (path : Str) : Option Ino :=
  if path = [] then none else Glob.resolve fs.ls fs.enter (components path) (fs.start (components path))

end FileSystem

open FileSystem

/-! ## Calls to the system -/

structure Stat where
  isDir : Bool
  st_blocks : Nat

/-- `lstat`, and `exit(1)` where it fails. -/
def lstat (fs : FileSystem) (path : Str) : Except (Option Fault) Stat :=
  match fs.lookup path with
  | none => .error (some .fatal)
  | some i => .ok ⟨(fs.node i).isDir, fs.blocks i⟩

def strcollLe : Str → Str → Bool
  | [], _ => true
  | _ :: _, [] => false
  | c :: p, d :: q => if c = d then strcollLe p q else decide (c.toNat < d.toNat)

def glob (fs : FileSystem) (pattern : Str) : List Str :=
  ((Glob.expand fs.ls fs.enter (components pattern) (fs.start (components pattern))).map
    fun x => ['/'].intercalate x.1).insertionSort fun p q => strcollLe p q

def strrchr (c : Char) : Str → Option Str
  | [] => none
  | d :: s =>
    match strrchr c s with
    | some pos => some pos
    | none => if d = c then some (d :: s) else none

def pathsize : Nat := 1024

def nextPath (path suffix : Str) : Except (Option Fault) Str :=
  if path.length + suffix.length < pathsize then .ok (path ++ suffix) else .error (some .bounds)

/-! ## The functions of the source -/

def pathSkip (path : Str) : Except (Option Fault) Bool :=
  match strrchr '/' path with
  | none => .error (some .fatal)
  | some pos => .ok (decide (pos.tail = ['.'] ∨ pos.tail = ['.', '.']))

/-- `res`, and the pathnames whose blocks have been added to it. -/
structure Account where
  res : Int
  counted : List Str

def add (s : Account) (path : Str) (st : Stat) : Except (Option Fault) Account := do
  let res ← (int64 (s.res + st.st_blocks)).mapError some
  return ⟨res, s.counted ++ [path]⟩

def visit (f : Str → Account → Except (Option Fault) Account) : List Str → Account → Except (Option Fault) Account
  | [], s => .ok s
  | path :: paths, s => do
    let skip ← pathSkip path
    if skip then visit f paths s
    else do
      let s ← f path s
      visit f paths s

def mydu (fs : FileSystem) : Nat → Str → Account → Except (Option Fault) Account
  | 0, _, _ => .error none
  | n + 1, path, s => do
    let st ← lstat fs path
    if st.isDir then do
      let nextpath ← nextPath path ['/', '*']
      let gl_pathv := glob fs nextpath
      let nextpath ← nextPath path ['/', '.', '*']
      let gl_pathv := gl_pathv ++ glob fs nextpath
      let s ← add s path st
      visit (mydu fs n) gl_pathv s
    else add s path st

end MyLearning.Mydu
