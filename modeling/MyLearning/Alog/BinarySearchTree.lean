import MyLearning.Lib.Checked
import MyLearning.Lib.Lts

/-!
# The binary search tree

Nodes on the heap with pointers to both children and to the parent. The functions are
those of the source; a null pointer is `none`. `insert` gets the address of its new
node from the allocator. A loop is given the number of turns it may take: `.error none`
says that these were not enough, `.error (some f)` that the code failed.
-/

namespace MyLearning

structure TreeNode where
  left : Option Addr
  right : Option Addr
  parent : Option Addr
  data : Int
  deriving DecidableEq

namespace BinarySearchTree

def newTreeNode (data : Int) : TreeNode := ⟨none, none, none, data⟩

structure State where
  root : Option Addr
  heap : Heap TreeNode

/-! ## Access through pointers -/

def load (h : Heap TreeNode) : Option Addr → Except (Option Fault) TreeNode
  | none => .error (some .dangling)
  | some p => (h.deref p).mapError some

def store (h : Heap TreeNode) (p : Option Addr) (f : TreeNode → TreeNode) :
    Except (Option Fault) (Heap TreeNode) := do
  let node ← load h p
  match p with
  | none => .error (some .dangling)
  | some a => .ok (h.write a (f node))

def delete (h : Heap TreeNode) (p : Addr) : Except (Option Fault) (Heap TreeNode) := (h.free p).mapError some

/-! ## The functions of the source -/

/-- The loop of `insert`: the parent of the new node. -/
def insertLoop (h : Heap TreeNode) (key : Int) : Nat → Option Addr → Option Addr → Except (Option Fault) (Option Addr)
  | 0, _, _ => .error none
  | _ + 1, p, none => .ok p
  | n + 1, _, some now => do
    let node ← load h (some now)
    if key < node.data then insertLoop h key n (some now) node.left
    else insertLoop h key n (some now) node.right

/-- The end of `insert`: a pointer of `p` comes to point to the new node. -/
def link (s : State) (p : Option Addr) (newNode : Addr) (key : Int) : Except (Option Fault) State :=
  match p with
  | none => return { s with root := some newNode }
  | some _ => do
    let node ← load s.heap p
    if node.data > key then do
      let h ← store s.heap p fun node => { node with left := some newNode }
      return { s with heap := h }
    else do
      let h ← store s.heap p fun node => { node with right := some newNode }
      return { s with heap := h }

def insert (n : Nat) (s : State) (newNode : Addr) (key : Int) : Except (Option Fault) State := do
  let h := s.heap.write newNode (newTreeNode key)
  let p ← insertLoop h key n none s.root
  let h ← store h (some newNode) fun node => { node with parent := p }
  link { s with heap := h } p newNode key

def search (h : Heap TreeNode) (key : Int) : Nat → Option Addr → Except (Option Fault) (Option Addr)
  | 0, _ => .error none
  | _ + 1, none => .ok none
  | n + 1, some now => do
    let node ← load h (some now)
    if node.data = key then return some now
    else if node.data < key then search h key n node.right
    else search h key n node.left

/-- The keys in the order in which they are printed. -/
def inorderPrint (h : Heap TreeNode) : Nat → Option Addr → Except (Option Fault) (List Int)
  | 0, _ => .error none
  | _ + 1, none => .ok []
  | n + 1, some p => do
    let node ← load h (some p)
    let l ← inorderPrint h n node.left
    let r ← inorderPrint h n node.right
    return l ++ node.data :: r

def minimun (h : Heap TreeNode) : Nat → Addr → Except (Option Fault) Addr
  | 0, _ => .error none
  | n + 1, p => do
    let node ← load h (some p)
    match node.left with
    | none => .ok p
    | some l => minimun h n l

/-- The first statement of `transplant`: the pointer to `source` becomes `target`. -/
def repoint (s : State) (source : Addr) (target : Option Addr) : Except (Option Fault) State := do
  let node ← load s.heap (some source)
  match node.parent with
  | none => return { s with root := target }
  | some p => do
    let par ← load s.heap (some p)
    if par.left = some source then do
      let h ← store s.heap (some p) fun par => { par with left := target }
      return { s with heap := h }
    else do
      let h ← store s.heap (some p) fun par => { par with right := target }
      return { s with heap := h }

def transplant (s : State) (source : Addr) (target : Option Addr) : Except (Option Fault) State := do
  let s ← repoint s source target
  match target with
  | none => return s
  | some _ => do
    let node ← load s.heap (some source)
    let h ← store s.heap target fun t => { t with parent := node.parent }
    return { s with heap := h }

/-- `replace->right = target->right` and the parent of what hangs there. -/
def adoptRight (s : State) (replace target : Addr) : Except (Option Fault) State := do
  let node ← load s.heap (some target)
  let h ← store s.heap (some replace) fun r => { r with right := node.right }
  let r ← load h (some replace)
  let h ← store h r.right fun x => { x with parent := some replace }
  return { s with heap := h }

/-- `replace->left = target->left` and the parent of what hangs there. -/
def adoptLeft (s : State) (replace target : Addr) : Except (Option Fault) State := do
  let node ← load s.heap (some target)
  let h ← store s.heap (some replace) fun r => { r with left := node.left }
  let r ← load h (some replace)
  let h ← store h r.left fun x => { x with parent := some replace }
  return { s with heap := h }

/-- The branch of `remove` for a target with two children. -/
def replaceBySuccessor (n : Nat) (s : State) (target right : Addr) : Except (Option Fault) State := do
  let replace ← minimun s.heap n right
  let r ← load s.heap (some replace)
  let s ← (if r.parent ≠ some target then do
      let s ← transplant s replace r.right
      adoptRight s replace target
    else .ok s : Except (Option Fault) State)
  let s ← transplant s target (some replace)
  adoptLeft s replace target

/-- The branches of `remove`: something else takes the place of the target. -/
def unlink (n : Nat) (s : State) (target : Addr) : Except (Option Fault) State := do
  let node ← load s.heap (some target)
  match node.left, node.right with
  | none, _ => transplant s target node.right
  | some _, none => transplant s target node.left
  | some _, some right => replaceBySuccessor n s target right

def remove (n : Nat) (s : State) (key : Int) : Except (Option Fault) State := do
  let target ← search s.heap key n s.root
  match target with
  | none => return s
  | some target => do
    let s ← unlink n s target
    let h ← delete s.heap target
    return { s with heap := h }

/-! ## The system -/

inductive Act where
  | insert (newNode : Addr) (key : Int)
  | remove (key : Int)
  deriving DecidableEq, Repr

def run (n : Nat) (s : State) : Act → Except (Option Fault) State
  | .insert newNode key => insert n s newNode key
  | .remove key => remove n s key

/-- With enough turns the call returns, and `t` is the state then. -/
def Returns (s : State) (a : Act) (t : State) : Prop := ∃ n₀, ∀ n ≥ n₀, run n s a = .ok t

/-- The allocator hands out an address that is not in use. -/
def Act.allowed (s : State) : Act → Prop
  | .insert newNode _ => s.heap newNode = none
  | .remove _ => True

def initial : State := ⟨none, fun _ => none⟩

def lts : Lts State Act where
  init s := s = initial
  step s a t := a.allowed s ∧ Returns s a t

end BinarySearchTree

end MyLearning
