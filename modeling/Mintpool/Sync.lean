import Mintpool.Lib.SortedList

/-!
# The tree that two nodes compare

`TreeSet` keeps values at the end of paths in a tree whose nodes carry hashes, so that two
peers can find where their sets differ by comparing hashes from the top. Hashes are cached:
an insertion marks the nodes it passes as dirty, and `update_hash` does nothing on a clean
node.

`Xxh3` is a hash function into 64 bits. What a node feeds it is the low half of each
child's hash and then its own value, without anything in between.
-/

namespace Mintpool

/-- `Xxh3::digest` over everything that the hasher was updated with. -/
class Xxh3 where
  digest : List UInt8 → UInt64

/-- `AsRef<[u8]>` -/
class AsRef (T : Type) where
  asRef : T → List UInt8

inductive Visit where
  /-- Continue visiting -/
  | continue
  /-- Skip visiting children of current node -/
  | skip
  /-- Stop all further visits and return immediately -/
  | stop
  deriving DecidableEq, Repr

structure Node (T : Type) where
  value : T
  level : UInt64 := 0
  hash : UInt64 := 0
  manualHash : Option UInt64 := none
  children : List (Node T) := []
  dirty : Bool := true

structure TreeSet (T : Type) where
  root : Node T

/-- The four bytes that `U64Buffer` keeps of a value. -/
def U64Buffer.update (value : UInt64) : List UInt8 :=
  [((value >>> 24) &&& 0xff).toUInt8, ((value >>> 16) &&& 0xff).toUInt8,
    ((value >>> 8) &&& 0xff).toUInt8, (value &&& 0xff).toUInt8]

namespace Node

variable {T : Type}

/-! ## Visiting

A visitor reads and writes a state, as the closures of the code do through a `RefCell`. -/

section Visit

variable {σ : Type}

mutual

def visit (self : Node T) (path : List T) (fn : σ → List T → Node T → σ × Visit) (state : σ) :
    σ × Visit :=
  match self with
  | ⟨value, level, hash, manualHash, children, dirty⟩ =>
    match fn state path ⟨value, level, hash, manualHash, children, dirty⟩ with
    | (state, .continue) => visitChildren children (path ++ [value]) fn state
    | (state, other) => (state, other)

/-- The loop over the children of one node, at the path of that node. -/
def visitChildren (children : List (Node T)) (path : List T)
    (fn : σ → List T → Node T → σ × Visit) (state : σ) : σ × Visit :=
  match children with
  | [] => (state, .continue)
  | child :: children =>
    match child.visit path fn state with
    | (state, .stop) => (state, .stop)
    | (state, _) => visitChildren children path fn state

end

end Visit

/-! ## Hashing -/

section Hash

variable [Xxh3] [AsRef T]

/-- What `update_hash` feeds to the hasher. -/
def hashInput (self : Node T) : List UInt8 :=
  self.children.flatMap (fun child => U64Buffer.update child.hash) ++ AsRef.asRef self.value

def updateHash (self : Node T) : Node T :=
  match self.manualHash with
  | some hash => { self with hash, dirty := false }
  | none =>
    if !self.dirty then self
    else { self with hash := Xxh3.digest self.hashInput, dirty := false }

mutual

def rehash (self : Node T) : Node T :=
  match self with
  | ⟨value, level, hash, manualHash, children, dirty⟩ =>
    updateHash ⟨value, level, hash, manualHash, rehashAll children, dirty⟩

def rehashAll (children : List (Node T)) : List (Node T) :=
  match children with
  | [] => []
  | child :: children => child.rehash :: rehashAll children

end

end Hash

/-! ## Inserting -/

section Insert

variable [Xxh3] [AsRef T] [LinearOrder T]

/-- The position of the child with a value, which is created if there is none. -/
def getOrCreateChild (self : Node T) (value : T) (update : Bool) : Nat × Node T :=
  match Lib.binarySearchBy (fun child => compare child.value value) self.children with
  | .ok position => (position, self)
  | .error position =>
    let node : Node T := { value, level := self.level + 1 }
    let node := if update then node.updateHash else node
    (position, { self with children := self.children.insertIdx position node })

def insert (self : Node T) (path : List T) (value : T) (hash : Option UInt64) (update : Bool) :
    Node T :=
  let self := { self with dirty := true }
  let self :=
    match path with
    | [] =>
      let (position, self) := self.getOrCreateChild value update
      { self with children := self.children.modify position fun child =>
          let child := { child with value }
          match hash with
          | some hash => { child with hash, manualHash := some hash }
          | none => if update then child.updateHash else child }
    | head :: tail =>
      let (position, self) := self.getOrCreateChild head update
      { self with children := self.children.modify position fun child =>
          child.insert tail value hash update }
  if update then self.updateHash else self

end Insert

end Node

/-! ## Comparing -/

inductive Diff (T : Type) where
  | missingSelf (path : List T)
  | missingOther (path : List T)
  | hashMismatch (path : List T)
  deriving DecidableEq, Repr

namespace Node

variable {T : Type} [LinearOrder T]

mutual

def diff (self : Node T) (path : List T) (other : Node T) : List (Diff T) :=
  match self, other with
  | ⟨_, _, _, _, selfs, _⟩, ⟨_, _, _, _, others, _⟩ => diffLoop path selfs others
termination_by sizeOf self + sizeOf other

/-- The loop over the children of both nodes, at the path of the two nodes. -/
def diffLoop (path : List T) (selfs others : List (Node T)) : List (Diff T) :=
  match selfs, others with
  | self :: selfs, other :: others =>
    match compare self.value other.value with
    | .eq =>
      if self.hash ≠ other.hash then
        let childrenDiff := self.diff (path ++ [self.value]) other
        -- an empty answer means that the tree is cut off further down
        (if childrenDiff.isEmpty then [.hashMismatch (path ++ [self.value])] else childrenDiff)
          ++ diffLoop path selfs others
      else diffLoop path selfs others
    | .lt => .missingOther (path ++ [self.value]) :: diffLoop path selfs (other :: others)
    | .gt => .missingSelf (path ++ [other.value]) :: diffLoop path (self :: selfs) others
  | self :: selfs, [] => .missingOther (path ++ [self.value]) :: diffLoop path selfs []
  | [], other :: others => .missingSelf (path ++ [other.value]) :: diffLoop path [] others
  | [], [] => []
termination_by sizeOf selfs + sizeOf others

end

end Node

/-! ## The set -/

namespace TreeSet

variable {T : Type}

def prefixMatch [DecidableEq T] (pre path : List T) (node : Node T) : Bool :=
  if pre.isEmpty || path.isEmpty then true
  else
    let fullPath := path ++ [node.value]
    let checkPrefixLen := min fullPath.length pre.length
    fullPath.take checkPrefixLen = pre.take checkPrefixLen

def new [Inhabited T] : TreeSet T := ⟨{ value := default }⟩

/-- Visit the tree in pre-order -/
def visit {σ : Type} (self : TreeSet T) (fn : σ → List T → Node T → σ × Visit) (state : σ) : σ :=
  (Node.visitChildren self.root.children [] fn state).1

def leafs [DecidableEq T] (self : TreeSet T) (pre : List T) : List T :=
  self.visit (fun leafs path node =>
    if !prefixMatch pre path node then (leafs, .skip)
    else if node.children.isEmpty then (leafs ++ [node.value], .continue)
    else (leafs, .continue)) []

section Write

variable [Xxh3] [AsRef T]

def rehash (self : TreeSet T) : TreeSet T := ⟨self.root.rehash⟩

variable [LinearOrder T]

def insert (self : TreeSet T) (path : List T) (value : T) : TreeSet T :=
  ⟨self.root.insert path value none false⟩

def insertUpdate (self : TreeSet T) (path : List T) (value : T) : TreeSet T :=
  ⟨self.root.insert path value none true⟩

def insertWithHashUpdate (self : TreeSet T) (path : List T) (value : T) (hash : UInt64) :
    TreeSet T :=
  ⟨self.root.insert path value (some hash) true⟩

def insertWithHash (self : TreeSet T) (path : List T) (value : T) (hash : UInt64) : TreeSet T :=
  ⟨self.root.insert path value (some hash) false⟩

variable [Inhabited T]

/-- The part of the tree around `pre`, to a depth below it, with its hashes as given ones. -/
def extract (self : TreeSet T) (pre : List T) (depth : UInt64) : TreeSet T :=
  let maxLen := UInt64.ofNat pre.length + depth
  self.visit (fun tree path node =>
    if !prefixMatch pre path node || path.length + 1 > maxLen.toNat then (tree, .skip)
    else (tree.insertWithHash path node.value node.hash, .continue)) new

def extractRoot (self : TreeSet T) (depth : UInt64) : TreeSet T := self.extract [] depth

end Write

def diff [LinearOrder T] (self other : TreeSet T) : List (Diff T) := self.root.diff [] other.root

end TreeSet

end Mintpool
