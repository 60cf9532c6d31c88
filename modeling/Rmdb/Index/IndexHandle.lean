import Rmdb.Index.FileHdr
import Rmdb.Index.NodeHandle
import Rmdb.Lib.Act

/-!
# The index handle

- `IxFile`: the header of an index, its node pages and the page number its descriptor allocates next;
- `IxIndexHandle`: an open index with the pins its pages have. The buffer pool is transparent: a node handle is a page
  number, and a page keeps its content. What the pool answers to the next requests for a page is an input
  (`answers`; it grants every request after the last answer). The pins that the running operation holds are counted
  apart (`held`), and the pages whose frame it touches without one are noted (`loose`);
- the operations of `ix_index_handle.cpp` and `ix_scan.cpp`, under their names. Every loop and recursion that follows
  page numbers takes a bound on its rounds, and ends in `outOfFuel` when they are used up.
-/

namespace Rmdb

open Lib

structure IxFile (κ : Type) where
  fileHdr : IxFileHdr
  pages : Int → Option (IxNode κ)
  nextPage : Int

namespace IxFile

variable {κ : Type}

/-- The content of a page. -/
def node (f : IxFile κ) (p : Int) : IxNode κ := (f.pages p).getD IxNode.blank

def setNode (f : IxFile κ) (p : Int) (n : IxNode κ) : IxFile κ := { f with pages := Function.update f.pages p (some n) }

def setHdr (f : IxFile κ) (hdr : IxFileHdr) : IxFile κ := { f with fileHdr := hdr }

/-- `get_max_size`. -/
def maxSize (f : IxFile κ) : Nat := f.fileHdr.btreeOrder + 1

/-- `get_min_size`. -/
def minSize (f : IxFile κ) : Nat := f.maxSize / 2

end IxFile

structure IxIndexHandle (κ : Type) where
  file : IxFile κ
  pins : Int → Nat
  /-- The pins of the running operation. -/
  held : Int → Nat
  /-- The pages that were touched without such a pin. -/
  loose : List Int
  answers : List (Option Fault)

/-- A computation of the handle. -/
abbrev IxM (κ α : Type) := Act Fault (IxIndexHandle κ) α

namespace IxIndexHandle

variable {κ : Type}

/-- An index without pins. -/
def opened (file : IxFile κ) (answers : List (Option Fault)) : IxIndexHandle κ where
  file := file
  pins := fun _ => 0
  held := fun _ => 0
  loose := []
  answers := answers

/-- One more pin on a page. -/
def pin (s : IxIndexHandle κ) (p : Int) : IxIndexHandle κ := { s with
  pins := Function.update s.pins p (s.pins p + 1)
  held := Function.update s.held p (s.held p + 1) }

/-- One pin less. -/
def unpin (s : IxIndexHandle κ) (p : Int) : IxIndexHandle κ := { s with
  pins := Function.update s.pins p (s.pins p - 1)
  held := Function.update s.held p (s.held p - 1) }

/-- The frame behind the handle of a page is read or written. -/
def touched (s : IxIndexHandle κ) (p : Int) : IxIndexHandle κ :=
  if s.held p = 0 then { s with loose := p :: s.loose } else s

@[simp] theorem file_touched (s : IxIndexHandle κ) (p : Int) : (s.touched p).file = s.file := by
  rw [touched, apply_ite file, ite_self]

@[simp] theorem pins_touched (s : IxIndexHandle κ) (p : Int) : (s.touched p).pins = s.pins := by
  rw [touched, apply_ite pins, ite_self]

@[simp] theorem held_touched (s : IxIndexHandle κ) (p : Int) : (s.touched p).held = s.held := by
  rw [touched, apply_ite held, ite_self]

@[simp] theorem answers_touched (s : IxIndexHandle κ) (p : Int) : (s.touched p).answers = s.answers := by
  rw [touched, apply_ite answers, ite_self]

def touch (p : Int) : IxM κ Unit := Act.modify (·.touched p)

/-- The pool's answer to a request for a page. -/
def request : IxM κ Unit := do
  let s ← Act.get
  match s.answers with
  | [] => pure ()
  | none :: rest => Act.modify fun s => { s with answers := rest }
  | some e :: rest => do
    Act.modify fun s => { s with answers := rest }
    Act.throw e

/-- `fetch_node`; a page that does not exist cannot be read. -/
def fetchNode (pageNo : Int) : IxM κ Int := do
  request
  let s ← Act.get
  if (s.file.pages pageNo).isSome then do
    Act.modify (·.pin pageNo)
    return pageNo
  else Act.throw (.thrown (.internal "DiskManager::read_page Error"))

/-- `unpin_page` of the page id that is read from the handle, with its answer. -/
def unpinPage (p : Int) : IxM κ Bool := do
  touch p
  let s ← Act.get
  Act.modify (·.unpin p)
  return decide (0 < s.pins p)

/-- `delete_page` of the page id that is read from the handle: the frame of an unpinned page is given up, its content
written to the file. -/
def deletePage (p : Int) : IxM κ Bool := do
  touch p
  let s ← Act.get
  return decide (s.pins p = 0)

/-- The content of the page behind a handle. -/
def getNode (node : Int) : IxM κ (IxNode κ) := do
  touch node
  let s ← Act.get
  return s.file.node node

def modifyNode (node : Int) (g : IxNode κ → IxNode κ) : IxM κ Unit := do
  touch node
  Act.modify fun s => { s with file := s.file.setNode node (g (s.file.node node)) }

def modifyHdr (g : IxFileHdr → IxFileHdr) : IxM κ Unit :=
  Act.modify fun s => { s with file := s.file.setHdr (g s.file.fileHdr) }

/-- `create_node`. -/
def createNode : IxM κ Int := do
  modifyHdr fun h => { h with numPages := h.numPages + 1 }
  request
  let s ← Act.get
  let p := s.file.nextPage
  Act.modify fun s => { s with file := { s.file.setNode p IxNode.blank with nextPage := p + 1 } }
  Act.modify (·.pin p)
  return p

/-- `release_node_handle`. -/
def releaseNodeHandle : IxM κ Unit := modifyHdr fun h => { h with numPages := h.numPages - 1 }

def updateRootPageNo (root : Int) : IxM κ Unit := modifyHdr fun h => { h with rootPage := root }

/-- `insert_pairs`. -/
def insertPairs (node : Int) (pos : Nat) (ps : List (κ × Rid)) : IxM κ Unit := do
  touch node
  let s ← Act.get
  let n := s.file.node node
  if n.size < pos then pure ()
  else if s.file.maxSize < n.size + ps.length then Act.throw .overrun
  else modifyNode node fun n => { n with pairs := n.pairs.take pos ++ ps ++ n.pairs.drop pos }

/-- `erase_pair`. -/
def erasePair (node : Int) (pos : Nat) : IxM κ Unit :=
  modifyNode node fun n => { n with pairs := n.pairs.eraseIdx pos }

/-- The pair at a position. -/
def pairAt (node : Int) (pos : Nat) : IxM κ (κ × Rid) := do
  let n ← getNode node
  match n.pairs[pos]? with
  | some e => pure e
  | none => Act.throw .overrun

/-- `set_key`. -/
def setKey (node : Int) (pos : Nat) (key : κ) : IxM κ Unit := do
  let e ← pairAt node pos
  modifyNode node fun n => { n with pairs := n.pairs.set pos (key, e.2) }

/-- `find_child`, with its assertion. -/
def findChild (node child : Int) : IxM κ Nat := do
  let n ← getNode node
  match n.findChild child with
  | some rank => pure rank
  | none => Act.throw .assertion

/-- `set_parent_page_no`. -/
def setParentPageNo (node parent : Int) : IxM κ Unit := modifyNode node fun n => { n with parent := parent }

def setPrevLeaf (node p : Int) : IxM κ Unit := modifyNode node fun n => { n with prevLeaf := p }

def setNextLeaf (node p : Int) : IxM κ Unit := modifyNode node fun n => { n with nextLeaf := p }

/-- `maintain_child`. -/
def maintainChild (node : Int) (childIdx : Nat) : IxM κ Unit := do
  let n ← getNode node
  if n.isLeaf then pure ()
  else do
    let e ← pairAt node childIdx
    let child ← fetchNode (IxNode.child e)
    setParentPageNo child node
    let _ ← unpinPage child

/-! ## Search -/

section search
variable [Ord κ]

/-- The loop of `find_leaf_page`, with `find_first` false as in every call. -/
def descend (key : κ) : Nat → Int → IxM κ Int
  | 0, _ => Act.throw .outOfFuel
  | fuel + 1, node => do
    let n ← getNode node
    if n.isLeaf then return node
    else
      match n.internalLookup key with
      | none => Act.throw .overrun
      | some child => do
        let _ ← unpinPage node
        let node ← fetchNode child
        descend key fuel node

/-- `find_leaf_page`. -/
def findLeafPage (fuel : Nat) (key : κ) : IxM κ Int := do
  let s ← Act.get
  let node ← fetchNode s.file.fileHdr.rootPage
  descend key fuel node

/-- `get_value`: the entry that is pushed, if there is one. -/
def getValue (fuel : Nat) (key : κ) : IxM κ (Option Rid) := do
  let leaf ← findLeafPage fuel key
  let n ← getNode leaf
  let _ ← unpinPage leaf
  return n.leafLookup key

/-- The position that both searches return for the slot `pos` of a leaf. -/
def iidAt (leaf : Int) (pos : Nat) : IxM κ Iid := do
  touch leaf
  let s ← Act.get
  let n := s.file.node leaf
  return if n.size ≤ pos ∧ leaf ≠ s.file.fileHdr.lastLeaf then ⟨n.nextLeaf, 0⟩ else ⟨leaf, pos⟩

/-- `lower_bound`. -/
def lowerBound (fuel : Nat) (key : κ) : IxM κ Iid := do
  let leaf ← findLeafPage fuel key
  let n ← getNode leaf
  let iid ← iidAt leaf (n.lowerBound key)
  let _ ← unpinPage leaf
  return iid

/-- `upper_bound`. -/
def upperBound (fuel : Nat) (key : κ) : IxM κ Iid := do
  let leaf ← findLeafPage fuel key
  let n ← getNode leaf
  let pos := n.lowerBound key
  let iid ← iidAt leaf (if n.keyIs pos key then pos + 1 else pos)
  let _ ← unpinPage leaf
  return iid

end search

/-- `leaf_end`. -/
def leafEnd : IxM κ Iid := do
  let s ← Act.get
  let node ← fetchNode s.file.fileHdr.lastLeaf
  let n ← getNode node
  let _ ← unpinPage node
  return ⟨node, n.size⟩

/-- `leaf_begin`. -/
def leafBegin : IxM κ Iid := do
  let s ← Act.get
  return ⟨s.file.fileHdr.firstLeaf, 0⟩

/-- `get_rid`. A slot past the last pair is reported with the page still pinned. -/
def getRid (iid : Iid) : IxM κ Rid := do
  let node ← fetchNode iid.pageNo
  let n ← getNode node
  if (n.size : Int) ≤ iid.slotNo then Act.throw (.thrown .indexEntryNotFound)
  else do
    let e ← if iid.slotNo < 0 then Act.throw .overrun else pairAt node iid.slotNo.toNat
    let _ ← unpinPage node
    return e.2

/-! ## Insertion -/

/-- `split` up to its branch: the right half of the pairs goes to a new node. -/
def splitPairs (node : Int) : IxM κ Int := do
  let newNode ← createNode
  let n ← getNode node
  let pos := n.size / 2
  modifyNode newNode fun m => { m with isLeaf := n.isLeaf, pairs := [], parent := n.parent }
  insertPairs newNode 0 (n.pairs.drop pos)
  modifyNode node fun n => { n with pairs := n.pairs.take pos }
  return newNode

/-- `split`. -/
def split (node : Int) : IxM κ Int := do
  let newNode ← splitPairs node
  let n ← getNode node
  if n.isLeaf then do
    setPrevLeaf newNode node
    setNextLeaf newNode n.nextLeaf
    let oldNext ← fetchNode n.nextLeaf
    setPrevLeaf oldNext newNode
    let _ ← unpinPage oldNext
    setNextLeaf node newNode
    return newNode
  else do
    let m ← getNode newNode
    (List.range m.size).forM (maintainChild newNode)
    return newNode

/-- `insert_into_parent`. -/
def insertIntoParent : Nat → Int → κ → Int → IxM κ Unit
  | 0, _, _, _ => Act.throw .outOfFuel
  | fuel + 1, oldNode, key, newNode => do
    let old ← getNode oldNode
    if old.parent = ixNoPage then do
      let newRoot ← createNode
      modifyNode newRoot fun m => { m with isLeaf := false, pairs := [], parent := ixNoPage }
      let first ← pairAt oldNode 0
      insertPairs newRoot 0 [(first.1, ⟨oldNode, -1⟩)]
      insertPairs newRoot 1 [(key, ⟨newNode, -1⟩)]
      updateRootPageNo newRoot
      setParentPageNo oldNode newRoot
      setParentPageNo newNode newRoot
      let _ ← unpinPage newRoot
    else do
      let parent ← fetchNode old.parent
      let childIdx ← findChild parent oldNode
      insertPairs parent (childIdx + 1) [(key, ⟨newNode, -1⟩)]
      setParentPageNo newNode parent
      touch parent
      let s ← Act.get
      (if s.file.maxSize ≤ (s.file.node parent).size then do
        let newParent ← split parent
        let first ← pairAt newParent 0
        insertIntoParent fuel parent first.1 newParent
        let _ ← unpinPage newParent
      else pure ())
      let _ ← unpinPage parent

/-- The part of `insert_entry` for a leaf that is full. -/
def splitLeaf (fuel : Nat) (leaf : Int) : IxM κ Unit := do
  let newNode ← split leaf
  modifyHdr fun h => if h.lastLeaf = leaf then { h with lastLeaf := newNode } else h
  let first ← pairAt newNode 0
  insertIntoParent fuel leaf first.1 newNode
  let _ ← unpinPage newNode

section insertion
variable [Ord κ]

/-- `IxNodeHandle::insert`: the number of pairs afterwards. -/
def insert (node : Int) (key : κ) (value : Rid) : IxM κ Nat := do
  let n ← getNode node
  let pos := n.lowerBound key
  if n.keyIs pos key then return n.size
  else do
    insertPairs node pos [(key, value)]
    let n ← getNode node
    return n.size

/-- `insert_entry`. -/
def insertEntry (fuel : Nat) (key : κ) (value : Rid) : IxM κ Int := do
  let leaf ← findLeafPage fuel key
  let before ← getNode leaf
  let sizeAfter ← insert leaf key value
  if sizeAfter = before.size then do
    let _ ← unpinPage leaf
    return leaf
  else do
    touch leaf
    let s ← Act.get
    (if s.file.maxSize ≤ (s.file.node leaf).size then splitLeaf fuel leaf else pure ())
    let _ ← unpinPage leaf
    return leaf

end insertion

/-! ## Deletion -/

/-- `unpin_page` inside `assert`. -/
def assertUnpin (p : Int) : IxM κ Unit := do
  let unpinned ← unpinPage p
  if unpinned then pure () else Act.throw .assertion

/-- `maintain_parent`. The loop goes on with the handle of the parent after its pin is given back. -/
def maintainParent [DecidableEq κ] : Nat → Int → IxM κ Unit
  | 0, _ => Act.throw .outOfFuel
  | fuel + 1, curr => do
    let n ← getNode curr
    if n.parent = ixNoPage then pure ()
    else do
      let parent ← fetchNode n.parent
      let rank ← findChild parent curr
      let parentKey ← pairAt parent rank
      let childFirst ← pairAt curr 0
      if parentKey.1 = childFirst.1 then assertUnpin parent
      else do
        setKey parent rank childFirst.1
        assertUnpin parent
        maintainParent fuel parent

/-- `erase_leaf`. -/
def eraseLeaf (leaf : Int) : IxM κ Unit := do
  let n ← getNode leaf
  if n.isLeaf then do
    let prev ← fetchNode n.prevLeaf
    setNextLeaf prev n.nextLeaf
    let _ ← unpinPage prev
    let n ← getNode leaf
    let next ← fetchNode n.nextLeaf
    setPrevLeaf next n.prevLeaf
    let _ ← unpinPage next
  else Act.throw .assertion

/-- `adjust_root`: whether the root page is to be deleted. -/
def adjustRoot (oldRoot : Int) : IxM κ Bool := do
  let n ← getNode oldRoot
  if n.isLeaf = false ∧ n.size = 1 then do
    let e ← pairAt oldRoot 0
    erasePair oldRoot 0
    let newRoot ← fetchNode (IxNode.child e)
    setParentPageNo newRoot ixNoPage
    updateRootPageNo newRoot
    let _ ← unpinPage newRoot
    releaseNodeHandle
    return true
  else return false

/-- `redistribute`. -/
def redistribute (neighbor node parent : Int) (index : Nat) : IxM κ Unit := do
  let n ← getNode node
  let m ← getNode neighbor
  if index = 0 then do
    let moved ← pairAt neighbor 0
    insertPairs node n.size [moved]
    erasePair neighbor 0
    maintainChild node n.size
    let neighborIdx ← findChild parent neighbor
    let first ← pairAt neighbor 0
    setKey parent neighborIdx first.1
  else do
    let moved ← pairAt neighbor (m.size - 1)
    insertPairs node 0 [moved]
    erasePair neighbor (m.size - 1)
    maintainChild node 0
    let first ← pairAt node 0
    setKey parent index first.1

/-- The pairs of `node` moved into `neighbor` and its entry taken out of `parent`: `coalesce` up to its recursive
call. -/
def mergeInto (neighbor node parent : Int) (index : Nat) : IxM κ Unit := do
  let n ← getNode node
  let m ← getNode neighbor
  if index = 0 then do
    insertPairs neighbor 0 n.pairs
    (if m.isLeaf then do
      eraseLeaf node
      modifyHdr fun h => if h.firstLeaf = node then { h with firstLeaf := neighbor } else h
    else (List.range n.size).forM (maintainChild neighbor))
    erasePair parent 0
    let first ← pairAt neighbor 0
    setKey parent 0 first.1
  else do
    insertPairs neighbor m.size n.pairs
    (if m.isLeaf then do
      eraseLeaf node
      modifyHdr fun h => if h.lastLeaf = node then { h with lastLeaf := neighbor } else h
    else (List.range' m.size n.size).forM (maintainChild neighbor))
    erasePair parent index
  releaseNodeHandle

/-- `delete_page` where the flag says so. -/
def deleteIf (shouldDelete : Bool) (p : Int) : IxM κ Unit :=
  if shouldDelete then do
    let _ ← deletePage p
  else pure ()

/-- `coalesce_or_redistribute`, with `coalesce` in its last branch: whether the page of `node` is to be deleted. -/
def coalesceOrRedistribute : Nat → Int → IxM κ Bool
  | 0, _ => Act.throw .outOfFuel
  | fuel + 1, node => do
    let n ← getNode node
    let s ← Act.get
    if n.parent = ixNoPage then adjustRoot node
    else if s.file.minSize ≤ n.size then return false
    else do
      let parent ← fetchNode n.parent
      let index ← findChild parent node
      let sibling ← pairAt parent (if index = 0 then 1 else index - 1)
      let neighbor ← fetchNode (IxNode.child sibling)
      let m ← getNode neighbor
      if s.file.minSize * 2 ≤ n.size + m.size then do
        redistribute neighbor node parent index
        let _ ← unpinPage parent
        let _ ← unpinPage neighbor
        return false
      else do
        mergeInto neighbor node parent index
        let parentShouldDelete ← coalesceOrRedistribute fuel parent
        let _ ← unpinPage parent
        deleteIf parentShouldDelete parent
        let _ ← unpinPage neighbor
        return true

section deletion
variable [Ord κ] [DecidableEq κ]

/-- `IxNodeHandle::remove`: the number of pairs afterwards. -/
def remove (node : Int) (key : κ) : IxM κ Nat := do
  let n ← getNode node
  let pos := n.lowerBound key
  if n.keyIs pos key then do
    erasePair node pos
    let n ← getNode node
    return n.size
  else return n.size

/-- The part of `delete_entry` after the pair is gone. -/
def fixLeaf (fuel : Nat) (leaf : Int) : IxM κ Unit := do
  let n ← getNode leaf
  (if 0 < n.size then maintainParent fuel leaf else pure ())
  let leafShouldDelete ← coalesceOrRedistribute fuel leaf
  let _ ← unpinPage leaf
  deleteIf leafShouldDelete leaf

/-- `delete_entry`. -/
def deleteEntry (fuel : Nat) (key : κ) : IxM κ Bool := do
  let leaf ← findLeafPage fuel key
  let before ← getNode leaf
  let sizeAfter ← remove leaf key
  if sizeAfter = before.size then do
    let _ ← unpinPage leaf
    return false
  else do
    fixLeaf fuel leaf
    return true

end deletion

end IxIndexHandle

end Rmdb
