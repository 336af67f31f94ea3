import BpfVerify.LpmMatch

/-!
# The LPM trie

`shims/kernel/bpf/lpm_trie.c`: nodes live in a static pool of 16 slots and point to each other
by slot. Functions return `none` where the code would read outside its data bytes; the descent
loops take fuel. The RCU and lock calls are no-ops in the shim.
-/
namespace BpfVerify.LpmTrie
open Bits Word

/-- A slot of the node pool (`LPM_POOL_SIZE` is 16); `none` is the NULL pointer. -/
abbrev Slot := Fin 16

abbrev Value := Vector Byte 8

/-- A `lpm_trie_node` without its links; `value` is what `data` holds behind the key bytes. -/
structure Content where
  prefixlen : ℕ
  flags : ℕ
  data : Vector Byte 4
  value : Value

structure Node extends Content where
  child : Bool → Option Slot

/-- `struct bpf_lpm_trie_key_u8` with its four data bytes. -/
structure Key where
  prefixlen : ℕ
  data : Vector Byte 4

/-- The fields of `struct lpm_trie` and its map that the code reads, and the node pool. -/
structure State where
  root : Option Slot
  nEntries : ℕ
  maxEntries : ℕ
  maxPrefixlen : ℕ
  dataSize : ℕ
  pool : Slot → Node
  used : Slot → Bool

/-- What a `struct lpm_trie_node **` points to. -/
inductive Ref
  | root
  | child (p : Slot) (b : Bool)

def deref (s : State) : Ref → Option Slot
  | .root => s.root
  | .child p b => (s.pool p).child b

def modifyNode (s : State) (p : Slot) (f : Node → Node) : State :=
  { s with pool := Function.update s.pool p (f (s.pool p)) }

def setChild (n : Node) (b : Bool) (q : Option Slot) : Node :=
  { n with child := Function.update n.child b q }

/-- `rcu_assign_pointer`. -/
def assignPointer (s : State) (slot : Ref) (q : Option Slot) : State :=
  match slot with
  | .root => { s with root := q }
  | .child p b => modifyNode s p fun n => setChild n b q

/-- `LPM_TREE_NODE_FLAG_IM`. -/
def flagIm : ℕ := 1

def isIm (n : Content) : Bool := n.flags &&& flagIm ≠ 0

def einval : ℤ := 22
def enomem : ℤ := 12
def enoent : ℤ := 2
def eexist : ℤ := 17
def enospc : ℤ := 28

def bpfNoexist : ℕ := 1
def bpfExist : ℕ := 2

/-! ## The node pool -/

def zeroNode : Node :=
  { prefixlen := 0, flags := 0, data := Vector.replicate 4 0, value := Vector.replicate 8 0,
    child := fun _ => none }

/-- `bpf_map_kmalloc_node`: the first free slot, cleared. -/
def bpfMapKmallocNode (s : State) : Option Slot × State :=
  match (List.finRange 16).find? fun i => !s.used i with
  | none => (none, s)
  | some i =>
    (some i, { s with
      used := Function.update s.used i true
      pool := Function.update s.pool i zeroNode })

def kfree (s : State) (p : Option Slot) : State :=
  match p with
  | none => s
  | some i => { s with used := Function.update s.used i false }

def lpmTrieNodeAlloc (s : State) (value : Option Value) : Option Slot × State :=
  match bpfMapKmallocNode s with
  | (none, s) => (none, s)
  | (some p, s) =>
    let s := modifyNode s p fun n => { n with flags := 0 }
    match value with
    | none => (some p, s)
    | some v => (some p, modifyNode s p fun n => { n with value := v })

/-! ## Lookup -/

/-- `longest_prefix_match` of a node and a key. -/
def nodeMatch (s : State) (n : Node) (key : Key) : Option ℕ :=
  longestPrefixMatch s.dataSize n.prefixlen key.prefixlen n.data.toList key.data.toList

/-- The loop of `trie_lookup_elem`, with its `node` and `found`. -/
def lookupLoop (s : State) (key : Key) : ℕ → Option Slot → Option Slot → Option (Option Slot)
  | 0, _, _ => none
  | _ + 1, none, found => some found
  | fuel + 1, some p, found => do
      let node := s.pool p
      let matchlen ← nodeMatch s node key
      if matchlen = s.maxPrefixlen then return some p
      else if matchlen < node.prefixlen then return found
      else
        let found := if isIm node.toContent then found else some p
        let nextBit ← extractBit key.data.toList node.prefixlen
        lookupLoop s key fuel (node.child nextBit) found

/-- `trie_lookup_elem`: `data_size` is the size of the key bytes, so the result points to the
value of the node found. -/
def trieLookupElem (fuel : ℕ) (s : State) (key : Key) : Option (Option Value) :=
  if key.prefixlen > s.maxPrefixlen then some none
  else do
    let found ← lookupLoop s key fuel s.root none
    return found.map fun p => (s.pool p).value

/-! ## Update -/

/-- The descent of `trie_update_elem`: `slot`, `node` and `matchlen` at its end. -/
def updateWalk (s : State) (key : Key) : ℕ → Ref → ℕ → Option (Ref × Option Slot × ℕ)
  | 0, _, _ => none
  | fuel + 1, slot, matchlen =>
      match deref s slot with
      | none => some (slot, none, matchlen)
      | some p => do
          let node := s.pool p
          let matchlen ← nodeMatch s node key
          if node.prefixlen ≠ matchlen ∨ node.prefixlen = key.prefixlen then
            return (slot, some p, matchlen)
          else
            let nextBit ← extractBit key.data.toList node.prefixlen
            updateWalk s key fuel (.child p nextBit) matchlen

def trieCheckAddElem (s : State) (flags : ℕ) : ℤ × State :=
  if flags = bpfExist then (-enoent, s)
  else if s.nEntries = s.maxEntries then (-enospc, s)
  else (0, { s with nEntries := u64 (s.nEntries + 1) })

/-- `ret = trie_check_add_elem(trie, flags); if (ret) goto out;` -/
def checkAdd (s : State) (flags : ℕ) (cont : State → Option (ℤ × Option Slot × State)) :
    Option (ℤ × Option Slot × State) :=
  match trieCheckAddElem s flags with
  | (ret, s) => if ret ≠ 0 then some (ret, none, s) else cont s

/-- The new node takes over the place and the children of `node`. -/
def replaceNode (s : State) (slot : Ref) (new node : Slot) : State :=
  let s := modifyNode s new fun n => { n with child := (s.pool node).child }
  assignPointer s slot (some new)

/-- An intermediate node `im` with `node` and the new one below it. -/
def splitNode (s : State) (key : Key) (slot : Ref) (new node im : Slot) (matchlen : ℕ) :
    Option State := do
  let s := modifyNode s im fun n =>
    { n with prefixlen := matchlen, flags := n.flags ||| flagIm, data := (s.pool node).data }
  let nextBit ← extractBit key.data.toList matchlen
  let s := if nextBit then
      assignPointer (assignPointer s (.child im false) (some node)) (.child im true) (some new)
    else assignPointer (assignPointer s (.child im false) (some new)) (.child im true) (some node)
  return assignPointer s slot (some im)

/-- `trie_update_elem` from the end of its descent to `out`: `ret`, `free_node` and the trie. -/
def updateAt (s : State) (key : Key) (flags : ℕ) (new : Slot) (slot : Ref)
    (node : Option Slot) (matchlen : ℕ) : Option (ℤ × Option Slot × State) :=
  match node with
  | none => checkAdd s flags fun s => some (0, none, assignPointer s slot (some new))
  | some node =>
    if (s.pool node).prefixlen = matchlen then
      if isIm (s.pool node).toContent then
        checkAdd s flags fun s => some (0, some node, replaceNode s slot new node)
      else if flags = bpfNoexist then some (-eexist, none, s)
      else some (0, some node, replaceNode s slot new node)
    else
      checkAdd s flags fun s =>
        if matchlen = key.prefixlen then do
          let nextBit ← extractBit (s.pool node).data.toList matchlen
          let s := assignPointer s (.child new nextBit) (some node)
          return (0, none, assignPointer s slot (some new))
        else
          match lpmTrieNodeAlloc s none with
          | (none, s) => some (-enomem, none, { s with nEntries := sub64 s.nEntries 1 })
          | (some im, s) => do
            let s ← splitNode s key slot new node im matchlen
            return (0, none, s)

/-- The new node as filled in before the descent. -/
def fillNode (s : State) (key : Key) (p : Slot) : State :=
  modifyNode s p fun n =>
    { n with prefixlen := key.prefixlen, child := fun _ => none, data := key.data }

/-- `out`: what the return value leaves to free. -/
def updateOut (s : State) (ret : ℤ) (new : Slot) (freeNode : Option Slot) : State :=
  let s := if ret ≠ 0 then kfree s (some new) else s
  kfree s freeNode

def trieUpdateElem (fuel : ℕ) (s : State) (key : Key) (value : Value) (flags : ℕ) :
    Option (ℤ × State) :=
  if flags > bpfExist then some (-einval, s)
  else if key.prefixlen > s.maxPrefixlen then some (-einval, s)
  else
    match lpmTrieNodeAlloc s (some value) with
    | (none, s) => some (-enomem, s)
    | (some new, s) => do
      let s := fillNode s key new
      let (slot, node, matchlen) ← updateWalk s key fuel .root 0
      let (ret, freeNode, s) ← updateAt s key flags new slot node matchlen
      return (ret, updateOut s ret new freeNode)

/-! ## Delete -/

/-- The local variables of `trie_delete_elem` at the end of its descent. -/
structure DeleteAt where
  trim : Ref
  trim2 : Ref
  parent : Option Slot
  node : Option Slot
  matchlen : ℕ

def deleteWalk (s : State) (key : Key) : ℕ → Ref → Ref → Option Slot → ℕ → Option DeleteAt
  | 0, _, _, _, _ => none
  | fuel + 1, trim, trim2, parent, matchlen =>
      match deref s trim with
      | none => some ⟨trim, trim2, parent, none, matchlen⟩
      | some p => do
          let node := s.pool p
          let matchlen ← nodeMatch s node key
          if node.prefixlen ≠ matchlen ∨ node.prefixlen = key.prefixlen then
            return ⟨trim, trim2, parent, some p, matchlen⟩
          else
            let nextBit ← extractBit key.data.toList node.prefixlen
            deleteWalk s key fuel (.child p nextBit) trim (some p) matchlen

/-- The parent whose slot goes to the other child when the leaf `node` is deleted. -/
def imParent (s : State) (parent : Option Slot) (node : Slot) : Option Slot :=
  match parent with
  | none => none
  | some q =>
    if isIm (s.pool q).toContent ∧ (s.pool node).child false = none ∧
      (s.pool node).child true = none then some q else none

/-- Unlinking of a matching node: `free_parent`, `free_node` and the trie. -/
def deleteNode (s : State) (w : DeleteAt) (node : Slot) : Option Slot × Option Slot × State :=
  if ((s.pool node).child false).isSome ∧ ((s.pool node).child true).isSome then
    (none, none, modifyNode s node fun n => { n with flags := n.flags ||| flagIm })
  else
    match imParent s w.parent node with
    | some q =>
      let other := if (s.pool q).child false = some node then (s.pool q).child true
        else (s.pool q).child false
      (some q, some node, assignPointer s w.trim2 other)
    | none =>
      let only := if ((s.pool node).child false).isSome then (s.pool node).child false
        else (s.pool node).child true
      (none, some node, assignPointer s w.trim only)

def trieDeleteElem (fuel : ℕ) (s : State) (key : Key) : Option (ℤ × State) :=
  if key.prefixlen > s.maxPrefixlen then some (-einval, s)
  else do
    let w ← deleteWalk s key fuel .root .root none 0
    match w.node with
    | none => return (-enoent, s)
    | some node =>
      if (s.pool node).prefixlen ≠ key.prefixlen ∨ (s.pool node).prefixlen ≠ w.matchlen ∨
          isIm (s.pool node).toContent then return (-enoent, s)
      else
        let s := { s with nEntries := sub64 s.nEntries 1 }
        let (freeParent, freeNode, s) := deleteNode s w node
        return (0, kfree (kfree s freeParent) freeNode)

/-! ## Initialisation -/

/-- `lpm_trie_init`: the pool keeps its contents, only the marks are cleared. -/
def lpmTrieInit (mem : State) (maxEntries : ℕ) : State :=
  { root := none, nEntries := 0, maxEntries := maxEntries, maxPrefixlen := 32, dataSize := 4,
    pool := mem.pool, used := fun _ => false }

end BpfVerify.LpmTrie
