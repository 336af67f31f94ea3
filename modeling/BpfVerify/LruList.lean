import BpfVerify.ListRing
import BpfVerify.Word

/-!
# The BPF LRU list

`shims/kernel/bpf/bpf_lru_list.c`: nodes move between three global and two local lists that
hang in one memory of `list_head`s. Functions return `none` where the code would follow a NULL
link or treat a list head as a node, and loops take fuel. Locks are no-ops in the shim.
-/
namespace BpfVerify.LruList
open ListRing Word

/-- `enum bpf_lru_list_type`. -/
inductive ListType
  | active
  | inactive
  | free
  | localFree
  | localPending
  deriving DecidableEq, Repr

def ListType.toNat : ListType → ℕ
  | active => 0
  | inactive => 1
  | free => 2
  | localFree => 3
  | localPending => 4

/-- The `list_head`s: the five list heads, the node members and the list heads of callers. -/
inductive Addr
  | head (t : ListType)
  | node (i : ℕ)
  | external (k : ℕ)
  deriving DecidableEq, Repr

/-- `list_entry`: only a member of a node has an enclosing node. -/
def listEntry : Addr → Option ℕ
  | .node i => some i
  | _ => none

/-! ## List primitives of `bpf_shim_common.h` -/

abbrev Mem := Links Addr

def initListHead (m : Mem) (list : Addr) : Mem :=
  (m.setNext list (some list)).setPrev list (some list)

def listEmpty (m : Mem) (head : Addr) : Bool := m.next head = some head

/-- `__list_add`. -/
def listAddBetween (m : Mem) (new prev next : Addr) : Mem :=
  let m := m.setPrev next (some new)
  let m := m.setNext new (some next)
  let m := m.setPrev new (some prev)
  m.setNext prev (some new)

def listAdd (m : Mem) (new head : Addr) : Option Mem := do
  let next ← m.next head
  return listAddBetween m new head next

/-- `__list_del`. -/
def listDelBetween (m : Mem) (prev next : Addr) : Mem :=
  (m.setPrev next (some prev)).setNext prev (some next)

def listDel (m : Mem) (entry : Addr) : Option Mem := do
  let prev ← m.prev entry
  let next ← m.next entry
  let m := listDelBetween m prev next
  return (m.setNext entry none).setPrev entry none

def listMove (m : Mem) (list head : Addr) : Option Mem := do
  let prev ← m.prev list
  let next ← m.next list
  listAdd (listDelBetween m prev next) list head

/-! ## State -/

/-- The nodes with the `u32` that `hash_offset` addresses behind each of them, the counters of
the global lists and the rotation cursor. -/
structure State where
  links : Mem
  type : ℕ → ListType
  ref : ℕ → Bool
  cpu : ℕ → ℕ
  hash : ℕ → ℕ
  counts : ListType → ℕ
  nextInactiveRotation : Option Addr
  targetFree : ℕ
  percpu : Bool

/-- `NR_BPF_LRU_LIST_COUNT`. -/
def nrListCount : ℕ := 2

/-- `NR_BPF_LRU_LIST_T`, also `BPF_LOCAL_LIST_T_OFFSET`. -/
def nrListT : ℕ := 3

def isLocalListType (t : ListType) : Bool := t.toNat ≥ nrListT

/-- `WARN_ON_ONCE` is `(0)` in the shim: the guarded returns are never taken. -/
def warnOnOnce (_ : Bool) : Bool := false

def setType (s : State) (node : ℕ) (t : ListType) : State :=
  { s with type := Function.update s.type node t }

def bpfLruNodeSetRef (s : State) (node : ℕ) : State :=
  if s.ref node then s else { s with ref := Function.update s.ref node true }

def bpfLruNodeClearRef (s : State) (node : ℕ) : State :=
  { s with ref := Function.update s.ref node false }

def bpfLruListCountInc (s : State) (t : ListType) : State :=
  if t.toNat < nrListCount then
    { s with counts := Function.update s.counts t (u32 (s.counts t + 1)) }
  else s

def bpfLruListCountDec (s : State) (t : ListType) : State :=
  if t.toNat < nrListCount then
    { s with counts := Function.update s.counts t (sub32 (s.counts t) 1) }
  else s

/-- The cursor steps back when its own node is about to move. -/
def fixCursor (s : State) (node : ℕ) : State :=
  if s.nextInactiveRotation = some (.node node) then
    { s with nextInactiveRotation := s.links.prev (.node node) }
  else s

def moveLinks (s : State) (node : ℕ) (head : Addr) : Option State := do
  let links ← listMove s.links (.node node) head
  return { s with links := links }

/-! ## Moves -/

/-- `__bpf_lru_node_move_to_free`. -/
def bpfLruNodeMoveToFree (s : State) (node : ℕ) (freeList : Addr) (tgtFreeType : ListType) :
    Option State :=
  if warnOnOnce (isLocalListType (s.type node)) then some s
  else
    let s := fixCursor s node
    let s := bpfLruListCountDec s (s.type node)
    let s := setType s node tgtFreeType
    moveLinks s node freeList

/-- `__bpf_lru_node_move_in`. -/
def bpfLruNodeMoveIn (s : State) (node : ℕ) (tgtType : ListType) : Option State :=
  if warnOnOnce (!isLocalListType (s.type node)) || warnOnOnce (isLocalListType tgtType) then
    some s
  else
    let s := bpfLruListCountInc s tgtType
    let s := setType s node tgtType
    let s := bpfLruNodeClearRef s node
    moveLinks s node (.head tgtType)

/-- `__bpf_lru_node_move`. -/
def bpfLruNodeMove (s : State) (node : ℕ) (tgtType : ListType) : Option State :=
  if warnOnOnce (isLocalListType (s.type node)) || warnOnOnce (isLocalListType tgtType) then
    some s
  else
    let s := if s.type node ≠ tgtType then
        setType (bpfLruListCountInc (bpfLruListCountDec s (s.type node)) tgtType) node tgtType
      else s
    let s := bpfLruNodeClearRef s node
    let s := fixCursor s node
    moveLinks s node (.head tgtType)

/-! ## Rotation -/

/-- The body of `list_for_each_entry_safe_reverse` from `pos` on, with its saved predecessor
`n`; the loop body tells whether it breaks. -/
def forEachSafeReverse {σ : Type} (head : Addr)
    (body : State → Addr → σ → Option (Bool × State × σ)) :
    ℕ → State → Addr → Addr → σ → Option (State × σ)
  | 0, _, _, _, _ => none
  | fuel + 1, s, pos, n, acc =>
      if pos = head then some (s, acc)
      else do
        let (brk, s, acc) ← body s pos acc
        if brk then return (s, acc)
        else
          let n' ← s.links.prev n
          forEachSafeReverse head body fuel s n n' acc

/-- `list_for_each_entry_safe_reverse`. -/
def listForEachEntrySafeReverse {σ : Type} (head : Addr)
    (body : State → Addr → σ → Option (Bool × State × σ)) (fuel : ℕ) (s : State) (acc : σ) :
    Option (State × σ) := do
  let pos ← s.links.prev head
  let n ← s.links.prev pos
  forEachSafeReverse head body fuel s pos n acc

def bpfLruListInactiveLow (s : State) : Bool := s.counts .inactive < s.counts .active

def rotateActiveBody (nrScans : ℕ) (firstNode : Option Addr) (s : State) (pos : Addr) (i : ℕ) :
    Option (Bool × State × ℕ) := do
  let node ← listEntry pos
  let s ← if s.ref node then bpfLruNodeMove s node .active
    else bpfLruNodeMove s node .inactive
  let i := u32 (i + 1)
  return (i = nrScans || some pos = firstNode, s, i)

/-- `__bpf_lru_list_rotate_active`. -/
def bpfLruListRotateActive (nrScans fuel : ℕ) (s : State) : Option State := do
  let firstNode := s.links.next (.head .active)
  let (s, _) ← listForEachEntrySafeReverse (.head .active) (rotateActiveBody nrScans firstNode)
    fuel s 0
  return s

/-- The loop of `__bpf_lru_list_rotate_inactive`, with its `cur`, `next` and `i`. -/
def rotateInactiveLoop (nrScans : ℕ) (last : Addr) :
    ℕ → State → Addr → Addr → ℕ → Option (State × Addr)
  | 0, _, _, _, _ => none
  | fuel + 1, s, cur, next, i =>
      if i < nrScans then
        if cur = .head .inactive then do
          let cur ← s.links.prev cur
          rotateInactiveLoop nrScans last fuel s cur next i
        else do
          let node ← listEntry cur
          let next ← s.links.prev cur
          let s ← if s.ref node then bpfLruNodeMove s node .active else some s
          if cur = last then return (s, next)
          else rotateInactiveLoop nrScans last fuel s next next (u32 (i + 1))
      else some (s, next)

/-- `__bpf_lru_list_rotate_inactive`. -/
def bpfLruListRotateInactive (nrScans fuel : ℕ) (s : State) : Option State :=
  if listEmpty s.links (.head .inactive) then some s
  else do
    let cur ← s.nextInactiveRotation
    let last ← s.links.next cur
    let last ← if last = .head .inactive then s.links.next last else some last
    let (s, next) ← rotateInactiveLoop nrScans last fuel s cur (.head .inactive) 0
    return { s with nextInactiveRotation := some next }

/-- `__bpf_lru_list_rotate`. -/
def bpfLruListRotate (nrScans fuel : ℕ) (s : State) : Option State := do
  let s ← if bpfLruListInactiveLow s then bpfLruListRotateActive nrScans fuel s else some s
  bpfLruListRotateInactive nrScans fuel s

/-! ## Shrinking -/

/-- `__bpf_lru_delete_node`: without a callback the deletion succeeds. -/
def bpfLruDeleteNode (_ : State) (_ : ℕ) : Bool := true

def shrinkInactiveBody (nrScans tgtNshrink : ℕ) (freeList : Addr) (tgtFreeType : ListType)
    (s : State) (pos : Addr) (acc : ℕ × ℕ) : Option (Bool × State × ℕ × ℕ) := do
  let node ← listEntry pos
  if s.ref node then
    let s ← bpfLruNodeMove s node .active
    let i := u32 (acc.2 + 1)
    return (i = nrScans, s, acc.1, i)
  else if bpfLruDeleteNode s node then
    let s ← bpfLruNodeMoveToFree s node freeList tgtFreeType
    let nshrinked := u32 (acc.1 + 1)
    if nshrinked = tgtNshrink then return (true, s, nshrinked, acc.2)
    else
      let i := u32 (acc.2 + 1)
      return (i = nrScans, s, nshrinked, i)
  else
    let i := u32 (acc.2 + 1)
    return (i = nrScans, s, acc.1, i)

/-- `__bpf_lru_list_shrink_inactive`; the pair counts the freed and the scanned nodes. -/
def bpfLruListShrinkInactive (nrScans fuel tgtNshrink : ℕ) (freeList : Addr)
    (tgtFreeType : ListType) (s : State) : Option (ℕ × State) := do
  let (s, acc) ← listForEachEntrySafeReverse (.head .inactive)
    (shrinkInactiveBody nrScans tgtNshrink freeList tgtFreeType) fuel s (0, 0)
  return (acc.1, s)

def forceShrinkBody (freeList : Addr) (tgtFreeType : ListType) (s : State) (pos : Addr)
    (acc : ℕ) : Option (Bool × State × ℕ) := do
  let node ← listEntry pos
  if bpfLruDeleteNode s node then
    let s ← bpfLruNodeMoveToFree s node freeList tgtFreeType
    return (true, s, 1)
  else return (false, s, acc)

/-- `__bpf_lru_list_shrink`. -/
def bpfLruListShrink (nrScans fuel tgtNshrink : ℕ) (freeList : Addr) (tgtFreeType : ListType)
    (s : State) : Option (ℕ × State) := do
  let (nshrinked, s) ← bpfLruListShrinkInactive nrScans fuel tgtNshrink freeList tgtFreeType s
  if nshrinked ≠ 0 then return (nshrinked, s)
  else
    let forceShrinkList : Addr :=
      if !listEmpty s.links (.head .inactive) then .head .inactive else .head .active
    let (s, n) ← listForEachEntrySafeReverse forceShrinkList
      (forceShrinkBody freeList tgtFreeType) fuel s 0
    return (n, s)

/-! ## Free nodes and the local lists -/

def bpfLruListPushFree (s : State) (node : ℕ) : Option State :=
  if warnOnOnce (isLocalListType (s.type node)) then some s
  else bpfLruNodeMove s node .free

def localListFlushBody (s : State) (pos : Addr) (_ : Unit) : Option (Bool × State × Unit) := do
  let node ← listEntry pos
  let s ← if s.ref node then bpfLruNodeMoveIn s node .active
    else bpfLruNodeMoveIn s node .inactive
  return (false, s, ())

/-- `__local_list_flush`. -/
def localListFlush (fuel : ℕ) (s : State) : Option State := do
  let (s, _) ← listForEachEntrySafeReverse (.head .localPending) localListFlushBody fuel s ()
  return s

/-- `list_first_entry_or_null`. -/
def listFirstEntryOrNull (m : Mem) (head : Addr) : Option (Option ℕ) :=
  if listEmpty m head then some none
  else do
    let first ← m.next head
    let node ← listEntry first
    return some node

def bpfLruListPopFreeToLocal (s : State) : Option State := do
  match ← listFirstEntryOrNull s.links (.head .free) with
  | none => return s
  | some node => bpfLruNodeMoveToFree s node (.head .localFree) .localFree

/-- `__local_list_add_pending`; `hash_offset` points outside the node. -/
def localListAddPending (s : State) (cpu node hash : ℕ) : Option State := do
  let s := { s with hash := Function.update s.hash node hash }
  let s := { s with cpu := Function.update s.cpu node cpu }
  let s := setType s node .localPending
  let s := bpfLruNodeClearRef s node
  let links ← listAdd s.links (.node node) (.head .localPending)
  return { s with links := links }

/-- `__local_list_pop_free`. -/
def localListPopFree (s : State) : Option (Option ℕ × State) := do
  match ← listFirstEntryOrNull s.links (.head .localFree) with
  | none => return (none, s)
  | some node =>
    let links ← listDel s.links (.node node)
    return (some node, { s with links := links })

def bpfCommonLruPopFree (s : State) (hash : ℕ) : Option (Option ℕ × State) := do
  let (node, s) ← localListPopFree s
  let (node, s) ← match node with
    | some node => some (some node, s)
    | none => do
      let s ← bpfLruListPopFreeToLocal s
      localListPopFree s
  match node with
  | none => return (none, s)
  | some node =>
    let s ← localListAddPending s 0 node hash
    return (some node, s)

def bpfCommonLruPushFree (s : State) (node : ℕ) : Option State :=
  let nodeType := s.type node
  if warnOnOnce (nodeType = .free) || warnOnOnce (nodeType = .localFree) then some s
  else if nodeType = .localPending then
    let s := setType s node .localFree
    let s := bpfLruNodeClearRef s node
    moveLinks s node (.head .localFree)
  else bpfLruListPushFree s node

def bpfLruPopFree (s : State) (hash : ℕ) : Option (Option ℕ × State) :=
  if s.percpu then some (none, s) else bpfCommonLruPopFree s hash

def bpfLruPushFree (s : State) (node : ℕ) : Option State :=
  if s.percpu then some s else bpfCommonLruPushFree s node

/-- `bpf_lru_list_alloc`: the first free node becomes the first inactive one. -/
def bpfLruListAlloc (s : State) : Option (Option ℕ × State) :=
  if listEmpty s.links (.head .free) then some (none, s)
  else do
    let first ← s.links.next (.head .free)
    let node ← listEntry first
    let s := bpfLruListCountInc s .inactive
    let s := setType s node .inactive
    let s := bpfLruNodeClearRef s node
    let s ← moveLinks s node (.head .inactive)
    return (some node, s)

/-! ## Initialisation -/

def bpfLruListInit (s : State) : State :=
  { s with
    links := [ListType.active, .inactive, .free].foldl (fun m t => initListHead m (.head t)) s.links
    counts := fun _ => 0
    nextInactiveRotation := some (.head .inactive) }

def bpfLruLocallistInit (s : State) : State :=
  { s with
    links := [ListType.localFree, .localPending].foldl (fun m t => initListHead m (.head t))
      s.links }

/-- The loop of `bpf_lru_populate`, from element `i` on. -/
def populateLoop : ℕ → ℕ → State → Option State
  | _, 0, s => some s
  | i, k + 1, s => do
      let s := setType s i .free
      let s := bpfLruNodeClearRef s i
      let links ← listAdd s.links (.node i) (.head .free)
      populateLoop (i + 1) k { s with links := links }

/-- `LOCAL_FREE_TARGET`. -/
def localFreeTarget : ℕ := 128

def bpfLruPopulate (s : State) (nrElems : ℕ) : Option State :=
  if s.percpu then some s
  else do
    let s ← populateLoop 0 nrElems s
    let targetFree := nrElems / 2
    let targetFree := if targetFree < 1 then 1 else targetFree
    let targetFree := if targetFree > localFreeTarget then localFreeTarget else targetFree
    return { s with targetFree := targetFree }

end BpfVerify.LruList
