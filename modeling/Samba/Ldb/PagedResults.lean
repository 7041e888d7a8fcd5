/-
Paged searches (lib/ldb/modules/paged_results.c): the results of a search are kept in a store, the stores form a doubly linked
list, and a page is asked for by the cookie of the store. The search below is the environment: what each wait on it passes up
is given. Stores are at addresses that are not used twice. An outcome `none` is behaviour that C leaves undefined: a store
that was freed, or an `int` that overflows. Allocations succeed, there are no referrals, and the request of a first page lives
until the search below is done.
-/
import Samba.Lib.CNumber
import Samba.Lib.Links
import Samba.Lib.Transition

namespace Samba.Ldb

open CString Transition

abbrev Addr := Nat

def intMax : Nat := 2 ^ 31 - 1

def ldbSuccess : Int := 0
def ldbErrUnwillingToPerform : Int := 53

section Types

variable (Entry Control : Type)

/-- What the search below passes to `paged_search_callback`. -/
inductive LowerReply
  | entry (e : Entry)
  | done (controls : List Control)
  deriving DecidableEq, Repr

/-- What one call into the search below does: the replies it passes up, and what it returns. -/
structure LowerCall where
  replies : List (LowerReply Entry Control)
  ret : Int
  deriving DecidableEq, Repr

/-- `struct results_store`. The chain of messages is a list; `lower` stands for `req`: what the calls still to come do, none
when `req->handle->state` is `LDB_ASYNC_DONE`. -/
structure ResultsStore where
  cookie : Text
  prev : Option Addr
  next : Option Addr
  first : List Entry
  numEntries : Nat
  controls : List Control
  lower : List (LowerCall Entry Control)
  deriving DecidableEq, Repr

/-- `struct private_data`, with the stores that were not freed. -/
structure PrivateData where
  nextFreeId : Nat
  store : Option Addr
  heap : Addr → Option (ResultsStore Entry Control)
  brk : Addr

/-- The control of a reply that ends a page. -/
structure PagedControl where
  size : Nat
  cookie : Option Text
  deriving DecidableEq, Repr

/-- What is passed to `up_callback`. -/
inductive Reply
  | entry (e : Entry)
  | done (controls : List Control) (paged : PagedControl)
  deriving DecidableEq, Repr

/-- A search with the paged control: `cookie` is `none` for `cookie_len == 0`. For a first page `start` is what
`ldb_next_request` does and `lower` what the waits on its handle do. -/
structure PagedRequest where
  cookie : Option Text
  size : Int
  start : LowerCall Entry Control
  lower : List (LowerCall Entry Control)
  deriving DecidableEq, Repr

end Types

/-- `struct ldb_handle` with its `struct paged_context`. -/
structure PagedHandle where
  size : Int
  store : Addr
  done : Bool
  status : Int
  deriving DecidableEq, Repr

inductive WaitType
  | none
  | all
  deriving DecidableEq, Repr

variable {Entry Control : Type}

/-! ## The list of the stores -/

namespace PrivateData

variable (priv : PrivateData Entry Control)

/-- `*p = s`. -/
def set (a : Addr) (s : Option (ResultsStore Entry Control)) : PrivateData Entry Control :=
  { priv with heap := fun b => if b = a then s else priv.heap b }

@[simp] theorem set_heap_same (a : Addr) (s : Option (ResultsStore Entry Control)) : (priv.set a s).heap a = s := if_pos rfl
@[simp] theorem set_heap_of_ne {a b : Addr} (h : b ≠ a) (s : Option (ResultsStore Entry Control)) :
    (priv.set a s).heap b = priv.heap b := if_neg h
/-- An assignment to a field of the store that a pointer points to, if it is not `NULL`. -/
def assign (p : Option Addr) (f : ResultsStore Entry Control → ResultsStore Entry Control) :
    Option (PrivateData Entry Control) :=
  match p with
  | none => some priv
  | some a => (priv.heap a).map fun s => priv.set a (some (f s))

end PrivateData

/-- `store_destructor`. -/
def storeDestructor (priv : PrivateData Entry Control) (a : Addr) : Option (PrivateData Entry Control) := do
  let store ← priv.heap a
  let priv ← priv.assign store.prev fun s => { s with next := store.next }
  let priv ← priv.assign store.next fun s => { s with prev := store.prev }
  return if priv.store = some a then { priv with store := none } else priv

/-- `talloc_free` of a store. -/
def freeStore (priv : PrivateData Entry Control) (a : Addr) : Option (PrivateData Entry Control) :=
  (storeDestructor priv a).map fun priv => priv.set a none

/-- `new_store`. -/
def newStore (priv : PrivateData Entry Control) : Option (PrivateData Entry Control × Addr) := do
  if priv.nextFreeId < intMax then
    let a := priv.brk
    let newr : ResultsStore Entry Control := ⟨printInt priv.nextFreeId, none, priv.store, [], 0, [], []⟩
    -- put this entry as first
    let priv' ← priv.assign priv.store fun s => { s with prev := some a }
    return ({ priv'.set a (some newr) with nextFreeId := priv.nextFreeId + 1, store := some a, brk := a + 1 }, a)
  else none

/-- The loop of `paged_search` over the stores. -/
def findStore (heap : Addr → Option (ResultsStore Entry Control)) (cookie : Text) : Nat → Option Addr → Option (Option Addr)
  | _, none => some none
  | 0, some _ => none
  | fuel + 1, some a => do
    let current ← heap a
    if current.cookie = cookie then return some a else findStore heap cookie fuel current.next

/-! ## Searches -/

/-- `paged_search_callback`. -/
def pagedSearchCallback (store : ResultsStore Entry Control) : LowerReply Entry Control → Option (ResultsStore Entry Control)
  | .entry e =>
    if store.numEntries < intMax then some { store with first := store.first ++ [e], numEntries := store.numEntries + 1 }
    else none
  | .done controls => some { store with controls }

/-- A call into the search below. -/
def lowerCall (store : ResultsStore Entry Control) (call : LowerCall Entry Control) :
    Option (ResultsStore Entry Control) :=
  call.replies.foldlM pagedSearchCallback store

/-- What `paged_search` returns, with the handle of the request. -/
structure SearchResult (Entry Control : Type) where
  priv : PrivateData Entry Control
  handle : Option PagedHandle
  ret : Int

/-- `paged_search`. -/
def pagedSearch (priv : PrivateData Entry Control) (req : PagedRequest Entry Control) : Option (SearchResult Entry Control) :=
  match req.cookie with
  | none => do
    let (priv, a) ← newStore priv
    let store ← priv.heap a
    let store ← lowerCall store req.start
    let priv := priv.set a (some { store with lower := req.lower })
    finish priv a req.start.ret
  | some cookie => do
    match ← findStore priv.heap (cstr cookie) priv.brk priv.store with
    | none => return ⟨priv, none, ldbErrUnwillingToPerform⟩
    | some a => finish priv a ldbSuccess
where
  finish (priv : PrivateData Entry Control) (a : Addr) (ret : Int) : Option (SearchResult Entry Control) :=
    -- check if it is an abandon
    if req.size = 0 then (freeStore priv a).map fun priv => ⟨priv, some ⟨0, a, true, ldbSuccess⟩, ldbSuccess⟩
    else some ⟨priv, some ⟨req.size, a, false, ldbSuccess⟩, ret⟩

/-! ## Waiting -/

/-- What the first loop of `paged_results` leaves: the replies it passed up, what the last callback returned, and what
remains to be delivered. -/
structure Delivery (Entry Control : Type) where
  replies : List (Reply Entry Control)
  ret : Int
  first : List Entry
  numEntries : Nat
  size : Int

section Wait

variable (upCallback : Reply Entry Control → Int)

/-- The first loop of `paged_results`. -/
def deliverEntries : List Entry → Nat → Int → Option (Delivery Entry Control)
  | [], numEntries, size =>
    -- the store has no message although it counts one
    if numEntries > 0 ∧ size > 0 then none else some ⟨[], ldbSuccess, [], numEntries, size⟩
  | e :: first, numEntries, size =>
    if numEntries > 0 ∧ size > 0 then
      let ret := upCallback (.entry e)
      if ret ≠ ldbSuccess then some ⟨[.entry e], ret, e :: first, numEntries, size⟩
      else (deliverEntries first (numEntries - 1) (size - 1)).map fun d => { d with replies := .entry e :: d.replies }
    else some ⟨[], ldbSuccess, e :: first, numEntries, size⟩

/-- What a wait leaves: the replies that were passed up, and what it returns. -/
structure WaitResult (Entry Control : Type) where
  priv : PrivateData Entry Control
  handle : PagedHandle
  replies : List (Reply Entry Control)
  ret : Int

/-- `paged_results`, on the store of the handle. -/
def pagedResults (handle : PagedHandle) (store : ResultsStore Entry Control) :
    Option (ResultsStore Entry Control × PagedHandle × List (Reply Entry Control) × Int) := do
  let d ← deliverEntries upCallback store.first store.numEntries handle.size
  let store' := { store with first := d.first, numEntries := d.numEntries }
  if d.ret ≠ ldbSuccess then
    return (store', { handle with size := d.size, done := true, status := d.ret }, d.replies, d.ret)
  else
    let paged : PagedControl := if d.size > 0 then ⟨0, none⟩ else ⟨d.numEntries, some store.cookie⟩
    let ares := .done store.controls paged
    let ret := upCallback ares
    return ({ store' with controls := [] }, { handle with size := d.size, done := true, status := ret }, d.replies ++ [ares], ret)

/-- `paged_results`, and the store is freed if it is empty after it. -/
def deliverPage (priv : PrivateData Entry Control) (handle : PagedHandle) (store : ResultsStore Entry Control) :
    Option (WaitResult Entry Control) := do
  let (store, handle, replies, ret) ← pagedResults upCallback handle store
  let priv := priv.set handle.store (some store)
  -- that means we delivered the last batch
  let priv ← if store.numEntries = 0 then freeStore priv handle.store else some priv
  return ⟨priv, handle, replies, ret⟩

/-- The loop of `paged_wait` for `LDB_WAIT_ALL`: the store, and what the last wait below returned. -/
def waitAll (store : ResultsStore Entry Control) : List (LowerCall Entry Control) → Option (ResultsStore Entry Control × Int)
  | [] => some ({ store with lower := [] }, ldbSuccess)
  | call :: lower => do
    let store ← lowerCall store call
    if call.ret ≠ ldbSuccess then return ({ store with lower }, call.ret) else waitAll store lower

/-- `paged_wait`. -/
def pagedWait (priv : PrivateData Entry Control) (handle : PagedHandle) (type : WaitType) : Option (WaitResult Entry Control) :=
  if handle.done then some ⟨priv, handle, [], handle.status⟩
  else do
    let store ← priv.heap handle.store
    match store.lower, type with
    | [], _ => deliverPage upCallback priv handle store
    | call :: lower, .all => do
      let (store, ret) ← waitAll store (call :: lower)
      if ret ≠ ldbSuccess then
        return ⟨priv.set handle.store (some store), { handle with done := true, status := ret }, [], ret⟩
      else deliverPage upCallback priv handle store
    | call :: lower, .none => do
      let store ← lowerCall store call
      let store := { store with lower }
      if call.ret ≠ ldbSuccess then
        return ⟨priv.set handle.store (some store), { handle with done := true, status := call.ret }, [], call.ret⟩
      else if store.numEntries ≥ handle.size ∨ lower = [] then deliverPage upCallback priv handle store
      else return ⟨priv.set handle.store (some store), { handle with status := ldbSuccess }, [], ldbSuccess⟩

end Wait

/-! ## The module -/

/-- The module with the handles of its requests. -/
structure PagedModule (Entry Control : Type) where
  priv : PrivateData Entry Control
  handles : List PagedHandle

/-- A call of the module: a search, or a wait on the handle of an earlier one. -/
inductive PagedCall (Entry Control : Type)
  | search (req : PagedRequest Entry Control)
  | wait (i : Nat) (type : WaitType) (upCallback : Reply Entry Control → Int)

/-- `paged_request_init`. -/
def PagedModule.init : PagedModule Entry Control := ⟨⟨1, none, fun _ => none, 0⟩, []⟩

/-- What a search does to the module, and what it answers. -/
def PagedModule.step (m : PagedModule Entry Control) : PagedCall Entry Control → Option (PagedModule Entry Control)
  | .search req => (pagedSearch m.priv req).map fun res => ⟨res.priv, m.handles ++ res.handle.toList⟩
  | .wait i type upCallback => do
    let handle ← m.handles[i]?
    let res ← pagedWait upCallback m.priv handle type
    return ⟨res.priv, m.handles.set i res.handle⟩

/-- The runs of the module in which no call is undefined. -/
def pagedSystem : System (PagedModule Entry Control) (PagedCall Entry Control) where
  init m := m = .init
  step m c m' := m.step c = some m'

end Samba.Ldb
