/-
The WINS database (nbt_server/wins/winsdb.c): records, their address lists of at most 25 entries, and the calls that
load and save a record. A stored message is kept field by field, its numbers and times not printed; records are found
by their NetBIOS name. ldb transactions, `wins_hook` and allocation are taken to succeed.
-/
import Mathlib.Data.Finset.Card
import Mathlib.Data.List.Sort
import Samba.Lib.CString

namespace Samba.Wrepl

open CString List

/-! ## Records -/

/-- `enum wrepl_name_type`. -/
inductive WreplNameType
  | unique | group | sgroup | mhomed
  deriving DecidableEq, Repr

/-- `enum wrepl_name_state`. -/
inductive WreplNameState
  | active | released | tombstone | reserved
  deriving DecidableEq, Repr

/-- `enum wrepl_name_node`. -/
inductive WreplNameNode
  | b | p | m | h
  deriving DecidableEq, Repr

instance lawfulBEq_text : LawfulBEq Text := inferInstance

/-- `struct nbt_name`. -/
structure NbtName where
  name : Text
  scope : Option Text
  type : UInt8
  deriving DecidableEq, Repr

/-- `struct winsdb_addr`. -/
structure WinsdbAddr where
  address : Text
  winsOwner : Text
  expireTime : Int
  deriving DecidableEq, Repr

/-- `struct winsdb_record`. -/
structure WinsdbRecord where
  name : NbtName
  type : WreplNameType
  state : WreplNameState
  node : WreplNameNode
  isStatic : Bool
  expireTime : Int
  version : Nat
  winsOwner : Text
  addresses : List WinsdbAddr
  registeredBy : Option Text
  deriving DecidableEq, Repr

/-- A value of the `address` attribute: static records store the bare address. -/
inductive AddrValue
  | bare (address : Text)
  | full (address winsOwner : Text) (expireTime : Int)
  deriving DecidableEq, Repr

/-- The attributes of a stored `winsRecord` object. -/
structure WinsdbMessage where
  name : NbtName
  recordType : WreplNameType
  recordState : WreplNameState
  nodeType : WreplNameNode
  isStatic : Bool
  expireTime : Option Int
  versionID : Nat
  winsOwner : Option Text
  address : List AddrValue
  registeredBy : Option Text
  deriving DecidableEq, Repr

/-- `struct winsdb_handle`, with the sort that `winsdb_addr_list_add` calls: `ldb_qsort` is not stable, and nothing
here depends on the order it leaves. -/
structure WinsdbHandle where
  localOwner : Text
  ldbQsort : (WinsdbAddr → WinsdbAddr → Int) → List WinsdbAddr → List WinsdbAddr
  ldbQsort_perm : ∀ cmp l, (ldbQsort cmp l).Perm l

/-- The database: the records, and the `maxVersion` of `CN=VERSION`. -/
structure Winsdb where
  records : NbtName → Option WinsdbMessage
  maxVersion : Nat

/-- The status codes the calls return. -/
inductive NtStatus
  | ok | objectNameNotFound | internalDbCorruption | internalError | foobar
  deriving DecidableEq, Repr

def Winsdb.set (db : Winsdb) (msg : WinsdbMessage) : Winsdb :=
  { db with records := fun name => if name = msg.name then some msg else db.records name }

@[simp] theorem Winsdb.set_self (db : Winsdb) (msg : WinsdbMessage) : (db.set msg).records msg.name = some msg := by
  simp [Winsdb.set]

variable {msg : WinsdbMessage} {h : WinsdbHandle} {addresses : List WinsdbAddr} {new x : WinsdbAddr}

/-- A record found under a name that is not the message's is untouched by storing it. -/
theorem Winsdb.set_other (db : Winsdb) {name : NbtName} (h : name ≠ msg.name) :
    (db.set msg).records name = db.records name := by
  simp [Winsdb.set, h]

/-! ## Address lists -/

/-- `winsdb_addr_sort_list`. -/
def winsdbAddrSortList (localOwner : Text) (a1 a2 : WinsdbAddr) : Int :=
  if a2.expireTime ≠ a1.expireTime then (a2.expireTime - a1.expireTime).bmod (2 ^ 32)
  else (if a2.winsOwner = localOwner then 1 else 0) - (if a1.winsOwner = localOwner then 1 else 0)

/-- `winsdb_addr_list_remove`: the first entry with the address goes. -/
def winsdbAddrListRemove (addresses : List WinsdbAddr) (address : Text) : List WinsdbAddr :=
  addresses.eraseP (·.address = address)

/-- `winsdb_addr_list_check`. -/
def winsdbAddrListCheck (addresses : List WinsdbAddr) (address : Text) : Option WinsdbAddr :=
  addresses.find? (·.address = address)

/-- The search of `winsdb_addr_list_add` in a full list: the oldest replica address, or the oldest address when there
is no replica. -/
def oldestAddr (localOwner : Text) (addresses : List WinsdbAddr) : Option WinsdbAddr :=
  (addresses.foldl
    (fun (found : Option WinsdbAddr × Bool) cur =>
      let curIsReplica := cur.winsOwner ≠ localOwner
      if found.2 ∧ ¬curIsReplica then found
      else if ¬found.2 ∧ curIsReplica then (some cur, true)
      else match found.1 with
        | none => (some cur, found.2)
        | some old => if cur.expireTime < old.expireTime then (some cur, found.2) else found)
    (none, false)).1

/-- The end of `winsdb_addr_list_add`: append and sort. -/
def addNewAddr (h : WinsdbHandle) (addresses : List WinsdbAddr) (new : WinsdbAddr) : List WinsdbAddr :=
  h.ldbQsort (winsdbAddrSortList h.localOwner) (addresses ++ [new])

/-- `winsdb_addr_list_add`. -/
def winsdbAddrListAdd (h : WinsdbHandle) (addresses : List WinsdbAddr) (address winsOwner : Text) (expireTime : Int)
    (isNameRegistration : Bool) : List WinsdbAddr :=
  let new : WinsdbAddr := ⟨address, winsOwner, expireTime⟩
  match winsdbAddrListCheck addresses address with
  | some old => addNewAddr h (winsdbAddrListRemove addresses old.address) new
  | none =>
    if addresses.length < 25 then addNewAddr h addresses new
    else if !isNameRegistration then addresses
    else match oldestAddr h.localOwner addresses with
      | some old => addNewAddr h (winsdbAddrListRemove addresses old.address) new
      | none => addNewAddr h addresses new

/-- No two entries of the list have the same address. -/
def Distinct (addresses : List WinsdbAddr) : Prop := (addresses.map (·.address)).Nodup

theorem mem_addNewAddr : x ∈ addNewAddr h addresses new ↔ x ∈ addresses ∨ x = new := by
  rw [addNewAddr, (h.ldbQsort_perm _ _).mem_iff]
  simp

theorem addNewAddr_distinct (hd : Distinct addresses) (hnew : ∀ x ∈ addresses, x.address ≠ new.address) :
    Distinct (addNewAddr h addresses new) := by
  have hperm := (h.ldbQsort_perm (winsdbAddrSortList h.localOwner) (addresses ++ [new])).map (·.address)
  rw [Distinct, addNewAddr, hperm.nodup_iff, map_append, nodup_append]
  refine ⟨hd, by simp, fun a ha b hb => ?_⟩
  obtain ⟨x, hx, rfl⟩ := mem_map.mp ha
  rw [show b = new.address by simpa using hb]
  exact hnew x hx

theorem mem_winsdbAddrListRemove (hd : Distinct addresses) {address : Text} : x ∈ winsdbAddrListRemove addresses address ↔ x ∈ addresses ∧ x.address ≠ address := by
  induction addresses with
  | nil => simp [winsdbAddrListRemove]
  | cons y ys ih =>
    obtain ⟨hy, hys⟩ := nodup_cons.mp (show (y.address :: ys.map (·.address)).Nodup from hd)
    by_cases he : y.address = address
    · have hne : ∀ z ∈ ys, z.address ≠ address := fun z hz hza =>
        hy (mem_map.mpr ⟨z, hz, hza.trans he.symm⟩)
      rw [winsdbAddrListRemove, eraseP_cons_of_pos (by simpa), mem_cons]
      exact ⟨fun hx => ⟨.inr hx, hne x hx⟩, fun ⟨hx, hxa⟩ => hx.resolve_left fun e => hxa (e ▸ he)⟩
    · have ih := ih hys
      simp only [winsdbAddrListRemove] at ih ⊢
      rw [eraseP_cons_of_neg (by simpa), mem_cons, mem_cons, ih]
      constructor
      · rintro (rfl | ⟨hx, hxa⟩)
        · exact ⟨.inl rfl, he⟩
        · exact ⟨.inr hx, hxa⟩
      · rintro ⟨rfl | hx, hxa⟩
        · exact .inl rfl
        · exact .inr ⟨hx, hxa⟩

/-- Adding an address that the list holds or has room for puts its entry in the place of the old one. -/
theorem mem_winsdbAddrListAdd (hd : Distinct addresses) (hroom : new.address ∈ addresses.map (·.address) ∨ addresses.length < 25) :
    (x ∈ winsdbAddrListAdd h addresses new.address new.winsOwner new.expireTime false ↔
      (x ∈ addresses ∧ x.address ≠ new.address) ∨ x = new) ∧
    Distinct (winsdbAddrListAdd h addresses new.address new.winsOwner new.expireTime false) := by
  rw [winsdbAddrListAdd]
  rcases hfind : winsdbAddrListCheck addresses new.address with _ | old
  · have hnone : ∀ y ∈ addresses, y.address ≠ new.address := fun y hy => by
      simpa using List.find?_eq_none.mp hfind y hy
    have hlen : addresses.length < 25 := hroom.resolve_left fun hmem => by
      obtain ⟨y, hy, hya⟩ := mem_map.mp hmem
      exact hnone y hy hya
    simp only [hlen, if_true]
    refine ⟨?_, addNewAddr_distinct hd hnone⟩
    rw [mem_addNewAddr]
    exact or_congr_left ⟨fun hx => ⟨hx, hnone x hx⟩, And.left⟩
  · have hold : old.address = new.address := by simpa using List.find?_some hfind
    dsimp only
    rw [hold]
    refine ⟨?_, addNewAddr_distinct ?_ fun y hy => ((mem_winsdbAddrListRemove hd).mp hy).2⟩
    · rw [mem_addNewAddr, mem_winsdbAddrListRemove hd]
    · exact hd.sublist ((eraseP_sublist).map _)

/-! ## Loading and saving -/

def timeTMax : Int := 2 ^ 31 - 1

/-- The text `0.0.0.0`, which stands for the local server. -/
def anyOwner : Text := "0.0.0.0".toList.map chr

/-- The owner that a stored `winsOwner` names. -/
def ownerOf (h : WinsdbHandle) (stored : Text) : Text := if stored = anyOwner then h.localOwner else stored

/-- `winsdb_addr_decode`, given the owner and the expiry time of the record. -/
def winsdbAddrDecode (h : WinsdbHandle) (recOwner : Text) (recExpire : Int) : AddrValue → WinsdbAddr
  | .bare address => ⟨address, recOwner, recExpire⟩
  | .full address winsOwner expireTime => ⟨address, ownerOf h winsOwner, expireTime⟩

/-- The record a message describes, as it stands: the part of `winsdb_record` that does not look at the clock. A
missing `expireTime` reads as the time 0. -/
def WinsdbMessage.decode (h : WinsdbHandle) (msg : WinsdbMessage) : WinsdbRecord :=
  let winsOwner := match msg.winsOwner with
    | none => h.localOwner
    | some stored => ownerOf h stored
  let expireTime := msg.expireTime.getD 0
  { name := msg.name, type := msg.recordType, state := msg.recordState, node := msg.nodeType, isStatic := msg.isStatic,
    expireTime := expireTime, version := msg.versionID, winsOwner := winsOwner,
    addresses := msg.address.map (winsdbAddrDecode h winsOwner expireTime), registeredBy := msg.registeredBy }

/-- The part of `winsdb_record` that looks at the clock: what has expired of a record that is ours is dropped. -/
def expireRecord (h : WinsdbHandle) (now : Int) (stored : WinsdbRecord) : WinsdbRecord :=
  let weAreOwner := stored.winsOwner = h.localOwner
  let state := if ¬stored.isStatic ∧ stored.expireTime ≤ now ∧ stored.state = .active ∧ weAreOwner then .released
    else stored.state
  let addresses := if ¬stored.isStatic ∧ state = .active ∧ weAreOwner then
      stored.addresses.filter (now < ·.expireTime)
    else stored.addresses
  let loaded : WinsdbRecord := if stored.isStatic ∧ state = .active then
      { stored with
        state := state, expireTime := timeTMax
        addresses := addresses.map fun addr => { addr with expireTime := timeTMax } }
    else { stored with state := state, addresses := addresses }
  if loaded.state = .active ∧ loaded.addresses = [] then { loaded with state := .released } else loaded

/-- `winsdb_record`: refuse what can't have been stored, and drop what has expired. -/
def winsdbRecord (h : WinsdbHandle) (now : Int) (msg : WinsdbMessage) : Except NtStatus WinsdbRecord :=
  let stored := msg.decode h
  let numValues := msg.address.length
  if 15 < stored.name.name.length then .error .internalDbCorruption
  else if stored.name.scope.any (238 < ·.length) then .error .internalDbCorruption
  else if (stored.type = .unique ∨ stored.type = .group) ∧ numValues ≠ 1 then .error .internalDbCorruption
  else if stored.state = .active ∧ numValues < 1 then .error .internalDbCorruption
  else if 25 < numValues then .error .internalDbCorruption
  else .ok (expireRecord h now stored)

/-- `winsdb_lookup`. -/
def winsdbLookup (h : WinsdbHandle) (db : Winsdb) (now : Int) (name : NbtName) : Except NtStatus WinsdbRecord :=
  match db.records name with
  | none => .error .objectNameNotFound
  | some msg => winsdbRecord h now msg

/-- `winsdb_message`. -/
def winsdbMessage (record : WinsdbRecord) : WinsdbMessage :=
  let state := if record.state = .active ∧ record.addresses = [] then .released else record.state
  let type := if record.type = .unique ∧ 1 < record.addresses.length then .mhomed else record.type
  { name := record.name, recordType := type, recordState := state, nodeType := record.node, isStatic := record.isStatic,
    expireTime := if record.isStatic ∧ state = .active then none else some record.expireTime,
    versionID := record.version, winsOwner := some record.winsOwner,
    address := record.addresses.map fun addr =>
      if record.isStatic then .bare addr.address else .full addr.address addr.winsOwner addr.expireTime,
    registeredBy := record.registeredBy }

/-- `WINSDB_FLAG_ALLOC_VERSION` and `WINSDB_FLAG_TAKE_OWNERSHIP`. -/
structure WinsdbFlags where
  allocVersion : Bool
  takeOwnership : Bool
  deriving DecidableEq, Repr

/-- `winsdb_set_maxVersion`: the new maximum, which is 0 when the call failed. -/
def winsdbSetMaxVersion (db : Winsdb) (newMaxVersion : Nat) : Nat × Winsdb :=
  let version := if newMaxVersion = 0 then (db.maxVersion + 1) % 2 ^ 64 else max db.maxVersion newMaxVersion
  (version, { db with maxVersion := version })

/-- What `winsdb_add` and `winsdb_modify` do to the record before they store it. -/
def prepareRecord (h : WinsdbHandle) (db : Winsdb) (record : WinsdbRecord) (flags : WinsdbFlags) :
    Option (WinsdbRecord × Winsdb) :=
  let owned := fun (r : WinsdbRecord) => if flags.takeOwnership then { r with winsOwner := h.localOwner } else r
  if flags.allocVersion then
    let (version, db) := winsdbSetMaxVersion db 0
    if version = 0 then none else some (owned { record with version := version }, db)
  else some (owned record, db)

/-- `winsdb_add`; `none` is `NBT_RCODE_SVR`, and the transaction is cancelled. -/
def winsdbAdd (h : WinsdbHandle) (db : Winsdb) (record : WinsdbRecord) (flags : WinsdbFlags) : Option Winsdb := do
  let (record, db) ← prepareRecord h db record flags
  if (db.records record.name).isSome then none else some (db.set (winsdbMessage record))

/-- `winsdb_modify`. -/
def winsdbModify (h : WinsdbHandle) (db : Winsdb) (record : WinsdbRecord) (flags : WinsdbFlags) : Option Winsdb := do
  let (record, db) ← prepareRecord h db record flags
  if (db.records record.name).isNone then none else some (db.set (winsdbMessage record))

/-! ## What loading and saving keep -/

theorem winsdbRecord_ok {now : Int} {record : WinsdbRecord}
    (hload : winsdbRecord h now msg = .ok record) : record = expireRecord h now (msg.decode h) := by
  unfold winsdbRecord at hload
  dsimp only at hload
  split_ifs at hload
  exact (Except.ok.inj hload).symm

theorem expireRecord_isStatic (h : WinsdbHandle) (now : Int) (stored : WinsdbRecord) :
    (expireRecord h now stored).isStatic = stored.isStatic := by
  unfold expireRecord
  dsimp only
  split_ifs <;> rfl

theorem expireRecord_winsOwner (h : WinsdbHandle) (now : Int) (stored : WinsdbRecord) :
    (expireRecord h now stored).winsOwner = stored.winsOwner := by
  unfold expireRecord
  dsimp only
  split_ifs <;> rfl

/-- The addresses of a loaded record are those stored, less what has expired of a record that is ours. -/
theorem expireRecord_addresses (h : WinsdbHandle) (now : Int) {stored : WinsdbRecord} (hs : stored.isStatic = false) :
    (∀ x ∈ (expireRecord h now stored).addresses, x ∈ stored.addresses) ∧
    (stored.winsOwner ≠ h.localOwner → (expireRecord h now stored).addresses = stored.addresses) := by
  have haddr : (expireRecord h now stored).addresses = stored.addresses.filter (now < ·.expireTime) ∨
      (expireRecord h now stored).addresses = stored.addresses := by
    unfold expireRecord
    simp only [hs, Bool.false_eq_true, false_and, if_false]
    split_ifs <;> simp
  constructor
  · intro x hx
    rcases haddr with haddr | haddr
    · exact (mem_filter.mp (haddr ▸ hx)).1
    · exact haddr ▸ hx
  · intro hother
    unfold expireRecord
    simp only [hs, hother, Bool.false_eq_true, false_and, and_false, if_false]
    split_ifs <;> rfl

/-- The loaded addresses name their owners: the text that stands for the local server is resolved. -/
theorem ownerOf_decode (hx : x ∈ (msg.decode h).addresses) : ownerOf h x.winsOwner = x.winsOwner := by
  have hidem : ∀ owner, ownerOf h (ownerOf h owner) = ownerOf h owner := by
    intro owner
    unfold ownerOf
    split_ifs <;> rfl
  have hlocal : ownerOf h h.localOwner = h.localOwner := by
    unfold ownerOf
    split_ifs <;> rfl
  simp only [WinsdbMessage.decode, mem_map] at hx
  obtain ⟨v, -, rfl⟩ := hx
  cases v with
  | bare address =>
    rcases msg.winsOwner with _ | owner
    · exact hlocal
    · exact hidem owner
  | full address winsOwner expireTime => exact hidem winsOwner

/-- What is read back of an address of a record that is not static. -/
theorem mem_decode_winsdbMessage {record : WinsdbRecord} (hs : record.isStatic = false) : x ∈ ((winsdbMessage record).decode h).addresses ↔
      ∃ y ∈ record.addresses, x = { y with winsOwner := ownerOf h y.winsOwner } := by
  simp only [WinsdbMessage.decode, winsdbMessage, hs, map_map, mem_map]
  exact exists_congr fun y => and_congr_right fun _ => by simp [winsdbAddrDecode, eq_comm]

/-- Saving a record that is there works while there is a version to hand out. -/
theorem winsdbModify_ok (h : WinsdbHandle) {db : Winsdb} {record : WinsdbRecord} (flags : WinsdbFlags)
    (hthere : (db.records record.name).isSome) (hversion : db.maxVersion + 1 < 2 ^ 64) :
    ∃ record' db', winsdbModify h db record flags = some db' ∧
      db'.records record.name = some (winsdbMessage record') ∧
      record'.addresses = record.addresses ∧ record'.isStatic = record.isStatic := by
  obtain ⟨record', db1, hprep, hname, haddr, hstatic, hrecords⟩ : ∃ record' db1,
      prepareRecord h db record flags = some (record', db1) ∧ record'.name = record.name ∧
      record'.addresses = record.addresses ∧ record'.isStatic = record.isStatic ∧ db1.records = db.records := by
    have hnew : (db.maxVersion + 1) % 2 ^ 64 ≠ 0 := by omega
    obtain ⟨allocVersion, takeOwnership⟩ := flags
    cases allocVersion <;> cases takeOwnership <;>
      simp only [prepareRecord, winsdbSetMaxVersion, hnew, if_true, if_false, Bool.false_eq_true] <;>
      exact ⟨_, _, rfl, rfl, rfl, rfl, rfl⟩
  refine ⟨record', db1.set (winsdbMessage record'), ?_, ?_, haddr, hstatic⟩
  · have hnone : ¬((db1.records record'.name).isNone = true) := by
      rw [hrecords, hname, Option.isNone_iff_eq_none]
      exact Option.isSome_iff_ne_none.mp hthere
    simp only [winsdbModify, hprep, bind, Option.bind, if_neg hnone]
  · rw [← hname]
    exact Winsdb.set_self db1 (winsdbMessage record')

end Samba.Wrepl
