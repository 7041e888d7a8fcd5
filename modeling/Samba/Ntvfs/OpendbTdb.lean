/-
The open files database (ntvfs/common/opendb_tdb.c): the `opendb_file` record kept under one file
key and the calls that change it while they hold its chain lock. A record is `none` when tdb holds
nothing under the key; NDR coding, tdb storage and allocation are taken to succeed.
-/
import Samba.Lib.Transition
import Samba.Ntvfs.Cluster

namespace Samba.Opendb

open Transition Samba.Cluster

/-! ## Records -/

/-- `opendb_entry`: one open of the file. -/
structure OpendbEntry where
  server : ServerId
  streamId : UInt32
  shareAccess : UInt32
  accessMask : UInt32
  fileHandle : Nat
  deleteOnClose : Bool
  oplockLevel : UInt32
  deriving DecidableEq, Repr

/-- `opendb_pending`: an open waiting for the file to be closed. -/
structure OpendbPending where
  server : ServerId
  notifyPtr : Nat
  deriving DecidableEq, Repr

/-- `opendb_file`. -/
structure OpendbFile where
  deleteOnClose : Bool
  path : String
  entries : List OpendbEntry
  pending : List OpendbPending
  deriving DecidableEq, Repr

/-- `struct odb_context`: the calling server, and whether oplocks are enabled. -/
structure OdbContext where
  serverId : ServerId
  oplocks : Bool
  deriving DecidableEq, Repr

/-- The status codes the calls return. -/
inductive NtStatus
  | ok | objectNameNotFound | oplockNotGranted | deletePending | sharingViolation | unsuccessful
  deriving DecidableEq, Repr

/-- The messages the calls send. -/
inductive OdbMessage
  | oplockBreak (server : ServerId) (fileHandle : Nat)
  | retryOpen (server : ServerId) (notifyPtr : Nat)
  deriving DecidableEq, Repr

def oplockNone : UInt32 := 0
def oplockExclusive : UInt32 := 1
def oplockBatch : UInt32 := 2

def secFileReadData : UInt32 := 0x1
def secFileWriteData : UInt32 := 0x2
def secFileAppendData : UInt32 := 0x4
def secFileExecute : UInt32 := 0x20
def secStdDelete : UInt32 := 0x10000

def shareAccessRead : UInt32 := 1
def shareAccessWrite : UInt32 := 2
def shareAccessDelete : UInt32 := 4

def optionsDeleteOnClose : UInt32 := 0x1000

/-! ## Sharing -/

/-- The access that takes part in sharing checks. -/
def sharingAccess : UInt32 :=
  secFileWriteData ||| secFileAppendData ||| secFileReadData ||| secFileExecute ||| secStdDelete

/-- `CHECK_MASK`: the access `am` uses `right`, which the share mode `sa` does not allow. -/
def maskViolates (am right sa share : UInt32) : Bool := am &&& right != 0 && sa &&& share == 0

/-- `share_conflict`. -/
def shareConflict (e1 e2 : OpendbEntry) : NtStatus :=
  if e1.accessMask &&& sharingAccess = 0 then .ok
  else if e2.accessMask &&& sharingAccess = 0 then .ok
  else if e1.streamId ≠ e2.streamId then .ok
  else if maskViolates e1.accessMask (secFileWriteData ||| secFileAppendData) e2.shareAccess shareAccessWrite then
    .sharingViolation
  else if maskViolates e2.accessMask (secFileWriteData ||| secFileAppendData) e1.shareAccess shareAccessWrite then
    .sharingViolation
  else if maskViolates e1.accessMask (secFileReadData ||| secFileExecute) e2.shareAccess shareAccessRead then
    .sharingViolation
  else if maskViolates e2.accessMask (secFileReadData ||| secFileExecute) e1.shareAccess shareAccessRead then
    .sharingViolation
  else if maskViolates e1.accessMask secStdDelete e2.shareAccess shareAccessDelete then .sharingViolation
  else if maskViolates e2.accessMask secStdDelete e1.shareAccess shareAccessDelete then .sharingViolation
  else .ok

/-! ## The calls -/

/-- What a call returns, leaves under the key and sends. -/
structure OdbResult where
  status : NtStatus
  record : Option OpendbFile
  sent : List OdbMessage
  deriving DecidableEq, Repr

/-- `odb_push_record`: a file without entries is deleted. -/
def odbPushRecord (file : OpendbFile) : Option OpendbFile :=
  if file.entries.length = 0 then none else some file

/-- The oplock `odb_tdb_open_file` grants: only a first open gets one. -/
def oplockGranted (file : OpendbFile) (oplockLevel : UInt32) : UInt32 :=
  if (oplockLevel = oplockBatch ∨ oplockLevel = oplockExclusive) ∧ file.entries.length = 0 then oplockLevel
  else oplockNone

/-- `odb_tdb_open_file`. `wantGranted` says whether the caller passes an `oplock_granted` pointer;
the second component is what is stored through it. -/
def odbTdbOpenFile (odb : OdbContext) (fileHandle : Nat) (streamId shareAccess accessMask : UInt32)
    (deleteOnClose : Bool) (path : String) (oplockLevel : UInt32) (wantGranted : Bool)
    (rec : Option OpendbFile) : OdbResult × Option UInt32 :=
  let oplockLevel := if odb.oplocks then oplockLevel else oplockNone
  let file := rec.getD { deleteOnClose := false, path := path, entries := [], pending := [] }
  let e : OpendbEntry :=
    { server := odb.serverId, streamId, shareAccess, accessMask, fileHandle, deleteOnClose, oplockLevel := oplockNone }
  match file.entries.find? (·.oplockLevel == oplockBatch) with
  | some b => (⟨.oplockNotGranted, rec, [.oplockBreak b.server b.fileHandle]⟩, none)
  | none =>
    if file.deleteOnClose ∨ (file.entries.length ≠ 0 ∧ deleteOnClose) then (⟨.deletePending, rec, []⟩, none)
    else
      match file.entries.find? (shareConflict · e != .ok) with
      | some c => (⟨shareConflict c e, rec, []⟩, none)
      | none =>
        match file.entries.find? (·.oplockLevel == oplockExclusive) with
        | some b => (⟨.oplockNotGranted, rec, [.oplockBreak b.server b.fileHandle]⟩, none)
        | none =>
          if wantGranted then
            let granted := oplockGranted file oplockLevel
            (⟨.ok, odbPushRecord { file with entries := file.entries ++ [{ e with oplockLevel := granted }] }, []⟩,
              some granted)
          else (⟨.ok, odbPushRecord { file with entries := file.entries ++ [e] }, []⟩, none)

/-- `odb_tdb_open_file_pending`. -/
def odbTdbOpenFilePending (odb : OdbContext) (priv : Nat) (rec : Option OpendbFile) : OdbResult :=
  match rec with
  | none => ⟨.objectNameNotFound, none, []⟩
  | some file => ⟨.ok, odbPushRecord { file with pending := file.pending ++ [⟨odb.serverId, priv⟩] }, []⟩

/-- `odb_tdb_close_file`: the first matching entry goes, every pending open is told to retry. -/
def odbTdbCloseFile (odb : OdbContext) (fileHandle : Nat) (rec : Option OpendbFile) : OdbResult :=
  match rec with
  | none => ⟨.objectNameNotFound, none, []⟩
  | some file =>
    match file.entries.findIdx? fun e => fileHandle == e.fileHandle && clusterIdEqual odb.serverId e.server with
    | none => ⟨.unsuccessful, some file, []⟩
    | some i =>
      let deleteOnClose := (file.entries[i]?).any (·.deleteOnClose) || file.deleteOnClose
      ⟨.ok, odbPushRecord { file with deleteOnClose, entries := file.entries.eraseIdx i, pending := [] },
        file.pending.map fun p => .retryOpen p.server p.notifyPtr⟩

/-- `odb_tdb_remove_pending`. -/
def odbTdbRemovePending (odb : OdbContext) (priv : Nat) (rec : Option OpendbFile) : OdbResult :=
  match rec with
  | none => ⟨.objectNameNotFound, none, []⟩
  | some file =>
    match file.pending.findIdx? fun p => priv == p.notifyPtr && clusterIdEqual odb.serverId p.server with
    | none => ⟨.unsuccessful, some file, []⟩
    | some i => ⟨.ok, odbPushRecord { file with pending := file.pending.eraseIdx i }, []⟩

/-- `odb_tdb_rename`. -/
def odbTdbRename (path : String) (rec : Option OpendbFile) : OdbResult :=
  match rec with
  | none => ⟨.ok, none, []⟩
  | some file => ⟨.ok, odbPushRecord { file with path }, []⟩

/-- `odb_tdb_set_delete_on_close`. -/
def odbTdbSetDeleteOnClose (delOnClose : Bool) (rec : Option OpendbFile) : OdbResult :=
  match rec with
  | none => ⟨.objectNameNotFound, none, []⟩
  | some file => ⟨.ok, odbPushRecord { file with deleteOnClose := delOnClose }, []⟩

/-- `odb_tdb_can_open`. -/
def odbTdbCanOpen (odb : OdbContext) (shareAccess createOptions accessMask : UInt32)
    (rec : Option OpendbFile) : NtStatus :=
  match rec with
  | none => .ok
  | some file =>
    if createOptions &&& optionsDeleteOnClose ≠ 0 ∧ file.entries.length ≠ 0 then .sharingViolation
    else if file.deleteOnClose then .deletePending
    else
      let e : OpendbEntry :=
        { server := odb.serverId, streamId := 0, shareAccess, accessMask, fileHandle := 0, deleteOnClose := false,
          oplockLevel := oplockNone }
      if file.entries.any (shareConflict · e != .ok) then .sharingViolation else .ok

/-! ## Runs -/

/-- A call on the record by any server. -/
inductive Call
  | openFile (odb : OdbContext) (fileHandle : Nat) (streamId shareAccess accessMask : UInt32)
      (deleteOnClose : Bool) (path : String) (oplockLevel : UInt32) (wantGranted : Bool)
  | openFilePending (odb : OdbContext) (priv : Nat)
  | closeFile (odb : OdbContext) (fileHandle : Nat)
  | removePending (odb : OdbContext) (priv : Nat)
  | rename (path : String)
  | setDeleteOnClose (delOnClose : Bool)

/-- What a call returns, and the record it leaves. -/
def Call.result (rec : Option OpendbFile) : Call → OdbResult
  | .openFile odb fileHandle streamId shareAccess accessMask deleteOnClose path oplockLevel wantGranted =>
    (odbTdbOpenFile odb fileHandle streamId shareAccess accessMask deleteOnClose path oplockLevel wantGranted rec).1
  | .openFilePending odb priv => odbTdbOpenFilePending odb priv rec
  | .closeFile odb fileHandle => odbTdbCloseFile odb fileHandle rec
  | .removePending odb priv => odbTdbRemovePending odb priv rec
  | .rename path => odbTdbRename path rec
  | .setDeleteOnClose delOnClose => odbTdbSetDeleteOnClose delOnClose rec

/-- The record of one file key, from an absent record. -/
def odbSystem : System (Option OpendbFile) Call := .ofFn none fun rec c => (c.result rec).record

end Samba.Opendb
