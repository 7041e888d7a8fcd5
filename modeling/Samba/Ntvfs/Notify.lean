/-
Change notification (ntvfs/common/notify.c): the array of watches that the servers share, the calls that change it, and
the search that sends out an event. There is no system backend; NDR coding, tdb storage, locking and allocation are taken
to succeed, and a context finds the stored array under its lock (its copy is valid while the sequence number is).
-/
import Mathlib.Data.List.DropRight
import Samba.Lib.CString
import Samba.Lib.Transition
import Samba.Ntvfs.Cluster

namespace Samba.Notify

open CString Transition Samba.Cluster

/-! ## Watches -/

/-- `struct notify_entry`. -/
structure NotifyEntry where
  server : ServerId
  filter : UInt32
  subdirFilter : UInt32
  path : Text
  pathLen : Nat
  privateData : Nat
  deriving DecidableEq, Repr

/-- `struct notify_depth`: the watches of one directory depth, and the union of their filters. -/
structure NotifyDepth where
  maxMask : UInt32
  maxMaskSubdir : UInt32
  entries : List NotifyEntry
  deriving DecidableEq, Repr

/-- `struct notify_array`. -/
abbrev NotifyArray := List NotifyDepth

/-- `struct notify_list`: a watch of one context. -/
structure NotifyList where
  privateData : Nat
  depth : Nat
  deriving DecidableEq, Repr

/-- `struct notify_context`: which one, and its server. -/
structure NotifyContext where
  context : Nat
  server : ServerId
  deriving DecidableEq, Repr

/-- The stored array, and the watches of each context. -/
structure NotifyState where
  array : NotifyArray
  list : Nat → List NotifyList

/-- An event that is sent. -/
structure NotifyMessage where
  server : ServerId
  action : UInt32
  path : Text
  privateData : Nat
  deriving DecidableEq, Repr

def slash : UInt8 := chr '/'

/-! ## The calls -/

/-- `notify_compare`. -/
def notifyCompare (e1 e2 : NotifyEntry) : Int := strcmp e1.path e2.path

/-- `notify_save`: the last depths without watches are removed; a record without depths is deleted. -/
def notifySave (array : NotifyArray) : NotifyArray := array.rdropWhile (·.entries.isEmpty)

/-- What the standard promises of `qsort` with `notify_compare`; watches of one path come in any order. -/
def Qsorts (qsort : List NotifyEntry → List NotifyEntry) : Prop :=
  ∀ entries, (qsort entries).Perm entries ∧ (qsort entries).Pairwise fun e1 e2 => notifyCompare e1 e2 ≤ 0

section Add

variable (qsort : List NotifyEntry → List NotifyEntry)

/-- The depth with one more watch. -/
def addEntry (e : NotifyEntry) (d : NotifyDepth) : NotifyDepth :=
  let entries := d.entries ++ [e]
  let entries := if entries.length > 1 then qsort entries else entries
  { maxMask := entries.foldl (fun mask e => mask ||| e.filter) 0
    maxMaskSubdir := entries.foldl (fun mask e => mask ||| e.subdirFilter) 0
    entries }

/-- `notify_add_array`. -/
def notifyAddArray (notify : NotifyContext) (e : NotifyEntry) (privateData depth : Nat) (array : NotifyArray) :
    NotifyArray :=
  let array := array ++ List.replicate (depth + 1 - array.length) ⟨0, 0, []⟩
  let e := { e with privateData, server := notify.server, pathLen := e.path.length }
  notifySave (array.modify depth (addEntry qsort e))

/-- The path without `/.` at its end. -/
def watchPath (path : Text) : Text :=
  if path.length > 1 ∧ path[path.length - 1]? = some (chr '.') ∧ path[path.length - 2]? = some slash then
    path.take (path.length - 2)
  else path

/-- `notify_add`. -/
def notifyAdd (notify : NotifyContext) (e0 : NotifyEntry) (privateData : Nat) (s : NotifyState) : NotifyState :=
  let e := { e0 with path := watchPath e0.path }
  let depth := e.path.count slash
  { array := if e.filter ≠ 0 ∨ e.subdirFilter ≠ 0 then notifyAddArray qsort notify e privateData depth s.array else s.array
    list := Function.update s.list notify.context (⟨privateData, depth⟩ :: s.list notify.context) }

end Add

/-- The array without the watch of a server with this pointer at this depth. -/
def removeEntry (server : ServerId) (privateData depth : Nat) (array : NotifyArray) : Option NotifyArray := do
  let d ← array[depth]?
  let i ← d.entries.findIdx? fun e => privateData == e.privateData && clusterIdEqual server e.server
  return notifySave (array.set depth { d with entries := d.entries.eraseIdx i })

/-- `notify_remove`: whether it finds the watch, and the state it leaves. The masks of the depth stay. -/
def notifyRemove (notify : NotifyContext) (privateData : Nat) (s : NotifyState) : Bool × NotifyState :=
  match (s.list notify.context).find? (·.privateData = privateData) with
  | none => (false, s)
  | some listel =>
    let list := Function.update s.list notify.context ((s.list notify.context).eraseP (·.privateData = privateData))
    match removeEntry notify.server privateData listel.depth s.array with
    | none => (false, { s with list })
    | some array => (true, { array, list })

/-! ## Sending -/

/-- The bisection for the first watch of the directory in front of `pLen`. -/
def bisect (path : Text) (pLen : Nat) (entries : List NotifyEntry) : Nat → Int → Int → Int × Int
  | 0, minI, maxI => (minI, maxI)
  | fuel + 1, minI, maxI =>
    if minI < maxI then
      let i := (minI + maxI) / 2
      match entries[i.toNat]? with
      | none => (minI, maxI)
      | some e =>
        let cmp := strncmp pLen path e.path
        if cmp = 0 then
          if pLen = e.pathLen then bisect path pLen entries fuel minI i
          else bisect path pLen entries fuel minI (i - 1)
        else if cmp < 0 then bisect path pLen entries fuel minI (i - 1)
        else bisect path pLen entries fuel (i + 1) maxI
    else (minI, maxI)

/-- The filter of a watch for an event in its directory, or below. -/
def NotifyEntry.mask (e : NotifyEntry) (subdir : Bool) : UInt32 := if subdir then e.subdirFilter else e.filter

def NotifyDepth.mask (d : NotifyDepth) (subdir : Bool) : UInt32 := if subdir then d.maxMaskSubdir else d.maxMask

/-- `notify_send`. -/
def notifySend (action : UInt32) (path : Text) (e : NotifyEntry) : NotifyMessage :=
  { server := e.server, action, path := path.drop (e.pathLen + 1), privateData := e.privateData }

/-- The loop of `notify_trigger` at one depth; `subdir` says whether there is a next `/` in the path. -/
def triggerDepth (action filter : UInt32) (path : Text) (pLen : Nat) (subdir : Bool) (d : NotifyDepth) :
    List NotifyMessage :=
  if d.entries.length = 0 then []
  -- try to skip based on the maximum mask
  else if filter &&& d.mask subdir = 0 then []
  else
    let (minI, maxI) := bisect path pLen d.entries d.entries.length 0 (d.entries.length - 1)
    if minI ≠ maxI then []
    else
      let matching := (d.entries.drop minI.toNat).takeWhile fun e => pLen = e.pathLen ∧ strncmp pLen path e.path = 0
      (matching.filter fun e => filter &&& e.mask subdir ≠ 0).map (notifySend action path)

/-- The loop of `notify_trigger` along the path, from the `/` at a place. -/
def triggerFrom (action filter : UInt32) (path : Text) : Option Nat → List NotifyDepth → List NotifyMessage
  | none, _ => []
  | _, [] => []
  | some p, d :: ds =>
    let nextP := (strchr (path.drop (p + 1)) slash).map (· + (p + 1))
    triggerDepth action filter path p nextP.isSome d ++ triggerFrom action filter path nextP ds

/-- `notify_trigger`: the messages it sends. -/
def notifyTrigger (action filter : UInt32) (path : Text) (array : NotifyArray) : List NotifyMessage :=
  triggerFrom action filter path (some 0) array

/-! ## Runs -/

/-- A call by any context. -/
inductive Call
  | add (notify : NotifyContext) (e0 : NotifyEntry) (privateData : Nat)
  | remove (notify : NotifyContext) (privateData : Nat)

/-- The runs from an absent record. -/
def notifySystem : System NotifyState Call where
  init s := s = ⟨[], fun _ => []⟩
  step
    | s, .add notify e0 privateData, s' => ∃ qsort, Qsorts qsort ∧ s' = notifyAdd qsort notify e0 privateData s
    | s, .remove notify privateData, s' => s' = (notifyRemove notify privateData s).2

end Samba.Notify
