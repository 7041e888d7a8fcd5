/-
A lock request that fails gives back what it took. The rollback names its locks by pid and range
only, and an unlock removes a write lock before a read lock, so this holds unless the request took
read locks on a range the handle already held a write lock on: then the write lock goes and the
read lock stays. A request may fail at once, or after waiting for any of its locks.
-/
import Samba.Ntvfs.PvfsLockRuns

namespace Samba.PvfsLock

open List Samba.Brlock Samba.Cluster SharedExclusive Transition

variable {κ : Type}

/-! ## The life of a waiting request -/

/-- The file an event is about. -/
def Event.file : Event κ → Nat
  | .opened id _ | .lock id _ _ _ | .resume id _ _ | .close id => id

/-- A request waits on the file, at this address. -/
def State.Waits (s : State κ) (id addr : Nat) : Prop := ∃ f, s.files id = some f ∧ addr ∈ f.addrs

variable [DecidableEq κ]

/-- A request made in the state `s₀` is waiting in this one. In between nothing else ran on its
file but events of the request itself and cancels that name it or nothing. -/
inductive InFlight (s₀ : State κ) (id : Nat) (lck : SmbLock) (addr : Nat) : State κ → Prop
  | sent {s : State κ} (mayAsync : Bool) : Step s₀ (.lock id lck mayAsync addr) s → s.Waits id addr →
      InFlight s₀ id lck addr s
  | other {s s' : State κ} (e : Event κ) : InFlight s₀ id lck addr s → e.file ≠ id → Step s e s' →
      InFlight s₀ id lck addr s'
  | retried {s s' : State κ} (reason : PvfsWaitNotice) : InFlight s₀ id lck addr s →
      Step s (.resume id addr reason) s' → s'.Waits id addr → InFlight s₀ id lck addr s'
  | cancelled {s s' : State κ} {f : PvfsFile κ} (lck' : SmbLock) (mayAsync : Bool) (addr' : Nat) :
      InFlight s₀ id lck addr s → s.files id = some f → lck'.has lockingAndxCancelLock = true →
      (∀ p, f.pendingList.find? (cancels lck') = some p → p.addr = addr) →
      Step s (.lock id lck' mayAsync addr') s' → s'.Waits id addr → InFlight s₀ id lck addr s'

/-- The locks a request gets before it is refused at once. -/
def gotAtOnce (h : Locked κ) (lck : SmbLock) : List SmbLockEntry :=
  if declined h lck then [] else obtainable h.file (lockMode lck) h.locks lck.locks

/-- A request made in the state `s₀` fails, having got the locks `G`, and leaves the state `s'`. -/
inductive Fails (s₀ : State κ) (id : Nat) (lck : SmbLock) (addr : Nat) : List SmbLockEntry → State κ → Prop
  | atOnce {f : PvfsFile κ} (mayAsync : Bool) : s₀.files id = some f → s₀.Unused f.brl.server addr →
      (pvfsLock (s₀.locked f) lck mayAsync addr).status ≠ .brl .ok →
      Fails s₀ id lck addr (gotAtOnce (s₀.locked f) lck)
        (s₀.put id (pvfsLock (s₀.locked f) lck mayAsync addr).locked)
  | resumed {s : State κ} {f : PvfsFile κ} {p : PvfsPendingLock} (reason : PvfsWaitNotice)
      {status : LockStatus} : InFlight s₀ id lck addr s → s.files id = some f → p ∈ f.pendingList →
      p.addr = addr → (pvfsPendingLockContinue (s.locked f) p reason).2 = some status → status ≠ .brl .ok →
      Fails s₀ id lck addr (lck.locks.take p.pendingLock)
        (s.put id (pvfsPendingLockContinue (s.locked f) p reason).1)
  | cancelled {s : State κ} {f : PvfsFile κ} {p : PvfsPendingLock} (lck' : SmbLock) (mayAsync : Bool)
      (addr' : Nat) {status : LockStatus} : InFlight s₀ id lck addr s → s.files id = some f → p.addr = addr →
      s.Unused f.brl.server addr' →
      (pvfsLock (s.locked f) lck' mayAsync addr').cancelled = some (p, some status) → status ≠ .brl .ok →
      Fails s₀ id lck addr (lck.locks.take p.pendingLock)
        (s.put id (pvfsLock (s.locked f) lck' mayAsync addr').locked)

/-! ## Steps on other files -/

variable {s : State κ} {addr id : Nat} {f : PvfsFile κ} {p : PvfsPendingLock} {h h' : Locked κ}
  {M : Multiset (SmbLockEntry × Mode)} {lck : SmbLock} {mayAsync : Bool} {r : LockResult κ}

/-- An event of another file leaves this file and its grants alone. -/
theorem Step.frame {s' : State κ} {e : Event κ} (hs : WellFormed s) (hstep : Step s e s') (hf : s.files id = some f) (he : e.file ≠ id) :
    s'.files id = some f ∧ ∀ k, grants f.owner (storedLocks (s'.records k)) =
      grants f.owner (storedLocks (s.records k)) := by
  cases hstep with
  | opened j g hid _ _ _ =>
    refine ⟨(put_files_ne s (Ne.symm he) _).trans hf, fun k => ?_⟩
    rw [show (s.put j (s.locked g)).records = s.records from Function.update_eq_self g.key s.records]
  | invalidHandle => exact ⟨hf, fun _ => rfl⟩
  | lock j g lck mayAsync addr hg hunused =>
    have hk := ((pvfsLock_spec (s.locked g) lck mayAsync addr).acts fun p hp => hs.own hg hp).toKeeps
    exact ⟨(put_files_ne s (Ne.symm he) _).trans hf, fun k => (hs.frame hg hk (Ne.symm he) hf k).1⟩
  | resume j g p reason hg hp =>
    have hk := ((pvfsPendingLockContinue_spec (hs.own hg hp) reason).acts hp).toKeeps
    exact ⟨(put_files_ne s (Ne.symm he) _).trans hf, fun k => (hs.frame hg hk (Ne.symm he) hf k).1⟩
  | close j g hg =>
    exact ⟨(remove_files_ne s (Ne.symm he) _).trans hf,
      fun k => (hs.frame hg (pvfsLockClose_keeps _) (Ne.symm he) hf k).1⟩

/-! ## What a waiting request holds -/

/-- The request `lck` of an open file waits, and the file holds the locks it got on top of `M`. -/
structure Midway (s : State κ) (id : Nat) (f : PvfsFile κ) (lck : SmbLock) (addr : Nat)
    (M : Multiset (SmbLockEntry × Mode)) (g : PvfsFile κ) (p : PvfsPendingLock) : Prop where
  file : s.files id = some g
  same : g.brl = f.brl ∧ g.brlHandle.ntvfs = f.brlHandle.ntvfs ∧ g.key = f.key
  mem : p ∈ g.pendingList
  addr : p.addr = addr
  request : p.lck = lck
  grants : (s.locked g).grants = M + taken lck.grantMode (lck.locks.take p.pendingLock)

omit [DecidableEq κ] in
/-- The request at an address of the pending list. -/
theorem pending_unique (hn : f.addrs.Nodup) {q : PvfsPendingLock}
    (hp : p ∈ f.pendingList) (hq : q ∈ f.pendingList) (h : p.addr = q.addr) : p = q :=
  inj_on_of_nodup_map hn hp hq h

omit [DecidableEq κ] in
theorem Effect.addrs {G : Multiset (SmbLockEntry × Mode)} {W : Multiset Nat} {n : Int}
    {ps : List PvfsPendingLock} (he : Effect h h' G W n ps) : h'.file.addrs = ps.map (·.addr) := by
  unfold PvfsFile.addrs
  rw [he.pendings]

theorem taken_append (mode : Mode) (xs ys : List SmbLockEntry) :
    taken mode (xs ++ ys) = taken mode xs + taken mode ys := by
  simp [taken]

theorem take_of_drop {es G rest : List SmbLockEntry} {i : Nat} (h : es.drop i = G ++ rest) :
    es.take (i + G.length) = es.take i ++ G := by
  rw [take_add, h, take_left]

omit [DecidableEq κ] in
/-- A request that goes on from index `i` and still waits holds the locks before the one it now
waits for. -/
theorem Proceeds.midway {i : Nat} {sent : Option LockStatus} (hproc : Proceeds h p i h' sent)
    (hG : h.grants = M + taken p.lck.grantMode (p.lck.locks.take i))
    (hnot : p.addr ∉ h.file.addrs) (hwaits : p.addr ∈ h'.file.addrs) :
    ∃ p' ∈ h'.file.pendingList, p'.addr = p.addr ∧ p'.lck = p.lck ∧
      h'.grants = M + taken p.lck.grantMode (p.lck.locks.take p'.pendingLock) := by
  cases hproc with
  | finished _ heff =>
    rw [heff.addrs] at hwaits
    exact absurd hwaits hnot
  | @waits G rest e hdrop heff =>
    refine ⟨{ p with pendingLock := i + G.length }, ?_, rfl, rfl, ?_⟩
    · rw [heff.pendings]
      exact mem_cons_self ..
    · rw [heff.grants, hG, take_of_drop hdrop, taken_append, Multiset.add_assoc]

omit [DecidableEq κ] in
/-- A continuation after which the request still waits. -/
theorem Continues.midway {reason : PvfsWaitNotice} {sent : Option LockStatus} (hc : Continues h p reason h' sent)
    (hp : p ∈ h.file.pendingList) (hn : h.file.addrs.Nodup)
    (hG : h.grants = M + taken p.lck.grantMode (p.lck.locks.take p.pendingLock))
    (hwaits : p.addr ∈ h'.file.addrs) :
    ∃ p' ∈ h'.file.pendingList, p'.addr = p.addr ∧ p'.lck = p.lck ∧
      h'.grants = M + taken p.lck.grantMode (p.lck.locks.take p'.pendingLock) := by
  have hgone : p.addr ∉ (h.file.pendingList.eraseP (·.addr == p.addr)).map (·.addr) := by
    rw [addrs_eraseP]
    exact hn.not_mem_erase
  cases hc with
  | outside _ => exact ⟨p, hp, rfl, rfl, hG⟩
  | again _ heff =>
    refine ⟨p, ?_, rfl, rfl, heff.grants.trans hG⟩
    rw [heff.pendings]
    exact mem_cons_self ..
  | failed _ _ _ _ heff =>
    rw [heff.addrs] at hwaits
    exact absurd hwaits hgone
  | @granted h₁ _ e _ he _ heff hproc =>
    obtain ⟨hi, he'⟩ := List.getElem?_eq_some_iff.mp he
    refine hproc.midway ?_ ?_ hwaits
    · rw [heff.grants, hG, take_succ_eq_append_getElem hi, he', taken_append, ← Multiset.add_assoc,
        Multiset.add_comm _ (taken _ [e])]
      rfl
    · rw [heff.addrs]
      exact hgone

omit [DecidableEq κ] in
theorem Requests.midway (hr : Requests h lck mayAsync addr r) (hul : lck.ulocks = [])
    (hown : ∀ p ∈ h.file.pendingList, h.Own p.addr)
    (hnot : addr ∉ h.file.addrs) (hwaits : addr ∈ r.locked.file.addrs) :
    ∃ p ∈ r.locked.file.pendingList, p.addr = addr ∧ p.lck = lck ∧
      r.locked.grants = h.grants + taken lck.grantMode (lck.locks.take p.pendingLock) := by
  have hun : unlockLoop lck.ulocks h = (.ok, h) := by rw [hul]; rfl
  cases hr with
  | rejected _ _ => exact absurd hwaits hnot
  | cancelled _ hfind =>
    have hmem := mem_of_find?_eq_some hfind
    have hacts := (pvfsPendingLockContinue_spec (hown _ hmem) .timeout).acts hmem
    exact absurd (hacts.addrs.subset hwaits) hnot
  | unlockFailed hs _ =>
    rw [hun] at hs
    exact absurd rfl hs
  | proceeds _ _ hproc =>
    rw [hun] at hproc
    refine hproc.midway ?_ hnot hwaits
    simp [taken]
  | got h₁ _ heff =>
    rw [hun] at h₁
    subst h₁
    rw [heff.addrs] at hwaits
    exact absurd hwaits hnot
  | refused h₁ _ _ _ _ _ heff =>
    rw [hun] at h₁
    subst h₁
    rw [heff.addrs] at hwaits
    exact absurd hwaits hnot

omit [DecidableEq κ] in
/-- A cancel request that names this request or nothing. -/
theorem Requests.cancel_midway (hr : Requests h lck mayAsync addr r)
    (hcancel : lck.has lockingAndxCancelLock = true) (hown : h.Own p.addr) (hn : h.file.addrs.Nodup)
    (hp : p ∈ h.file.pendingList)
    (hnames : ∀ q, h.file.pendingList.find? (cancels lck) = some q → q = p)
    (hG : h.grants = M + taken p.lck.grantMode (p.lck.locks.take p.pendingLock))
    (hwaits : p.addr ∈ r.locked.file.addrs) :
    ∃ p' ∈ r.locked.file.pendingList, p'.addr = p.addr ∧ p'.lck = p.lck ∧
      r.locked.grants = M + taken p.lck.grantMode (p.lck.locks.take p'.pendingLock) := by
  cases hr with
  | rejected _ _ => exact ⟨p, hp, rfl, rfl, hG⟩
  | cancelled _ hfind =>
    obtain rfl := hnames _ hfind
    exact (pvfsPendingLockContinue_spec hown .timeout).midway hp hn hG hwaits
  | unlockFailed _ hnot =>
    rw [not_cancel hnot] at hcancel
    cases hcancel
  | proceeds _ hnot _ =>
    rw [not_cancel hnot] at hcancel
    cases hcancel
  | got _ hnot _ =>
    rw [not_cancel hnot] at hcancel
    cases hcancel
  | refused _ _ hnot _ _ _ _ =>
    rw [not_cancel hnot] at hcancel
    cases hcancel

theorem put_locked (s : State κ) (id : Nat) (h : Locked κ) : (s.put id h).locked h.file = h := by
  rw [State.locked, put_records_self]

theorem State.Waits.put (hw : (s.put id h).Waits id addr) : addr ∈ h.file.addrs := by
  obtain ⟨f, hf, hmem⟩ := hw
  rw [put_files_self] at hf
  cases hf
  exact hmem

/-- The state after a call that leaves the request waiting. -/
theorem Midway.put {g : PvfsFile κ} (hsame : g.brl = f.brl ∧ g.brlHandle.ntvfs = f.brlHandle.ntvfs ∧ g.key = f.key)
    (hk : Keeps (s.locked g) h')
    (hp : ∃ p ∈ h'.file.pendingList, p.addr = addr ∧ p.lck = lck ∧
      h'.grants = M + taken lck.grantMode (lck.locks.take p.pendingLock)) :
    ∃ g' p, Midway (s.put id h') id f lck addr M g' p := by
  obtain ⟨p, hmem, haddr, hlck, hG⟩ := hp
  obtain ⟨hb, hn, hkey⟩ := hsame
  exact ⟨h'.file, p, put_files_self s id h', ⟨hk.brl.trans hb, hk.ntvfs.trans hn, hk.key.trans hkey⟩, hmem,
    haddr, hlck, by rw [put_locked]; exact hG⟩

/-- All the time it waits, a request holds the locks before the one it waits for, on top of what
its handle held before. -/
theorem InFlight.midway {s₀ : State κ}
    (h₀ : (pvfsSystem κ).Reachable s₀) (hf : s₀.files id = some f) (hul : lck.ulocks = [])
    (h : InFlight s₀ id lck addr s) :
    (pvfsSystem κ).Reachable s ∧ ∃ g p, Midway s id f lck addr (s₀.locked f).grants g p := by
  induction h with
  | sent mayAsync hstep hwaits =>
    refine ⟨h₀.step _ hstep, ?_⟩
    have hs := wellFormed h₀
    cases hstep with
    | invalidHandle _ _ _ _ hnone =>
      rw [hf] at hnone
      cases hnone
    | lock _ f' _ _ _ hf' hunused =>
      rw [hf] at hf'
      cases hf'
      have hown : ∀ p ∈ f.pendingList, (s₀.locked f).Own p.addr := fun p hp => hs.own hf hp
      have hspec := pvfsLock_spec (s₀.locked f) lck mayAsync addr
      have hnot : addr ∉ f.addrs := by
        intro hmem
        obtain ⟨q, hq, hqa⟩ := mem_map.mp hmem
        exact hunused.2 id f hf rfl q hq hqa
      exact Midway.put ⟨rfl, rfl, rfl⟩ (hspec.acts hown).toKeeps (hspec.midway hul hown hnot hwaits.put)
  | other e _ he hstep ih =>
    obtain ⟨hr, g, p, hm⟩ := ih
    obtain ⟨hfile, hG⟩ := hstep.frame (wellFormed hr) hm.file he
    exact ⟨hr.step _ hstep, g, p, hfile, hm.same, hm.mem, hm.addr, hm.request, (hG g.key).trans hm.grants⟩
  | retried reason _ hstep hwaits ih =>
    obtain ⟨hr, g, p, hm⟩ := ih
    refine ⟨hr.step _ hstep, ?_⟩
    have hs := wellFormed hr
    cases hstep with
    | resume _ g' p' _ hg' hp' =>
      rw [hm.file] at hg'
      cases hg'
      obtain rfl := pending_unique (hs.nodup _ _ hm.file) hm.mem hp' hm.addr
      have hspec := pvfsPendingLockContinue_spec (hs.own hm.file hp') reason
      have hmid := hspec.midway hp' (hs.nodup _ _ hm.file) (by rw [hm.request]; exact hm.grants) hwaits.put
      rw [hm.request] at hmid
      exact Midway.put hm.same (hspec.acts hp').toKeeps hmid
  | @cancelled s s' g' lck' mayAsync addr' _ hg' hcancel hnames hstep hwaits ih =>
    obtain ⟨hr, g, p, hm⟩ := ih
    refine ⟨hr.step _ hstep, ?_⟩
    have hs := wellFormed hr
    rw [hm.file] at hg'
    cases hg'
    cases hstep with
    | invalidHandle _ _ _ _ hnone =>
      rw [hm.file] at hnone
      cases hnone
    | lock _ g' _ _ _ hg' hunused =>
      rw [hm.file] at hg'
      cases hg'
      obtain rfl := hm.addr
      obtain rfl := hm.request
      have hspec := pvfsLock_spec (s.locked g') lck' mayAsync addr'
      have hown : ∀ q ∈ g'.pendingList, (s.locked g').Own q.addr := fun q hq => hs.own hm.file hq
      refine Midway.put hm.same (hspec.acts hown).toKeeps
        (hspec.cancel_midway hcancel (hown p hm.mem) (hs.nodup _ _ hm.file) hm.mem ?_ hm.grants hwaits.put)
      intro q hfind
      exact pending_unique (hs.nodup _ _ hm.file) (mem_of_find?_eq_some hfind) hm.mem (hnames q hfind)

/-! ## Failure -/

omit [DecidableEq κ] in
theorem undone_perm {protocol : Protocol} (hp : protocol ≠ .smb2) (locks : List SmbLockEntry) (i : Nat) :
    (undone protocol locks i).Perm (locks.take i) := by
  unfold undone
  rw [if_neg hp]
  exact reverse_perm _

omit [DecidableEq κ] in
/-- A continuation that fails undoes exactly the locks the request got. -/
theorem Continues.fails {reason : PvfsWaitNotice} {status : LockStatus} (hc : Continues h p reason h' (some status))
    (hstatus : status ≠ .brl .ok) (hprotocol : h.file.protocol ≠ .smb2) (hn : h.file.addrs.Nodup)
    (hq : h.Queued) (hG : h.grants = M + taken p.lck.grantMode (p.lck.locks.take p.pendingLock)) :
    Keeps h h' ∧ p.addr ∉ h'.waiters ∧
      (h'.grants = M ↔ (p.lck.grantMode = .shared → ∀ e ∈ p.lck.locks.take p.pendingLock,
        (e, Mode.exclusive) ∉ M)) := by
  cases hc with
  | failed _ _ _ _ heff =>
    refine ⟨heff.toKeeps, ?_, ?_⟩
    · rw [heff.waiters, hq, Multiset.coe_erase, Multiset.mem_coe]
      exact hn.not_mem_erase
    · rw [heff.grants, hG]
      exact releaseAll_taken_iff M _ (undone_perm hprotocol _ _)
  | granted _ _ _ hproc =>
    cases hproc with
    | finished _ _ => exact absurd rfl hstatus

omit [DecidableEq κ] in
/-- A request that fails at once undoes exactly the locks it got. -/
theorem Requests.fails (hr : Requests h lck mayAsync addr r) (hul : lck.ulocks = []) (hstatus : r.status ≠ .brl .ok)
    (hprotocol : h.file.protocol ≠ .smb2) (hq : h.Queued) (hnot : addr ∉ h.file.addrs) :
    Keeps h r.locked ∧ addr ∉ r.locked.waiters ∧
      (r.locked.grants = h.grants ↔ (lck.grantMode = .shared → ∀ e ∈ gotAtOnce h lck,
        (e, Mode.exclusive) ∉ h.grants)) := by
  have hun : unlockLoop lck.ulocks h = (.ok, h) := by rw [hul]; rfl
  have hwait : addr ∉ h.waiters := by
    rw [hq]
    exact hnot
  cases hr with
  | rejected _ hdeclined =>
    refine ⟨.refl h, hwait, iff_of_true rfl ?_⟩
    rw [gotAtOnce, if_pos hdeclined]
    exact fun _ e he => (nomatch he)
  | cancelled _ _ => exact absurd rfl hstatus
  | unlockFailed hs _ =>
    rw [hun] at hs
    exact absurd rfl hs
  | proceeds _ _ _ => exact absurd rfl hstatus
  | got _ _ _ => exact absurd rfl hstatus
  | refused h₁ _ hdeclined hG hlocks _ heff =>
    rw [hun] at h₁
    subst h₁
    refine ⟨heff.toKeeps, by rw [heff.waiters]; exact hwait, ?_⟩
    rw [heff.grants, gotAtOnce, hdeclined, if_neg (by decide), ← hG]
    refine releaseAll_taken_iff _ _ ((undone_perm hprotocol _ _).trans ?_)
    rw [hlocks, take_left]

omit [DecidableEq κ] in
theorem grantMode_shared (lck : SmbLock) : lck.grantMode = .shared ↔ lck.has lockingAndxSharedLock = true := by
  unfold SmbLock.grantMode lockMode
  split
  · rename_i h
    exact iff_of_true rfl h
  · rename_i h
    exact iff_of_false (by decide) h

theorem put_record {s : State κ} {id : Nat} {f g : PvfsFile κ} {h' : Locked κ}
    (hsame : g.brl = f.brl ∧ g.brlHandle.ntvfs = f.brlHandle.ntvfs ∧ g.key = f.key)
    (hk : Keeps (s.locked g) h') :
    grants f.owner (storedLocks ((s.put id h').records f.key)) = h'.grants ∧
      waiters f.owner (storedLocks ((s.put id h').records f.key)) = h'.waiters := by
  obtain ⟨hb, hn, hkey⟩ := hsame
  have ho : h'.file.owner = f.owner := hk.owner.trans (by
    simp only [State.locked, PvfsFile.owner, hb, hn])
  have hk' : f.key = h'.file.key := (hk.key.trans hkey).symm
  rw [hk', put_records_self, ← ho]
  exact ⟨rfl, rfl⟩

/-- A continuation of the waiting request that fails. -/
theorem InFlight.fails {s₀ : State κ} (h₀ : (pvfsSystem κ).Reachable s₀) {g : PvfsFile κ}
    (hf : s₀.files id = some f) (hprotocol : f.protocol ≠ .smb2) (hul : lck.ulocks = []) (hflight : InFlight s₀ id lck addr s) (hg : s.files id = some g)
    (hp : p ∈ g.pendingList) (haddr : p.addr = addr) (reason : PvfsWaitNotice) {status : LockStatus}
    (hsent : (pvfsPendingLockContinue (s.locked g) p reason).2 = some status) (hstatus : status ≠ .brl .ok) :
    (grants f.owner (storedLocks ((s.put id (pvfsPendingLockContinue (s.locked g) p reason).1).records f.key)) =
        grants f.owner (storedLocks (s₀.records f.key)) ∧
      addr ∉ waiters f.owner
        (storedLocks ((s.put id (pvfsPendingLockContinue (s.locked g) p reason).1).records f.key))) ↔
    (lck.grantMode = .shared → ∀ e ∈ lck.locks.take p.pendingLock,
      (e, Mode.exclusive) ∉ grants f.owner (storedLocks (s₀.records f.key))) := by
  obtain ⟨hr, g', p', hm⟩ := hflight.midway h₀ hf hul
  have hs := wellFormed hr
  have hfile := hm.file
  rw [hg] at hfile
  cases hfile
  obtain rfl := pending_unique (hs.nodup _ _ hg) hp hm.mem (haddr.trans hm.addr.symm)
  have hspec := pvfsPendingLockContinue_spec (hs.own hg hp) reason
  rw [hsent] at hspec
  obtain rfl := hm.request
  have hp' : (s.locked g).file.protocol ≠ .smb2 := by
    simpa only [State.locked, PvfsFile.protocol, hm.same.2.1] using hprotocol
  obtain ⟨hk, hwait, hiff⟩ := hspec.fails hstatus hp' (hs.nodup _ _ hg) (hs.queued _ _ hg) hm.grants
  obtain ⟨hG, hW⟩ := @put_record _ _ s id f g _ hm.same hk
  rw [hG, hW, ← haddr, and_iff_left hwait]
  exact hiff

/-- A request without unlocks, of a protocol other than SMB2, that fails has left nothing waiting;
and the handle's granted locks are what they were exactly where the request was for exclusive locks
or got none on a range the handle held a write lock on. -/
theorem failed_lock_restores_iff {s₀ s' : State κ} (h₀ : (pvfsSystem κ).Reachable s₀) {id : Nat}
    {f : PvfsFile κ} (hf : s₀.files id = some f) (hprotocol : f.protocol ≠ .smb2) {lck : SmbLock}
    (hul : lck.ulocks = []) {addr : Nat} {G : List SmbLockEntry} (h : Fails s₀ id lck addr G s') :
    (grants f.owner (storedLocks (s'.records f.key)) = grants f.owner (storedLocks (s₀.records f.key)) ∧
      addr ∉ waiters f.owner (storedLocks (s'.records f.key))) ↔
    (lck.has lockingAndxSharedLock = true → ∀ e ∈ G,
      (e, Mode.exclusive) ∉ grants f.owner (storedLocks (s₀.records f.key))) := by
  rw [← grantMode_shared]
  have hs₀ := wellFormed h₀
  cases h with
  | @atOnce f' mayAsync hf' hunused hstatus =>
    rw [hf] at hf'
    cases hf'
    have hown : ∀ p ∈ f.pendingList, (s₀.locked f).Own p.addr := fun p hp => hs₀.own hf hp
    have hnot : addr ∉ f.addrs := by
      intro hmem
      obtain ⟨q, hq, hqa⟩ := mem_map.mp hmem
      exact hunused.2 id f hf rfl q hq hqa
    obtain ⟨hk, hwait, hiff⟩ := (pvfsLock_spec (s₀.locked f) lck mayAsync addr).fails hul hstatus hprotocol
      (hs₀.queued _ _ hf) hnot
    obtain ⟨hG, hW⟩ := @put_record _ _ s₀ id f f _ ⟨rfl, rfl, rfl⟩ hk
    rw [hG, hW, and_iff_left hwait]
    exact hiff
  | @resumed s g p reason status hflight hg hp haddr hsent hstatus =>
    exact hflight.fails h₀ hf hprotocol hul hg hp haddr reason hsent hstatus
  | @cancelled s g p lck' mayAsync addr' status hflight hg haddr hunused hsent hstatus =>
    have hspec := pvfsLock_spec (s.locked g) lck' mayAsync addr'
    generalize pvfsLock (s.locked g) lck' mayAsync addr' = r at hspec hsent
    cases hspec with
    | cancelled _ hfind =>
      simp only [Option.some.injEq, Prod.mk.injEq] at hsent
      obtain ⟨rfl, hsent⟩ := hsent
      exact hflight.fails h₀ hf hprotocol hul hg (mem_of_find?_eq_some hfind) haddr .timeout hsent hstatus
    | rejected _ _ => cases hsent
    | unlockFailed _ _ => cases hsent
    | proceeds _ _ _ => cases hsent
    | got _ _ _ => cases hsent
    | refused _ _ _ _ _ _ _ => cases hsent

/-- A request for two shared locks that does not wait. -/
def sharedLocks (offset₁ offset₂ : UInt64) : SmbLock := ⟨1, 0, [], [⟨0, offset₁, 1⟩, ⟨0, offset₂, 1⟩]⟩

/-- The first of two handles, after it asked for a shared lock on this range and one on a range
the second handle has locked. -/
def sharedRefused (offset : UInt64) : Locked Unit :=
  (pvfsLock ((bothLocked .nt1).locked (firstLocked .nt1).file) (sharedLocks offset 10) false 1).locked

theorem sharedRefused_fails (offset : UInt64)
    (hs : (pvfsLock ((bothLocked .nt1).locked (firstLocked .nt1).file) (sharedLocks offset 10) false 1).status ≠
      .brl .ok) :
    Fails (bothLocked .nt1) 0 (sharedLocks offset 10) 1
      (gotAtOnce ((bothLocked .nt1).locked (firstLocked .nt1).file) (sharedLocks offset 10))
      ((bothLocked .nt1).put 0 (sharedRefused offset)) :=
  .atOnce false rfl ((bothLocked_reachable .nt1).2.unused _ (by decide)) hs

theorem failed_lock_restores_unlocked :
    grants (firstLocked .nt1).file.owner (storedLocks (((bothLocked .nt1).put 0 (sharedRefused 5)).records ())) =
        grants (firstLocked .nt1).file.owner (storedLocks ((bothLocked .nt1).records ())) ∧
      1 ∉ waiters (firstLocked .nt1).file.owner
        (storedLocks (((bothLocked .nt1).put 0 (sharedRefused 5)).records ())) :=
  (@failed_lock_restores_iff _ _ _ _ (bothLocked_reachable .nt1).1 0 (firstLocked .nt1).file rfl (by decide)
    (sharedLocks 5 10) rfl 1 _ (sharedRefused_fails 5 (by decide))).mpr (by decide)

/-- The handle's write lock is gone, and a read lock it does not know of is in its place. -/
theorem failed_lock_swaps :
    ∃ (s₀ s' : State Unit) (f : PvfsFile Unit) (lck : SmbLock) (addr : Nat) (G : List SmbLockEntry),
      (pvfsSystem Unit).Reachable s₀ ∧ s₀.files 0 = some f ∧ f.protocol ≠ .smb2 ∧ lck.ulocks = [] ∧
      Fails s₀ 0 lck addr G s' ∧
      grants f.owner (storedLocks (s₀.records f.key)) = {(⟨0, 0, 1⟩, .exclusive)} ∧
      grants f.owner (storedLocks (s'.records f.key)) = {(⟨0, 0, 1⟩, .shared)} :=
  ⟨bothLocked .nt1, (bothLocked .nt1).put 0 (sharedRefused 0), (firstLocked .nt1).file, sharedLocks 0 10, 1, _,
    (bothLocked_reachable .nt1).1, rfl, by decide, rfl, sharedRefused_fails 0 (by decide),
    by decide, by decide⟩

end Samba.PvfsLock
