/-
Cancelling a pending lock request: the search of `pvfs_lock_cancel` (ntvfs/posix/pvfs_lock.c) with
its comparison of the entries, unlocks and locks in one array, what the early timeout does to the
request it picks, and when that is the request the cancel names.
-/
import Samba.Ntvfs.PvfsLockClose
import Samba.Ntvfs.PvfsLockRollback

namespace Samba.PvfsLock

open Bool List Samba.Brlock Samba.Cluster SharedExclusive Transition

variable {κ : Type}

/-! ## The search -/

/-- `lockx.in.locks`: the unlocks, then the locks. -/
def SmbLock.entries (lck : SmbLock) : List SmbLockEntry := lck.ulocks ++ lck.locks

/-- The index `i` with which the loop over the entries of a cancel ends: that of the first entry in
which the pending request differs, or their number. -/
def comparedEntries : List SmbLockEntry → List SmbLockEntry → Nat
  | e :: entries, e' :: entries' =>
    if e'.pid ≠ e.pid ∨ e'.offset ≠ e.offset ∨ e'.count ≠ e.count then 0
    else comparedEntries entries entries' + 1
  | _, _ => 0

/-- The tests of `pvfs_lock_cancel` on one pending request, in the source's order. `file` is the
handle of the cancel, `fileOf` that of each pending request. -/
def cancelPicks (fileOf : PvfsPendingLock → Nat) (file : Nat) (lck : SmbLock) (p : PvfsPendingLock) :
    Bool :=
  p.lck.ulocks.length == lck.ulocks.length && p.lck.locks.length == lck.locks.length &&
    fileOf p == file && p.lck.mode == (lck.mode &&& ~~~lockingAndxCancelLock) &&
    !decide (comparedEntries lck.entries p.lck.entries < lck.ulocks.length)

/-- `pvfs_lock_cancel` over the handles of the requests. -/
def pvfsLockCancelOn (fileOf : PvfsPendingLock → Nat) (file : Nat) (h : Locked κ) (lck : SmbLock) :
    LockResult κ :=
  match h.file.pendingList.find? (cancelPicks fileOf file lck) with
  | none => ⟨.cancelViolation, h, none⟩
  | some p =>
    let (h, sent) := pvfsPendingLockContinue h p .timeout
    ⟨.brl .ok, h, some (p, sent)⟩

/-- The match the source's comment speaks of: handle, counts, mode and every entry. -/
def matchesExactly (fileOf : PvfsPendingLock → Nat) (file : Nat) (lck : SmbLock) (p : PvfsPendingLock) :
    Bool :=
  p.lck.ulocks.length == lck.ulocks.length && p.lck.locks.length == lck.locks.length &&
    fileOf p == file && p.lck.mode == (lck.mode &&& ~~~lockingAndxCancelLock) &&
    p.lck.entries == lck.entries

theorem entry_differs_iff (e e' : SmbLockEntry) :
    e'.pid ≠ e.pid ∨ e'.offset ≠ e.offset ∨ e'.count ≠ e.count ↔ e' ≠ e := by
  obtain ⟨pid, offset, count⟩ := e
  obtain ⟨pid', offset', count'⟩ := e'
  simp only [ne_eq, SmbLockEntry.mk.injEq]
  constructor
  · rintro (h | h | h) ⟨h₁, h₂, h₃⟩ <;> contradiction
  · intro h
    by_contra hall
    push Not at hall
    exact h hall

/-- The loop gets past the first `n` entries exactly when these agree. -/
theorem le_comparedEntries_iff {entries entries' : List SmbLockEntry} {n : Nat}
    (hn : n ≤ entries.length) (hlen : entries'.length = entries.length) :
    n ≤ comparedEntries entries entries' ↔ entries'.take n = entries.take n := by
  induction entries generalizing entries' n with
  | nil =>
    simp only [length_nil, Nat.le_zero_eq] at hn
    simp [hn]
  | cons e rest ih =>
    obtain _ | ⟨e', rest'⟩ := entries'
    · cases hlen
    simp only [length_cons, Nat.add_right_cancel_iff] at hlen
    obtain _ | n := n
    · simp
    simp only [length_cons, Nat.add_le_add_iff_right] at hn
    by_cases he : e' = e
    · subst he
      have hsame : comparedEntries (e' :: rest) (e' :: rest') = comparedEntries rest rest' + 1 := by
        simp [comparedEntries]
      rw [hsame, Nat.add_le_add_iff_right, ih hn hlen]
      simp
    · have hzero : comparedEntries (e :: rest) (e' :: rest') = 0 := by
        rw [comparedEntries, if_pos ((entry_differs_iff e e').mpr he)]
      rw [hzero]
      simp [he]

/-- What the search looks at is the unlocks alone. -/
theorem cancelPicks_eq (fileOf : PvfsPendingLock → Nat) (file : Nat) (lck : SmbLock) (p : PvfsPendingLock) :
    cancelPicks fileOf file lck p = (fileOf p == file && cancels lck p) := by
  unfold cancelPicks cancels
  by_cases hu : p.lck.ulocks.length = lck.ulocks.length
  · by_cases hl : p.lck.locks.length = lck.locks.length
    · have hlen : p.lck.entries.length = lck.entries.length := by
        simp [SmbLock.entries, hu, hl]
      have hn : lck.ulocks.length ≤ lck.entries.length := by
        simp [SmbLock.entries]
      have hcmp := le_comparedEntries_iff hn hlen
      have htake : p.lck.entries.take lck.ulocks.length = p.lck.ulocks := by
        rw [SmbLock.entries, ← hu, take_left]
      rw [htake, SmbLock.entries, take_left] at hcmp
      have hloop : (!decide (comparedEntries lck.entries p.lck.entries < lck.ulocks.length)) =
          (p.lck.ulocks == lck.ulocks) := by
        rw [Bool.eq_iff_iff]
        simp only [not_eq_true', decide_eq_false_iff_not, Nat.not_lt, beq_iff_eq]
        exact hcmp
      rw [hloop]
      simp [hu, hl, Bool.and_comm, Bool.and_left_comm]
    · simp [beq_false_of_ne hl]
  · simp [beq_false_of_ne hu]

/-- All pending requests of a file were made on its handle, so the search is that of `pvfs_lock_cancel` on the file. -/
theorem pvfsLockCancelOn_eq {fileOf : PvfsPendingLock → Nat} {file : Nat} {h : Locked κ}
    (hfile : ∀ p ∈ h.file.pendingList, fileOf p = file) (lck : SmbLock) :
    pvfsLockCancelOn fileOf file h lck = pvfsLockCancel h lck := by
  have hfind : h.file.pendingList.find? (cancelPicks fileOf file lck) = h.file.pendingList.find? (cancels lck) := by
    refine find?_congr fun p hp => ?_
    rw [cancelPicks_eq, hfile p hp]
    simp
  unfold pvfsLockCancelOn pvfsLockCancel
  cases hfound : h.file.pendingList.find? (cancels lck) with
  | none => simp only [hfind, hfound]
  | some p => simp only [hfind, hfound]

/-- An exact match is picked, and what is picked matches exactly if its locks agree too. -/
theorem matchesExactly_iff (fileOf : PvfsPendingLock → Nat) (file : Nat) (lck : SmbLock)
    (p : PvfsPendingLock) :
    matchesExactly fileOf file lck p = true ↔
      cancelPicks fileOf file lck p = true ∧ p.lck.locks = lck.locks := by
  rw [cancelPicks_eq]
  unfold matchesExactly cancels SmbLock.entries
  simp only [and_eq_true, beq_iff_eq]
  constructor
  · rintro ⟨⟨⟨⟨hu, hl⟩, hf⟩, hm⟩, he⟩
    obtain ⟨he₁, he₂⟩ := append_inj he hu
    exact ⟨⟨hf, ⟨⟨hu, hl⟩, hm⟩, he₁⟩, he₂⟩
  · rintro ⟨⟨hf, ⟨⟨hu, hl⟩, hm⟩, he₁⟩, he₂⟩
    exact ⟨⟨⟨⟨hu, hl⟩, hf⟩, hm⟩, by rw [he₁, he₂]⟩

/-! ## The retry -/

/-- The locks a pending request still lacks. -/
def PvfsPendingLock.missing (p : PvfsPendingLock) : List SmbLockEntry := p.lck.locks.drop p.pendingLock

/-- Retried now, the request gets none of the locks it still lacks, or all of them. -/
def Locked.Settles (h : Locked κ) (p : PvfsPendingLock) : Prop :=
  obtainable h.file (lockMode p.lck) h.locks p.missing = [] ∨
    obtainable h.file (lockMode p.lck) h.locks p.missing = p.missing

instance (h : Locked κ) (p : PvfsPendingLock) : Decidable (h.Settles p) :=
  inferInstanceAs (Decidable (_ ∨ _))

/-- Two arrays of entries that refuse the same requests. -/
def SameRefusals (f : PvfsFile κ) (rw : BrlType) (locks locks' : List LockStruct) : Prop :=
  ∀ e, refused f rw locks e = refused f rw locks' e

variable {f : PvfsFile κ} {rw : BrlType} {locks : List LockStruct}

theorem SameRefusals.append {locks' : List LockStruct} (h : SameRefusals f rw locks locks') (lock : LockStruct) :
    SameRefusals f rw (locks ++ [lock]) (locks' ++ [lock]) := by
  intro e
  have he := h e
  unfold refused at he ⊢
  rw [any_append, any_append, he]

theorem obtainable_of_sameRefusals {locks' : List LockStruct}
    (h : SameRefusals f rw locks locks') (es : List SmbLockEntry) :
    obtainable f rw locks es = obtainable f rw locks' es := by
  induction es generalizing locks locks' with
  | nil => rfl
  | cons e rest ih =>
    simp only [obtainable, h e]
    rw [ih (h.append _)]

theorem brlTdbConflict_pending {lock : LockStruct} (hp : lock.lockType.isPending = true) (lock' : LockStruct) :
    brlTdbConflict lock lock' = false := by
  simp [brlTdbConflict, hp]

theorem refused_eraseIdx {i : Nat} (hp : ∀ lock, locks[i]? = some lock → lock.lockType.isPending = true) :
    SameRefusals f rw (locks.eraseIdx i) locks := by
  intro e
  unfold refused
  by_cases hi : i < locks.length
  · have hlock := hp locks[i] (List.getElem?_eq_getElem hi)
    have hsplit : locks = locks.take i ++ locks[i] :: locks.drop (i + 1) := by
      rw [getElem_cons_drop, take_append_drop]
    have hany := congrArg (List.any · (brlTdbConflict · (wanted f e rw))) hsplit
    simp only [any_append, any_cons, brlTdbConflict_pending hlock, Bool.false_or] at hany
    rw [eraseIdx_eq_take_drop_succ, any_append, hany]
  · rw [eraseIdx_of_length_le (Nat.le_of_not_lt hi)]

theorem brlRemovePending_sameRefusals (h : Locked κ) (ptr : Nat) (f : PvfsFile κ) (rw : BrlType) :
    SameRefusals f rw (brlRemovePending h ptr).locks h.locks := by
  obtain ⟨g, record⟩ := h
  obtain _ | locks := record
  · exact fun _ => rfl
  cases hpos : locks.findIdx? fun lock => lock.lockType.isPending && lock.notifyPtr == ptr &&
      clusterIdEqual lock.context.server g.brl.server with
  | none =>
    have heq : brlRemovePending ⟨g, some locks⟩ ptr = ⟨g, some locks⟩ := by
      simp only [brlRemovePending, brlTdbRemovePending, hpos]
    rw [heq]
    exact fun _ => rfl
  | some i =>
    obtain ⟨hi, hlock, -⟩ := List.findIdx?_eq_some_iff_getElem.mp hpos
    have hlocks : (brlRemovePending ⟨g, some locks⟩ ptr).locks = locks.eraseIdx i := by
      simp only [brlRemovePending, brlTdbRemovePending, hpos, Locked.locks]
      split
      · have hnil : (locks.eraseIdx i).length = 0 := by
          rw [length_eraseIdx_of_lt hi]
          omega
        exact (length_eq_zero_iff.mp hnil).symm
      · rfl
    rw [hlocks]
    refine refused_eraseIdx fun lock hl => ?_
    rw [List.getElem?_eq_getElem hi, Option.some.injEq] at hl
    subst hl
    simp only [and_eq_true] at hlock
    exact hlock.1.1

/-- What a timeout does to the request `p` of a file: it is answered and off the list, or back on it
waiting for a later lock. -/
inductive TimesOut (h : Locked κ) (p : PvfsPendingLock) (r : Locked κ × Option LockStatus) : Prop
  | answered {status : LockStatus} : h.Settles p → r.2 = some status →
      r.1.file.pendingList = h.file.pendingList.eraseP (·.addr == p.addr) → TimesOut h p r
  | waits {q : PvfsPendingLock} : ¬h.Settles p → r.2 = none → q.addr = p.addr →
      p.pendingLock < q.pendingLock →
      r.1.file.pendingList = q :: h.file.pendingList.eraseP (·.addr == p.addr) → TimesOut h p r

theorem finishPending_cases (h : Locked κ) (p : PvfsPendingLock) (i : Nat) :
    (∃ status, obtainable h.file (lockMode p.lck) h.locks (p.lck.locks.drop i) = p.lck.locks.drop i ∧
      (finishPending h p i).2 = some status ∧
      (finishPending h p i).1.file.pendingList = h.file.pendingList) ∨
    (∃ q : PvfsPendingLock, obtainable h.file (lockMode p.lck) h.locks (p.lck.locks.drop i) ≠ p.lck.locks.drop i ∧
      (finishPending h p i).2 = none ∧ q.addr = p.addr ∧ i ≤ q.pendingLock ∧
      (finishPending h p i).1.file.pendingList = q :: h.file.pendingList) := by
  have hspec := @lockLoop_spec _ (pendingMode p.lck) p.addr (.inl (pendingMode_isPending _))
    (p.lck.locks.drop i) i h
  rw [realType_pendingMode] at hspec
  unfold finishPending
  cases hloop : lockLoop (pendingMode p.lck) p.addr (p.lck.locks.drop i) i h with
  | mk h' stop =>
    rw [hloop] at hspec
    obtain ⟨heff, hstop⟩ := hspec
    cases stop with
    | none =>
      rcases hstop with ⟨-, hG⟩ | ⟨_, _, _, -, hsome, -⟩
      · exact .inl ⟨_, hG, rfl, heff.pendings⟩
      · cases hsome
    | some stop =>
      rcases hstop with ⟨hnone, -⟩ | ⟨e, rest, status, hes, hsome, -⟩
      · cases hnone
      cases hsome
      refine .inr ⟨{ p with
        pendingLock := i + (obtainable h.file (lockMode p.lck) h.locks (p.lck.locks.drop i)).length },
        ?_, rfl, rfl, Nat.le_add_right _ _, congrArg (_ :: ·) heff.pendings⟩
      intro hall
      have hlen := congrArg List.length hes
      rw [hall, length_append, length_cons] at hlen
      omega

/-- `pvfs_pending_lock_continue` on a timeout, for a request that waits for one of its locks. -/
theorem pvfsPendingLockContinue_timesOut {h : Locked κ} {p : PvfsPendingLock}
    (hp : p.pendingLock < p.lck.locks.length) :
    TimesOut h p (pvfsPendingLockContinue h p .timeout) := by
  set e := p.lck.locks[p.pendingLock] with he
  have hget : p.lck.locks[p.pendingLock]? = some e := List.getElem?_eq_getElem hp
  have hmissing : p.missing = e :: p.lck.locks.drop (p.pendingLock + 1) :=
    drop_eq_getElem_cons hp
  have hdrop := dropPending_effect h p
  cases hr : refused h.file (lockMode p.lck) h.locks e with
  | true =>
    have hr' : refused (dropPending h p).file (realType (lockMode p.lck)) (dropPending h p).locks e = true := by
      rw [realType_lockMode]
      exact hr
    obtain ⟨hs, hlock⟩ := brlLock_refused p.addr hr'
    have heq : pvfsPendingLockContinue h p .timeout =
        (undoLocks (brlRemovePending (brlLock (dropPending h p) e (lockMode p.lck) p.addr).2 p.addr)
          p.lck.locks p.pendingLock,
          some (.brl (brlLock (dropPending h p) e (lockMode p.lck) p.addr).1)) := by
      simp only [pvfsPendingLockContinue, hget, reduceCtorEq, if_false, if_neg hs]
    have hundo := undoLocks_effect
      (brlRemovePending (brlLock (dropPending h p) e (lockMode p.lck) p.addr).2 p.addr) p.lck.locks
      p.pendingLock
    rw [heq]
    refine .answered (.inl ?_) rfl (hundo.pendings.trans (hlock.pendings.trans hdrop.pendings))
    rw [hmissing]
    simp only [obtainable, hr, if_true]
  | false =>
    have hr' : refused (dropPending h p).file (realType (lockMode p.lck)) (dropPending h p).locks e = false := by
      rw [realType_lockMode]
      exact hr
    obtain ⟨hs, hlock, hlocks⟩ := brlLock_granted p.addr hr'
    set h₁ := brlRemovePending (addCount (brlLock (dropPending h p) e (lockMode p.lck) p.addr).2 1) p.addr
      with hh₁
    have heq : pvfsPendingLockContinue h p .timeout = finishPending h₁ p (p.pendingLock + 1) := by
      simp only [pvfsPendingLockContinue, hget, reduceCtorEq, if_false, if_pos hs, hh₁]
    have hpend : h₁.file.pendingList = h.file.pendingList.eraseP (·.addr == p.addr) :=
      hlock.pendings.trans hdrop.pendings
    have hbrl : h₁.file.brl = h.file.brl := hlock.brl
    have hntvfs : h₁.file.brlHandle.ntvfs = h.file.brlHandle.ntvfs := hlock.ntvfs
    have hsame : SameRefusals h.file (lockMode p.lck) h₁.locks
        (h.locks ++ [wanted h.file e (lockMode p.lck)]) := by
      intro e'
      rw [brlRemovePending_sameRefusals _ _ h.file _ e']
      have hlocks' : (addCount (brlLock (dropPending h p) e (lockMode p.lck) p.addr).2 1).locks =
          h.locks ++ [granted h.file e (lockMode p.lck) p.addr] := hlocks
      rw [hlocks']
      unfold refused granted wanted
      rw [realType_lockMode, any_append, any_append, lockMode_isPending]
      rfl
    have hrest : obtainable h₁.file (lockMode p.lck) h₁.locks (p.lck.locks.drop (p.pendingLock + 1)) =
        obtainable h.file (lockMode p.lck) (h.locks ++ [wanted h.file e (lockMode p.lck)])
          (p.lck.locks.drop (p.pendingLock + 1)) := by
      rw [obtainable_congr hbrl hntvfs, obtainable_of_sameRefusals hsame]
    have hgot : obtainable h.file (lockMode p.lck) h.locks p.missing =
        e :: obtainable h.file (lockMode p.lck) (h.locks ++ [wanted h.file e (lockMode p.lck)])
          (p.lck.locks.drop (p.pendingLock + 1)) := by
      rw [hmissing]
      simp only [obtainable, hr, false_eq_true, if_false]
    have hsettles : h.Settles p ↔
        obtainable h₁.file (lockMode p.lck) h₁.locks (p.lck.locks.drop (p.pendingLock + 1)) =
          p.lck.locks.drop (p.pendingLock + 1) := by
      unfold Locked.Settles
      rw [hrest, hgot, hmissing]
      simp
    rw [heq]
    rcases finishPending_cases h₁ p (p.pendingLock + 1) with ⟨status, hall, hsent, hlist⟩ |
      ⟨q, hall, hsent, haddr, hq, hlist⟩
    · exact .answered (hsettles.mpr hall) hsent (hlist.trans hpend)
    · exact .waits (mt hsettles.mp hall) hsent haddr hq (hlist.trans (congrArg _ hpend))

/-! ## What a cancel ends -/

/-- The pending requests of an open file: no two at one address, each waiting for one of its locks. -/
structure Locked.PendingWF (h : Locked κ) : Prop where
  nodup : h.file.addrs.Nodup
  index : ∀ p ∈ h.file.pendingList, p.pendingLock < p.lck.locks.length

/-! ### In every run -/

/-- Every pending request of a file waits for one of its locks. -/
def Locked.Indexed (h : Locked κ) : Prop := ∀ p ∈ h.file.pendingList, p.pendingLock < p.lck.locks.length

section
variable {h h' : Locked κ} {p : PvfsPendingLock} {sent : Option LockStatus}

theorem Proceeds.indexed {i : Nat} (hp : Proceeds h p i h' sent) (hi : h.Indexed) : h'.Indexed := by
  unfold Locked.Indexed at *
  cases hp with
  | finished _ heff =>
    rw [heff.pendings]
    exact hi
  | @waits G rest e hes heff =>
    -- the lock it waits for is the one behind those it got
    have hlen := congrArg length hes
    rw [length_drop, length_append, length_cons] at hlen
    rw [heff.pendings]
    refine forall_mem_cons.mpr ⟨?_, hi⟩
    show i + G.length < p.lck.locks.length
    omega

theorem Continues.indexed {reason : PvfsWaitNotice} (hc : Continues h p reason h' sent)
    (hp : p ∈ h.file.pendingList) (hi : h.Indexed) : h'.Indexed := by
  have herase : ∀ q ∈ h.file.pendingList.eraseP (·.addr == p.addr), q.pendingLock < q.lck.locks.length :=
    fun q hq => hi q (mem_of_mem_eraseP hq)
  cases hc with
  | outside _ => exact hi
  | again _ heff =>
    rw [Locked.Indexed, heff.pendings]
    exact forall_mem_cons.mpr ⟨hi p hp, herase⟩
  | failed _ _ _ _ heff =>
    rw [Locked.Indexed, heff.pendings]
    exact herase
  | granted _ _ heff hproceeds =>
    refine hproceeds.indexed ?_
    rw [Locked.Indexed, heff.pendings]
    exact herase

theorem Requests.indexed {lck : SmbLock} {mayAsync : Bool} {addr : Nat} {r : LockResult κ}
    (hr : Requests h lck mayAsync addr r) (hown : ∀ p ∈ h.file.pendingList, h.Own p.addr)
    (hi : h.Indexed) : r.locked.Indexed := by
  obtain ⟨_, hunlock, -, -⟩ := unlockLoop_spec lck.ulocks h
  have hafter : (unlockLoop lck.ulocks h).2.Indexed := by
    rw [Locked.Indexed, hunlock.pendings]
    exact hi
  cases hr with
  | rejected _ _ => exact hi
  | cancelled _ hfind =>
    have hp := mem_of_find?_eq_some hfind
    exact (pvfsPendingLockContinue_spec (hown _ hp) .timeout).indexed hp hi
  | unlockFailed _ _ => exact hafter
  | proceeds _ _ hproceeds => exact hproceeds.indexed hafter
  | got hh _ heff =>
    rw [Locked.Indexed, heff.pendings, hh]
    exact hafter
  | refused hh _ _ _ _ _ heff =>
    rw [Locked.Indexed, heff.pendings, hh]
    exact hafter

/-- Every pending request of every open file waits for one of its locks. -/
def Indexed (s : State κ) : Prop :=
  ∀ id f, s.files id = some f → (s.locked f).Indexed

variable [DecidableEq κ] {s s' : State κ}

theorem Indexed.put (hs : Indexed s) (id : Nat) (hi : h.Indexed) : Indexed (s.put id h) := by
  intro j g hg
  rcases put_files hg with ⟨-, rfl⟩ | ⟨-, hg⟩
  · exact hi
  · exact hs j g hg

theorem Step.indexed {e : Event κ} (hw : WellFormed s) (hs : Indexed s) (hstep : Step s e s') : Indexed s' := by
  cases hstep with
  | opened id f _ _ _ hpend =>
    refine hs.put id fun p hp => ?_
    rw [show (s.locked f).file.pendingList = [] from hpend] at hp
    cases hp
  | invalidHandle _ _ _ _ _ => exact hs
  | lock id f lck mayAsync addr hf _ =>
    exact hs.put id ((pvfsLock_spec (s.locked f) lck mayAsync addr).indexed (fun p hp => hw.own hf hp) (hs id f hf))
  | resume id f p reason hf hp =>
    exact hs.put id ((pvfsPendingLockContinue_spec (hw.own hf hp) reason).indexed hp (hs id f hf))
  | close id f hf => exact fun j g hg => hs j g (remove_files hg).2

/-- The pending lists of the open files are such in every run. -/
theorem pendingWF (h : (pvfsSystem κ).Reachable s) {id : Nat} {f : PvfsFile κ} (hf : s.files id = some f) :
    (s.locked f).PendingWF := by
  have hinv : WellFormed s ∧ Indexed s := by
    refine @System.Reachable.invariant _ _ _ (fun s => WellFormed s ∧ Indexed s) ?_ ?_ _ h
    · rintro s ⟨hfiles, hrecords⟩
      refine ⟨wellFormed (.init ⟨hfiles, hrecords⟩), fun id f hf => ?_⟩
      rw [hfiles] at hf
      cases hf
    · rintro s e s' ⟨hw, hs⟩ hstep
      exact ⟨hstep.wellFormed hw, hstep.indexed hw hs⟩
  exact ⟨hinv.1.nodup id f hf, hinv.2 id f hf⟩

end

/-! ### The first exact match -/

/-- `p` has been answered and waits for nothing any more. -/
def LockResult.Ended (r : LockResult κ) (p : PvfsPendingLock) : Prop :=
  p.addr ∉ r.locked.file.addrs ∧ ∃ status, r.cancelled = some (p, some status)

/-- `p` is where it was, and was sent nothing. -/
def LockResult.Untouched (r : LockResult κ) (p : PvfsPendingLock) : Prop :=
  p ∈ r.locked.file.pendingList ∧ ∀ sent, r.cancelled ≠ some (p, sent)

/-- Of the requests pending on the file, a cancel with the result `r` ends the first exact match and
no other. -/
def CancelsExact (fileOf : PvfsPendingLock → Nat) (file : Nat) (lck : SmbLock) (h : Locked κ)
    (r : LockResult κ) : Prop :=
  ∀ p ∈ h.file.pendingList,
    (r.Ended p ↔ h.file.pendingList.find? (matchesExactly fileOf file lck) = some p) ∧
    (h.file.pendingList.find? (matchesExactly fileOf file lck) ≠ some p → r.Untouched p)

variable {p q : PvfsPendingLock} {h : Locked κ}

theorem mem_eraseP_of_addr_ne {ps : List PvfsPendingLock} (hp : p ∈ ps)
    (hne : p.addr ≠ q.addr) : p ∈ ps.eraseP (·.addr == q.addr) :=
  (mem_eraseP_of_neg (by simpa using hne)).mpr hp

/-- The request at an address is gone once that address is taken off the list. -/
theorem addr_notMem_eraseP (hwf : h.PendingWF) (p : PvfsPendingLock) :
    p.addr ∉ (h.file.pendingList.eraseP (·.addr == p.addr)).map (·.addr) := by
  rw [addrs_eraseP]
  exact hwf.nodup.not_mem_erase

/-- If the search picks `q`, every other request stays where it was. -/
theorem TimesOut.untouched {r : Locked κ × Option LockStatus}
    {status : LockStatus} (ht : TimesOut h q r) (hwf : h.PendingWF) (hq : q ∈ h.file.pendingList)
    (hp : p ∈ h.file.pendingList) (hne : p ≠ q) :
    (⟨status, r.1, some (q, r.2)⟩ : LockResult κ).Untouched p := by
  have haddr : p.addr ≠ q.addr := fun ha => hne (pending_unique hwf.nodup hp hq ha)
  constructor
  · have hmem := mem_eraseP_of_addr_ne hp haddr
    cases ht with
    | answered _ _ hlist => exact hlist ▸ hmem
    | waits _ _ _ _ hlist => exact hlist ▸ mem_cons_of_mem _ hmem
  · rintro sent hsent
    simp only [Option.some.injEq, Prod.mk.injEq] at hsent
    exact hne hsent.1.symm

/-- The request that is picked is not left alone. -/
theorem not_untouched {r : LockResult κ} {sent : Option LockStatus}
    (hr : r.cancelled = some (q, sent)) : ¬r.Untouched q :=
  fun hu => hu.2 _ hr

/-- The request that is picked ends if it settles. -/
theorem TimesOut.ended_iff {r : Locked κ × Option LockStatus}
    {status : LockStatus} (ht : TimesOut h q r) (hwf : h.PendingWF) :
    (⟨status, r.1, some (q, r.2)⟩ : LockResult κ).Ended q ↔ h.Settles q := by
  have hgone := addr_notMem_eraseP hwf q
  constructor
  · rintro ⟨-, sent, hsent⟩
    cases ht with
    | answered hs _ _ => exact hs
    | waits _ hnone _ _ _ =>
      rw [hnone] at hsent
      cases hsent
  · intro hs
    cases ht with
    | answered _ hsent hlist =>
      refine ⟨?_, _, congrArg (fun sent => some (q, sent)) hsent⟩
      unfold PvfsFile.addrs
      rw [hlist]
      exact hgone
    | waits hns _ _ _ _ => exact absurd hs hns

theorem not_ended_of_ne {r : LockResult κ} {sent : Option LockStatus}
    (hr : r.cancelled = some (q, sent)) (hne : p ≠ q) : ¬r.Ended p := by
  rintro ⟨-, status, hsent⟩
  rw [hr] at hsent
  simp only [Option.some.injEq, Prod.mk.injEq] at hsent
  exact hne hsent.1.symm

/-- The first request the search picks is the first exact match, if its locks agree. -/
theorem find?_matchesExactly {fileOf : PvfsPendingLock → Nat} {file : Nat} {lck : SmbLock}
    {ps : List PvfsPendingLock} (hq : ps.find? (cancelPicks fileOf file lck) = some q)
    (hlocks : q.lck.locks = lck.locks) : ps.find? (matchesExactly fileOf file lck) = some q := by
  obtain ⟨hpick, as, bs, rfl, has⟩ := List.find?_eq_some_iff_append.mp hq
  refine List.find?_eq_some_iff_append.mpr ⟨(matchesExactly_iff ..).mpr ⟨hpick, hlocks⟩, as, bs, rfl, ?_⟩
  intro a ha
  have hno := has a ha
  rw [not_eq_true'] at hno ⊢
  exact eq_false_iff.mpr fun hm => eq_false_iff.mp hno ((matchesExactly_iff ..).mp hm).1

/-- A cancel ends the first exact match and nothing else exactly when the first request that agrees
with it in everything but the locks agrees in the locks too and, retried, need not wait again. -/
theorem pvfsLockCancel_exact_iff {h : Locked κ} (hwf : h.PendingWF) (fileOf : PvfsPendingLock → Nat)
    (file : Nat) (lck : SmbLock) :
    CancelsExact fileOf file lck h (pvfsLockCancelOn fileOf file h lck) ↔
      ∀ q, h.file.pendingList.find? (fun p => fileOf p == file && cancels lck p) = some q →
        q.lck.locks = lck.locks ∧ h.Settles q := by
  have hpicks : (fun p => fileOf p == file && cancels lck p) = cancelPicks fileOf file lck :=
    funext fun p => (cancelPicks_eq fileOf file lck p).symm
  rw [hpicks]
  unfold CancelsExact pvfsLockCancelOn
  cases hfind : h.file.pendingList.find? (cancelPicks fileOf file lck) with
  | none =>
    have hnone : h.file.pendingList.find? (matchesExactly fileOf file lck) = none := by
      rw [List.find?_eq_none] at hfind ⊢
      exact fun p hp hm => hfind p hp ((matchesExactly_iff ..).mp hm).1
    rw [hnone]
    refine iff_of_true (fun p hp => ⟨⟨?_, nofun⟩, fun _ => ⟨hp, nofun⟩⟩) nofun
    rintro ⟨-, status, hsent⟩
    cases hsent
  | some q =>
    have hq := mem_of_find?_eq_some hfind
    have ht := pvfsPendingLockContinue_timesOut (h := h) (hwf.index q hq)
    constructor
    · intro hexact q' hq'
      cases hq'
      -- the request picked is touched, so it must be the first exact match
      have hfirst : h.file.pendingList.find? (matchesExactly fileOf file lck) = some q := by
        by_contra hne
        exact not_untouched rfl ((hexact q hq).2 hne)
      refine ⟨((matchesExactly_iff ..).mp (List.find?_some hfirst)).2, ?_⟩
      exact (ht.ended_iff hwf).mp ((hexact q hq).1.mpr hfirst)
    · intro hcond p hp
      obtain ⟨hlocks, hsettles⟩ := hcond q rfl
      rw [find?_matchesExactly hfind hlocks]
      by_cases hpq : p = q
      · subst hpq
        exact ⟨iff_of_true ((ht.ended_iff hwf).mpr hsettles) rfl, fun hne => absurd rfl hne⟩
      · refine ⟨iff_of_false (not_ended_of_ne rfl hpq) ?_, fun _ => ht.untouched hwf hq hp hpq⟩
        exact fun he => hpq (Option.some.inj he).symm

/-- A handle that holds an exclusive lock and has one request waiting for the same range. -/
def oneWaiting : Locked Unit := (pvfsLock oneLocked ⟨0, 1000, [], [⟨0, 0, 1⟩]⟩ true 7).locked

/-- The cancel of an exclusive lock. -/
def cancelLock (offset count : UInt64) : SmbLock := ⟨8, 0, [], [⟨0, offset, count⟩]⟩

/-- A second request waits for the range and the byte behind it. -/
def twoWaiting : Locked Unit := (pvfsLock oneWaiting ⟨0, 1000, [], [⟨0, 0, 2⟩]⟩ true 9).locked

/-- Of two waiting requests the second is cancelled. -/
theorem pvfsLockCancel_exact_two :
    CancelsExact (fun _ => 10) 10 (cancelLock 0 2) twoWaiting
      (pvfsLockCancelOn (fun _ => 10) 10 twoWaiting (cancelLock 0 2)) ∧ twoWaiting.file.pendingList.length = 2 := by
  refine ⟨(pvfsLockCancel_exact_iff ⟨by decide, by decide⟩ (fun _ => 10) 10 (cancelLock 0 2)).mpr ?_, by decide⟩
  intro q hq
  have hfirst : twoWaiting.file.pendingList.find? (fun p => (10 : Nat) == 10 && cancels (cancelLock 0 2) p) =
      some ⟨9, ⟨0, 1000, [], [⟨0, 0, 2⟩]⟩, 0⟩ := by decide
  obtain rfl := Option.some.inj (hfirst.symm.trans hq)
  exact ⟨by decide, by decide⟩

/-- The run that opens the file, locks the range and asks for it again. -/
theorem oneWaiting_reachable :
    (pvfsSystem Unit).Reachable ((oneOpen.put 0 oneLocked).put 0 oneWaiting) := by
  have q0 : noFiles.Quiet := fun _ _ hf => nomatch hf
  have q1 : oneOpen.Quiet := q0.put 0 (h := noFiles.locked (newFile 10 .nt1)) rfl
  have q2 : (oneOpen.put 0 oneLocked).Quiet := q1.put 0 (by decide)
  have h0 : (pvfsSystem Unit).Reachable noFiles := .init ⟨fun _ => rfl, fun _ => rfl⟩
  have h1 := h0.step _ (Step.opened 0 (newFile 10 .nt1) rfl (fun _ _ hg => nomatch hg) rfl rfl)
  have h2 := h1.step _
    (Step.lock 0 (newFile 10 .nt1) (exclusiveLock 0 1) false 1 rfl (q1.unused _ (by decide)))
  exact h2.step _ (Step.lock 0 oneLocked.file ⟨0, 1000, [], [⟨0, 0, 1⟩]⟩ true 7 rfl (q2.unused _ (by decide)))

/-- A cancel of the range at 100 ends the request waiting for the range at 0. -/
theorem pvfsLockCancel_not_exact :
    (pvfsSystem Unit).Reachable ((oneOpen.put 0 oneLocked).put 0 oneWaiting) ∧
      ¬CancelsExact (fun _ => 10) 10 (cancelLock 100 1) oneWaiting
        (pvfsLockCancelOn (fun _ => 10) 10 oneWaiting (cancelLock 100 1)) := by
  refine ⟨oneWaiting_reachable, fun hexact => ?_⟩
  have hp : (⟨7, ⟨0, 1000, [], [⟨0, 0, 1⟩]⟩, 0⟩ : PvfsPendingLock) ∈ oneWaiting.file.pendingList := by decide
  obtain ⟨hmem, -⟩ := (hexact _ hp).2 (by decide)
  revert hmem
  decide

end Samba.PvfsLock
