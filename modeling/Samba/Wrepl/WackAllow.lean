/-
A registration that waited for a challenge (nbt_server/wins/winsserver.c). `wins_wack_allow` walks the addresses of the record by
index, and each round changes the very list it walks: a confirmed address adds the registration address once more, an address that
its owner does not hold any more is removed. A removal moves what is behind it by one place, and the walk steps over it.
-/
import Samba.Ldb.Qsort
import Samba.Wrepl.AddrList
import Samba.Wrepl.Scavenging
import Samba.Wrepl.SgroupMerge

namespace Samba.Wrepl

open CString List Shuffle

/-! ## The sort of the address lists -/

/-- `ldb_qsort` of a list; where it leaves the array, nothing is said of what it does. -/
def qsorted (cmp : WinsdbAddr → WinsdbAddr → Int) (l : List WinsdbAddr) : List WinsdbAddr :=
  (Ldb.ldbQsortEntries (fun _ => cmp) l).getD l

theorem qsorted_perm (cmp : WinsdbAddr → WinsdbAddr → Int) (l : List WinsdbAddr) : (qsorted cmp l).Perm l := by
  rw [qsorted]
  cases hsort : Ldb.ldbQsortEntries (fun _ => cmp) l with
  | none => exact .refl _
  | some sorted => exact Ldb.ldbQsortEntries_perm hsort

/-- The handle of a server, with the sort of ldb. -/
def qsortHandle (localOwner : Text) : WinsdbHandle where
  localOwner := localOwner
  ldbQsort := qsorted
  ldbQsort_perm := qsorted_perm

/-- On the entries of a list, the comparison of `winsdb_addr_sort_list` is the order of a key. -/
def Ranked (localOwner : Text) (addresses : List WinsdbAddr) (key : WinsdbAddr → Nat) : Prop :=
  ∀ x ∈ addresses, ∀ y ∈ addresses, winsdbAddrSortList localOwner x y < 0 ↔ key x < key y

/-- The entries stand in the order of a key. -/
def Lined (key : WinsdbAddr → Nat) (addresses : List WinsdbAddr) : Prop := addresses.Pairwise fun x y => key x ≤ key y

variable {localOwner : Text} {l : List WinsdbAddr}

theorem Ranked.mono {l' : List WinsdbAddr} {key : WinsdbAddr → Nat} (h : Ranked localOwner l key)
    (hsub : ∀ x ∈ l', x ∈ l) : Ranked localOwner l' key :=
  fun x hx y hy => h x (hsub x hx) y (hsub y hy)

theorem qsorted_lined {key : WinsdbAddr → Nat} (h : Ranked localOwner l key) :
    Lined key (qsorted (winsdbAddrSortList localOwner) l) := by
  cases l with
  | nil => exact List.Pairwise.nil
  | cons x xs =>
    have hfollows : Ldb.Follows (fun _ => winsdbAddrSortList localOwner) key (xs.length + 1) (xs.length + 1)
        fun i => (x :: xs).getD i x := by
      have hmem : ∀ b, Within 0 (xs.length + 1 - 1) (fun i => (x :: xs).getD i x) b → ∀ i, i < xs.length + 1 →
          b i ∈ x :: xs := by
        intro b hb i hi
        obtain ⟨j, -, hj, heq⟩ := hb.from (Nat.zero_le i) (show i ≤ xs.length + 1 - 1 by omega)
        rw [heq, getD_eq_getElem _ _ (show j < (x :: xs).length by rw [length_cons]; omega)]
        exact getElem_mem _
      exact ⟨fun b hb _ i j hi hj => h _ (hmem b hb i hi) _ (hmem b hb j hj), fun _ hs => absurd hs (Nat.lt_irrefl _),
        Nat.le_add_right _ _⟩
    obtain ⟨ys, hys, -, hlined⟩ := Ldb.ldbQsortEntries_spec hfollows
    rw [qsorted, hys]
    exact hlined

/-- A list that was sorted anew. -/
structure Resorted (localOwner : Text) (l l' : List WinsdbAddr) : Prop where
  perm : l'.Perm l
  lined : ∀ key, Ranked localOwner l key → Lined key l'

theorem Resorted.of_perm {m l' : List WinsdbAddr} (h : Resorted localOwner l l') (hperm : l.Perm m) :
    Resorted localOwner m l' :=
  ⟨h.perm.trans hperm, fun key hkey => h.lined key (hkey.mono fun _ hx => hperm.mem_iff.mp hx)⟩

theorem resorted_addNewAddr (localOwner : Text) (addresses : List WinsdbAddr) (new : WinsdbAddr) :
    Resorted localOwner (new :: addresses) (addNewAddr (qsortHandle localOwner) addresses new) := by
  refine ⟨addNewAddr_perm _ _ _, fun key hkey => ?_⟩
  exact qsorted_lined (hkey.mono fun x hx => perm_append_comm.mem_iff.mp hx)

/-! ## What an add leaves of the list -/

/-- The entry that `winsdb_addr_list_add` takes out for a name registration: that of the address, or the oldest of a full list. -/
def displaced (reg : WinsdbAddr) (addresses : List WinsdbAddr) : Option WinsdbAddr :=
  match winsdbAddrListCheck addresses reg.address with
  | some old => some old
  | none => if addresses.length < 25 then none else oldestAddr reg.winsOwner addresses

/-- The entries that stay beside the new one. -/
def standing (reg : WinsdbAddr) (addresses : List WinsdbAddr) : List WinsdbAddr :=
  match displaced reg addresses with
  | some old => addresses.erase old
  | none => addresses

/-- The list with the new entry. -/
def added (reg : WinsdbAddr) (addresses : List WinsdbAddr) : List WinsdbAddr :=
  winsdbAddrListAdd (qsortHandle reg.winsOwner) addresses reg.address reg.winsOwner reg.expireTime true

section Standing

variable {reg : WinsdbAddr} {addresses : List WinsdbAddr}

theorem displaced_mem {old : WinsdbAddr} (h : displaced reg addresses = some old) : old ∈ addresses := by
  rw [displaced] at h
  cases hcheck : winsdbAddrListCheck addresses reg.address with
  | some found =>
    rw [hcheck] at h
    cases h
    exact mem_of_find?_eq_some hcheck
  | none =>
    rw [hcheck] at h
    dsimp only at h
    split at h
    · cases h
    · next hfull =>
      have hne : addresses ≠ [] := by
        rintro rfl
        exact hfull (by decide)
      obtain ⟨oldest, heq, hoc⟩ := oldestAddr_ok reg.winsOwner hne
      rw [heq] at h
      cases h
      exact hoc.mem

theorem standing_sublist : (standing reg addresses).Sublist addresses := by
  rw [standing]
  split
  · exact erase_sublist
  · exact List.Sublist.refl _

theorem mem_standing (hd : Distinct addresses) {x : WinsdbAddr} (hx : x ∈ addresses) :
    x ∈ standing reg addresses ↔ displaced reg addresses ≠ some x := by
  rw [standing]
  cases hdisplaced : displaced reg addresses with
  | none => exact iff_of_true hx nofun
  | some old =>
    rw [(List.Nodup.of_map _ hd).mem_erase_iff]
    constructor
    · rintro ⟨hne, -⟩ heq
      exact hne (Option.some.inj heq).symm
    · intro hne
      refine ⟨?_, hx⟩
      rintro rfl
      exact hne rfl

/-- The address of the registration does not stand twice. -/
theorem standing_address (hd : Distinct addresses) : ∀ x ∈ standing reg addresses, x.address ≠ reg.address := by
  intro x hx
  rw [standing, displaced] at hx
  cases hcheck : winsdbAddrListCheck addresses reg.address with
  | some old =>
    rw [hcheck] at hx
    have hsame : old.address = reg.address := by simpa using List.find?_some hcheck
    have hold := mem_of_find?_eq_some hcheck
    obtain ⟨hne, hx⟩ := (List.Nodup.of_map _ hd).mem_erase_iff.mp hx
    exact fun haddr => hne (inj_on_of_nodup_map hd hx hold (haddr.trans hsame.symm))
  | none =>
    have hnone := List.find?_eq_none.mp hcheck
    have hmem : x ∈ addresses := standing_sublist.subset (by rw [standing, displaced]; exact hx)
    simpa using hnone x hmem

theorem added_resorted (hd : Distinct addresses) :
    Resorted reg.winsOwner (reg :: standing reg addresses)
      (added reg addresses) := by
  rw [added, winsdbAddrListAdd, standing, displaced]
  cases hcheck : winsdbAddrListCheck addresses reg.address with
  | some old =>
    dsimp only
    rw [winsdbAddrListRemove_mem hd (mem_of_find?_eq_some hcheck)]
    exact resorted_addNewAddr _ _ _
  | none =>
    by_cases hlt : addresses.length < 25
    · rw [if_pos hlt, if_pos hlt]
      exact resorted_addNewAddr _ _ _
    · rw [if_neg hlt, if_neg hlt, if_neg (by decide)]
      have hne : addresses ≠ [] := by
        rintro rfl
        exact hlt (by decide)
      obtain ⟨old, heq, hold⟩ := oldestAddr_ok reg.winsOwner hne
      rw [show oldestAddr (qsortHandle reg.winsOwner).localOwner addresses = some old from heq, heq]
      dsimp only
      rw [winsdbAddrListRemove_mem hd hold.mem]
      exact resorted_addNewAddr _ _ _

end Standing

/-! ## The registration -/

/-- The renewal intervals of `winssrv->config`. -/
structure RenewIntervals where
  minRenewInterval : Nat
  maxRenewInterval : Nat
  deriving DecidableEq, Repr

/-- `wins_server_ttl`. -/
def winsServerTtl (config : RenewIntervals) (ttl : Nat) : Nat :=
  max (min ttl config.maxRenewInterval) config.minRenewInterval

/-- What the server reads of a registration request. -/
structure NbtNamePacket where
  name : NbtName
  ttl : Nat
  nbFlags : Nat
  ipaddr : Text
  deriving DecidableEq, Repr

/-- `WREPL_NODE_NBT_FLAGS`. -/
def wreplNodeNbtFlags (nbFlags : Nat) : WreplNameNode :=
  match (nbFlags &&& 0x6000) >>> 13 with
  | 0 => .b
  | 1 => .p
  | 2 => .m
  | _ => .h

/-- `wins_register_new`; `none` is `NBT_RCODE_SVR`. -/
def winsRegisterNew (h : WinsdbHandle) (config : RenewIntervals) (db : Winsdb) (now : Int) (packet : NbtNamePacket) (src : Text)
    (type : WreplNameType) : Option Winsdb :=
  let expireTime := now + winsServerTtl config packet.ttl
  let record : WinsdbRecord :=
    { name := packet.name, type := type, state := .active, node := wreplNodeNbtFlags packet.nbFlags, isStatic := false,
      expireTime := expireTime, version := 0, winsOwner := [],
      addresses := winsdbAddrListAdd h winsdbAddrListMake packet.ipaddr h.localOwner expireTime true, registeredBy := some src }
  winsdbAdd h db record ⟨true, true⟩

/-- `struct wack_state` when the challenge is over: the owner replied with `reply` if `challengeOk`. -/
structure WackState where
  record : WinsdbRecord
  requestPacket : NbtNamePacket
  src : Text
  newType : WreplNameType
  challengeOk : Bool
  reply : List Text
  deriving DecidableEq, Repr

/-- `s->reg_address`. -/
def WackState.regAddress (s : WackState) : Text := s.requestPacket.ipaddr

/-- The record with the addresses the walk has left; with more than one address it is a MHOMED record from now on. -/
def WackState.granted (s : WackState) (expireTime : Int) (addresses : List WinsdbAddr) : WinsdbRecord :=
  { s.record with
    expireTime := expireTime, registeredBy := some s.src, addresses := addresses
    type := if 1 < addresses.length then .mhomed else s.record.type }

/-- The loop of `wins_wack_allow` from the index `i` on; `none` when it takes more than `rounds` rounds. -/
def wackLoop (h : WinsdbHandle) (reply : List Text) (regAddress : Text) (expireTime : Int) :
    (rounds : Nat) → (addresses : List WinsdbAddr) → (i : Nat) → Option (List WinsdbAddr)
  | 0, _, _ => none
  | rounds + 1, addresses, i =>
    match addresses[i]? with
    | none => some addresses
    | some addr =>
      if addr.address ∈ reply then
        wackLoop h reply regAddress expireTime rounds
          (winsdbAddrListAdd h addresses regAddress h.localOwner expireTime true) (i + 1)
      else wackLoop h reply regAddress expireTime rounds (winsdbAddrListRemove addresses addr.address) (i + 1)

/-- How `wins_wack_allow` ends, with the database it leaves. -/
inductive WackEnd
  | denied (db : Winsdb)
  | accepted (db : Winsdb)
  | endless

/-- `wins_wack_allow`. -/
def winsWackAllow (h : WinsdbHandle) (config : RenewIntervals) (db : Winsdb) (now : Int) (s : WackState) : WackEnd :=
  let expireTime := now + winsServerTtl config s.requestPacket.ttl
  match winsdbLookup h db now s.record.name with
  | .error _ => .denied db
  | .ok rec2 =>
    if rec2.version ≠ s.record.version ∨ rec2.winsOwner ≠ s.record.winsOwner then .denied db
    else if !s.challengeOk then
      let db := (winsdbDelete db s.record.name).getD db
      match winsRegisterNew h config db now s.requestPacket s.src s.newType with
      | none => .denied db
      | some db => .accepted db
    else
      match wackLoop h s.reply s.regAddress expireTime (s.record.addresses.length + 2) s.record.addresses 0 with
      | none => .endless
      | some addresses =>
        let addresses := winsdbAddrListAdd h addresses s.regAddress h.localOwner expireTime true
        .accepted ((winsdbModify h db (s.granted expireTime addresses) ⟨true, true⟩).getD db)

/-! ## The walk while the registration address is in the list -/

section Walk

variable {reg : WinsdbAddr} {reply : List Text}

/-- The loop at the server that owns the new entry. -/
def walk (reg : WinsdbAddr) (reply : List Text) (rounds : Nat) (addresses : List WinsdbAddr) (i : Nat) : Option (List WinsdbAddr) :=
  wackLoop (qsortHandle reg.winsOwner) reply reg.address reg.expireTime rounds addresses i

theorem walk_succ (rounds : Nat) (addresses : List WinsdbAddr) (i : Nat) :
    walk reg reply (rounds + 1) addresses i = match addresses[i]? with
      | none => some addresses
      | some addr =>
        if addr.address ∈ reply then walk reg reply rounds (added reg addresses) (i + 1)
        else walk reg reply rounds (winsdbAddrListRemove addresses addr.address) (i + 1) := by
  rfl

/-- The list has the new entry of the registration address, and no address twice. -/
structure Held (reg : WinsdbAddr) (addresses : List WinsdbAddr) : Prop where
  mem : reg ∈ addresses
  distinct : Distinct addresses

variable {addresses : List WinsdbAddr}

/-- To add the registration address once more is to sort the list anew. -/
theorem Held.resorted (h : Held reg addresses) : Resorted reg.winsOwner addresses
      (added reg addresses) := by
  have hcheck : winsdbAddrListCheck addresses reg.address = some reg := by
    obtain ⟨old, hold⟩ : ∃ old, winsdbAddrListCheck addresses reg.address = some old := by
      rw [winsdbAddrListCheck, ← Option.isSome_iff_exists, List.find?_isSome]
      exact ⟨_, h.mem, by simp⟩
    have hsame : old.address = reg.address := by simpa using List.find?_some hold
    rw [hold, inj_on_of_nodup_map h.distinct (mem_of_find?_eq_some hold) h.mem hsame]
  have hstanding : standing reg addresses = addresses.erase reg := by
    rw [standing, displaced, hcheck]
  have hadd := @added_resorted reg _ h.distinct
  rw [hstanding] at hadd
  exact hadd.of_perm (perm_cons_erase h.mem).symm

theorem Held.of_perm {l l' : List WinsdbAddr} (h : Held reg l) (hperm : l'.Perm l) :
    Held reg l' :=
  ⟨hperm.mem_iff.mpr h.mem, h.distinct.perm hperm⟩

theorem remove_getElem (hd : Distinct addresses) {i : Nat} {x : WinsdbAddr}
    (hx : addresses[i]? = some x) : winsdbAddrListRemove addresses x.address = addresses.eraseIdx i := by
  obtain ⟨hi, rfl⟩ := List.getElem?_eq_some_iff.mp hx
  rw [winsdbAddrListRemove_mem hd (getElem_mem hi)]
  exact (List.Nodup.of_map _ hd).erase_getElem _ _

theorem mem_eraseIdx_of_ne (hd : Distinct addresses) {i : Nat} {x y : WinsdbAddr}
    (hx : addresses[i]? = some x) (hy : y ∈ addresses) (hne : y ≠ x) : y ∈ addresses.eraseIdx i := by
  rw [← remove_getElem hd hx, mem_winsdbAddrListRemove hd]
  obtain ⟨hi, rfl⟩ := List.getElem?_eq_some_iff.mp hx
  exact ⟨hy, fun haddr => hne (inj_on_of_nodup_map hd hy (getElem_mem hi) haddr)⟩

/-- Every step of the walk keeps what a sort and a removal keep, and the confirmed entries stay. -/
theorem walk_held (Inv : List WinsdbAddr → Nat → Prop) (hreg : reg.address ∈ reply)
    (hkept : ∀ l l' i x, Held reg l → Inv l i → l[i]? = some x → x.address ∈ reply →
      Resorted reg.winsOwner l l' → Inv l' (i + 1))
    (hstale : ∀ l i x, Held reg l → Inv l i → l[i]? = some x → x.address ∉ reply →
      Inv (l.eraseIdx i) (i + 1)) :
    ∀ rounds l i, 0 < rounds → l.length < i + rounds → Held reg l → Inv l i →
      ∃ r i', walk reg reply rounds l i = some r ∧
        Held reg r ∧ (∀ x ∈ r, x ∈ l) ∧ (∀ x ∈ l, x.address ∈ reply → x ∈ r) ∧
        Inv r i' ∧ r.length ≤ i' := by
  intro rounds
  induction rounds with
  | zero =>
    intro l i hpos
    exact absurd hpos (Nat.lt_irrefl 0)
  | succ rounds ih =>
    intro l i _ hlen hheld hinv
    rw [walk_succ]
    cases hx : l[i]? with
    | none => exact ⟨l, i, rfl, hheld, fun _ h => h, fun _ h _ => h, hinv, List.getElem?_eq_none_iff.mp hx⟩
    | some x =>
      have hlt : i < l.length := (List.getElem?_eq_some_iff.mp hx).1
      dsimp only
      by_cases hkeep : x.address ∈ reply
      · rw [if_pos hkeep]
        have hsort := hheld.resorted
        obtain ⟨r, i', hr, hheld', hfrom, hto, hinv', hle⟩ := ih _ (i + 1) (by omega)
          (by rw [hsort.perm.length_eq]; omega)
          (hheld.of_perm hsort.perm) (hkept l _ i x hheld hinv hx hkeep hsort)
        exact ⟨r, i', hr, hheld', fun y hy => hsort.perm.mem_iff.mp (hfrom y hy),
          fun y hy => hto y (hsort.perm.mem_iff.mpr hy), hinv', hle⟩
      · rw [if_neg hkeep, remove_getElem hheld.distinct hx]
        have hstay : ∀ y ∈ l, y.address ∈ reply → y ∈ l.eraseIdx i := fun y hy hyr =>
          mem_eraseIdx_of_ne hheld.distinct hx hy fun heq => hkeep (heq ▸ hyr)
        have hsub : (l.eraseIdx i).Sublist l := eraseIdx_sublist _ _
        obtain ⟨r, i', hr, hheld', hfrom, hto, hinv', hle⟩ := ih (l.eraseIdx i) (i + 1) (by omega)
          (by rw [length_eraseIdx_of_lt hlt]; omega)
          ⟨hstay _ hheld.mem hreg, hheld.distinct.sublist (hsub.map _)⟩ (hstale l i x hheld hinv hx hkeep)
        exact ⟨r, i', hr, hheld', fun y hy => hsub.subset (hfrom y hy), fun y hy hyr => hto y (hstay y hy hyr) hyr, hinv', hle⟩

/-! ## What the walk leaves -/

/-- The number of confirmed entries. -/
def confirmedIn (reply : List Text) (addresses : List WinsdbAddr) : Nat := addresses.countP (·.address ∈ reply)

/-- The list is sorted, and what is not confirmed ranks behind what is. -/
structure Sided (localOwner : Text) (reply : List Text) (key : WinsdbAddr → Nat) (addresses : List WinsdbAddr) : Prop where
  ranked : Ranked localOwner addresses key
  lined : Lined key addresses
  behind : ∀ x ∈ addresses, ∀ y ∈ addresses, x.address ∈ reply → y.address ∉ reply → key x < key y

section Sided

variable {key : WinsdbAddr → Nat} {l l' : List WinsdbAddr} {i : Nat} {x : WinsdbAddr}

theorem Sided.resorted (h : Sided reg.winsOwner reply key l) (hsort : Resorted reg.winsOwner l l') :
    Sided reg.winsOwner reply key l' :=
  ⟨h.ranked.mono fun _ hx => hsort.perm.mem_iff.mp hx, hsort.lined key h.ranked,
    fun x hx y hy => h.behind x (hsort.perm.mem_iff.mp hx) y (hsort.perm.mem_iff.mp hy)⟩

theorem Sided.sublist (h : Sided reg.winsOwner reply key l) (hsub : l'.Sublist l) : Sided reg.winsOwner reply key l' :=
  ⟨h.ranked.mono fun _ hx => hsub.subset hx, h.lined.sublist hsub,
    fun x hx y hy => h.behind x (hsub.subset hx) y (hsub.subset hy)⟩

/-- The confirmed entries have the first places. -/
theorem Sided.confirmed_iff (h : Sided reg.winsOwner reply key l) (hx : l[i]? = some x) :
    x.address ∈ reply ↔ i < confirmedIn reply l := by
  induction l generalizing i with
  | nil => cases hx
  | cons y ys ih =>
    have hys := ih (i := i - 1) (h.sublist (sublist_cons_self y ys))
    by_cases hy : y.address ∈ reply
    · have hcount : confirmedIn reply (y :: ys) = confirmedIn reply ys + 1 := countP_cons_of_pos (by simpa using hy)
      rw [hcount]
      cases i with
      | zero =>
        cases hx
        exact iff_of_true hy (Nat.succ_pos _)
      | succ i => exact (hys hx).trans (by omega)
    · have hnone : ∀ z ∈ y :: ys, z.address ∉ reply := by
        intro z hz hzr
        have hlt := h.behind z hz y mem_cons_self hzr hy
        rcases mem_cons.mp hz with rfl | hz
        · exact hy hzr
        · have hle := (pairwise_cons.mp h.lined).1 z hz
          omega
      have hzero : confirmedIn reply (y :: ys) = 0 := countP_eq_zero.mpr (by simpa using hnone)
      rw [hzero]
      exact iff_of_false (hnone x (mem_of_getElem? hx)) (Nat.not_lt_zero i)

end Sided

/-- The removal of an entry that is not confirmed. -/
theorem confirmedIn_eraseIdx {l : List WinsdbAddr} {i : Nat} {x : WinsdbAddr} (hx : l[i]? = some x) (hstale : x.address ∉ reply) :
    confirmedIn reply (l.eraseIdx i) = confirmedIn reply l := by
  obtain ⟨hi, rfl⟩ := List.getElem?_eq_some_iff.mp hx
  have hperm : (l[i] :: l.eraseIdx i).Perm l := getElem_cons_eraseIdx_perm hi
  have hcount := hperm.countP_eq (fun y => decide (y.address ∈ reply))
  rw [countP_cons_of_neg (by simpa using hstale)] at hcount
  exact hcount

section Survivors

variable {key : WinsdbAddr → Nat} {rounds : Nat} {l r : List WinsdbAddr} {i : Nat}

/-- What ranks before the new entry has the first place, and the walk has passed it. -/
theorem ahead_survives (hreg : reg.address ∈ reply) (hrounds : 0 < rounds) (hlen : l.length < i + rounds)
    (hheld : Held reg l) (hranked : Ranked reg.winsOwner l key) (hlined : Lined key l) (hi : 0 < i)
    (hahead : ∃ x ∈ l, key x < key reg)
    (hr : walk reg reply rounds l i = some r) :
    ∃ x ∈ r, key x < key reg := by
  obtain ⟨r', i', hr', -, -, -, hinv, -⟩ := walk_held
    (fun l i => Ranked reg.winsOwner l key ∧ Lined key l ∧ 0 < i ∧
      ∃ x ∈ l, key x < key reg) hreg
    (fun l l' i x _ hinv _ _ hsort => by
      obtain ⟨hranked, -, -, y, hy, hlt⟩ := hinv
      exact ⟨hranked.mono fun _ hz => hsort.perm.mem_iff.mp hz, hsort.lined key hranked, Nat.succ_pos _, y,
        hsort.perm.mem_iff.mpr hy, hlt⟩)
    (fun l i x _ hinv hx _ => by
      obtain ⟨hranked, hlined, hi, y, hy, hlt⟩ := hinv
      have hsub : (l.eraseIdx i).Sublist l := eraseIdx_sublist _ _
      refine ⟨hranked.mono fun _ hz => hsub.subset hz, hlined.sublist hsub, Nat.succ_pos _, ?_⟩
      cases l with
      | nil => cases hy
      | cons z zs =>
        refine ⟨z, ?_, ?_⟩
        · obtain ⟨i, rfl⟩ := Nat.exists_eq_add_of_lt hi
          simp
        · rcases mem_cons.mp hy with rfl | hy
          · exact hlt
          · exact Nat.lt_of_le_of_lt ((pairwise_cons.mp hlined).1 y hy) hlt)
    rounds l i hrounds hlen hheld ⟨hranked, hlined, hi, hahead⟩
  rw [hr] at hr'
  cases hr'
  exact hinv.2.2.2

/-- Of two entries behind the confirmed ones, one survives, and so does a single one that the walk has passed. -/
theorem behind_survives (hreg : reg.address ∈ reply) (hrounds : 0 < rounds) (hlen : l.length < i + rounds)
    (hheld : Held reg l) (hsided : Sided reg.winsOwner reply key l)
    (hmany : i ≤ confirmedIn reply l ∧ confirmedIn reply l + 2 ≤ l.length ∨
      confirmedIn reply l < i ∧ confirmedIn reply l + 1 ≤ l.length)
    (hr : walk reg reply rounds l i = some r) :
    ∃ x ∈ r, x.address ∉ reply := by
  obtain ⟨r', i', hr', -, -, -, hinv, hle⟩ := walk_held
    (fun l i => Sided reg.winsOwner reply key l ∧ (i ≤ confirmedIn reply l ∧ confirmedIn reply l + 2 ≤ l.length ∨
      confirmedIn reply l < i ∧ confirmedIn reply l + 1 ≤ l.length)) hreg
    (fun l l' i x _ hinv hx hkeep hsort => by
      obtain ⟨hsided, hmany⟩ := hinv
      have hcount : confirmedIn reply l' = confirmedIn reply l := hsort.perm.countP_eq _
      exact ⟨hsided.resorted hsort, by rw [hcount, hsort.perm.length_eq]; omega⟩)
    (fun l i x _ hinv hx hstale => by
      obtain ⟨hsided, hmany⟩ := hinv
      have hge := mt (hsided.confirmed_iff hx).mpr hstale
      have hlt : i < l.length := (List.getElem?_eq_some_iff.mp hx).1
      refine ⟨hsided.sublist (eraseIdx_sublist _ _), ?_⟩
      rw [confirmedIn_eraseIdx hx hstale, length_eraseIdx_of_lt hlt]
      omega)
    rounds l i hrounds hlen hheld ⟨hsided, hmany⟩
  rw [hr] at hr'
  cases hr'
  by_contra hall
  have hlength : confirmedIn reply r = r.length := countP_eq_length.mpr fun x hx => by
    by_contra hstale
    exact hall ⟨x, hx, by simpa using hstale⟩
  omega

/-- A single entry behind the confirmed ones is removed when the walk comes to it. -/
theorem single_removed (hreg : reg.address ∈ reply) (hrounds : 0 < rounds) (hlen : l.length < i + rounds)
    (hheld : Held reg l) (hsided : Sided reg.winsOwner reply key l)
    (hone : i ≤ confirmedIn reply l ∧ l.length ≤ confirmedIn reply l + 1 ∨ l.length = confirmedIn reply l)
    (hr : walk reg reply rounds l i = some r) :
    ∀ x ∈ r, x.address ∈ reply := by
  obtain ⟨r', i', hr', -, -, -, ⟨-, hinv⟩, hle⟩ := walk_held
    (fun l i => Sided reg.winsOwner reply key l ∧ (i ≤ confirmedIn reply l ∧ l.length ≤ confirmedIn reply l + 1 ∨
      l.length = confirmedIn reply l)) hreg
    (fun l l' i x _ hinv hx hkeep hsort => by
      obtain ⟨hsided, hone⟩ := hinv
      have hlt := (hsided.confirmed_iff hx).mp hkeep
      have hcount : confirmedIn reply l' = confirmedIn reply l := hsort.perm.countP_eq _
      exact ⟨hsided.resorted hsort, by rw [hcount, hsort.perm.length_eq]; omega⟩)
    (fun l i x _ hinv hx hstale => by
      obtain ⟨hsided, hone⟩ := hinv
      have hlt : i < l.length := (List.getElem?_eq_some_iff.mp hx).1
      refine ⟨hsided.sublist (eraseIdx_sublist _ _), ?_⟩
      rw [confirmedIn_eraseIdx hx hstale, length_eraseIdx_of_lt hlt]
      omega)
    rounds l i hrounds hlen hheld ⟨hsided, hone⟩
  rw [hr] at hr'
  cases hr'
  have hbound : confirmedIn reply r ≤ r.length := countP_le_length
  have hlength : confirmedIn reply r = r.length := by omega
  intro x hx
  simpa using countP_eq_length.mp hlength x hx

end Survivors

end Walk

/-! ## The walk up to the first confirmed entry -/

/-- The entries that the walk steps over before it meets a confirmed one: each removal moves one of them under the index. -/
def unseen (reply : List Text) : List WinsdbAddr → List WinsdbAddr
  | [] => []
  | [_] => []
  | x :: y :: rest => if x.address ∈ reply then [] else y :: unseen reply rest

/-- The list from the first confirmed entry on that the walk meets: one at an even place. -/
def fromKept (reply : List Text) : List WinsdbAddr → List WinsdbAddr
  | [] => []
  | [x] => if x.address ∈ reply then [x] else []
  | x :: y :: rest => if x.address ∈ reply then x :: y :: rest else fromKept reply rest

section Unseen

variable {reg : WinsdbAddr} {reply : List Text}

theorem unseen_sublist (reply : List Text) (l : List WinsdbAddr) : (unseen reply l ++ fromKept reply l).Sublist l := by
  fun_induction unseen reply l with
  | case1 => exact List.Sublist.refl _
  | case2 x =>
    rw [fromKept]
    split
    · exact List.Sublist.refl _
    · exact nil_sublist _
  | case3 x y rest hx =>
    rw [fromKept, if_pos hx]
    exact List.Sublist.refl _
  | case4 x y rest hx ih =>
    rw [fromKept, if_neg hx]
    exact (ih.cons_cons y).cons x

/-- Only entries that are not confirmed are gone. -/
theorem mem_unseen {l : List WinsdbAddr} {x : WinsdbAddr} (hx : x ∈ l) (hkept : x.address ∈ reply) :
    x ∈ unseen reply l ++ fromKept reply l := by
  fun_induction unseen reply l with
  | case1 => cases hx
  | case2 y =>
    obtain rfl := mem_singleton.mp hx
    rw [fromKept, if_pos hkept]
    exact hx
  | case3 y z rest hy =>
    rw [fromKept, if_pos hy]
    exact hx
  | case4 y z rest hy ih =>
    rw [fromKept, if_neg hy]
    rcases mem_cons.mp hx with rfl | hx
    · exact absurd hkept hy
    · rcases mem_cons.mp hx with rfl | hx
      · exact mem_cons_self
      · exact mem_cons_of_mem _ (ih hx)

theorem unseen_length (reply : List Text) (l : List WinsdbAddr) : 2 * (unseen reply l).length ≤ l.length := by
  fun_induction unseen reply l with
  | case1 => exact Nat.le_refl _
  | case2 => exact Nat.zero_le _
  | case3 => exact Nat.zero_le _
  | case4 x y rest hx ih =>
    simp only [length_cons]
    omega

theorem walk_end (rounds : Nat)
    {l : List WinsdbAddr} {i : Nat} (hi : l.length ≤ i) :
    walk reg reply (rounds + 1) l i = some l := by
  rw [walk_succ, List.getElem?_eq_none_iff.mpr hi]

theorem eraseIdx_behind (passed : List WinsdbAddr) (x : WinsdbAddr) (l : List WinsdbAddr) :
    (passed ++ x :: l).eraseIdx passed.length = passed ++ l := by
  rw [eraseIdx_append_of_length_le (Nat.le_refl _), Nat.sub_self]
  rfl

/-- The walk takes out every second entry until it meets a confirmed one, and stops where there is none. -/
theorem walk_unseen (reg : WinsdbAddr) (reply : List Text) (l : List WinsdbAddr) :
    ∀ rounds passed, Distinct (passed ++ l) → l.length < rounds →
      (fromKept reply l = [] →
        walk reg reply (rounds + 1) (passed ++ l) passed.length = some (passed ++ unseen reply l)) ∧
      (fromKept reply l ≠ [] → ∃ rounds', (fromKept reply l).length < rounds' ∧
        walk reg reply (rounds + 1) (passed ++ l) passed.length =
          walk reg reply rounds'
            (added reg (passed ++ (unseen reply l ++ fromKept reply l)))
            (passed.length + (unseen reply l).length + 1)) := by
  -- a confirmed entry is met at once
  have hmeet : ∀ rounds passed x rest, x.address ∈ reply →
      walk reg reply (rounds + 1) (passed ++ x :: rest) passed.length =
        walk reg reply rounds
          (added reg (passed ++ ([] ++ x :: rest)))
          (passed.length + ([] : List WinsdbAddr).length + 1) := fun rounds passed x rest hkept => by
    have hx : (passed ++ x :: rest)[passed.length]? = some x := by simp
    rw [walk_succ, hx]
    dsimp only
    rw [if_pos hkept]
    rfl
  -- another one is removed
  have hremove : ∀ rounds passed x rest, Distinct (passed ++ x :: rest) → x.address ∉ reply →
      walk reg reply (rounds + 1) (passed ++ x :: rest) passed.length =
        walk reg reply rounds (passed ++ rest) (passed.length + 1) := fun rounds passed x rest hd hstale => by
    have hx : (passed ++ x :: rest)[passed.length]? = some x := by simp
    rw [walk_succ, hx]
    dsimp only
    rw [if_neg hstale, remove_getElem hd hx, eraseIdx_behind]
  fun_induction unseen reply l with
  | case1 =>
    intro rounds passed _ _
    refine ⟨fun _ => ?_, fun hne => absurd rfl hne⟩
    rw [append_nil]
    exact walk_end rounds (Nat.le_refl _)
  | case2 x =>
    intro rounds passed hd hrounds
    by_cases hkept : x.address ∈ reply
    · rw [fromKept, if_pos hkept]
      exact ⟨nofun, fun _ => ⟨rounds, hrounds, hmeet rounds passed x [] hkept⟩⟩
    · rw [fromKept, if_neg hkept]
      refine ⟨fun _ => ?_, fun hne => absurd rfl hne⟩
      obtain ⟨rounds, rfl⟩ := Nat.exists_eq_add_of_lt hrounds
      rw [hremove _ passed x [] hd hkept, append_nil]
      exact walk_end _ (Nat.le_succ _)
  | case3 x y rest hkept =>
    intro rounds passed hd hrounds
    rw [fromKept, if_pos hkept]
    exact ⟨nofun, fun _ => ⟨rounds, hrounds, hmeet rounds passed x (y :: rest) hkept⟩⟩
  | case4 x y rest hstale ih =>
    intro rounds passed hd hrounds
    cases rounds with
    | zero => exact absurd hrounds (Nat.not_lt_zero _)
    | succ rounds =>
      have happend : passed ++ y :: rest = passed ++ [y] ++ rest := (append_assoc passed [y] rest).symm
      have hd' : Distinct (passed ++ [y] ++ rest) := by
        rw [← happend]
        exact hd.sublist (((sublist_cons_self x _).append_left passed).map _)
      have hlen : (passed ++ [y]).length = passed.length + 1 := length_append
      simp only [length_cons] at hrounds
      obtain ⟨hnone, hsome⟩ := ih rounds (passed ++ [y]) hd' (by omega)
      rw [fromKept, if_neg hstale, hremove _ passed x _ hd hstale, happend, ← hlen]
      refine ⟨fun hnil => ?_, fun hne => ?_⟩
      · rw [hnone hnil, append_assoc]
        rfl
      · obtain ⟨rounds', hlt, heq⟩ := hsome hne
        refine ⟨rounds', hlt, ?_⟩
        rw [heq, hlen, append_assoc, length_cons]
        congr 1
        omega

end Unseen

/-! ## The confirmed addresses -/

section Confirmed

variable {reg : WinsdbAddr} {reply : List Text} {old : List WinsdbAddr}

/-- The stored values are the old addresses in the reply and the registration address, each once, all of them owned by the local
server and with the new expiry time. -/
def ExactlyConfirmed (reg : WinsdbAddr) (reply : List Text) (old : List WinsdbAddr)
    (values : List AddrValue) : Prop :=
  values.Perm ((reg.address :: (old.map (·.address)).filter fun a => a ∈ reply ∧ a ≠ reg.address).map fun a =>
    .full a reg.winsOwner reg.expireTime)

instance (reg : WinsdbAddr) (reply : List Text) (old : List WinsdbAddr) (values : List AddrValue) :
    Decidable (ExactlyConfirmed reg reply old values) :=
  inferInstanceAs (Decidable (values.Perm _))

/-- The value that is stored for an address of a record that is not static. -/
def WinsdbAddr.toValue (addr : WinsdbAddr) : AddrValue := .full addr.address addr.winsOwner addr.expireTime

theorem toValue_injective : Function.Injective WinsdbAddr.toValue := by
  intro x y h
  obtain ⟨a', o', e'⟩ := y
  injection h with ha ho he
  subst ha ho he
  rfl

/-- A list with the new entry whose other entries are old ones is right if they are all confirmed, no confirmed one is missing, and
those have the new owner and time. -/
theorem exactlyConfirmed_iff (hreg : reg.address ∈ reply) (hold : Distinct old) {final : List WinsdbAddr}
    (hfinal : Held reg final)
    (hfrom : ∀ x ∈ final, x = reg ∨ x ∈ old ∧ x.address ≠ reg.address) :
    ExactlyConfirmed reg reply old (final.map WinsdbAddr.toValue) ↔
      (∀ x ∈ final, x.address ∈ reply) ∧
        ∀ x ∈ old, x.address ∈ reply → x.address ≠ reg.address →
          x ∈ final ∧ x.winsOwner = reg.winsOwner ∧ x.expireTime = reg.expireTime := by
  have hnodup : (final.map WinsdbAddr.toValue).Nodup := (List.Nodup.of_map _ hfinal.distinct).map toValue_injective
  have hwanted : ((reg.address :: (old.map (·.address)).filter fun a => a ∈ reply ∧ a ≠ reg.address).map fun a =>
      AddrValue.full a reg.winsOwner reg.expireTime).Nodup := by
    refine List.Nodup.map (fun a b h => (AddrValue.full.inj h).1) (nodup_cons.mpr ⟨?_, hold.filter _⟩)
    simp
  have hmem : ∀ v, v ∈ (reg.address :: (old.map (·.address)).filter fun a => a ∈ reply ∧ a ≠ reg.address).map
      (fun a => AddrValue.full a reg.winsOwner reg.expireTime) ↔ v = .full reg.address reg.winsOwner reg.expireTime ∨
        ∃ x ∈ old, x.address ∈ reply ∧ x.address ≠ reg.address ∧ v = .full x.address reg.winsOwner reg.expireTime := by
    intro v
    simp only [map_cons, mem_cons, mem_map, mem_filter, decide_eq_true_eq]
    refine or_congr_right ⟨?_, ?_⟩
    · rintro ⟨a, ⟨⟨x, hx, rfl⟩, hxr, hne⟩, rfl⟩
      exact ⟨x, hx, hxr, hne, rfl⟩
    · rintro ⟨x, hx, hxr, hne, rfl⟩
      exact ⟨x.address, ⟨⟨x, hx, rfl⟩, hxr, hne⟩, rfl⟩
  rw [ExactlyConfirmed, perm_ext_iff_of_nodup hnodup hwanted]
  constructor
  · intro hall
    refine ⟨fun x hx => ?_, fun x hx hxr hne => ?_⟩
    · rcases (hmem _).mp ((hall _).mp (mem_map_of_mem hx)) with heq | ⟨y, -, hyr, -, heq⟩
      · rw [(AddrValue.full.inj heq).1]
        exact hreg
      · rw [(AddrValue.full.inj heq).1]
        exact hyr
    · obtain ⟨y, hy, heq⟩ := mem_map.mp ((hall _).mpr ((hmem _).mpr (Or.inr ⟨x, hx, hxr, hne, rfl⟩)))
      obtain ⟨haddr, howner, hexpire⟩ := AddrValue.full.inj heq
      rcases hfrom y hy with rfl | ⟨hyold, -⟩
      · exact absurd haddr.symm hne
      · obtain rfl := inj_on_of_nodup_map hold hyold hx haddr
        exact ⟨hy, howner, hexpire⟩
  · rintro ⟨hconfirmed, hkept⟩ v
    rw [hmem]
    constructor
    · intro hv
      obtain ⟨x, hx, rfl⟩ := mem_map.mp hv
      rcases hfrom x hx with rfl | ⟨hxold, hne⟩
      · exact Or.inl rfl
      · obtain ⟨-, howner, hexpire⟩ := hkept x hxold (hconfirmed x hx) hne
        exact Or.inr ⟨x, hxold, hconfirmed x hx, hne, by rw [WinsdbAddr.toValue, howner, hexpire]⟩
    · rintro (rfl | ⟨x, hx, hxr, hne, rfl⟩)
      · exact mem_map_of_mem hfinal.mem
      · obtain ⟨hxf, howner, hexpire⟩ := hkept x hx hxr hne
        exact mem_map.mpr ⟨x, hxf, by rw [WinsdbAddr.toValue, howner, hexpire]⟩

/-- The entry is sorted behind the new one. -/
def SortedBehind (reg : WinsdbAddr) (x : WinsdbAddr) : Prop :=
  winsdbAddrSortList reg.winsOwner reg x < 0 ∧
    ¬winsdbAddrSortList reg.winsOwner x reg < 0

instance (reg : WinsdbAddr) (x : WinsdbAddr) :
    Decidable (SortedBehind reg x) := inferInstanceAs (Decidable (_ ∧ _))

/-- The addresses that are not confirmed. -/
def unconfirmed (reply : List Text) (addresses : List WinsdbAddr) : List WinsdbAddr := addresses.filter (·.address ∉ reply)

/-- When the walk does what it is there for. -/
structure WalkFits (reg : WinsdbAddr) (reply : List Text) (old : List WinsdbAddr) : Prop where
  fresh : ∀ x ∈ old, x.address ∈ reply → x.address ≠ reg.address → x.winsOwner = reg.winsOwner ∧ x.expireTime = reg.expireTime
  noneMet : fromKept reply old = [] → ∀ x ∈ unseen reply old, x.address ∈ reply
  stays : fromKept reply old ≠ [] → ∀ x, displaced reg (unseen reply old ++ fromKept reply old) = some x →
    x.address ∈ reply → x.address = reg.address
  oneLeft : fromKept reply old ≠ [] → ∀ left, standing reg (unseen reply old ++ fromKept reply old) = left →
    unconfirmed reply left = [] ∨ ∃ x, unconfirmed reply left = [x] ∧
      (unseen reply old).length ≤ confirmedIn reply left ∧ SortedBehind reg x

/-- No entry that is not confirmed compares equal to the new one, and the times are no more than 32 bits apart. -/
structure Untied (reg : WinsdbAddr) (reply : List Text) (old : List WinsdbAddr) : Prop where
  noTie : ∀ x ∈ old, x.address ∉ reply → ¬(x.winsOwner = reg.winsOwner ∧ x.expireTime = reg.expireTime)
  span : ∀ x ∈ reg :: old,
    ∀ y ∈ reg :: old, x.expireTime - y.expireTime < 2 ^ 31

/-- The key of the sort where the times are no more than 32 bits apart: new ones first, and owned ones before replicas. -/
def sortKey (reg : WinsdbAddr) (x : WinsdbAddr) : Nat :=
  2 * (reg.expireTime + 2 ^ 31 - x.expireTime).toNat + if x.winsOwner = reg.winsOwner then 0 else 1

variable {l : List WinsdbAddr}

theorem ranked_sortKey (hspan : ∀ x ∈ l, ∀ y ∈ l, x.expireTime - y.expireTime < 2 ^ 31)
    (hnew : ∀ x ∈ l, x.expireTime - reg.expireTime < 2 ^ 31) : Ranked reg.winsOwner l (sortKey reg) := by
  intro x hx y hy
  have hxy := hspan x hx y hy
  have hyx := hspan y hy x hx
  have hyn := hnew y hy
  rw [winsdbAddrSortList, sortKey, sortKey]
  by_cases hexpire : y.expireTime = x.expireTime
  · rw [if_neg (not_not.mpr hexpire), hexpire]
    split_ifs <;> omega
  · rw [if_pos hexpire, Int.bmod_eq_of_le (by omega) (by omega)]
    split_ifs <;> omega

theorem held_of_standing {l' : List WinsdbAddr} (hd : Distinct l)
    (h : Resorted reg.winsOwner (reg :: standing reg l) l') :
    Held reg l' := by
  refine Held.of_perm ⟨mem_cons_self, nodup_cons.mpr ⟨fun hm => ?_, hd.sublist (standing_sublist.map _)⟩⟩ h.perm
  obtain ⟨x, hx, haddr⟩ := mem_map.mp hm
  exact standing_address hd x hx haddr

theorem from_standing {l' r : List WinsdbAddr} (hd : Distinct l) (hsub : ∀ x ∈ l, x ∈ old)
    (h : Resorted reg.winsOwner (reg :: standing reg l) l')
    (hr : ∀ x ∈ r, x ∈ l') :
    ∀ x ∈ r, x = reg ∨ x ∈ old ∧ x.address ≠ reg.address := by
  intro x hx
  rcases mem_cons.mp (h.perm.mem_iff.mp (hr x hx)) with heq | hx
  · exact Or.inl heq
  · exact Or.inr ⟨hsub x (standing_sublist.subset hx), standing_address hd x hx⟩

/-- Where the walk meets no confirmed entry, what it steps over is all that is left, and there is room for the new entry. -/
theorem unmet_iff (hreg : reg.address ∈ reply) (hold : AddrListOk old) (hunmet : fromKept reply old = []) :
    ExactlyConfirmed reg reply old
        ((added reg (unseen reply old)).map
          WinsdbAddr.toValue) ↔
      WalkFits reg reply old := by
  have hsub : (unseen reply old).Sublist old := by
    have := unseen_sublist reply old
    rwa [hunmet, append_nil] at this
  have hd : Distinct (unseen reply old) := hold.distinct.sublist (hsub.map _)
  have hadd := @added_resorted reg _ hd
  generalize added reg (unseen reply old) = final at hadd ⊢
  have hstanding : ∀ x, x ∈ standing reg (unseen reply old) ↔ x ∈ unseen reply old ∧ x.address ≠ reg.address := by
    have hroom : (unseen reply old).length < 25 := by
      have := unseen_length reply old
      have := hold.bound
      omega
    refine fun x => ⟨fun hx => ⟨standing_sublist.subset hx, standing_address hd x hx⟩, fun ⟨hx, hne⟩ => ?_⟩
    rw [standing, displaced]
    cases hcheck : winsdbAddrListCheck (unseen reply old) reg.address with
    | none =>
      rw [if_pos hroom]
      exact hx
    | some found =>
      have hsame : found.address = reg.address := by simpa using List.find?_some hcheck
      have hother : x ≠ found := by
        rintro rfl
        exact hne hsame
      exact (mem_erase_of_ne hother).mpr hx
  have hmem : ∀ x, x ∈ final ↔ x = reg ∨ x ∈ unseen reply old ∧ x.address ≠ reg.address := by
    intro x
    rw [hadd.perm.mem_iff, mem_cons, hstanding]
  rw [exactlyConfirmed_iff hreg hold.distinct (held_of_standing hd hadd)
    (from_standing hd (fun x hx => hsub.subset hx) hadd fun _ hx => hx)]
  constructor
  · rintro ⟨hconfirmed, hkept⟩
    refine ⟨fun x hx hxr hne => (hkept x hx hxr hne).2, fun _ x hx => ?_, fun hne => absurd hunmet hne,
      fun hne => absurd hunmet hne⟩
    by_cases hne : x.address = reg.address
    · rw [hne]
      exact hreg
    · exact hconfirmed x ((hmem x).mpr (Or.inr ⟨hx, hne⟩))
  · intro hfits
    refine ⟨fun x hx => ?_, fun x hx hxr hne => ⟨?_, hfits.fresh x hx hxr hne⟩⟩
    · rcases (hmem x).mp hx with rfl | ⟨hx, -⟩
      · exact hreg
      · exact hfits.noneMet hunmet x hx
    · have hx := mem_unseen hx hxr
      rw [hunmet, append_nil] at hx
      exact (hmem x).mpr (Or.inr ⟨hx, hne⟩)

end Confirmed

/-! ## The walk from the first confirmed entry on -/

section Met

variable {reg : WinsdbAddr} {reply : List Text}

/-- The entries of a list are the confirmed ones and the others. -/
theorem confirmedIn_add (reply : List Text) (l : List WinsdbAddr) :
    confirmedIn reply l + (unconfirmed reply l).length = l.length := by
  rw [confirmedIn, unconfirmed, ← countP_eq_length_filter]
  have := length_eq_countP_add_countP (fun x : WinsdbAddr => decide (x.address ∈ reply)) (l := l)
  simpa [decide_not] using this.symm

theorem mem_unconfirmed {l : List WinsdbAddr} {x : WinsdbAddr} : x ∈ unconfirmed reply l ↔ x ∈ l ∧ x.address ∉ reply := by
  simp [unconfirmed]

/-- The confirmed entries of the list compare as the new entry does. -/
def Alike (reg : WinsdbAddr) (reply : List Text) (l : List WinsdbAddr) : Prop :=
  ∀ x ∈ l, x.address ∈ reply → x.winsOwner = reg.winsOwner ∧ x.expireTime = reg.expireTime

theorem Alike.compares {left : List WinsdbAddr} (h : Alike reg reply left) :
    ∀ x ∈ reg :: left, x.address ∈ reply →
      x.winsOwner = reg.winsOwner ∧
        x.expireTime = reg.expireTime := by
  intro x hx hxr
  rcases mem_cons.mp hx with rfl | hx
  · exact ⟨rfl, rfl⟩
  · exact h x hx hxr

theorem winsdbAddrSortList_alike {x y x' y' : WinsdbAddr} (hx : x.winsOwner = x'.winsOwner ∧ x.expireTime = x'.expireTime)
    (hy : y.winsOwner = y'.winsOwner ∧ y.expireTime = y'.expireTime) :
    winsdbAddrSortList reg.winsOwner x y = winsdbAddrSortList reg.winsOwner x' y' := by
  rw [winsdbAddrSortList, winsdbAddrSortList, hx.1, hx.2, hy.1, hy.2]

theorem winsdbAddrSortList_self (localOwner : Text) (x : WinsdbAddr) : winsdbAddrSortList localOwner x x = 0 := by
  rw [winsdbAddrSortList, if_neg (not_not.mpr rfl), Int.sub_self]

/-- The one entry that is not confirmed ranks behind the others. -/
theorem sided_of_behind {left : List WinsdbAddr} {stale : WinsdbAddr} (hreg : reg.address ∈ reply)
    (halike : Alike reg reply left) (hone : unconfirmed reply left = [stale])
    (hbehind : SortedBehind reg stale) {l : List WinsdbAddr}
    (hsort : Resorted reg.winsOwner (reg :: left) l) :
    Sided reg.winsOwner reply (fun x => if x.address ∈ reply then 0 else 1) l := by
  have hstale : ∀ x ∈ reg :: left, x.address ∉ reply → x = stale := by
    intro x hx hxr
    rcases mem_cons.mp hx with rfl | hx
    · exact absurd hreg hxr
    · exact mem_singleton.mp (hone ▸ mem_unconfirmed.mpr ⟨hx, hxr⟩)
  obtain ⟨hbefore, hnotBefore⟩ := hbehind
  have hranked : Ranked reg.winsOwner (reg :: left)
      (fun x => if x.address ∈ reply then 0 else 1) := by
    intro x hx y hy
    by_cases hxr : x.address ∈ reply
    · have hxn := halike.compares x hx hxr
      by_cases hyr : y.address ∈ reply
      · rw [winsdbAddrSortList_alike hxn (halike.compares y hy hyr), winsdbAddrSortList_self]
        simp [hxr, hyr]
      · obtain rfl := hstale y hy hyr
        rw [winsdbAddrSortList_alike hxn ⟨rfl, rfl⟩]
        simpa [hxr, hyr] using hbefore
    · obtain rfl := hstale x hx hxr
      by_cases hyr : y.address ∈ reply
      · rw [winsdbAddrSortList_alike ⟨rfl, rfl⟩ (halike.compares y hy hyr)]
        simpa [hxr, hyr] using hnotBefore
      · obtain rfl := hstale y hy hyr
        rw [winsdbAddrSortList_self]
        simp
  refine ⟨hranked.mono fun _ hx => hsort.perm.mem_iff.mp hx, hsort.lined _ hranked, fun x _ y _ hxr hyr => ?_⟩
  rw [if_pos hxr, if_neg hyr]
  exact Nat.zero_lt_one

/-- The new entry and what stands beside it, sorted, at the index behind the entry that was met. -/
structure MetAt (reg : WinsdbAddr) (passed rounds : Nat) (left l r : List WinsdbAddr)
    (reply : List Text) : Prop where
  kept : reg.address ∈ reply
  sorted : Resorted reg.winsOwner (reg :: left) l
  held : Held reg l
  enough : left.length < passed + rounds
  run : walk reg reply rounds l (passed + 1) = some r

section MetAt

variable {passed rounds : Nat} {left l r : List WinsdbAddr}

theorem MetAt.length_eq (h : MetAt reg passed rounds left l r reply) :
    l.length = left.length + 1 := by
  rw [h.sorted.perm.length_eq, length_cons]

theorem MetAt.confirmedIn_eq (h : MetAt reg passed rounds left l r reply) :
    confirmedIn reply l = confirmedIn reply left + 1 := by
  have hcount : confirmedIn reply l = _ := h.sorted.perm.countP_eq _
  rw [hcount, countP_cons_of_pos (by simpa using h.kept)]
  rfl

theorem MetAt.rounds_pos (h : MetAt reg passed rounds left l r reply) : 0 < rounds := by
  rcases Nat.eq_zero_or_pos rounds with rfl | hpos
  · cases h.run
  · exact hpos

/-- With at most one entry that is not confirmed, behind all others and still ahead of the walk, only confirmed ones are left. -/
theorem MetAt.all_confirmed (h : MetAt reg passed rounds left l r reply)
    (halike : Alike reg reply left) (hsub : ∀ x ∈ r, x ∈ l)
    (hfits : unconfirmed reply left = [] ∨ ∃ x, unconfirmed reply left = [x] ∧ passed ≤ confirmedIn reply left ∧
      SortedBehind reg x) : ∀ x ∈ r, x.address ∈ reply := by
  rcases hfits with hnone | ⟨stale, hone, hle, hbehind⟩
  · intro x hx
    by_contra hxr
    rcases mem_cons.mp (h.sorted.perm.mem_iff.mp (hsub x hx)) with rfl | hx
    · exact hxr h.kept
    · have hmem := mem_unconfirmed.mpr ⟨hx, hxr⟩
      rw [hnone] at hmem
      cases hmem
  · have hsided := sided_of_behind h.kept halike hone hbehind h.sorted
    have hadd := confirmedIn_add reply left
    rw [hone, length_singleton] at hadd
    have hlen := h.length_eq
    have hcount := h.confirmedIn_eq
    have henough := h.enough
    exact single_removed h.kept h.rounds_pos (by omega) h.held hsided (Or.inl ⟨by omega, by omega⟩) h.run

/-- And otherwise one that is not confirmed survives, if none compares equal to the new entry. -/
theorem MetAt.fits (h : MetAt reg passed rounds left l r reply)
    (halike : Alike reg reply left) (huntied : Untied reg reply left)
    (hall : ∀ x ∈ r, x.address ∈ reply) (hsub : ∀ x ∈ r, x ∈ l) :
    unconfirmed reply left = [] ∨ ∃ x, unconfirmed reply left = [x] ∧ passed ≤ confirmedIn reply left ∧
      SortedBehind reg x := by
  have hranked : Ranked reg.winsOwner (reg :: left) (sortKey reg) :=
    ranked_sortKey huntied.span fun x hx => huntied.span x hx reg mem_cons_self
  have hrankedl : Ranked reg.winsOwner l (sortKey reg) :=
    hranked.mono fun _ hx => h.sorted.perm.mem_iff.mp hx
  have hlined : Lined (sortKey reg) l := h.sorted.lined _ hranked
  have hkey : ∀ x ∈ l, x.address ∈ reply →
      sortKey reg x = sortKey reg reg := by
    intro x hx hxr
    obtain ⟨howner, hexpire⟩ := halike.compares x (h.sorted.perm.mem_iff.mp hx) hxr
    rw [sortKey, sortKey, howner, hexpire]
  have hlen := h.length_eq
  have hcount := h.confirmedIn_eq
  have henough := h.enough
  by_cases hahead : ∃ x ∈ l, sortKey reg x <
      sortKey reg reg
  · obtain ⟨x, hx, hlt⟩ := ahead_survives h.kept h.rounds_pos (by omega) h.held hrankedl hlined (Nat.succ_pos _) hahead h.run
    exact absurd (hkey x (hsub x hx) (hall x hx)) (Nat.ne_of_lt hlt)
  · have hbehind : ∀ x ∈ left, x.address ∉ reply →
        sortKey reg reg < sortKey reg x := by
      intro x hx hxr
      have hge : ¬sortKey reg x < _ := fun hlt =>
        hahead ⟨x, h.sorted.perm.mem_iff.mpr (mem_cons_of_mem _ hx), hlt⟩
      have htie := huntied.noTie x hx hxr
      have hspan := huntied.span x (mem_cons_of_mem _ hx) reg mem_cons_self
      simp only [sortKey] at hge hspan ⊢
      by_cases howner : x.winsOwner = reg.winsOwner
      · have hexpire : x.expireTime ≠ reg.expireTime := fun heq => htie ⟨howner, heq⟩
        simp only [howner, if_true] at hge ⊢
        omega
      · simp only [howner, if_true, if_false] at hge ⊢
        omega
    have hsided : Sided reg.winsOwner reply (sortKey reg) l := by
      refine ⟨hrankedl, hlined, fun x hx y hy hxr hyr => ?_⟩
      rw [hkey x hx hxr]
      rcases mem_cons.mp (h.sorted.perm.mem_iff.mp hy) with rfl | hy
      · exact absurd h.kept hyr
      · exact hbehind y hy hyr
    have hadd := confirmedIn_add reply left
    have hfew : ¬(passed + 1 ≤ confirmedIn reply l ∧ confirmedIn reply l + 2 ≤ l.length ∨
        confirmedIn reply l < passed + 1 ∧ confirmedIn reply l + 1 ≤ l.length) := fun hmany => by
      obtain ⟨x, hx, hxr⟩ := behind_survives h.kept h.rounds_pos (by omega) h.held hsided hmany h.run
      exact hxr (hall x hx)
    cases hstale : unconfirmed reply left with
    | nil => exact Or.inl rfl
    | cons x rest =>
      rw [hstale, length_cons] at hadd
      obtain rfl : rest = [] := eq_nil_of_length_eq_zero (by omega)
      have hx := mem_unconfirmed.mp (show x ∈ unconfirmed reply left by rw [hstale]; exact mem_cons_self)
      have hlt := hbehind x hx.1 hx.2
      refine Or.inr ⟨x, rfl, by omega, ?_, ?_⟩
      · exact (hranked _ mem_cons_self _ (mem_cons_of_mem _ hx.1)).mpr hlt
      · exact mt (hranked _ (mem_cons_of_mem _ hx.1) _ mem_cons_self).mp (Nat.not_lt_of_gt hlt)

end MetAt

/-- The walk ends, and does what it is there for if it fits the list, and unless something ties only then. -/
def Settles (reg : WinsdbAddr) (reply : List Text) (old : List WinsdbAddr) : Prop :=
  ∃ r, walk reg reply (old.length + 2) old 0 = some r ∧
    (WalkFits reg reply old → ExactlyConfirmed reg reply old ((added reg r).map WinsdbAddr.toValue)) ∧
    (Untied reg reply old → ExactlyConfirmed reg reply old ((added reg r).map WinsdbAddr.toValue) → WalkFits reg reply old)

theorem met_settles {old : List WinsdbAddr} (hreg : reg.address ∈ reply) (hold : AddrListOk old) (hmet : fromKept reply old ≠ []) :
    Settles reg reply old := by
  have hsub : (unseen reply old ++ fromKept reply old).Sublist old := unseen_sublist reply old
  generalize hpassed : unseen reply old ++ fromKept reply old = y at hsub
  have hd : Distinct y := hold.distinct.sublist (hsub.map _)
  have hadd := @added_resorted reg _ hd
  obtain ⟨rounds, hrounds, hwalk⟩ := (walk_unseen reg reply old (old.length + 1) []
    hold.distinct (Nat.lt_succ_self _)).2 hmet
  rw [nil_append, nil_append, length_nil, Nat.zero_add, hpassed] at hwalk
  rw [Settles, hwalk]
  generalize added reg y = l at hadd ⊢
  have hheld := held_of_standing hd hadd
  have hstanding : (standing reg y).length ≤ y.length := standing_sublist.length_le
  have hlen : y.length = (unseen reply old).length + (fromKept reply old).length := by rw [← hpassed, length_append]
  obtain ⟨r, -, hr, hheldr, hfrom, hto, -, -⟩ := walk_held (fun _ _ => True) hreg (fun _ _ _ _ _ _ _ _ _ => trivial)
    (fun _ _ _ _ _ _ _ => trivial) rounds l ((unseen reply old).length + 1) (by omega)
    (by rw [hadd.perm.length_eq, length_cons]; omega) hheld trivial
  have hat : MetAt reg (unseen reply old).length rounds (standing reg y) l r reply :=
    ⟨hreg, hadd, hheld, by omega, hr⟩
  refine ⟨r, hr, ?_⟩
  have hfinal := hheldr.resorted
  generalize added reg r = final at hfinal ⊢
  have hfinalFrom := from_standing hd (fun x hx => hsub.subset hx) hadd
    (fun x hx => hfrom x (hfinal.perm.mem_iff.mp hx))
  rw [exactlyConfirmed_iff hreg hold.distinct (hheldr.of_perm hfinal.perm) hfinalFrom]
  have hleft : ∀ x ∈ standing reg y, x ∈ old ∧ x.address ≠ reg.address := fun x hx =>
    ⟨hsub.subset (standing_sublist.subset hx), standing_address hd x hx⟩
  have hstay : ∀ x ∈ old, x.address ∈ reply → x.address ≠ reg.address →
      (x ∈ final ↔ displaced reg y ≠ some x) := by
    intro x hx hxr hne
    rw [← mem_standing hd (hpassed ▸ mem_unseen hx hxr), hfinal.perm.mem_iff]
    constructor
    · intro hxf
      refine (mem_cons.mp (hadd.perm.mem_iff.mp (hfrom x hxf))).resolve_left ?_
      rintro rfl
      exact hne rfl
    · intro hxs
      exact hto x (hadd.perm.mem_iff.mpr (mem_cons_of_mem _ hxs)) hxr
  refine ⟨fun hfits => ⟨fun x hx => ?_, fun x hx hxr hne => ⟨?_, hfits.fresh x hx hxr hne⟩⟩, fun huntied hexact => ?_⟩
  · have hone := hfits.oneLeft hmet _ (congrArg (standing reg) hpassed)
    have halike : Alike reg reply (standing reg y) := fun x hx hxr =>
      hfits.fresh x (hleft x hx).1 hxr (hleft x hx).2
    exact hat.all_confirmed halike hfrom hone x (hfinal.perm.mem_iff.mp hx)
  · rw [hstay x hx hxr hne]
    exact fun hdisplaced => hne (hfits.stays hmet x (hpassed ▸ hdisplaced) hxr)
  · obtain ⟨hall, hkept⟩ := hexact
    refine ⟨fun x hx hxr hne => (hkept x hx hxr hne).2, fun hnil => absurd hnil hmet, fun _ x hdisplaced hxr => ?_, fun _ left heq => ?_⟩
    · rw [hpassed] at hdisplaced
      by_contra hne
      have hx := hsub.subset (displaced_mem hdisplaced)
      exact (hstay x hx hxr hne).mp (hkept x hx hxr hne).1 hdisplaced
    · rw [hpassed] at heq
      subst heq
      refine hat.fits (fun x hx hxr => (hkept x (hleft x hx).1 hxr (hleft x hx).2).2) ⟨fun x hx => huntied.noTie x (hleft x hx).1, ?_⟩
        (fun x hx => hall x (hfinal.perm.mem_iff.mpr hx)) hfrom
      have hcons : ∀ x ∈ reg :: standing reg y,
          x ∈ reg :: old := by
        intro x hx
        rcases mem_cons.mp hx with rfl | hx
        · exact mem_cons_self
        · exact mem_cons_of_mem _ (hleft x hx).1
      exact fun x hx z hz => huntied.span x (hcons x hx) z (hcons z hz)

end Met

/-! ## What a granted registration stores -/

theorem walk_settles {reg : WinsdbAddr} {reply : List Text} {old : List WinsdbAddr} (hreg : reg.address ∈ reply)
    (hold : AddrListOk old) : Settles reg reply old := by
  by_cases hmet : fromKept reply old = []
  · have hwalk := (walk_unseen reg reply old (old.length + 1) [] hold.distinct (Nat.lt_succ_self _)).1 hmet
    have hiff := unmet_iff hreg hold hmet
    exact ⟨_, hwalk, hiff.mpr, fun _ => hiff.mp⟩
  · exact met_settles hreg hold hmet

/-- The entry of the registration. -/
def WackState.newEntry (s : WackState) (localOwner : Text) (config : RenewIntervals) (now : Int) : WinsdbAddr :=
  ⟨s.regAddress, localOwner, now + winsServerTtl config s.requestPacket.ttl⟩

/-- The record that is stored has exactly the confirmed addresses. -/
def StoresConfirmed (localOwner : Text) (config : RenewIntervals) (now : Int) (s : WackState) (db : Winsdb) : Prop :=
  ∃ msg, db.records s.record.name = some msg ∧
    ExactlyConfirmed (s.newEntry localOwner config now) s.reply s.record.addresses msg.address

/-- A registration that the challenge grants is accepted; the record then has exactly the confirmed addresses if the walk fits the
list, and, unless an address that is gone compares equal to the new entry, only then. -/
theorem winsWackAllow_confirmed_iff (localOwner : Text) (config : RenewIntervals) (db : Winsdb) (now : Int) (s : WackState)
    {rec2 : WinsdbRecord} (hlookup : winsdbLookup (qsortHandle localOwner) db now s.record.name = .ok rec2)
    (hsame : rec2.version = s.record.version ∧ rec2.winsOwner = s.record.winsOwner) (hok : s.challengeOk = true)
    (hstatic : s.record.isStatic = false) (haddr : AddrListOk s.record.addresses) (hreg : s.regAddress ∈ s.reply)
    (hmax : db.maxVersion + 1 < 2 ^ 64) :
    ∃ db', winsWackAllow (qsortHandle localOwner) config db now s = .accepted db' ∧
      (WalkFits (s.newEntry localOwner config now) s.reply s.record.addresses →
        StoresConfirmed localOwner config now s db') ∧
      (Untied (s.newEntry localOwner config now) s.reply s.record.addresses →
        StoresConfirmed localOwner config now s db' →
        WalkFits (s.newEntry localOwner config now) s.reply s.record.addresses) := by
  have hthere : (db.records s.record.name).isSome := by
    rw [winsdbLookup] at hlookup
    cases hrec : db.records s.record.name with
    | none =>
      rw [hrec] at hlookup
      cases hlookup
    | some msg => rfl
  obtain ⟨r, hr, hfits, hexact⟩ := @walk_settles (s.newEntry localOwner config now) _ _ hreg haddr
  have hchanged : ¬(rec2.version ≠ s.record.version ∨ rec2.winsOwner ≠ s.record.winsOwner) := by
    rw [not_or, not_not, not_not]
    exact hsame
  generalize hfinal : added (s.newEntry localOwner config now) r = final at hfits hexact
  have hend : winsWackAllow (qsortHandle localOwner) config db now s = .accepted ((winsdbModify (qsortHandle localOwner) db
      (s.granted (now + winsServerTtl config s.requestPacket.ttl) final) ⟨true, true⟩).getD db) := by
    rw [winsWackAllow, hlookup]
    dsimp only
    have hloop : wackLoop (qsortHandle localOwner) s.reply s.regAddress (now + winsServerTtl config s.requestPacket.ttl)
        (s.record.addresses.length + 2) s.record.addresses 0 = some r := hr
    rw [if_neg hchanged, if_neg (by rw [hok]; decide), hloop, ← hfinal]
    rfl
  obtain ⟨record', db', hmodify, hstored, haddr', hstatic'⟩ := @winsdbModify_ok (qsortHandle localOwner) db
    (s.granted (now + winsServerTtl config s.requestPacket.ttl) final) ⟨true, true⟩ hthere hmax
  have hvalues : (winsdbMessage record').address = final.map WinsdbAddr.toValue := by
    show record'.addresses.map _ = _
    rw [haddr', hstatic', show (s.granted (now + winsServerTtl config s.requestPacket.ttl) final).isStatic = false from hstatic]
    rfl
  have hstores : StoresConfirmed localOwner config now s db' ↔
      ExactlyConfirmed (s.newEntry localOwner config now) s.reply s.record.addresses (final.map WinsdbAddr.toValue) := by
    constructor
    · rintro ⟨msg, hmsg, hconfirmed⟩
      obtain rfl := Option.some.inj (hstored.symm.trans hmsg)
      rwa [hvalues] at hconfirmed
    · intro hconfirmed
      exact ⟨_, hstored, by rwa [hvalues]⟩
  rw [hend, hmodify]
  exact ⟨db', rfl, fun hwalk => hstores.mpr (hfits hwalk), fun huntied hconfirmed => hexact huntied (hstores.mp hconfirmed)⟩

/-- An address of a small network. -/
def hostAddress (last : Char) : Text := "10.0.0.".toList.map chr ++ [chr last]

/-- A name that the server at `10.0.0.1` has registered at two addresses. -/
def registeredTwice : WinsdbMessage where
  name := ⟨"HOST".toList.map chr, none, 0⟩
  recordType := .mhomed
  recordState := .active
  nodeType := .h
  isStatic := false
  expireTime := some 2000
  versionID := 7
  winsOwner := some (hostAddress '1')
  address := [.full (hostAddress '5') (hostAddress '1') 2000, .full (hostAddress '6') (hostAddress '1') 2000]
  registeredBy := some (hostAddress '5')

/-- A database with the one record. -/
def oneRecord (msg : WinsdbMessage) : Winsdb where
  records name := if name = msg.name then some msg else none
  maxVersion := 7

/-- A registration of the name at another address, where the owner has replied to the challenge. -/
def challenged (msg : WinsdbMessage) (address : Text) (reply : List Text) : WackState where
  record := expireRecord (qsortHandle (hostAddress '1')) 1000 (msg.decode (qsortHandle (hostAddress '1')))
  requestPacket := ⟨msg.name, 3600, 0x6000, address⟩
  src := address
  newType := .mhomed
  challengeOk := true
  reply := reply

theorem registeredTwice_ok (address : Text) (reply : List Text) :
    AddrListOk (challenged registeredTwice address reply).record.addresses := by
  constructor
  · show ((registeredTwice.decode (qsortHandle (hostAddress '1'))).addresses).length ≤ 25
    decide
  · show ((registeredTwice.decode (qsortHandle (hostAddress '1'))).addresses.map (·.address)).Nodup
    decide

/-- The owner registers its first address once more, and has given up the second. -/
theorem winsWackAllow_confirmed_iff_first : ∃ db',
    winsWackAllow (qsortHandle (hostAddress '1')) ⟨600, 6000⟩ (oneRecord registeredTwice) 1000
      (challenged registeredTwice (hostAddress '5') [hostAddress '5']) = .accepted db' ∧
    StoresConfirmed (hostAddress '1') ⟨600, 6000⟩ 1000 (challenged registeredTwice (hostAddress '5') [hostAddress '5']) db' := by
  have hwalk : WalkFits ⟨hostAddress '5', hostAddress '1', 4600⟩ [hostAddress '5']
      (registeredTwice.decode (qsortHandle (hostAddress '1'))).addresses := by
    refine ⟨by decide, by decide, fun _ x hx _ => ?_, fun _ left hleft => Or.inr ?_⟩
    · rw [← Option.some.inj ((show displaced _ _ = some _ from rfl).symm.trans hx)]
      rfl
    · subst hleft
      exact ⟨_, rfl, by decide, by decide⟩
  obtain ⟨db', hend, hstores, -⟩ := winsWackAllow_confirmed_iff (hostAddress '1') ⟨600, 6000⟩ (oneRecord registeredTwice) 1000
    (challenged registeredTwice (hostAddress '5') [hostAddress '5']) rfl ⟨rfl, rfl⟩ rfl rfl (registeredTwice_ok _ _) (by decide)
    (by decide)
  exact ⟨db', hend, hstores hwalk⟩

/-- The owner has given up both addresses, and the second one stays in the record. -/
theorem winsWackAllow_keeps_unconfirmed : ∃ db',
    winsWackAllow (qsortHandle (hostAddress '1')) ⟨600, 6000⟩ (oneRecord registeredTwice) 1000
      (challenged registeredTwice (hostAddress '7') [hostAddress '7']) = .accepted db' ∧
    ¬StoresConfirmed (hostAddress '1') ⟨600, 6000⟩ 1000 (challenged registeredTwice (hostAddress '7') [hostAddress '7']) db' := by
  refine ⟨_, rfl, ?_⟩
  rintro ⟨msg, hmsg, hconfirmed⟩
  obtain rfl := Option.some.inj hmsg
  revert hconfirmed
  decide

end Samba.Wrepl
