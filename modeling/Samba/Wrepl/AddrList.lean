/-
The address lists of WINS records (nbt_server/wins/winsdb.c) over any run of `winsdb_addr_list_add` and
`winsdb_addr_list_remove`. A list holds at most 25 entries, one for each address; what an add puts out of a full list is the
oldest replica, or the oldest address where there is no replica.
-/
import Samba.Wrepl.Winsdb

namespace Samba.Wrepl

open CString List

/-! ## Runs -/

/-- `winsdb_addr_list_make`. -/
def winsdbAddrListMake : List WinsdbAddr := []

/-- The lists that calls of `winsdb_addr_list_add` and `winsdb_addr_list_remove` come to. -/
inductive Obtained : List WinsdbAddr → Prop
  | make : Obtained winsdbAddrListMake
  | add {addresses : List WinsdbAddr} (hobt : Obtained addresses) (h : WinsdbHandle) (address winsOwner : Text)
      (expireTime : Int) (isNameRegistration : Bool) :
      Obtained (winsdbAddrListAdd h addresses address winsOwner expireTime isNameRegistration)
  | remove {addresses : List WinsdbAddr} (hobt : Obtained addresses) (address : Text) :
      Obtained (winsdbAddrListRemove addresses address)

/-! ## The search for the oldest address -/

/-- An entry to put out of a list: a replica if there is one, and the oldest of its kind. -/
structure Oldest (localOwner : Text) (addresses : List WinsdbAddr) (old : WinsdbAddr) : Prop where
  mem : old ∈ addresses
  replica : (∃ x ∈ addresses, x.winsOwner ≠ localOwner) → old.winsOwner ≠ localOwner
  least : ∀ x ∈ addresses, (x.winsOwner ≠ localOwner ↔ old.winsOwner ≠ localOwner) → old.expireTime ≤ x.expireTime

/-- One step of the search of `winsdb_addr_list_add`. -/
def scanAddr (localOwner : Text) (found : Option WinsdbAddr × Bool) (cur : WinsdbAddr) : Option WinsdbAddr × Bool :=
  let curIsReplica := cur.winsOwner ≠ localOwner
  if found.2 ∧ ¬curIsReplica then found
  else if ¬found.2 ∧ curIsReplica then (some cur, true)
  else match found.1 with
    | none => (some cur, found.2)
    | some old => if cur.expireTime < old.expireTime then (some cur, found.2) else found

theorem oldestAddr_eq (localOwner : Text) (addresses : List WinsdbAddr) :
    oldestAddr localOwner addresses = (addresses.foldl (scanAddr localOwner) (none, false)).1 := rfl

/-- What the search carries behind a part of the list. -/
structure Scanned (localOwner : Text) (addresses : List WinsdbAddr) (found : Option WinsdbAddr × Bool) : Prop where
  replica : found.2 = true ↔ ∃ x ∈ addresses, x.winsOwner ≠ localOwner
  empty : found.1 = none → addresses = []
  oldest : ∀ old, found.1 = some old → Oldest localOwner addresses old

section Scanned

variable {localOwner : Text} {addresses : List WinsdbAddr} {cur old : WinsdbAddr}

theorem exists_replica_append : (∃ x ∈ addresses ++ [cur], x.winsOwner ≠ localOwner) ↔
    (∃ x ∈ addresses, x.winsOwner ≠ localOwner) ∨ cur.winsOwner ≠ localOwner := by
  simp only [mem_append, mem_singleton, or_and_right, exists_or, exists_eq_left]

/-- An owned address does not matter behind a replica. -/
theorem Oldest.skip (h : Oldest localOwner addresses old) (hold : old.winsOwner ≠ localOwner)
    (hcur : cur.winsOwner = localOwner) : Oldest localOwner (addresses ++ [cur]) old := by
  refine ⟨mem_append_left _ h.mem, fun _ => hold, fun x hx hkind => ?_⟩
  rcases mem_append.mp hx with hx | hx
  · exact h.least x hx hkind
  · rw [mem_singleton.mp hx] at hkind
    exact absurd hcur (hkind.mpr hold)

theorem Oldest.first (hnone : ¬∃ x ∈ addresses, x.winsOwner ≠ localOwner) (hcur : cur.winsOwner ≠ localOwner) :
    Oldest localOwner (addresses ++ [cur]) cur := by
  refine ⟨mem_append_right _ mem_cons_self, fun _ => hcur, fun x hx hkind => ?_⟩
  rcases mem_append.mp hx with hx | hx
  · exact absurd ⟨x, hx, hkind.mpr hcur⟩ hnone
  · rw [mem_singleton.mp hx]

theorem Oldest.compare (h : Oldest localOwner addresses old)
    (hkind : cur.winsOwner ≠ localOwner ↔ old.winsOwner ≠ localOwner) :
    Oldest localOwner (addresses ++ [cur]) (if cur.expireTime < old.expireTime then cur else old) := by
  have hreplica : (∃ x ∈ addresses ++ [cur], x.winsOwner ≠ localOwner) → old.winsOwner ≠ localOwner := fun hx =>
    (exists_replica_append.mp hx).elim h.replica hkind.mp
  split
  next hlt =>
    refine ⟨mem_append_right _ mem_cons_self, fun hx => hkind.mpr (hreplica hx), fun x hx hxkind => ?_⟩
    rcases mem_append.mp hx with hx | hx
    · have := h.least x hx (hxkind.trans hkind)
      omega
    · rw [mem_singleton.mp hx]
  next hge =>
    refine ⟨mem_append_left _ h.mem, hreplica, fun x hx hxkind => ?_⟩
    rcases mem_append.mp hx with hx | hx
    · exact h.least x hx hxkind
    · rw [mem_singleton.mp hx]
      omega

theorem Scanned.step {found : Option WinsdbAddr × Bool} (h : Scanned localOwner addresses found) (cur : WinsdbAddr) :
    Scanned localOwner (addresses ++ [cur]) (scanAddr localOwner found cur) := by
  obtain ⟨old, isReplica⟩ := found
  obtain ⟨hreplica, hempty, hold⟩ := h
  dsimp only at hreplica hempty hold
  unfold scanAddr
  dsimp only
  by_cases hcur : cur.winsOwner = localOwner
  · cases isReplica with
    | true =>
      rw [if_pos ⟨rfl, not_not.mpr hcur⟩]
      have hsome := hreplica.mp rfl
      refine ⟨iff_of_true rfl (exists_replica_append.mpr (Or.inl hsome)), fun hn => ?_, fun old' heq => ?_⟩
      · obtain ⟨x, hx, -⟩ := hsome
        rw [hempty hn] at hx
        cases hx
      · exact (hold old' heq).skip ((hold old' heq).replica hsome) hcur
    | false =>
      have hnone : ¬∃ x ∈ addresses, x.winsOwner ≠ localOwner := fun hx => Bool.false_ne_true (hreplica.mpr hx)
      have hnone' : ¬∃ x ∈ addresses ++ [cur], x.winsOwner ≠ localOwner := fun hx =>
        (exists_replica_append.mp hx).elim hnone fun hne => hne hcur
      rw [if_neg (fun h => Bool.false_ne_true h.1), if_neg (fun h => h.2 hcur)]
      cases old with
      | none =>
        rw [hempty rfl]
        refine ⟨iff_of_false Bool.false_ne_true (by simpa using hcur), nofun, fun old' heq => ?_⟩
        cases heq
        exact ⟨mem_cons_self, fun ⟨x, hx, hne⟩ => mem_singleton.mp hx ▸ hne,
          fun x hx _ => (mem_singleton.mp hx).symm ▸ le_rfl⟩
      | some old =>
        have hold' := hold old rfl
        have howned : ¬old.winsOwner ≠ localOwner := fun hne => hnone ⟨old, hold'.mem, hne⟩
        have hcompare := hold'.compare (iff_of_false (not_not.mpr hcur) howned)
        dsimp only
        split
        next hlt =>
          rw [if_pos hlt] at hcompare
          exact ⟨iff_of_false Bool.false_ne_true hnone', nofun, fun old' heq => Option.some.inj heq ▸ hcompare⟩
        next hge =>
          rw [if_neg hge] at hcompare
          exact ⟨iff_of_false Bool.false_ne_true hnone', nofun, fun old' heq => Option.some.inj heq ▸ hcompare⟩
  · have hsome' : ∃ x ∈ addresses ++ [cur], x.winsOwner ≠ localOwner := exists_replica_append.mpr (Or.inr hcur)
    rw [if_neg (fun h => h.2 hcur)]
    cases isReplica with
    | false =>
      have hnone : ¬∃ x ∈ addresses, x.winsOwner ≠ localOwner := fun hx => Bool.false_ne_true (hreplica.mpr hx)
      rw [if_pos ⟨Bool.false_ne_true, hcur⟩]
      exact ⟨iff_of_true rfl hsome', nofun, fun old' heq => Option.some.inj heq ▸ Oldest.first hnone hcur⟩
    | true =>
      have hsome := hreplica.mp rfl
      rw [if_neg (fun h => h.1 rfl)]
      cases old with
      | none =>
        obtain ⟨x, hx, -⟩ := hsome
        rw [hempty rfl] at hx
        cases hx
      | some old =>
        have hold' := hold old rfl
        have hcompare := hold'.compare (iff_of_true hcur (hold'.replica hsome))
        dsimp only
        split
        next hlt =>
          rw [if_pos hlt] at hcompare
          exact ⟨iff_of_true rfl hsome', nofun, fun old' heq => Option.some.inj heq ▸ hcompare⟩
        next hge =>
          rw [if_neg hge] at hcompare
          exact ⟨iff_of_true rfl hsome', nofun, fun old' heq => Option.some.inj heq ▸ hcompare⟩

theorem scanned_foldl (localOwner : Text) (addresses : List WinsdbAddr) :
    Scanned localOwner addresses (addresses.foldl (scanAddr localOwner) (none, false)) := by
  induction addresses using List.reverseRecOn with
  | nil => exact ⟨iff_of_false Bool.false_ne_true fun ⟨_, hx, _⟩ => (nomatch hx), fun _ => rfl, nofun⟩
  | append_singleton addresses cur ih =>
    rw [foldl_append]
    exact ih.step cur

end Scanned

variable {addresses : List WinsdbAddr} {old : WinsdbAddr}

/-- In a list that is not empty the search finds an oldest entry. -/
theorem oldestAddr_ok (localOwner : Text) (hne : addresses ≠ []) :
    ∃ old, oldestAddr localOwner addresses = some old ∧ Oldest localOwner addresses old := by
  rw [oldestAddr_eq]
  have hscan := scanned_foldl localOwner addresses
  cases hfound : (addresses.foldl (scanAddr localOwner) (none, false)).1 with
  | none => exact absurd (hscan.empty hfound) hne
  | some old => exact ⟨old, rfl, hscan.oldest old hfound⟩

/-! ## One call -/

/-- Where no address stands twice, an entry is removed by its address. -/
theorem winsdbAddrListRemove_mem (hd : Distinct addresses)
    (hold : old ∈ addresses) : winsdbAddrListRemove addresses old.address = addresses.erase old := by
  induction addresses with
  | nil => cases hold
  | cons y ys ih =>
    obtain ⟨hy, hys⟩ := nodup_cons.mp (show (y.address :: ys.map (·.address)).Nodup from hd)
    by_cases heq : y = old
    · subst heq
      rw [winsdbAddrListRemove, eraseP_cons_of_pos (by simp), erase_cons_head]
    · have hmem := (mem_cons.mp hold).resolve_left (Ne.symm heq)
      have hne : y.address ≠ old.address := fun h => hy (h ▸ mem_map_of_mem hmem)
      rw [winsdbAddrListRemove, eraseP_cons_of_neg (by simpa), erase_cons_tail (by simpa)]
      exact congrArg (y :: ·) (ih hys hmem)

theorem addNewAddr_perm (h : WinsdbHandle) (addresses : List WinsdbAddr) (new : WinsdbAddr) :
    (addNewAddr h addresses new).Perm (new :: addresses) :=
  (h.ldbQsort_perm _ _).trans perm_append_comm

/-- A new entry in the place of an old one. -/
structure Replaces (addresses : List WinsdbAddr) (old new : WinsdbAddr) (result : List WinsdbAddr) : Prop where
  mem : old ∈ addresses
  perm : result.Perm (new :: addresses.erase old)

theorem replaces_addNewAddr (h : WinsdbHandle) (hd : Distinct addresses) (hold : old ∈ addresses) (new : WinsdbAddr) :
    Replaces addresses old new (addNewAddr h (winsdbAddrListRemove addresses old.address) new) := by
  rw [winsdbAddrListRemove_mem hd hold]
  exact ⟨hold, addNewAddr_perm h _ new⟩

theorem Replaces.length_eq {result : List WinsdbAddr} {new : WinsdbAddr}
    (h : Replaces addresses old new result) : result.length = addresses.length := by
  have hpos := length_pos_of_mem h.mem
  rw [h.perm.length_eq, length_cons, length_erase_of_mem h.mem]
  omega

theorem Distinct.perm {addresses' : List WinsdbAddr} (hd : Distinct addresses) (h : addresses'.Perm addresses) :
    Distinct addresses' := (h.map _).nodup_iff.mpr hd

theorem Replaces.distinct {result : List WinsdbAddr} {new : WinsdbAddr}
    (h : Replaces addresses old new result) (hd : Distinct addresses)
    (hnew : ∀ x ∈ addresses, x.address = new.address → x = old) : Distinct result := by
  refine Distinct.perm ?_ h.perm
  have hnodup : addresses.Nodup := List.Nodup.of_map _ hd
  refine nodup_cons.mpr ⟨fun hm => ?_, hd.sublist (erase_sublist.map _)⟩
  obtain ⟨x, hx, hxa⟩ := mem_map.mp hm
  obtain ⟨hne, hx⟩ := hnodup.mem_erase_iff.mp hx
  exact hne (hnew x hx hxa)

/-- The cases of `winsdb_addr_list_add`. -/
inductive AddCases (h : WinsdbHandle) (addresses : List WinsdbAddr) (new : WinsdbAddr) (isNameRegistration : Bool) :
    List WinsdbAddr → Prop
  | present {old : WinsdbAddr} {result : List WinsdbAddr} (hsame : old.address = new.address)
      (hrep : Replaces addresses old new result) : AddCases h addresses new isNameRegistration result
  | room {result : List WinsdbAddr} (hnew : ∀ x ∈ addresses, x.address ≠ new.address) (hlt : addresses.length < 25)
      (hperm : result.Perm (new :: addresses)) : AddCases h addresses new isNameRegistration result
  | ignored (hnew : ∀ x ∈ addresses, x.address ≠ new.address) (hfull : 25 ≤ addresses.length)
      (hreg : isNameRegistration = false) : AddCases h addresses new isNameRegistration addresses
  | evicted {old : WinsdbAddr} {result : List WinsdbAddr} (hnew : ∀ x ∈ addresses, x.address ≠ new.address)
      (hfull : 25 ≤ addresses.length) (hreg : isNameRegistration = true) (hold : Oldest h.localOwner addresses old)
      (hrep : Replaces addresses old new result) : AddCases h addresses new isNameRegistration result

theorem winsdbAddrListAdd_cases (h : WinsdbHandle) (hd : Distinct addresses)
    (address winsOwner : Text) (expireTime : Int) (isNameRegistration : Bool) :
    AddCases h addresses ⟨address, winsOwner, expireTime⟩ isNameRegistration
      (winsdbAddrListAdd h addresses address winsOwner expireTime isNameRegistration) := by
  unfold winsdbAddrListAdd
  cases hfind : winsdbAddrListCheck addresses address with
  | some old =>
    have hsame : old.address = address := by simpa using List.find?_some hfind
    exact .present hsame (replaces_addNewAddr h hd (mem_of_find?_eq_some hfind) _)
  | none =>
    have hnew : ∀ x ∈ addresses, x.address ≠ address := fun x hx => by simpa using List.find?_eq_none.mp hfind x hx
    dsimp only
    by_cases hlt : addresses.length < 25
    · rw [if_pos hlt]
      exact .room hnew hlt (addNewAddr_perm h _ _)
    · have hfull : 25 ≤ addresses.length := Nat.le_of_not_lt hlt
      rw [if_neg hlt]
      cases isNameRegistration with
      | false => exact .ignored hnew hfull rfl
      | true =>
        have hne : addresses ≠ [] := fun hnil => by rw [hnil] at hfull; exact absurd hfull (by decide)
        obtain ⟨old, heq, hold⟩ := oldestAddr_ok h.localOwner hne
        rw [heq]
        exact .evicted hnew hfull rfl hold (replaces_addNewAddr h hd hold.mem _)

theorem winsdbAddrListRemove_sublist (addresses : List WinsdbAddr) (address : Text) :
    (winsdbAddrListRemove addresses address).Sublist addresses := eraseP_sublist

/-! ## Every list -/

/-- What holds of every list. -/
structure AddrListOk (addresses : List WinsdbAddr) : Prop where
  bound : addresses.length ≤ 25
  distinct : Distinct addresses

theorem AddrListOk.add (hok : AddrListOk addresses) (h : WinsdbHandle)
    (address winsOwner : Text) (expireTime : Int) (isNameRegistration : Bool) :
    AddrListOk (winsdbAddrListAdd h addresses address winsOwner expireTime isNameRegistration) := by
  generalize hresult : winsdbAddrListAdd h addresses address winsOwner expireTime isNameRegistration = result
  have hcases := winsdbAddrListAdd_cases h hok.distinct address winsOwner expireTime isNameRegistration
  rw [hresult] at hcases
  cases hcases with
  | present hsame hrep =>
    refine ⟨hrep.length_eq ▸ hok.bound, hrep.distinct hok.distinct fun x hx hxa => ?_⟩
    exact inj_on_of_nodup_map hok.distinct hx hrep.mem (hxa.trans hsame.symm)
  | room hnew hlt hperm =>
    have hdistinct : Distinct (⟨address, winsOwner, expireTime⟩ :: addresses) := by
      refine nodup_cons.mpr ⟨fun hm => ?_, hok.distinct⟩
      obtain ⟨x, hx, hxa⟩ := mem_map.mp hm
      exact hnew x hx hxa
    exact ⟨by rw [hperm.length_eq, length_cons]; omega, hdistinct.perm hperm⟩
  | ignored => exact hok
  | evicted hnew _ _ _ hrep =>
    exact ⟨hrep.length_eq ▸ hok.bound, hrep.distinct hok.distinct fun x hx hxa => absurd hxa (hnew x hx)⟩

theorem Obtained.ok (h : Obtained addresses) : AddrListOk addresses := by
  induction h with
  | make => exact ⟨Nat.zero_le _, nodup_nil⟩
  | add _ h address winsOwner expireTime isNameRegistration ih => exact ih.add h address winsOwner expireTime isNameRegistration
  | @remove addresses _ address ih =>
    have hsub := winsdbAddrListRemove_sublist addresses address
    exact ⟨hsub.length_le.trans ih.bound, ih.distinct.sublist (hsub.map _)⟩

/-- What an add does to a list. -/
structure AddsTo (addresses : List WinsdbAddr) : Prop where
  present : ∀ (h : WinsdbHandle) (old : WinsdbAddr) (winsOwner : Text) (expireTime : Int) (isNameRegistration : Bool),
    old ∈ addresses → Replaces addresses old ⟨old.address, winsOwner, expireTime⟩
      (winsdbAddrListAdd h addresses old.address winsOwner expireTime isNameRegistration)
  full : ∀ (h : WinsdbHandle) (address winsOwner : Text) (expireTime : Int),
    addresses.length = 25 → (∀ x ∈ addresses, x.address ≠ address) →
      (∃ old, Oldest h.localOwner addresses old ∧
        Replaces addresses old ⟨address, winsOwner, expireTime⟩
          (winsdbAddrListAdd h addresses address winsOwner expireTime true)) ∧
      winsdbAddrListAdd h addresses address winsOwner expireTime false = addresses

/-- A list holds at most 25 entries and no address twice, and an add replaces the entry of its address, or, if the list is full,
the oldest one where it is a name registration. -/
theorem addrList_ok {addresses : List WinsdbAddr} (hobt : Obtained addresses) :
    addresses.length ≤ 25 ∧ Distinct addresses ∧ AddsTo addresses := by
  obtain ⟨hbound, hd⟩ := hobt.ok
  refine ⟨hbound, hd, ⟨fun h old winsOwner expireTime isNameRegistration hold => ?_, fun h address winsOwner expireTime hfull hnew => ⟨?_, ?_⟩⟩⟩
  · generalize hresult : winsdbAddrListAdd h addresses old.address winsOwner expireTime isNameRegistration = result
    have hcases := winsdbAddrListAdd_cases h hd old.address winsOwner expireTime isNameRegistration
    rw [hresult] at hcases
    cases hcases with
    | @present old' _ hsame hrep =>
      have heq : old' = old := inj_on_of_nodup_map hd hrep.mem hold hsame
      exact heq ▸ hrep
    | room hnew => exact absurd rfl (hnew old hold)
    | ignored hnew => exact absurd rfl (hnew old hold)
    | evicted hnew => exact absurd rfl (hnew old hold)
  · generalize hresult : winsdbAddrListAdd h addresses address winsOwner expireTime true = result
    have hcases := winsdbAddrListAdd_cases h hd address winsOwner expireTime true
    rw [hresult] at hcases
    cases hcases with
    | present hsame hrep => exact absurd hsame (hnew _ hrep.mem)
    | room _ hlt => omega
    | ignored _ _ hreg => cases hreg
    | evicted _ _ _ hold hrep => exact ⟨_, hold, hrep⟩
  · generalize hresult : winsdbAddrListAdd h addresses address winsOwner expireTime false = result
    have hcases := winsdbAddrListAdd_cases h hd address winsOwner expireTime false
    rw [hresult] at hcases
    cases hcases with
    | present hsame hrep => exact absurd hsame (hnew _ hrep.mem)
    | room _ hlt => omega
    | ignored => rfl
    | evicted _ _ hreg => cases hreg

/-- A handle whose sort is by insertion. -/
def sortingHandle : WinsdbHandle where
  localOwner := "10.0.0.1".toList.map chr
  ldbQsort cmp l := l.insertionSort fun a b => cmp a b ≤ 0
  ldbQsort_perm _ l := perm_insertionSort _ l

/-- A list after a number of registrations. -/
def registered (h : WinsdbHandle) : Nat → List WinsdbAddr
  | 0 => winsdbAddrListMake
  | n + 1 => winsdbAddrListAdd h (registered h n) [UInt8.ofNat n] h.localOwner n true

theorem registered_obtained (h : WinsdbHandle) (n : Nat) : Obtained (registered h n) := by
  induction n with
  | zero => exact .make
  | succ n ih => exact ih.add h _ _ _ true

/-- A registration puts the oldest address out of a full list. -/
theorem addrList_full : ∃ old, Oldest sortingHandle.localOwner (registered sortingHandle 25) old ∧
    Replaces (registered sortingHandle 25) old ⟨[200], sortingHandle.localOwner, 7⟩
      (winsdbAddrListAdd sortingHandle (registered sortingHandle 25) [200] sortingHandle.localOwner 7 true) :=
  ((addrList_ok (registered_obtained sortingHandle 25)).2.2.full sortingHandle [200] sortingHandle.localOwner 7
    (by decide) (by decide)).1

end Samba.Wrepl
