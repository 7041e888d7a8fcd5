/-
The counter of a domain, `nextRid`, under the operations of the `samldb` module. Whatever
`samldb_notice_sid` does, it never lowers the counter, and a SID of the domain that it accepts is
below the counter afterwards; only the counter of one domain is written, and its text is read back
as the number it was made from.
-/
import Samba.Dsdb.Samldb

namespace Samba.Dsdb

open CString List Samba.Security

/-! ## The text of the counter -/

theorem ridOfText_textOfRid (rid : UInt32) : ridOfText (textOfRid rid) = rid := by
  have hlt := rid.toNat_lt
  rw [ridOfText, textOfRid, strtoll_padded (by omega), UInt32.ofInt,
    Int.emod_eq_of_lt (by omega) (by omega), Int.toNat_natCast, UInt32.ofNat_toNat]

/-! ## The SIDs of a domain -/

/-- A SID that others can be made from: there is room for another sub-authority. -/
structure HasRoom (domSid : DomSid) : Prop where
  nonneg : 0 ≤ domSid.numAuths
  lt : domSid.numAuths < 15

namespace HasRoom

variable {domSid : DomSid} (hroom : HasRoom domSid)
include hroom

theorem parts (rid : UInt32) : (domSidAddRid domSid rid).numAuths = domSid.numAuths + 1 ∧
    (domSidAddRid domSid rid).subAuths = domSid.subAuths ++ [rid] := by
  have hnonneg := hroom.nonneg
  have hlt := hroom.lt
  refine domSidAddRid_numAuths hnonneg (by omega) ?_
  rw [domSidAddRid, DomSid.ofSubAuths_numAuths, length_append, length_singleton, domSid.length_subAuths,
    Int.bmod_def]
  split <;> omega

theorem domainPart_addRid (rid : UInt32) : domainPart (domSidAddRid domSid rid) = domSid := by
  obtain ⟨hnum, hsubs⟩ := hroom.parts rid
  have hlen := domSid.length_subAuths
  have h1 : (domSidAddRid domSid rid).numAuths - 1 = domSid.numAuths := by omega
  have h2 : (domSidAddRid domSid rid).subAuths.take ((domSidAddRid domSid rid).numAuths - 1).toNat = domSid.subAuths := by
    rw [hsubs, h1, ← hlen, take_left]
  cases domSid
  rw [domainPart, DomSid.mk.injEq]
  exact ⟨rfl, h1, rfl, h2⟩

theorem lastRid_addRid (rid : UInt32) : lastRid (domSidAddRid domSid rid) = rid := by
  rw [lastRid, lastSubAuth, (hroom.parts rid).2, List.getLast?_concat, Option.getD_some]

theorem addRid_injective {a b : UInt32} (h : domSidAddRid domSid a = domSidAddRid domSid b) : a = b := by
  rw [← hroom.lastRid_addRid a, h, hroom.lastRid_addRid]

end HasRoom

/-! ## Records -/

namespace Samdb

variable {db : Samdb} {dn dn' : Dn} {r : Record}

theorem mem_of_find? (h : db.find? dn = some r) : r ∈ db.records ∧ r.dn = dn :=
  ⟨mem_of_find?_eq_some h, by simpa using List.find?_some h⟩

/-- A record is the one a base search at its DN finds. -/
theorem find?_of_mem (h : r ∈ db.records) : db.find? r.dn = some r := by
  obtain ⟨records, nodup⟩ := db
  simp only [find?] at h ⊢
  induction records with
  | nil => cases h
  | cons r' records ih =>
    rw [map_cons, nodup_cons] at nodup
    rcases mem_cons.mp h with rfl | hmem
    · rw [List.find?_cons_of_pos (by simp)]
    · have hne : r'.dn ≠ r.dn := fun heq => nodup.1 (heq ▸ mem_map_of_mem hmem)
      rw [List.find?_cons_of_neg (by simpa using hne)]
      exact ih nodup.2 hmem

theorem find?_setNextRid_ne {str : Text} (h : dn' ≠ dn) : (db.setNextRid dn str).find? dn' = db.find? dn' := by
  obtain ⟨records, nodup⟩ := db
  simp only [find?, setNextRid]
  clear nodup
  induction records with
  | nil => rfl
  | cons r records ih =>
    rw [map_cons]
    by_cases hr : r.dn = dn
    · have hne : ¬ r.dn = dn' := fun heq => h (heq.symm.trans hr)
      rw [if_pos hr, List.find?_cons_of_neg (by simpa using hne), List.find?_cons_of_neg (by simpa using hne), ih]
    · rw [if_neg hr, List.find?_cons, List.find?_cons, ih]

theorem find?_setNextRid_self {str : Text} (h : db.find? dn = some r) :
    (db.setNextRid dn str).find? dn = some { r with nextRid := some str } := by
  obtain ⟨hmem, hdn⟩ := mem_of_find? h
  have hmem' : { r with nextRid := some str } ∈ (db.setNextRid dn str).records :=
    mem_map.mpr ⟨r, hmem, if_pos hdn⟩
  subst hdn
  exact find?_of_mem hmem'

theorem find?_insert_ne {h : ∀ r' ∈ db.records, r'.dn ≠ r.dn} (hne : r.dn ≠ dn) :
    (db.insert r h).find? dn = db.find? dn :=
  List.find?_cons_of_neg (by simpa using hne)

theorem find?_delete_ne (h : dn' ≠ dn) : (db.delete dn).find? dn' = db.find? dn' := by
  obtain ⟨records, nodup⟩ := db
  simp only [find?, delete]
  clear nodup
  induction records with
  | nil => rfl
  | cons r records ih =>
    by_cases hr : r.dn = dn
    · have hne : ¬ r.dn = dn' := fun heq => h (heq.symm.trans hr)
      rw [filter_cons_of_neg (by simpa using hr), List.find?_cons_of_neg (by simpa using hne), ih]
    · rw [filter_cons_of_pos (by simpa using hr), List.find?_cons, List.find?_cons, ih]

end Samdb

/-! ## A domain -/

/-- A domain of the database: its record, and no other domain has its SID. -/
structure IsDomain (db : Samdb) (domDn : Dn) (domSid : DomSid) : Prop where
  found : ∃ r, db.find? domDn = some r ∧ r.objectClass = .domain ∧ r.objectSid = [domSid]
  unique : ∀ r ∈ db.records, r.objectClass ≠ .other → domSid ∈ r.objectSid → r.dn = domDn
  room : HasRoom domSid

variable {db db' : Samdb} {domDn dn : Dn} {domSid sid : DomSid} {next rid : UInt32}

theorem IsDomain.setNextRid (h : IsDomain db domDn domSid) (dn : Dn) (str : Text) :
    IsDomain (db.setNextRid dn str) domDn domSid := by
  obtain ⟨r, hr, hclass, hsid⟩ := h.found
  refine ⟨?_, ?_, h.room⟩
  · by_cases hdn : domDn = dn
    · subst hdn
      exact ⟨_, Samdb.find?_setNextRid_self hr, hclass, hsid⟩
    · exact ⟨r, (Samdb.find?_setNextRid_ne hdn).trans hr, hclass, hsid⟩
  · intro r' hr'
    obtain ⟨r, hr, rfl⟩ := mem_map.mp hr'
    split
    · exact h.unique r hr
    · exact h.unique r hr

theorem IsDomain.insert (h : IsDomain db domDn domSid) {sids : List DomSid}
    (hnew : ∀ r ∈ db.records, r.dn ≠ dn) : IsDomain (db.insert ⟨dn, .other, sids, none⟩ hnew) domDn domSid := by
  obtain ⟨r, hr, hclass, hsid⟩ := h.found
  obtain ⟨hmem, hdn⟩ := Samdb.mem_of_find? hr
  refine ⟨⟨r, (Samdb.find?_insert_ne fun heq => hnew r hmem (hdn.trans heq.symm)).trans hr, hclass, hsid⟩, ?_, h.room⟩
  intro r' hr' hother
  rcases mem_cons.mp hr' with rfl | hmem'
  · exact absurd rfl hother
  · exact h.unique r' hmem' hother

theorem IsDomain.delete (h : IsDomain db domDn domSid) (hne : domDn ≠ dn) : IsDomain (db.delete dn) domDn domSid := by
  obtain ⟨r, hr, hclass, hsid⟩ := h.found
  exact ⟨⟨r, (Samdb.find?_delete_ne hne).trans hr, hclass, hsid⟩,
    fun r' hr' => h.unique r' (mem_of_mem_filter hr'), h.room⟩

/-- The search for the domain of one of its SIDs finds it alone. -/
theorem IsDomain.domainsWithSid (h : IsDomain db domDn domSid) :
    ∃ r, db.domainsWithSid domSid = [r] ∧ r.dn = domDn := by
  obtain ⟨r, hr, hclass, hsid⟩ := h.found
  obtain ⟨hmem, hdn⟩ := Samdb.mem_of_find? hr
  have hin : r ∈ db.domainsWithSid domSid := mem_filter.mpr ⟨hmem, by simp [hsid, hclass]⟩
  have hall : ∀ r' ∈ db.domainsWithSid domSid, r' = r := by
    intro r' hr'
    obtain ⟨hmem', hp⟩ := mem_filter.mp hr'
    obtain ⟨hsid', hclass'⟩ := of_decide_eq_true hp
    have hdn' := h.unique r' hmem' (by rw [hclass']; exact nofun) hsid'
    have hfind := Samdb.find?_of_mem hmem'
    rw [hdn', hr] at hfind
    exact (Option.some.inj hfind).symm
  have hnodup : (db.domainsWithSid domSid).Nodup := (List.Nodup.of_map _ db.nodup).filter _
  refine ⟨r, ?_, hdn⟩
  match hd : db.domainsWithSid domSid with
  | [] => rw [hd] at hin; cases hin
  | [r'] => rw [hall r' (by rw [hd]; exact mem_singleton_self r')]
  | r₁ :: r₂ :: rest =>
    rw [hd] at hnodup hall
    have h1 := hall r₁ mem_cons_self
    have h2 := hall r₂ (mem_cons_of_mem _ mem_cons_self)
    rw [h1, h2, nodup_cons] at hnodup
    exact absurd mem_cons_self hnodup.1

/-! ## What the counter can become -/

theorem samldbFindNextRid_setNextRid_ne {str : Text} (h : dn ≠ domDn) :
    samldbFindNextRid (db.setNextRid dn str) domDn = samldbFindNextRid db domDn := by
  rw [samldbFindNextRid, Samdb.find?_setNextRid_ne (Ne.symm h), ← samldbFindNextRid]

theorem samldbFindNextRid_setNextRid_self {r : Record} (h : db.find? dn = some r) :
    samldbFindNextRid (db.setNextRid dn (textOfRid rid)) dn = .ok rid := by
  rw [samldbFindNextRid, Samdb.find?_setNextRid_self h]
  dsimp only
  rw [ridOfText_textOfRid]

/-- A successful `samldb_set_next_rid`: the counter stood at the old number and stands at the new one. -/
theorem samldbSetNextRid_ok {oldId newId : UInt32} (h : samldbSetNextRid db dn oldId newId = .ok db') :
    newId ≠ 0 ∧ samldbFindNextRid db dn = .ok oldId ∧ db' = db.setNextRid dn (textOfRid newId) ∧
      samldbFindNextRid db' dn = .ok newId := by
  unfold samldbSetNextRid at h
  split at h
  · cases h
  · rename_i hzero
    cases hr : db.find? dn with
    | none => rw [hr] at h; cases h
    | some r =>
      rw [hr] at h
      dsimp only at h
      split at h
      · rename_i htext
        cases h
        refine ⟨hzero, ?_, rfl, samldbFindNextRid_setNextRid_self hr⟩
        rw [samldbFindNextRid, hr]
        dsimp only
        rw [htext]
        dsimp only
        rw [ridOfText_textOfRid]
      · cases h

/-- The ways `samldb_notice_sid` succeeds. -/
inductive Noticed (db : Samdb) (sid : DomSid) : Samdb → Prop
  /-- The SID belongs to no domain of the database. -/
  | foreign : db.domainsWithSid (domainPart sid) = [] → Noticed db sid db
  /-- The counter is above the RID already. -/
  | below {dom : Record} {oldRid : UInt32} : db.domainsWithSid (domainPart sid) = [dom] →
      samldbFindNextRid db dom.dn = .ok oldRid → lastRid sid < oldRid → Noticed db sid db
  /-- The counter is moved above the RID. -/
  | raised {db' : Samdb} {dom : Record} {oldRid : UInt32} : db.domainsWithSid (domainPart sid) = [dom] →
      oldRid ≤ lastRid sid → samldbSetNextRid db dom.dn oldRid (lastRid sid + 1) = .ok db' → Noticed db sid db'

theorem noticed_of_ok (h : samldbNoticeSid db sid = .ok db') : db.withSid sid = [] ∧ Noticed db sid db' := by
  unfold samldbNoticeSid at h
  split at h
  · cases h
  · rename_i hunused
    refine ⟨not_not.mp hunused, ?_⟩
    split at h
    · cases h
      exact .foreign ‹_›
    · split at h
      · cases h
      · split at h
        · exact .raised ‹_› ‹_› h
        · rename_i hle
          cases h
          exact .below ‹_› ‹_› (UInt32.not_le.mp hle)
    · cases h

theorem lt_succ_of_ne_zero {a : UInt32} (h : a + 1 ≠ 0) : a < a + 1 := by
  have hne : (a + 1).toNat ≠ 0 := fun heq => h (UInt32.toNat_inj.mp heq)
  have hlt := a.toNat_lt
  rw [UInt32.toNat_add] at hne
  rw [UInt32.lt_iff_toNat_lt, UInt32.toNat_add]
  have : (1 : UInt32).toNat = 1 := rfl
  omega

/-- The domain is still there, and its counter is not lower. -/
structure Advances (domDn : Dn) (domSid : DomSid) (next : UInt32) (db' : Samdb) (next' : UInt32) : Prop where
  domain : IsDomain db' domDn domSid
  counter : samldbFindNextRid db' domDn = .ok next'
  le : next ≤ next'

/-- No SID that is noticed lowers the counter, and one of the domain is below it afterwards. -/
theorem samldbNoticeSid_advances (hdom : IsDomain db domDn domSid) (hnext : samldbFindNextRid db domDn = .ok next)
    (h : samldbNoticeSid db sid = .ok db') :
    ∃ next', Advances domDn domSid next db' next' ∧ ∀ rid, sid = domSidAddRid domSid rid → rid < next' := by
  obtain ⟨r, hr, hdn⟩ := hdom.domainsWithSid
  have hfound : ∀ rid, sid = domSidAddRid domSid rid → db.domainsWithSid (domainPart sid) = [r] ∧ lastRid sid = rid := by
    rintro rid rfl
    rw [hdom.room.domainPart_addRid, hdom.room.lastRid_addRid]
    exact ⟨hr, rfl⟩
  cases (noticed_of_ok h).2 with
  | foreign hnone =>
    refine ⟨next, ⟨hdom, hnext, UInt32.le_refl _⟩, fun rid hsid => ?_⟩
    rw [(hfound rid hsid).1] at hnone
    cases hnone
  | below hone hold hlt =>
    refine ⟨next, ⟨hdom, hnext, UInt32.le_refl _⟩, fun rid hsid => ?_⟩
    obtain ⟨hfind, hlast⟩ := hfound rid hsid
    rw [hfind] at hone
    cases hone
    rw [hdn, hnext] at hold
    cases hold
    rwa [← hlast]
  | @raised db' dom oldRid hone hle hset =>
    obtain ⟨hzero, hold, hdb, hnew⟩ := samldbSetNextRid_ok hset
    have hlt := lt_succ_of_ne_zero hzero
    have hdom' : IsDomain db' domDn domSid := hdb ▸ hdom.setNextRid _ _
    by_cases hsame : dom.dn = domDn
    · rw [hsame] at hold hnew
      rw [hnext] at hold
      cases hold
      exact ⟨_, ⟨hdom', hnew, UInt32.le_trans hle (UInt32.le_of_lt hlt)⟩, fun rid hsid => (hfound rid hsid).2 ▸ hlt⟩
    · refine ⟨next, ⟨hdom', ?_, UInt32.le_refl _⟩, fun rid hsid => ?_⟩
      · rw [hdb, samldbFindNextRid_setNextRid_ne hsame, hnext]
      · rw [(hfound rid hsid).1] at hone
        cases hone
        exact absurd hdn hsame

end Samba.Dsdb
