/-
The prefix table of the schema (dsdb/schema/schema_init.c) and the maps between OIDs and attribute ids. An id is mapped to an OID and back to itself; an OID comes back from its id unless its
last arc is spelled in another way than `%u` prints it, or is a number that an `unsigned` does not hold.
-/
import Samba.Security.SidText

namespace Samba.Dsdb

open CString List
open Samba.Security (NumberParts exists_of_strtoul)

/-! ## The table -/

/-- The errors of these calls. -/
inductive WError
  | invalidParam | dsNoMsdsIntid
  deriving DecidableEq, Repr

/-- `struct dsdb_schema_oid_prefix`. -/
structure DsdbSchemaOidPrefix where
  id : UInt32
  oid : Text
  oidLen : Nat
  deriving DecidableEq, Repr

/-- The prefix that is stored for a mapping: its OID with a dot behind it. -/
def prefixEntry (idPrefix : UInt32) (oid : Text) : DsdbSchemaOidPrefix :=
  ⟨idPrefix <<< 16, oid ++ [chr '.'], (oid ++ [chr '.']).length⟩

/-- `dsdb_map_oid2int`, over the prefixes of the schema. -/
def dsdbMapOid2int : List DsdbSchemaOidPrefix → Text → Except WError UInt32
  | [], _ => .error .dsNoMsdsIntid
  | p :: prefixes, s =>
    if strncmp p.oidLen p.oid s ≠ 0 then dsdbMapOid2int prefixes s
    else
      let valStr := s.drop p.oidLen
      if valStr = [] then .error .invalidParam
      -- two '.' chars are invalid
      else if valStr.head? = some (chr '.') then .error .invalidParam
      else
        let endStr := (strtoul 10 valStr).2
        let val := UInt32.ofNat (strtoul 10 valStr).1
        -- if it's a '.' and not the last char then maybe an other mapping apply
        if endStr.head? = some (chr '.') ∧ endStr.tail ≠ [] then dsdbMapOid2int prefixes s
        else if endStr ≠ [] then .error .invalidParam
        else if 0xFFFF < val then .error .invalidParam
        else .ok (p.id ||| val)

/-- `dsdb_map_int2oid`. -/
def dsdbMapInt2oid : List DsdbSchemaOidPrefix → UInt32 → Except WError Text
  | [], _ => .error .dsNoMsdsIntid
  | p :: prefixes, x =>
    if p.id ≠ x &&& 0xFFFF0000 then dsdbMapInt2oid prefixes x
    else .ok (p.oid ++ padded 0 (x &&& 0xFFFF).toNat)

/-! ## OIDs -/

/-- Arcs as they stand in front of others: each with a dot behind it. -/
def arcsDotted (arcs : List Nat) : Text := arcs.flatMap fun arc => padded 0 arc ++ [chr '.']

/-- A text is an OID: numbers with dots between them. -/
def IsOid (oid : Text) : Prop := ∃ arcs, arcs ≠ [] ∧ oid ++ [chr '.'] = arcsDotted arcs

/-- An entry of the table: an OID with a dot behind it, and an id of the upper 16 bits. -/
structure DsdbSchemaOidPrefix.Ok (p : DsdbSchemaOidPrefix) : Prop where
  oid : ∃ arcs, arcs ≠ [] ∧ p.oid = arcsDotted arcs
  oidLen : p.oidLen = p.oid.length
  id : p.id &&& 0xFFFF = 0

/-- A prefix table with distinct ids and distinct OIDs; one OID may begin with another. -/
structure OidPrefixTable where
  prefixes : List DsdbSchemaOidPrefix
  ok : ∀ p ∈ prefixes, p.Ok
  ids : (prefixes.map (·.id)).Nodup
  oids : (prefixes.map (·.oid)).Nodup

/-- What is behind the prefix of an OID is read as a number of 16 bits that is printed in another way. -/
def Misread (arc : Text) : Prop :=
  ∃ n : NumberParts, arc = n.text ∧ UInt32.ofNat n.ulong ≤ 0xFFFF ∧ arc ≠ padded 0 (UInt32.ofNat n.ulong).toNat

/-- The two maps are inverse to each other, as far as some OIDs go. -/
structure MapsBothWays (T : OidPrefixTable) (oids : Text → Prop) : Prop where
  back : ∀ oid x, oids oid → dsdbMapOid2int T.prefixes oid = .ok x → dsdbMapInt2oid T.prefixes x = .ok oid
  forth : ∀ x oid, dsdbMapInt2oid T.prefixes x = .ok oid → dsdbMapOid2int T.prefixes oid = .ok x
  injective : ∀ oid oid' x, oids oid → oids oid' → dsdbMapOid2int T.prefixes oid = .ok x →
    dsdbMapOid2int T.prefixes oid' = .ok x → oid = oid'

/-! ## Arcs with dots -/

theorem dot_notMem_padded (n : Nat) : chr '.' ∉ padded 0 n := by
  intro hmem
  obtain ⟨v, hv, -⟩ := isDigitOf_padded _ hmem
  rw [show digitVal (chr '.') = none by decide] at hv
  cases hv

theorem arcsDotted_cons (arc : Nat) (arcs : List Nat) :
    arcsDotted (arc :: arcs) = padded 0 arc ++ chr '.' :: arcsDotted arcs := by
  simp [arcsDotted]

/-- Where dotted arcs begin with others, they begin with them arc by arc. -/
theorem arcsDotted_prefix {a b : List Nat} {s : Text} (h : arcsDotted a = arcsDotted b ++ s) :
    ∃ c, a = b ++ c ∧ s = arcsDotted c := by
  induction b generalizing a with
  | nil => exact ⟨a, rfl, h.symm⟩
  | cons y b ih =>
    cases a with
    | nil =>
      have hlength := congrArg List.length h
      rw [arcsDotted_cons] at hlength
      simp [arcsDotted] at hlength
    | cons x a =>
      rw [arcsDotted_cons, arcsDotted_cons, append_assoc, cons_append] at h
      obtain ⟨harc, hrest⟩ := split_unique (dot_notMem_padded x) (dot_notMem_padded y) h
      obtain ⟨c, rfl, rfl⟩ := ih hrest
      exact ⟨c, by rw [padded_injective harc]; rfl, rfl⟩

/-- The number at the front of dotted arcs ends at its dot. -/
theorem strtoul_dotted (arc : Nat) (s : Text) : (strtoul 10 (padded 0 arc ++ chr '.' :: s)).2 = chr '.' :: s := by
  have hscan := @scanBase_digits _ (chr '.' :: s) (padded_ne_nil 0 arc) isDigitOf_padded rfl
  rw [strtoul, hscan]

/-! ## Ids -/

theorem testBit_low (i : Nat) : Nat.testBit 0xFFFF i = decide (i < 16) := Nat.testBit_two_pow_sub_one 16 i

theorem testBit_high (i : Nat) : Nat.testBit 0xFFFF0000 i = (decide (16 ≤ i) && decide (i < 32)) := by
  rw [show 0xFFFF0000 = 0xFFFF * 2 ^ 16 by decide, Nat.testBit_mul_two_pow, testBit_low]
  by_cases hi : 16 ≤ i
  · simp [hi]
    omega
  · simp [hi]

theorem testBit_eq_false {n k i : Nat} (h : n < 2 ^ k) (hi : k ≤ i) : n.testBit i = false :=
  Nat.testBit_lt_two_pow (Nat.lt_of_lt_of_le h (Nat.pow_le_pow_right (by decide) hi))

/-- An id of the upper bits and a number of the lower ones come apart again. -/
theorem id_or_low {id v : UInt32} (hid : id &&& 0xFFFF = 0) (hv : v ≤ 0xFFFF) :
    (id ||| v) &&& 0xFFFF0000 = id ∧ (id ||| v) &&& 0xFFFF = v := by
  have hidbit (i : Nat) (hi : i < 16) : id.toNat.testBit i = false := by
    have h := congrArg (fun x : UInt32 => x.toNat.testBit i) hid
    simpa [testBit_low, hi] using h
  have hvbit (i : Nat) (hi : 16 ≤ i) : v.toNat.testBit i = false :=
    testBit_eq_false (Nat.lt_succ_of_le (UInt32.le_iff_toNat_le.1 hv)) hi
  constructor
  · apply UInt32.toNat_inj.1
    apply Nat.eq_of_testBit_eq
    intro i
    by_cases h : 16 ≤ i
    · by_cases hi : i < 32
      · simp [testBit_high, h, hi, hvbit i h]
      · simp [testBit_high, hi, testBit_eq_false id.toNat_lt (by omega : 32 ≤ i)]
    · simp [testBit_high, h, hidbit i (by omega)]
  · apply UInt32.toNat_inj.1
    apply Nat.eq_of_testBit_eq
    intro i
    by_cases h : 16 ≤ i
    · simp [testBit_low, hvbit i h]
      omega
    · simp [testBit_low, hidbit i (by omega)]
      omega

theorem id_and_split (x : UInt32) : (x &&& 0xFFFF0000) ||| (x &&& 0xFFFF) = x := by
  apply UInt32.toNat_inj.1
  apply Nat.eq_of_testBit_eq
  intro i
  by_cases h : 16 ≤ i
  · by_cases hi : i < 32
    · simp [testBit_high, testBit_low, h, hi]
    · simp [testBit_eq_false x.toNat_lt (by omega : 32 ≤ i)]
  · simp [testBit_high, testBit_low, h]
    omega

theorem low_le (x : UInt32) : x &&& 0xFFFF ≤ 0xFFFF := by
  apply UInt32.le_iff_toNat_le.2
  rw [UInt32.toNat_and]
  exact Nat.and_le_right

/-! ## Mapping an OID -/

/-- What an OID that is mapped is made of. -/
structure MapsTo (prefixes : List DsdbSchemaOidPrefix) (oid : Text) (x : UInt32) (p : DsdbSchemaOidPrefix) (arc : Text) :
    Prop where
  mem : p ∈ prefixes
  oid : oid = p.oid ++ arc
  ne : arc ≠ []
  read : (strtoul 10 arc).2 = []
  low : UInt32.ofNat (strtoul 10 arc).1 ≤ 0xFFFF
  id : x = p.id ||| UInt32.ofNat (strtoul 10 arc).1

variable {p : DsdbSchemaOidPrefix} {prefixes : List DsdbSchemaOidPrefix} {arc oid : Text} {x : UInt32}

/-- A prefix is compared with as much of the OID as it is long. -/
theorem strncmp_prefix (hp : p.Ok) (s : Text) : strncmp p.oidLen p.oid s = 0 ↔ ∃ arc, s = p.oid ++ arc := by
  rw [strncmp, strcmp_eq_zero, hp.oidLen, take_length]
  constructor
  · intro h
    obtain ⟨arc, harc⟩ := prefix_iff_eq_take.2 h
    exact ⟨arc, harc.symm⟩
  · rintro ⟨arc, rfl⟩
    rw [take_left]

theorem mapsTo_of_ok (hok : ∀ p ∈ prefixes, p.Ok)
    (h : dsdbMapOid2int prefixes oid = .ok x) : ∃ p arc, MapsTo prefixes oid x p arc := by
  induction prefixes with
  | nil => cases h
  | cons p prefixes ih =>
    obtain ⟨hp, hok⟩ := forall_mem_cons.1 hok
    have hnext (h : dsdbMapOid2int prefixes oid = .ok x) : ∃ q arc, MapsTo (p :: prefixes) oid x q arc := by
      obtain ⟨q, arc, hmaps⟩ := ih hok h
      exact ⟨q, arc, { hmaps with mem := mem_cons_of_mem p hmaps.mem }⟩
    rw [dsdbMapOid2int] at h
    by_cases hcmp : strncmp p.oidLen p.oid oid = 0
    swap
    · rw [if_pos hcmp] at h
      exact hnext h
    obtain ⟨arc, rfl⟩ := ( strncmp_prefix hp oid).1 hcmp
    rw [if_neg (not_not.2 hcmp), hp.oidLen, drop_left] at h
    dsimp only at h
    split_ifs at h with hempty hdots hmore hend hlarge
    · exact hnext h
    · exact ⟨p, arc, mem_cons_self, rfl, hempty, not_not.1 hend, UInt32.not_lt.1 hlarge, (Except.ok.inj h).symm⟩

/-- A number that is read to its end holds no dot. -/
theorem dot_notMem_of_read (hne : arc ≠ []) (h : (strtoul 10 arc).2 = []) : chr '.' ∉ arc := by
  obtain ⟨n, rest, rfl, hrest⟩ := exists_of_strtoul (h.trans_ne hne.symm)
  rw [NumberParts.strtoul_text hrest] at h
  dsimp only at h
  subst h
  rw [append_nil, NumberParts.text]
  simp only [mem_append, not_or]
  refine ⟨fun hmem => ?_, fun hmem => ?_, fun hmem => ?_⟩
  · exact absurd (n.isNumber.space _ hmem) (by decide)
  · rcases n.isNumber.sign with ⟨hsign, -⟩ | ⟨hsign, -⟩ | ⟨hsign, -⟩ <;> rw [hsign] at hmem <;> revert hmem <;> decide
  · obtain ⟨v, hv, -⟩ := n.isNumber.digits _ hmem
    rw [show digitVal (chr '.') = none by decide] at hv
    cases hv

/-- Of the entries that an OID begins with, all but the longest leave more than one arc. -/
theorem behind_prefix {q : DsdbSchemaOidPrefix} (hp : p.Ok) (hq : q.Ok) (hne : q.oid ≠ p.oid) {rest : Text}
    (hdot : chr '.' ∉ arc) (h : p.oid ++ arc = q.oid ++ rest) :
    ∃ (a : Nat) (more : Text), rest = padded 0 a ++ chr '.' :: (more ++ arc) := by
  obtain ⟨as, -, has⟩ := hp.oid
  obtain ⟨bs, hbs, hbs'⟩ := hq.oid
  -- the last dot of the entry is not behind that of the longest
  have hlast : ∃ front, q.oid = front ++ [chr '.'] := by
    obtain ⟨b, bs, rfl⟩ := exists_cons_of_ne_nil hbs
    rw [hbs', ← dropLast_append_getLast hbs]
    simp [arcsDotted, ← append_assoc]
  obtain ⟨front, hfront⟩ := hlast
  obtain ⟨mid, hmid, rfl⟩ : ∃ mid, p.oid = q.oid ++ mid ∧ rest = mid ++ arc := by
    rcases append_eq_append_iff.1 h with ⟨w, hw, hw'⟩ | ⟨w, hw, hw'⟩
    · rcases eq_nil_or_concat w with rfl | ⟨w, c, rfl⟩
      · rw [append_nil] at hw
        exact absurd hw hne
      · rw [hfront, concat_eq_append, ← append_assoc] at hw
        have hc := (append_inj' hw rfl).2
        rw [hw', ← singleton_inj.1 hc] at hdot
        simp at hdot
    · exact ⟨w, hw, hw'⟩
  rw [has, hbs'] at hmid
  obtain ⟨cs, rfl, rfl⟩ := arcsDotted_prefix hmid
  cases cs with
  | nil =>
    rw [append_nil] at has
    exact absurd (hbs'.trans has.symm) hne
  | cons c cs =>
    refine ⟨c, arcsDotted cs, ?_⟩
    rw [arcsDotted_cons, append_assoc, cons_append]

/-- The entry that leaves one arc is come to, whichever others the OID begins with. -/
theorem dsdbMapOid2int_of_mapsTo (hok : ∀ p ∈ prefixes, p.Ok) (hoids : (prefixes.map (·.oid)).Nodup)
    (h : MapsTo prefixes oid x p arc) : dsdbMapOid2int prefixes oid = .ok x := by
  induction prefixes with
  | nil => cases h.mem
  | cons q prefixes ih =>
    obtain ⟨hq, hok'⟩ := forall_mem_cons.1 hok
    obtain ⟨hfresh, hoids⟩ := nodup_cons.1 (show (q.oid :: prefixes.map (·.oid)).Nodup from hoids)
    have hp := hok p h.mem
    have hdot := dot_notMem_of_read h.ne h.read
    rw [dsdbMapOid2int]
    rcases mem_cons.1 h.mem with rfl | hmem
    · have hcmp : strncmp p.oidLen p.oid oid = 0 := ( strncmp_prefix hp oid).2 ⟨arc, h.oid⟩
      have hhead : arc.head? ≠ some (chr '.') := fun hh => hdot (mem_of_mem_head? hh)
      have hlow : ¬ 0xFFFF < UInt32.ofNat (strtoul 10 arc).1 := UInt32.not_lt.2 h.low
      rw [if_neg (not_not.2 hcmp), h.oid, hp.oidLen, drop_left]
      dsimp only
      rw [if_neg h.ne, if_neg hhead, h.read, if_neg (by simp), if_neg (by simp), if_neg hlow, h.id]
    · have hih := ih hok' hoids { h with mem := hmem }
      by_cases hcmp : strncmp q.oidLen q.oid oid = 0
      swap
      · rw [if_pos hcmp, hih]
      have hne : q.oid ≠ p.oid := fun heq => hfresh (heq ▸ mem_map_of_mem hmem)
      obtain ⟨rest, hrest⟩ := ( strncmp_prefix hq oid).1 hcmp
      obtain ⟨a, more, rfl⟩ := behind_prefix hp hq hne hdot (h.oid.symm.trans hrest)
      rw [if_neg (not_not.2 hcmp), hih, hrest, hq.oidLen, drop_left]
      dsimp only
      have hhead : (padded 0 a ++ chr '.' :: (more ++ arc)).head? ≠ some (chr '.') := by
        obtain ⟨c, cs, hcs⟩ := exists_cons_of_ne_nil (padded_ne_nil 0 a)
        have hc := dot_notMem_padded a
        rw [hcs] at hc ⊢
        rw [cons_append, List.head?_cons]
        rintro ⟨⟩
        exact hc mem_cons_self
      have hmore : more ++ arc ≠ [] := append_ne_nil_of_right_ne_nil _ h.ne
      rw [if_neg (by simp), if_neg hhead, strtoul_dotted, if_pos ⟨rfl, hmore⟩]

/-! ## Mapping an id -/

/-- An id is mapped over the entry that it belongs to. -/
theorem dsdbMapInt2oid_mem (hids : (prefixes.map (·.id)).Nodup) (hp : p ∈ prefixes) (hx : x &&& 0xFFFF0000 = p.id) :
    dsdbMapInt2oid prefixes x = .ok (p.oid ++ padded 0 (x &&& 0xFFFF).toNat) := by
  induction prefixes with
  | nil => cases hp
  | cons q prefixes ih =>
    obtain ⟨hfresh, hids⟩ := nodup_cons.1 (show (q.id :: prefixes.map (·.id)).Nodup from hids)
    rw [dsdbMapInt2oid]
    rcases mem_cons.1 hp with rfl | hmem
    · rw [if_neg (not_not.2 hx.symm)]
    · have hne : q.id ≠ x &&& 0xFFFF0000 := fun heq => hfresh (heq.trans hx ▸ mem_map_of_mem hmem)
      rw [if_pos hne, ih hids hmem]

theorem of_dsdbMapInt2oid (h : dsdbMapInt2oid prefixes x = .ok oid) :
    ∃ p ∈ prefixes, x &&& 0xFFFF0000 = p.id ∧ oid = p.oid ++ padded 0 (x &&& 0xFFFF).toNat := by
  induction prefixes with
  | nil => cases h
  | cons p prefixes ih =>
    rw [dsdbMapInt2oid] at h
    split at h
    · obtain ⟨q, hq, hx, hoid⟩ := ih h
      exact ⟨q, mem_cons_of_mem p hq, hx, hoid⟩
    · next hid => exact ⟨p, mem_cons_self, (not_not.1 hid).symm, (Except.ok.inj h).symm⟩

/-! ## Both ways -/

namespace OidPrefixTable

variable (T : OidPrefixTable)

theorem oid2int_int2oid {x : UInt32} {oid : Text} (h : dsdbMapInt2oid T.prefixes x = .ok oid) :
    dsdbMapOid2int T.prefixes oid = .ok x := by
  obtain ⟨p, hp, hx, rfl⟩ := of_dsdbMapInt2oid h
  have hread : strtoul 10 (padded 0 (x &&& 0xFFFF).toNat) = ((x &&& 0xFFFF).toNat, []) := by
    have hlt : (x &&& 0xFFFF).toNat < 2 ^ 64 := Nat.lt_trans (UInt32.toNat_lt _) (by decide)
    have := @strtoul_padded _ [] hlt rfl
    rwa [append_nil] at this
  have hmaps : MapsTo T.prefixes (p.oid ++ padded 0 (x &&& 0xFFFF).toNat) x p (padded 0 (x &&& 0xFFFF).toNat) := by
    refine ⟨hp, rfl, padded_ne_nil _ _, by rw [hread], ?_, ?_⟩
    · rw [hread, UInt32.ofNat_toNat]
      exact low_le x
    · rw [hread, UInt32.ofNat_toNat, ← hx, id_and_split]
  exact dsdbMapOid2int_of_mapsTo T.ok T.oids hmaps

/-- The id of an OID is mapped to the entry of the OID and the number as it is printed. -/
theorem int2oid_of_mapsTo {oid : Text} {x : UInt32} {p : DsdbSchemaOidPrefix} {arc : Text}
    (h : MapsTo T.prefixes oid x p arc) :
    dsdbMapInt2oid T.prefixes x = .ok (p.oid ++ padded 0 (UInt32.ofNat (strtoul 10 arc).1).toNat) := by
  obtain ⟨hhigh, hlow⟩ := id_or_low (T.ok p h.mem).id h.low
  rw [← h.id] at hhigh hlow
  rw [dsdbMapInt2oid_mem T.ids h.mem hhigh, hlow]

/-- No entry of the table leaves of an OID what is misread. -/
def ReadsRight (oid : Text) : Prop := ∀ p ∈ T.prefixes, ∀ arc, oid = p.oid ++ arc → ¬ Misread arc

theorem back_iff (oid : Text) : (∀ x, dsdbMapOid2int T.prefixes oid = .ok x → dsdbMapInt2oid T.prefixes x = .ok oid) ↔
    T.ReadsRight oid := by
  constructor
  · rintro hback p hp arc rfl ⟨n, rfl, hlow, hne⟩
    have hread : strtoul 10 n.text = (n.ulong, []) := by
      have := @NumberParts.strtoul_text n [] rfl
      rwa [append_nil] at this
    have hempty : n.text ≠ [] := fun h => NumberParts.text_ne n [] (by rw [h]; rfl)
    have hmaps : MapsTo T.prefixes (p.oid ++ n.text) (p.id ||| UInt32.ofNat n.ulong) p n.text := by
      refine ⟨hp, rfl, hempty, ?_, ?_, ?_⟩ <;> rw [hread]
      exact hlow
    have hoid := (T.int2oid_of_mapsTo hmaps).symm.trans (hback _ (dsdbMapOid2int_of_mapsTo T.ok T.oids hmaps))
    rw [hread] at hoid
    exact hne (append_cancel_left (Except.ok.inj hoid)).symm
  · rintro hright x hx
    obtain ⟨p, arc, hmaps⟩ := mapsTo_of_ok T.ok hx
    obtain ⟨n, rest, rfl, hrest⟩ := exists_of_strtoul (hmaps.read.trans_ne hmaps.ne.symm)
    have hread := @NumberParts.strtoul_text n rest hrest
    have hend := hmaps.read
    rw [hread] at hend
    dsimp only at hend
    subst hend
    rw [append_nil] at hmaps hread
    have hprinted : n.text = padded 0 (UInt32.ofNat n.ulong).toNat := by
      by_contra hne
      refine hright p hmaps.mem _ hmaps.oid ⟨n, rfl, ?_, hne⟩
      have hlow := hmaps.low
      rwa [hread] at hlow
    rw [T.int2oid_of_mapsTo hmaps, hmaps.oid, hread, ← hprinted]

end OidPrefixTable

/-- The maps are inverse to each other on some OIDs if, and only if, behind no prefix of these OIDs a number is misread. -/
theorem mapsBothWays_iff (T : OidPrefixTable) (oids : Text → Prop) :
    MapsBothWays T oids ↔ ∀ oid, oids oid → T.ReadsRight oid := by
  constructor
  · rintro h oid hoid
    exact (T.back_iff oid).1 fun x => h.back oid x hoid
  · rintro h
    have hback : ∀ oid x, oids oid → dsdbMapOid2int T.prefixes oid = .ok x → dsdbMapInt2oid T.prefixes x = .ok oid :=
      fun oid x hoid => (T.back_iff oid).2 (h oid hoid) x
    refine ⟨hback, fun x oid => T.oid2int_int2oid, ?_⟩
    rintro oid oid' x hoid hoid' hx hx'
    exact Except.ok.inj ((hback oid x hoid hx).symm.trans (hback oid' x hoid' hx'))

/-- The table of one OID. -/
def oneEntry : OidPrefixTable where
  prefixes := [prefixEntry 0 ("1.2".toList.map chr)]
  ok := by
    rintro p hp
    rw [mem_singleton.1 hp]
    exact ⟨⟨[1, 2], by decide, by decide⟩, rfl, by decide⟩
  ids := by simp
  oids := by simp

/-- The OIDs 1.2.5 and 1.2.4294967301 have the same id. -/
theorem largeArc_not_mapsBothWays : ¬ ∀ T, MapsBothWays T IsOid := by
  intro h
  have hfive : IsOid ("1.2.5".toList.map chr) := ⟨[1, 2, 5], by decide, by decide⟩
  have hlarge : IsOid ("1.2.4294967301".toList.map chr) := ⟨[1, 2, 4294967301], by decide, by decide⟩
  have hsame := (h oneEntry).injective _ _ 5 hfive hlarge (by decide) (by decide)
  revert hsame
  decide

end Samba.Dsdb
