/-
Search filters in LDAP messages (libcli/ldap/ldap.c): ldap_push_filter and ldap_decode_filter_tree. Of memory allocation
the limit for the buffer is kept; the arrays of a tree that is decoded are no larger than those of the tree that was parsed.
-/
import Samba.Libcli.Asn1Calls
import Samba.Ldb.ParsePrint

namespace Samba.Libcli

open Ber CString List Samba.Ldb
open Samba.Ndr (maxTallocSize)

/-! ## ldap_push_filter -/

/-- The bytes of a value with its length. -/
def counted (value : LdbVal) : List UInt8 := value.data.take value.length

/-- A string of its own in a tag, `asn1_write_LDAPString`. -/
def pushString (x : UInt8) (s : Text) : Asn1Calls Unit := asn1Pushed (asn1ContextSimple x) (asn1WriteLDAPString s)

/-- A string that may be missing. -/
def pushOptional (x : UInt8) : Option Text → Asn1Calls Unit
  | none => return
  | some s => pushString x s

/-- The case of an equality test and of the comparisons. -/
def pushMatch (x : UInt8) (attr : Text) (value : LdbVal) : Asn1Calls Unit := asn1Pushed (asn1Context x) do
  asn1WriteOctetString attr
  asn1WriteOctetString (counted value)

/-- The loop over the chunks of a substring match that are not at its start. -/
def pushChunks (endWithWildcard : Bool) : List LdbVal → Asn1Calls Unit
  | [] => return
  | chunk :: chunks => do
    pushString (if chunks = [] ∧ endWithWildcard = false then 2 else 1) (cstr chunk.data)
    pushChunks endWithWildcard chunks

/-- The chunks of a substring match. -/
def pushSubstrings (startWithWildcard endWithWildcard : Bool) (chunks : List LdbVal) : Asn1Calls Unit :=
  if startWithWildcard then pushChunks endWithWildcard chunks
  else match chunks with
    -- there is no first chunk to be read
    | [] => failure
    | chunk :: chunks => do
      pushString 0 (cstr chunk.data)
      pushChunks endWithWildcard chunks

/-- The number of the tag of a comparison. -/
def comparisonTag : ComparisonOp → UInt8
  | .greater => 5
  | .less => 6
  | .approx => 8

mutual

/-- `ldap_push_filter`. -/
def ldapPushFilter : ParseTree → Asn1Calls Unit
  | .and elements => asn1Pushed (asn1Context 0) (ldapPushFilters elements)
  | .or elements => asn1Pushed (asn1Context 1) (ldapPushFilters elements)
  | .not child => asn1Pushed (asn1Context 2) (ldapPushFilter child)
  | .equality attr value => pushMatch 3 attr value
  | .substring attr startWithWildcard endWithWildcard chunks => asn1Pushed (asn1Context 4) do
    asn1WriteOctetString attr
    asn1Pushed (asn1Sequence 0) (pushSubstrings startWithWildcard endWithWildcard chunks)
  | .comparison op attr value => pushMatch (comparisonTag op) attr value
  | .present attr => pushString 7 attr
  | .extended attr dnAttributes ruleId value => asn1Pushed (asn1Context 9) do
    pushOptional 1 ruleId
    pushOptional 2 attr
    pushString 3 (cstr value.data)
    asn1Pushed (asn1ContextSimple 4) (asn1Call (asn1WriteUint8 · (if dnAttributes then 1 else 0)))

def ldapPushFilters : List ParseTree → Asn1Calls Unit
  | [] => return
  | t :: ts => do
    ldapPushFilter t
    ldapPushFilters ts

end

/-! ## ldap_decode_filter_tree -/

/-- The fields of a substring match while it is decoded. -/
structure Substrings where
  chunks : List LdbVal
  chunkNum : Nat
  startWithWildcard : Bool
  endWithWildcard : Bool
  deriving DecidableEq, Repr

/-- `ldap_decode_substring`: the chunk at a place, which becomes the last one. -/
def ldapDecodeSubstring (chunks : List LdbVal) (chunkNum : Nat) (value : Text) : List LdbVal :=
  chunks.take chunkNum ++ [.ofText value]

/-- What becomes of a substring, by its tag. -/
def takeChunk (ret : Substrings) (part : UInt8 × Text) : Option Substrings :=
  let (subsTag, value) := part
  if subsTag = 0 then
    -- initial value found in the middle
    if ret.chunks ≠ [] then none
    else some { ret with chunks := ldapDecodeSubstring [] 0 value, chunkNum := 1, startWithWildcard := false }
  else if subsTag = 1 then
    -- "any" value found after a "final" value
    if ret.endWithWildcard = false then none
    else some { ret with chunks := ldapDecodeSubstring ret.chunks ret.chunkNum value, chunkNum := ret.chunkNum + 1 }
  else if subsTag = 2 then
    some { ret with chunks := ldapDecodeSubstring ret.chunks ret.chunkNum value, endWithWildcard := false }
  else none

/-- One round of the loop over the substrings. -/
def decodeChunk (ret : Substrings) : Asn1Calls Substrings := do
  let subsTag := (← asn1PeekUint8) &&& 0x1f
  if subsTag > 2 then failure
  let value ← asn1Started (asn1ContextSimple subsTag) asn1ReadLDAPString
  match takeChunk ret (subsTag, value) with
  | none => failure
  | some ret => return ret

/-- The condition `asn1_tag_remaining(data)` of a loop. -/
def asn1AnyRemaining : Asn1Calls Bool := do return decide ((← asn1Remaining) ≠ 0)

/-- The case of an equality test and of the comparisons. -/
def decodeMatch (x : UInt8) : Asn1Calls (Text × LdbVal) := asn1Started (asn1Context x) do
  let attrib ← asn1ReadOctetStringTalloc
  let value ← asn1ReadOctetString
  return (attrib, .ofText value)

/-- The case of a substring match. -/
def decodeSubstrings : Asn1Calls ParseTree := asn1Started (asn1Context 4) do
  let attr ← asn1ReadOctetString
  let ret ← asn1Started (asn1Sequence 0) (asn1While asn1AnyRemaining decodeChunk ⟨[], 0, true, true⟩)
  return .substring (cstr attr) ret.startWithWildcard ret.endWithWildcard ret.chunks

/-- A string in a tag that may be missing. -/
def decodeOptional (x : UInt8) : Asn1Calls (Option Text) := do
  if ← asn1PeekTag (asn1ContextSimple x) then
    return some (← asn1Started (asn1ContextSimple x) asn1ReadLDAPString)
  else return none

/-- The tree of an extended match: without a matching rule it is an equality test. -/
def extendedTree (oid attr : Option Text) (value : Text) (dnAttributes : UInt8) : Option ParseTree :=
  match oid, attr with
  | none, none => none
  -- if the type field is absent, the value is compared against all attributes
  | some oid, attr => some (.extended (some (attr.getD [chr '*'])) (dnAttributes ≠ 0) (some oid) (.ofText value))
  | none, some attr => some (.equality attr (.ofText value))

/-- The flag `dnAttributes`, which is not always there. -/
def decodeDnAttributes : Asn1Calls UInt8 := do
  if ← asn1PeekTag (asn1ContextSimple 4) then asn1Started (asn1ContextSimple 4) (asn1Get asn1ReadUint8)
  else return 0

/-- The case of an extended match. -/
def decodeExtended : Asn1Calls ParseTree := asn1Started (asn1Context 9) do
  let oid ← decodeOptional 1
  let attr ← decodeOptional 2
  let value ← asn1Started (asn1ContextSimple 3) asn1ReadLDAPString
  let dnAttributes ← decodeDnAttributes
  match extendedTree oid attr value dnAttributes with
  | none => failure
  | some tree => return tree

/-- The `switch` of `ldap_decode_filter_tree`, in which `decode` is for the filters inside. -/
def decodeByTag (decode : Asn1Calls ParseTree) (filterTag : UInt8) : Asn1Calls ParseTree := do
  if filterTag = 0 ∨ filterTag = 1 then
    let elements ← asn1Started (asn1Context filterTag)
      (asn1While asn1MoreRemaining (fun elements => do return elements ++ [← decode]) [])
    return if filterTag = 0 then .and elements else .or elements
  else if filterTag = 2 then
    return .not (← asn1Started (asn1Context filterTag) decode)
  else if filterTag = 3 then
    let (attrib, value) ← decodeMatch filterTag
    return .equality attrib value
  else if filterTag = 4 then decodeSubstrings
  else if filterTag = 5 then
    let (attrib, value) ← decodeMatch filterTag
    return .comparison .greater attrib value
  else if filterTag = 6 then
    let (attrib, value) ← decodeMatch filterTag
    return .comparison .less attrib value
  else if filterTag = 7 then
    return .present (← asn1Started (asn1ContextSimple filterTag) asn1ReadLDAPString)
  else if filterTag = 8 then
    let (attrib, value) ← decodeMatch filterTag
    return .comparison .approx attrib value
  else if filterTag = 9 then decodeExtended
  else failure

/-- `ldap_decode_filter_tree`. The number bounds how deep filters are nested. -/
def ldapDecodeFilter : Nat → Asn1Calls ParseTree
  | 0 => failure
  | fuel + 1 => do
    let filterTag ← asn1PeekUint8
    -- strip off the asn1 stuff
    decodeByTag (ldapDecodeFilter fuel) (filterTag &&& 0x1f)

/-- `ldap_decode_filter_tree`: no filter is nested deeper than there are bytes. -/
def ldapDecodeFilterTree : Asn1Calls ParseTree := do
  let data ← get
  ldapDecodeFilter (data.data.length + 1)

/-! ## What is pushed -/

/-- A string in a tag of its own. -/
def stringBytes (x : UInt8) (s : Text) : List UInt8 := tagged (asn1ContextSimple x) s

def matchBytes (x : UInt8) (attr : Text) (value : LdbVal) : List UInt8 :=
  tagged (asn1Context x) (tagged asn1OctetString attr ++ tagged asn1OctetString (counted value))

/-- The number of the tag of a chunk that is not at the start. -/
def chunkTag (endWithWildcard : Bool) (behind : List LdbVal) : UInt8 :=
  if behind = [] ∧ endWithWildcard = false then 2 else 1

/-- The tags and the strings of the chunks. -/
def chunkParts (endWithWildcard : Bool) : List LdbVal → List (UInt8 × Text)
  | [] => []
  | chunk :: chunks => (chunkTag endWithWildcard chunks, cstr chunk.data) :: chunkParts endWithWildcard chunks

/-- The loop over the chunks of a substring match. -/
def substringParts (startWithWildcard endWithWildcard : Bool) (chunks : List LdbVal) : List (UInt8 × Text) :=
  if startWithWildcard then chunkParts endWithWildcard chunks
  else match chunks with
    | [] => []
    | chunk :: chunks => (0, cstr chunk.data) :: chunkParts endWithWildcard chunks

def partsBytes (parts : List (UInt8 × Text)) : List UInt8 := parts.flatMap fun part => stringBytes part.1 part.2

mutual

/-- A filter in a message. -/
def filterBytes : ParseTree → List UInt8
  | .and elements => tagged (asn1Context 0) (filtersBytes elements)
  | .or elements => tagged (asn1Context 1) (filtersBytes elements)
  | .not child => tagged (asn1Context 2) (filterBytes child)
  | .equality attr value => matchBytes 3 attr value
  | .substring attr startWithWildcard endWithWildcard chunks =>
    tagged (asn1Context 4) (tagged asn1OctetString attr ++
      tagged (asn1Sequence 0) (partsBytes (substringParts startWithWildcard endWithWildcard chunks)))
  | .comparison op attr value => matchBytes (comparisonTag op) attr value
  | .present attr => stringBytes 7 attr
  | .extended attr dnAttributes ruleId value =>
    tagged (asn1Context 9) (ruleId.elim [] (stringBytes 1) ++ (attr.elim [] (stringBytes 2) ++
      (stringBytes 3 (cstr value.data) ++ tagged (asn1ContextSimple 4) [if dnAttributes then 1 else 0])))

def filtersBytes : List ParseTree → List UInt8
  | [] => []
  | t :: ts => filterBytes t ++ filtersBytes ts

end

theorem filtersBytes_eq (ts : List ParseTree) : filtersBytes ts = ts.flatMap filterBytes := by
  induction ts with
  | nil => rfl
  | cons t ts ih => rw [filtersBytes, flatMap_cons, ih]

theorem Writes.string (x : UInt8) (s : Text) : Writes (pushString x s) (stringBytes x s) := (Writes.bytes s).pushed _

theorem Writes.pushMatch (x : UInt8) (attr : Text) (value : LdbVal) :
    Writes (pushMatch x attr value) (matchBytes x attr value) :=
  ((Writes.octetString attr).seq (Writes.octetString (counted value))).pushed _

theorem Writes.chunks (e : Bool) (chunks : List LdbVal) : Writes (pushChunks e chunks) (partsBytes (chunkParts e chunks)) := by
  induction chunks with
  | nil => exact .nil
  | cons chunk chunks ih => exact .seq (.string _ _) ih

theorem Writes.substrings {s : Bool} (e : Bool) {chunks : List LdbVal} (h : chunks ≠ []) :
    Writes (pushSubstrings s e chunks) (partsBytes (substringParts s e chunks)) := by
  obtain ⟨chunk, chunks, rfl⟩ := exists_cons_of_ne_nil h
  cases s
  · exact .seq (.string _ _) (.chunks _ _)
  · exact .chunks _ _

theorem Writes.optional (x : UInt8) (s : Option Text) : Writes (pushOptional x s) (s.elim [] (stringBytes x)) := by
  cases s with
  | none => exact .nil
  | some s => exact .string _ _

theorem Writes.leaf {t : ParseTree} (h : ParsedLeaf t) : Writes (ldapPushFilter t) (filterBytes t) := by
  cases h with
  | present _ => exact .string _ _
  | equality _ => exact .pushMatch _ _ _
  | comparison _ => exact .pushMatch _ _ _
  | substring _ hne _ _ => exact ((Writes.octetString _).seq ((Writes.substrings _ hne).pushed _)).pushed _
  | _ =>
    exact ((Writes.optional 1 _).seq ((Writes.optional 2 _).seq
      ((Writes.string 3 _).seq ((Writes.bytes [_]).pushed _)))).pushed _

theorem Writes.filters {ts : List ParseTree} (h : ∀ t ∈ ts, Writes (ldapPushFilter t) (filterBytes t)) :
    Writes (ldapPushFilters ts) (filtersBytes ts) := by
  induction ts with
  | nil => exact .nil
  | cons t ts ih =>
    rw [forall_mem_cons] at h
    exact .seq h.1 (ih h.2)

theorem Writes.filter {t : ParseTree} (h : ParsedTree t) : Writes (ldapPushFilter t) (filterBytes t) := by
  induction h with
  | and _ _ ih => exact (Writes.filters ih).pushed _
  | or _ _ ih => exact (Writes.filters ih).pushed _
  | not _ ih => exact ih.pushed _
  | leaf h => exact .leaf h

/-! ## What is decoded -/

/-- The strings of a filter are strings: chunks and the values of extended matches too are written up to a NUL. -/
def StringValues : ParseTree → Prop
  | .substring _ _ _ chunks => ∀ chunk ∈ chunks, 0 ∉ chunk.data
  | .extended attr _ ruleId value => (∀ s ∈ attr, 0 ∉ s) ∧ (∀ s ∈ ruleId, 0 ∉ s) ∧ 0 ∉ value.data
  | _ => True

instance : DecidablePred StringValues := fun t => by
  unfold StringValues
  split <;> infer_instance

mutual

/-- The filter with an equality test in the place of each extended match without a matching rule. -/
def withEqualities : ParseTree → ParseTree
  | .and elements => .and (withEqualitiesOf elements)
  | .or elements => .or (withEqualitiesOf elements)
  | .not child => .not (withEqualities child)
  | .equality attr value => .equality attr value
  | .substring attr startWithWildcard endWithWildcard chunks => .substring attr startWithWildcard endWithWildcard chunks
  | .comparison op attr value => .comparison op attr value
  | .present attr => .present attr
  | .extended attr dnAttributes ruleId value =>
    if ruleId = none then .equality (attr.getD []) value else .extended attr dnAttributes ruleId value

def withEqualitiesOf : List ParseTree → List ParseTree
  | [] => []
  | t :: ts => withEqualities t :: withEqualitiesOf ts

end

theorem cstr_attrName {a : Text} (h : AttrName a) : cstr a = a := by
  obtain ⟨at_, nm, rfl, hat, hnm⟩ := h
  refine cstr_eq_self fun h0 => ?_
  rcases mem_append.1 h0 with h0 | h0
  · rcases hat with rfl | rfl
    · exact absurd h0 not_mem_nil
    · exact absurd (mem_singleton.1 h0) (by decide)
  · exact absurd (hnm 0 h0) (by decide)

/-- The chunks behind the first one are put behind it again. -/
theorem foldlM_chunkParts (e s : Bool) {chunks cs : List LdbVal} (hchunks : ∀ chunk ∈ chunks, Chunk chunk)
    (hnul : ∀ chunk ∈ chunks, 0 ∉ chunk.data) : ∃ n, (chunkParts e chunks).foldlM takeChunk ⟨cs, cs.length, s, true⟩ =
      some ⟨cs ++ chunks, n, s, e || decide (chunks = [])⟩ := by
  induction chunks generalizing cs with
  | nil => exact ⟨cs.length, by rw [append_nil, decide_eq_true rfl, Bool.or_true]; rfl⟩
  | cons chunk chunks ih =>
    rw [forall_mem_cons] at hchunks hnul
    obtain ⟨⟨v, -, rfl⟩, hchunks⟩ := hchunks
    have hadd : ldapDecodeSubstring cs cs.length (cstr (LdbVal.ofText v).data) = cs ++ [LdbVal.ofText v] := by
      rw [ldapDecodeSubstring, take_length, cstr_eq_self hnul.1]
      rfl
    rw [chunkParts, foldlM_cons, chunkTag]
    by_cases hlast : chunks = [] ∧ e = false
    · obtain ⟨rfl, rfl⟩ := hlast
      refine ⟨cs.length, ?_⟩
      rw [if_pos ⟨rfl, rfl⟩, takeChunk]
      dsimp only
      rw [if_neg (by decide), if_neg (by decide), if_pos rfl, hadd]
      rfl
    · rw [if_neg hlast, takeChunk]
      dsimp only
      rw [if_neg (by decide), if_pos rfl, if_neg (by decide), hadd]
      obtain ⟨n, hn⟩ := @ih (cs ++ [LdbVal.ofText v]) hchunks hnul.2
      rw [length_append, length_singleton, append_assoc] at hn
      refine ⟨n, ?_⟩
      show (chunkParts e chunks).foldlM takeChunk _ = _
      rw [hn]
      have hend : (e || decide (chunks = [])) = (e || decide (LdbVal.ofText v :: chunks = [])) := by
        cases e
        · simpa using hlast
        · rfl
      rw [hend]
      rfl

theorem foldlM_substringParts {s e : Bool} {chunks : List LdbVal} (hne : chunks ≠ [])
    (hchunks : ∀ chunk ∈ chunks, Chunk chunk) (hnul : ∀ chunk ∈ chunks, 0 ∉ chunk.data)
    (hwild : s = true ∨ e = true ∨ 2 ≤ chunks.length) : ∃ n,
      (substringParts s e chunks).foldlM takeChunk ⟨[], 0, true, true⟩ = some ⟨chunks, n, s, e⟩ := by
  obtain ⟨chunk, chunks, rfl⟩ := exists_cons_of_ne_nil hne
  rw [substringParts]
  cases s
  · rw [if_neg Bool.false_ne_true]
    rw [forall_mem_cons] at hchunks hnul
    obtain ⟨⟨v, -, rfl⟩, hchunks⟩ := hchunks
    obtain ⟨n, hn⟩ := @foldlM_chunkParts e false chunks [LdbVal.ofText v] hchunks hnul.2
    have hend : (e || decide (chunks = [])) = e := by
      rcases hwild with h | rfl | h
      · cases h
      · rfl
      · have : chunks ≠ [] := by rintro rfl; simp at h
        rw [decide_eq_false this, Bool.or_false]
    rw [hend] at hn
    refine ⟨n, ?_⟩
    have hfirst : takeChunk ⟨[], 0, true, true⟩ (0, cstr (LdbVal.ofText v).data) =
        some ⟨[LdbVal.ofText v], 1, false, true⟩ := by
      rw [takeChunk, cstr_eq_self hnul.1]
      rfl
    rw [foldlM_cons, hfirst]
    exact hn
  · obtain ⟨n, hn⟩ := @foldlM_chunkParts e true (chunk :: chunks) [] hchunks hnul
    exact ⟨n, by simpa using hn⟩

section

variable {α β : Type} {r : Asn1Calls α} {f : α → Asn1Calls β} {bs : List UInt8} {a : α} {b : β}

theorem ReadsAnywhere.build (h : ReadsAnywhere r bs (some a)) (hf : f a = pure b) : ReadsAnywhere (r >>= f) bs (some b) := by
  refine ⟨fun done rest ns hsize => ?_⟩
  rw [bind_some (h.read done rest ns hsize), hf]
  rfl

end

theorem ReadsAnywhere.string (x : UInt8) {s : Text} (hs : 0 ∉ s) :
    ReadsAnywhere (asn1Started (asn1ContextSimple x) asn1ReadLDAPString) (stringBytes x s) (some s) := by
  have hstring := Reads.ldapString s
  rw [cstr_eq_self hs] at hstring
  exact .started hstring _

theorem Reads.chunk {x : UInt8} (hx : x = 0 ∨ x = 1 ∨ x = 2) {s : Text} (hs : 0 ∉ s) (ret : Substrings) :
    Reads (decodeChunk ret) (stringBytes x s) (takeChunk ret (x, s)) anyRest := by
  have htag : asn1ContextSimple x &&& 0x1f = x ∧ ¬x > 2 := by rcases hx with rfl | rfl | rfl <;> decide
  refine .look (Reads.peekUint8 (asn1ContextSimple x)) ?_ fun _ _ => rfl
  dsimp only
  rw [htag.1, if_neg htag.2]
  have hswitch : ∀ value, some s = some value → Reads (match takeChunk ret (x, value) with
      | none => Alternative.failure
      | some ret => Pure.pure ret : Asn1Calls Substrings) [] (takeChunk ret (x, value)) anyRest := by
    intro value _
    cases takeChunk ret (x, value) with
    | none => exact .failure
    | some ret => exact .pure ret
  have := Reads.bind (ReadsAnywhere.string x hs).reads hswitch fun _ _ => trivial
  rwa [append_nil] at this

/-- The case of an equality test and of the comparisons. -/
theorem ReadsAnywhere.decodeMatch (x : UInt8) {attr : Text} (hattr : AttrName attr) (v : Text) :
    ReadsAnywhere (decodeMatch x) (matchBytes x attr (.ofText v)) (some (attr, .ofText v)) := by
  have hcounted : counted (.ofText v) = v := take_length
  refine .started ?_ _
  rw [hcounted]
  have hattrib := Reads.octetStringTalloc attr
  rw [cstr_attrName hattr] at hattrib
  exact .bind (g := fun attrib => some (attrib, LdbVal.ofText v)) hattrib (fun attrib _ => (Reads.map (Reads.octetString v)).any)
    fun _ _ => trivial

theorem Reads.anyRemaining (b : Bool) : Reads asn1AnyRemaining [] (some b) (fun more => b = decide (more ≠ [])) := by
  refine ⟨fun done more after start n ns hmore hn hsize => ?_⟩
  have := (Reads.map (g := fun k => decide (k ≠ 0)) (Reads.remaining more.length)).read done more after start n ns rfl hn
    hsize
  rw [asn1AnyRemaining, this, hmore, Option.map_some]
  cases more <;> simp
  omega

theorem Reads.parts {parts : List (UInt8 × Text)} (h : ∀ part ∈ parts, (part.1 = 0 ∨ part.1 = 1 ∨ part.1 = 2) ∧ 0 ∉ part.2)
    (ret : Substrings) :
    ReadsAll (asn1While asn1AnyRemaining decodeChunk ret) (partsBytes parts) (parts.foldlM takeChunk ret) := by
  refine Reads.whileLoop (fun part _ => cons_ne_nil _ _) (fun part _ rest => ?_) ?_ (fun part hpart ret => ?_) ret
  · exact (Reads.anyRemaining true).mono fun more h => by rw [h]; simp
  · exact (Reads.anyRemaining false).mono fun more h => by rw [h]; simp
  · exact Reads.chunk (h part hpart).1 (h part hpart).2 ret

theorem mem_chunkParts {e : Bool} {chunks : List LdbVal} {part : UInt8 × Text} (h : part ∈ chunkParts e chunks) :
    (part.1 = 1 ∨ part.1 = 2) ∧ 0 ∉ part.2 := by
  induction chunks with
  | nil => cases h
  | cons chunk chunks ih =>
    rcases mem_cons.1 h with rfl | h
    · refine ⟨?_, zero_notMem_cstr _⟩
      show chunkTag e chunks = 1 ∨ chunkTag e chunks = 2
      unfold chunkTag
      split
      · exact .inr rfl
      · exact .inl rfl
    · exact ih h

theorem mem_substringParts {s e : Bool} {chunks : List LdbVal} {part : UInt8 × Text}
    (h : part ∈ substringParts s e chunks) : (part.1 = 0 ∨ part.1 = 1 ∨ part.1 = 2) ∧ 0 ∉ part.2 := by
  cases s with
  | true => exact ⟨.inr (mem_chunkParts h).1, (mem_chunkParts h).2⟩
  | false =>
    cases chunks with
    | nil => cases h
    | cons chunk chunks =>
      rcases mem_cons.1 h with rfl | h
      · exact ⟨.inl rfl, zero_notMem_cstr _⟩
      · exact ⟨.inr (mem_chunkParts h).1, (mem_chunkParts h).2⟩

theorem ReadsAnywhere.decodeSubstrings {attr : Text} {s e : Bool} {chunks : List LdbVal} (hattr : AttrName attr)
    (hne : chunks ≠ []) (hchunks : ∀ chunk ∈ chunks, Chunk chunk) (hnul : ∀ chunk ∈ chunks, 0 ∉ chunk.data)
    (hwild : s = true ∨ e = true ∨ 2 ≤ chunks.length) :
    ReadsAnywhere decodeSubstrings (filterBytes (.substring attr s e chunks)) (some (.substring attr s e chunks)) := by
  obtain ⟨n, hn⟩ := foldlM_substringParts hne hchunks hnul hwild
  have hparts := Reads.parts (fun _ => @mem_substringParts s e chunks _) ⟨[], 0, true, true⟩
  rw [hn] at hparts
  have hbuild : ∀ v, some attr = some v → Reads (do
      let ret ← asn1Started (asn1Sequence 0) (asn1While asn1AnyRemaining decodeChunk ⟨[], 0, true, true⟩)
      return ParseTree.substring (cstr v) ret.startWithWildcard ret.endWithWildcard ret.chunks)
      (tagged (asn1Sequence 0) (partsBytes (substringParts s e chunks))) (some (.substring attr s e chunks)) anyRest := by
    intro v hv
    obtain rfl := Option.some.inj hv
    refine (ReadsAnywhere.build (ReadsAnywhere.started hparts _) ?_).reads
    rw [cstr_attrName hattr]
  exact .started (Reads.bind (Reads.octetString attr) hbuild fun _ _ => trivial).any _

/-- A string that may be missing is found if its tag is ahead. -/
theorem Reads.optional (x : UInt8) {s : Option Text} (hs : ∀ v ∈ s, 0 ∉ v) :
    Reads (decodeOptional x) (s.elim [] (stringBytes x)) (some s)
      (fun more => s = none → more.head? ≠ some (asn1ContextSimple x)) := by
  cases s with
  | none =>
    refine .look (Reads.peekTag (asn1ContextSimple x) false) (Reads.pure none).any fun more hmore => ?_
    exact (decide_eq_false (hmore rfl)).symm
  | some v =>
    have hbuild := (ReadsAnywhere.build (f := fun v => (Pure.pure (some v) : Asn1Calls (Option Text)))
      (ReadsAnywhere.string x (hs v rfl)) rfl).reads
    exact .look (Reads.peekTag (asn1ContextSimple x) true) hbuild.any fun _ _ => (decide_eq_true rfl).symm

theorem Reads.dnAttributes (b : UInt8) :
    Reads decodeDnAttributes (tagged (asn1ContextSimple 4) [b]) (some b) anyRest :=
  .look (Reads.peekTag (asn1ContextSimple 4) true) (Reads.started (Reads.uint8 b).any _) fun _ _ =>
    (decide_eq_true rfl).symm

theorem ReadsAnywhere.decodeExtended {attr ruleId : Option Text} (d : Bool) {v : Text} (hattr : ∀ s ∈ attr, 0 ∉ s)
    (hrule : ∀ s ∈ ruleId, 0 ∉ s) (hv : 0 ∉ v) :
    ReadsAnywhere decodeExtended (filterBytes (.extended attr d ruleId (.ofText v)))
      (extendedTree ruleId attr v (if d then 1 else 0)) := by
  have hcstr : cstr (LdbVal.ofText v).data = v := cstr_eq_self hv
  rw [filterBytes, hcstr]
  refine .started (Reads.any ?_) _
  have htree : ∀ dn, Reads (match extendedTree ruleId attr v dn with
      | none => Alternative.failure
      | some tree => Pure.pure tree : Asn1Calls ParseTree) [] (extendedTree ruleId attr v dn) anyRest := by
    intro dn
    cases extendedTree ruleId attr v dn with
    | none => exact .failure
    | some tree => exact .pure tree
  have hdn : Reads (do
      let dnAttributes ← decodeDnAttributes
      match extendedTree ruleId attr v dnAttributes with
      | none => Alternative.failure
      | some tree => Pure.pure tree) (tagged (asn1ContextSimple 4) [if d then 1 else 0] ++ [])
      (extendedTree ruleId attr v (if d then 1 else 0)) anyRest :=
    .step (Reads.dnAttributes _) (htree _) fun _ _ => trivial
  rw [append_nil] at hdn
  refine .step (Reads.optional 1 hrule) (.step (Reads.optional 2 hattr)
    (.step (ReadsAnywhere.string 3 hv).reads hdn fun _ _ => trivial) fun more _ hnone => ?_) fun more _ hnone => ?_
  -- what is behind a string that is missing has another tag
  · exact fun h => absurd (Option.some.inj h) (by decide)
  · cases attr with
    | none => exact fun h => absurd (Option.some.inj h) (by decide)
    | some a => exact fun h => absurd (Option.some.inj h) (by decide)

/-- A filter is decoded by the `switch` for the number of its tag. -/
theorem ReadsAnywhere.byTag {tag : UInt8} (x : UInt8) (hx : tag &&& 0x1f = x) {fuel : Nat} {content : List UInt8}
    {o : Option ParseTree} (h : ReadsAnywhere (decodeByTag (ldapDecodeFilter fuel) x) (tagged tag content) o) :
    ReadsAnywhere (ldapDecodeFilter (fuel + 1)) (tagged tag content) o := by
  refine ⟨fun done rest ns hsize => ?_⟩
  rw [ldapDecodeFilter, tagged, cons_append, bind_some (asn1PeekUint8_reading _ _ _ _), hx]
  exact h.read done rest ns hsize

/-- A filter without filters inside is decoded. -/
theorem ReadsAnywhere.leaf {t : ParseTree} (h : ParsedLeaf t) (hnul : StringValues t) (fuel : Nat) :
    ReadsAnywhere (ldapDecodeFilter (fuel + 1)) (filterBytes t) (some (withEqualities t)) := by
  have hattr : ∀ {a}, AttrName a → 0 ∉ a := fun ha => cstr_attrName ha ▸ zero_notMem_cstr _
  cases h with
  | present ha =>
    refine .byTag 7 (by decide) ?_
    exact .build (ReadsAnywhere.string 7 (hattr ha)) rfl
  | equality ha => exact .byTag 3 (by decide) (.build (.decodeMatch 3 ha _) rfl)
  | @comparison op a v ha =>
    cases op with
    | greater => exact .byTag 5 (by decide) (.build (.decodeMatch 5 ha _) rfl)
    | less => exact .byTag 6 (by decide) (.build (.decodeMatch 6 ha _) rfl)
    | approx => exact .byTag 8 (by decide) (.build (.decodeMatch 8 ha _) rfl)
  | substring ha hne hchunks hwild => exact .byTag 4 (by decide) (.decodeSubstrings ha hne hchunks hnul hwild)
  | rule _ _ _ _ => exact .byTag 9 (by decide) (.decodeExtended false hnul.1 hnul.2.1 hnul.2.2)
  | dn _ => exact .byTag 9 (by decide) (.decodeExtended true hnul.1 hnul.2.1 hnul.2.2)
  | dnRule _ _ => exact .byTag 9 (by decide) (.decodeExtended true hnul.1 hnul.2.1 hnul.2.2)

theorem withEqualitiesOf_eq (ts : List ParseTree) : withEqualitiesOf ts = ts.map withEqualities := by
  induction ts with
  | nil => rfl
  | cons t ts ih => rw [withEqualitiesOf, map_cons, ih]

theorem filterBytes_ne_nil (t : ParseTree) : filterBytes t ≠ [] := by
  cases t <;> exact cons_ne_nil _ _

/-- The filters of a list are decoded one after the other. -/
theorem Reads.filters {ts : List ParseTree} {decode : Asn1Calls ParseTree}
    (h : ∀ t ∈ ts, ReadsAnywhere decode (filterBytes t) (some (withEqualities t))) :
    ReadsAll (asn1While asn1MoreRemaining (fun elements => do return elements ++ [← decode]) []) (filtersBytes ts)
      (some (withEqualitiesOf ts)) := by
  have hloop := @Reads.whileLoop _ (· = []) _ _ _ _ (fun elements t => some (elements ++ [withEqualities t])) _
    (fun t (_ : t ∈ ts) => filterBytes_ne_nil t)
    (fun t _ rest => (Reads.moreRemaining true).mono fun more h => by rw [h]; simp [filterBytes_ne_nil])
    ((Reads.moreRemaining false).mono fun more h => by rw [h]; simp)
    (fun t ht elements => (ReadsAnywhere.map (g := fun t => elements ++ [t]) (h t ht)).reads) []
  have hfold : ∀ elements, ts.foldlM (fun elements t => some (elements ++ [withEqualities t])) elements =
      some (elements ++ withEqualitiesOf ts) := by
    clear hloop h
    induction ts with
    | nil => exact fun elements => by rw [withEqualitiesOf, append_nil]; rfl
    | cons t ts ih =>
      intro elements
      rw [foldlM_cons, withEqualitiesOf]
      exact (ih _).trans (by rw [append_assoc, singleton_append])
  rw [hfold, ← filtersBytes_eq] at hloop
  exact hloop

theorem lt_of_mem_filters {t : ParseTree} {ts : List ParseTree} {tag : UInt8} {fuel : Nat} (h : t ∈ ts)
    (hfuel : (tagged tag (filtersBytes ts)).length < fuel + 1) : (filterBytes t).length < fuel := by
  have hlt := length_lt_tagged tag (filtersBytes ts)
  have hle : (filterBytes t).length ≤ (filtersBytes ts).length := by
    rw [filtersBytes_eq]
    exact (sublist_flatten_of_mem (mem_map_of_mem h)).length_le
  omega

/-- A filter is decoded up to the equality tests that stand for extended matches without a matching rule. -/
theorem ReadsAnywhere.filter {t : ParseTree} (h : ParsedTree t) (hnul : ∀ l ∈ t.leaves, StringValues l) {fuel : Nat}
    (hfuel : (filterBytes t).length < fuel) :
    ReadsAnywhere (ldapDecodeFilter fuel) (filterBytes t) (some (withEqualities t)) := by
  have hpos : ∃ k, fuel = k + 1 := ⟨fuel - 1, by omega⟩
  induction h generalizing fuel with
  | @and ts _ _ ih =>
    obtain ⟨fuel, rfl⟩ := hpos
    have hlist := Reads.filters fun t ht => @ih t ht (fun l hl => hnul l (ParseTree.mem_leavesOf ht hl)) fuel
      (lt_of_mem_filters ht hfuel) ⟨fuel - 1, by have := lt_of_mem_filters ht hfuel; omega⟩
    exact .byTag 0 (by decide) (.build (.started hlist _) rfl)
  | @or ts _ _ ih =>
    obtain ⟨fuel, rfl⟩ := hpos
    have hlist := Reads.filters fun t ht => @ih t ht (fun l hl => hnul l (ParseTree.mem_leavesOf ht hl)) fuel
      (lt_of_mem_filters ht hfuel) ⟨fuel - 1, by have := lt_of_mem_filters ht hfuel; omega⟩
    exact .byTag 1 (by decide) (.build (.started hlist _) rfl)
  | @not t _ ih =>
    obtain ⟨fuel, rfl⟩ := hpos
    have hlt := length_lt_tagged (asn1Context 2) (filterBytes t)
    rw [filterBytes] at hfuel
    have hchild := @ih hnul fuel (by omega) ⟨fuel - 1, by omega⟩
    exact .byTag 2 (by decide) (.build (.started hchild.reads.any _) rfl)
  | leaf h =>
    obtain ⟨fuel, rfl⟩ := hpos
    exact .leaf h (hnul _ (by rw [ParseTree.leaves_of_isLeaf (by cases h <;> rfl)]; exact mem_singleton_self _)) fuel

/-! ## Filters that survive -/

/-- An extended match names its matching rule. -/
def HasRule : ParseTree → Prop
  | .extended _ _ ruleId _ => ruleId ≠ none
  | _ => True

theorem withEqualities_of_hasRule (t : ParseTree) (h : ∀ l ∈ t.leaves, HasRule l) : withEqualities t = t := by
  have hlist : ∀ ts : List ParseTree, (∀ t ∈ ts, (∀ l ∈ t.leaves, HasRule l) → withEqualities t = t) →
      (∀ l ∈ ParseTree.leavesOf ts, HasRule l) → withEqualitiesOf ts = ts := by
    intro ts ih h
    rw [withEqualitiesOf_eq]
    exact (map_congr_left fun t ht => ih t ht fun l hl => h l (ParseTree.mem_leavesOf ht hl)).trans (map_id _)
  induction t using ParseTree.induct with
  | and ts ih => exact congrArg ParseTree.and (hlist ts ih h)
  | or ts ih => exact congrArg ParseTree.or (hlist ts ih h)
  | not t ih => exact congrArg ParseTree.not (ih h)
  | leaf t ht =>
    have hrule := h t (by rw [ParseTree.leaves_of_isLeaf ht]; exact mem_singleton_self _)
    cases t with
    | extended attr d ruleId value => exact if_neg hrule
    | and ts => cases ht
    | or ts => cases ht
    | not t => cases ht
    | _ => rfl

/-- Every filter that is parsed, and whose strings are strings, is pushed if the buffer can hold it. It is decoded to its
last byte as it was, except that an extended match without a matching rule becomes an equality test. -/
theorem ldapFilter_roundTrip {s : Text} {t : ParseTree} (hparse : ldbParseTree s = some t)
    (hnul : ∀ l ∈ t.leaves, StringValues l) :
    (∀ done ns, done.length < maxTallocSize → ldapPushFilter t (written done ns) =
        if (done ++ filterBytes t).length < maxTallocSize then some ((), written (done ++ filterBytes t) ns) else none) ∧
      (∀ done rest ns, (done ++ (filterBytes t ++ rest)).length < 2 ^ 31 →
        ldapDecodeFilterTree (reading done (filterBytes t ++ rest) ns) =
          some (withEqualities t, reading (done ++ filterBytes t) rest ns)) ∧
      ((∀ l ∈ t.leaves, HasRule l) → withEqualities t = t) := by
  have hparsed := ldbParseTree_parsed hparse
  refine ⟨fun done ns hdone => ?_, fun done rest ns hsize => ?_, withEqualities_of_hasRule t⟩
  · split
    · next h => exact (Writes.filter hparsed).fits _ _ h
    · next h => exact (Writes.filter hparsed).full _ _ hdone (Nat.not_lt.1 h)
  · have hget : (get : Asn1Calls Asn1Data) (reading done (filterBytes t ++ rest) ns) =
        some (reading done (filterBytes t ++ rest) ns, reading done (filterBytes t ++ rest) ns) := rfl
    have hfuel : (filterBytes t).length < (reading done (filterBytes t ++ rest) ns).data.length + 1 := by
      rw [reading, length_append, length_append]
      omega
    rw [length_append] at hsize
    rw [ldapDecodeFilterTree, bind_some hget]
    exact (ReadsAnywhere.filter hparsed hnul hfuel).read done rest ns (by omega)

/-- Filters of several kinds inside each other. -/
def nestedFilter : Text := "(&(cn=a*b)(!(sn:2.5:=\\2a)))".toList.map chr

theorem ldapFilter_roundTrip_nested : ∃ t, ldbParseTree nestedFilter = some t ∧
    ∀ done rest ns, (done ++ (filterBytes t ++ rest)).length < 2 ^ 31 →
      ldapDecodeFilterTree (reading done (filterBytes t ++ rest) ns) =
        some (withEqualities t, reading (done ++ filterBytes t) rest ns) := by
  have hparse : ∃ t ∈ ldbParseTree nestedFilter, ∀ l ∈ t.leaves, StringValues l := by decide +kernel
  obtain ⟨t, ht, hnul⟩ := hparse
  exact ⟨t, ht, (ldapFilter_roundTrip ht hnul).2.1⟩

/-- An extended match without a matching rule. -/
def ruleless : ParseTree → Bool
  | .extended _ _ none _ => true
  | _ => false

/-- `(cn:dn:=x)`, an extended match without a matching rule. -/
def dnFilter : Text := "(cn:dn:=x)".toList.map chr

/-- The match becomes an equality test, and the flag for the components of names is lost. -/
theorem dnFilter_not_roundTrip : ¬∀ s t, ldbParseTree s = some t → ∃ out, ldapPushFilter t asn1Init = some ((), written out []) ∧
    ldapDecodeFilterTree (reading [] out []) = some (t, reading out [] []) := by
  intro h
  have hparse : ∃ t ∈ ldbParseTree dnFilter, (∀ l ∈ t.leaves, StringValues l) ∧
      (filterBytes t).length < 100 ∧ ruleless t = true := by decide +kernel
  obtain ⟨t, ht, hnul, hlen, hrule⟩ := hparse
  obtain ⟨hpush, hdecode, -⟩ := ldapFilter_roundTrip ht hnul
  obtain ⟨out, hout, hback⟩ := h _ _ ht
  have hfits : ([] ++ filterBytes t).length < maxTallocSize := by
    unfold maxTallocSize
    rw [nil_append]
    omega
  have hpushed := hpush [] [] (by decide)
  rw [if_pos hfits, nil_append] at hpushed
  obtain rfl : filterBytes t = out := congrArg (fun r => (r.map fun r => r.2.data).getD []) (hpushed.symm.trans hout)
  have hread := hdecode [] [] [] (by rw [nil_append, append_nil]; omega)
  rw [append_nil] at hread
  have heq : withEqualities t = t := congrArg Prod.fst (Option.some.inj (hread.symm.trans hback))
  cases t with
  | extended attr d ruleId value =>
    cases ruleId with
    | none => cases heq
    | some r => cases hrule
  | _ => cases hrule

end Samba.Libcli
