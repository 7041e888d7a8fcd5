/-
Reading bytes that nobody has checked (libcli/util/asn1.c): which calls stay inside the buffer, and which bytes lie between the
start and the end of a tag. Memory allocation does not fail.
-/
import Samba.Libcli.Asn1Calls
import Samba.Libcli.Asn1Oid
import Samba.Lib.Transition

namespace Samba.Libcli

open Ber CString List Transition
open Samba.Ndr (maxTallocSize)

def asn1Oid : UInt8 := 0x6

/-! ## The calls -/

namespace Asn1Data

/-- `asn1_peek_tag`. -/
def peekTag (data : Asn1Data) (tag : UInt8) : Bool × Asn1Data :=
  match asn1TagRemaining data with
  | (remaining, data) =>
    if remaining ≤ 0 then (false, data)
    else
      match asn1Peek data 1 with
      | (none, data) => (false, data)
      | (some b, data) => (b = [tag], data)

/-- The rest of a tag as a block of bytes, and the end of the tag. There is no block of fewer than `least` bytes. -/
def readBlock (data : Asn1Data) (least : Int) : Option (List UInt8) × Asn1Data :=
  match asn1TagRemaining data with
  | (len, data) =>
    if len < least then (none, { data with hasError := true })
    else
      match asn1Read data len with
      | (p, data) =>
        match asn1EndTag data with
        | (_, data) => if data.hasError then (none, data) else (p, data)

/-- `asn1_read_OctetString`. -/
def readOctetString (data : Asn1Data) : Option (List UInt8) × Asn1Data :=
  match asn1StartTag data asn1OctetString with
  | (false, data) => (none, data)
  | (true, data) => data.readBlock 0

/-- `asn1_read_OID`. -/
def readOid (data : Asn1Data) : Option Text × Asn1Data :=
  match asn1StartTag data asn1Oid with
  | (false, data) => (none, data)
  | (true, data) =>
    match data.readBlock 1 with
    | (none, data) => (none, data)
    | (some blob, data) =>
      match berReadOidString blob with
      | none => (none, { data with hasError := true })
      | some oid => (some oid, data)

/-- The loop of `asn1_read_implicit_Integer`, of at most `fuel` rounds. -/
def readImplicitIntegerFor : Nat → Asn1Data → Int32 → Option Int32 × Asn1Data
  | 0, data, _ => (none, data)
  | fuel + 1, data, i =>
    match asn1TagRemaining data with
    | (remaining, data) =>
      if remaining > 0 then
        match asn1ReadUint8 data with
        | (none, data) => (none, data)
        | (some b, data) => readImplicitIntegerFor fuel data ((i <<< 8) + ⟨b.toUInt32⟩)
      else (if data.hasError then none else some i, data)

/-- `asn1_read_implicit_Integer`: each round takes a byte of the buffer. -/
def readImplicitInteger (data : Asn1Data) : Option Int32 × Asn1Data :=
  readImplicitIntegerFor (data.data.length - data.ofs + 1) data 0

/-- `asn1_read_Integer`. -/
def readInteger (data : Asn1Data) : Option Int32 × Asn1Data :=
  match asn1StartTag data asn1Integer with
  | (false, data) => (none, data)
  | (true, data) =>
    match data.readImplicitInteger with
    | (none, data) => (none, data)
    | (some i, data) =>
      match asn1EndTag data with
      | (ok, data) => (if ok then some i else none, data)

end Asn1Data

/-- The calls of somebody who reads. -/
inductive Asn1Op
  | startTag (tag : UInt8)
  | endTag
  | tagRemaining
  | readOctetString
  | readInteger
  | readOid
  | peekTag (tag : UInt8)
  deriving DecidableEq, Repr

namespace Asn1Op

/-- Whether a call succeeds, and what it leaves. -/
def run (data : Asn1Data) : Asn1Op → Bool × Asn1Data
  | .startTag tag => asn1StartTag data tag
  | .endTag => asn1EndTag data
  | .tagRemaining => ((asn1TagRemaining data).1 ≠ -1, (asn1TagRemaining data).2)
  | .readOctetString => (data.readOctetString.1.isSome, data.readOctetString.2)
  | .readInteger => (data.readInteger.1.isSome, data.readInteger.2)
  | .readOid => (data.readOid.1.isSome, data.readOid.2)
  | .peekTag tag => data.peekTag tag

/-- The tag that a call starts with `asn1_start_tag`. -/
def starts : Asn1Op → Option UInt8
  | .startTag tag => some tag
  | .readOctetString => some asn1OctetString
  | .readInteger => some asn1Integer
  | .readOid => some asn1Oid
  | _ => none

end Asn1Op

/-! ## The lengths that are encoded -/

/-- The length at the front of some bytes as an unbounded number, and what is behind it. The indefinite form is read as one of
one byte. -/
def encodedLength : List UInt8 → Option (Nat × List UInt8)
  | [] => none
  | b :: bs =>
    if b &&& 0x80 ≠ 0 then
      let n := max 1 (b &&& 0x7f).toNat
      if n ≤ bs.length then some (beNumber (bs.take n), bs.drop n) else none
    else some (b.toNat, bs)

/-- The length of a tag at the front of some bytes, and what is behind its header. -/
def tagHeader (tag : UInt8) : List UInt8 → Option (Nat × List UInt8)
  | [] => none
  | b :: bs => if b = tag then encodedLength bs else none

/-- A tag that was started: where its content begins, and its encoded length. -/
structure Opened where
  start : Nat
  length : Nat
  deriving DecidableEq, Repr

/-- A reader together with the tags that it has started and not ended, the innermost one first. -/
structure Asn1Run where
  data : Asn1Data
  opened : List Opened
  deriving DecidableEq, Repr

namespace Asn1Run

/-- The start of reading. -/
def load (blob : List UInt8) : Asn1Run := ⟨(asn1Load blob).2, []⟩

/-- The header of a tag that is ahead. -/
def header (r : Asn1Run) (tag : UInt8) : Option (Nat × List UInt8) := tagHeader tag (r.data.data.drop r.data.ofs)

/-- One call. -/
def step (r : Asn1Run) (op : Asn1Op) : Asn1Run :=
  match op.run r.data with
  | (false, data) => ⟨data, r.opened⟩
  | (true, data) =>
    match op with
    | .startTag tag => ⟨data, ⟨data.ofs, ((r.header tag).map Prod.fst).getD 0⟩ :: r.opened⟩
    | .endTag => ⟨data, r.opened.tail⟩
    | _ => ⟨data, r.opened⟩

/-- The bytes between the start and the end of a tag, where a call ends one, are as many as its encoded length says. -/
def Exact (r : Asn1Run) : Asn1Op → Prop
  | .endTag => ∃ o ∈ r.opened.head?, r.data.ofs = o.start + o.length
  | .readOctetString => ∃ n rest, r.header asn1OctetString = some (n, rest) ∧
      (Asn1Op.readOctetString.run r.data).2.ofs + rest.length = r.data.data.length + n
  | .readInteger => ∃ n rest, r.header asn1Integer = some (n, rest) ∧
      (Asn1Op.readInteger.run r.data).2.ofs + rest.length = r.data.data.length + n
  | .readOid => ∃ n rest, r.header asn1Oid = some (n, rest) ∧
      (Asn1Op.readOid.run r.data).2.ofs + rest.length = r.data.data.length + n
  | _ => True

/-- A call stays inside the buffer: the offset does, a tag is started only if its length is at most what is left, and a tag is
ended after as many bytes as its length says. -/
structure Inside (r : Asn1Run) (op : Asn1Op) : Prop where
  offset : (op.run r.data).2.ofs ≤ (op.run r.data).2.data.length
  start : ∀ tag ∈ op.starts, (asn1StartTag r.data tag).1 = true → ∃ n rest, r.header tag = some (n, rest) ∧ n ≤ rest.length
  exact : (op.run r.data).1 = true → r.Exact op

/-- The length of a tag that a call starts is at most what is left, or it is not so modulo `2 ^ 32` either. -/
def LengthFits (r : Asn1Run) (op : Asn1Op) : Prop :=
  ∀ tag ∈ op.starts, r.data.hasError = false →
    ∀ n rest, r.header tag = some (n, rest) → n ≤ rest.length ∨ rest.length < n % 2 ^ 32

end Asn1Run

/-! ## What every call keeps -/

/-- The buffer stays as it is, the offset stays inside it, and an error stays. -/
structure Asn1Data.Keeps (data data' : Asn1Data) : Prop where
  buffer : data'.data = data.data
  offset : data'.ofs ≤ data'.data.length
  error : data.hasError = true → data'.hasError = true

variable {data data' data'' : Asn1Data}

theorem Asn1Data.Keeps.refl (h : data.ofs ≤ data.data.length) : data.Keeps data := ⟨rfl, h, id⟩

theorem Asn1Data.Keeps.trans (h : data.Keeps data') (h' : data'.Keeps data'') : data.Keeps data'' :=
  ⟨h'.buffer.trans h.buffer, h'.offset, h'.error ∘ h.error⟩

theorem Asn1Data.Keeps.failed (h : data.Keeps data') : data.Keeps { data' with hasError := true } :=
  ⟨h.buffer, h.offset, fun _ => rfl⟩

theorem Asn1Data.Keeps.nested (h : data.Keeps data') (ns : List Nesting) : data.Keeps { data' with nesting := ns } :=
  ⟨h.buffer, h.offset, h.error⟩

theorem asn1Peek_keeps (h : data.ofs ≤ data.data.length) (len : Int) : data.Keeps (asn1Peek data len).2 := by
  rw [asn1Peek]
  split
  · exact .refl h
  · split
    · exact ⟨rfl, Nat.le_refl _, id⟩
    · exact .refl h

theorem asn1Peek_some {len : Int} {p : List UInt8} (h : asn1Peek data len = (some p, data')) :
    data' = data ∧ data.ofs + len.toNat ≤ data.data.length := by
  rw [asn1Peek] at h
  split at h
  · cases h
  · split at h
    · cases h
    · exact ⟨(congrArg Prod.snd h).symm, by omega⟩

theorem asn1Read_keeps (h : data.ofs ≤ data.data.length) (len : Int) : data.Keeps (asn1Read data len).2 := by
  have hpeek := asn1Peek_keeps h len
  rw [asn1Read]
  split
  · next hread =>
    rw [hread] at hpeek
    exact hpeek.failed
  · next hread =>
    obtain ⟨rfl, hle⟩ := asn1Peek_some hread
    exact ⟨rfl, hle, id⟩

theorem asn1ReadUint8_keeps (h : data.ofs ≤ data.data.length) : data.Keeps (asn1ReadUint8 data).2 := by
  have hread := asn1Read_keeps h 1
  rw [asn1ReadUint8]
  split <;> simp_all

theorem asn1TagRemaining_keeps (h : data.ofs ≤ data.data.length) : data.Keeps (asn1TagRemaining data).2 := by
  rw [asn1TagRemaining]
  split
  · exact .refl h
  · split
    · exact (Asn1Data.Keeps.refl h).failed
    · dsimp only
      split
      · exact (Asn1Data.Keeps.refl h).failed
      · exact .refl h

theorem asn1ReadTaglen_keeps (h : data.ofs ≤ data.data.length) (taglen n : Nat) :
    data.Keeps (asn1ReadTaglen data taglen n).2 := by
  induction n generalizing data taglen with
  | zero => exact .refl h
  | succ n ih =>
    have hread := asn1ReadUint8_keeps h
    rw [asn1ReadTaglen]
    split
    · next hbyte =>
      rw [hbyte] at hread
      exact hread
    · next hbyte =>
      rw [hbyte] at hread
      exact hread.trans (ih hread.offset _)

theorem asn1ReadLength_keeps (h : data.ofs ≤ data.data.length) (b : UInt8) : data.Keeps (asn1ReadLength data b).2 := by
  rw [asn1ReadLength]
  split
  · have hread := asn1ReadUint8_keeps h
    split
    · next hbyte =>
      rw [hbyte] at hread
      exact hread
    · next hbyte =>
      rw [hbyte] at hread
      exact hread.trans (asn1ReadTaglen_keeps hread.offset _ _)
  · exact .refl h

theorem asn1StartTag_keeps (h : data.ofs ≤ data.data.length) (tag : UInt8) : data.Keeps (asn1StartTag data tag).2 := by
  have hfirst := asn1ReadUint8_keeps h
  rw [asn1StartTag]
  split
  · next hbyte =>
    rw [hbyte] at hfirst
    exact hfirst
  next hbyte =>
  rw [hbyte] at hfirst
  split
  · exact hfirst.failed
  have hsecond := hfirst.trans (asn1ReadUint8_keeps hfirst.offset)
  split
  · next hbyte =>
    rw [hbyte] at hsecond
    exact hsecond
  next b _ hbyte =>
  rw [hbyte] at hsecond
  have hlength := hsecond.trans (asn1ReadLength_keeps hsecond.offset b)
  split
  · next hlen =>
    rw [hlen] at hlength
    exact hlength
  next taglen pushed hlen =>
  rw [hlen] at hlength
  have hpushed := hlength.nested (⟨pushed.ofs, taglen⟩ :: pushed.nesting)
  have hremaining := hpushed.trans (asn1TagRemaining_keeps hpushed.offset)
  dsimp only
  split <;> exact hremaining

theorem asn1EndTag_keeps (h : data.ofs ≤ data.data.length) : data.Keeps (asn1EndTag data).2 := by
  have hremaining := asn1TagRemaining_keeps h
  rw [asn1EndTag]
  dsimp only at hremaining ⊢
  split
  · exact hremaining.failed
  · split
    · exact hremaining.failed
    · exact hremaining.nested _

namespace Asn1Data

theorem peekTag_keeps (h : data.ofs ≤ data.data.length) (tag : UInt8) : data.Keeps (data.peekTag tag).2 := by
  have hremaining := asn1TagRemaining_keeps h
  rw [peekTag]
  dsimp only at hremaining ⊢
  have hpeek := hremaining.trans (asn1Peek_keeps hremaining.offset 1)
  split
  · exact hremaining
  · split
    · next hpeeked =>
      rw [hpeeked] at hpeek
      exact hpeek
    · next hpeeked =>
      rw [hpeeked] at hpeek
      exact hpeek

theorem readBlock_keeps (h : data.ofs ≤ data.data.length) (least : Int) : data.Keeps (data.readBlock least).2 := by
  have hremaining := asn1TagRemaining_keeps h
  rw [readBlock]
  generalize asn1TagRemaining data = result at hremaining
  obtain ⟨len, data'⟩ := result
  dsimp only at hremaining ⊢
  have hread := hremaining.trans (asn1Read_keeps hremaining.offset len)
  have hend := hread.trans (asn1EndTag_keeps hread.offset)
  split
  · exact hremaining.failed
  · split <;> exact hend

theorem readOctetString_keeps (h : data.ofs ≤ data.data.length) : data.Keeps data.readOctetString.2 := by
  have hstart := asn1StartTag_keeps h asn1OctetString
  rw [readOctetString]
  split
  · next hstarted =>
    rw [hstarted] at hstart
    exact hstart
  · next hstarted =>
    rw [hstarted] at hstart
    exact hstart.trans (readBlock_keeps hstart.offset 0)

theorem readOid_keeps (h : data.ofs ≤ data.data.length) : data.Keeps data.readOid.2 := by
  have hstart := asn1StartTag_keeps h asn1Oid
  rw [readOid]
  split
  · next hstarted =>
    rw [hstarted] at hstart
    exact hstart
  next hstarted =>
  rw [hstarted] at hstart
  have hblock := hstart.trans (readBlock_keeps hstart.offset 1)
  split
  · next hread =>
    rw [hread] at hblock
    exact hblock
  · next hread =>
    rw [hread] at hblock
    split
    · exact hblock.failed
    · exact hblock

theorem readImplicitIntegerFor_keeps (h : data.ofs ≤ data.data.length) (fuel : Nat) (i : Int32) :
    data.Keeps (readImplicitIntegerFor fuel data i).2 := by
  induction fuel generalizing data i with
  | zero => exact .refl h
  | succ fuel ih =>
    have hremaining := asn1TagRemaining_keeps h
    rw [readImplicitIntegerFor]
    dsimp only at hremaining ⊢
    have hread := hremaining.trans (asn1ReadUint8_keeps hremaining.offset)
    split
    · split
      · next hbyte =>
        rw [hbyte] at hread
        exact hread
      · next hbyte =>
        rw [hbyte] at hread
        exact hread.trans (ih hread.offset _)
    · exact hremaining

theorem readInteger_keeps (h : data.ofs ≤ data.data.length) : data.Keeps data.readInteger.2 := by
  have hstart := asn1StartTag_keeps h asn1Integer
  rw [readInteger]
  split
  · next hstarted =>
    rw [hstarted] at hstart
    exact hstart
  next started hstarted =>
  rw [hstarted] at hstart
  have hloop := hstart.trans (readImplicitIntegerFor_keeps hstart.offset (started.data.length - started.ofs + 1) 0)
  split
  · next hread =>
    rw [show readImplicitIntegerFor _ started 0 = _ from hread] at hloop
    exact hloop
  · next hread =>
    rw [show readImplicitIntegerFor _ started 0 = _ from hread] at hloop
    exact hloop.trans (asn1EndTag_keeps hloop.offset)

end Asn1Data

theorem Asn1Op.run_keeps (h : data.ofs ≤ data.data.length) (op : Asn1Op) : data.Keeps (op.run data).2 := by
  cases op with
  | startTag tag => exact asn1StartTag_keeps h tag
  | endTag => exact asn1EndTag_keeps h
  | tagRemaining => exact asn1TagRemaining_keeps h
  | readOctetString => exact Asn1Data.readOctetString_keeps h
  | readInteger => exact Asn1Data.readInteger_keeps h
  | readOid => exact Asn1Data.readOid_keeps h
  | peekTag tag => exact Asn1Data.peekTag_keeps h tag

/-! ## Reading without an error -/

/-- A reader without an error that has the given bytes of its buffer ahead. -/
def ahead (buffer rest : List UInt8) (ns : List Nesting) : Asn1Data := ⟨buffer, buffer.length - rest.length, ns, false⟩

variable {buffer rest : List UInt8} {ns : List Nesting}

theorem ahead_eq_reading (done rest : List UInt8) (ns : List Nesting) : ahead (done ++ rest) rest ns = reading done rest ns := by
  rw [ahead, reading, length_append, Nat.add_sub_cancel]

theorem asn1ReadUint8_ahead {b : UInt8} (h : b :: rest <:+ buffer) :
    asn1ReadUint8 (ahead buffer (b :: rest) ns) = (some b, ahead buffer rest ns) := by
  obtain ⟨done, rfl⟩ := h
  rw [ahead_eq_reading, asn1ReadUint8_reading, ← ahead_eq_reading, append_assoc, singleton_append]

theorem asn1ReadUint8_ahead_nil : ∃ data, asn1ReadUint8 (ahead buffer [] ns) = (none, data) ∧ data.hasError = true := by
  refine ⟨{ ahead buffer [] ns with ofs := buffer.length, hasError := true }, ?_, rfl⟩
  simp [asn1ReadUint8, asn1Read, asn1Peek, ahead]

/-- The loop over the bytes of a length reads them modulo the width of a `size_t`. -/
theorem asn1ReadTaglen_ahead (h : rest <:+ buffer) (n acc : Nat) (hn : n ≤ rest.length) :
    asn1ReadTaglen (ahead buffer rest ns) (acc % 2 ^ 64) n =
      (some ((rest.take n).foldl (fun n b => n * 256 + b.toNat) acc % 2 ^ 64), ahead buffer (rest.drop n) ns) := by
  induction n generalizing rest acc with
  | zero => rfl
  | succ n ih =>
    obtain ⟨b, rest, rfl⟩ := exists_cons_of_length_pos (Nat.lt_of_lt_of_le (Nat.succ_pos n) hn)
    have hb : b.toNat < 2 ^ 8 := b.toNat_lt
    have hword : ((acc % 2 ^ 64) <<< 8 ||| b.toNat) % 2 ^ 64 = (acc * 256 + b.toNat) % 2 ^ 64 := by
      rw [← Nat.shiftLeft_add_eq_or_of_lt hb, Nat.shiftLeft_eq]
      omega
    rw [length_cons] at hn
    rw [asn1ReadTaglen, asn1ReadUint8_ahead h]
    dsimp only
    rw [hword, ih ((suffix_cons b rest).trans h) _ (by omega)]
    rfl

theorem asn1ReadTaglen_ahead_none (h : rest <:+ buffer) (n acc : Nat) (hn : rest.length < n) :
    ∃ data, asn1ReadTaglen (ahead buffer rest ns) acc n = (none, data) ∧ data.hasError = true := by
  induction n generalizing rest acc with
  | zero => exact absurd hn (Nat.not_lt_zero _)
  | succ n ih =>
    rw [asn1ReadTaglen]
    cases rest with
    | nil =>
      obtain ⟨data, hread, herror⟩ := @asn1ReadUint8_ahead_nil buffer ns
      exact ⟨data, by rw [hread], herror⟩
    | cons b rest =>
      rw [asn1ReadUint8_ahead h]
      rw [length_cons] at hn
      exact ih ((suffix_cons b rest).trans h) _ (by omega)

variable {n : Nat} {rest' : List UInt8} {tag : UInt8}

/-- The length that is read is the one that is encoded, modulo the width of a `size_t`. -/
theorem asn1ReadLength_ahead {b : UInt8} (h : rest <:+ buffer) (hn : encodedLength (b :: rest) = some (n, rest')) :
    asn1ReadLength (ahead buffer rest ns) b = (some (n % 2 ^ 64), ahead buffer rest' ns) := by
  rw [encodedLength] at hn
  rw [asn1ReadLength]
  have hb := b.toNat_lt
  split
  · next hbit =>
    rw [if_pos hbit] at hn
    generalize (b &&& 0x7f).toNat = count at hn
    dsimp only at hn
    split at hn
    · next hcount =>
      obtain ⟨rfl, rfl⟩ := Prod.mk.inj (Option.some.inj hn)
      obtain ⟨c, rest, rfl⟩ := exists_cons_of_length_pos (show 0 < rest.length by omega)
      have hc : c.toNat = (0 * 256 + c.toNat) % 2 ^ 64 := by
        have := c.toNat_lt
        omega
      have hpos : max 1 count = count - 1 + 1 := by omega
      rw [length_cons] at hcount
      rw [asn1ReadUint8_ahead h]
      dsimp only
      rw [hc, asn1ReadTaglen_ahead ((suffix_cons c rest).trans h) _ _ (by omega), hpos, take_succ_cons,
        drop_succ_cons]
      rfl
    · cases hn
  · next hbit =>
    rw [if_neg hbit] at hn
    obtain ⟨rfl, rfl⟩ := Prod.mk.inj (Option.some.inj hn)
    rw [Nat.mod_eq_of_lt (by omega)]

theorem asn1ReadLength_ahead_none {b : UInt8} (h : rest <:+ buffer) (hn : encodedLength (b :: rest) = none) :
    ∃ data, asn1ReadLength (ahead buffer rest ns) b = (none, data) ∧ data.hasError = true := by
  rw [encodedLength] at hn
  rw [asn1ReadLength]
  split
  · next hbit =>
    rw [if_pos hbit] at hn
    dsimp only at hn
    split at hn
    · cases hn
    · next hcount =>
      cases rest with
      | nil =>
        obtain ⟨data, hread, herror⟩ := @asn1ReadUint8_ahead_nil buffer ns
        exact ⟨data, by rw [hread], herror⟩
      | cons c rest =>
        rw [asn1ReadUint8_ahead h]
        rw [length_cons] at hcount
        exact asn1ReadTaglen_ahead_none ((suffix_cons c rest).trans h) _ _ (by omega)
  · next hbit =>
    rw [if_neg hbit] at hn
    cases hn

/-- What is left of the innermost tag, as an `int` that must not be more than what is ahead. -/
theorem asn1TagRemaining_ahead {start taglen : Nat} {r : Int} (h : rest <:+ buffer) (hsize : buffer.length < 2 ^ 31)
    (hr : ((taglen : Int) - ((buffer.length - rest.length : Nat) - start)).bmod (2 ^ 32) = r) :
    asn1TagRemaining (ahead buffer rest (⟨start, taglen⟩ :: ns)) =
      if 0 ≤ r ∧ r ≤ rest.length then (r, ahead buffer rest (⟨start, taglen⟩ :: ns))
      else (-1, { ahead buffer rest (⟨start, taglen⟩ :: ns) with hasError := true }) := by
  have hle := h.length_le
  have hlow : -(2 ^ 31) ≤ r := by
    have := @Int.le_bmod ((taglen : Int) - ((buffer.length - rest.length : Nat) - start)) (2 ^ 32) (by decide)
    omega
  have hhigh : r < 2 ^ 31 := by
    have := @Int.bmod_lt ((taglen : Int) - ((buffer.length - rest.length : Nat) - start)) (2 ^ 32) (by decide)
    omega
  have hleft : (buffer.length : Int) - (buffer.length - rest.length : Nat) = rest.length := by omega
  unfold asn1TagRemaining
  simp only [ahead, hr, hleft]
  rw [if_neg Bool.false_ne_true]
  by_cases hfits : 0 ≤ r ∧ r ≤ rest.length
  · rw [if_pos hfits, if_neg (by omega)]
  · rw [if_neg hfits, if_pos (by omega)]

theorem encodedLength_suffix (h : encodedLength rest = some (n, rest')) : rest' <:+ rest := by
  cases rest with
  | nil => cases h
  | cons b rest =>
    refine List.IsSuffix.trans ?_ (suffix_cons b rest)
    rw [encodedLength] at h
    split at h
    · dsimp only at h
      split at h
      · rw [← (Prod.mk.inj (Option.some.inj h)).2]
        exact drop_suffix _ _
      · cases h
    · rw [← (Prod.mk.inj (Option.some.inj h)).2]

theorem tagHeader_suffix (h : tagHeader tag rest = some (n, rest')) : rest' <:+ rest := by
  cases rest with
  | nil => cases h
  | cons b rest =>
    rw [tagHeader] at h
    split at h
    · exact (encodedLength_suffix h).trans (suffix_cons b rest)
    · cases h

/-- The `int` that is made of a length is at most what is left where the length modulo `2 ^ 32` is. -/
theorem narrowed_le_iff (n : Nat) {k : Nat} (hk : k < 2 ^ 31) :
    (0 ≤ ((n % 2 ^ 64 : Nat) : Int).bmod (2 ^ 32) ∧ ((n % 2 ^ 64 : Nat) : Int).bmod (2 ^ 32) ≤ k) ↔ n % 2 ^ 32 ≤ k := by
  have hmod : ((n % 2 ^ 64 : Nat) : Int) % (2 ^ 32 : Nat) = (n % 2 ^ 32 : Nat) := by omega
  rw [Int.bmod_def, hmod]
  split <;> omega

/-- A tag is started where its length modulo `2 ^ 32` is at most what is left. -/
theorem asn1StartTag_ahead {tag : UInt8} {n : Nat} {rest' : List UInt8} (h : rest <:+ buffer) (hsize : buffer.length < 2 ^ 31)
    (hn : tagHeader tag rest = some (n, rest')) :
    asn1StartTag (ahead buffer rest ns) tag =
      if n % 2 ^ 32 ≤ rest'.length then
        (true, ahead buffer rest' (⟨buffer.length - rest'.length, n % 2 ^ 64⟩ :: ns))
      else (false, { ahead buffer rest' (⟨buffer.length - rest'.length, n % 2 ^ 64⟩ :: ns) with hasError := true }) := by
  have hsuffix := (tagHeader_suffix hn).trans h
  have hle := hsuffix.length_le
  match rest with
  | [] => cases hn
  | [b] =>
    rw [tagHeader] at hn
    split at hn <;> cases hn
  | b :: c :: rest =>
    rw [tagHeader] at hn
    split at hn
    · next hb =>
      have hsecond := (suffix_cons b (c :: rest)).trans h
      have hremaining := @asn1TagRemaining_ahead buffer rest' ns (buffer.length - rest'.length) (n % 2 ^ 64) _ hsuffix hsize rfl
      have hnumber : ((n % 2 ^ 64 : Nat) - ((buffer.length - rest'.length : Nat) - (buffer.length - rest'.length : Nat)) : Int) =
          (n % 2 ^ 64 : Nat) := by omega
      rw [hnumber] at hremaining
      have hnarrowed := narrowed_le_iff n (show rest'.length < 2 ^ 31 by omega)
      generalize ((n % 2 ^ 64 : Nat) : Int).bmod (2 ^ 32) = r at hremaining hnarrowed
      rw [asn1StartTag, asn1ReadUint8_ahead h]
      dsimp only
      rw [if_neg (by simp [hb]), asn1ReadUint8_ahead hsecond]
      dsimp only
      rw [asn1ReadLength_ahead ((suffix_cons c rest).trans hsecond) hn]
      dsimp only
      rw [show ({ ahead buffer rest' ns with nesting := ⟨(ahead buffer rest' ns).ofs, n % 2 ^ 64⟩ :: (ahead buffer rest' ns).nesting } :
        Asn1Data) = ahead buffer rest' (⟨buffer.length - rest'.length, n % 2 ^ 64⟩ :: ns) from rfl, hremaining]
      by_cases hfits : n % 2 ^ 32 ≤ rest'.length
      · have hnonneg := (hnarrowed.mpr hfits).1
        rw [if_pos (hnarrowed.mpr hfits), if_pos hfits]
        rw [if_neg (show ¬r = -1 by omega)]
        rfl
      · rw [if_neg fun h => hfits (hnarrowed.mp h), if_neg hfits]
        rw [if_pos (rfl : (-1 : Int) = -1)]
    · cases hn

theorem asn1StartTag_ahead_none (h : rest <:+ buffer) (hn : tagHeader tag rest = none) :
    ∃ data, asn1StartTag (ahead buffer rest ns) tag = (false, data) ∧ data.hasError = true := by
  rw [asn1StartTag]
  cases rest with
  | nil =>
    obtain ⟨data, hread, herror⟩ := @asn1ReadUint8_ahead_nil buffer ns
    exact ⟨data, by rw [hread], herror⟩
  | cons b rest =>
    have hsecond := (suffix_cons b rest).trans h
    rw [tagHeader] at hn
    rw [asn1ReadUint8_ahead h]
    dsimp only
    split at hn
    · next hb =>
      rw [if_neg (by simp [hb])]
      cases rest with
      | nil =>
        obtain ⟨data, hread, herror⟩ := @asn1ReadUint8_ahead_nil buffer ns
        exact ⟨data, by rw [hread], herror⟩
      | cons c rest =>
        obtain ⟨data, hread, herror⟩ :=
          @asn1ReadLength_ahead_none buffer rest ns c ((suffix_cons c rest).trans hsecond) hn
        rw [asn1ReadUint8_ahead hsecond]
        dsimp only
        exact ⟨data, by rw [hread], herror⟩
    · next hb =>
      rw [if_pos hb]
      exact ⟨_, rfl, rfl⟩

/-- A tag is ended where as many bytes were read as it has. -/
theorem asn1EndTag_ahead {start n : Nat} (h : rest <:+ buffer) (hsize : buffer.length < 2 ^ 30) (hn : start + n ≤ buffer.length) :
    asn1EndTag (ahead buffer rest (⟨start, n⟩ :: ns)) =
      if buffer.length = start + n + rest.length then (true, ahead buffer rest ns)
      else (false, { (asn1TagRemaining (ahead buffer rest (⟨start, n⟩ :: ns))).2 with hasError := true }) := by
  have hle := h.length_le
  have hremaining := @asn1TagRemaining_ahead buffer rest ns start n
    ((n : Int) - ((buffer.length - rest.length : Nat) - start)) h (by omega) (Int.bmod_eq_of_le (by omega) (by omega))
  by_cases hend : buffer.length = start + n + rest.length
  · rw [asn1EndTag, hremaining, if_pos hend, if_pos (by omega)]
    dsimp only
    rw [if_neg (by omega)]
    rfl
  · have hmore : (asn1TagRemaining (ahead buffer rest (⟨start, n⟩ :: ns))).1 ≠ 0 := by
      rw [hremaining]
      split <;> dsimp only <;> omega
    rw [if_neg hend, asn1EndTag]
    exact if_pos hmore

theorem asn1EndTag_ahead_nil : ∃ data, asn1EndTag (ahead buffer rest []) = (false, data) ∧ data.hasError = true :=
  ⟨{ ahead buffer rest [] with hasError := true }, rfl, rfl⟩

theorem asn1Read_ahead (h : rest <:+ buffer) {k : Nat} (hk : k ≤ rest.length) :
    asn1Read (ahead buffer rest ns) k = (some (rest.take k), ahead buffer (rest.drop k) ns) := by
  obtain ⟨done, rfl⟩ := h
  have hread := asn1Read_reading done (rest.take k) (rest.drop k) ns
  rw [take_append_drop, length_take, Nat.min_eq_left hk] at hread
  rw [ahead_eq_reading, hread, ← ahead_eq_reading, append_assoc, take_append_drop]

/-- The content of a tag that was just started is read as a block, and the tag is ended behind it. -/
theorem readBlock_ahead {least : Int} (h : rest <:+ buffer) (hsize : buffer.length < 2 ^ 30) (hn : n ≤ rest.length) :
    (ahead buffer rest (⟨buffer.length - rest.length, n⟩ :: ns)).readBlock least =
      if (n : Int) < least then
        (none, { ahead buffer rest (⟨buffer.length - rest.length, n⟩ :: ns) with hasError := true })
      else (some (rest.take n), ahead buffer (rest.drop n) ns) := by
  have hle := h.length_le
  have hremaining := @asn1TagRemaining_ahead buffer rest ns (buffer.length - rest.length) n n h (by omega)
    (by rw [Int.sub_self, Int.sub_zero]; exact Int.bmod_eq_of_le (by omega) (by omega))
  rw [if_pos (by omega)] at hremaining
  rw [Asn1Data.readBlock, hremaining]
  dsimp only
  split
  · rfl
  · have hend := @asn1EndTag_ahead buffer (rest.drop n) ns (buffer.length - rest.length) n ((drop_suffix n rest).trans h) hsize
      (by omega)
    rw [if_pos (by rw [length_drop]; omega)] at hend
    rw [asn1Read_ahead h hn]
    rw [hend]
    exact if_neg Bool.false_ne_true

theorem readImplicitIntegerFor_ahead {start n k fuel : Nat} {i : Int32} (h : rest <:+ buffer) (hsize : buffer.length < 2 ^ 30)
    (hn : start + n + rest.length = buffer.length + k) (hk : k ≤ rest.length) (hfuel : k < fuel) :
    ∃ i', Asn1Data.readImplicitIntegerFor fuel (ahead buffer rest (⟨start, n⟩ :: ns)) i =
      (some i', ahead buffer (rest.drop k) (⟨start, n⟩ :: ns)) := by
  induction fuel generalizing rest k i with
  | zero => exact absurd hfuel (Nat.not_lt_zero _)
  | succ fuel ih =>
    have hle := h.length_le
    have hremaining := @asn1TagRemaining_ahead buffer rest ns start n k h (by omega)
      (by
        rw [show (n : Int) - ((buffer.length - rest.length : Nat) - start) = k by omega]
        exact Int.bmod_eq_of_le (by omega) (by omega))
    rw [if_pos (by omega)] at hremaining
    rw [Asn1Data.readImplicitIntegerFor, hremaining]
    dsimp only
    cases k with
    | zero => exact ⟨i, by rw [if_neg (by omega)]; rfl⟩
    | succ k =>
      obtain ⟨b, rest, rfl⟩ := exists_cons_of_length_pos (show 0 < rest.length by omega)
      rw [length_cons] at hn hk
      rw [if_pos (by omega), asn1ReadUint8_ahead h]
      exact ih ((suffix_cons b rest).trans h) (by omega) (by omega) (by omega)

/-! ## Runs -/

theorem asn1StartTag_true (h : asn1StartTag data tag = (true, data')) : data'.hasError = false := by
  rw [asn1StartTag] at h
  split at h
  · cases h
  split at h
  · cases h
  split at h
  · cases h
  split at h
  · cases h
  dsimp only at h
  split at h
  · cases h
  · rw [← (Prod.mk.inj h).2]
    exact Bool.not_eq_true' _ |>.mp (Prod.mk.inj h).1

theorem asn1EndTag_error (h : data.hasError = true) : asn1EndTag data = (false, data) := by
  obtain ⟨buffer, ofs, ns, error⟩ := data
  cases h
  rfl

theorem asn1TagRemaining_noError : (asn1TagRemaining data).2.hasError = false → (asn1TagRemaining data).2 = data := by
  rw [asn1TagRemaining]
  split
  · exact fun _ => rfl
  · split
    · exact fun h => nomatch h
    · dsimp only
      split
      · exact fun h => nomatch h
      · exact fun _ => rfl

theorem peekTag_noError :
    (data.peekTag tag).2.hasError = false → data.hasError = false ∧ (data.peekTag tag).2.nesting = data.nesting := by
  have hremaining := @asn1TagRemaining_noError data
  rw [Asn1Data.peekTag]
  generalize asn1TagRemaining data = result at hremaining
  obtain ⟨remaining, data'⟩ := result
  dsimp only at hremaining ⊢
  have hpeek : (asn1Peek data' 1).2.hasError = data'.hasError ∧ (asn1Peek data' 1).2.nesting = data'.nesting := by
    rw [asn1Peek]
    split
    · exact ⟨rfl, rfl⟩
    · split <;> exact ⟨rfl, rfl⟩
  split
  · intro h
    obtain rfl := hremaining h
    exact ⟨h, rfl⟩
  · split
    all_goals
      next hpeeked =>
      intro h
      rw [hpeeked] at hpeek
      obtain rfl := hremaining (hpeek.1.symm.trans h)
      exact ⟨hpeek.1.symm.trans h, hpeek.2⟩

/-- A tag that is noted as open, and as the reader has it. -/
def Opens (size : Nat) (o : Opened) (n : Nesting) : Prop := n = ⟨o.start, o.length⟩ ∧ o.start + o.length ≤ size

namespace Asn1Run

/-- The offset is inside the buffer, and without an error so are the tags that are open. -/
structure Sound (r : Asn1Run) : Prop where
  offset : r.data.ofs ≤ r.data.data.length
  size : r.data.data.length < maxTallocSize
  opened : r.data.hasError = false → List.Forall₂ (Opens r.data.data.length) r.opened r.data.nesting

variable {r : Asn1Run}

theorem Sound.load (blob : List UInt8) : (load blob).Sound := by
  rw [Asn1Run.load, asn1Load]
  split
  · exact ⟨Nat.le_refl _, by decide, fun h => nomatch h⟩
  · next hsize => exact ⟨Nat.zero_le _, Nat.lt_of_not_le hsize, fun _ => .nil⟩

theorem eq_ahead (hoffset : r.data.ofs ≤ r.data.data.length) (h : r.data.hasError = false) :
    r.data = ahead r.data.data (r.data.data.drop r.data.ofs) r.data.nesting := by
  obtain ⟨⟨buffer, ofs, ns, error⟩, opened⟩ := r
  cases h
  rw [ahead, length_drop, Nat.sub_sub_self hoffset]

variable {tag : UInt8}

/-- A tag is not started, which is an error, or its content is inside the buffer. -/
theorem Sound.started (h : r.Sound)
    (hfits : r.data.hasError = false → ∀ n rest, r.header tag = some (n, rest) → n ≤ rest.length ∨ rest.length < n % 2 ^ 32) :
    (∃ data, asn1StartTag r.data tag = (false, data) ∧ data.hasError = true) ∨
      r.data.hasError = false ∧ ∃ n rest, r.header tag = some (n, rest) ∧ n ≤ rest.length ∧ rest <:+ r.data.data ∧
        asn1StartTag r.data tag =
          (true, ahead r.data.data rest (⟨r.data.data.length - rest.length, n⟩ :: r.data.nesting)) := by
  have hsize : maxTallocSize = 2 ^ 28 := rfl
  have hbuffer := h.size
  have hkeeps := asn1StartTag_keeps h.offset tag
  cases herror : r.data.hasError with
  | true =>
    left
    cases hstart : asn1StartTag r.data tag with
    | mk ok data =>
      rw [hstart] at hkeeps
      have hstays := hkeeps.error herror
      cases ok with
      | true => exact absurd hstays (by rw [asn1StartTag_true hstart]; exact Bool.false_ne_true)
      | false => exact ⟨data, rfl, hstays⟩
  | false =>
    have hahead := eq_ahead h.offset herror
    have hsuffix := drop_suffix r.data.ofs r.data.data
    cases hheader : r.header tag with
    | none =>
      left
      obtain ⟨data, hstart, hfailed⟩ := asn1StartTag_ahead_none hsuffix hheader
      exact ⟨data, by rw [hahead]; exact hstart, hfailed⟩
    | some header =>
      obtain ⟨n, rest⟩ := header
      have hstart := @asn1StartTag_ahead _ _ r.data.nesting tag n rest hsuffix (by omega) hheader
      have hrest := (tagHeader_suffix hheader).trans hsuffix
      have hle := hrest.length_le
      rw [← hahead] at hstart
      rcases hfits herror n rest hheader with hn | hn
      · right
        rw [if_pos (by omega), Nat.mod_eq_of_lt (by omega)] at hstart
        exact ⟨rfl, n, rest, rfl, hn, hrest, hstart⟩
      · left
        rw [if_neg (by omega)] at hstart
        exact ⟨_, hstart, rfl⟩

/-- A call that reads a tag with its content fails with an error, or it reads as many bytes as the encoded length says. -/
def ReadsTag (r : Asn1Run) (tag : UInt8) (result : Bool × Asn1Data) : Prop :=
  result.1 = false ∧ result.2.hasError = true ∨
    r.data.hasError = false ∧ ∃ n rest, r.header tag = some (n, rest) ∧ n ≤ rest.length ∧ rest <:+ r.data.data ∧
      result = (true, ahead r.data.data (rest.drop n) r.data.nesting)

theorem Sound.readOctetString (h : r.Sound) (hfits : r.LengthFits .readOctetString) :
    r.ReadsTag asn1OctetString (Asn1Op.readOctetString.run r.data) := by
  have hsize : maxTallocSize = 2 ^ 28 := rfl
  have hbuffer := h.size
  rw [Asn1Op.run, Asn1Data.readOctetString]
  rcases h.started (hfits _ rfl) with ⟨data, hstart, herror⟩ | ⟨herror, n, rest, hheader, hn, hrest, hstart⟩
  · rw [hstart]
    exact .inl ⟨rfl, herror⟩
  · rw [hstart]
    dsimp only
    rw [readBlock_ahead hrest (by omega) hn, if_neg (by omega)]
    exact .inr ⟨herror, n, rest, hheader, hn, hrest, rfl⟩

theorem Sound.readOid (h : r.Sound) (hfits : r.LengthFits .readOid) : r.ReadsTag asn1Oid (Asn1Op.readOid.run r.data) := by
  have hsize : maxTallocSize = 2 ^ 28 := rfl
  have hbuffer := h.size
  rw [Asn1Op.run, Asn1Data.readOid]
  rcases h.started (hfits _ rfl) with ⟨data, hstart, herror⟩ | ⟨herror, n, rest, hheader, hn, hrest, hstart⟩
  · rw [hstart]
    exact .inl ⟨rfl, herror⟩
  · rw [hstart]
    dsimp only
    rw [readBlock_ahead hrest (by omega) hn]
    split
    · next hread =>
      split at hread
      · rw [← (Prod.mk.inj hread).2]
        exact .inl ⟨rfl, rfl⟩
      · cases hread
    · next hread =>
      split at hread
      · cases hread
      · obtain ⟨-, rfl⟩ := Prod.mk.inj hread
        split
        · exact .inl ⟨rfl, rfl⟩
        · exact .inr ⟨herror, n, rest, hheader, hn, hrest, rfl⟩

theorem Sound.readInteger (h : r.Sound) (hfits : r.LengthFits .readInteger) :
    r.ReadsTag asn1Integer (Asn1Op.readInteger.run r.data) := by
  have hsize : maxTallocSize = 2 ^ 28 := rfl
  have hbuffer := h.size
  rw [Asn1Op.run, Asn1Data.readInteger]
  rcases h.started (hfits _ rfl) with ⟨data, hstart, herror⟩ | ⟨herror, n, rest, hheader, hn, hrest, hstart⟩
  · rw [hstart]
    exact .inl ⟨rfl, herror⟩
  · have hle := hrest.length_le
    have hfuel : n < (ahead r.data.data rest (⟨r.data.data.length - rest.length, n⟩ :: r.data.nesting)).data.length -
        (ahead r.data.data rest (⟨r.data.data.length - rest.length, n⟩ :: r.data.nesting)).ofs + 1 := by
      dsimp only [ahead]
      omega
    obtain ⟨i, hloop⟩ := @readImplicitIntegerFor_ahead _ _ r.data.nesting (r.data.data.length - rest.length) n n _ 0 hrest
      (by omega) (by omega) hn hfuel
    have hend := @asn1EndTag_ahead _ (rest.drop n) r.data.nesting (r.data.data.length - rest.length) n
      ((drop_suffix n rest).trans hrest) (by omega) (by omega)
    rw [if_pos (by rw [length_drop]; omega)] at hend
    rw [hstart]
    dsimp only
    rw [Asn1Data.readImplicitInteger, hloop]
    dsimp only
    rw [hend]
    exact .inr ⟨herror, n, rest, hheader, hn, hrest, rfl⟩

theorem Sound.keep (h : r.Sound) {data : Asn1Data} {opened : List Opened} (hkeeps : r.data.Keeps data)
    (hopened : data.hasError = false → List.Forall₂ (Opens r.data.data.length) opened data.nesting) :
    Sound ⟨data, opened⟩ where
  offset := hkeeps.offset
  size := hkeeps.buffer ▸ h.size
  opened := hkeeps.buffer ▸ hopened

theorem ReadsTag.exact {result : Bool × Asn1Data} (h : r.ReadsTag tag result) (hok : result.1 = true) :
    ∃ n rest, r.header tag = some (n, rest) ∧ result.2.ofs + rest.length = r.data.data.length + n := by
  rcases h with ⟨hfalse, -⟩ | ⟨-, n, rest, hheader, hn, hrest, rfl⟩
  · exact absurd (hok.symm.trans hfalse) Bool.false_ne_true.symm
  · have hle := hrest.length_le
    refine ⟨n, rest, hheader, ?_⟩
    dsimp only [ahead]
    rw [length_drop]
    omega

theorem ReadsTag.sound {result : Bool × Asn1Data} (h : r.ReadsTag tag result) (hsound : r.Sound)
    (hkeeps : r.data.Keeps result.2) : Sound ⟨result.2, r.opened⟩ := by
  refine hsound.keep hkeeps fun hok => ?_
  rcases h with ⟨-, herror⟩ | ⟨herror, n, rest, -, -, -, rfl⟩
  · exact absurd (herror.symm.trans hok) Bool.false_ne_true.symm
  · exact hsound.opened herror

theorem step_eq (r : Asn1Run) {op : Asn1Op} (hstart : ∀ tag, op ≠ .startTag tag) (hend : op ≠ .endTag) :
    r.step op = ⟨(op.run r.data).2, r.opened⟩ := by
  rw [step]
  split
  · next hrun => rw [hrun]
  · next hrun =>
    rw [hrun]
    cases op with
    | startTag tag => exact absurd rfl (hstart tag)
    | endTag => exact absurd rfl hend
    | _ => rfl

/-- A tag is not ended, which is an error, or as many bytes as its length says were read since it was started. -/
theorem Sound.ended (h : r.Sound) :
    (∃ data, asn1EndTag r.data = (false, data) ∧ data.hasError = true) ∨
      ∃ o os data, r.opened = o :: os ∧ r.data.ofs = o.start + o.length ∧ asn1EndTag r.data = (true, data) ∧
        List.Forall₂ (Opens r.data.data.length) os data.nesting := by
  have hsize : maxTallocSize = 2 ^ 28 := rfl
  have hbuffer := h.size
  cases herror : r.data.hasError with
  | true => exact .inl ⟨r.data, asn1EndTag_error herror, herror⟩
  | false =>
    have hahead := eq_ahead h.offset herror
    have hsuffix := drop_suffix r.data.ofs r.data.data
    have hopened := h.opened herror
    have hoffset := h.offset
    obtain ⟨data, opened⟩ := r
    dsimp only at hahead hopened hoffset ⊢
    generalize data.nesting = nesting at hahead hopened
    cases hopened with
    | nil =>
      obtain ⟨data', hend, hfailed⟩ := @asn1EndTag_ahead_nil data.data (data.data.drop data.ofs)
      exact .inl ⟨data', by rw [hahead]; exact hend, hfailed⟩
    | @cons o n os ns ho hos =>
      obtain ⟨rfl, hlength⟩ := ho
      have hend := @asn1EndTag_ahead _ _ ns o.start o.length hsuffix (by omega) hlength
      rw [length_drop, ← hahead] at hend
      dsimp only at hend
      split at hend
      · exact .inr ⟨o, os, _, rfl, by omega, hend, hos⟩
      · exact .inl ⟨_, hend, rfl⟩

/-- One call: where its length fits, it stays inside the buffer, and so does what it leaves. -/
theorem Sound.step (h : r.Sound) {op : Asn1Op} (hfits : r.LengthFits op) : r.Inside op ∧ (r.step op).Sound := by
  have hkeeps := Asn1Op.run_keeps h.offset op
  have hoffset := hkeeps.offset
  have hinside : ∀ tag ∈ op.starts, (asn1StartTag r.data tag).1 = true →
      ∃ n rest, r.header tag = some (n, rest) ∧ n ≤ rest.length := by
    intro tag htag hok
    rcases h.started (hfits tag htag) with ⟨data, hstart, -⟩ | ⟨-, n, rest, hheader, hn, -⟩
    · rw [hstart] at hok
      cases hok
    · exact ⟨n, rest, hheader, hn⟩
  have hreads (tag : UInt8) (hread : r.ReadsTag tag (op.run r.data)) (hexact : r.Exact op = _) (hstep : r.step op = _) :
      r.Inside op ∧ (r.step op).Sound :=
    ⟨⟨hoffset, hinside, fun hok => hexact ▸ hread.exact hok⟩, hstep ▸ hread.sound h hkeeps⟩
  cases op with
  | startTag tag =>
    refine ⟨⟨hoffset, hinside, fun _ => trivial⟩, ?_⟩
    rw [Asn1Run.step]
    rcases h.started (hfits tag rfl) with ⟨data, hstart, herror⟩ | ⟨herror, n, rest, hheader, hn, hrest, hstart⟩
    · rw [Asn1Op.run, hstart] at hkeeps
      rw [Asn1Op.run, hstart]
      exact h.keep hkeeps fun hok => absurd (herror.symm.trans hok) Bool.false_ne_true.symm
    · have hle := hrest.length_le
      rw [Asn1Op.run, hstart] at hkeeps
      rw [Asn1Op.run, hstart]
      dsimp only
      rw [hheader, Option.map_some, Option.getD_some]
      exact h.keep hkeeps fun _ => .cons ⟨rfl, by dsimp only [ahead]; omega⟩ (h.opened herror)
  | endTag =>
    rw [Asn1Op.run] at hkeeps
    rcases h.ended with ⟨data, hend, herror⟩ | ⟨o, os, data, hopened, hexact, hend, hos⟩
    · rw [hend] at hkeeps
      refine ⟨⟨hoffset, hinside, fun hok => ?_⟩, ?_⟩
      · rw [Asn1Op.run, hend] at hok
        cases hok
      · rw [Asn1Run.step, Asn1Op.run, hend]
        exact h.keep hkeeps fun hok => absurd (herror.symm.trans hok) Bool.false_ne_true.symm
    · rw [hend] at hkeeps
      refine ⟨⟨hoffset, hinside, fun _ => ⟨o, by rw [hopened]; rfl, hexact⟩⟩, ?_⟩
      rw [Asn1Run.step, Asn1Op.run, hend]
      exact h.keep hkeeps fun _ => by rw [hopened]; exact hos
  | tagRemaining =>
    refine ⟨⟨hoffset, hinside, fun _ => trivial⟩, ?_⟩
    rw [step_eq r (fun _ => by simp) (by simp)]
    refine h.keep hkeeps fun hok => ?_
    rw [Asn1Op.run] at hok ⊢
    have hsame := asn1TagRemaining_noError hok
    rw [hsame] at hok ⊢
    exact h.opened hok
  | peekTag tag =>
    refine ⟨⟨hoffset, hinside, fun _ => trivial⟩, ?_⟩
    rw [step_eq r (fun _ => by simp) (by simp)]
    refine h.keep hkeeps fun hok => ?_
    obtain ⟨herror, hnesting⟩ := peekTag_noError hok
    rw [Asn1Op.run, hnesting]
    exact h.opened herror
  | readOctetString => exact hreads _ (h.readOctetString hfits) rfl (step_eq r (fun _ => by simp) (by simp))
  | readInteger => exact hreads _ (h.readInteger hfits) rfl (step_eq r (fun _ => by simp) (by simp))
  | readOid => exact hreads _ (h.readOid hfits) rfl (step_eq r (fun _ => by simp) (by simp))

/-- Where a call stays inside the buffer, the length that it starts fits. -/
theorem Sound.lengthFits (h : r.Sound) {op : Asn1Op} (hinside : r.Inside op) : r.LengthFits op := by
  intro tag htag herror n rest hheader
  have hsize : maxTallocSize = 2 ^ 28 := rfl
  have hbuffer := h.size
  have hahead := eq_ahead h.offset herror
  have hstart := @asn1StartTag_ahead _ _ r.data.nesting tag n rest (drop_suffix r.data.ofs r.data.data) (by omega) hheader
  rw [← hahead] at hstart
  by_cases hfits : n % 2 ^ 32 ≤ rest.length
  · rw [if_pos hfits] at hstart
    obtain ⟨n', rest', hheader', hn⟩ := hinside.start tag htag (by rw [hstart])
    obtain ⟨rfl, rfl⟩ := Prod.mk.inj (Option.some.inj (hheader.symm.trans hheader'))
    exact .inl hn
  · exact .inr (Nat.lt_of_not_le hfits)

/-- The offset stays inside the buffer in every run. -/
theorem offset_le_length {r : Asn1Run} (h : r.data.ofs ≤ r.data.data.length) (calls : List Asn1Op) :
    (calls.foldl Asn1Run.step r).data.ofs ≤ (calls.foldl Asn1Run.step r).data.data.length := by
  induction calls generalizing r with
  | nil => exact h
  | cons op calls ih =>
    refine ih ?_
    have hkeeps := Asn1Op.run_keeps h op
    have hdata : (r.step op).data = (op.run r.data).2 := by
      unfold step
      generalize op.run r.data = result
      obtain ⟨ok, data⟩ := result
      cases ok with
      | false => rfl
      | true => cases op <;> rfl
    rw [hdata]
    exact hkeeps.offset

theorem Sound.along (h : r.Sound) (calls : List Asn1Op) :
    System.HoldsAlong Inside Asn1Run.step r calls ↔ System.HoldsAlong LengthFits Asn1Run.step r calls := by
  induction calls generalizing r with
  | nil => exact Iff.rfl
  | cons op calls ih =>
    constructor
    · rintro ⟨hinside, hrest⟩
      have hfits := h.lengthFits hinside
      exact ⟨hfits, (ih (h.step hfits).2).mp hrest⟩
    · rintro ⟨hfits, hrest⟩
      exact ⟨(h.step hfits).1, (ih (h.step hfits).2).mpr hrest⟩

end Asn1Run

/-- From any bytes and with any calls, the offset stays inside the buffer; and every tag is started only if its encoded length is at
most what is left, and ended after as many bytes, in exactly those runs in which no call starts a tag of a length that is more than
what is left, but not so modulo `2 ^ 32`. -/
theorem readsInside_iff (blob : List UInt8) (calls : List Asn1Op) :
    (calls.foldl Asn1Run.step (Asn1Run.load blob)).data.ofs ≤ (calls.foldl Asn1Run.step (Asn1Run.load blob)).data.data.length ∧
      (System.HoldsAlong Asn1Run.Inside Asn1Run.step (Asn1Run.load blob) calls ↔
        System.HoldsAlong Asn1Run.LengthFits Asn1Run.step (Asn1Run.load blob) calls) :=
  ⟨Asn1Run.offset_le_length (Asn1Run.Sound.load blob).offset calls, (Asn1Run.Sound.load blob).along calls⟩

/-- Five bytes behind a length of `2 ^ 32 + 5`. -/
theorem wrappedLength_not_inside :
    ¬∀ blob calls, System.HoldsAlong Asn1Run.Inside Asn1Run.step (Asn1Run.load blob) calls := by
  intro h
  obtain ⟨n, rest, hheader, hn⟩ :=
    (h [0x30, 0x85, 1, 0, 0, 0, 5, 1, 2, 3, 4, 5] [.startTag 0x30]).1.start 0x30 rfl (by decide)
  have hlength : Asn1Run.header (Asn1Run.load [0x30, 0x85, 1, 0, 0, 0, 5, 1, 2, 3, 4, 5]) 0x30 =
      some (2 ^ 32 + 5, [1, 2, 3, 4, 5]) := by decide
  obtain ⟨rfl, rfl⟩ := Prod.mk.inj (Option.some.inj (hlength.symm.trans hheader))
  exact absurd hn (by decide)

end Samba.Libcli
