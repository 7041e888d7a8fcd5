/-
Calls of the ASN.1 library one after the other (libcli/util/asn1.c): the writers and readers of the types, and what a
sequence of them writes and reads. An error stays: after a call that fails the whole sequence has failed, so nothing is said
of the calls behind it.
-/
import Samba.Libcli.Asn1

namespace Samba.Libcli

open Ber CString List
open Samba.Ndr (maxTallocSize)

/-! ## Calls -/

/-- Calls that all succeed, with what they give back. -/
abbrev Asn1Calls (α : Type) := StateT Asn1Data Option α

/-- A call that gives back whether it succeeds. -/
def asn1Call (f : Asn1Data → Bool × Asn1Data) : Asn1Calls Unit := fun data =>
  match f data with
  | (true, data) => some ((), data)
  | (false, _) => none

/-- A call that gives back what it has read. -/
def asn1Get {α : Type} (f : Asn1Data → Option α × Asn1Data) : Asn1Calls α := fun data =>
  match f data with
  | (some a, data) => some (a, data)
  | (none, _) => none

/-- `asn1_push_tag` and `asn1_pop_tag` around what is written. -/
def asn1Pushed (tag : UInt8) (content : Asn1Calls Unit) : Asn1Calls Unit := do
  asn1Call (asn1PushTag · tag)
  content
  asn1Call asn1PopTag

/-- `asn1_start_tag` and `asn1_end_tag` around what is read. -/
def asn1Started {α : Type} (tag : UInt8) (content : Asn1Calls α) : Asn1Calls α := do
  asn1Call (asn1StartTag · tag)
  let a ← content
  asn1Call asn1EndTag
  return a

/-- `ASN1_APPLICATION`. -/
def asn1Application (x : UInt8) : UInt8 := x + 0x60

/-- `ASN1_APPLICATION_SIMPLE`. -/
def asn1ApplicationSimple (x : UInt8) : UInt8 := x + 0x40

/-- `ASN1_SEQUENCE`. -/
def asn1Sequence (x : UInt8) : UInt8 := x + 0x30

/-- `ASN1_CONTEXT`. -/
def asn1Context (x : UInt8) : UInt8 := x + 0xa0

/-- `ASN1_CONTEXT_SIMPLE`. -/
def asn1ContextSimple (x : UInt8) : UInt8 := x + 0x80

def asn1OctetString : UInt8 := 0x4
def asn1Boolean : UInt8 := 0x1
def asn1Integer : UInt8 := 0x2
def asn1Enumerated : UInt8 := 0xa
def asn1Set : UInt8 := 0x31

/-! ## Writing the types -/

/-- The end of `push_int_bigendian`, which writes the lowest byte. -/
def pushLowest (lowest : UInt8) (negative : Bool) : Asn1Calls Unit := do
  let data ← get
  -- nothing was written yet: this is the highest valued byte
  if data.nesting.head?.map (·.start + 1) = some data.ofs then
    if negative then
      -- no leading 0xff, except in front of a byte that would make the number positive
      if lowest = 0xff then return
      if lowest &&& 0x80 = 0 then asn1Call (asn1WriteUint8 · 0xff)
    else
      if lowest &&& 0x80 ≠ 0 then asn1Call (asn1WriteUint8 · 0)
  asn1Call (asn1WriteUint8 · lowest)

theorem shiftRight_lt {i : UInt32} (h : i >>> 8 ≠ 0) : (i >>> 8).toNat < i.toNat := by
  have hne : i.toNat ≠ 0 := fun h0 => h (by rw [show i = 0 from UInt32.toNat_inj.1 h0]; rfl)
  rw [UInt32.toNat_shiftRight, Nat.shiftRight_eq_div_pow]
  exact Nat.div_lt_self (Nat.pos_of_ne_zero hne) (by decide)

/-- `push_int_bigendian`. -/
def pushIntBigendian (i : UInt32) (negative : Bool) : Asn1Calls Unit := do
  if _h : i >>> 8 ≠ 0 then pushIntBigendian (i >>> 8) negative
  pushLowest i.toUInt8 negative
termination_by i.toNat
decreasing_by exact shiftRight_lt _h

/-- `asn1_write_implicit_Integer`. -/
def asn1WriteImplicitInteger (i : Int32) : Asn1Calls Unit :=
  if i = -1 then asn1Call (asn1WriteUint8 · 0xff) else pushIntBigendian i.toUInt32 (i < 0)

/-- `asn1_write_Integer`. -/
def asn1WriteInteger (i : Int32) : Asn1Calls Unit := asn1Pushed asn1Integer (asn1WriteImplicitInteger i)

/-- `asn1_write_enumerated`. -/
def asn1WriteEnumerated (v : UInt8) : Asn1Calls Unit := asn1Pushed asn1Enumerated (asn1Call (asn1WriteUint8 · v))

/-- `asn1_write_BOOLEAN`. -/
def asn1WriteBoolean (v : Bool) : Asn1Calls Unit :=
  asn1Pushed asn1Boolean (asn1Call (asn1WriteUint8 · (if v then 0xff else 0)))

/-- `asn1_write_OctetString`. -/
def asn1WriteOctetString (p : List UInt8) : Asn1Calls Unit := asn1Pushed asn1OctetString (asn1Call (asn1Write · p))

/-- `asn1_write_LDAPString`. -/
def asn1WriteLDAPString (s : Text) : Asn1Calls Unit := asn1Call (asn1Write · s)

/-- `asn1_write_ContextSimple`. -/
def asn1WriteContextSimple (num : UInt8) (blob : List UInt8) : Asn1Calls Unit :=
  asn1Pushed (asn1ContextSimple num) (asn1Call (asn1Write · blob))

/-! ## Reading the types -/

/-- `asn1_tag_remaining`. -/
def asn1Remaining : Asn1Calls Int := fun data =>
  match asn1TagRemaining data with
  | (remaining, data) => if data.hasError then none else some (remaining, data)

/-- `asn1_peek_tag`. -/
def asn1PeekTag (tag : UInt8) : Asn1Calls Bool := do
  if (← asn1Remaining) ≤ 0 then return false
  fun data =>
    match asn1Peek data 1 with
    | (some b, data) => some (b = [tag], data)
    | (none, data) => some (false, data)

/-- `asn1_peek_uint8`. -/
def asn1PeekUint8 : Asn1Calls UInt8 := asn1Get fun data =>
  match asn1Peek data 1 with
  | (some [b], data) => (some b, data)
  | (_, data) => (none, data)

/-- A `while` loop over what is read. Each round takes at least one byte off what is ahead. -/
def asn1WhileFor {α : Type} (cond : Asn1Calls Bool) (body : α → Asn1Calls α) : Nat → α → Asn1Calls α
  | 0, _ => failure
  | fuel + 1, a => do
    if ← cond then
      let a ← body a
      asn1WhileFor cond body fuel a
    else return a

/-- A `while` loop, of no more rounds than there are bytes. -/
def asn1While {α : Type} (cond : Asn1Calls Bool) (body : α → Asn1Calls α) (a : α) : Asn1Calls α := do
  let data ← get
  asn1WhileFor cond body (data.data.length + 1) a

/-- The condition `asn1_tag_remaining(data) > 0` of a loop. -/
def asn1MoreRemaining : Asn1Calls Bool := do return decide ((← asn1Remaining) > 0)

/-- The rest of the tag that is read, as a block of bytes. -/
def asn1ReadRemaining : Asn1Calls (List UInt8) := do
  let len ← asn1Remaining
  if len < 0 then failure
  asn1Get (asn1Read · len)

/-- `asn1_read_implicit_Integer`. -/
def asn1ReadImplicitInteger : Asn1Calls Int32 :=
  asn1While asn1MoreRemaining (fun i => do
    let b ← asn1Get asn1ReadUint8
    return (i <<< 8) + ⟨b.toUInt32⟩) 0

/-- `asn1_read_Integer`. -/
def asn1ReadInteger : Asn1Calls Int32 := asn1Started asn1Integer asn1ReadImplicitInteger

/-- `asn1_read_enumerated`. -/
def asn1ReadEnumerated : Asn1Calls Int32 := asn1Started asn1Enumerated asn1ReadImplicitInteger

/-- `asn1_read_BOOLEAN`. -/
def asn1ReadBoolean : Asn1Calls Bool := asn1Started asn1Boolean do return decide ((← asn1Get asn1ReadUint8) = 0xff)

/-- `asn1_read_LDAPString`. -/
def asn1ReadLDAPString : Asn1Calls Text := do return cstr (← asn1ReadRemaining)

/-- `asn1_read_OctetString`. -/
def asn1ReadOctetString : Asn1Calls (List UInt8) := asn1Started asn1OctetString asn1ReadRemaining

/-- `asn1_read_OctetString_talloc`. -/
def asn1ReadOctetStringTalloc : Asn1Calls Text := do return cstr (← asn1ReadOctetString)

/-- `asn1_read_ContextSimple`. -/
def asn1ReadContextSimple (num : UInt8) : Asn1Calls (List UInt8) := asn1Started (asn1ContextSimple num) asn1ReadRemaining

/-! ## What calls write -/

/-- A tag, the length and the content. -/
def tagged (tag : UInt8) (content : List UInt8) : List UInt8 := tag :: (lengthOctets content.length ++ content)

theorem length_lt_tagged (tag : UInt8) (content : List UInt8) : content.length < (tagged tag content).length := by
  rw [tagged, length_cons, length_append]
  omega

/-- Calls append some bytes, and they fail if the buffer cannot hold them. -/
structure Writes (w : Asn1Calls Unit) (bs : List UInt8) : Prop where
  fits : ∀ done ns, (done ++ bs).length < maxTallocSize → w (written done ns) = some ((), written (done ++ bs) ns)
  full : ∀ done ns, done.length < maxTallocSize → maxTallocSize ≤ (done ++ bs).length → w (written done ns) = none

/-- The same for calls that are the first ones behind a tag that was pushed. -/
structure Fills (w : Asn1Calls Unit) (content : List UInt8) : Prop where
  fits : ∀ done t ns, (done ++ 0xff :: content).length < maxTallocSize →
    w (written (done ++ [0xff]) (⟨done.length, t⟩ :: ns)) =
      some ((), written (done ++ 0xff :: content) (⟨done.length, t⟩ :: ns))
  full : ∀ done t ns, (done ++ [0xff]).length < maxTallocSize → maxTallocSize ≤ (done ++ 0xff :: content).length →
    w (written (done ++ [0xff]) (⟨done.length, t⟩ :: ns)) = none

theorem bind_some {α β : Type} {r : Asn1Calls α} {f : α → Asn1Calls β} {data data' : Asn1Data} {a : α}
    (h : r data = some (a, data')) : (r >>= f) data = f a data' := by
  show (r data).bind _ = _
  rw [h]
  rfl

theorem bind_none {α β : Type} {r : Asn1Calls α} {f : α → Asn1Calls β} {data : Asn1Data} (h : r data = none) :
    (r >>= f) data = none := by
  show (r data).bind _ = _
  rw [h]
  rfl

theorem Writes.nil : Writes (pure ()) [] where
  fits := fun done ns _ => by rw [append_nil]; rfl
  full := fun done ns h h' => by rw [append_nil] at h'; omega

variable {w : Asn1Calls Unit} {content : List UInt8}

theorem Writes.seq {v : Asn1Calls Unit} {as bs : List UInt8} (hv : Writes v as) (hw : Writes w bs) :
    Writes (do v; w) (as ++ bs) where
  fits := fun done ns h => by
    rw [← append_assoc] at h ⊢
    rw [bind_some (hv.fits _ _ (by rw [length_append] at h; omega))]
    exact hw.fits _ _ h
  full := fun done ns h h' => by
    rw [← append_assoc] at h'
    by_cases hmid : (done ++ as).length < maxTallocSize
    · rw [bind_some (hv.fits _ _ hmid)]
      exact hw.full _ _ hmid h'
    · exact bind_none (hv.full _ _ h (Nat.not_lt.1 hmid))

theorem Writes.bytes (p : List UInt8) : Writes (asn1Call (asn1Write · p)) p where
  fits := fun done ns h => by
    rw [asn1Call, asn1Write_written h]
  full := fun done ns h h' => by
    rw [asn1Call, asn1Write_full _ h']
    rintro rfl
    rw [append_nil] at h'
    omega

theorem Writes.fills (h : Writes w content) : Fills w content where
  fits := fun done t ns hfits => by
    have hsplit : done ++ 0xff :: content = done ++ [0xff] ++ content := by simp
    rw [hsplit] at hfits ⊢
    exact h.fits _ _ hfits
  full := fun done t ns hlt hfull => by
    have hsplit : done ++ 0xff :: content = done ++ [0xff] ++ content := by simp
    rw [hsplit] at hfull
    exact h.full _ _ hlt hfull

theorem Fills.pushed (h : Fills w content) (tag : UInt8) : Writes (asn1Pushed tag w) (tagged tag content) := by
  have hoctets := one_le_length_lengthOctets content.length
  have hopen : ∀ done : List UInt8, done ++ [tag] ++ [0xff] = done ++ [tag, 0xff] := fun done => by simp
  have hpushed : ∀ done : List UInt8, done ++ [tag] ++ 0xff :: content = done ++ [tag, 0xff] ++ content := fun done => by
    simp
  constructor
  · intro done ns hfits
    rw [tagged, length_append, length_cons, length_append] at hfits
    have hpush : asn1Call (asn1PushTag · tag) (written done ns) = some ((), written (done ++ [tag] ++ [0xff])
        (⟨(done ++ [tag]).length, 0⟩ :: ns)) := by
      rw [asn1Call, asn1PushTag_written (by simp only [length_append, length_cons, length_nil]; omega),
        hopen]
    have hpop := @asn1PopTag_pushed done content ns tag 0
      (by simp only [length_append, length_cons]; omega)
    have hcontent : (done ++ [tag] ++ 0xff :: content).length < maxTallocSize := by
      simp only [length_append, length_cons, length_nil]
      omega
    rw [asn1Pushed, bind_some hpush, bind_some (h.fits _ _ _ hcontent), hpushed, asn1Call, hpop]
    rfl
  · intro done ns hlt hfull
    rw [asn1Pushed]
    by_cases hpush : (done ++ [tag, 0xff]).length < maxTallocSize
    swap
    · refine bind_none ?_
      have hfail := @asn1PushTag_full done ns tag (Nat.not_lt.1 hpush)
      rw [asn1Call, show asn1PushTag (written done ns) tag = (false, _) from Prod.ext hfail rfl]
    have hpushed' : asn1Call (asn1PushTag · tag) (written done ns) = some ((), written (done ++ [tag] ++ [0xff])
        (⟨(done ++ [tag]).length, 0⟩ :: ns)) := by
      rw [asn1Call, asn1PushTag_written hpush, hopen]
    rw [bind_some hpushed']
    by_cases hcontent : (done ++ [tag] ++ 0xff :: content).length < maxTallocSize
    swap
    · exact bind_none (h.full _ _ _ (by rwa [hopen]) (Nat.not_lt.1 hcontent))
    rw [bind_some (h.fits _ _ _ hcontent), hpushed, asn1Call]
    rw [hpushed] at hcontent
    have hfail := @asn1PopTag_pushed_full done content ns tag 0 hcontent hfull
    rw [show asn1PopTag _ = (false, _) from Prod.ext hfail rfl]

theorem Writes.pushed (h : Writes w content) (tag : UInt8) :
    Writes (asn1Pushed tag w) (tagged tag content) := h.fills.pushed tag

theorem Writes.forM {α : Type} {f : α → Asn1Calls Unit} {enc : α → List UInt8} {xs : List α}
    (h : ∀ x ∈ xs, Writes (f x) (enc x)) : Writes (xs.forM f) (xs.flatMap enc) := by
  induction xs with
  | nil => exact .nil
  | cons x xs ih =>
    rw [forall_mem_cons] at h
    rw [flatMap_cons]
    exact .seq h.1 (ih h.2)

theorem Writes.octetString (p : List UInt8) : Writes (asn1WriteOctetString p) (tagged asn1OctetString p) :=
  (Writes.bytes p).pushed _

theorem Writes.enumerated (v : UInt8) : Writes (asn1WriteEnumerated v) (tagged asn1Enumerated [v]) :=
  (Writes.bytes [v]).pushed _

theorem Writes.boolean (v : Bool) : Writes (asn1WriteBoolean v) (tagged asn1Boolean [if v then 0xff else 0]) :=
  (Writes.bytes _).pushed _

theorem Writes.contextSimple (num : UInt8) (blob : List UInt8) :
    Writes (asn1WriteContextSimple num blob) (tagged (asn1ContextSimple num) blob) := (Writes.bytes blob).pushed _

/-! ## What calls read -/

/-- At the start of what is left of a tag, calls read some bytes and give back a result, or fail, if what they leave of the
tag is of some kind. -/
structure Reads {α : Type} (r : Asn1Calls α) (bs : List UInt8) (o : Option α) (leaves : List UInt8 → Prop) : Prop where
  read : ∀ done more after start n ns, leaves more → start + n = done.length + (bs ++ more).length →
    (bs ++ (more ++ after)).length < 2 ^ 31 →
      r (reading done (bs ++ (more ++ after)) (⟨start, n⟩ :: ns)) =
        o.map fun a => (a, reading (done ++ bs) (more ++ after) (⟨start, n⟩ :: ns))

/-- Nothing is asked of what is left. -/
def anyRest (_ : List UInt8) : Prop := True

/-- Calls read a tag to its end. -/
abbrev ReadsAll {α : Type} (r : Asn1Calls α) (content : List UInt8) (o : Option α) : Prop :=
  Reads r content o (· = [])

section

variable {α β : Type} {r : Asn1Calls α} {f : α → Asn1Calls β} {as bs : List UInt8} {o : Option α}
  {leaves leaves' : List UInt8 → Prop}

theorem Reads.mono (h : Reads r bs o leaves) (himp : ∀ more, leaves' more → leaves more) : Reads r bs o leaves' :=
  ⟨fun _ more _ _ _ _ hmore => h.read _ _ _ _ _ _ (himp more hmore)⟩

theorem Reads.any (h : Reads r bs o anyRest) : Reads r bs o leaves := h.mono fun _ _ => trivial

theorem Reads.pure (a : α) : Reads (Pure.pure a) [] (some a) anyRest := by
  refine ⟨fun done more after start n ns _ _ _ => ?_⟩
  rw [append_nil]
  rfl

theorem Reads.failure : Reads (failure : Asn1Calls α) bs none anyRest :=
  ⟨fun _ _ _ _ _ _ _ _ _ => rfl⟩

theorem Reads.bind {g : α → Option β} (h : Reads r as o leaves) (hf : ∀ a, o = some a → Reads (f a) bs (g a) leaves')
    (hleaves : ∀ more, leaves' more → leaves (bs ++ more)) : Reads (r >>= f) (as ++ bs) (o.bind g) leaves' := by
  refine ⟨fun done more after start n ns hmore hn hsize => ?_⟩
  simp only [append_assoc] at hn hsize ⊢
  have hfirst := h.read done _ after start n ns (hleaves _ hmore) hn (by rwa [append_assoc])
  rw [append_assoc] at hfirst
  cases o with
  | none => exact bind_none hfirst
  | some a =>
    rw [bind_some hfirst, (hf a rfl).read _ _ _ _ _ _ hmore]
    · rw [append_assoc]
      rfl
    · rw [length_append] at hn ⊢
      omega
    · rw [length_append] at hsize
      omega

theorem Reads.map {g : α → β} (h : Reads r bs o leaves) : Reads (do return g (← r)) bs (o.map g) leaves := by
  have hpure : ∀ a, o = some a → Reads (Pure.pure (g a) : Asn1Calls β) [] (some (g a)) leaves :=
    fun a _ => (Reads.pure (g a)).any
  have := Reads.bind h hpure fun _ h => h
  rw [append_nil] at this
  rwa [Option.map_eq_bind]

/-- Calls that succeed, and the calls behind them. -/
theorem Reads.step {a : α} {g : Option β} (h : Reads r as (some a) leaves) (hf : Reads (f a) bs g leaves')
    (hleaves : ∀ more, leaves' more → leaves (bs ++ more)) : Reads (r >>= f) (as ++ bs) g leaves' :=
  Reads.bind (g := fun _ => g) h (fun _ ha => Option.some.inj ha ▸ hf) hleaves

/-- A call that looks at what is ahead, and the calls behind it. -/
theorem Reads.look {a : α} {g : Option β} (h : Reads r [] (some a) leaves) (hf : Reads (f a) bs g leaves')
    (hleaves : ∀ more, leaves' more → leaves (bs ++ more)) : Reads (r >>= f) bs g leaves' := Reads.step h hf hleaves

/-- Calls read some bytes at the front of what is ahead, whatever is behind these and whatever tags are open. -/
structure ReadsAnywhere (r : Asn1Calls α) (bs : List UInt8) (o : Option α) : Prop where
  read : ∀ done rest ns, (bs ++ rest).length < 2 ^ 31 →
    r (reading done (bs ++ rest) ns) = o.map fun a => (a, reading (done ++ bs) rest ns)

theorem ReadsAnywhere.reads (h : ReadsAnywhere r bs o) : Reads r bs o anyRest :=
  ⟨fun _ _ _ _ _ _ _ _ hsize => h.read _ _ _ hsize⟩

theorem ReadsAnywhere.map {g : α → β} (h : ReadsAnywhere r bs o) : ReadsAnywhere (do return g (← r)) bs (o.map g) := by
  refine ⟨fun done rest ns hsize => ?_⟩
  have hread := h.read done rest ns hsize
  cases o with
  | none => exact bind_none hread
  | some a =>
    rw [bind_some hread]
    rfl

theorem asn1StartTag_tagged (tag : UInt8) (done bs rest : List UInt8) (ns : List Nesting)
    (hsize : (tagged tag bs ++ rest).length < 2 ^ 31) :
    asn1Call (asn1StartTag · tag) (reading done (tagged tag bs ++ rest) ns) =
      some ((), reading (done ++ tag :: lengthOctets bs.length) (bs ++ rest)
        (⟨(done ++ tag :: lengthOctets bs.length).length, bs.length⟩ :: ns)) := by
  rw [tagged, cons_append, length_cons, append_assoc, length_append, length_append] at hsize
  have hstart := @asn1StartTag_reading done (lengthOctets bs.length) (bs ++ rest) tag bs.length ns
    (@definiteLength_lengthOctets bs.length (by omega)) (length_lengthOctets_le (by omega))
    (by rw [length_append]; omega) (by rw [length_append]; omega)
  rw [asn1Call, tagged, cons_append, append_assoc, hstart]

theorem ReadsAnywhere.started (h : ReadsAll r bs o) (tag : UInt8) :
    ReadsAnywhere (asn1Started tag r) (tagged tag bs) o := by
  refine ⟨fun done rest ns hsize => ?_⟩
  have hcall := asn1StartTag_tagged tag done bs rest ns hsize
  rw [tagged, cons_append, length_cons, append_assoc, length_append, length_append] at hsize
  have hread := h.read (done ++ tag :: lengthOctets bs.length) [] rest (done ++ tag :: lengthOctets bs.length).length
    bs.length ns rfl (by rw [append_nil]) (by rw [nil_append, length_append]; omega)
  rw [nil_append] at hread
  rw [asn1Started, bind_some hcall]
  cases o with
  | none => exact bind_none hread
  | some a =>
    have hend := @asn1EndTag_reading (done ++ tag :: lengthOctets bs.length ++ bs) rest
      (done ++ tag :: lengthOctets bs.length).length bs.length ns (length_append ..).symm (by omega)
    have hcall' : asn1Call asn1EndTag (reading (done ++ tag :: lengthOctets bs.length ++ bs) rest
        (⟨(done ++ tag :: lengthOctets bs.length).length, bs.length⟩ :: ns)) =
          some ((), reading (done ++ tagged tag bs) rest ns) := by
      rw [asn1Call, hend, tagged, append_assoc, cons_append]
    rw [bind_some hread, bind_some hcall']
    rfl

theorem Reads.started (h : ReadsAll r bs o) (tag : UInt8) : Reads (asn1Started tag r) (tagged tag bs) o anyRest :=
  (ReadsAnywhere.started h tag).reads

theorem Reads.started_ne {tag b : UInt8} (h : b ≠ tag) : Reads (asn1Started tag r) (b :: bs) none anyRest := by
  refine ⟨fun done more after start n ns _ _ _ => ?_⟩
  have : asn1Call (asn1StartTag · tag) (reading done (b :: bs ++ (more ++ after)) (⟨start, n⟩ :: ns)) = none := by
    rw [asn1Call, cons_append, asn1StartTag, asn1ReadUint8_reading]
    dsimp only
    rw [if_pos h]
  exact bind_none this

theorem Reads.remaining (k : Nat) : Reads asn1Remaining [] (some (k : Int)) (fun more => more.length = k) := by
  refine ⟨fun done more after start n ns hmore hn hsize => ?_⟩
  rw [nil_append] at hn hsize ⊢
  rw [asn1Remaining, asn1TagRemaining_reading (hmore ▸ hn) (by rw [length_append]; omega) hsize, append_nil]
  rfl

theorem Reads.moreRemaining (b : Bool) : Reads asn1MoreRemaining [] (some b) (fun more => b = decide (more ≠ [])) := by
  refine ⟨fun done more after start n ns hmore hn hsize => ?_⟩
  have := (Reads.map (g := fun k => decide (k > 0)) (Reads.remaining more.length)).read done more after start n ns rfl hn
    hsize
  rw [asn1MoreRemaining, this, hmore, Option.map_some]
  cases more <;> simp

theorem Reads.readRemaining (bs : List UInt8) : ReadsAll asn1ReadRemaining bs (some bs) := by
  refine ⟨fun done more after start n ns hmore hn hsize => ?_⟩
  subst hmore
  have hlen := (Reads.remaining bs.length).read done bs after start n ns rfl (by rwa [append_nil] at hn) hsize
  rw [nil_append, append_nil] at hlen
  rw [nil_append, asn1ReadRemaining, bind_some hlen, if_neg (Int.not_lt.2 (Int.natCast_nonneg _))]
  show (asn1Get (asn1Read · bs.length)) _ = _
  rw [asn1Get, asn1Read_reading]
  rfl

theorem Reads.uint8 (b : UInt8) : Reads (asn1Get asn1ReadUint8) [b] (some b) anyRest := by
  refine ⟨fun done more after start n ns _ _ _ => ?_⟩
  rw [asn1Get, singleton_append, asn1ReadUint8_reading]
  rfl

theorem asn1Peek_reading (done : List UInt8) (b : UInt8) (rest : List UInt8) (ns : List Nesting) :
    asn1Peek (reading done (b :: rest) ns) 1 = (some [b], reading done (b :: rest) ns) := by
  rw [asn1Peek, if_neg (by decide), if_neg]
  · simp [reading]
  · simp only [reading, length_append, length_cons]
    omega

theorem Reads.peekTag (tag : UInt8) (b : Bool) :
    Reads (asn1PeekTag tag) [] (some b) (fun more => b = decide (more.head? = some tag)) := by
  refine ⟨fun done more after start n ns hmore hn hsize => ?_⟩
  have hlen := (Reads.remaining more.length).read done more after start n ns rfl hn hsize
  rw [asn1PeekTag, bind_some hlen, hmore]
  cases more with
  | nil => rfl
  | cons c more =>
    rw [if_neg (by simp)]
    simp only [append_nil, cons_append, List.head?_cons, Option.map_some, Option.some.injEq]
    show (match asn1Peek (reading done (c :: (more ++ after)) _) 1 with
      | (some b, data) => some (decide (b = [tag]), data)
      | (none, data) => some (false, data)) = _
    rw [asn1Peek_reading]
    simp

theorem asn1PeekUint8_reading (done : List UInt8) (b : UInt8) (rest : List UInt8) (ns : List Nesting) :
    asn1PeekUint8 (reading done (b :: rest) ns) = some (b, reading done (b :: rest) ns) := by
  rw [asn1PeekUint8, asn1Get, asn1Peek_reading]

theorem Reads.peekUint8 (b : UInt8) : Reads asn1PeekUint8 [] (some b) (fun more => more.head? = some b) := by
  refine ⟨fun done more after start n ns hmore hn hsize => ?_⟩
  obtain ⟨more, rfl⟩ : ∃ t, more = b :: t := by
    cases more with
    | nil => cases hmore
    | cons c t => exact ⟨t, by rw [Option.some.inj hmore]⟩
  rw [nil_append, cons_append, asn1PeekUint8_reading, append_nil]
  rfl

theorem asn1WhileFor_reads {β : Type} {cond : Asn1Calls Bool} {body : α → Asn1Calls α} {enc : β → List UInt8}
    {push : α → β → Option α} {xs : List β}
    (hmore : ∀ x ∈ xs, ∀ rest, Reads cond [] (some true) (· = enc x ++ rest)) (hend : Reads cond [] (some false) leaves)
    (hbody : ∀ x ∈ xs, ∀ a, Reads (body a) (enc x) (push a x) anyRest) {fuel : Nat} (hfuel : xs.length < fuel) (a : α) :
    Reads (asn1WhileFor cond body fuel a) (xs.flatMap enc) (xs.foldlM push a) leaves := by
  induction xs generalizing fuel a with
  | nil =>
    obtain ⟨fuel, rfl⟩ : ∃ k, fuel = k + 1 := ⟨fuel - 1, by rw [length_nil] at hfuel; omega⟩
    rw [asn1WhileFor]
    exact Reads.look hend (Reads.pure a).any fun _ h => h
  | cons x xs ih =>
    obtain ⟨fuel, rfl⟩ : ∃ k, fuel = k + 1 := ⟨fuel - 1, by rw [length_cons] at hfuel; omega⟩
    rw [forall_mem_cons] at hmore hbody
    rw [asn1WhileFor, flatMap_cons, foldlM_cons]
    refine ⟨fun done more after start n ns hleaves hn hsize => ?_⟩
    have hcond := (hmore.1 (xs.flatMap enc ++ more)).read done _ after start n ns rfl
      (by rw [nil_append, ← append_assoc]; exact hn)
      (by simpa only [nil_append, append_assoc] using hsize)
    simp only [nil_append, append_nil, append_assoc, Option.map_some] at hcond hn hsize ⊢
    rw [bind_some hcond, if_pos rfl]
    have hround := Reads.bind (hbody.1 a)
      (fun a' _ => @ih hmore.2 hbody.2 fuel (by rw [length_cons] at hfuel; omega) a') (fun _ _ => trivial)
    have := hround.read done more after start n ns hleaves (by rwa [append_assoc]) (by rwa [append_assoc])
    simp only [append_assoc] at this
    exact this

/-- A loop that reads one thing after the other. -/
theorem Reads.whileLoop {β : Type} {cond : Asn1Calls Bool} {body : α → Asn1Calls α} {enc : β → List UInt8}
    {push : α → β → Option α} {xs : List β} (hne : ∀ x ∈ xs, enc x ≠ [])
    (hmore : ∀ x ∈ xs, ∀ rest, Reads cond [] (some true) (· = enc x ++ rest)) (hend : Reads cond [] (some false) leaves)
    (hbody : ∀ x ∈ xs, ∀ a, Reads (body a) (enc x) (push a x) anyRest) (a : α) :
    Reads (asn1While cond body a) (xs.flatMap enc) (xs.foldlM push a) leaves := by
  refine ⟨fun done more after start n ns hleaves hn hsize => ?_⟩
  have hlen : ∀ ys : List β, (∀ x ∈ ys, enc x ≠ []) → ys.length ≤ (ys.flatMap enc).length := by
    intro ys
    induction ys with
    | nil => exact fun _ => Nat.le_refl _
    | cons y ys ih =>
      intro h
      rw [forall_mem_cons] at h
      have := length_pos_iff.2 h.1
      have := ih h.2
      rw [flatMap_cons, length_append, length_cons]
      omega
  refine (asn1WhileFor_reads hmore hend hbody ?_ a).read done more after start n ns hleaves hn hsize
  have := hlen xs hne
  simp only [reading, length_append]
  omega

end

/-! ## The types that are read -/

theorem Reads.octetString (p : List UInt8) : Reads asn1ReadOctetString (tagged asn1OctetString p) (some p) anyRest :=
  (Reads.readRemaining p).started _

theorem Reads.ldapString (p : List UInt8) : ReadsAll asn1ReadLDAPString p (some (cstr p)) := (Reads.readRemaining p).map

theorem Reads.octetStringTalloc (p : List UInt8) :
    Reads asn1ReadOctetStringTalloc (tagged asn1OctetString p) (some (cstr p)) anyRest := (Reads.octetString p).map

theorem Reads.contextSimple (num : UInt8) (p : List UInt8) :
    Reads (asn1ReadContextSimple num) (tagged (asn1ContextSimple num) p) (some p) anyRest :=
  (Reads.readRemaining p).started _

theorem Reads.boolean (b : UInt8) : Reads asn1ReadBoolean (tagged asn1Boolean [b]) (some (decide (b = 0xff))) anyRest :=
  Reads.started (Reads.map (Reads.uint8 b)).any _

/-- The number that bytes are read as. -/
def readNumber (bs : List UInt8) : Int32 := bs.foldl (fun i b => (i <<< 8) + ⟨b.toUInt32⟩) 0

theorem Reads.implicitInteger (bs : List UInt8) : ReadsAll asn1ReadImplicitInteger bs (some (readNumber bs)) := by
  have hend : Reads asn1MoreRemaining [] (some false) (· = []) :=
    (Reads.moreRemaining false).mono fun more h => by rw [h]; simp
  have hmore : ∀ b ∈ bs, ∀ rest, Reads asn1MoreRemaining [] (some true) (· = [b] ++ rest) := fun b _ rest =>
    (Reads.moreRemaining true).mono fun more h => by rw [h]; simp
  have hbody : ∀ b ∈ bs, ∀ i : Int32, Reads (do return (i <<< 8) + ⟨(← asn1Get asn1ReadUint8).toUInt32⟩) [b]
      (some ((i <<< 8) + (⟨b.toUInt32⟩ : Int32))) anyRest := fun b _ i => Reads.map (Reads.uint8 b)
  have hloop := Reads.whileLoop (fun b _ => cons_ne_nil b []) hmore hend hbody 0
  have hbytes : bs.flatMap (fun b => [b]) = bs := flatMap_singleton' bs
  have hfold : bs.foldlM (fun (i : Int32) b => some ((i <<< 8) + ⟨b.toUInt32⟩)) 0 = some (readNumber bs) :=
    foldlM_pure ..
  rwa [hbytes, hfold] at hloop

theorem Reads.enumerated (bs : List UInt8) :
    Reads asn1ReadEnumerated (tagged asn1Enumerated bs) (some (readNumber bs)) anyRest :=
  (Reads.implicitInteger bs).started _

theorem Reads.integer (bs : List UInt8) : Reads asn1ReadInteger (tagged asn1Integer bs) (some (readNumber bs)) anyRest :=
  (Reads.implicitInteger bs).started _

/-! ## Integers -/

/-- What is written for the highest byte. -/
def firstByte (negative : Bool) (b : UInt8) : List UInt8 :=
  if negative then if b = 0xff then [] else if b &&& 0x80 = 0 then [0xff, b] else [b]
  else if b &&& 0x80 ≠ 0 then [0, b] else [b]

/-- The bytes of `push_int_bigendian`. -/
def intBytes (i : UInt32) (negative : Bool) : List UInt8 :=
  let upper := if _h : i >>> 8 ≠ 0 then intBytes (i >>> 8) negative else []
  upper ++ if upper = [] then firstByte negative i.toUInt8 else [i.toUInt8]
termination_by i.toNat
decreasing_by exact shiftRight_lt _h

theorem Fills.pushLowest (b : UInt8) (negative : Bool) : Fills (pushLowest b negative) (firstByte negative b) := by
  have hstart : ∀ done t ns, Libcli.pushLowest b negative (written (done ++ [0xff]) (⟨done.length, t⟩ :: ns)) =
      (firstByte negative b).forM (fun c => asn1Call (asn1WriteUint8 · c))
        (written (done ++ [0xff]) (⟨done.length, t⟩ :: ns)) := by
    intro done t ns
    have hget : (get : Asn1Calls Asn1Data) (written (done ++ [0xff]) (⟨done.length, t⟩ :: ns)) =
        some (written (done ++ [0xff]) (⟨done.length, t⟩ :: ns), written (done ++ [0xff]) (⟨done.length, t⟩ :: ns)) := rfl
    rw [Libcli.pushLowest, bind_some hget, if_pos (by simp [written]), firstByte]
    cases negative
    · rw [if_neg Bool.false_ne_true, if_neg Bool.false_ne_true]
      split <;> simp
    · rw [if_pos rfl, if_pos rfl]
      split
      · rfl
      · split <;> simp
  have hbytes : Fills ((firstByte negative b).forM fun c => asn1Call (asn1WriteUint8 · c)) (firstByte negative b) := by
    have := @Writes.forM _ _ _ (firstByte negative b) fun c _ => Writes.bytes [c]
    rw [flatMap_singleton'] at this
    exact this.fills
  constructor
  · intro done t ns h
    rw [hstart]
    exact hbytes.fits _ _ _ h
  · intro done t ns h h'
    rw [hstart]
    exact hbytes.full _ _ _ h h'

variable {upper : List UInt8} {i : UInt32}

theorem pushLowest_next {b : UInt8} {negative : Bool} {done : List UInt8} {t : Nat} {ns : List Nesting}
    (h : upper ≠ []) : pushLowest b negative (written (done ++ 0xff :: upper) (⟨done.length, t⟩ :: ns)) =
      asn1Call (asn1Write · [b]) (written (done ++ 0xff :: upper) (⟨done.length, t⟩ :: ns)) := by
  have hget : (get : Asn1Calls Asn1Data) (written (done ++ 0xff :: upper) (⟨done.length, t⟩ :: ns)) =
      some (written (done ++ 0xff :: upper) (⟨done.length, t⟩ :: ns),
        written (done ++ 0xff :: upper) (⟨done.length, t⟩ :: ns)) := rfl
  have hpos := length_pos_iff.2 h
  rw [pushLowest, bind_some hget, if_neg]
  · rfl
  · simp only [written, List.head?_cons, Option.map_some, Option.some.injEq, length_append, length_cons]
    omega

theorem Fills.lowest {w : Asn1Calls Unit} (h : Fills w upper) (b : UInt8) (negative : Bool) :
    Fills (do w; Libcli.pushLowest b negative) (upper ++ if upper = [] then firstByte negative b else [b]) := by
  by_cases hupper : upper = []
  · subst hupper
    have hnothing : ∀ done t ns, (done ++ [0xff]).length < maxTallocSize →
        w (written (done ++ [0xff]) (⟨done.length, t⟩ :: ns)) =
          some ((), written (done ++ [0xff]) (⟨done.length, t⟩ :: ns)) := fun done t ns => h.fits done t ns
    rw [if_pos rfl, nil_append]
    constructor
    · intro done t ns hfits
      rw [bind_some (hnothing done t ns (by simp at hfits ⊢; omega))]
      exact (Fills.pushLowest b negative).fits _ _ _ hfits
    · intro done t ns hlt hfull
      rw [bind_some (hnothing done t ns hlt)]
      exact (Fills.pushLowest b negative).full _ _ _ hlt hfull
  · rw [if_neg hupper]
    have hsplit : ∀ done : List UInt8, done ++ 0xff :: (upper ++ [b]) = done ++ 0xff :: upper ++ [b] := fun done => by simp
    constructor
    · intro done t ns hfits
      rw [hsplit] at hfits ⊢
      rw [bind_some (h.fits _ _ _ (by rw [length_append] at hfits; omega)), pushLowest_next hupper]
      exact (Writes.bytes [b]).fits _ _ hfits
    · intro done t ns hlt hfull
      rw [hsplit] at hfull
      by_cases hmid : (done ++ 0xff :: upper).length < maxTallocSize
      · rw [bind_some (h.fits _ _ _ hmid), pushLowest_next hupper]
        exact (Writes.bytes [b]).full _ _ hmid hfull
      · exact bind_none (h.full _ _ _ hlt (Nat.not_lt.1 hmid))

theorem Fills.pushIntBigendian (i : UInt32) (negative : Bool) :
    Fills (pushIntBigendian i negative) (intBytes i negative) := by
  rw [Libcli.pushIntBigendian, intBytes]
  dsimp only
  split
  · exact (Fills.pushIntBigendian (i >>> 8) negative).lowest _ _
  · exact Fills.pushLowest _ _
termination_by i.toNat
decreasing_by exact shiftRight_lt ‹_›

/-- The content of an integer. -/
def integerBytes (i : Int32) : List UInt8 := if i = -1 then [0xff] else intBytes i.toUInt32 (i < 0)

theorem Fills.implicitInteger (i : Int32) : Fills (asn1WriteImplicitInteger i) (integerBytes i) := by
  rw [asn1WriteImplicitInteger, integerBytes]
  split
  · exact (Writes.bytes [0xff]).fills
  · exact .pushIntBigendian _ _

theorem Writes.integer (i : Int32) : Writes (asn1WriteInteger i) (tagged asn1Integer (integerBytes i)) :=
  (Fills.implicitInteger i).pushed _

theorem toNat_shiftLeft_add (i : Int32) (b : UInt8) :
    ((i <<< 8) + (⟨b.toUInt32⟩ : Int32)).toUInt32.toNat = (i.toUInt32.toNat * 256 + b.toNat) % 2 ^ 32 := by
  have h : ((i <<< 8) + (⟨b.toUInt32⟩ : Int32)).toUInt32 = (i.toUInt32 <<< 8) + b.toUInt32 := rfl
  rw [h, UInt32.toNat_add, UInt32.toNat_shiftLeft]
  simp [Nat.shiftLeft_eq]

theorem readNumber_toNat (bs : List UInt8) : (readNumber bs).toUInt32.toNat = beNumber bs % 2 ^ 32 := by
  induction bs using List.reverseRecOn with
  | nil => rfl
  | append_singleton bs b ih =>
    rw [readNumber, foldl_append, foldl_cons, foldl_nil, ← readNumber, toNat_shiftLeft_add, ih,
      beNumber_append, foldl_cons, foldl_nil]
    omega

theorem toNat_split (i : UInt32) : i.toNat = (i >>> 8).toNat * 256 + i.toUInt8.toNat := by
  rw [UInt32.toNat_shiftRight, UInt32.toNat_toUInt8, Nat.shiftRight_eq_div_pow]
  show i.toNat = i.toNat / 2 ^ 8 * 256 + i.toNat % 2 ^ 8
  omega

theorem lt_zero_iff (i : Int32) : i < 0 ↔ 2 ^ 31 ≤ i.toUInt32.toNat := by
  have hlt := i.toUInt32.toNat_lt
  rw [Int32.lt_iff_toInt_lt, ← Int32.toInt_toBitVec, BitVec.toInt_eq_toNat_cond]
  show (if 2 * i.toUInt32.toNat < 2 ^ 32 then (i.toUInt32.toNat : Int) else i.toUInt32.toNat - ((2 ^ 32 : Nat) : Int)) < 0 ↔ _
  split <;> omega

/-- The bytes of a number, from those of the bytes above its lowest one. -/
def nextBytes (upper : List UInt8) (negative : Bool) (b : UInt8) : List UInt8 :=
  upper ++ if upper = [] then firstByte negative b else [b]

theorem intBytes_next (h : i >>> 8 ≠ 0) (negative : Bool) :
    intBytes i negative = nextBytes (intBytes (i >>> 8) negative) negative i.toUInt8 := by
  rw [intBytes, dif_pos h]
  rfl

theorem intBytes_last (h : i >>> 8 = 0) (negative : Bool) : intBytes i negative = firstByte negative i.toUInt8 := by
  rw [intBytes, dif_neg (not_not.2 h)]
  rfl

theorem beNumber_nextBytes (h : upper ≠ []) (negative : Bool) (b : UInt8) :
    beNumber (nextBytes upper negative b) = beNumber upper * 256 + b.toNat := by
  rw [nextBytes, if_neg h, beNumber_append, foldl_cons, foldl_nil]

theorem length_firstByte (negative : Bool) (b : UInt8) : (firstByte negative b).length ≤ 2 := by
  unfold firstByte
  split_ifs <;> simp

theorem length_nextBytes (upper : List UInt8) (negative : Bool) (b : UInt8) :
    (nextBytes upper negative b).length ≤ max 2 (upper.length + 1) := by
  rw [nextBytes]
  split
  · next h =>
    rw [h, nil_append]
    exact Nat.le_trans (length_firstByte _ _) (Nat.le_max_left _ _)
  · rw [length_append, length_singleton]
    exact Nat.le_max_right _ _

/-- A number that is not negative is read as it is. -/
theorem beNumber_intBytes (i : UInt32) : intBytes i false ≠ [] ∧ beNumber (intBytes i false) = i.toNat := by
  have hfirst : ∀ b : UInt8, firstByte false b ≠ [] ∧ beNumber (firstByte false b) = b.toNat :=
    forall_byte (by decide +kernel)
  by_cases h : i >>> 8 = 0
  · have hsplit := toNat_split i
    rw [h] at hsplit
    rw [intBytes_last h]
    exact ⟨(hfirst _).1, by rw [(hfirst _).2, hsplit]; simp⟩
  · obtain ⟨hne, hval⟩ := beNumber_intBytes (i >>> 8)
    rw [intBytes_next h]
    refine ⟨?_, by rw [beNumber_nextBytes hne, hval, ← toNat_split]⟩
    rw [nextBytes, if_neg hne]
    exact append_ne_nil_of_left_ne_nil hne _
termination_by i.toNat
decreasing_by exact shiftRight_lt h

/-- A byte that is at least `0x80` is the highest one of a negative number, or left out. -/
theorem firstByte_negative : ∀ b : UInt8, (b = 0xff → firstByte true b = []) ∧
    (b ≠ 0xff → 0x80 ≤ b.toNat → firstByte true b = [b]) ∧ (b.toNat < 0x80 → firstByte true b = [0xff, b]) ∧
      (0x80 ≤ b.toNat → (firstByte true b).length ≤ 1) := forall_byte (by decide +kernel)

/-- Of a negative number the leading bytes that are left out are missed: the sign is not extended when it is read. -/
theorem beNumber_intBytes_negative (h : 2 ^ 31 ≤ i.toNat) :
    beNumber (intBytes i true) % 2 ^ 32 = i.toNat ↔ i.toNat < 0xFF800000 := by
  have hlt := i.toNat_lt
  have hzero : ∀ {j : UInt32}, j.toNat ≠ 0 → j ≠ 0 := fun hj h0 => hj (by rw [h0]; rfl)
  have h0 := toNat_split i
  have h1 := toNat_split (i >>> 8)
  have h2 := toNat_split (i >>> 8 >>> 8)
  have h3 := toNat_split (i >>> 8 >>> 8 >>> 8)
  have hb0 := i.toUInt8.toNat_lt
  have hb1 := (i >>> 8).toUInt8.toNat_lt
  have hb2 := (i >>> 8 >>> 8).toUInt8.toNat_lt
  have hb3 := (i >>> 8 >>> 8 >>> 8).toUInt8.toNat_lt
  -- the four bytes, of which the highest one is at least 0x80
  have htop : (i >>> 8 >>> 8 >>> 8 >>> 8).toNat = 0 := by omega
  have hlast : i >>> 8 >>> 8 >>> 8 >>> 8 = 0 := UInt32.toNat_inj.1 htop
  rw [intBytes_next (hzero (by omega)), intBytes_next (hzero (by omega)), intBytes_next (hzero (by omega)),
    intBytes_last hlast]
  rw [htop] at h3
  generalize (i >>> 8 >>> 8 >>> 8).toUInt8 = b3 at h3 hb3 ⊢
  generalize (i >>> 8 >>> 8).toUInt8 = b2 at h2 hb2 ⊢
  generalize (i >>> 8).toUInt8 = b1 at h1 hb1 ⊢
  generalize i.toUInt8 = b0 at h0 hb0 ⊢
  obtain ⟨hff, hhigh, -, -⟩ := firstByte_negative b3
  obtain ⟨-, -, hlow, hshort⟩ := firstByte_negative b2
  have hnext : ∀ (upper : List UInt8) (b : UInt8), upper ≠ [] → nextBytes upper true b = upper ++ [b] :=
    fun upper b hne => by rw [nextBytes, if_neg hne]
  by_cases h3ff : b3 = 0xff
  · have hff3 : b3.toNat = 255 := by rw [h3ff]; rfl
    rw [hff h3ff]
    have h2first : nextBytes [] true b2 = firstByte true b2 := by rw [nextBytes, if_pos rfl, nil_append]
    rw [h2first]
    by_cases h2low : b2.toNat < 0x80
    · rw [hlow h2low, hnext _ b1 (cons_ne_nil _ _), hnext _ b0 (by simp)]
      have hval : beNumber ([0xff, b2] ++ [b1] ++ [b0]) = ((255 * 256 + b2.toNat) * 256 + b1.toNat) * 256 + b0.toNat := by
        simp [beNumber]
      rw [hval]
      omega
    · -- at most three bytes are left
      have hlen : (nextBytes (nextBytes (firstByte true b2) true b1) true b0).length ≤ 3 := by
        have l2 := hshort (by omega)
        have l1 := length_nextBytes (firstByte true b2) true b1
        have l0 := length_nextBytes (nextBytes (firstByte true b2) true b1) true b0
        omega
      have hsmall := beNumber_lt (nextBytes (nextBytes (firstByte true b2) true b1) true b0)
      have hpow : 256 ^ (nextBytes (nextBytes (firstByte true b2) true b1) true b0).length ≤ 256 ^ 3 :=
        Nat.pow_le_pow_right (by decide) hlen
      omega
  · have hne3 : b3.toNat ≠ 255 := fun h => h3ff (UInt8.toNat_inj.1 h)
    rw [hhigh h3ff (by omega), hnext _ b2 (cons_ne_nil _ _), hnext _ b1 (by simp), hnext _ b0 (by simp)]
    have hval : beNumber ([b3] ++ [b2] ++ [b1] ++ [b0]) =
        ((b3.toNat * 256 + b2.toNat) * 256 + b1.toNat) * 256 + b0.toNat := by
      simp [beNumber]
    rw [hval]
    omega

/-- An integer comes back as it was written if it is not negative, or has fewer than nine leading ones. -/
theorem readNumber_integerBytes (i : Int32) : readNumber (integerBytes i) = i ↔ i.toUInt32.toNat < 0xFF800000 := by
  have hlt := i.toUInt32.toNat_lt
  have hiff : readNumber (integerBytes i) = i ↔ beNumber (integerBytes i) % 2 ^ 32 = i.toUInt32.toNat := by
    rw [← readNumber_toNat, UInt32.toNat_inj]
    exact ⟨fun h => by rw [h], congrArg Int32.ofUInt32⟩
  rw [hiff, integerBytes]
  split
  · next h =>
    rw [h]
    decide
  · by_cases hneg : i < 0
    · rw [decide_eq_true hneg]
      exact beNumber_intBytes_negative ((lt_zero_iff i).1 hneg)
    · rw [decide_eq_false hneg, (beNumber_intBytes _).2, Nat.mod_eq_of_lt hlt]
      have := mt (lt_zero_iff i).2 hneg
      exact ⟨fun _ => by omega, fun _ => rfl⟩

end Samba.Libcli
