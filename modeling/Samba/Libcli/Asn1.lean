/-
Nested ASN.1 data (libcli/util/asn1.c): tags are pushed and popped around what is written, and started and ended around what
is read. Offsets have 64 bits and do not overflow; of memory allocation the limit that talloc has for one block is kept.
-/
import Samba.Lib.Ber
import Samba.Ndr.Basic

namespace Samba.Libcli

open Ber CString List
open Samba.Ndr (maxTallocSize)

/-- `struct nesting`. -/
structure Nesting where
  start : Nat
  taglen : Nat
  deriving DecidableEq, Repr

/-- `struct asn1_data`, the innermost tag first. -/
structure Asn1Data where
  data : List UInt8
  ofs : Nat
  nesting : List Nesting
  hasError : Bool
  deriving DecidableEq, Repr

/-- `asn1_init`. -/
def asn1Init : Asn1Data := ⟨[], 0, [], false⟩

/-- The bytes with others written over them from an offset on, `memcpy` and `memmove` in a buffer. -/
def overwrite (data : List UInt8) (ofs : Nat) (p : List UInt8) : List UInt8 :=
  data.take ofs ++ p ++ data.drop (ofs + p.length)

/-! ## Writing -/

/-- `asn1_write`, of fewer than `2^31` bytes. A buffer that cannot grow is freed: no call follows one that failed. -/
def asn1Write (data : Asn1Data) (p : List UInt8) : Bool × Asn1Data :=
  if data.hasError then (false, data)
  else if data.data.length < data.ofs + p.length ∧ maxTallocSize ≤ data.ofs + p.length then
    (false, { data with hasError := true })
  else (true, { data with data := overwrite data.data data.ofs p, ofs := data.ofs + p.length })

/-- `asn1_write_uint8`. -/
def asn1WriteUint8 (data : Asn1Data) (v : UInt8) : Bool × Asn1Data := asn1Write data [v]

/-- `asn1_push_tag`: the length takes one byte for now. -/
def asn1PushTag (data : Asn1Data) (tag : UInt8) : Bool × Asn1Data :=
  let data := (asn1WriteUint8 data tag).2
  let data := { data with nesting := ⟨data.ofs, 0⟩ :: data.nesting }
  asn1WriteUint8 data 0xff

/-- The room for more bytes of a length, made by zeros at the end. -/
def asn1WriteZeros (data : Asn1Data) : Nat → Bool × Asn1Data
  | 0 => (true, data)
  | k + 1 =>
    match asn1WriteUint8 data 0 with
    | (true, data) => asn1WriteZeros data k
    | (false, data) => (false, data)

/-- The length that needs more than its one byte: what follows it moves behind the bytes that are added. -/
def asn1Widen (data : Asn1Data) (start len : Nat) (first : UInt8) (more : List UInt8) : Bool × Asn1Data :=
  match asn1WriteZeros { data with data := data.data.set start first } more.length with
  | (false, data) => (false, data)
  | (true, data) =>
    let moved := overwrite data.data (start + more.length + 1) ((data.data.drop (start + 1)).take len)
    (true, { data with data := overwrite moved (start + 1) more })

/-- `asn1_pop_tag`. -/
def asn1PopTag (data : Asn1Data) : Bool × Asn1Data :=
  match data.nesting with
  | [] => (false, { data with hasError := true })
  | nesting :: next =>
    let start := nesting.start
    let len := data.ofs - (start + 1)
    let (ok, data) :=
      if len > 0xFFFFFF then
        asn1Widen data start len 0x84
          [UInt8.ofNat (len >>> 24), UInt8.ofNat (len >>> 16), UInt8.ofNat (len >>> 8), UInt8.ofNat len]
      else if len > 0xFFFF then
        asn1Widen data start len 0x83 [UInt8.ofNat (len >>> 16), UInt8.ofNat (len >>> 8), UInt8.ofNat len]
      else if len > 255 then asn1Widen data start len 0x82 [UInt8.ofNat (len >>> 8), UInt8.ofNat len]
      else if len > 127 then asn1Widen data start len 0x81 [UInt8.ofNat len]
      else (true, { data with data := data.data.set start (UInt8.ofNat len) })
    if ok then (true, { data with nesting := next }) else (false, data)

/-! ## Reading -/

/-- `asn1_load`. -/
def asn1Load (blob : List UInt8) : Bool × Asn1Data :=
  if maxTallocSize ≤ blob.length then (false, ⟨[], 0, [], true⟩) else (true, ⟨blob, 0, [], false⟩)

/-- `asn1_peek`. -/
def asn1Peek (data : Asn1Data) (len : Int) : Option (List UInt8) × Asn1Data :=
  if len < 0 then (none, data)
  -- a buffer that has too little counts as consumed
  else if data.ofs + len > data.data.length then (none, { data with ofs := data.data.length })
  else (some ((data.data.drop data.ofs).take len.toNat), data)

/-- `asn1_read`. -/
def asn1Read (data : Asn1Data) (len : Int) : Option (List UInt8) × Asn1Data :=
  match asn1Peek data len with
  | (none, data) => (none, { data with hasError := true })
  | (some p, data) => (some p, { data with ofs := data.ofs + len.toNat })

/-- `asn1_read_uint8`. -/
def asn1ReadUint8 (data : Asn1Data) : Option UInt8 × Asn1Data :=
  match asn1Read data 1 with
  | (some [b], data) => (some b, data)
  | (_, data) => (none, data)

/-- `asn1_tag_remaining`: an `int`, which is compared as a `size_t`. -/
def asn1TagRemaining (data : Asn1Data) : Int × Asn1Data :=
  if data.hasError then (-1, data)
  else
    match data.nesting with
    | [] => (-1, { data with hasError := true })
    | nesting :: _ =>
      let remaining := ((nesting.taglen : Int) - (data.ofs - nesting.start)).bmod (2 ^ 32)
      if remaining % 2 ^ 64 > ((data.data.length : Int) - data.ofs) % 2 ^ 64 then
        (-1, { data with hasError := true })
      else (remaining, data)

/-- The loop of `asn1_start_tag` over the bytes of a length behind the first one. -/
def asn1ReadTaglen (data : Asn1Data) (taglen : Nat) : Nat → Option Nat × Asn1Data
  | 0 => (some taglen, data)
  | n + 1 =>
    match asn1ReadUint8 data with
    | (none, data) => (none, data)
    | (some b, data) => asn1ReadTaglen data ((taglen <<< 8 ||| b.toNat) % 2 ^ 64) n

/-- The length that `asn1_start_tag` reads, whose first byte is `b`. -/
def asn1ReadLength (data : Asn1Data) (b : UInt8) : Option Nat × Asn1Data :=
  if b &&& 0x80 ≠ 0 then
    match asn1ReadUint8 data with
    | (none, data) => (none, data)
    | (some c, data) => asn1ReadTaglen data c.toNat ((b &&& 0x7f).toNat - 1)
  else (some b.toNat, data)

/-- `asn1_start_tag`. -/
def asn1StartTag (data : Asn1Data) (tag : UInt8) : Bool × Asn1Data :=
  match asn1ReadUint8 data with
  | (none, data) => (false, data)
  | (some b, data) =>
    if b ≠ tag then (false, { data with hasError := true })
    else
      match asn1ReadUint8 data with
      | (none, data) => (false, data)
      | (some b, data) =>
        match asn1ReadLength data b with
        | (none, data) => (false, data)
        | (some taglen, data) =>
          let data := { data with nesting := ⟨data.ofs, taglen⟩ :: data.nesting }
          match asn1TagRemaining data with
          | (remaining, data) => if remaining = -1 then (false, data) else (!data.hasError, data)

/-- `asn1_end_tag`. -/
def asn1EndTag (data : Asn1Data) : Bool × Asn1Data :=
  match asn1TagRemaining data with
  | (remaining, data) =>
    if remaining ≠ 0 then (false, { data with hasError := true })
    else
      match data.nesting with
      | [] => (false, { data with hasError := true })
      | _ :: next => (true, { data with nesting := next })

/-! ## Forests of tags -/

/-- Tags one after the other, each around a content or around a forest. -/
inductive Forest (α : Type) where
  | nil
  | raw (tag : UInt8) (content : α) (next : Forest α)
  | nested (tag : UInt8) (children next : Forest α)
  deriving DecidableEq, Repr

namespace Forest

/-- What a reader knows of a forest: its tags, and how long its contents are. -/
def shape : Forest (List UInt8) → Forest Nat
  | nil => nil
  | raw tag content next => raw tag content.length next.shape
  | nested tag children next => nested tag children.shape next.shape

/-- The forest on the wire. -/
def encoding : Forest (List UInt8) → List UInt8
  | nil => []
  | raw tag content next => tag :: (lengthOctets content.length ++ (content ++ next.encoding))
  | nested tag children next => tag :: (lengthOctets children.encoding.length ++ (children.encoding ++ next.encoding))

/-- Bytes in which a forest is written with every length in the shortest form. -/
inductive Encodes : Forest (List UInt8) → List UInt8 → Prop
  | nil : Encodes nil []
  | raw {tag content next os rest} :
    Shortest os content.length → Encodes next rest → Encodes (raw tag content next) (tag :: (os ++ (content ++ rest)))
  | nested {tag children next os inner rest} :
    Encodes children inner → Shortest os inner.length → Encodes next rest →
      Encodes (nested tag children next) (tag :: (os ++ (inner ++ rest)))

/-- Every length of the forest is below a bound. -/
def LengthsBelow (bound : Nat) : Forest (List UInt8) → Prop
  | nil => True
  | raw _ content next => content.length < bound ∧ next.LengthsBelow bound
  | nested _ children next =>
    children.encoding.length < bound ∧ children.LengthsBelow bound ∧ next.LengthsBelow bound

/-- The calls that write a forest, all of which succeed. -/
def write : Forest (List UInt8) → Asn1Data → Option Asn1Data
  | nil, data => some data
  | raw tag content next, data =>
    match asn1PushTag data tag with
    | (false, _) => none
    | (true, data) =>
      match asn1Write data content with
      | (false, _) => none
      | (true, data) =>
        match asn1PopTag data with
        | (false, _) => none
        | (true, data) => next.write data
  | nested tag children next, data =>
    match asn1PushTag data tag with
    | (false, _) => none
    | (true, data) =>
      match children.write data with
      | none => none
      | some data =>
        match asn1PopTag data with
        | (false, _) => none
        | (true, data) => next.write data

/-- The calls that read a forest of a shape, all of which succeed. -/
def read : Forest Nat → Asn1Data → Option (Forest (List UInt8) × Asn1Data)
  | nil, data => some (nil, data)
  | raw tag len next, data =>
    match asn1StartTag data tag with
    | (false, _) => none
    | (true, data) =>
      match asn1Read data len with
      | (none, _) => none
      | (some content, data) =>
        match asn1EndTag data with
        | (false, _) => none
        | (true, data) => (next.read data).map fun (f, data) => (raw tag content f, data)
  | nested tag children next, data =>
    match asn1StartTag data tag with
    | (false, _) => none
    | (true, data) =>
      match children.read data with
      | none => none
      | some (inner, data) =>
        match asn1EndTag data with
        | (false, _) => none
        | (true, data) => (next.read data).map fun (f, data) => (nested tag inner f, data)

/-- What is written has the shortest lengths, and it is read back as it was to its last byte. -/
def RoundTrips (f : Forest (List UInt8)) : Prop :=
  ∃ written loaded done, f.write asn1Init = some written ∧ f.Encodes written.data ∧
    asn1Load written.data = (true, loaded) ∧ f.shape.read loaded = some (f, done) ∧
    done = { loaded with ofs := written.data.length }

end Forest

/-! ## Writing at the end of a buffer -/

/-- A writer that has written some bytes and has some tags open. -/
def written (bs : List UInt8) (ns : List Nesting) : Asn1Data := ⟨bs, bs.length, ns, false⟩

variable {bs content p : List UInt8} {ns : List Nesting} {f : Forest (List UInt8)}

theorem overwrite_append {a b c : List UInt8} (h : p.length = b.length) :
    overwrite (a ++ (b ++ c)) a.length p = a ++ (p ++ c) := by
  have htake : (a ++ (b ++ c)).take a.length = a := take_left ..
  have hdrop : (a ++ (b ++ c)).drop (a.length + p.length) = c := by
    rw [← append_assoc]
    exact drop_left' (by rw [length_append, h])
  rw [overwrite, htake, hdrop, append_assoc]

theorem asn1Write_written (h : (bs ++ p).length < maxTallocSize) :
    asn1Write (written bs ns) p = (true, written (bs ++ p) ns) := by
  rw [length_append] at h
  have hfits : ¬ ((written bs ns).data.length < (written bs ns).ofs + p.length ∧
      maxTallocSize ≤ (written bs ns).ofs + p.length) := by
    rintro ⟨_, hlarge⟩
    exact absurd h (Nat.not_lt.mpr hlarge)
  rw [asn1Write, if_neg (show ¬ (written bs ns).hasError = true from Bool.false_ne_true), if_neg hfits]
  simp [written, overwrite]

theorem asn1PushTag_written {tag : UInt8} (h : (bs ++ [tag, 0xff]).length < maxTallocSize) :
    asn1PushTag (written bs ns) tag =
      (true, written (bs ++ [tag, 0xff]) (⟨(bs ++ [tag]).length, 0⟩ :: ns)) := by
  have hsplit : bs ++ [tag, 0xff] = bs ++ [tag] ++ [0xff] := by simp
  have htag : asn1WriteUint8 (written bs ns) tag = (true, written (bs ++ [tag]) ns) := by
    apply asn1Write_written
    rw [hsplit, length_append] at h
    omega
  rw [asn1PushTag, htag, hsplit]
  exact asn1Write_written (hsplit ▸ h)

theorem asn1WriteZeros_written {bs : List UInt8} {ns : List Nesting} (k : Nat) (h : bs.length + k < maxTallocSize) :
    asn1WriteZeros (written bs ns) k = (true, written (bs ++ List.replicate k 0) ns) := by
  induction k generalizing bs with
  | zero => simp [asn1WriteZeros]
  | succ k ih =>
    have hone : asn1WriteUint8 (written bs ns) 0 = (true, written (bs ++ [0]) ns) :=
      asn1Write_written (by rw [length_append, length_singleton]; omega)
    rw [asn1WriteZeros, hone]
    dsimp only
    rw [ih (by rw [length_append, length_singleton]; omega), append_assoc, replicate_succ]
    rfl

/-- The one byte of a length becomes all its bytes, in front of what the tag holds. -/
theorem asn1Widen_written {more : List UInt8} {x first : UInt8}
    (h : (bs ++ (first :: more ++ content)).length < maxTallocSize) :
    asn1Widen (written (bs ++ x :: content) ns) bs.length content.length first more =
      (true, written (bs ++ (first :: more ++ content)) ns) := by
  have hset : { written (bs ++ x :: content) ns with data := (written (bs ++ x :: content) ns).data.set bs.length first } =
      written (bs ++ first :: content) ns := by
    simp [written]
  have hzeros := @asn1WriteZeros_written (bs ++ first :: content) ns more.length
    (by simp only [length_append, length_cons] at h ⊢; omega)
  rw [asn1Widen, hset, hzeros]
  dsimp only [written]
  -- what moves is the content, to the end of the bytes that were added
  have hmoved : ((bs ++ first :: content ++ List.replicate more.length 0).drop (bs.length + 1)).take content.length =
      content := by
    rw [append_assoc, drop_append, drop_of_length_le (by omega)]
    simp
  obtain ⟨front, back, hparts, hfront⟩ : ∃ front back, content ++ List.replicate more.length 0 = front ++ back ∧
      front.length = more.length := by
    refine ⟨_, _, (take_append_drop more.length _).symm, ?_⟩
    rw [length_take, length_append, length_replicate]
    omega
  have hback : content.length = back.length := by
    have := congrArg List.length hparts
    simp only [length_append, length_replicate] at this
    omega
  have hdata : bs ++ first :: content ++ List.replicate more.length 0 = bs ++ first :: front ++ (back ++ []) := by
    rw [append_nil, append_assoc, cons_append, hparts, append_assoc, cons_append]
  have hstart : bs.length + more.length + 1 = (bs ++ first :: front).length := by
    rw [length_append, length_cons, hfront]
    omega
  rw [hmoved, hdata, hstart, overwrite_append hback]
  have hlength : (bs ++ [first]).length = bs.length + 1 := by simp
  have hfinal : overwrite (bs ++ first :: front ++ (content ++ [])) (bs.length + 1) more =
      bs ++ (first :: more ++ content) := by
    rw [show bs ++ first :: front ++ (content ++ []) = bs ++ [first] ++ (front ++ content) by simp, ← hlength,
      overwrite_append hfront.symm]
    simp
  rw [hfinal]
  simp only [length_append, length_cons, hfront, hback, length_nil]
  rw [show bs.length + (more.length + 1) + (back.length + 0) = bs.length + (more.length + 1 + back.length) by omega]

/-- A tag that is popped has the shortest length in front of what it holds. -/
theorem asn1PopTag_written {t : Nat} (h : (bs ++ (lengthOctets content.length ++ content)).length < maxTallocSize) :
    asn1PopTag (written (bs ++ 0xff :: content) (⟨bs.length, t⟩ :: ns)) =
      (true, written (bs ++ (lengthOctets content.length ++ content)) ns) := by
  have hlen : (written (bs ++ 0xff :: content) (⟨bs.length, t⟩ :: ns)).ofs - (bs.length + 1) = content.length := by
    simp only [written, length_append, length_cons]
    omega
  have hsmall : content.length < 2 ^ 32 := by
    unfold maxTallocSize at h
    simp only [length_append] at h
    omega
  rw [lengthOctets_of_lt hsmall] at h ⊢
  unfold asn1PopTag
  simp only [show (written (bs ++ 0xff :: content) (⟨bs.length, t⟩ :: ns)).nesting = ⟨bs.length, t⟩ :: ns from rfl, hlen]
  split_ifs at h with h4 h3 h2 h1
  · rw [if_pos h4, if_pos h4, asn1Widen_written h]
    rfl
  · rw [if_neg h4, if_pos h3, if_neg h4, if_pos h3, asn1Widen_written h]
    rfl
  · rw [if_neg h4, if_neg h3, if_pos h2, if_neg h4, if_neg h3, if_pos h2, asn1Widen_written h]
    rfl
  · rw [if_neg h4, if_neg h3, if_neg h2, if_pos h1, if_neg h4, if_neg h3, if_neg h2, if_pos h1, asn1Widen_written h]
    rfl
  · rw [if_neg h4, if_neg h3, if_neg h2, if_neg h1, if_neg h4, if_neg h3, if_neg h2, if_neg h1]
    simp [written]

/-- What has been written since a tag was pushed becomes the content of the tag. -/
theorem asn1PopTag_pushed {bs content : List UInt8} {ns : List Nesting} {tag : UInt8} {t : Nat}
    (h : (bs ++ tag :: (lengthOctets content.length ++ content)).length < maxTallocSize) :
    asn1PopTag (written (bs ++ [tag, 0xff] ++ content) (⟨(bs ++ [tag]).length, t⟩ :: ns)) =
      (true, written (bs ++ tag :: (lengthOctets content.length ++ content)) ns) := by
  have hopen : bs ++ [tag, 0xff] ++ content = bs ++ [tag] ++ 0xff :: content := by simp
  have hclosed : bs ++ tag :: (lengthOctets content.length ++ content) =
      bs ++ [tag] ++ (lengthOctets content.length ++ content) := by simp
  rw [hclosed] at h ⊢
  rw [hopen]
  exact asn1PopTag_written h

/-- A forest is appended to a buffer that has room for it. -/
theorem write_written (f : Forest (List UInt8)) {bs : List UInt8} {ns : List Nesting}
    (h : (bs ++ f.encoding).length < maxTallocSize) :
    f.write (written bs ns) = some (written (bs ++ f.encoding) ns) := by
  induction f generalizing bs ns with
  | nil => simp [Forest.write, Forest.encoding]
  | raw tag content next ih =>
    have hoctets := one_le_length_lengthOctets content.length
    rw [Forest.encoding] at h ⊢
    have hpush : (bs ++ [tag, 0xff]).length < maxTallocSize := by
      simp only [length_append, length_cons, length_nil] at h ⊢
      omega
    have hcontent : (bs ++ [tag, 0xff] ++ content).length < maxTallocSize := by
      simp only [length_append, length_cons, length_nil] at h ⊢
      omega
    have hpop : (bs ++ tag :: (lengthOctets content.length ++ content)).length < maxTallocSize := by
      simp only [length_append, length_cons] at h ⊢
      omega
    have hnext : bs ++ tag :: (lengthOctets content.length ++ content) ++ next.encoding =
        bs ++ tag :: (lengthOctets content.length ++ (content ++ next.encoding)) := by simp
    rw [Forest.write, asn1PushTag_written hpush]
    dsimp only
    rw [asn1Write_written hcontent]
    dsimp only
    rw [asn1PopTag_pushed hpop]
    dsimp only
    rw [ih (hnext ▸ h), hnext]
  | nested tag children next ihc ih =>
    have hoctets := one_le_length_lengthOctets children.encoding.length
    rw [Forest.encoding] at h ⊢
    have hpush : (bs ++ [tag, 0xff]).length < maxTallocSize := by
      simp only [length_append, length_cons, length_nil] at h ⊢
      omega
    have hchildren : (bs ++ [tag, 0xff] ++ children.encoding).length < maxTallocSize := by
      simp only [length_append, length_cons, length_nil] at h ⊢
      omega
    have hpop : (bs ++ tag :: (lengthOctets children.encoding.length ++ children.encoding)).length < maxTallocSize := by
      simp only [length_append, length_cons] at h ⊢
      omega
    have hnext : bs ++ tag :: (lengthOctets children.encoding.length ++ children.encoding) ++ next.encoding =
        bs ++ tag :: (lengthOctets children.encoding.length ++ (children.encoding ++ next.encoding)) := by simp
    rw [Forest.write, asn1PushTag_written hpush]
    dsimp only
    rw [ihc hchildren]
    dsimp only
    rw [asn1PopTag_pushed hpop]
    dsimp only
    rw [ih (hnext ▸ h), hnext]

theorem encodes_encoding (h : f.encoding.length < 256 ^ 127) : f.Encodes f.encoding := by
  induction f with
  | nil => exact .nil
  | raw tag content next ih =>
    simp only [Forest.encoding, length_cons, length_append] at h
    exact .raw (shortest_lengthOctets (by omega)) (ih (by omega))
  | nested tag children next ihc ih =>
    simp only [Forest.encoding, length_cons, length_append] at h
    exact .nested (ihc (by omega)) (shortest_lengthOctets (by omega)) (ih (by omega))

/-! ## Reading from the front of a buffer -/

/-- A reader that has some bytes behind it, some ahead, and some tags open. -/
def reading (done rest : List UInt8) (ns : List Nesting) : Asn1Data := ⟨done ++ rest, done.length, ns, false⟩

theorem asn1Read_reading (done p rest : List UInt8) (ns : List Nesting) :
    asn1Read (reading done (p ++ rest) ns) p.length = (some p, reading (done ++ p) rest ns) := by
  have hpeek : asn1Peek (reading done (p ++ rest) ns) p.length = (some p, reading done (p ++ rest) ns) := by
    have hfits : ¬ (((reading done (p ++ rest) ns).ofs : Int) + (p.length : Int) >
        (reading done (p ++ rest) ns).data.length) := by
      simp only [reading, length_append]
      omega
    rw [asn1Peek, if_neg (by omega), if_neg hfits]
    simp [reading]
  rw [asn1Read, hpeek]
  simp [reading]

theorem asn1ReadUint8_reading (done : List UInt8) (b : UInt8) (rest : List UInt8) (ns : List Nesting) :
    asn1ReadUint8 (reading done (b :: rest) ns) = (some b, reading (done ++ [b]) rest ns) := by
  have h := asn1Read_reading done [b] rest ns
  rw [asn1ReadUint8]
  rw [show asn1Read (reading done (b :: rest) ns) 1 = _ from h]

theorem asn1ReadTaglen_reading {acc j : Nat} {done rest : List UInt8} (hacc : acc < 256 ^ j)
    (hj : j + bs.length ≤ 8) :
    asn1ReadTaglen (reading done (bs ++ rest) ns) acc bs.length =
      (some (bs.foldl (fun n b => n * 256 + b.toNat) acc), reading (done ++ bs) rest ns) := by
  induction bs generalizing acc j done with
  | nil => simp [asn1ReadTaglen]
  | cons b bs ih =>
    have hb : b.toNat < 2 ^ 8 := b.toNat_lt
    have hnext : acc * 256 + b.toNat < 256 ^ (j + 1) := by
      rw [pow_succ]
      omega
    have hword : (acc <<< 8 ||| b.toNat) % 2 ^ 64 = acc * 256 + b.toNat := by
      have hpow : (256 : Nat) ^ (j + 1) ≤ 256 ^ 8 :=
        Nat.pow_le_pow_right (by decide) (by rw [length_cons] at hj; omega)
      rw [← Nat.shiftLeft_add_eq_or_of_lt hb, Nat.shiftLeft_eq]
      exact Nat.mod_eq_of_lt (Nat.lt_of_lt_of_le hnext hpow)
    rw [length_cons, cons_append, asn1ReadTaglen, asn1ReadUint8_reading]
    dsimp only
    rw [hword, ih hnext (by rw [length_cons] at hj; omega), foldl_cons, append_assoc,
      singleton_append]

theorem asn1TagRemaining_reading {done rest : List UInt8} {start n k : Nat} {ns : List Nesting}
    (hk : start + n = done.length + k) (hrest : k ≤ rest.length) (hsize : rest.length < 2 ^ 31) :
    asn1TagRemaining (reading done rest (⟨start, n⟩ :: ns)) = ((k : Int), reading done rest (⟨start, n⟩ :: ns)) := by
  have hremaining : ((n : Int) - ((done.length : Int) - (start : Int))).bmod (2 ^ 32) = k := by
    rw [show (n : Int) - ((done.length : Int) - (start : Int)) = k by omega]
    exact Int.bmod_eq_of_le (by omega) (by omega)
  have hahead : (((done ++ rest).length : Nat) : Int) - (done.length : Int) = rest.length := by
    rw [length_append]
    omega
  have hfits : ¬ ((k : Int) % 2 ^ 64 > (rest.length : Int) % 2 ^ 64) := by
    rw [Int.emod_eq_of_lt (by omega) (by omega), Int.emod_eq_of_lt (by omega) (by omega)]
    omega
  unfold asn1TagRemaining
  simp only [reading, hremaining, hahead]
  rw [if_neg Bool.false_ne_true, if_neg hfits]

/-- A length in any definite form of at most eight bytes behind the first is read. -/
theorem asn1ReadLength_reading {done rest : List UInt8} {b : UInt8} {n : Nat}
    (hos : definiteLength (b :: bs) = some n) (hshort : bs.length ≤ 8) :
    asn1ReadLength (reading done (bs ++ rest) ns) b = (some n, reading (done ++ bs) rest ns) := by
  have hbit (c : UInt8) : c &&& 0x80 = 0 ↔ c < 0x80 := by
    revert c
    exact forall_byte (by decide +kernel)
  have hlow (c : UInt8) : ¬ c < 0x80 → (c &&& 0x7f).toNat = c.toNat - 0x80 := by
    revert c
    exact forall_byte (by decide +kernel)
  rw [definiteLength] at hos
  rw [asn1ReadLength]
  split at hos
  · rename_i hb
    split at hos
    · rename_i hnil
      subst hnil
      rw [if_neg (not_not.mpr ((hbit b).mpr hb))]
      cases hos
      simp
    · cases hos
  · rename_i hb
    split at hos
    · rename_i hform
      obtain ⟨hne, hcount⟩ := hform
      obtain ⟨c, cs, rfl⟩ := exists_cons_of_ne_nil hne
      rw [if_pos (mt (hbit b).mp hb), cons_append, asn1ReadUint8_reading]
      dsimp only
      have hloop : (b &&& 0x7f).toNat - 1 = cs.length := by
        rw [hlow b hb, hcount, length_cons]
        omega
      have hc : c.toNat < 256 ^ 1 := c.toNat_lt
      rw [hloop, asn1ReadTaglen_reading hc (by rw [length_cons] at hshort; omega), ← Option.some.inj hos,
        beNumber, foldl_cons, Nat.zero_mul, Nat.zero_add, append_assoc, singleton_append]
    · cases hos

theorem asn1StartTag_reading {done os rest : List UInt8} {tag : UInt8} {n : Nat} {ns : List Nesting}
    (hos : definiteLength os = some n) (hshort : os.length ≤ 9) (hn : n ≤ rest.length) (hsize : rest.length < 2 ^ 31) :
    asn1StartTag (reading done (tag :: (os ++ rest)) ns) tag =
      (true, reading (done ++ tag :: os) rest (⟨(done ++ tag :: os).length, n⟩ :: ns)) := by
  match os with
  | [] => cases hos
  | b :: bs =>
    have hremaining := @asn1TagRemaining_reading (done ++ tag :: b :: bs) _ _ _ _ ns rfl hn hsize
    rw [asn1StartTag, asn1ReadUint8_reading]
    simp only [ne_eq, not_true_eq_false, if_false, cons_append]
    rw [asn1ReadUint8_reading]
    dsimp only
    rw [asn1ReadLength_reading hos (by rw [length_cons] at hshort; omega)]
    rw [show done ++ [tag] ++ [b] ++ bs = done ++ tag :: b :: bs by simp]
    dsimp only
    unfold reading at hremaining ⊢
    dsimp only
    rw [hremaining, if_neg (by omega)]
    rfl

theorem asn1EndTag_reading {done rest : List UInt8} {start n : Nat} {ns : List Nesting}
    (hend : start + n = done.length) (hsize : rest.length < 2 ^ 31) :
    asn1EndTag (reading done rest (⟨start, n⟩ :: ns)) = (true, reading done rest ns) := by
  have hremaining := @asn1TagRemaining_reading _ rest _ _ 0 ns hend (Nat.zero_le _) hsize
  rw [asn1EndTag, hremaining]
  simp [reading]

theorem length_lengthOctets_le {n : Nat} (h : n < 2 ^ 32) : (lengthOctets n).length ≤ 9 := by
  rw [lengthOctets_of_lt h]
  split_ifs <;> simp

/-- A forest at the front of what is ahead is read as it is, up to its end. -/
theorem read_reading (f : Forest (List UInt8)) {done rest : List UInt8} {ns : List Nesting}
    (h : (f.encoding ++ rest).length < 2 ^ 31) :
    f.shape.read (reading done (f.encoding ++ rest) ns) = some (f, reading (done ++ f.encoding) rest ns) := by
  induction f generalizing done rest ns with
  | nil => simp [Forest.shape, Forest.read, Forest.encoding]
  | raw tag content next ih =>
    simp only [Forest.encoding, cons_append, append_assoc, length_cons, length_append] at h ⊢
    have hstart := @asn1StartTag_reading done _ (content ++ (next.encoding ++ rest)) tag _ ns
      (@definiteLength_lengthOctets content.length (by omega)) (length_lengthOctets_le (by omega))
      (by rw [length_append]; omega) (by simp only [length_append]; omega)
    have hend := @asn1EndTag_reading (done ++ tag :: lengthOctets content.length ++ content) (next.encoding ++ rest)
      _ _ ns (length_append ..).symm
      (by simp only [length_append]; omega)
    rw [Forest.shape, Forest.read, hstart]
    dsimp only
    rw [asn1Read_reading]
    dsimp only
    rw [hend]
    dsimp only
    rw [ih (by simp only [length_append]; omega)]
    simp
  | nested tag children next ihc ih =>
    simp only [Forest.encoding, cons_append, append_assoc, length_cons, length_append] at h ⊢
    have hstart := @asn1StartTag_reading done _ (children.encoding ++ (next.encoding ++ rest)) tag
      _ ns (@definiteLength_lengthOctets children.encoding.length (by omega)) (length_lengthOctets_le (by omega))
      (by rw [length_append]; omega) (by simp only [length_append]; omega)
    have hend := @asn1EndTag_reading (done ++ tag :: lengthOctets children.encoding.length ++ children.encoding)
      (next.encoding ++ rest) _ _ ns (length_append ..).symm
      (by simp only [length_append]; omega)
    rw [Forest.shape, Forest.read, hstart]
    dsimp only
    rw [ihc (by simp only [length_append]; omega)]
    dsimp only
    rw [hend]
    dsimp only
    rw [ih (by simp only [length_append]; omega)]
    simp

/-! ## Writing past the largest block -/

theorem asn1Write_full (hp : p ≠ []) (h : maxTallocSize ≤ (bs ++ p).length) :
    asn1Write (written bs ns) p = (false, { written bs ns with hasError := true }) := by
  rw [length_append] at h
  have hpos := length_pos_iff.mpr hp
  have hgrows : (written bs ns).data.length < (written bs ns).ofs + p.length ∧
      maxTallocSize ≤ (written bs ns).ofs + p.length :=
    ⟨Nat.lt_add_of_pos_right hpos, h⟩
  rw [asn1Write, if_neg (show ¬ (written bs ns).hasError = true from Bool.false_ne_true), if_pos hgrows]

theorem asn1PushTag_full {bs : List UInt8} {ns : List Nesting} {tag : UInt8}
    (h : maxTallocSize ≤ (bs ++ [tag, 0xff]).length) : (asn1PushTag (written bs ns) tag).1 = false := by
  have hsplit : bs ++ [tag, 0xff] = bs ++ [tag] ++ [0xff] := by simp
  rw [asn1PushTag]
  by_cases htag : (bs ++ [tag]).length < maxTallocSize
  · rw [show asn1WriteUint8 (written bs ns) tag = _ from asn1Write_written htag]
    exact congrArg Prod.fst (asn1Write_full (by simp) (hsplit ▸ h))
  · -- the error of the first write is seen by the second one
    rw [show asn1WriteUint8 (written bs ns) tag = _ from asn1Write_full (by simp) (Nat.not_lt.mp htag)]
    rfl

theorem asn1WriteZeros_full {bs : List UInt8} {ns : List Nesting} (k : Nat) (hbs : bs.length < maxTallocSize)
    (h : maxTallocSize ≤ bs.length + k) : (asn1WriteZeros (written bs ns) k).1 = false := by
  induction k generalizing bs with
  | zero => omega
  | succ k ih =>
    rw [asn1WriteZeros]
    by_cases hone : (bs ++ [0]).length < maxTallocSize
    · rw [show asn1WriteUint8 (written bs ns) 0 = _ from asn1Write_written hone]
      exact ih hone (by rw [length_append, length_singleton]; omega)
    · rw [show asn1WriteUint8 (written bs ns) 0 = _ from asn1Write_full (by simp) (Nat.not_lt.mp hone)]

theorem asn1Widen_full {more : List UInt8} {x first : UInt8} {len : Nat}
    (hbs : (bs ++ x :: content).length < maxTallocSize)
    (h : maxTallocSize ≤ (bs ++ (first :: more ++ content)).length) :
    (asn1Widen (written (bs ++ x :: content) ns) bs.length len first more).1 = false := by
  have hset : { written (bs ++ x :: content) ns with data := (written (bs ++ x :: content) ns).data.set bs.length first } =
      written (bs ++ first :: content) ns := by
    simp [written]
  simp only [length_append, length_cons] at hbs h
  have hzeros := @asn1WriteZeros_full (bs ++ first :: content) ns more.length
    (by simp only [length_append, length_cons]; omega)
    (by simp only [length_append, length_cons]; omega)
  rw [asn1Widen, hset]
  match hw : asn1WriteZeros (written (bs ++ first :: content) ns) more.length with
  | (false, _) => rfl
  | (true, _) => rw [hw] at hzeros; cases hzeros

theorem asn1PopTag_full {t : Nat} (hbs : (bs ++ 0xff :: content).length < maxTallocSize)
    (h : maxTallocSize ≤ (bs ++ (lengthOctets content.length ++ content)).length) :
    (asn1PopTag (written (bs ++ 0xff :: content) (⟨bs.length, t⟩ :: ns))).1 = false := by
  have hlen : (written (bs ++ 0xff :: content) (⟨bs.length, t⟩ :: ns)).ofs - (bs.length + 1) = content.length := by
    simp only [written, length_append, length_cons]
    omega
  have hsmall : content.length < 2 ^ 32 := by
    unfold maxTallocSize at hbs
    simp only [length_append, length_cons] at hbs
    omega
  rw [lengthOctets_of_lt hsmall] at h
  unfold asn1PopTag
  simp only [show (written (bs ++ 0xff :: content) (⟨bs.length, t⟩ :: ns)).nesting = ⟨bs.length, t⟩ :: ns from rfl, hlen]
  split_ifs at h with h4 h3 h2 h1
  · rw [if_pos h4, if_neg (Bool.eq_false_iff.mp (asn1Widen_full hbs h))]
  · rw [if_neg h4, if_pos h3, if_neg (Bool.eq_false_iff.mp (asn1Widen_full hbs h))]
  · rw [if_neg h4, if_neg h3, if_pos h2, if_neg (Bool.eq_false_iff.mp (asn1Widen_full hbs h))]
  · rw [if_neg h4, if_neg h3, if_neg h2, if_pos h1, if_neg (Bool.eq_false_iff.mp (asn1Widen_full hbs h))]
  · simp only [length_append, length_cons, length_nil] at hbs h
    omega

theorem asn1PopTag_pushed_full {bs content : List UInt8} {ns : List Nesting} {tag : UInt8} {t : Nat}
    (hbs : (bs ++ [tag, 0xff] ++ content).length < maxTallocSize)
    (h : maxTallocSize ≤ (bs ++ tag :: (lengthOctets content.length ++ content)).length) :
    (asn1PopTag (written (bs ++ [tag, 0xff] ++ content) (⟨(bs ++ [tag]).length, t⟩ :: ns))).1 = false := by
  have hopen : bs ++ [tag, 0xff] ++ content = bs ++ [tag] ++ 0xff :: content := by simp
  have hclosed : bs ++ tag :: (lengthOctets content.length ++ content) =
      bs ++ [tag] ++ (lengthOctets content.length ++ content) := by simp
  rw [hclosed] at h
  rw [hopen] at hbs ⊢
  exact asn1PopTag_full hbs h

/-- A forest for which the largest block has no room is not written. -/
theorem write_full (f : Forest (List UInt8)) {bs : List UInt8} {ns : List Nesting} (hbs : bs.length < maxTallocSize)
    (h : maxTallocSize ≤ (bs ++ f.encoding).length) : f.write (written bs ns) = none := by
  induction f generalizing bs ns with
  | nil =>
    rw [Forest.encoding, append_nil] at h
    omega
  | raw tag content next ih =>
    rw [Forest.write]
    by_cases hpush : (bs ++ [tag, 0xff]).length < maxTallocSize
    swap
    · have hfail := @asn1PushTag_full _ ns _ (Nat.not_lt.mp hpush)
      rw [show asn1PushTag (written bs ns) tag = (false, _) from Prod.ext hfail rfl]
    rw [asn1PushTag_written hpush]
    dsimp only
    by_cases hcontent : (bs ++ [tag, 0xff] ++ content).length < maxTallocSize
    swap
    · rw [asn1Write_full ?_ (Nat.not_lt.mp hcontent)]
      rintro rfl
      rw [append_nil] at hcontent
      exact hcontent hpush
    rw [asn1Write_written hcontent]
    dsimp only
    by_cases hpop : (bs ++ tag :: (lengthOctets content.length ++ content)).length < maxTallocSize
    swap
    · have hfail := @asn1PopTag_pushed_full _ _ ns _ 0 hcontent (Nat.not_lt.mp hpop)
      rw [show asn1PopTag _ = (false, _) from Prod.ext hfail rfl]
    rw [asn1PopTag_pushed hpop]
    dsimp only
    apply ih hpop
    simpa [Forest.encoding] using h
  | nested tag children next ihc ih =>
    rw [Forest.write]
    by_cases hpush : (bs ++ [tag, 0xff]).length < maxTallocSize
    swap
    · have hfail := @asn1PushTag_full _ ns _ (Nat.not_lt.mp hpush)
      rw [show asn1PushTag (written bs ns) tag = (false, _) from Prod.ext hfail rfl]
    rw [asn1PushTag_written hpush]
    dsimp only
    by_cases hchildren : (bs ++ [tag, 0xff] ++ children.encoding).length < maxTallocSize
    swap
    · rw [ihc hpush (Nat.not_lt.mp hchildren)]
    rw [write_written children hchildren]
    dsimp only
    by_cases hpop :
      (bs ++ tag :: (lengthOctets children.encoding.length ++ children.encoding)).length < maxTallocSize
    swap
    · have hfail := @asn1PopTag_pushed_full _ _ ns _ 0 hchildren (Nat.not_lt.mp hpop)
      rw [show asn1PopTag _ = (false, _) from Prod.ext hfail rfl]
    rw [asn1PopTag_pushed hpop]
    dsimp only
    apply ih hpop
    simpa [Forest.encoding] using h

/-! ## Forests that are written and read -/

/-- A forest that fits a block of memory is written with the shortest lengths and read back. -/
theorem roundTrips_of_fits (h : f.encoding.length < maxTallocSize) : f.RoundTrips := by
  have hsize : f.encoding.length < 2 ^ 28 := h
  have hwrite : f.write asn1Init = some (written f.encoding []) := @write_written f [] _ h
  have hload : asn1Load f.encoding = (true, reading [] f.encoding []) := if_neg (Nat.not_le.mpr h)
  have hread := @read_reading f [] [] [] (by rw [append_nil]; omega)
  rw [append_nil, nil_append] at hread
  refine ⟨_, _, _, hwrite, encodes_encoding (by omega), hload, hread, ?_⟩
  simp [reading, written]

theorem not_roundTrips_of_full (h : maxTallocSize ≤ f.encoding.length) : ¬ f.RoundTrips := by
  rintro ⟨_, _, _, hwrite, _⟩
  rw [show f.write asn1Init = none from @write_full f [] _ (by decide) h] at hwrite
  cases hwrite

/-- A forest is written and read back if, and only if, a block of memory can hold it. -/
theorem roundTrips_iff (f : Forest (List UInt8)) : f.RoundTrips ↔ f.encoding.length < maxTallocSize :=
  ⟨fun h => Nat.lt_of_not_le fun hfull => not_roundTrips_of_full hfull h, roundTrips_of_fits⟩

example : (Forest.nested 0x60 (.raw 0x04 [1, 2] .nil) .nil).write asn1Init = some (written [0x60, 4, 0x04, 2, 1, 2] []) := by
  decide

/-- One octet string of `2^28` bytes is not written. -/
theorem octetString_not_roundTrips : ¬ ∀ f : Forest (List UInt8), f.LengthsBelow (2 ^ 31) → f.RoundTrips := by
  intro h
  obtain ⟨content, hlen⟩ : ∃ content : List UInt8, content.length = maxTallocSize :=
    ⟨List.replicate _ 0, length_replicate⟩
  have hfull : maxTallocSize ≤ (Forest.raw 0x04 content .nil).encoding.length := by
    simp only [Forest.encoding, length_cons, length_append, hlen]
    omega
  have hbelow : (Forest.raw 0x04 content .nil).LengthsBelow (2 ^ 31) :=
    ⟨by rw [hlen]; unfold maxTallocSize; omega, trivial⟩
  exact not_roundTrips_of_full hfull (h _ hbelow)

end Samba.Libcli
