/-
NDR strings (librpc/ndr/ndr_string.c): a dozen ways to put the length of a string before its bytes, or none, chosen by flags
of the context.
-/
import Samba.Charset.Charcnv

namespace Samba.Ndr

open Bytes CString List Samba.Charset

/-! ## Flags -/

/-- The set in which the flags want a string, the bytes of its units, and the string flags that say how it is laid out. -/
def stringFormat (flags : BitVec 32) : CharsetT × Nat × BitVec 32 :=
  let stringFlags := flags &&& libndrStringFlags
  let layout := stringFlags &&& ~~~libndrFlagStrAscii &&& ~~~libndrFlagStrUtf8 &&& ~~~libndrFlagStrConformant
  if stringFlags &&& libndrFlagStrUtf8 ≠ 0 then (.utf8, 1, layout)
  else if stringFlags &&& libndrFlagStrAscii ≠ 0 then (.dos, 1, layout)
  else if ndrBe flags then (.utf16be, 2, layout)
  else (.utf16, 2, layout)

/-! ## Reading -/

/-- `NDR_PULL_NEED_BYTES`. -/
def ndrPullNeedBytes (ndr : NdrPull) (n : Nat) : Except NdrError Unit :=
  if n > ndr.data.length ∨ ndr.offset + n > ndr.data.length then .error .bufsize else .ok ()

/-- `ndr_pull_advance`. -/
def ndrPullAdvance (ndr : NdrPull) (n : Nat) : Except NdrError NdrPull :=
  if ndr.offset + n > ndr.data.length then .error .bufsize else .ok { ndr with offset := ndr.offset + n }

/-- The conversion of `n` bytes to a string of the unix charset. -/
def ndrConvertBytes (ndr : NdrPull) (chset : CharsetT) (n : Nat) : Except NdrError (Text × NdrPull) :=
  match convertStringTalloc chset .unix ((ndr.data.drop ndr.offset).take n) with
  | none => .error .charcnv
  | some as => do
    let ndr ← ndrPullAdvance ndr n
    return (cstr as, ndr)

/-- The end of each case with a length: `n` bytes, of which there is a string unless the length `len` is zero. -/
def ndrPullCounted (ndr : NdrPull) (chset : CharsetT) (len n : Nat) : Except NdrError (Text × NdrPull) := do
  ndrPullNeedBytes ndr n
  if len = 0 then
    let ndr ← ndrPullAdvance ndr n
    return ([], ndr)
  else ndrConvertBytes ndr chset n

/-- `ascii_len_n`. -/
def asciiLenN (src : List UInt8) : Nat :=
  let len := (cstr src).length
  if len + 1 ≤ src.length then len + 1 else len

/-- The loop of `utf16_len_n`. -/
def utf16Units : List UInt8 → Nat
  | a :: b :: c :: rest => if a = 0 ∧ b = 0 then 0 else 2 + utf16Units (c :: rest)
  | _ => 0

/-- `utf16_len_n`. -/
def utf16LenN (src : List UInt8) : Nat :=
  let len := utf16Units src
  if len + 2 ≤ src.length then len + 2 else len

/-- `ndr_pull_string`. -/
def ndrPullString (ndr : NdrPull) : Except NdrError (Text × NdrPull) :=
  let (chset, byteMul, flags) := stringFormat ndr.flags
  let cLenTerm := if flags &&& libndrFlagStrCharlen ≠ 0 then 1 else 0
  let flags := flags &&& ~~~libndrFlagStrCharlen
  if flags = (libndrFlagStrLen4 ||| libndrFlagStrSize4) ∨
      flags = (libndrFlagStrLen4 ||| libndrFlagStrSize4 ||| libndrFlagStrNoterm) then do
    let (len1, ndr) ← ndrPullUint32 ndr
    let (ofs, ndr) ← ndrPullUint32 ndr
    if ofs ≠ 0 then .error .string
    else
      let (len2, ndr) ← ndrPullUint32 ndr
      if len2 > len1 then .error .string
      else ndrPullCounted ndr chset len2 ((len2 + cLenTerm) * byteMul % 2 ^ 32)
  else if flags = libndrFlagStrSize4 ∨ flags = (libndrFlagStrSize4 ||| libndrFlagStrNoterm) then do
    let (len1, ndr) ← ndrPullUint32 ndr
    ndrPullCounted ndr chset len1 ((len1 + cLenTerm) * byteMul % 2 ^ 32)
  else if flags = libndrFlagStrLen4 ∨ flags = (libndrFlagStrLen4 ||| libndrFlagStrNoterm) then do
    let (ofs, ndr) ← ndrPullUint32 ndr
    if ofs ≠ 0 then .error .string
    else
      let (len1, ndr) ← ndrPullUint32 ndr
      ndrPullCounted ndr chset len1 ((len1 + cLenTerm) * byteMul % 2 ^ 32)
  else if flags = libndrFlagStrSize2 ∨ flags = (libndrFlagStrSize2 ||| libndrFlagStrNoterm) then do
    let (len3, ndr) ← ndrPullUint16 ndr
    ndrPullCounted ndr chset len3 ((len3 + cLenTerm) * byteMul % 2 ^ 32)
  else if flags = (libndrFlagStrSize2 ||| libndrFlagStrNoterm ||| libndrFlagStrBytesize) then do
    let (len3, ndr) ← ndrPullUint16 ndr
    ndrPullCounted ndr chset len3 len3
  else if flags = libndrFlagStrNullterm then
    let rest := ndr.data.drop ndr.offset
    ndrConvertBytes ndr chset (if byteMul = 1 then asciiLenN rest else utf16LenN rest)
  else if flags = libndrFlagStrFixlen15 ∨ flags = libndrFlagStrFixlen32 then do
    let len1 := if flags &&& libndrFlagStrFixlen32 ≠ 0 then 32 else 15
    ndrPullNeedBytes ndr (len1 * byteMul)
    ndrConvertBytes ndr chset (len1 * byteMul)
  else if flags = libndrFlagStrNoterm then
    if ndr.flags &&& libndrFlagRemaining = 0 then .error .string
    else
      let len1 := ndr.data.length - ndr.offset
      ndrPullCounted ndr chset len1 len1
  else .error .string

/-! ## Writing -/

/-- The length that is counted, and the flags that are left. -/
def countedLength (flags : BitVec 32) (dLen byteMul : Nat) : Nat × BitVec 32 :=
  if flags &&& libndrFlagStrBytesize ≠ 0 then (dLen, flags &&& ~~~libndrFlagStrBytesize)
  else if flags &&& libndrFlagStrCharlen ≠ 0 then (dLen / byteMul - 1, flags &&& ~~~libndrFlagStrCharlen)
  else (dLen / byteMul, flags)

/-- `ndr_push_string`. -/
def ndrPushString (ndr : NdrPush) (s : Text) : Except NdrError NdrPush :=
  let (chset, byteMul, flags) := stringFormat ndr.flags
  let terminated := flags &&& (libndrFlagStrNoterm ||| libndrFlagStrFixlen15 ||| libndrFlagStrFixlen32) = 0
  match convertStringTalloc .unix chset (if terminated then s ++ [0] else s) with
  | none => .error .charcnv
  | some dest =>
    let dLen := dest.length
    let (cLen, flags) := countedLength flags dLen byteMul
    let flags := flags &&& ~~~libndrFlagStrNoterm
    if flags = (libndrFlagStrLen4 ||| libndrFlagStrSize4) then do
      let ndr ← ndrPushUint32 ndr cLen
      let ndr ← ndrPushUint32 ndr 0
      let ndr ← ndrPushUint32 ndr cLen
      ndrPushBytes ndr dest
    else if flags = libndrFlagStrLen4 then do
      let ndr ← ndrPushUint32 ndr 0
      let ndr ← ndrPushUint32 ndr cLen
      ndrPushBytes ndr dest
    else if flags = libndrFlagStrSize4 then do
      let ndr ← ndrPushUint32 ndr cLen
      ndrPushBytes ndr dest
    else if flags = libndrFlagStrSize2 then do
      let ndr ← ndrPushUint16 ndr cLen
      ndrPushBytes ndr dest
    else if flags = libndrFlagStrNullterm then ndrPushBytes ndr dest
    else if flags = libndrFlagStrFixlen15 ∨ flags = libndrFlagStrFixlen32 then
      let fixLen := if flags &&& libndrFlagStrFixlen32 ≠ 0 then 32 else 15
      if dLen > fixLen then .error .charcnv
      else do
        let ndr ← ndrPushBytes ndr dest
        if fixLen - dLen ≠ 0 then ndrPushZero ndr (fixLen - dLen) else return ndr
    else if ndr.flags &&& libndrFlagRemaining ≠ 0 then ndrPushBytes ndr dest
    else .error .string

/-! ## Layouts -/

/-- What is counted, and where. -/
inductive Count
  | len4Size4 | size4 | len4 | size2
  deriving DecidableEq, Repr

/-- Whether a terminator is written, and whether it is counted. -/
inductive Ending
  | counted | noterm | charlen
  deriving DecidableEq, Repr

/-- The layouts of a string. -/
inductive Layout
  | counted (count : Count) (ending : Ending)
  | bytesize | nullterm | fixlen15 | fixlen32
  deriving DecidableEq, Repr

inductive Width
  | wide | ascii | utf8
  deriving DecidableEq, Repr

def Count.flags : Count → BitVec 32
  | .len4Size4 => libndrFlagStrLen4 ||| libndrFlagStrSize4
  | .size4 => libndrFlagStrSize4
  | .len4 => libndrFlagStrLen4
  | .size2 => libndrFlagStrSize2

def Ending.flags : Ending → BitVec 32
  | .counted => 0
  | .noterm => libndrFlagStrNoterm
  | .charlen => libndrFlagStrCharlen

def Layout.flags : Layout → BitVec 32
  | .counted count ending => count.flags ||| ending.flags
  | .bytesize => libndrFlagStrSize2 ||| libndrFlagStrNoterm ||| libndrFlagStrBytesize
  | .nullterm => libndrFlagStrNullterm
  | .fixlen15 => libndrFlagStrFixlen15
  | .fixlen32 => libndrFlagStrFixlen32

def Width.flags : Width → BitVec 32
  | .wide => 0
  | .ascii => libndrFlagStrAscii
  | .utf8 => libndrFlagStrUtf8

def Width.chset (be : Bool) : Width → CharsetT
  | .wide => if be then .utf16be else .utf16
  | .ascii => .dos
  | .utf8 => .utf8

def Width.byteMul : Width → Nat
  | .wide => 2
  | _ => 1

/-- Whether a terminator is written. -/
def Layout.terminated : Layout → Bool
  | .counted _ .noterm => false
  | .counted _ _ => true
  | .nullterm => true
  | _ => false

/-- The size of a field of fixed length. -/
def Layout.fixed : Layout → Option Nat
  | .fixlen15 => some 15
  | .fixlen32 => some 32
  | _ => none

/-- The string flags of a context, where one of them means nothing; a field of fixed length is not wide. -/
structure HasFormat (flags : BitVec 32) (layout : Layout) (width : Width) : Prop where
  flags : flags &&& libndrStringFlags &&& ~~~libndrFlagStrConformant = layout.flags ||| width.flags
  fixed : layout.fixed ≠ none → width ≠ .wide

section Format

variable {flags : BitVec 32} {layout : Layout} {width : Width}

theorem HasFormat.stringFormat (h : HasFormat flags layout width) :
    stringFormat flags = (width.chset (ndrBe flags), width.byteMul, layout.flags) := by
  have hbit : ∀ bit : BitVec 32, ~~~libndrFlagStrConformant &&& bit = bit →
      flags &&& libndrStringFlags &&& bit = (layout.flags ||| width.flags) &&& bit := by
    intro bit hbit
    rw [← h.flags, BitVec.and_assoc (flags &&& libndrStringFlags), hbit]
  have hlayout : flags &&& libndrStringFlags &&& ~~~libndrFlagStrAscii &&& ~~~libndrFlagStrUtf8 &&& ~~~libndrFlagStrConformant =
      (layout.flags ||| width.flags) &&& ~~~libndrFlagStrAscii &&& ~~~libndrFlagStrUtf8 := by
    rw [← h.flags]
    ac_rfl
  rw [Samba.Ndr.stringFormat]
  rw [hlayout, hbit _ (by decide), hbit _ (by decide)]
  have hclear : (layout.flags ||| width.flags) &&& ~~~libndrFlagStrAscii &&& ~~~libndrFlagStrUtf8 = layout.flags := by
    cases layout with
    | counted count ending => cases count <;> cases ending <;> cases width <;> decide
    | _ => cases width <;> decide
  have hutf8 : (layout.flags ||| width.flags) &&& libndrFlagStrUtf8 ≠ 0 ↔ width = .utf8 := by
    cases layout with
    | counted count ending => cases count <;> cases ending <;> cases width <;> decide
    | _ => cases width <;> decide
  have hascii : (layout.flags ||| width.flags) &&& libndrFlagStrAscii ≠ 0 ↔ width = .ascii := by
    cases layout with
    | counted count ending => cases count <;> cases ending <;> cases width <;> decide
    | _ => cases width <;> decide
  rw [hclear]
  cases width with
  | wide =>
    rw [if_neg (fun h => (nomatch hutf8.mp h)), if_neg (fun h => (nomatch hascii.mp h)), Width.chset]
    split <;> rfl
  | ascii =>
    rw [if_neg (fun h => (nomatch hutf8.mp h)), if_pos (hascii.mpr rfl)]
    rfl
  | utf8 =>
    rw [if_pos (hutf8.mpr rfl)]
    rfl

/-! ### The cases of the switch -/

/-- The cases with a count. -/
def pushCounted (count : Count) (cLen : Nat) (dest : List UInt8) (ndr : NdrPush) : Except NdrError NdrPush :=
  match count with
  | .len4Size4 => do
    let ndr ← ndrPushUint32 ndr cLen
    let ndr ← ndrPushUint32 ndr 0
    let ndr ← ndrPushUint32 ndr cLen
    ndrPushBytes ndr dest
  | .len4 => do
    let ndr ← ndrPushUint32 ndr 0
    let ndr ← ndrPushUint32 ndr cLen
    ndrPushBytes ndr dest
  | .size4 => do
    let ndr ← ndrPushUint32 ndr cLen
    ndrPushBytes ndr dest
  | .size2 => do
    let ndr ← ndrPushUint16 ndr cLen
    ndrPushBytes ndr dest

/-- The number that is read, and where the string begins. -/
def pullCount (count : Count) (ndr : NdrPull) : Except NdrError (Nat × NdrPull) :=
  match count with
  | .len4Size4 => do
    let (len1, ndr) ← ndrPullUint32 ndr
    let (ofs, ndr) ← ndrPullUint32 ndr
    if ofs ≠ 0 then .error .string
    else
      let (len2, ndr) ← ndrPullUint32 ndr
      if len2 > len1 then .error .string else return (len2, ndr)
  | .size4 => ndrPullUint32 ndr
  | .len4 => do
    let (ofs, ndr) ← ndrPullUint32 ndr
    if ofs ≠ 0 then .error .string else ndrPullUint32 ndr
  | .size2 => ndrPullUint16 ndr

/-- The terminator that a counted length leaves out. -/
def Ending.extra : Ending → Nat
  | .charlen => 1
  | _ => 0

/-- The string with its terminator, if there is one. -/
def Layout.source (layout : Layout) (s : Text) : Text := if layout.terminated then s ++ [0] else s

section Push

variable {ndr : NdrPush} {s : Text} {dest : List UInt8}

theorem Layout.source_eq (layout : Layout) (s : Text) :
    (if layout.flags &&& (libndrFlagStrNoterm ||| libndrFlagStrFixlen15 ||| libndrFlagStrFixlen32) = 0 then s ++ [0] else s) =
      layout.source s := by
  cases layout with
  | counted count ending => cases count <;> cases ending <;> rfl
  | _ => rfl

theorem ndrPushString_none (h : HasFormat ndr.flags layout width)
    (hdest : convertStringTalloc .unix (width.chset (ndrBe ndr.flags)) (layout.source s) = none) :
    ndrPushString ndr s = .error .charcnv := by
  rw [ndrPushString, h.stringFormat]
  simp only [Layout.source_eq, hdest]

theorem countedLength_counted (count : Count) (ending : Ending) (dLen byteMul : Nat) :
    countedLength (Layout.counted count ending).flags dLen byteMul =
      (dLen / byteMul - ending.extra, (Layout.counted count ending).flags &&& ~~~libndrFlagStrCharlen) := by
  cases count <;> cases ending <;> rfl

theorem ndrPushString_counted {count : Count} {ending : Ending} (h : HasFormat ndr.flags (.counted count ending) width)
    (hdest : convertStringTalloc .unix (width.chset (ndrBe ndr.flags)) (Layout.source (.counted count ending) s) = some dest) :
    ndrPushString ndr s = pushCounted count (dest.length / width.byteMul - ending.extra) dest ndr := by
  have hflags : (Layout.counted count ending).flags &&& ~~~libndrFlagStrCharlen &&& ~~~libndrFlagStrNoterm = count.flags := by
    cases count <;> cases ending <;> decide
  rw [ndrPushString, h.stringFormat]
  simp only [Layout.source_eq, hdest, countedLength_counted, hflags]
  cases count <;> rfl

theorem ndrPushString_bytesize (h : HasFormat ndr.flags .bytesize width)
    (hdest : convertStringTalloc .unix (width.chset (ndrBe ndr.flags)) (Layout.bytesize.source s) = some dest) :
    ndrPushString ndr s = pushCounted .size2 dest.length dest ndr := by
  have hlen : countedLength Layout.bytesize.flags dest.length width.byteMul =
      (dest.length, libndrFlagStrSize2 ||| libndrFlagStrNoterm) := rfl
  have hflags : (libndrFlagStrSize2 ||| libndrFlagStrNoterm) &&& ~~~libndrFlagStrNoterm = Count.size2.flags := by decide
  rw [ndrPushString, h.stringFormat]
  simp only [Layout.source_eq, hdest, hlen, hflags]
  rfl

theorem ndrPushString_nullterm (h : HasFormat ndr.flags .nullterm width)
    (hdest : convertStringTalloc .unix (width.chset (ndrBe ndr.flags)) (Layout.nullterm.source s) = some dest) :
    ndrPushString ndr s = ndrPushBytes ndr dest := by
  have hlen : countedLength Layout.nullterm.flags dest.length width.byteMul =
      (dest.length / width.byteMul, Layout.nullterm.flags) := rfl
  have hflags : Layout.nullterm.flags &&& ~~~libndrFlagStrNoterm = libndrFlagStrNullterm := by decide
  rw [ndrPushString, h.stringFormat]
  simp only [Layout.source_eq, hdest, hlen, hflags]
  rfl

theorem ndrPushString_fixed {fixLen : Nat} (h : HasFormat ndr.flags layout width) (hfixed : layout.fixed = some fixLen)
    (hdest : convertStringTalloc .unix (width.chset (ndrBe ndr.flags)) (layout.source s) = some dest) :
    ndrPushString ndr s = if dest.length > fixLen then .error .charcnv
      else do
        let ndr ← ndrPushBytes ndr dest
        if fixLen - dest.length ≠ 0 then ndrPushZero ndr (fixLen - dest.length) else return ndr := by
  have hlen : countedLength layout.flags dest.length width.byteMul = (dest.length / width.byteMul, layout.flags) := by
    cases layout with
    | fixlen15 => rfl
    | fixlen32 => rfl
    | _ => cases hfixed
  have hflags : layout.flags &&& ~~~libndrFlagStrNoterm = layout.flags := by
    cases layout with
    | fixlen15 => decide
    | fixlen32 => decide
    | _ => cases hfixed
  rw [ndrPushString, h.stringFormat]
  simp only [Layout.source_eq, hdest, hlen, hflags]
  cases layout with
  | fixlen15 =>
    obtain rfl := Option.some.inj hfixed
    rfl
  | fixlen32 =>
    obtain rfl := Option.some.inj hfixed
    rfl
  | _ => cases hfixed

end Push

section Pull

variable {ndr : NdrPull}

theorem ndrPullString_counted {count : Count} {ending : Ending} (h : HasFormat ndr.flags (.counted count ending) width)
    {len : Nat} {ndr' : NdrPull} (hcount : pullCount count ndr = .ok (len, ndr')) :
    ndrPullString ndr = ndrPullCounted ndr' (width.chset (ndrBe ndr.flags)) len ((len + ending.extra) * width.byteMul % 2 ^ 32) := by
  rw [ndrPullString, h.stringFormat]
  cases count with
  | size4 =>
    have hread : ndrPullUint32 ndr = .ok (len, ndr') := hcount
    cases ending <;> (simp only [hread]; rfl)
  | size2 =>
    have hread : ndrPullUint16 ndr = .ok (len, ndr') := hcount
    cases ending <;> (simp only [hread]; rfl)
  | len4 =>
    cases h₁ : ndrPullUint32 ndr with
    | error e =>
      rw [pullCount, h₁] at hcount
      cases hcount
    | ok res =>
      obtain ⟨ofs, ndr₁⟩ := res
      rw [pullCount, h₁] at hcount
      by_cases hofs : ofs = 0
      · subst hofs
        have h₂ : ndrPullUint32 ndr₁ = .ok (len, ndr') := hcount
        cases ending <;> (simp only [bind, Except.bind, h₂]; rfl)
      · rw [show (Except.ok (ofs, ndr₁) >>= _) = _ from if_pos hofs] at hcount
        cases hcount
  | len4Size4 =>
    cases h₁ : ndrPullUint32 ndr with
    | error e =>
      rw [pullCount, h₁] at hcount
      cases hcount
    | ok res =>
      obtain ⟨len1, ndr₁⟩ := res
      cases h₂ : ndrPullUint32 ndr₁ with
      | error e =>
        simp only [pullCount, h₁, h₂, bind, Except.bind] at hcount
        cases hcount
      | ok res =>
        obtain ⟨ofs, ndr₂⟩ := res
        simp only [pullCount, h₁, h₂, bind, Except.bind] at hcount
        by_cases hofs : ofs = 0
        · subst hofs
          cases h₃ : ndrPullUint32 ndr₂ with
          | error e =>
            simp only [h₃] at hcount
            cases hcount
          | ok res =>
            obtain ⟨len2, ndr₃⟩ := res
            simp only [h₃] at hcount
            by_cases hlen : len2 > len1
            · simp [hlen] at hcount
            · simp only [ne_eq, not_true_eq_false, if_false, if_neg hlen] at hcount
              obtain ⟨rfl, rfl⟩ := Prod.mk.inj (Except.ok.inj hcount)
              cases ending <;> (simp only [bind, Except.bind, h₂, h₃]; exact if_neg hlen)
        · rw [if_pos hofs] at hcount
          cases hcount

theorem ndrPullString_bytesize (h : HasFormat ndr.flags .bytesize width) {len : Nat} {ndr' : NdrPull}
    (hread : ndrPullUint16 ndr = .ok (len, ndr')) :
    ndrPullString ndr = ndrPullCounted ndr' (width.chset (ndrBe ndr.flags)) len len := by
  rw [ndrPullString, h.stringFormat]
  simp only [hread]
  rfl

theorem ndrPullString_nullterm (h : HasFormat ndr.flags .nullterm width) :
    ndrPullString ndr = ndrConvertBytes ndr (width.chset (ndrBe ndr.flags))
      (if width.byteMul = 1 then asciiLenN (ndr.data.drop ndr.offset) else utf16LenN (ndr.data.drop ndr.offset)) := by
  rw [ndrPullString, h.stringFormat]
  rfl

theorem ndrPullString_fixed {fixLen : Nat} (h : HasFormat ndr.flags layout width) (hfixed : layout.fixed = some fixLen) :
    ndrPullString ndr = (ndrPullNeedBytes ndr (fixLen * width.byteMul) >>= fun _ =>
      ndrConvertBytes ndr (width.chset (ndrBe ndr.flags)) (fixLen * width.byteMul)) := by
  rw [ndrPullString, h.stringFormat]
  cases layout with
  | fixlen15 =>
    obtain rfl := Option.some.inj hfixed
    rfl
  | fixlen32 =>
    obtain rfl := Option.some.inj hfixed
    rfl
  | _ => cases hfixed

end Pull

end Format

/-! ## The bytes of a string -/

/-- The words before a counted string. -/
def headerBytes (flags : BitVec 32) (count : Count) (cLen : Nat) : List UInt8 :=
  match count with
  | .len4Size4 => ordered flags (le32 cLen) ++ (ordered flags (le32 0) ++ ordered flags (le32 cLen))
  | .size4 => ordered flags (le32 cLen)
  | .len4 => ordered flags (le32 0) ++ ordered flags (le32 cLen)
  | .size2 => ordered flags ((le32 cLen).take 2)

/-- The lengths that fit into the field. -/
def Count.limit : Count → Nat
  | .size2 => 2 ^ 16
  | _ => 2 ^ 32

theorem pushCounted_fresh {flags : BitVec 32} {dest : List UInt8} (count : Count) (cLen : Nat)
    (hsize : dest.length + 12 + ndrBaseMarshallSize < maxTallocSize) :
    ∃ ndr', pushCounted count cLen dest (ndrPushInitCtx flags) = .ok ndr' ∧ ndr'.data = headerBytes flags count cLen ++ dest := by
  have hinit : (ndrPushInitCtx flags).data.length = 0 := rfl
  cases count with
  | len4Size4 =>
    obtain ⟨ndr₁, h₁, w₁⟩ := @ndrPushUint32_ok (ndrPushInitCtx flags) (by rw [hinit]; decide) (by rw [hinit]; decide) cLen
    have l₁ : ndr₁.data.length = 4 := by rw [w₁.data, length_append, hinit, length_ordered]; rfl
    obtain ⟨ndr₂, h₂, w₂⟩ := @ndrPushUint32_ok ndr₁ (by rw [l₁]) (by rw [l₁]; decide) 0
    have l₂ : ndr₂.data.length = 8 := by rw [w₂.data, length_append, l₁, length_ordered]; rfl
    obtain ⟨ndr₃, h₃, w₃⟩ := @ndrPushUint32_ok ndr₂ (by rw [l₂]; decide) (by rw [l₂]; decide) cLen
    have l₃ : ndr₃.data.length = 12 := by rw [w₃.data, length_append, l₂, length_ordered]; rfl
    obtain ⟨ndr₄, h₄⟩ := @ndrPushBytes_ok ndr₃ dest (by omega)
    refine ⟨ndr₄, by simp only [pushCounted, h₁, h₂, h₃, bind, Except.bind, h₄], ?_⟩
    have w := (((w₁.trans w₂).trans w₃).trans (writes_of_bytes h₄)).data
    rw [w, w₂.flags, w₁.flags]
    simp [ndrPushInitCtx, headerBytes]
  | len4 =>
    obtain ⟨ndr₁, h₁, w₁⟩ := @ndrPushUint32_ok (ndrPushInitCtx flags) (by rw [hinit]; decide) (by rw [hinit]; decide) 0
    have l₁ : ndr₁.data.length = 4 := by rw [w₁.data, length_append, hinit, length_ordered]; rfl
    obtain ⟨ndr₂, h₂, w₂⟩ := @ndrPushUint32_ok ndr₁ (by rw [l₁]) (by rw [l₁]; decide) cLen
    have l₂ : ndr₂.data.length = 8 := by rw [w₂.data, length_append, l₁, length_ordered]; rfl
    obtain ⟨ndr₃, h₃⟩ := @ndrPushBytes_ok ndr₂ dest (by omega)
    refine ⟨ndr₃, by simp only [pushCounted, h₁, h₂, bind, Except.bind, h₃], ?_⟩
    have w := ((w₁.trans w₂).trans (writes_of_bytes h₃)).data
    rw [w, w₁.flags]
    simp [ndrPushInitCtx, headerBytes]
  | size4 =>
    obtain ⟨ndr₁, h₁, w₁⟩ := @ndrPushUint32_ok (ndrPushInitCtx flags) (by rw [hinit]; decide) (by rw [hinit]; decide) cLen
    have l₁ : ndr₁.data.length = 4 := by rw [w₁.data, length_append, hinit, length_ordered]; rfl
    obtain ⟨ndr₂, h₂⟩ := @ndrPushBytes_ok ndr₁ dest (by omega)
    refine ⟨ndr₂, by simp only [pushCounted, h₁, bind, Except.bind, h₂], ?_⟩
    rw [(w₁.trans (writes_of_bytes h₂)).data]
    rfl
  | size2 =>
    obtain ⟨ndr₁, h₁, w₁⟩ := @ndrPushUint16_ok (ndrPushInitCtx flags) (by rw [hinit]; decide) (by rw [hinit]; decide) cLen
    have l₁ : ndr₁.data.length = 2 := by
      rw [w₁.data, length_append, hinit, length_ordered, length_take, length_le32]
      rfl
    obtain ⟨ndr₂, h₂⟩ := @ndrPushBytes_ok ndr₁ dest (by omega)
    refine ⟨ndr₂, by simp only [pushCounted, h₁, bind, Except.bind, h₂], ?_⟩
    rw [(w₁.trans (writes_of_bytes h₂)).data]
    rfl

theorem pullCount_header {flags : BitVec 32} {count : Count} {cLen : Nat} (hlimit : cLen < count.limit) (rest : List UInt8) :
    pullCount count ⟨flags, headerBytes flags count cLen ++ rest, 0⟩ =
      .ok (cLen, ⟨flags, headerBytes flags count cLen ++ rest, (headerBytes flags count cLen).length⟩) := by
  have hword : ∀ v, (ordered flags (le32 v)).length = 4 := fun v => by rw [length_ordered, length_le32]
  cases count with
  | len4Size4 =>
    have h₁ := @ndrPullUint32_of_dvd flags [] (ordered flags (le32 0) ++ (ordered flags (le32 cLen) ++ rest)) cLen (by decide) hlimit
    have h₂ := @ndrPullUint32_of_dvd flags (ordered flags (le32 cLen)) (ordered flags (le32 cLen) ++ rest) 0
      (by rw [hword]) (by decide)
    have h₃ := @ndrPullUint32_of_dvd flags (ordered flags (le32 cLen) ++ ordered flags (le32 0)) rest cLen
      (by rw [length_append, hword, hword]; decide) hlimit
    rw [length_append, hword, hword, append_assoc] at h₃
    rw [hword] at h₂
    simp only [nil_append, length_nil, Nat.zero_add] at h₁
    simp only [pullCount, headerBytes, append_assoc, length_append, hword, h₁, h₂, h₃, bind, Except.bind, pure, Except.pure,
      ne_eq, not_true_eq_false, if_false, gt_iff_lt, Nat.lt_irrefl]
  | len4 =>
    have h₁ := @ndrPullUint32_of_dvd flags [] (ordered flags (le32 cLen) ++ rest) 0 (by decide) (by decide)
    have h₂ := @ndrPullUint32_of_dvd flags (ordered flags (le32 0)) rest cLen (by rw [hword]) hlimit
    rw [hword] at h₂
    simp only [nil_append, length_nil, Nat.zero_add] at h₁
    simp only [pullCount, headerBytes, append_assoc, length_append, hword, h₁, h₂, bind, Except.bind, ne_eq,
      not_true_eq_false, if_false]
  | size4 =>
    have h₁ := @ndrPullUint32_of_dvd flags [] rest cLen (by decide) hlimit
    simp only [nil_append, length_nil, Nat.zero_add] at h₁
    rw [pullCount, headerBytes, h₁, hword]
  | size2 =>
    have h₁ := @ndrPullUint16_of_dvd flags [] rest cLen (by decide) hlimit
    simp only [nil_append, length_nil, Nat.zero_add] at h₁
    rw [pullCount, headerBytes, h₁, length_ordered, length_take, length_le32]
    rfl

/-- What is written before the bytes of a string. -/
def Layout.header (flags : BitVec 32) (width : Width) (dest : List UInt8) : Layout → List UInt8
  | .counted count ending => headerBytes flags count (dest.length / width.byteMul - ending.extra)
  | .bytesize => headerBytes flags .size2 dest.length
  | _ => []

/-- What is written behind them. -/
def Layout.padding (layout : Layout) (dest : List UInt8) : List UInt8 :=
  match layout.fixed with
  | some fixLen => List.replicate (fixLen - dest.length) 0
  | none => []

/-- The field has room for the string, or for its length. -/
def Layout.Fits (width : Width) (dest : List UInt8) : Layout → Prop
  | .counted count ending => dest.length / width.byteMul - ending.extra < count.limit
  | .bytesize => dest.length < 2 ^ 16
  | .nullterm => True
  | .fixlen15 => dest.length ≤ 15
  | .fixlen32 => dest.length ≤ 32

section Bytes

variable {flags : BitVec 32} {layout : Layout} {width : Width} {s : Text} {dest : List UInt8}

theorem length_pushInit (flags : BitVec 32) : (ndrPushInitCtx flags).data.length = 0 := rfl

/-- What `ndr_push_string` writes into a fresh context. -/
theorem ndrPushString_fresh (h : HasFormat flags layout width)
    (hdest : convertStringTalloc .unix (width.chset (ndrBe flags)) (layout.source s) = some dest)
    (hfits : layout.Fits width dest) (hsize : dest.length + 12 + ndrBaseMarshallSize < maxTallocSize) :
    ∃ ndr', ndrPushString (ndrPushInitCtx flags) s = .ok ndr' ∧
      ndr'.data = layout.header flags width dest ++ (dest ++ layout.padding dest) := by
  have hfixed : ∀ fixLen, layout.fixed = some fixLen → fixLen ≤ 32 → dest.length ≤ fixLen →
      ∃ ndr', ndrPushString (ndrPushInitCtx flags) s = .ok ndr' ∧ ndr'.data = dest ++ layout.padding dest := by
    intro fixLen hl hsmall hle
    rw [@ndrPushString_fixed layout width (ndrPushInitCtx flags) s dest fixLen h hl hdest, if_neg (Nat.not_lt.mpr hle),
      Layout.padding, hl]
    obtain ⟨ndr₁, h₁⟩ := @ndrPushBytes_ok (ndrPushInitCtx flags) dest (by rw [length_pushInit]; omega)
    have w₁ := writes_of_bytes h₁
    have l₁ : ndr₁.data = dest := w₁.data
    simp only [h₁, bind, Except.bind]
    by_cases hpad : fixLen - dest.length ≠ 0
    · rw [if_pos hpad]
      obtain ⟨ndr₂, h₂⟩ := @ndrPushBytes_ok ndr₁ (List.replicate (fixLen - dest.length) 0) (by
        rw [l₁, length_replicate]
        unfold ndrBaseMarshallSize maxTallocSize
        omega)
      exact ⟨ndr₂, h₂, by rw [(writes_of_bytes h₂).data, l₁]⟩
    · rw [if_neg hpad]
      refine ⟨ndr₁, rfl, ?_⟩
      rw [l₁, not_not.mp hpad, replicate_zero, append_nil]
  cases layout with
  | counted count ending =>
    rw [@ndrPushString_counted width (ndrPushInitCtx flags) s dest count ending h hdest]
    obtain ⟨ndr', hok, hdata⟩ := @pushCounted_fresh flags dest count (dest.length / width.byteMul - ending.extra) hsize
    exact ⟨ndr', hok, by rw [hdata]; simp [Layout.header, Layout.padding, Layout.fixed]⟩
  | bytesize =>
    rw [@ndrPushString_bytesize width (ndrPushInitCtx flags) s dest h hdest]
    obtain ⟨ndr', hok, hdata⟩ := @pushCounted_fresh flags dest .size2 dest.length hsize
    exact ⟨ndr', hok, by rw [hdata]; simp [Layout.header, Layout.padding, Layout.fixed]⟩
  | nullterm =>
    rw [@ndrPushString_nullterm width (ndrPushInitCtx flags) s dest h hdest]
    obtain ⟨ndr', hok⟩ := @ndrPushBytes_ok (ndrPushInitCtx flags) dest (by rw [length_pushInit]; omega)
    exact ⟨ndr', hok, by rw [(writes_of_bytes hok).data]; simp [ndrPushInitCtx, Layout.header, Layout.padding, Layout.fixed]⟩
  | fixlen15 => exact hfixed 15 rfl (by decide) hfits
  | fixlen32 => exact hfixed 32 rfl le_rfl hfits

variable {bytes more pre : List UInt8} {n : Nat}

theorem ndrPullAdvance_eq (hn : n = bytes.length) : ndrPullAdvance ⟨flags, pre ++ (bytes ++ more), pre.length⟩ n =
      .ok ⟨flags, pre ++ (bytes ++ more), (pre ++ bytes).length⟩ := by
  subst hn
  rw [length_append]
  exact if_neg (by simp)

/-- Bytes that stand at the offset are converted. -/
theorem ndrConvertBytes_eq {pre bytes more : List UInt8} {chset : CharsetT} {n : Nat} (hn : n = bytes.length) :
    ndrConvertBytes ⟨flags, pre ++ (bytes ++ more), pre.length⟩ chset n =
      match convertStringTalloc chset .unix bytes with
      | none => .error .charcnv
      | some as => .ok (cstr as, ⟨flags, pre ++ (bytes ++ more), (pre ++ bytes).length⟩) := by
  subst hn
  rw [ndrConvertBytes]
  rw [drop_left' rfl, take_left' rfl]
  cases convertStringTalloc chset .unix bytes with
  | none => rfl
  | some as =>
    rw [ndrPullAdvance_eq rfl]
    rfl

theorem ndrPullNeedBytes_eq (hn : n = bytes.length) :
    ndrPullNeedBytes ⟨flags, pre ++ (bytes ++ more), pre.length⟩ n = .ok () := by
  subst hn
  exact if_neg (by simp; omega)

theorem ndrPullCounted_eq {chset : CharsetT} {len : Nat} (hn : n = bytes.length) :
    ndrPullCounted ⟨flags, pre ++ (bytes ++ more), pre.length⟩ chset len n =
      if len = 0 then .ok ([], ⟨flags, pre ++ (bytes ++ more), (pre ++ bytes).length⟩)
      else match convertStringTalloc chset .unix bytes with
        | none => .error .charcnv
        | some as => .ok (cstr as, ⟨flags, pre ++ (bytes ++ more), (pre ++ bytes).length⟩) := by
  rw [ndrPullCounted, ndrPullNeedBytes_eq hn]
  split
  · rw [ndrPullAdvance_eq hn]
    rfl
  · exact ndrConvertBytes_eq hn

/-- The length that is read. -/
def Layout.counts (width : Width) (dest : List UInt8) : Layout → Option Nat
  | .counted _ ending => some (dest.length / width.byteMul - ending.extra)
  | .bytesize => some dest.length
  | _ => none

/-- What `ndr_pull_string` reads from the bytes that were written. -/
theorem ndrPullString_written (h : HasFormat flags layout width) (hfits : layout.Fits width dest) (hne : dest ≠ [])
    (hmul : width.byteMul ∣ dest.length) (hsize : dest.length < 2 ^ 32) (more : List UInt8)
    (hterm : layout = .nullterm → (if width.byteMul = 1 then asciiLenN (dest ++ more) else utf16LenN (dest ++ more)) = dest.length) :
    ndrPullString ⟨flags, layout.header flags width dest ++ ((dest ++ layout.padding dest) ++ more), 0⟩ =
      if layout.counts width dest = some 0 then
        .ok ([], ⟨flags, layout.header flags width dest ++ ((dest ++ layout.padding dest) ++ more),
          (layout.header flags width dest ++ (dest ++ layout.padding dest)).length⟩)
      else match convertStringTalloc (width.chset (ndrBe flags)) .unix (dest ++ layout.padding dest) with
        | none => .error .charcnv
        | some as => .ok (cstr as, ⟨flags, layout.header flags width dest ++ ((dest ++ layout.padding dest) ++ more),
            (layout.header flags width dest ++ (dest ++ layout.padding dest)).length⟩) := by
  have hfixed : ∀ fixLen, layout.fixed = some fixLen → dest.length ≤ fixLen →
      ndrPullString ⟨flags, [] ++ ((dest ++ layout.padding dest) ++ more), ([] : List UInt8).length⟩ =
        match convertStringTalloc (width.chset (ndrBe flags)) .unix (dest ++ layout.padding dest) with
        | none => .error .charcnv
        | some as => .ok (cstr as, ⟨flags, [] ++ ((dest ++ layout.padding dest) ++ more), ([] ++ (dest ++ layout.padding dest)).length⟩) := by
    intro fixLen hl hle
    have hone : width.byteMul = 1 := by
      have hwidth := h.fixed (by rw [hl]; nofun)
      cases width with
      | wide => exact absurd rfl hwidth
      | ascii => rfl
      | utf8 => rfl
    have hlen : fixLen * width.byteMul = (dest ++ layout.padding dest).length := by
      rw [hone, Layout.padding, hl, length_append, length_replicate]
      omega
    rw [@ndrPullString_fixed layout width ⟨flags, [] ++ ((dest ++ layout.padding dest) ++ more), ([] : List UInt8).length⟩ fixLen h hl,
      ndrPullNeedBytes_eq hlen]
    exact ndrConvertBytes_eq hlen
  cases layout with
  | counted count ending =>
    have hpull := @ndrPullString_counted width
      ⟨flags, headerBytes flags count (dest.length / width.byteMul - ending.extra) ++ (dest ++ [] ++ more), 0⟩ count ending h _ _
      (pullCount_header hfits _)
    have hlen : (dest.length / width.byteMul - ending.extra + ending.extra) * width.byteMul % 2 ^ 32 = (dest ++ []).length := by
      have hpos := length_pos_of_ne_nil hne
      have hdiv := Nat.div_mul_cancel hmul
      have hextra : ending.extra ≤ 1 := by cases ending <;> decide
      have hquot : 0 < dest.length / width.byteMul := by
        rw [Nat.pos_iff_ne_zero]
        intro hzero
        rw [hzero, Nat.zero_mul] at hdiv
        omega
      rw [append_nil, Nat.sub_add_cancel (by omega), hdiv, Nat.mod_eq_of_lt hsize]
    rw [ndrPullCounted_eq hlen] at hpull
    simpa [Layout.header, Layout.padding, Layout.fixed, Layout.counts] using hpull
  | bytesize =>
    have hpull := @ndrPullString_bytesize width ⟨flags, headerBytes flags .size2 dest.length ++ (dest ++ [] ++ more), 0⟩ h _ _
      (@pullCount_header flags .size2 dest.length hfits _)
    rw [ndrPullCounted_eq (by rw [append_nil])] at hpull
    simpa [Layout.header, Layout.padding, Layout.fixed, Layout.counts] using hpull
  | nullterm =>
    have hpull := @ndrPullString_nullterm width ⟨flags, [] ++ (dest ++ more), ([] : List UInt8).length⟩ h
    rw [length_nil, drop_zero, nil_append, hterm rfl] at hpull
    have hconv := @ndrConvertBytes_eq flags [] dest more (width.chset (ndrBe flags)) _ rfl
    rw [nil_append, length_nil] at hconv
    rw [hconv] at hpull
    simpa [Layout.header, Layout.padding, Layout.fixed, Layout.counts] using hpull
  | fixlen15 => exact hfixed 15 rfl hfits
  | fixlen32 => exact hfixed 32 rfl hfits

end Bytes

/-! ## Strings that come back -/

/-- The scalar values that are written, with the terminator. -/
def Layout.units (layout : Layout) (ns : List Nat) : List Nat := if layout.terminated then ns ++ [0] else ns

section Strings

variable {ns : List Nat} {n : Nat}

theorem ofNat_ne_zero {m : Nat} (h : m % 256 ≠ 0) : (0 : UInt8) ≠ UInt8.ofNat m := by
  intro heq
  have := congrArg UInt8.toNat heq
  exact h this.symm

theorem zero_notMem_utf8Bytes (h : Scalar n) (hne : n ≠ 0) : (0 : UInt8) ∉ utf8Bytes n := by
  unfold Scalar at h
  unfold utf8Bytes
  intro hmem
  split at hmem
  · exact ofNat_ne_zero (by omega) (mem_singleton.mp hmem)
  split at hmem
  · rcases mem_cons.mp hmem with h0 | hmem
    · exact ofNat_ne_zero (by omega) h0
    · exact ofNat_ne_zero (by omega) (mem_singleton.mp hmem)
  split at hmem
  · rcases mem_cons.mp hmem with h0 | hmem
    · exact ofNat_ne_zero (by omega) h0
    rcases mem_cons.mp hmem with h0 | hmem
    · exact ofNat_ne_zero (by omega) h0
    · exact ofNat_ne_zero (by omega) (mem_singleton.mp hmem)
  · rcases mem_cons.mp hmem with h0 | hmem
    · exact ofNat_ne_zero (by omega) h0
    rcases mem_cons.mp hmem with h0 | hmem
    · exact ofNat_ne_zero (by omega) h0
    rcases mem_cons.mp hmem with h0 | hmem
    · exact ofNat_ne_zero (by omega) h0
    · exact ofNat_ne_zero (by omega) (mem_singleton.mp hmem)

theorem zero_notMem_utf8 (h : ∀ n ∈ ns, Scalar n ∧ n ≠ 0) : (0 : UInt8) ∉ ns.flatMap utf8Bytes := fun hmem => by
  obtain ⟨n, hn, hzero⟩ := mem_flatMap.mp hmem
  exact zero_notMem_utf8Bytes (h n hn).1 (h n hn).2 hzero

theorem flatMap_zeros (k : Nat) : (List.replicate k 0).flatMap utf8Bytes = List.replicate k 0 := by
  induction k with
  | zero => rfl
  | succ k ih =>
    rw [replicate_succ, flatMap_cons, ih]
    rfl

/-- A string is what stands before its first zero. -/
theorem cstr_utf8 (h : ∀ n ∈ ns, Scalar n ∧ n ≠ 0) (k : Nat) :
    cstr ((ns ++ List.replicate k 0).flatMap utf8Bytes) = ns.flatMap utf8Bytes := by
  rw [flatMap_append, flatMap_zeros, cstr_append (zero_notMem_utf8 h)]
  cases k with
  | zero => exact append_nil _
  | succ k =>
    exact append_nil _

theorem asciiLenN_terminated (h : ∀ n ∈ ns, Scalar n ∧ n ≠ 0) (more : List UInt8) :
    asciiLenN ((ns ++ [0]).flatMap utf8Bytes ++ more) = ((ns ++ [0]).flatMap utf8Bytes).length := by
  have hcstr : cstr ((ns ++ [0]).flatMap utf8Bytes ++ more) = ns.flatMap utf8Bytes := by
    rw [flatMap_append, append_assoc, cstr_append (zero_notMem_utf8 h)]
    exact append_nil _
  have hlen : ((ns ++ [0]).flatMap utf8Bytes).length = (ns.flatMap utf8Bytes).length + 1 := by
    rw [flatMap_append, length_append]
    rfl
  rw [asciiLenN, hcstr, length_append, hlen, if_pos (by omega)]

theorem utf16Units_unit {a b : UInt8} (h : ¬(a = 0 ∧ b = 0)) {rest : List UInt8} (hrest : rest ≠ []) :
    utf16Units (a :: b :: rest) = 2 + utf16Units rest := by
  obtain ⟨c, rest, rfl⟩ := exists_cons_of_ne_nil hrest
  rw [utf16Units, if_neg h]

theorem utf16Units_char (h : Scalar n) (hne : n ≠ 0) {rest : List UInt8} (hrest : rest ≠ []) :
    utf16Units (utf16leBytes n ++ rest) = (utf16leBytes n).length + utf16Units rest ∧
      utf16Units (swabBytes (utf16leBytes n) ++ rest) = (utf16leBytes n).length + utf16Units rest := by
  unfold Scalar at h
  unfold utf16leBytes
  split
  · have hunit : ¬(UInt8.ofNat n = 0 ∧ UInt8.ofNat (n / 256) = 0) := by
      rintro ⟨hlow, hhigh⟩
      have hl := congrArg UInt8.toNat hlow
      have hh := congrArg UInt8.toNat hhigh
      rw [UInt8.toNat_ofNat', UInt8.toNat_zero] at hl hh
      omega
    exact ⟨utf16Units_unit hunit hrest, utf16Units_unit (fun hzero => hunit hzero.symm) hrest⟩
  · have hhigh : UInt8.ofNat (0xD8 + (n - 0x10000) / 262144) ≠ 0 := (ofNat_ne_zero (by omega)).symm
    have hlow : UInt8.ofNat (0xDC + (n - 0x10000) / 256 % 4) ≠ 0 := (ofNat_ne_zero (by omega)).symm
    have hpair : ∀ a b c d : UInt8, ¬(a = 0 ∧ b = 0) → ¬(c = 0 ∧ d = 0) →
        utf16Units ([a, b, c, d] ++ rest) = 4 + utf16Units rest := by
      intro a b c d hab hcd
      rw [cons_append, cons_append, utf16Units_unit hab (by simp), cons_append, cons_append, nil_append,
        utf16Units_unit hcd hrest]
      omega
    exact ⟨hpair _ _ _ _ (fun hzero => hhigh hzero.2) (fun hzero => hlow hzero.2),
      hpair _ _ _ _ (fun hzero => hhigh hzero.1) (fun hzero => hlow hzero.1)⟩

theorem swabBytes_flatMap (ns : List Nat) :
    swabBytes (ns.flatMap utf16leBytes) = ns.flatMap fun n => swabBytes (utf16leBytes n) := by
  induction ns with
  | nil => rfl
  | cons n ns ih =>
    have heven := even_length_utf16le [n]
    rw [flatMap_singleton] at heven
    rw [flatMap_cons, swabBytes_append heven, ih, flatMap_cons]

theorem utf16LenN_terminated {f : Nat → List UInt8}
    (hunit : ∀ n ∈ ns, ∀ rest, rest ≠ [] → utf16Units (f n ++ rest) = (f n).length + utf16Units rest) (hzero : f 0 = [0, 0])
    (more : List UInt8) : utf16LenN ((ns ++ [0]).flatMap f ++ more) = ((ns ++ [0]).flatMap f).length := by
  have hunits : utf16Units ((ns ++ [0]).flatMap f ++ more) = (ns.flatMap f).length := by
    induction ns with
    | nil =>
      rw [nil_append, flatMap_singleton, hzero]
      cases more with
      | nil => rfl
      | cons c more => exact if_pos ⟨rfl, rfl⟩
    | cons n ns ih =>
      have hne : (ns ++ [0]).flatMap f ++ more ≠ [] := by
        rw [flatMap_append, flatMap_singleton, hzero]
        simp
      rw [cons_append, flatMap_cons, append_assoc, hunit n mem_cons_self _ hne,
        ih fun m hm => hunit m (mem_cons_of_mem _ hm), flatMap_cons, length_append]
  have hwhole : ((ns ++ [0]).flatMap f).length = (ns.flatMap f).length + 2 := by
    rw [flatMap_append, length_append, flatMap_singleton, hzero]
    rfl
  rw [utf16LenN, hunits, length_append, hwhole, if_pos (by omega)]

end Strings

/-- The string comes back from the bytes that are written, whatever stands behind them. -/
def RoundTrips (flags : BitVec 32) (s : Text) : Prop :=
  ∃ ndr', ndrPushString (ndrPushInitCtx flags) s = .ok ndr' ∧
    ∀ more, ndrPullString ⟨flags, ndr'.data ++ more, 0⟩ = .ok (s, ⟨flags, ndr'.data ++ more, ndr'.data.length⟩)

/-- There is something to convert, there is memory for three times of it, and the buffer of `smb_iconv` does not cut a pair of
UTF-16BE in two. -/
structure Survives (flags : BitVec 32) (layout : Layout) (width : Width) (ns : List Nat) : Prop where
  terminated : ns = [] → layout.terminated = true
  memory : 2 + ((layout.units ns).flatMap utf8Bytes).length * 3 < maxTallocSize
  encodedMemory : 2 + (encode (width.chset (ndrBe flags)) (layout.units ns)).length * 3 < maxTallocSize
  uncut : width = .wide → ndrBe flags = true → ¬CutAt (layout.units ns)

section Written

variable {flags : BitVec 32} {layout : Layout} {width : Width} {ns : List Nat}

theorem Width.chset_ne_unix (width : Width) (be : Bool) : width.chset be ≠ .unix := by
  cases width <;> cases be <;> decide

theorem Width.chset_utf16be {be : Bool} (h : width.chset be = .utf16be) : width = .wide ∧ be = true := by
  cases width <;> cases be <;> first | exact ⟨rfl, rfl⟩ | cases h

theorem Layout.source_units (layout : Layout) (ns : List Nat) :
    layout.source (ns.flatMap utf8Bytes) = (layout.units ns).flatMap utf8Bytes := by
  unfold Layout.source Layout.units
  split
  · rw [flatMap_append]
    rfl
  · rfl

theorem inSet_zero (set : CharsetT) : InSet set 0 := ⟨by decide, fun _ => by decide⟩

theorem inSet_units (h : ∀ n ∈ ns, InSet (width.chset (ndrBe flags)) n) :
    ∀ n ∈ layout.units ns, InSet (width.chset (ndrBe flags)) n := by
  unfold Layout.units
  split
  · intro n hn
    rcases mem_append.mp hn with hn | hn
    · exact h n hn
    · rw [mem_singleton.mp hn]
      exact inSet_zero _
  · exact h

theorem length_encode (width : Width) (be : Bool) (ns : List Nat) :
    (encode (width.chset be) ns).length = (match width with
      | .wide => ns.flatMap utf16leBytes
      | _ => ns.flatMap utf8Bytes).length := by
  cases width with
  | wide =>
    cases be with
    | true => exact length_swabBytes _
    | false => rfl
  | ascii => rfl
  | utf8 => rfl

theorem byteMul_dvd (width : Width) (be : Bool) (ns : List Nat) : width.byteMul ∣ (encode (width.chset be) ns).length := by
  rw [length_encode]
  cases width with
  | wide => exact even_length_utf16le ns
  | ascii => exact one_dvd _
  | utf8 => exact one_dvd _

theorem byteMul_le {n : Nat} (width : Width) (be : Bool) (ns : List Nat) :
    (encode (width.chset be) (n :: ns)).length ≥ width.byteMul + (encode (width.chset be) ns).length := by
  rw [length_encode, length_encode]
  have h8 := length_utf8Bytes_pos n
  have h16 := length_utf16leBytes n
  cases width with
  | wide =>
    show ((n :: ns).flatMap utf16leBytes).length ≥ 2 + (ns.flatMap utf16leBytes).length
    rw [flatMap_cons, length_append, h16]
    split <;> omega
  | ascii =>
    show ((n :: ns).flatMap utf8Bytes).length ≥ 1 + (ns.flatMap utf8Bytes).length
    rw [flatMap_cons, length_append]
    omega
  | utf8 =>
    show ((n :: ns).flatMap utf8Bytes).length ≥ 1 + (ns.flatMap utf8Bytes).length
    rw [flatMap_cons, length_append]
    omega

theorem encode_nil (set : CharsetT) : encode set [] = [] := by cases set <;> rfl

theorem encode_ne_nil (be : Bool) (hne : ns ≠ []) : encode (width.chset be) ns ≠ [] := by
  obtain ⟨n, ns, rfl⟩ := exists_cons_of_ne_nil hne
  intro hnil
  have hle := @byteMul_le n width be ns
  have hpos : 0 < width.byteMul := by cases width <;> decide
  rw [hnil, length_nil] at hle
  omega

/-- What is converted back: the string and zeros. -/
theorem padded_units (h : HasFormat flags layout width) :
    ∃ k, encode (width.chset (ndrBe flags)) (layout.units ns) ++
        layout.padding (encode (width.chset (ndrBe flags)) (layout.units ns)) =
        encode (width.chset (ndrBe flags)) (ns ++ List.replicate k 0) ∧
      (layout.fixed = none → ns ++ List.replicate k 0 = layout.units ns) := by
  cases hl : layout.fixed with
  | none =>
    refine ⟨if layout.terminated then 1 else 0, ?_, fun _ => ?_⟩
    · rw [Layout.padding, hl, append_nil, Layout.units]
      split <;> simp
    · rw [Layout.units]
      split <;> simp
  | some fixLen =>
    have hunits : layout.units ns = ns := by
      cases layout with
      | fixlen15 => rfl
      | fixlen32 => rfl
      | _ => cases hl
    refine ⟨fixLen - (encode (width.chset (ndrBe flags)) ns).length, ?_, nofun⟩
    have hwidth := h.fixed (by rw [hl]; nofun)
    have hflat : ∀ ms, encode (width.chset (ndrBe flags)) ms = ms.flatMap utf8Bytes := by
      intro ms
      cases width with
      | wide => exact absurd rfl hwidth
      | ascii => rfl
      | utf8 => rfl
    rw [hunits, Layout.padding, hl, hflat (ns ++ _), flatMap_append, flatMap_zeros, ← hflat ns]

theorem terminator_found (hns : ∀ n ∈ ns, InSet (width.chset (ndrBe flags)) n ∧ n ≠ 0) (more : List UInt8) :
    (if width.byteMul = 1 then asciiLenN (encode (width.chset (ndrBe flags)) (ns ++ [0]) ++ more)
      else utf16LenN (encode (width.chset (ndrBe flags)) (ns ++ [0]) ++ more)) =
      (encode (width.chset (ndrBe flags)) (ns ++ [0])).length := by
  have hs : ∀ n ∈ ns, Scalar n ∧ n ≠ 0 := fun n hn => ⟨(hns n hn).1.1, (hns n hn).2⟩
  cases width with
  | wide =>
    cases ndrBe flags with
    | false =>
      exact utf16LenN_terminated (fun n hn rest hrest => (utf16Units_char (hs n hn).1 (hs n hn).2 hrest).1) rfl more
    | true =>
      show utf16LenN (swabBytes ((ns ++ [0]).flatMap utf16leBytes) ++ more) = (swabBytes ((ns ++ [0]).flatMap utf16leBytes)).length
      rw [swabBytes_flatMap]
      refine utf16LenN_terminated (fun n hn rest hrest => ?_) rfl more
      rw [length_swabBytes]
      exact (utf16Units_char (hs n hn).1 (hs n hn).2 hrest).2
  | ascii => exact asciiLenN_terminated hs more
  | utf8 => exact asciiLenN_terminated hs more

theorem counts_eq_zero (hne : layout.units ns ≠ [])
    (hcount : layout.counts width (encode (width.chset (ndrBe flags)) (layout.units ns)) = some 0) :
    ns = [] ∧ layout.terminated = true := by
  have hmul : 0 < width.byteMul := by cases width <;> decide
  have hquot : ∀ ms, ms ≠ [] → 0 < (encode (width.chset (ndrBe flags)) ms).length / width.byteMul := by
    intro ms hms
    obtain ⟨m, ms, rfl⟩ := exists_cons_of_ne_nil hms
    have hle := @byteMul_le m width (ndrBe flags) ms
    exact Nat.div_pos (by omega) hmul
  cases layout with
  | counted count ending =>
    have hzero := Option.some.inj hcount
    have hpos := hquot _ hne
    cases ending with
    | charlen =>
      refine ⟨?_, rfl⟩
      by_contra hns
      obtain ⟨n, ns, rfl⟩ := exists_cons_of_ne_nil hns
      have hle := @byteMul_le n width (ndrBe flags) (ns ++ [0])
      have hle' := @byteMul_le 0 width (ndrBe flags) []
      have hmono : (encode (width.chset (ndrBe flags)) (ns ++ [0])).length ≥ width.byteMul := by
        cases ns with
        | nil => exact (Nat.le_add_right _ _).trans hle'
        | cons m ms => exact (Nat.le_add_right _ _).trans (@byteMul_le m width (ndrBe flags) (ms ++ [0]))
      have htwo : 2 ≤ (encode (width.chset (ndrBe flags)) (n :: ns ++ [0])).length / width.byteMul := by
        rw [Nat.le_div_iff_mul_le hmul]
        exact le_trans (by omega) hle
      rw [Layout.units, if_pos (show Layout.terminated (.counted count .charlen) = true from rfl)] at hzero
      exact absurd hzero (by rw [show Ending.charlen.extra = 1 from rfl]; omega)
    | counted => exact absurd hzero hpos.ne'
    | noterm => exact absurd hzero hpos.ne'
  | bytesize =>
    have hzero := Option.some.inj hcount
    exact absurd (eq_nil_of_length_eq_zero hzero) (encode_ne_nil _ hne)
  | _ => cases hcount

/-- A fixed field, or the empty string, is small and has no pairs. -/
theorem small_encoding (h : HasFormat flags layout width)
    (hfits : layout.Fits width (encode (width.chset (ndrBe flags)) (layout.units ns)))
    (hsmall : layout.fixed ≠ none ∨ ns = []) :
    2 + (encode (width.chset (ndrBe flags)) (layout.units ns)).length * 3 < maxTallocSize ∧
      (width = .wide → ndrBe flags = true → ¬CutAt (layout.units ns)) := by
  have hmax : maxTallocSize = 0x10000000 := rfl
  rcases hsmall with hfixed | rfl
  · have hlen : (encode (width.chset (ndrBe flags)) (layout.units ns)).length ≤ 32 := by
      cases layout with
      | fixlen15 => exact le_trans hfits (by decide)
      | fixlen32 => exact hfits
      | _ => exact absurd rfl hfixed
    exact ⟨by omega, fun hwide => absurd hwide (h.fixed hfixed)⟩
  · have hunits : layout.units [] = [] ∨ layout.units [] = [0] := by
      unfold Layout.units
      split
      · exact .inr rfl
      · exact .inl rfl
    have hlen : (encode (width.chset (ndrBe flags)) (layout.units [])).length ≤ 2 ∧
        ((layout.units []).flatMap utf16leBytes).length ≤ 2 := by
      rw [length_encode]
      rcases hunits with hu | hu <;> rw [hu] <;> cases width <;> exact ⟨by decide, by decide⟩
    refine ⟨by omega, fun _ _ ⟨k, hk, _⟩ => ?_⟩
    have hle := cvtbufSize_le_mul k
    have hcap : cvtbufSize = 2048 := rfl
    omega

/-- What is read back once the string has been written. -/
theorem written_read (h : HasFormat flags layout width) (hns : ∀ n ∈ ns, InSet (width.chset (ndrBe flags)) n ∧ n ≠ 0)
    (hfits : layout.Fits width (encode (width.chset (ndrBe flags)) (layout.units ns))) (hne : layout.units ns ≠ [])
    (hmemory : 2 + ((layout.units ns).flatMap utf8Bytes).length * 3 < maxTallocSize) :
    ∃ ndr', ndrPushString (ndrPushInitCtx flags) (ns.flatMap utf8Bytes) = .ok ndr' ∧
      ∀ more, ndrPullString ⟨flags, ndr'.data ++ more, 0⟩ = .ok (ns.flatMap utf8Bytes, ⟨flags, ndr'.data ++ more, ndr'.data.length⟩) ↔
        2 + (encode (width.chset (ndrBe flags)) (layout.units ns)).length * 3 < maxTallocSize ∧
          (width = .wide → ndrBe flags = true → ¬CutAt (layout.units ns)) := by
  have hin : ∀ n ∈ layout.units ns, InSet (width.chset (ndrBe flags)) n := inSet_units fun n hn => (hns n hn).1
  have hdest : convertStringTalloc .unix (width.chset (ndrBe flags)) (layout.source (ns.flatMap utf8Bytes)) =
      some (encode (width.chset (ndrBe flags)) (layout.units ns)) := by
    rw [layout.source_units]
    exact convertStringTalloc_push (width.chset_ne_unix _) hin hne hmemory
  have hlen : (encode (width.chset (ndrBe flags)) (layout.units ns)).length ≤ 2 * ((layout.units ns).flatMap utf8Bytes).length := by
    rw [length_encode]
    cases width with
    | wide => exact (length_encodings _ fun n hn => (hin n hn).1).1
    | ascii => exact Nat.le_mul_of_pos_left _ (by decide)
    | utf8 => exact Nat.le_mul_of_pos_left _ (by decide)
  have hmax : maxTallocSize = 0x10000000 := rfl
  obtain ⟨ndr', hpush, hdata⟩ := ndrPushString_fresh h hdest hfits (by unfold ndrBaseMarshallSize; omega)
  refine ⟨ndr', hpush, fun more => ?_⟩
  have hterm : layout = .nullterm →
      (if width.byteMul = 1 then asciiLenN (encode (width.chset (ndrBe flags)) (layout.units ns) ++ more)
        else utf16LenN (encode (width.chset (ndrBe flags)) (layout.units ns) ++ more)) =
        (encode (width.chset (ndrBe flags)) (layout.units ns)).length := by
    rintro rfl
    exact terminator_found hns more
  rw [hdata, append_assoc, ndrPullString_written h hfits (encode_ne_nil _ hne) (byteMul_dvd _ _ _) (by omega) more hterm]
  by_cases hcount : layout.counts width (encode (width.chset (ndrBe flags)) (layout.units ns)) = some 0
  · obtain ⟨rfl, -⟩ := counts_eq_zero hne hcount
    rw [if_pos hcount]
    exact ⟨fun _ => small_encoding h hfits (.inr rfl), fun _ => rfl⟩
  · rw [if_neg hcount]
    obtain ⟨k, hpad, hplain⟩ := @padded_units flags layout width ns h
    have hs : ∀ n ∈ ns, Scalar n ∧ n ≠ 0 := fun n hn => ⟨(hns n hn).1.1, (hns n hn).2⟩
    have hin' : ∀ n ∈ ns ++ List.replicate k 0, InSet (width.chset (ndrBe flags)) n := by
      intro n hn
      rcases mem_append.mp hn with hn | hn
      · exact (hns n hn).1
      · rw [eq_of_mem_replicate hn]
        exact inSet_zero _
    have hne' : ns ++ List.replicate k 0 ≠ [] := by
      intro hnil
      rw [hnil, encode_nil] at hpad
      exact encode_ne_nil _ hne (append_eq_nil_iff.mp hpad).1
    have hbe : width.chset (ndrBe flags) = .utf16be → width = .wide ∧ ndrBe flags = true := Width.chset_utf16be
    rw [hpad]
    cases hl : layout.fixed with
    | some fixLen =>
      have hsmall := small_encoding h hfits (.inl (by rw [hl]; nofun))
      have hfix : fixLen ≤ 32 ∧ (encode (width.chset (ndrBe flags)) (layout.units ns)).length ≤ fixLen := by
        cases layout with
        | fixlen15 =>
          obtain rfl := Option.some.inj hl
          exact ⟨by decide, hfits⟩
        | fixlen32 =>
          obtain rfl := Option.some.inj hl
          exact ⟨le_rfl, hfits⟩
        | _ => cases hl
      have hsize : 2 + (encode (width.chset (ndrBe flags)) (ns ++ List.replicate k 0)).length * 3 < maxTallocSize := by
        rw [← hpad, length_append, Layout.padding, hl, length_replicate]
        omega
      rw [(convertStringTalloc_pull (width.chset_ne_unix _) hin' hne' hsize).1
        fun hc => absurd (hbe hc).1 (h.fixed (by rw [hl]; nofun))]
      dsimp only
      rw [cstr_utf8 hs]
      exact ⟨fun _ => hsmall, fun _ => rfl⟩
    | none =>
      rw [hplain hl] at hin' hne' ⊢
      have htext : cstr ((layout.units ns).flatMap utf8Bytes) = ns.flatMap utf8Bytes := by
        rw [← hplain hl]
        exact cstr_utf8 hs k
      by_cases hsize : 2 + (encode (width.chset (ndrBe flags)) (layout.units ns)).length * 3 < maxTallocSize
      · obtain ⟨hsome, hnone⟩ := convertStringTalloc_pull (width.chset_ne_unix _) hin' hne' hsize
        by_cases hcut : width = .wide → ndrBe flags = true → ¬CutAt (layout.units ns)
        · rw [hsome fun hc => hcut (hbe hc).1 (hbe hc).2]
          dsimp only
          rw [htext]
          exact ⟨fun _ => ⟨hsize, hcut⟩, fun _ => rfl⟩
        · push Not at hcut
          obtain ⟨hwide, hbig, hcut⟩ := hcut
          rw [hnone (by rw [hwide, hbig]; rfl) hcut]
          exact ⟨nofun, fun hok => absurd hcut (hok.2 hwide hbig)⟩
      · rw [convertStringTalloc_size hsize]
        exact ⟨nofun, fun hok => absurd hok.1 hsize⟩

/-- A string comes back exactly when it survives. -/
theorem ndrString_roundTrips_iff (h : HasFormat flags layout width) (hns : ∀ n ∈ ns, InSet (width.chset (ndrBe flags)) n ∧ n ≠ 0)
    (hfits : layout.Fits width (encode (width.chset (ndrBe flags)) (layout.units ns))) :
    RoundTrips flags (ns.flatMap utf8Bytes) ↔ Survives flags layout width ns := by
  have hnil : layout.units ns = [] ↔ ¬(ns = [] → layout.terminated = true) := by
    unfold Layout.units
    split <;> simp_all
  constructor
  · rintro ⟨ndr', hpush, hpull⟩
    have hsome : convertStringTalloc .unix (width.chset (ndrBe flags)) ((layout.units ns).flatMap utf8Bytes) ≠ none := by
      intro hnone
      rw [← layout.source_units] at hnone
      rw [@ndrPushString_none layout width (ndrPushInitCtx flags) _ h hnone] at hpush
      cases hpush
    have hne : layout.units ns ≠ [] := fun hu => hsome (by rw [hu]; rfl)
    have hmemory : 2 + ((layout.units ns).flatMap utf8Bytes).length * 3 < maxTallocSize := by
      by_contra hsize
      exact hsome (convertStringTalloc_size hsize)
    obtain ⟨ndr'', hpush', hread⟩ := written_read h hns hfits hne hmemory
    rw [hpush'] at hpush
    obtain rfl := Except.ok.inj hpush
    obtain ⟨hmemory', huncut⟩ := (hread []).mp (hpull [])
    exact ⟨not_not.mp fun hterm => hne (hnil.mpr hterm), hmemory, hmemory', huncut⟩
  · intro hs
    obtain ⟨ndr', hpush, hread⟩ := written_read h hns hfits (fun hu => hnil.mp hu hs.terminated) hs.memory
    exact ⟨ndr', hpush, fun more => (hread more).mpr ⟨hs.encodedMemory, hs.uncut⟩⟩

end Written

/-- A letter and a character of two units, with both lengths. -/
theorem ndrString_roundTrips_wide : RoundTrips (libndrFlagStrLen4 ||| libndrFlagStrSize4) ([0x61, 0x1F600].flatMap utf8Bytes) := by
  refine (@ndrString_roundTrips_iff (libndrFlagStrLen4 ||| libndrFlagStrSize4) (.counted .len4Size4 .counted) .wide [0x61, 0x1F600]
    ⟨by decide, fun hfixed => absurd rfl hfixed⟩ (fun n hn => ?_)
    (show (encode .utf16 [0x61, 0x1F600, 0]).length / 2 - 0 < 2 ^ 32 by decide)).mpr
    ⟨nofun, by decide, by decide, fun _ hbig => absurd hbig (by decide)⟩
  rcases mem_cons.mp hn with rfl | hn
  · exact ⟨⟨by decide, nofun⟩, by decide⟩
  · rw [mem_singleton.mp hn]
    exact ⟨⟨by decide, nofun⟩, by decide⟩

/-- The empty string without a terminator is not written: there is nothing to convert. -/
theorem emptyString_not_roundTrips :
    HasFormat (libndrFlagStrSize2 ||| libndrFlagStrNoterm ||| libndrFlagStrAscii) (.counted .size2 .noterm) .ascii ∧
      ¬RoundTrips (libndrFlagStrSize2 ||| libndrFlagStrNoterm ||| libndrFlagStrAscii) [] := by
  have h : HasFormat (libndrFlagStrSize2 ||| libndrFlagStrNoterm ||| libndrFlagStrAscii) (.counted .size2 .noterm) .ascii :=
    ⟨by decide, fun hfixed => absurd rfl hfixed⟩
  refine ⟨h, fun ⟨ndr', hpush, _⟩ => ?_⟩
  cases hpush

end Samba.Ndr
