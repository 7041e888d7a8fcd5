/-
Converting a string into a new block (lib/charset/charcnv.c, convert_string_talloc). The unix charset is the default, "UTF8";
the DOS charset is "ASCII", which is what is taken where the configured one is not there.
-/
import Samba.Charset.Chunks
import Samba.Ndr.Basic

namespace Samba.Charset

open CString List Rounds Samba.Ndr

/-- `charset_t`. -/
inductive CharsetT
  | utf16 | unix | dos | utf8 | utf16be
  deriving DecidableEq, Repr

/-- `charset_name`. -/
def charsetName : CharsetT → Text
  | .utf16 => text "UTF-16LE"
  | .unix => text "UTF8"
  | .dos => text "ASCII"
  | .utf8 => text "UTF8"
  | .utf16be => text "UTF-16BE"

/-- `get_conv_handle`. -/
def getConvHandle (source target : CharsetT) : Option Descriptor := smbIconvOpen (charsetName target) (charsetName source)

/-- `convert_string_talloc`: the bytes of the new block, without the zeros behind them. -/
def convertStringTalloc (source target : CharsetT) (src : List UInt8) : Option (List UInt8) :=
  if src = [] then none
  else do
    let descriptor ← getConvHandle source target
    -- it is _very_ rare that a conversion increases the size by more than 3x: never with these sets, so that E2BIG, after
    -- which there is another try, does not come up
    let destlen := 2 + src.length * 3
    if maxTallocSize ≤ destlen then none
    else
      let converted := smbIconv descriptor [] src (destlen - 2)
      if converted.err = none then some converted.out else none

/-! ## Encoded strings -/

/-- The scalar values in a set. -/
def encode : CharsetT → List Nat → List UInt8
  | .utf16, ns => ns.flatMap utf16leBytes
  | .utf16be, ns => swabBytes (ns.flatMap utf16leBytes)
  | _, ns => ns.flatMap utf8Bytes

/-- The scalar values that a set has. -/
def InSet (set : CharsetT) (n : Nat) : Prop := Scalar n ∧ (set = .dos → n < 0x80)

/-- The buffer of `smb_iconv` cuts a pair of the string in two. -/
def CutAt (ns : List Nat) : Prop :=
  ∃ k, cvtbufSize * (k + 1) < (ns.flatMap utf16leBytes).length ∧ EndsHigh ((ns.flatMap utf16leBytes).take (cvtbufSize * (k + 1)))

theorem iconvCopy_whole {input : List UInt8} {room : Nat} (hroom : input.length ≤ room) (hint : input.length < 2 ^ 31) :
    iconvCopy input room = .done input := by
  unfold iconvCopy
  rw [Nat.min_eq_left hroom, if_neg (by omega), Nat.sub_self, drop_length, take_length]
  rfl

section Encoded

variable {ns : List Nat} {room : Nat}

theorem even_length_utf16le (ns : List Nat) : 2 ∣ (ns.flatMap utf16leBytes).length := by
  induction ns with
  | nil => exact Nat.dvd_zero 2
  | cons n ns ih =>
    rw [flatMap_cons, length_append, length_utf16leBytes]
    split <;> omega

/-- A character takes at most twice as many bytes in UTF-16 as in UTF-8, and at most one and a half times as many the other
way round. -/
theorem length_encodings (ns : List Nat) (h : ∀ n ∈ ns, Scalar n) :
    (ns.flatMap utf16leBytes).length ≤ 2 * (ns.flatMap utf8Bytes).length ∧
      2 * (ns.flatMap utf8Bytes).length ≤ 3 * (ns.flatMap utf16leBytes).length := by
  induction ns with
  | nil => simp
  | cons n ns ih =>
    rw [forall_mem_cons] at h
    obtain ⟨ih₁, ih₂⟩ := ih h.2
    have hn : (utf16leBytes n).length ≤ 2 * (utf8Bytes n).length ∧ 2 * (utf8Bytes n).length ≤ 3 * (utf16leBytes n).length := by
      rw [length_utf16leBytes, length_utf8Bytes]
      repeat' split
      all_goals omega
    rw [flatMap_cons, flatMap_cons, length_append, length_append]
    omega

theorem asciiPush_bytes (h : ∀ n ∈ ns, n < 0x80) (hroom : (ns.flatMap utf8Bytes).length ≤ room) :
    asciiPush.run (ns.flatMap utf16leBytes) room = .done (ns.flatMap utf8Bytes) := by
  induction ns generalizing room with
  | nil => exact asciiPush_exact.run_nil room
  | cons n ns ih =>
    rw [forall_mem_cons] at h
    have hmask : ∀ a < 0x80, UInt8.ofNat a &&& 0x7F = UInt8.ofNat a := by decide
    have h8 : utf8Bytes n = [UInt8.ofNat n] := if_pos h.1
    have h16 : utf16leBytes n = [UInt8.ofNat n, UInt8.ofNat (n / 256)] := if_pos (by omega)
    rw [flatMap_cons, h8, length_append, length_singleton] at hroom
    have hround : asciiPush.round ((n :: ns).flatMap utf16leBytes) room = .ok (2, [UInt8.ofNat n]) := by
      rw [flatMap_cons, h16]
      show Except.ok (2, [UInt8.ofNat n &&& 0x7F]) = _
      rw [hmask n h.1]
    rw [Loop.run_round (show 2 ≤ _ by rw [flatMap_cons, h16]; simp) (show 1 ≤ room by omega) hround, flatMap_cons, h16,
      @drop_left' _ [UInt8.ofNat n, UInt8.ofNat (n / 256)] _ 2 rfl, length_singleton, ih h.2 (by omega), flatMap_cons, h8, Conv.after_done]

theorem asciiPull_bytes (h : ∀ n ∈ ns, n < 0x80) (hroom : (ns.flatMap utf16leBytes).length ≤ room) :
    asciiPull.run (ns.flatMap utf8Bytes) room = .done (ns.flatMap utf16leBytes) := by
  induction ns generalizing room with
  | nil => exact asciiPull_exact.run_nil room
  | cons n ns ih =>
    rw [forall_mem_cons] at h
    have h8 : utf8Bytes n = [UInt8.ofNat n] := if_pos h.1
    have h16 : utf16leBytes n = [UInt8.ofNat n, UInt8.ofNat (n / 256)] := if_pos (by omega)
    rw [flatMap_cons, h16, length_append] at hroom
    simp only [length_cons, length_nil] at hroom
    have hround : asciiPull.round ((n :: ns).flatMap utf8Bytes) room = .ok (1, utf16leBytes n) := by
      rw [flatMap_cons, h8, h16, ofNat_congr (show n / 256 % 256 = 0 % 256 by omega)]
      rfl
    rw [Loop.run_round (show 1 ≤ _ by rw [flatMap_cons, h8]; simp) (show 2 ≤ room by omega) hround, flatMap_cons, h8,
      @drop_left' _ [UInt8.ofNat n] _ 1 rfl, ih h.2 (by rw [h16]; simp only [length_cons, length_nil]; omega), flatMap_cons,
      Conv.after_done]

theorem ascii_not_cut (h : ∀ n ∈ ns, n < 0x80) : ¬CutsPair .ascii [] (ns.flatMap utf8Bytes) := by
  rw [@cutsPair_iff .ascii [] _ _ _ (by decide) (asciiPull_bytes h le_rfl)]
  rintro ⟨k, -, hend⟩
  have htake : ∀ (ns : List Nat) (m : Nat), (∀ n ∈ ns, n < 0x80) →
      (ns.flatMap utf16leBytes).take (2 * m) = (ns.take m).flatMap utf16leBytes := by
    intro ns m hns
    induction ns generalizing m with
    | nil => simp
    | cons n ns ih =>
      rw [forall_mem_cons] at hns
      cases m with
      | zero => simp
      | succ m =>
        have h16 : (utf16leBytes n).length = 2 := by rw [length_utf16leBytes, if_pos (by omega)]
        rw [flatMap_cons, take_succ_cons, flatMap_cons, ← ih m hns.2, Nat.mul_succ, Nat.add_comm, ← h16,
          take_length_add_append]
  rw [show cvtbufSize * (k + 1) = 2 * (1024 * (k + 1)) by unfold cvtbufSize; omega, htake _ _ h] at hend
  exact not_endsHigh_utf16le (fun n hn => .inl ((h n (mem_of_mem_take hn)).trans (by decide))) hend

theorem smbIconv_utf8 {source : Builtin} {input : List UInt8} (hs : ∀ n ∈ ns, Scalar n)
    (hpull : ∀ room, (ns.flatMap utf16leBytes).length ≤ room → source.functions.pull [] input room = .done (ns.flatMap utf16leBytes))
    (hroom : (ns.flatMap utf8Bytes).length ≤ room) :
    (¬CutsPair source [] input →
      smbIconv (.buffered source.functions Builtin.utf8.functions) [] input room = .done (ns.flatMap utf8Bytes)) ∧
    (CutsPair source [] input → (smbIconv (.buffered source.functions Builtin.utf8.functions) [] input room).err ≠ none) :=
  ⟨fun hcut => smbIconvChunks_whole (hpull _ le_rfl) (utf8Push_bytes hs hroom) fun _ => hcut,
    fun hcut => smbIconvChunks_cut (hpull _ le_rfl) hcut⟩

theorem flatMap_utf8_ne_nil (hne : ns ≠ []) : ns.flatMap utf8Bytes ≠ [] := by
  obtain ⟨n, ns, rfl⟩ := exists_cons_of_ne_nil hne
  rw [flatMap_cons]
  exact fun hnil => absurd (congrArg List.length (append_eq_nil_iff.mp hnil).1) (length_utf8Bytes_pos n).ne'

section Block

variable {source target : CharsetT} {src out : List UInt8} {descriptor : Descriptor}

theorem convertStringTalloc_some (hne : src ≠ []) (hopen : getConvHandle source target = some descriptor)
    (hsize : 2 + src.length * 3 < maxTallocSize)
    (hconv : smbIconv descriptor [] src (2 + src.length * 3 - 2) = .done out) : convertStringTalloc source target src = some out := by
  rw [convertStringTalloc, if_neg hne, hopen]
  show (if maxTallocSize ≤ 2 + src.length * 3 then none else _) = _
  rw [if_neg (by omega), hconv]
  rfl

theorem convertStringTalloc_size (hsize : ¬2 + src.length * 3 < maxTallocSize) : convertStringTalloc source target src = none := by
  rw [convertStringTalloc]
  split
  · rfl
  · cases getConvHandle source target with
    | none => rfl
    | some descriptor => exact if_pos (Nat.not_lt.mp hsize)

theorem convertStringTalloc_err (hne : src ≠ []) (hopen : getConvHandle source target = some descriptor)
    (herr : (smbIconv descriptor [] src (2 + src.length * 3 - 2)).err ≠ none) : convertStringTalloc source target src = none := by
  by_cases hsize : 2 + src.length * 3 < maxTallocSize
  · rw [convertStringTalloc, if_neg hne, hopen]
    show (if maxTallocSize ≤ 2 + src.length * 3 then none else _) = _
    rw [if_neg (by omega)]
    exact if_neg herr
  · exact convertStringTalloc_size hsize

end Block

/-- A string of the unix charset is converted into another as long as there is memory for three times its length. -/
theorem convertStringTalloc_push {target : CharsetT} (htarget : target ≠ .unix) (h : ∀ n ∈ ns, InSet target n) (hne : ns ≠ [])
    (hsize : 2 + (ns.flatMap utf8Bytes).length * 3 < maxTallocSize) :
    convertStringTalloc .unix target (ns.flatMap utf8Bytes) = some (encode target ns) := by
  have hs : ∀ n ∈ ns, Scalar n := fun n hn => (h n hn).1
  have hsrc := flatMap_utf8_ne_nil hne
  obtain ⟨hlen, -⟩ := length_encodings ns hs
  have hmax : maxTallocSize < 2 ^ 31 := by decide
  cases target with
  | unix => exact absurd rfl htarget
  | utf16 => exact convertStringTalloc_some hsrc rfl hsize (utf8Pull_bytes hs (by omega))
  | utf16be =>
    exact convertStringTalloc_some hsrc rfl hsize (@smbIconvChunks_whole .utf8 .utf16be [] _ _ _ _ _
      (utf8Pull_bytes hs le_rfl) (iconvSwab_whole (by omega) (by omega)) nofun)
  | dos =>
    exact convertStringTalloc_some hsrc rfl hsize (@smbIconvChunks_whole .utf8 .ascii [] _ _ _ _ _
      (utf8Pull_bytes hs le_rfl) (asciiPush_bytes (fun n hn => (h n hn).2 rfl) (by omega)) nofun)
  | utf8 => exact convertStringTalloc_some hsrc rfl hsize (iconvCopy_whole (by omega) (by omega))

/-- A string is converted back, unless the buffer cuts a pair of UTF-16BE in two. -/
theorem convertStringTalloc_pull {source : CharsetT} (hsource : source ≠ .unix) (h : ∀ n ∈ ns, InSet source n) (hne : ns ≠ [])
    (hsize : 2 + (encode source ns).length * 3 < maxTallocSize) :
    ((source = .utf16be → ¬CutAt ns) → convertStringTalloc source .unix (encode source ns) = some (ns.flatMap utf8Bytes)) ∧
      (source = .utf16be → CutAt ns → convertStringTalloc source .unix (encode source ns) = none) := by
  have hs : ∀ n ∈ ns, Scalar n := fun n hn => (h n hn).1
  have h8 := flatMap_utf8_ne_nil hne
  obtain ⟨hlen, hlen'⟩ := length_encodings ns hs
  have h16 : (ns.flatMap utf16leBytes).length ≠ 0 := by
    have := length_pos_of_ne_nil h8
    omega
  have hmax : maxTallocSize < 2 ^ 31 := by decide
  cases source with
  | unix => exact absurd rfl hsource
  | utf16 =>
    refine ⟨fun _ => ?_, nofun⟩
    rw [encode] at hsize ⊢
    exact convertStringTalloc_some (fun hnil => h16 (congrArg List.length hnil)) rfl hsize (utf8Push_bytes hs (by omega))
  | utf16be =>
    rw [encode] at hsize ⊢
    have hswab := length_swabBytes (ns.flatMap utf16leBytes)
    have hpull : ∀ room, (ns.flatMap utf16leBytes).length ≤ room →
        Builtin.utf16be.functions.pull [] (swabBytes (ns.flatMap utf16leBytes)) room = .done (ns.flatMap utf16leBytes) := by
      intro room hroom
      rw [utf16be_pull, iconvSwab_whole (by omega) (by omega), swabBytes_swabBytes (even_length_utf16le ns)]
    have hne' : swabBytes (ns.flatMap utf16leBytes) ≠ [] := fun hnil => h16 (by rw [← hswab, hnil, length_nil])
    have hiff := @cutsPair_iff .utf16be [] _ _ _ (by decide) (hpull _ le_rfl)
    obtain ⟨hok, herr⟩ := @smbIconv_utf8 ns (2 + (swabBytes (ns.flatMap utf16leBytes)).length * 3 - 2) .utf16be _ hs hpull (by omega)
    exact ⟨fun hcut => convertStringTalloc_some hne' rfl hsize (hok fun hc => hcut rfl (hiff.mp hc)),
      fun _ hcut => convertStringTalloc_err hne' rfl (herr (hiff.mpr hcut))⟩
  | dos =>
    refine ⟨fun _ => ?_, nofun⟩
    rw [encode.eq_def] at hsize ⊢
    dsimp only at hsize ⊢
    exact convertStringTalloc_some h8 rfl hsize ((@smbIconv_utf8 ns _ .ascii _ hs (fun room hroom =>
      asciiPull_bytes (fun n hn => (h n hn).2 rfl) hroom) (by omega)).1 (ascii_not_cut fun n hn => (h n hn).2 rfl))
  | utf8 =>
    refine ⟨fun _ => ?_, nofun⟩
    rw [encode.eq_def] at hsize ⊢
    dsimp only at hsize ⊢
    exact convertStringTalloc_some h8 rfl hsize (iconvCopy_whole (by omega) (by omega))

end Encoded

end Samba.Charset
