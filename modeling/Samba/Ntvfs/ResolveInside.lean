/-
Where the names that clients send lead to (ntvfs/posix/pvfs_resolve.c). A path name that is accepted stays below the
base directory of the share, except for a stream of a "." or ".." component: the colon is not among the characters that the
check for these components looks for behind the dots, and what it cuts off is not looked at again.
-/
import Samba.Ntvfs.Resolve

namespace Samba.Ntvfs

open CString List Samba.Charset

/-! ## Strings of characters -/

/-- A path name as a client sends it: any characters. -/
structure ClientName where
  chars : List Nat
  valid : ∀ c ∈ chars, Scalar c ∧ c ≠ 0

/-- The string of the name. -/
def ClientName.text (name : ClientName) : Text := name.chars.flatMap utf8Bytes

/-- The characters of a component. -/
def WordChar (c : Nat) : Prop := Scalar c ∧ c ≠ 0 ∧ c ≠ 0x5C

/-- A component: characters without a separator. -/
def Word (w : Text) : Prop := ∃ cs : List Nat, (∀ c ∈ cs, WordChar c) ∧ w = cs.flatMap utf8Bytes

variable {c : Nat}

theorem utf8Bytes_ascii (h : c < 0x80) : utf8Bytes c = [UInt8.ofNat c] := if_pos h

theorem toNat_ofNat_ascii (h : c < 0x80) : (UInt8.ofNat c).toNat = c := by
  rw [UInt8.toNat_ofNat']
  exact Nat.mod_eq_of_lt (by omega)

theorem ascii_bit : ∀ c < 0x80, UInt8.ofNat c &&& 0x80 = 0 := by decide

/-- The bytes of a character that is not ASCII are not ASCII. -/
theorem le_of_mem_utf8Bytes (hc : 0x80 ≤ c) (hmax : c ≤ 0x10FFFF) {b : UInt8} (hb : b ∈ utf8Bytes c) :
    0x80 ≤ b.toNat := by
  have hbyte : ∀ n, 0x80 ≤ n → n < 256 → 0x80 ≤ (UInt8.ofNat n).toNat := fun n h₁ h₂ => by
    rw [UInt8.toNat_ofNat', Nat.mod_eq_of_lt h₂]
    exact h₁
  unfold utf8Bytes at hb
  rw [if_neg (by omega)] at hb
  split at hb
  · simp only [mem_cons, not_mem_nil, or_false] at hb
    rcases hb with rfl | rfl <;> exact hbyte _ (by omega) (by omega)
  · split at hb
    · simp only [mem_cons, not_mem_nil, or_false] at hb
      rcases hb with rfl | rfl | rfl <;> exact hbyte _ (by omega) (by omega)
    · simp only [mem_cons, not_mem_nil, or_false] at hb
      rcases hb with rfl | rfl | rfl | rfl <;> exact hbyte _ (by omega) (by omega)

/-- An ASCII byte of a string of characters is a character of it. -/
theorem mem_flatMap_utf8Bytes {cs : List Nat} (hcs : ∀ c ∈ cs, Scalar c) {b : UInt8} (hb : b.toNat < 0x80) :
    b ∈ cs.flatMap utf8Bytes ↔ b.toNat ∈ cs := by
  rw [mem_flatMap]
  constructor
  · rintro ⟨c, hc, hmem⟩
    by_cases hlow : c < 0x80
    · rw [utf8Bytes_ascii hlow, mem_singleton] at hmem
      rw [hmem, toNat_ofNat_ascii hlow]
      exact hc
    · have hs := hcs c hc
      have := le_of_mem_utf8Bytes (by omega) (by unfold Scalar at hs; omega) hmem
      omega
  · intro hc
    exact ⟨b.toNat, hc, by rw [utf8Bytes_ascii hb, UInt8.ofNat_toNat, mem_singleton]⟩

theorem Word.not_mem {w : Text} (h : Word w) : 0 ∉ w ∧ chr '\\' ∉ w := by
  obtain ⟨cs, hcs, rfl⟩ := h
  have hs : ∀ c ∈ cs, Scalar c := fun c hc => (hcs c hc).1
  constructor
  · rw [mem_flatMap_utf8Bytes hs (by decide)]
    exact fun hmem => (hcs _ hmem).2.1 rfl
  · rw [mem_flatMap_utf8Bytes hs (by decide)]
    exact fun hmem => (hcs _ hmem).2.2 rfl

/-! ## One character of pvfs_unix_path -/

section

variable {pvfs : PvfsState} {flags : ResolveFlags} {done rest : Text} {name r : PvfsFilename}

variable {c : Nat} {cs : List Nat} {w : Text} {ws : List Text}

theorem unixPathFrom_wide (h : Scalar c) (hc : 0x80 ≤ c) : unixPathFrom pvfs flags done (utf8Bytes c ++ rest) name =
      unixPathFrom pvfs flags (done ++ utf8Bytes c) rest name := by
  have hnext := nextCodepoint_wide h hc rest
  have hmax : c ≤ 0x10FFFF := by unfold Scalar at h; omega
  obtain ⟨b, bs, hbytes, -⟩ := utf8Bytes_wide hc hmax
  have hb : b ≠ 0 := fun hb => by
    have := le_of_mem_utf8Bytes hc hmax (b := b) (by rw [hbytes]; exact mem_cons_self)
    rw [hb] at this
    exact absurd this (by decide)
  have hpass : pathChar pvfs flags done (utf8Bytes c ++ rest) (some c) name =
      .ok (.byte (charAt (utf8Bytes c ++ rest) 0), name) := by
    have hne : ∀ n, n < 0x80 → some c ≠ some n := fun n hn he => by
      have := Option.some.inj he
      omega
    unfold pathChar
    rw [if_neg (hne _ (by decide)), if_neg (hne _ (by decide)), if_neg, if_neg, if_neg (hne _ (by decide))]
    · rintro (h | h)
      · exact hne _ (by decide) h
      · exact hne _ (by decide) h
    · simp only [mem_cons, not_mem_nil, or_false]
      rintro (h | h | h | h | h) <;> exact hne _ (by decide) h
  rw [hbytes, cons_append] at hnext hpass ⊢
  rw [unixPathFrom, if_neg hb, hnext]
  dsimp only
  rw [hpass]
  dsimp only
  rw [length_cons, Nat.add_sub_cancel, take_left, drop_left]
  rfl

/-- An ASCII character goes through the `switch` alone. -/
theorem unixPathFrom_ascii {c : Nat} (hc : c < 0x80) (hne : c ≠ 0) :
    unixPathFrom pvfs flags done (UInt8.ofNat c :: rest) name =
      match pathChar pvfs flags done (UInt8.ofNat c :: rest) (some c) name with
      | .error e => .error e
      | .ok (.byte b, name) => unixPathFrom pvfs flags (done ++ [b]) rest name
      | .ok (.cut, name) => .ok { name with fullName := fullName pvfs done } := by
  have hb : UInt8.ofNat c ≠ 0 := fun h => hne (by rw [← toNat_ofNat_ascii hc, h]; rfl)
  rw [unixPathFrom, if_neg hb, nextCodepoint_ascii (ascii_bit c hc), toNat_ofNat_ascii hc]
  dsimp only
  cases pathChar pvfs flags done (UInt8.ofNat c :: rest) (some c) name with
  | error e => rfl
  | ok res =>
    obtain ⟨w, name'⟩ := res
    cases w with
    | byte b => rfl
    | cut => exact if_pos (Nat.le_refl 1)

/-- A byte of ASCII that is written as another leads to the next one. -/
theorem unixPathFrom_byte {b b' : UInt8} {name' : PvfsFilename} (hb : b.toNat < 0x80 ∧ b.toNat ≠ 0)
    (h : pathChar pvfs flags done (b :: rest) (some b.toNat) name = .ok (.byte b', name')) :
    unixPathFrom pvfs flags done (b :: rest) name = unixPathFrom pvfs flags (done ++ [b']) rest name' := by
  have hnext : unixPathFrom pvfs flags done (UInt8.ofNat b.toNat :: rest) name = _ := unixPathFrom_ascii hb.1 hb.2
  rw [UInt8.ofNat_toNat, h] at hnext
  exact hnext

/-- A byte of ASCII that is refused ends the loop. -/
theorem unixPathFrom_error {b : UInt8} {e : ResolveStatus} (hb : b.toNat < 0x80 ∧ b.toNat ≠ 0)
    (h : pathChar pvfs flags done (b :: rest) (some b.toNat) name = .error e) :
    unixPathFrom pvfs flags done (b :: rest) name = .error e := by
  have hnext : unixPathFrom pvfs flags done (UInt8.ofNat b.toNat :: rest) name = _ := unixPathFrom_ascii hb.1 hb.2
  rw [UInt8.ofNat_toNat, h] at hnext
  exact hnext

/-- Behind a dot at the start of a component it is over, or there is only one more dot. -/
def dotComponent (done rest : Text) : Bool :=
  (done = [] || done.getLast? = some (chr '/')) &&
    ((charAt rest 0 = 0 || charAt rest 0 = chr '\\') ||
      (charAt rest 0 = chr '.' && (charAt rest 1 = 0 || charAt rest 1 = chr '\\')))

theorem pathChar_separator (name : PvfsFilename) :
    pathChar pvfs flags done (chr '\\' :: rest) (some 0x5C) name = .error .illegalCharacter ∨
      pathChar pvfs flags done (chr '\\' :: rest) (some 0x5C) name =
        .ok (.byte (if done ≠ [] ∧ charAt rest 0 = 0 then 0 else chr '/'), name) := by
  unfold pathChar
  rw [if_pos rfl]
  split
  · exact .inl rfl
  · refine .inr ?_
    show (if done ≠ [] ∧ charAt rest 0 = 0 then _ else _) = _
    split <;> rfl

theorem parseStreamName_error {s : Text} {e : ResolveStatus} (h : parseStreamName pvfs s = .error e) :
    e = .objectNameInvalid := by
  rw [parseStreamName] at h
  dsimp only at h
  split at h
  · cases h
  · split at h
    · exact (Except.error.inj h).symm
    · split at h <;> cases h

theorem pathChar_colon (name : PvfsFilename) :
    (∃ e, e ≠ .objectPathSyntaxBad ∧ pathChar pvfs flags done (chr ':' :: rest) (some 0x3A) name = .error e) ∨
      ∃ name', pathChar pvfs flags done (chr ':' :: rest) (some 0x3A) name = .ok (.cut, name') := by
  unfold pathChar
  rw [if_neg (by decide), if_pos rfl]
  split
  · exact .inl ⟨.illegalCharacter, nofun, rfl⟩
  · split
    · exact .inl ⟨.illegalCharacter, nofun, rfl⟩
    · split
      · next e he => exact .inl ⟨e, by rw [parseStreamName_error he]; nofun, rfl⟩
      · exact .inr ⟨_, rfl⟩

theorem pathChar_dot (name : PvfsFilename) :
    pathChar pvfs flags done (chr '.' :: rest) (some 0x2E) name =
      if dotComponent done rest then .error .objectPathSyntaxBad else .ok (.byte (chr '.'), name) := by
  have h1 : charAt (chr '.' :: rest) 1 = charAt rest 0 := rfl
  have h2 : charAt (chr '.' :: rest) 2 = charAt rest 1 := rfl
  unfold pathChar
  rw [if_neg (by decide), if_neg (by decide), if_neg (by decide), if_neg (by decide), if_pos rfl, h1, h2, dotComponent]
  have hcases : ∀ (start ends ends' dot : Bool) (bad good : Except ResolveStatus (Written × PvfsFilename)),
      (if dot && ends' && start then bad else if ends && start then bad else good) =
        if start && (ends || dot && ends') then bad else good := by
    intro start ends ends' dot bad good
    cases start <;> cases ends <;> cases ends' <;> cases dot <;> rfl
  exact hcases _ _ _ _ _ _

theorem pathChar_other {c : Nat} (h : c ≠ 0x5C ∧ c ≠ 0x3A ∧ c ≠ 0x2E) (name : PvfsFilename) :
    (∃ e, e ≠ .objectPathSyntaxBad ∧ pathChar pvfs flags done (UInt8.ofNat c :: rest) (some c) name = .error e) ∨
      c ≠ 0x2F ∧ ∃ name', pathChar pvfs flags done (UInt8.ofNat c :: rest) (some c) name =
        .ok (.byte (UInt8.ofNat c), name') := by
  have hne : ∀ {n}, c ≠ n → some c ≠ some n := fun hn he => hn (Option.some.inj he)
  unfold pathChar
  rw [if_neg (hne h.1), if_neg (hne h.2.1)]
  split
  · next hwild =>
    split
    · exact .inl ⟨.objectNameInvalid, nofun, rfl⟩
    · refine .inr ⟨?_, _, rfl⟩
      rintro rfl
      revert hwild
      decide
  · split
    · exact .inl ⟨.illegalCharacter, nofun, rfl⟩
    · next hslash =>
      rw [if_neg (hne h.2.2)]
      exact .inr ⟨fun hc => hslash (.inl (congrArg some hc)), _, rfl⟩

/-- The results that are looked at further: names, and the error after which a name is reduced. -/
def Pursued (res : Except ResolveStatus PvfsFilename) : Prop := ∀ e, res = .error e → e = .objectPathSyntaxBad

theorem unixPathFrom_char (hc : WordChar c) (hdot : c = 0x2E → dotComponent done rest = false)
    (hres : Pursued (unixPathFrom pvfs flags done (utf8Bytes c ++ rest) name)) :
    (c = 0x3A ∧ ∃ r, unixPathFrom pvfs flags done (utf8Bytes c ++ rest) name = .ok r ∧
        r.fullName = fullName pvfs done) ∨
      c ≠ 0x3A ∧ c ≠ 0x2F ∧ ∃ name', unixPathFrom pvfs flags done (utf8Bytes c ++ rest) name =
        unixPathFrom pvfs flags (done ++ utf8Bytes c) rest name' := by
  obtain ⟨hs, h0, hsep⟩ := hc
  by_cases hlow : c < 0x80
  swap
  · exact .inr ⟨by omega, by omega, name, unixPathFrom_wide hs (by omega)⟩
  rw [utf8Bytes_ascii hlow, singleton_append, unixPathFrom_ascii hlow h0] at hres ⊢
  by_cases hcolon : c = 0x3A
  · subst hcolon
    rcases @pathChar_colon pvfs flags done rest name with ⟨e, hne, he⟩ | ⟨name', hok⟩
    · exact absurd (hres e (by rw [show UInt8.ofNat 0x3A = chr ':' from rfl, he])) hne
    · exact .inl ⟨rfl, _, by rw [show UInt8.ofNat 0x3A = chr ':' from rfl, hok], rfl⟩
  · refine .inr ⟨hcolon, ?_⟩
    by_cases hd : c = 0x2E
    · subst hd
      refine ⟨by decide, name, ?_⟩
      rw [show UInt8.ofNat 0x2E = chr '.' from rfl, pathChar_dot, hdot rfl, if_neg (by decide)]
    · rcases @pathChar_other pvfs flags done rest c ⟨hsep, hcolon, hd⟩ name with ⟨e, hne, he⟩ | ⟨hslash, name', hok⟩
      · exact absurd (hres e (by rw [he])) hne
      · exact ⟨hslash, name', by rw [hok]⟩

/-- A character that is no slash does not end with one. -/
theorem getLast?_utf8Bytes (hc : WordChar c) (hslash : c ≠ 0x2F) :
    (done ++ utf8Bytes c).getLast? ≠ some (chr '/') := by
  intro h
  rw [List.getLast?_append_of_ne_nil _ (length_pos_iff.1 (length_utf8Bytes_pos c))] at h
  have hmem : chr '/' ∈ [c].flatMap utf8Bytes := by simpa using mem_of_getLast? h
  rw [mem_flatMap_utf8Bytes (by simpa using hc.1) (by decide)] at hmem
  exact hslash (mem_singleton.1 hmem).symm

/-- The path ends at the first colon of a component, or the component is passed. -/
def EndsOrPasses (pvfs : PvfsState) (flags : ResolveFlags) (done rest : Text) (cs : List Nat) (name : PvfsFilename) :
    Prop :=
  (∃ us vs, cs = us ++ 0x3A :: vs ∧ 0x3A ∉ us ∧ 0x2F ∉ us ∧ ∃ r,
      unixPathFrom pvfs flags done (cs.flatMap utf8Bytes ++ rest) name = .ok r ∧
        r.fullName = fullName pvfs (done ++ us.flatMap utf8Bytes)) ∨
    0x3A ∉ cs ∧ 0x2F ∉ cs ∧ ∃ name', unixPathFrom pvfs flags done (cs.flatMap utf8Bytes ++ rest) name =
      unixPathFrom pvfs flags (done ++ cs.flatMap utf8Bytes) rest name'

theorem EndsOrPasses.nil : EndsOrPasses pvfs flags done rest [] name :=
  .inr ⟨not_mem_nil, not_mem_nil, name, by rw [flatMap_nil, append_nil]; rfl⟩

theorem EndsOrPasses.cons {c : Nat} {cs : List Nat} (hc : WordChar c)
    (hdot : c = 0x2E → dotComponent done (cs.flatMap utf8Bytes ++ rest) = false)
    (hres : Pursued (unixPathFrom pvfs flags done ((c :: cs).flatMap utf8Bytes ++ rest) name))
    (hcs : ∀ name', c ≠ 0x2F →
      Pursued (unixPathFrom pvfs flags (done ++ utf8Bytes c) (cs.flatMap utf8Bytes ++ rest) name') →
      EndsOrPasses pvfs flags (done ++ utf8Bytes c) rest cs name') :
    EndsOrPasses pvfs flags done rest (c :: cs) name := by
  rw [flatMap_cons, append_assoc] at hres
  rw [EndsOrPasses, flatMap_cons, append_assoc]
  rcases unixPathFrom_char hc hdot hres with ⟨rfl, r, hok, hfull⟩ | ⟨hcolon, hslash, name', hpass⟩
  · exact .inl ⟨[], cs, rfl, not_mem_nil, not_mem_nil, r, hok, by
      rw [hfull, flatMap_nil, append_nil]⟩
  · rw [hpass] at hres ⊢
    rcases hcs name' hslash hres with ⟨us, vs, rfl, hu, hu', r, hok, hfull⟩ | ⟨hc, hc', name'', hpass'⟩
    · refine .inl ⟨c :: us, vs, rfl, ?_, ?_, r, hok, by rw [hfull, flatMap_cons, append_assoc]⟩
      · exact fun h => (mem_cons.1 h).elim (fun h => hcolon h.symm) hu
      · exact fun h => (mem_cons.1 h).elim (fun h => hslash h.symm) hu'
    · refine .inr ⟨?_, ?_, name'', by rw [hpass', append_assoc]⟩
      · exact fun h => (mem_cons.1 h).elim (fun h => hcolon h.symm) hc
      · exact fun h => (mem_cons.1 h).elim (fun h => hslash h.symm) hc'

/-- What is left of a component, when it is not the start of it. -/
theorem unixPathFrom_within (hcs : ∀ c ∈ cs, WordChar c) (hne : done ≠ []) (hlast : done.getLast? ≠ some (chr '/'))
    (hres : Pursued (unixPathFrom pvfs flags done (cs.flatMap utf8Bytes ++ rest) name)) :
    EndsOrPasses pvfs flags done rest cs name := by
  induction cs generalizing done name with
  | nil => exact .nil
  | cons c cs ih =>
    rw [forall_mem_cons] at hcs
    refine .cons hcs.1 (fun _ => ?_) hres fun name' hslash hres' => ?_
    · rw [dotComponent]
      simp [hne, hlast]
    · exact ih hcs.2 (append_ne_nil_of_left_ne_nil hne _) (getLast?_utf8Bytes hcs.1 hslash) hres'

/-- The end of a component: that of the name, or a separator. -/
def EndsComponent (rest : Text) : Prop := rest = [] ∨ ∃ t, rest = chr '\\' :: t

/-- The first byte of a character of a component. -/
theorem head_utf8Bytes (hc : WordChar c) : ∃ b bs, utf8Bytes c = b :: bs ∧ b ≠ 0 ∧ b ≠ chr '\\' ∧
    (b = chr '.' ↔ c = 0x2E) := by
  obtain ⟨hs, h0, hsep⟩ := hc
  by_cases hlow : c < 0x80
  · have hnat : ∀ {b : UInt8}, UInt8.ofNat c = b → c = b.toNat := fun h => by
      rw [← h, toNat_ofNat_ascii hlow]
    exact ⟨_, [], utf8Bytes_ascii hlow, fun h => h0 (hnat h), fun h => hsep (hnat h), fun h => hnat h, fun h => by
      rw [h]; rfl⟩
  · have hmax : c ≤ 0x10FFFF := by unfold Scalar at hs; omega
    obtain ⟨b, bs, hbytes, -⟩ := utf8Bytes_wide (by omega) hmax
    have hb := le_of_mem_utf8Bytes (by omega) hmax (show b ∈ utf8Bytes c by rw [hbytes]; exact mem_cons_self)
    refine ⟨b, bs, hbytes, ?_, ?_, fun h => ?_, fun h => absurd h (by omega)⟩
    · rintro rfl; exact absurd hb (by decide)
    · rintro rfl; exact absurd hb (by decide)
    · rw [h] at hb; exact absurd hb (by decide)

theorem charAt_ends (h : EndsComponent rest) : charAt rest 0 = 0 ∨ charAt rest 0 = chr '\\' := by
  rcases h with rfl | ⟨t, rfl⟩
  · exact .inl rfl
  · exact .inr rfl

/-- Behind a dot at the start of a component, the check looks for what makes it "." or "..". -/
theorem dotComponent_iff (hcs : ∀ c ∈ cs, WordChar c) (hend : EndsComponent rest)
    (hstart : done = [] ∨ done.getLast? = some (chr '/')) :
    dotComponent done (cs.flatMap utf8Bytes ++ rest) = true ↔ cs = [] ∨ cs = [0x2E] := by
  have hs : (decide (done = []) || decide (done.getLast? = some (chr '/'))) = true := by simpa using hstart
  rw [dotComponent, hs, Bool.true_and]
  simp only [Bool.or_eq_true, Bool.and_eq_true, decide_eq_true_eq]
  cases cs with
  | nil =>
    rw [flatMap_nil, nil_append]
    exact ⟨fun _ => .inl rfl, fun _ => .inl (charAt_ends hend)⟩
  | cons c cs =>
    rw [forall_mem_cons] at hcs
    obtain ⟨b, bs, hbytes, h0, hsep, hdot⟩ := head_utf8Bytes hcs.1
    rw [flatMap_cons, append_assoc, hbytes, cons_append]
    have hat : charAt (b :: (bs ++ (cs.flatMap utf8Bytes ++ rest))) 0 = b := rfl
    rw [hat, hdot]
    constructor
    · rintro ((h | h) | ⟨rfl, hnext⟩)
      · exact absurd h h0
      · exact absurd h hsep
      · obtain rfl : bs = [] := (List.cons.inj (hbytes.symm.trans (utf8Bytes_ascii (by decide)))).2
        right
        cases cs with
        | nil => rfl
        | cons c' cs =>
          obtain ⟨b', bs', hbytes', h0', hsep', -⟩ := head_utf8Bytes (hcs.2 c' mem_cons_self)
          rw [nil_append, flatMap_cons, append_assoc, hbytes', cons_append] at hnext
          exact (hnext.elim h0' hsep').elim
    · rintro (h | h)
      · cases h
      · obtain ⟨rfl, rfl⟩ := List.cons.inj h
        obtain rfl : bs = [] := (List.cons.inj (hbytes.symm.trans (utf8Bytes_ascii (by decide)))).2
        exact .inr ⟨rfl, charAt_ends hend⟩

/-- A "." or ".." component. -/
def DotWord (w : Text) : Prop := w = [chr '.'] ∨ w = [chr '.', chr '.']

instance (w : Text) : Decidable (DotWord w) := inferInstanceAs (Decidable (_ ∨ _))

theorem dotWord_cons (hcs : ∀ c ∈ cs, WordChar c) :
    DotWord (utf8Bytes 0x2E ++ cs.flatMap utf8Bytes) ↔ cs = [] ∨ cs = [0x2E] := by
  have hdot : utf8Bytes 0x2E = [chr '.'] := utf8Bytes_ascii (by decide)
  rw [DotWord, hdot, singleton_append]
  constructor
  · rintro (h | h)
    · have hnil := (List.cons.inj h).2
      cases cs with
      | nil => exact .inl rfl
      | cons c cs =>
        obtain ⟨b, bs, hbytes, -⟩ := head_utf8Bytes (hcs c mem_cons_self)
        rw [flatMap_cons, hbytes] at hnil
        cases hnil
    · have hone := (List.cons.inj h).2
      cases cs with
      | nil => exact .inl rfl
      | cons c cs =>
        rw [forall_mem_cons] at hcs
        obtain ⟨b, bs, hbytes, -, -, hb⟩ := head_utf8Bytes hcs.1
        rw [flatMap_cons, hbytes, cons_append] at hone
        obtain ⟨hbdot, hrest⟩ := List.cons.inj hone
        obtain rfl := hb.1 hbdot
        cases cs with
        | nil => exact .inr rfl
        | cons c cs =>
          obtain ⟨b', bs', hbytes', -⟩ := head_utf8Bytes (hcs.2 c mem_cons_self)
          rw [flatMap_cons, hbytes'] at hrest
          simp at hrest
  · rintro (rfl | rfl)
    · exact .inl rfl
    · exact .inr (by rw [flatMap_cons, hdot]; rfl)

/-- A component from its start: a "." or ".." component is refused. -/
theorem unixPathFrom_component (hcs : ∀ c ∈ cs, WordChar c) (hend : EndsComponent rest)
    (hstart : done = [] ∨ done.getLast? = some (chr '/'))
    (hres : Pursued (unixPathFrom pvfs flags done (cs.flatMap utf8Bytes ++ rest) name)) :
    (DotWord (cs.flatMap utf8Bytes) ∧
        unixPathFrom pvfs flags done (cs.flatMap utf8Bytes ++ rest) name = .error .objectPathSyntaxBad) ∨
      ¬DotWord (cs.flatMap utf8Bytes) ∧ EndsOrPasses pvfs flags done rest cs name := by
  cases cs with
  | nil =>
    have hno : ¬DotWord ([].flatMap utf8Bytes) := by decide
    exact .inr ⟨hno, .nil⟩
  | cons c cs =>
    rw [forall_mem_cons] at hcs
    by_cases hbad : c = 0x2E ∧ dotComponent done (cs.flatMap utf8Bytes ++ rest) = true
    · obtain ⟨rfl, hdot⟩ := hbad
      refine .inl ⟨(dotWord_cons hcs.2).2 ((dotComponent_iff hcs.2 hend hstart).1 hdot), ?_⟩
      rw [flatMap_cons, append_assoc, utf8Bytes_ascii (by decide), singleton_append,
        unixPathFrom_ascii (by decide) (by decide), show UInt8.ofNat 0x2E = chr '.' from rfl, pathChar_dot, hdot]
      rfl
    · refine .inr ⟨fun h => ?_, .cons hcs.1 (fun hc => Bool.eq_false_iff.2 fun h => hbad ⟨hc, h⟩) hres
        fun name' hslash hres' => ?_⟩
      · obtain ⟨b, bs, hbytes, -, -, hb⟩ := head_utf8Bytes hcs.1
        rw [flatMap_cons] at h
        have hc : c = 0x2E := by
          rw [hbytes] at h
          rcases h with h | h <;> exact hb.1 (List.cons.inj h).1
        subst hc
        exact hbad ⟨rfl, (dotComponent_iff hcs.2 hend hstart).2 ((dotWord_cons hcs.2).1 h)⟩
      · have hne : utf8Bytes c ≠ [] := length_pos_iff.1 (length_utf8Bytes_pos c)
        exact unixPathFrom_within hcs.2 (append_ne_nil_of_right_ne_nil _ hne) (getLast?_utf8Bytes hcs.1 hslash) hres'

/-! ## The components of a name -/

/-- What is before the colon of a component. -/
def cut (w : Text) : Text := w.takeWhile (· ≠ chr ':')

/-- The components of the path for the components of a name, which start with one that is not empty: they go up to the
first colon, and an empty component at the end is dropped. -/
def pathOf : List Text → List Text
  | [] => []
  | w :: ws => if chr ':' ∈ w then [cut w] else if ws = [[]] then [w] else w :: pathOf ws

/-- A "." or ".." component stands before the first colon. -/
def HasDots (ws : List Text) : Prop := ∃ w ∈ ws.takeWhile fun w => chr ':' ∉ w, DotWord w

instance (ws : List Text) : Decidable (HasDots ws) := inferInstanceAs (Decidable (∃ _ ∈ _, _))

theorem hasDots_cons_of_colon (h : chr ':' ∈ w) : ¬HasDots (w :: ws) := by
  rw [HasDots, takeWhile_cons_of_neg (by simpa using h)]
  exact nofun

theorem hasDots_cons (h : chr ':' ∉ w) : HasDots (w :: ws) ↔ DotWord w ∨ HasDots ws := by
  rw [HasDots, takeWhile_cons_of_pos (by simpa using h), exists_mem_cons_iff, HasDots]

theorem not_mem_colon_of_dotWord (h : DotWord w) : chr ':' ∉ w := by
  rcases h with rfl | rfl <;> decide

theorem pathOf_ne_nil : pathOf (w :: ws) ≠ [] := by
  rw [pathOf]
  split
  · exact cons_ne_nil _ _
  · split <;> exact cons_ne_nil _ _

theorem fullName_of_not_mem (h : 0 ∉ done) : fullName pvfs done = pvfs.baseDirectory ++ chr '/' :: done := by
  rw [fullName, cstr, takeWhile_eq_self_iff.2 fun b hb => by simpa using fun h0 : b = 0 => h (h0 ▸ hb)]

/-- `unixPathFrom_component` for the bytes of a component. -/
theorem unixPathFrom_word (hw : Word w) (hend : EndsComponent rest)
    (hstart : done = [] ∨ done.getLast? = some (chr '/')) (h0 : 0 ∉ done)
    (hres : Pursued (unixPathFrom pvfs flags done (w ++ rest) name)) :
    (DotWord w ∧ unixPathFrom pvfs flags done (w ++ rest) name = .error .objectPathSyntaxBad) ∨
      ¬DotWord w ∧ ((chr ':' ∈ w ∧ chr '/' ∉ cut w ∧ ∃ r, unixPathFrom pvfs flags done (w ++ rest) name = .ok r ∧
          r.fullName = pvfs.baseDirectory ++ chr '/' :: (done ++ cut w)) ∨
        chr ':' ∉ w ∧ chr '/' ∉ w ∧ ∃ name', unixPathFrom pvfs flags done (w ++ rest) name =
          unixPathFrom pvfs flags (done ++ w) rest name') := by
  obtain ⟨cs, hcs, rfl⟩ := hw
  have hs : ∀ c ∈ cs, Scalar c := fun c hc => (hcs c hc).1
  rcases unixPathFrom_component hcs hend hstart hres with
    h | ⟨hno, ⟨us, vs, rfl, hu, hu', r, hok, hfull⟩ | ⟨hc, hc', name', hpass⟩⟩
  · exact .inl h
  · have hus : ∀ c ∈ us, WordChar c := fun c hc => hcs c (mem_append_left _ hc)
    have hcolon : chr ':' ∉ us.flatMap utf8Bytes := by
      rw [mem_flatMap_utf8Bytes (fun c hc => (hus c hc).1) (by decide)]
      exact hu
    have hword : (us ++ 0x3A :: vs).flatMap utf8Bytes = us.flatMap utf8Bytes ++ chr ':' :: vs.flatMap utf8Bytes := by
      rw [flatMap_append, flatMap_cons, utf8Bytes_ascii (by decide)]
      rfl
    have hcut : cut ((us ++ 0x3A :: vs).flatMap utf8Bytes) = us.flatMap utf8Bytes := by
      rw [cut, hword, takeWhile_append_of_pos]
      · rw [takeWhile_cons_of_neg (by simp), append_nil]
      · intro b hb
        simpa using fun h : b = chr ':' => hcolon (h ▸ hb)
    refine .inr ⟨hno, .inl ⟨by rw [hword]; exact mem_append_right _ mem_cons_self, ?_, r, hok, ?_⟩⟩
    · rw [hcut, mem_flatMap_utf8Bytes (fun c hc => (hus c hc).1) (by decide)]
      exact hu'
    · rw [hfull, hcut, fullName_of_not_mem]
      exact fun h => (mem_append.1 h).elim h0 (Word.not_mem ⟨us, hus, rfl⟩).1
  · refine .inr ⟨hno, .inr ⟨?_, ?_, name', hpass⟩⟩
    · rw [mem_flatMap_utf8Bytes hs (by decide)]
      exact hc
    · rw [mem_flatMap_utf8Bytes hs (by decide)]
      exact hc'

/-- Of the joined components, the first byte is missing only if there is one component, which is empty. -/
theorem charAt_join_eq_zero (hw : Word w) : charAt ([chr '\\'].intercalate (w :: ws)) 0 = 0 ↔ w :: ws = [[]] := by
  cases w with
  | cons b w =>
    have hb : b ≠ 0 := fun h => hw.not_mem.1 (h ▸ mem_cons_self)
    have : charAt ([chr '\\'].intercalate ((b :: w) :: ws)) 0 = b := by
      cases ws with
      | nil => rw [intercalate_singleton]; rfl
      | cons v ws => rw [intercalate_cons_cons]; rfl
    rw [this]
    exact ⟨fun h => absurd h hb, fun h => nomatch (List.cons.inj h).1⟩
  | nil =>
    cases ws with
    | nil => exact ⟨fun _ => rfl, fun _ => rfl⟩
    | cons v ws =>
      rw [intercalate_cons_cons]
      exact ⟨fun h => absurd (show chr '\\' = 0 from h) (by decide), fun h => nomatch (List.cons.inj h).2⟩

theorem unixPathFrom_join (hws : ∀ v ∈ w :: ws, Word v)
    (hstart : done = [] ∨ done.getLast? = some (chr '/')) (h0 : 0 ∉ done) (hfirst : done ≠ [] ∨ w ≠ [])
    (hres : Pursued (unixPathFrom pvfs flags done ([chr '\\'].intercalate (w :: ws)) name)) :
    (HasDots (w :: ws) ∧
        unixPathFrom pvfs flags done ([chr '\\'].intercalate (w :: ws)) name = .error .objectPathSyntaxBad) ∨
      ¬HasDots (w :: ws) ∧ (∀ v ∈ pathOf (w :: ws), chr '/' ∉ v) ∧ ∃ r,
        unixPathFrom pvfs flags done ([chr '\\'].intercalate (w :: ws)) name = .ok r ∧
          r.fullName = pvfs.baseDirectory ++ chr '/' :: (done ++ [chr '/'].intercalate (pathOf (w :: ws))) := by
  induction hn : ws.length using Nat.strong_induction_on generalizing ws w done name with
  | _ n ih =>
  have hw : Word w := hws w mem_cons_self
  -- the component, and what stands behind it
  obtain ⟨rest, hjoin, hend⟩ : ∃ rest, [chr '\\'].intercalate (w :: ws) = w ++ rest ∧ EndsComponent rest ∧
      (ws = [] ∧ rest = [] ∨ ws ≠ [] ∧ rest = chr '\\' :: [chr '\\'].intercalate ws) := by
    cases ws with
    | nil => exact ⟨[], by rw [intercalate_singleton, append_nil], .inl rfl, .inl ⟨rfl, rfl⟩⟩
    | cons v ws =>
      exact ⟨_, by rw [intercalate_cons_cons, append_assoc]; rfl, .inr ⟨_, rfl⟩,
        .inr ⟨cons_ne_nil _ _, rfl⟩⟩
  obtain ⟨hend, hrest⟩ := hend
  rw [hjoin] at hres ⊢
  rcases unixPathFrom_word hw hend hstart h0 hres with
    ⟨hdot, herr⟩ | ⟨hno, ⟨hcolon, hslash, r, hok, hfull⟩ | ⟨hcolon, hslash, name', hpass⟩⟩
  · exact .inl ⟨(hasDots_cons (not_mem_colon_of_dotWord hdot)).2 (.inl hdot), herr⟩
  · refine .inr ⟨hasDots_cons_of_colon hcolon, ?_, r, hok, ?_⟩
    · rw [pathOf, if_pos hcolon]
      exact fun v hv => mem_singleton.1 hv ▸ hslash
    · rw [hfull, pathOf, if_pos hcolon, intercalate_singleton]
  · have hdone : 0 ∉ done ++ w := fun h => (mem_append.1 h).elim h0 hw.not_mem.1
    -- the path is over behind this component
    have hover : pathOf (w :: ws) = [w] → (∀ v ∈ ws, ¬DotWord v) → ¬HasDots (w :: ws) ∧
        ∀ v ∈ pathOf (w :: ws), chr '/' ∉ v := by
      intro hpath hws'
      refine ⟨?_, by rw [hpath]; exact fun v hv => mem_singleton.1 hv ▸ hslash⟩
      rw [hasDots_cons hcolon]
      rintro (h | ⟨v, hv, hd⟩)
      · exact hno h
      · exact hws' v ((takeWhile_subset _) hv) hd
    rcases hrest with ⟨rfl, rfl⟩ | ⟨hne, rfl⟩
    · have hpath : pathOf [w] = [w] := by rw [pathOf, if_neg hcolon, if_neg (by simp), pathOf]
      obtain ⟨hd, hs⟩ := hover hpath nofun
      refine .inr ⟨hd, hs, { name' with fullName := fullName pvfs (done ++ w) }, ?_, ?_⟩
      · rw [hpass, unixPathFrom]
      · rw [hpath, intercalate_singleton]
        exact fullName_of_not_mem hdone
    · obtain ⟨v, vs, rfl⟩ := exists_cons_of_ne_nil hne
      have hvs : ∀ u ∈ v :: vs, Word u := fun u hu => hws u (mem_cons_of_mem _ hu)
      have hdw : done ++ w ≠ [] := by
        rcases hfirst with h | h
        · exact append_ne_nil_of_left_ne_nil h _
        · exact append_ne_nil_of_right_ne_nil _ h
      have hstep := @unixPathFrom_ascii pvfs flags (done ++ w) ([chr '\\'].intercalate (v :: vs)) name' 0x5C (by decide)
        (by decide)
      rw [show UInt8.ofNat 0x5C = chr '\\' from rfl] at hstep
      rw [hpass] at hres ⊢
      rcases @pathChar_separator pvfs flags (done ++ w) ([chr '\\'].intercalate (v :: vs)) name' with he | hok
      · rw [he] at hstep
        exact absurd (hres _ hstep) (by decide)
      · rw [hok] at hstep
        dsimp only at hstep
        by_cases hlast : v :: vs = [[]]
        · -- a separator at the end is cut off
          rw [if_pos ⟨hdw, (charAt_join_eq_zero (hvs v mem_cons_self)).2 hlast⟩] at hstep
          have hpath : pathOf (w :: v :: vs) = [w] := by rw [pathOf, if_neg hcolon, if_pos hlast]
          obtain ⟨hd, hs⟩ := hover hpath (by rw [hlast]; decide)
          refine .inr ⟨hd, hs, { name' with fullName := fullName pvfs (done ++ w ++ [0]) }, ?_, ?_⟩
          · rw [hstep, hlast, intercalate_singleton, unixPathFrom]
          · rw [hpath, intercalate_singleton]
            show fullName pvfs (done ++ w ++ [0]) = _
            rw [← fullName_of_not_mem hdone, fullName, fullName, cstr, cstr, takeWhile_append_of_pos]
            · rw [takeWhile_cons_of_neg (by simp), append_nil,
                takeWhile_eq_self_iff.2 fun b hb => by simpa using fun h0 : b = 0 => hdone (h0 ▸ hb)]
            · exact fun b hb => by simpa using fun h0 : b = 0 => hdone (h0 ▸ hb)
        · rw [if_neg fun h => hlast ((charAt_join_eq_zero (hvs v mem_cons_self)).1 h.2)] at hstep
          rw [hstep] at hres ⊢
          have hpath : pathOf (w :: v :: vs) = w :: pathOf (v :: vs) := by rw [pathOf, if_neg hcolon, if_neg hlast]
          have hdots : HasDots (w :: v :: vs) ↔ HasDots (v :: vs) := by
            rw [hasDots_cons hcolon]
            exact or_iff_right hno
          rw [hdots, hpath]
          rcases ih vs.length (by rw [← hn]; exact Nat.lt_succ_self _) hvs (.inr List.getLast?_concat)
              (fun h => (mem_append.1 h).elim hdone (by decide))
              (.inl (append_ne_nil_of_right_ne_nil _ (by simp))) hres rfl with herr | ⟨hd, hs, r, hr, hfull⟩
          · exact .inl herr
          · refine .inr ⟨hd, ?_, r, hr, ?_⟩
            · intro u hu
              rcases mem_cons.1 hu with rfl | hu
              · exact hslash
              · exact hs u hu
            · rw [hfull, intercalate_cons_of_ne_nil pathOf_ne_nil]
              simp only [append_assoc, singleton_append]

theorem dropWhile_join : ∀ {ws : List Text}, (∀ v ∈ ws, Word v) →
    ([chr '\\'].intercalate ws).dropWhile (· = chr '\\') = [chr '\\'].intercalate (ws.dropWhile (· = []))
  | [], _ => rfl
  | [] :: [], _ => rfl
  | [] :: v :: ws, h => by
    rw [intercalate_cons_cons, nil_append, singleton_append, dropWhile_cons_of_pos (by simp),
      dropWhile_cons_of_pos (by simp)]
    exact dropWhile_join fun u hu => h u (mem_cons_of_mem _ hu)
  | (b :: w) :: ws, h => by
    have hb : b ≠ chr '\\' := fun hb => (h _ mem_cons_self).not_mem.2 (hb ▸ mem_cons_self)
    rw [dropWhile_cons_of_neg (by simp)]
    cases ws with
    | nil => rw [intercalate_singleton, dropWhile_cons_of_neg (by simpa using hb)]
    | cons v ws =>
      rw [intercalate_cons_cons, append_assoc, cons_append,
        dropWhile_cons_of_neg (by simpa using hb)]

/-- `pvfs_unix_path` on a name, by its components. -/
theorem unixPath_join (hws : ∀ v ∈ ws, Word v) (hres : Pursued (unixPath pvfs flags ([chr '\\'].intercalate ws))) :
    (HasDots (ws.dropWhile (· = [])) ∧
        unixPath pvfs flags ([chr '\\'].intercalate ws) = .error .objectPathSyntaxBad) ∨
      ¬HasDots (ws.dropWhile (· = [])) ∧ (∀ v ∈ pathOf (ws.dropWhile (· = [])), chr '/' ∉ v) ∧ ∃ r,
        unixPath pvfs flags ([chr '\\'].intercalate ws) = .ok r ∧
          r.fullName = pvfs.baseDirectory ++ chr '/' ::
            if ws.dropWhile (· = []) = [] then [chr '.'] else [chr '/'].intercalate (pathOf (ws.dropWhile (· = []))) := by
  rw [unixPath, dropWhile_join hws] at hres ⊢
  cases hd : ws.dropWhile (· = []) with
  | nil =>
    rw [intercalate_nil]
    exact .inr ⟨by decide, nofun, _, if_pos rfl, rfl⟩
  | cons w ws' =>
    have hmem : ∀ v ∈ w :: ws', Word v := fun v hv => hws v ((dropWhile_subset _) (hd ▸ hv))
    have hw : w ≠ [] := by
      have := head_dropWhile_not (fun w : Text => decide (w = [])) (l := ws) (by rw [hd]; simp)
      simpa [hd] using this
    have hne : [chr '\\'].intercalate (w :: ws') ≠ [] := by
      cases ws' with
      | nil => rwa [intercalate_singleton]
      | cons v ws' =>
        rw [intercalate_cons_cons, append_assoc]
        exact append_ne_nil_of_left_ne_nil hw _
    rw [hd] at hres
    rw [if_neg hne] at hres ⊢
    rw [if_neg (cons_ne_nil _ _)]
    rcases unixPathFrom_join hmem (.inl rfl) not_mem_nil (.inr hw) hres with h | ⟨hdots, hs, r, hr, hfull⟩
    · exact .inl h
    · exact .inr ⟨hdots, hs, r, hr, by rw [hfull, nil_append]⟩

end

/-! ## Paths inside the share -/

/-- The file name is the base directory and a path below it none of whose components is "." or "..", or the share root. -/
def Inside (pvfs : PvfsState) (r : PvfsFilename) : Prop :=
  ∃ path, r.fullName = pvfs.baseDirectory ++ chr '/' :: path ∧
    (path = [chr '.'] ∨ ∀ w ∈ path.splitOn (chr '/'), ¬DotWord w)

/-- The first component with a colon is a stream of "..", or one of "." that is not the first component. -/
def Escapes (first : Bool) : List Text → Prop
  | [] => False
  | w :: ws =>
    if chr ':' ∈ w then cut w = [chr '.', chr '.'] ∨ (cut w = [chr '.'] ∧ first = false) else Escapes false ws

instance decidableEscapes : ∀ (first : Bool) (ws : List Text), Decidable (Escapes first ws)
  | _, [] => isFalse id
  | first, w :: ws =>
    have : Decidable (Escapes false ws) := decidableEscapes false ws
    decidable_of_iff (if chr ':' ∈ w then cut w = [chr '.', chr '.'] ∨ (cut w = [chr '.'] ∧ first = false)
      else Escapes false ws) (by rw [Escapes])

/-- A name leads out of the share: leading separators aside, one of its components escapes. -/
def LeadsOut (ws : List Text) : Prop := Escapes true (ws.dropWhile (· = []))

instance (ws : List Text) : Decidable (LeadsOut ws) := inferInstanceAs (Decidable (Escapes _ _))

theorem exists_dotWord_pathOf {ws : List Text} (h : ¬HasDots ws) :
    (∃ v ∈ pathOf ws, DotWord v) ↔ Escapes false ws := by
  induction ws with
  | nil => exact ⟨nofun, False.elim⟩
  | cons w ws ih =>
    rw [pathOf, Escapes]
    by_cases hcolon : chr ':' ∈ w
    · rw [if_pos hcolon, if_pos hcolon, exists_mem_cons_iff]
      constructor
      · rintro (h | h)
        · exact h.elim (fun h => .inr ⟨h, rfl⟩) .inl
        · exact absurd h nofun
      · rintro (h | ⟨h, -⟩)
        · exact .inl (.inr h)
        · exact .inl (.inl h)
    · rw [hasDots_cons hcolon, not_or] at h
      rw [if_neg hcolon, if_neg hcolon]
      by_cases hlast : ws = [[]]
      · rw [if_pos hlast, hlast, exists_mem_cons_iff]
        refine ⟨?_, ?_⟩
        · rintro (h' | h')
          · exact absurd h' h.1
          · exact absurd h' nofun
        · intro he
          rw [Escapes, if_neg (by decide)] at he
          exact he.elim
      · rw [if_neg hlast, exists_mem_cons_iff, ← ih h.2]
        exact or_iff_right h.1

/-- The path of a name is inside the share unless the name leads out of it. -/
theorem inside_iff {pvfs : PvfsState} {r : PvfsFilename} {ws : List Text} (hdots : ¬HasDots (ws.dropWhile (· = [])))
    (hslash : ∀ v ∈ pathOf (ws.dropWhile (· = [])), chr '/' ∉ v)
    (hfull : r.fullName = pvfs.baseDirectory ++ chr '/' ::
      if ws.dropWhile (· = []) = [] then [chr '.'] else [chr '/'].intercalate (pathOf (ws.dropWhile (· = [])))) :
    Inside pvfs r ↔ ¬LeadsOut ws := by
  rw [LeadsOut]
  generalize ws.dropWhile (· = []) = ws at hdots hslash hfull ⊢
  cases ws with
  | nil => exact ⟨fun _ h => h, fun _ => ⟨[chr '.'], hfull, .inl rfl⟩⟩
  | cons w ws =>
    rw [if_neg (cons_ne_nil _ _)] at hfull
    have hsplit : ([chr '/'].intercalate (pathOf (w :: ws))).splitOn (chr '/') = pathOf (w :: ws) :=
      splitOn_intercalate _ hslash pathOf_ne_nil
    have hinside : Inside pvfs r ↔ [chr '/'].intercalate (pathOf (w :: ws)) = [chr '.'] ∨
        ∀ v ∈ pathOf (w :: ws), ¬DotWord v := by
      constructor
      · rintro ⟨path, hpath, h⟩
        rw [hfull] at hpath
        obtain rfl := (List.cons.inj (append_cancel_left hpath)).2
        rwa [hsplit] at h
      · exact fun h => ⟨_, hfull, by rwa [hsplit]⟩
    rw [hinside]
    by_cases hcolon : chr ':' ∈ w
    · rw [pathOf, if_pos hcolon, intercalate_singleton, Escapes, if_pos hcolon]
      constructor
      · rintro (h | h)
        · rintro (h' | ⟨-, h'⟩)
          · rw [h] at h'; exact absurd h' (by decide)
          · cases h'
        · rintro (h' | ⟨-, h'⟩)
          · exact h _ mem_cons_self (.inr h')
          · cases h'
      · intro h
        by_cases hdot : cut w = [chr '.']
        · exact .inl hdot
        · refine .inr fun v hv => ?_
          rw [mem_singleton.1 hv]
          exact fun hd => hd.elim hdot fun hd => h (.inl hd)
    · have hne : [chr '/'].intercalate (pathOf (w :: ws)) ≠ [chr '.'] := by
        intro h
        have hword : ¬DotWord w := fun hd => hdots ((hasDots_cons hcolon).2 (.inl hd))
        have hsingle : pathOf (w :: ws) = [[chr '.']] := by rw [← hsplit, h]; decide
        rw [pathOf, if_neg hcolon] at hsingle
        split at hsingle
        · exact hword (.inl (List.cons.inj hsingle).1)
        · exact hword (.inl (List.cons.inj hsingle).1)
      have hesc : Escapes true (w :: ws) ↔ Escapes false (w :: ws) := by
        rw [Escapes, Escapes, if_neg hcolon, if_neg hcolon]
      rw [hesc, ← exists_dotWord_pathOf hdots]
      constructor
      · rintro (h | h)
        · exact absurd h hne
        · rintro ⟨v, hv, hd⟩
          exact h v hv hd
      · exact fun h => .inr fun v hv hd => h ⟨v, hv, hd⟩

end Samba.Ntvfs
