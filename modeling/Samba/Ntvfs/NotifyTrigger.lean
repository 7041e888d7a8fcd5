/-
`notify_trigger` sends one message to each watch of a directory on the path whose filter meets the event, and no other:
the bisection at each depth finds the watches of the directory, and the masks skip no watch that is met.
-/
import Samba.Ntvfs.Notify

namespace Samba.Notify

open CString List Samba.Cluster Transition

/-! ## The stored array -/

/-- The watches of one depth: in order of their paths, and none outside the masks. -/
structure DepthOK (depth : Nat) (d : NotifyDepth) : Prop where
  sorted : d.entries.Pairwise fun e1 e2 => notifyCompare e1 e2 ≤ 0
  length : ∀ e ∈ d.entries, e.pathLen = e.path.length
  depth : ∀ e ∈ d.entries, e.path.count slash = depth
  masks : ∀ e ∈ d.entries, ∀ subdir f, f &&& d.mask subdir = 0 → f &&& e.mask subdir = 0

def ArrayOK (array : NotifyArray) : Prop := ∀ depth d, array[depth]? = some d → DepthOK depth d

theorem DepthOK.empty (depth : Nat) (maxMask maxMaskSubdir : UInt32) : DepthOK depth ⟨maxMask, maxMaskSubdir, []⟩ :=
  ⟨.nil, fun _ h => (nomatch h), fun _ h => (nomatch h), fun _ h => (nomatch h)⟩

theorem and_or_zero (f a b : UInt32) : f &&& (a ||| b) = 0 ↔ f &&& a = 0 ∧ f &&& b = 0 := by
  simp only [← UInt32.toBitVec_inj, UInt32.toBitVec_and, UInt32.toBitVec_or]
  rw [BitVec.and_or_distrib_left]
  exact BitVec.or_eq_zero_iff

variable {entries : List NotifyEntry} {depth p : Nat} {e : NotifyEntry} {array : NotifyArray} {path : Text}

/-- A filter outside a union of filters is outside each. -/
theorem and_foldl_or {g : NotifyEntry → UInt32} {f : UInt32} {m : UInt32}
    (h : f &&& entries.foldl (fun mask e => mask ||| g e) m = 0) : f &&& m = 0 ∧ ∀ e ∈ entries, f &&& g e = 0 := by
  induction entries generalizing m with
  | nil => exact ⟨h, fun _ h => (nomatch h)⟩
  | cons e entries ih =>
    obtain ⟨hm, hrest⟩ := ih h
    rw [and_or_zero] at hm
    exact ⟨hm.1, forall_mem_cons.mpr ⟨hm.2, hrest⟩⟩

theorem addEntry_ok {qsort : List NotifyEntry → List NotifyEntry} (hq : Qsorts qsort) {d : NotifyDepth}
    (h : DepthOK depth d) (hlen : e.pathLen = e.path.length) (hdepth : e.path.count slash = depth) :
    DepthOK depth (addEntry qsort e d) := by
  have hentries : ∃ entries, (addEntry qsort e d) =
      ⟨entries.foldl (fun mask e => mask ||| e.filter) 0, entries.foldl (fun mask e => mask ||| e.subdirFilter) 0, entries⟩ ∧
      entries.Perm (d.entries ++ [e]) ∧ entries.Pairwise fun e1 e2 => notifyCompare e1 e2 ≤ 0 := by
    refine ⟨_, rfl, ?_⟩
    split
    case isTrue => exact hq _
    case isFalse hone =>
      refine ⟨.refl _, ?_⟩
      cases hd : d.entries with
      | nil => exact pairwise_singleton _ _
      | cons a l =>
        rw [hd] at hone
        simp at hone
  obtain ⟨entries, heq, hperm, hsorted⟩ := hentries
  have hmem : ∀ a ∈ entries, a ∈ d.entries ∨ a = e := by
    intro a ha
    rcases mem_append.mp (hperm.mem_iff.mp ha) with ha | ha
    · exact .inl ha
    · exact .inr (mem_singleton.mp ha)
  rw [heq]
  refine ⟨hsorted, fun a ha => ?_, fun a ha => ?_, fun a ha subdir f hf => ?_⟩
  · rcases hmem a ha with ha | rfl
    · exact h.length a ha
    · exact hlen
  · rcases hmem a ha with ha | rfl
    · exact h.depth a ha
    · exact hdepth
  · cases subdir with
    | false => exact (and_foldl_or hf).2 a ha
    | true => exact (and_foldl_or hf).2 a ha

theorem notifySave_ok (h : ArrayOK array) : ArrayOK (notifySave array) := by
  intro depth d hd
  refine h depth d ?_
  obtain ⟨rest, hrest⟩ : notifySave array <+: array := rdropWhile_prefix _ _
  rw [← hrest, List.getElem?_append_left (List.getElem?_eq_some_iff.mp hd).1]
  exact hd

theorem notifyAddArray_ok {qsort : List NotifyEntry → List NotifyEntry} (hq : Qsorts qsort)
    (h : ArrayOK array) (notify : NotifyContext) (e : NotifyEntry) (privateData : Nat) :
    ArrayOK (notifyAddArray qsort notify e privateData (e.path.count slash) array) := by
  refine notifySave_ok fun depth d hd => ?_
  have hext : ArrayOK (array ++ List.replicate (e.path.count slash + 1 - array.length) ⟨0, 0, []⟩) := by
    intro depth d hd
    rw [List.getElem?_append] at hd
    split at hd
    · exact h depth d hd
    · rw [List.getElem?_replicate] at hd
      split at hd
      · cases hd
        exact .empty depth 0 0
      · cases hd
  rw [List.getElem?_modify, Option.map_eq_map, Option.map_eq_some_iff] at hd
  obtain ⟨d', hd', rfl⟩ := hd
  split
  case isTrue heq => exact addEntry_ok hq (hext depth d' hd') rfl heq
  case isFalse => exact hext depth d' hd'

theorem removeEntry_ok {array' : NotifyArray} (h : ArrayOK array) {server : ServerId} {privateData : Nat}
    (hremove : removeEntry server privateData depth array = some array') : ArrayOK array' := by
  unfold removeEntry at hremove
  simp only [Option.bind_eq_bind, Option.bind_eq_some_iff, Option.pure_def, Option.some.injEq] at hremove
  obtain ⟨d, hd, i, -, rfl⟩ := hremove
  refine notifySave_ok fun depth' d' hd' => ?_
  rw [List.getElem?_set] at hd'
  split at hd'
  case isTrue heq =>
    split at hd'
    · cases hd'
      have hok := h depth d hd
      have hsub := eraseIdx_sublist d.entries i
      rw [← heq]
      exact ⟨hok.sorted.sublist hsub, fun e he => hok.length e (hsub.subset he), fun e he => hok.depth e (hsub.subset he),
        fun e he => hok.masks e (hsub.subset he)⟩
    · cases hd'
  case isFalse => exact h depth' d' hd'

theorem reachable_arrayOK {s : NotifyState} (h : notifySystem.Reachable s) : ArrayOK s.array := by
  refine @System.Reachable.invariant _ _ notifySystem (fun s => ArrayOK s.array) (fun s hs => ?_)
    (fun s c s' hi hs => ?_) _ h
  · cases hs
    intro depth d hd
    cases hd
  · cases c with
    | add notify e0 privateData =>
      obtain ⟨qsort, hq, rfl⟩ := hs
      unfold notifyAdd
      dsimp only
      split
      · exact notifyAddArray_ok hq hi notify _ privateData
      · exact hi
    | remove notify privateData =>
      cases hs
      unfold notifyRemove
      split
      · exact hi
      · dsimp only
        split
        · exact hi
        · rename_i array hremove
          exact removeEntry_ok hi hremove

/-! ## The bisection -/

/-- What is known of the watches outside the interval of the bisection for `dir`: those below it come before `dir`, those
above it behind `dir`, unless the last of the interval is of `dir` itself. -/
structure Bracket (dir : Text) (entries : List NotifyEntry) (minI maxI : Int) : Prop where
  zero_le : 0 ≤ minI
  lt_length : maxI < entries.length
  below : ∀ j (hj : j < entries.length), (j : Int) < minI → strcmp entries[j].path dir < 0
  above : ∀ j (hj : j < entries.length), maxI < (j : Int) → strcmp dir entries[j].path < 0 ∨
    ∃ (m : Nat) (hm : m < entries.length), (m : Int) = maxI ∧ entries[m].path = dir

theorem strcmp_pos {s t : Text} : 0 < strcmp s t ↔ strcmp t s < 0 := by
  rw [strcmp_swap s t]
  omega

theorem le_of_sorted (hsorted : entries.Pairwise fun e1 e2 => notifyCompare e1 e2 ≤ 0)
    {i j : Nat} (hi : i < entries.length) (hj : j < entries.length) (hij : i ≤ j) : strcmp entries[i].path entries[j].path ≤ 0 := by
  rcases Nat.lt_or_eq_of_le hij with hlt | rfl
  · exact pairwise_iff_getElem.mp hsorted i j hi hj hlt
  · exact (strcmp_self _).le

theorem bisect_bracket {path : Text} {pLen : Nat} (hp : pLen ≤ path.length) {entries : List NotifyEntry}
    (hsorted : entries.Pairwise fun e1 e2 => notifyCompare e1 e2 ≤ 0) (hlen : ∀ e ∈ entries, e.pathLen = e.path.length)
    {fuel : Nat} {minI maxI : Int} (h : Bracket (path.take pLen) entries minI maxI) (hfuel : maxI - minI ≤ fuel) :
    Bracket (path.take pLen) entries (bisect path pLen entries fuel minI maxI).1 (bisect path pLen entries fuel minI maxI).2 ∧
      (bisect path pLen entries fuel minI maxI).2 ≤ (bisect path pLen entries fuel minI maxI).1 := by
  induction fuel generalizing minI maxI with
  | zero => exact ⟨h, by simp only [bisect]; omega⟩
  | succ fuel ih =>
    rw [bisect]
    split
    case isFalse hmin => exact ⟨h, by omega⟩
    case isTrue hmin =>
      have hzero := h.zero_le
      have hlt := h.lt_length
      dsimp only
      generalize hmid : (minI + maxI) / 2 = mid
      obtain ⟨i, rfl⟩ : ∃ i : Nat, mid = i := ⟨mid.toNat, by omega⟩
      have hi : i < entries.length := by omega
      rw [Int.toNat_natCast, List.getElem?_eq_getElem hi]
      have hdir : (path.take pLen).length = pLen := length_take_of_le hp
      have hcmp := strcmp_take (path.take pLen) entries[i].path
      rw [hdir, ← show strncmp pLen path entries[i].path = strcmp (path.take pLen) (entries[i].path.take pLen) from rfl] at hcmp
      have hpath := hlen entries[i] (getElem_mem hi)
      -- the watches from here on are behind the directory
      have hbehind : strcmp (path.take pLen) entries[i].path < 0 → Bracket (path.take pLen) entries minI (i - 1) := by
        intro hneg
        refine ⟨hzero, by omega, h.below, fun j hj hij => .inl ?_⟩
        exact (strcmp_trans hneg.le (le_of_sorted hsorted hi hj (by omega))).2 (.inl hneg)
      dsimp only
      split
      case isTrue hsame =>
        split
        case isTrue hlen' =>
          -- this watch is of the directory
          have heq : strcmp (path.take pLen) entries[i].path = 0 := by
            have hneg : ¬ strcmp (path.take pLen) entries[i].path < 0 := by
              rw [hcmp.1]
              omega
            have hpos : ¬ 0 < strcmp (path.take pLen) entries[i].path := by
              rw [hcmp.2]
              omega
            omega
          refine ih ⟨hzero, by omega, h.below, fun j hj hij => .inr ⟨i, hi, rfl, ?_⟩⟩ (by omega)
          exact (strcmp_eq_zero.mp heq).symm
        case isFalse hlen' =>
          exact ih (hbehind (hcmp.1.mpr (.inr ⟨hsame, by omega⟩))) (by omega)
      case isFalse hne =>
        split
        case isTrue hneg => exact ih (hbehind (hcmp.1.mpr (.inl hneg))) (by omega)
        case isFalse hneg =>
          have hpos : strcmp entries[i].path (path.take pLen) < 0 := strcmp_pos.mp (hcmp.2.mpr (by omega))
          refine ih ⟨by omega, hlt, fun j hj hij => ?_, h.above⟩ (by omega)
          exact (strcmp_trans (le_of_sorted hsorted hj hi (by omega)) hpos.le).2 (.inr hpos)

/-! ## One depth -/

/-- The watch is of a directory on the path, and its filter for events there, or below, is met. -/
def Delivers (filter : UInt32) (path : Text) (e : NotifyEntry) : Prop :=
  ∃ rest, path = e.path ++ slash :: rest ∧
    (if slash ∈ rest then filter &&& e.subdirFilter ≠ 0 else filter &&& e.filter ≠ 0)

instance (filter : UInt32) (path : Text) (e : NotifyEntry) : Decidable (Delivers filter path e) :=
  decidable_of_iff (path = e.path ++ slash :: path.drop (e.path.length + 1) ∧
    (if slash ∈ path.drop (e.path.length + 1) then filter &&& e.subdirFilter ≠ 0 else filter &&& e.filter ≠ 0)) (by
      constructor
      · rintro ⟨h, hf⟩
        exact ⟨_, h, hf⟩
      · rintro ⟨rest, rfl, hf⟩
        have hdrop : (e.path ++ slash :: rest).drop (e.path.length + 1) = rest := by
          rw [← drop_drop, drop_left]
          rfl
        rw [hdrop]
        exact ⟨rfl, hf⟩)

/-- A place in the path behind a directory: the next character is a slash. -/
structure At (path : Text) (p depth : Nat) : Prop where
  next : path = path.take p ++ slash :: path.drop (p + 1)
  depth : (path.take p).count slash = depth

theorem At.le_length (h : At path p depth) : p < path.length := by
  by_contra hle
  have := congrArg List.length h.next
  rw [length_append, length_cons, take_of_length_le (by omega)] at this
  omega

/-- The only directory on the path at this depth. -/
theorem At.dir_eq (h : At path p depth) {dir rest : Text} (hpath : path = dir ++ slash :: rest)
    (hdepth : dir.count slash = depth) : dir = path.take p ∧ rest = path.drop (p + 1) := by
  have hlen := h.le_length
  have hslash := h.next
  have hcount := h.depth
  have htake : (path.take p).length = p := length_take_of_le hlen.le
  have key : dir.length = p := by
    rcases Nat.lt_trichotomy dir.length p with hlt | heq | hgt
    · -- the directory and its slash are in front of the place
      have hpre : dir ++ [slash] <+: path.take p :=
        prefix_of_prefix_length_le ⟨rest, by rw [hpath]; simp⟩ (List.take_prefix p path) (by simp; omega)
      obtain ⟨t, ht⟩ := hpre
      rw [← ht, count_append, count_append, count_singleton_self] at hcount
      omega
    · exact heq
    · have hpre : path.take p ++ [slash] <+: dir :=
        prefix_of_prefix_length_le ⟨path.drop (p + 1), by rw [append_assoc]; exact hslash.symm⟩
          ⟨slash :: rest, hpath.symm⟩ (by simp; omega)
      obtain ⟨t, ht⟩ := hpre
      rw [← ht, count_append, count_append, count_singleton_self] at hdepth
      omega
  have hdir : dir = path.take p := by rw [hpath, ← key, take_left]
  refine ⟨hdir, ?_⟩
  rw [hpath, ← key, ← drop_drop, drop_left]
  rfl

theorem At.delivers_iff (h : At path p depth) {filter : UInt32}
    (hdepth : e.path.count slash = depth) : Delivers filter path e ↔
      e.path = path.take p ∧ filter &&& e.mask (decide (slash ∈ path.drop (p + 1))) ≠ 0 := by
  have hmask : ∀ rest : Text, (if slash ∈ rest then filter &&& e.subdirFilter ≠ 0 else filter &&& e.filter ≠ 0) ↔
      filter &&& e.mask (decide (slash ∈ rest)) ≠ 0 := by
    intro rest
    by_cases hmem : slash ∈ rest <;> simp [hmem, NotifyEntry.mask]
  constructor
  · rintro ⟨rest, hpath, hf⟩
    obtain ⟨hdir, rfl⟩ := h.dir_eq hpath hdepth
    exact ⟨hdir, (hmask _).mp hf⟩
  · rintro ⟨hdir, hf⟩
    exact ⟨_, by rw [hdir]; exact h.next, (hmask _).mpr hf⟩

theorem strncmp_zero_iff {pLen : Nat} (hp : pLen ≤ path.length)
    (hlen : e.pathLen = e.path.length) : (pLen = e.pathLen ∧ strncmp pLen path e.path = 0) ↔ e.path = path.take pLen := by
  rw [strncmp, strcmp_eq_zero, hlen]
  constructor
  · rintro ⟨hl, heq⟩
    rw [heq, hl, take_length]
  · intro heq
    have hl : e.path.length = pLen := by rw [heq, length_take_of_le hp]
    exact ⟨hl.symm, by rw [← hl, take_length, hl, heq]⟩

theorem takeWhile_congr {α : Type} {p q : α → Bool} {l : List α} (h : ∀ a ∈ l, p a = q a) : l.takeWhile p = l.takeWhile q := by
  induction l with
  | nil => rfl
  | cons a l ih =>
    rw [takeWhile_cons, takeWhile_cons, h a mem_cons_self, ih fun b hb => h b (mem_cons_of_mem _ hb)]

/-- Behind the watches in front of a directory, its watches come first. -/
theorem takeWhile_dir {dir : Text} (hsorted : entries.Pairwise fun e1 e2 => notifyCompare e1 e2 ≤ 0)
    (hge : ∀ e ∈ entries, ¬ strcmp e.path dir < 0) :
    (entries.takeWhile fun e => e.path = dir) = entries.filter fun e => e.path = dir := by
  induction entries with
  | nil => rfl
  | cons e entries ih =>
    rw [pairwise_cons] at hsorted
    by_cases heq : e.path = dir
    · simp only [takeWhile_cons, filter_cons, heq, decide_true, if_true]
      rw [ih hsorted.2 fun a ha => hge a (mem_cons_of_mem _ ha)]
    · have hpos : strcmp dir e.path < 0 := by
        have h0 : strcmp e.path dir ≠ 0 := fun h => heq (strcmp_eq_zero.mp h)
        have := hge e mem_cons_self
        rw [← strcmp_pos]
        omega
      simp only [takeWhile_cons, filter_cons, heq, decide_false, Bool.false_eq_true, if_false]
      rw [eq_comm, filter_eq_nil_iff]
      intro a ha
      have := (strcmp_trans hpos.le (hsorted.1 a ha)).2 (.inl hpos)
      rw [decide_eq_true_eq]
      rintro rfl
      rw [strcmp_self] at this
      exact absurd this (by decide)

/-- The watches the loop goes over at a depth are those of the directory. -/
theorem bisect_matching {pLen : Nat} (hp : pLen ≤ path.length)
    (hsorted : entries.Pairwise fun e1 e2 => notifyCompare e1 e2 ≤ 0) (hlen : ∀ e ∈ entries, e.pathLen = e.path.length) :
    let r := bisect path pLen entries entries.length 0 (entries.length - 1)
    (if r.1 ≠ r.2 then []
      else (entries.drop r.1.toNat).takeWhile fun e => pLen = e.pathLen ∧ strncmp pLen path e.path = 0) =
      entries.filter fun e => e.path = path.take pLen := by
  have hstart : Bracket (path.take pLen) entries 0 (entries.length - 1) :=
    ⟨le_rfl, by omega, fun j hj hlt => by omega, fun j hj hlt => by omega⟩
  obtain ⟨hb, hle⟩ := @bisect_bracket path pLen hp entries hsorted hlen entries.length _ _ hstart (by omega)
  dsimp only
  generalize bisect path pLen entries entries.length 0 (entries.length - 1) = r at hb hle
  obtain ⟨minI, maxI⟩ := r
  have hzero := hb.zero_le
  have hlt := hb.lt_length
  dsimp only at hb hle hzero hlt ⊢
  have hbelow : ∀ j (hj : j < entries.length), (j : Int) < minI → entries[j].path ≠ path.take pLen := by
    intro j hj hjm heq
    have := hb.below j hj hjm
    rw [heq, strcmp_self] at this
    exact absurd this (by decide)
  split
  case isTrue hdiff =>
    rw [eq_comm, filter_eq_nil_iff]
    intro e he
    obtain ⟨j, hj, rfl⟩ := getElem_of_mem he
    rw [decide_eq_true_eq]
    by_cases hjm : (j : Int) < minI
    · exact hbelow j hj hjm
    · rcases hb.above j hj (by omega) with hneg | ⟨m, hm, hmax, hdir⟩
      · intro heq
        rw [heq, strcmp_self] at hneg
        exact absurd hneg (by decide)
      · exact absurd hdir (hbelow m hm (by omega))
  case isFalse hsame =>
    rw [not_not] at hsame
    subst hsame
    obtain ⟨i, rfl⟩ : ∃ i : Nat, minI = i := ⟨minI.toNat, by omega⟩
    have hi : i < entries.length := by omega
    rw [Int.toNat_natCast]
    have hcongr : ((entries.drop i).takeWhile fun e => pLen = e.pathLen ∧ strncmp pLen path e.path = 0) =
        (entries.drop i).takeWhile fun e => e.path = path.take pLen := by
      refine takeWhile_congr fun e he => ?_
      rw [decide_eq_decide]
      exact strncmp_zero_iff hp (hlen e (mem_of_mem_drop he))
    have hfront : (entries.take i).filter (fun e => e.path = path.take pLen) = [] := by
      rw [filter_eq_nil_iff]
      intro e he
      obtain ⟨j, hj, rfl⟩ := getElem_of_mem he
      rw [length_take] at hj
      rw [getElem_take, decide_eq_true_eq]
      exact hbelow j (by omega) (by omega)
    have hall : entries.filter (fun e => e.path = path.take pLen) = (entries.drop i).filter fun e => e.path = path.take pLen := by
      conv_lhs => rw [← take_append_drop i entries]
      rw [filter_append, hfront, nil_append]
    rw [hcongr, hall]
    by_cases hneg : strcmp entries[i].path (path.take pLen) < 0
    · -- the first watch that is left is in front of the directory, and all others are behind it
      have hno : ∀ e ∈ entries.drop i, e.path ≠ path.take pLen := by
        intro e he heq
        obtain ⟨k, hk, rfl⟩ := getElem_of_mem he
        rw [length_drop] at hk
        rw [getElem_drop] at heq
        cases k with
        | zero =>
          simp only [Nat.add_zero] at heq
          rw [heq, strcmp_self] at hneg
          exact absurd hneg (by decide)
        | succ k =>
          rcases hb.above (i + (k + 1)) (by omega) (by omega) with hpos | ⟨m, hm, hmax, hdir⟩
          · rw [heq, strcmp_self] at hpos
            exact absurd hpos (by decide)
          · obtain rfl : m = i := by omega
            rw [hdir, strcmp_self] at hneg
            exact absurd hneg (by decide)
      rw [filter_eq_nil_iff.mpr fun e he => by simpa using hno e he]
      rw [drop_eq_getElem_cons hi] at hno ⊢
      simp only [takeWhile_cons, hno _ mem_cons_self, decide_false, Bool.false_eq_true, if_false]
    · refine takeWhile_dir (hsorted.sublist (drop_sublist _ _)) fun e he hlt => hneg ?_
      obtain ⟨k, hk, rfl⟩ := getElem_of_mem he
      rw [length_drop] at hk
      rw [getElem_drop] at hlt
      exact (strcmp_trans (le_of_sorted hsorted hi (by omega) (by omega)) hlt.le).2 (.inr hlt)

/-- At one depth a message goes to each watch that is met. -/
theorem triggerDepth_eq {action filter : UInt32} (hat : At path p depth) {d : NotifyDepth}
    (hd : DepthOK depth d) : triggerDepth action filter path p (decide (slash ∈ path.drop (p + 1))) d =
      (d.entries.filter fun e => Delivers filter path e).map (notifySend action path) := by
  have hp := hat.le_length.le
  have hdelivers : d.entries.filter (fun e => Delivers filter path e) =
      (d.entries.filter fun e => e.path = path.take p).filter
        fun e => filter &&& e.mask (decide (slash ∈ path.drop (p + 1))) ≠ 0 := by
    rw [filter_filter]
    refine filter_congr fun e he => ?_
    rw [decide_eq_decide.mpr (hat.delivers_iff (hd.depth e he)), Bool.decide_and, Bool.and_comm]
  rw [hdelivers]
  unfold triggerDepth
  split
  case isTrue hnil =>
    rw [length_eq_zero_iff.mp hnil]
    rfl
  case isFalse hne =>
    split
    case isTrue hmask =>
      -- no filter of this depth is met
      rw [eq_comm, map_eq_nil_iff, filter_eq_nil_iff]
      intro e he
      rw [hd.masks e (mem_of_mem_filter he) _ _ hmask]
      simp
    case isFalse =>
      have hmatch := bisect_matching hp hd.sorted hd.length
      dsimp only at hmatch ⊢
      rw [← hmatch]
      split <;> rfl

/-! ## All depths -/

theorem isSome_strchr (s : Text) (c : UInt8) : (strchr s c).isSome = decide (c ∈ s) := by
  rw [strchr, List.findIdx?_isSome, Bool.eq_iff_iff, any_eq_true, decide_eq_true_eq]
  constructor
  · rintro ⟨d, hd, hdc⟩
    rwa [← of_decide_eq_true hdc]
  · exact fun h => ⟨c, h, decide_eq_true rfl⟩

/-- The next slash ends a directory that is one deeper. -/
theorem At.next_at (h : At path p depth) {n : Nat}
    (hn : strchr (path.drop (p + 1)) slash = some n) : At path (n + (p + 1)) (depth + 1) := by
  rw [strchr, List.findIdx?_eq_some_iff_getElem] at hn
  obtain ⟨hlt, hslash, hbefore⟩ := hn
  have hp := h.le_length
  have hfront : path.take (p + 1) = path.take p ++ [slash] := by
    have htake : (path.take p).length = p := length_take_of_le hp.le
    conv_lhs => rw [h.next]
    rw [take_append, htake, Nat.add_sub_cancel_left, take_of_length_le (by omega)]
    rfl
  have hbetween : ((path.drop (p + 1)).take n).count slash = 0 := by
    rw [count_eq_zero]
    intro hmem
    obtain ⟨j, hj, hjs⟩ := getElem_of_mem hmem
    rw [length_take] at hj
    rw [getElem_take] at hjs
    exact hbefore j (by omega) (decide_eq_true hjs)
  refine ⟨?_, ?_⟩
  · have hbound : n + (p + 1) < path.length := by
      rw [length_drop] at hlt
      omega
    have hget : path[n + (p + 1)] = slash := by
      rw [getElem_drop] at hslash
      have := of_decide_eq_true hslash
      simpa [Nat.add_comm] using this
    conv_lhs => rw [← take_append_drop (n + (p + 1)) path]
    rw [drop_eq_getElem_cons hbound, hget]
  · rw [Nat.add_comm n, take_add, count_append, hbetween, hfront, count_append, count_singleton_self,
      h.depth]

theorem triggerFrom_eq {action filter : UInt32} {path : Text} {ds : List NotifyDepth} {depth : Nat} {p : Option Nat}
    (hat : ∀ n, p = some n → At path n depth)
    (hnone : p = none → ∀ (i : Nat) d, ds[i]? = some d → ∀ e ∈ d.entries, ¬ Delivers filter path e)
    (hds : ∀ (i : Nat) d, ds[i]? = some d → DepthOK (depth + i) d) :
    triggerFrom action filter path p ds =
      ((ds.flatMap (·.entries)).filter fun e => Delivers filter path e).map (notifySend action path) := by
  induction ds generalizing depth p with
  | nil => cases p <;> rfl
  | cons d ds ih =>
    cases p with
    | none =>
      rw [triggerFrom, eq_comm, map_eq_nil_iff, filter_eq_nil_iff]
      intro e he
      obtain ⟨d', hd', he'⟩ := mem_flatMap.mp he
      obtain ⟨i, hi⟩ := mem_iff_getElem?.mp hd'
      rw [decide_eq_true_eq]
      exact hnone rfl i d' hi e he'
    | some n =>
      have hn := hat n rfl
      rw [triggerFrom, flatMap_cons, filter_append, map_append, ← triggerDepth_eq hn (hds 0 d rfl)]
      rw [Option.isSome_map, isSome_strchr]
      congr 1
      refine @ih (depth + 1) _ (fun m hm => ?_) (fun hno i d' hd' e he => ?_) fun i d' hd' => ?_
      · rw [Option.map_eq_some_iff] at hm
        obtain ⟨k, hk, rfl⟩ := hm
        exact hn.next_at hk
      · -- a directory that is deeper has a slash behind it
        rintro ⟨rest, hpath, -⟩
        have hlast : slash ∉ path.drop (n + 1) := by
          have := isSome_strchr (path.drop (n + 1)) slash
          rw [Option.map_eq_none_iff] at hno
          rw [hno, eq_comm] at this
          exact of_decide_eq_false this
        have hd := (hds (i + 1) d' hd').depth e he
        have hcount := congrArg (List.count slash) hn.next
        have hdeep := congrArg (List.count slash) hpath
        rw [count_append, count_cons_self, count_eq_zero.mpr hlast, hn.depth] at hcount
        rw [count_append, count_cons_self, hd] at hdeep
        omega
      · have := hds (i + 1) d' hd'
        rwa [show depth + 1 + i = depth + (i + 1) by omega]

/-! ## The messages that are sent -/

/-- In every run an event on a path is sent, once each, to the watches of the directories on the path whose filter it
meets: the filter for what is below where a slash follows in the rest of the path. -/
theorem reachable_notifyTrigger {s : NotifyState} (h : notifySystem.Reachable s) (action filter : UInt32) {path : Text}
    (hpath : path.head? = some slash) : notifyTrigger action filter path s.array =
      ((s.array.flatMap (·.entries)).filter fun e => Delivers filter path e).map (notifySend action path) := by
  obtain ⟨rest, rfl⟩ := List.head?_eq_some_iff.mp hpath
  refine @triggerFrom_eq action filter _ s.array 0 (some 0) (fun n hn => ?_) (fun hno => (nomatch hno)) fun i d hd => ?_
  · cases hn
    exact ⟨rfl, rfl⟩
  · rw [Nat.zero_add]
    exact reachable_arrayOK h i d hd

theorem qsorts_mergeSort : Qsorts fun entries => entries.mergeSort fun e1 e2 => notifyCompare e1 e2 ≤ 0 := by
  refine fun entries => ⟨mergeSort_perm _ _, ?_⟩
  have hsorted := @pairwise_mergeSort _ (fun e1 e2 => decide (notifyCompare e1 e2 ≤ 0)) ?_ ?_ entries
  · simpa using hsorted
  · intro a b c hab hbc
    rw [decide_eq_true_eq] at hab hbc ⊢
    exact (strcmp_trans hab hbc).1
  · intro a b
    rw [Bool.or_eq_true, decide_eq_true_eq, decide_eq_true_eq, notifyCompare, notifyCompare, strcmp_swap a.path b.path]
    omega

theorem reachable_add {s : NotifyState} (h : notifySystem.Reachable s) (notify : NotifyContext) (e0 : NotifyEntry)
    (privateData : Nat) : ∃ qsort, notifySystem.Reachable (notifyAdd qsort notify e0 privateData s) :=
  ⟨_, .step (.add notify e0 privateData) h ⟨_, qsorts_mergeSort, rfl⟩⟩

/-- One server watches what is below the root, another one the directory `/a`. -/
theorem watchRootAndDir : ∃ s, notifySystem.Reachable s ∧
    notifyTrigger 3 1 ("/a/b".toList.map chr) s.array =
      [⟨⟨7, 0⟩, 3, "a/b".toList.map chr, 5⟩, ⟨⟨8, 0⟩, 3, "b".toList.map chr, 6⟩] := by
  obtain ⟨q, hroot⟩ := reachable_add (.init rfl) ⟨0, ⟨7, 0⟩⟩ ⟨⟨0, 0⟩, 0, 1, [], 0, 0⟩ 5
  obtain ⟨q', hdir⟩ := reachable_add hroot ⟨1, ⟨8, 0⟩⟩ ⟨⟨0, 0⟩, 1, 0, "/a/.".toList.map chr, 0, 0⟩ 6
  exact ⟨_, hdir, (reachable_notifyTrigger hdir 3 1 rfl).trans rfl⟩

end Samba.Notify
