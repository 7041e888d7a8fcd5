/-
Crashes. After one the file holds what was asked of it up to the last completed sync, and any part
of what was asked of it since: each write is kept whole or lost, growing the file takes effect at
once, and cutting it may be lost like a write.
-/
import Samba.Tdb.Context

namespace Samba.Tdb

open List

/-- Which requests may reach the disk before others: whether one may be kept although those in the
list, made before it, are lost. -/
abbrev Reorder := List DiskOp → DiskOp → Prop

/-- Any request may overtake any other. -/
def anyOrder : Reorder := fun _ _ => True

/-- What the disk may come to hold while requests are made without a sync. -/
inductive Survives (ok : Reorder) : List DiskOp → Disk → List DiskOp → Disk → Prop
  | stop {lost : List DiskOp} {d : Disk} {ops : List DiskOp} : Survives ok lost d ops d
  | kept {lost : List DiskOp} {d d' : Disk} {op : DiskOp} {ops : List DiskOp} : op ≠ .sync → ok lost op →
      Survives ok lost (d.apply op) ops d' → Survives ok lost d (op :: ops) d'
  | lostWrite {lost : List DiskOp} {d d' : Disk} {off : Nat} {buf : List UInt8} {ops : List DiskOp} :
      Survives ok (.write off buf :: lost) d ops d' → Survives ok lost d (.write off buf :: ops) d'
  | lostTruncate {lost : List DiskOp} {d d' : Disk} {size : Nat} {ops : List DiskOp} : size ≤ d.size →
      Survives ok (.truncate size :: lost) d ops d' → Survives ok lost d (.truncate size :: ops) d'

/-- What the disk may hold after a crash at some point of a sequence of requests. -/
inductive Crash (ok : Reorder) : Disk → List DiskOp → Disk → Prop
  | lost {d d' : Disk} {ops : List DiskOp} : Survives ok [] d ops d' → Crash ok d ops d'
  | synced {d d' : Disk} {ops rest : List DiskOp} : Crash ok (ops.foldl Disk.apply d) rest d' →
      Crash ok d (ops ++ .sync :: rest) d'

section Windows

variable {ok : Reorder} {lost ops rest : List DiskOp} {d d' : Disk}

/-- What every request keeps holds after a crash, whatever is lost. -/
theorem Survives.invariant {P : Disk → Prop} (h : Survives ok lost d ops d')
    (hstep : ∀ op ∈ ops, ∀ d, P d → P (d.apply op)) (hd : P d) : P d' := by
  induction h with
  | stop => exact hd
  | kept _ _ _ ih =>
    exact ih (fun op hop => hstep op (mem_cons_of_mem _ hop)) (hstep _ (mem_cons_self ..) _ hd)
  | lostWrite _ ih => exact ih (fun op hop => hstep op (mem_cons_of_mem _ hop)) hd
  | lostTruncate _ _ ih => exact ih (fun op hop => hstep op (mem_cons_of_mem _ hop)) hd

theorem Survives.all (hns : .sync ∉ ops) (d : Disk) : Survives anyOrder lost d ops (ops.foldl Disk.apply d) := by
  induction ops generalizing d with
  | nil => exact .stop
  | cons op ops ih =>
    rw [mem_cons, not_or] at hns
    exact .kept (fun heq => hns.1 heq.symm) trivial (ih hns.2 _)

theorem Survives.of_append (h : Survives ok lost d (ops ++ .sync :: rest) d') : Survives ok lost d ops d' := by
  induction ops generalizing lost d with
  | nil =>
    cases h with
    | stop => exact .stop
    | kept hne => exact absurd rfl hne
  | cons op ops ih =>
    cases h with
    | stop => exact .stop
    | kept hne hok h => exact .kept hne hok (ih h)
    | lostWrite h => exact .lostWrite (ih h)
    | lostTruncate hle h => exact .lostTruncate hle (ih h)

/-- A crash comes before a sync is completed, or after. -/
theorem Crash.cases_sync (h : Crash ok d (ops ++ .sync :: rest) d') (hns : .sync ∉ ops) :
    Survives ok [] d ops d' ∨ Crash ok (ops.foldl Disk.apply d) rest d' := by
  generalize hall : ops ++ .sync :: rest = all at h
  cases h with
  | lost h =>
    rw [← hall] at h
    exact .inl h.of_append
  | @synced _ _ pre post h =>
    right
    rcases append_eq_append_iff.mp hall with ⟨mid, hpre, hmid⟩ | ⟨mid, hops, hmid⟩
    · cases mid with
      | nil =>
        rw [append_nil] at hpre
        rw [hpre] at h
        obtain ⟨-, rfl⟩ := List.cons.inj hmid
        exact h
      | cons op mid =>
        -- a later sync has been completed
        rw [cons_append] at hmid
        obtain ⟨rfl, rfl⟩ := List.cons.inj hmid
        rw [hpre, foldl_append, foldl_cons] at h
        exact .synced h
    · cases mid with
      | nil =>
        rw [append_nil] at hops
        obtain ⟨-, rfl⟩ := List.cons.inj hmid
        rw [hops]
        exact h
      | cons op mid =>
        rw [cons_append] at hmid
        obtain ⟨rfl, -⟩ := List.cons.inj hmid
        rw [hops] at hns
        simp at hns

/-- After the last sync there is nothing left to lose. -/
theorem Crash.nil (h : Crash ok d [] d') : d' = d := by
  generalize hall : ([] : List DiskOp) = all at h
  cases h with
  | lost h =>
    subst hall
    cases h
    rfl
  | synced h => simp at hall

end Windows

/-! ## What requests leave alone -/

/-- Writes inside `R`, and cuts that leave at least `low` bytes. -/
def Within (R : Nat → Prop) (low : Nat) : DiskOp → Prop
  | .write off buf => ∀ a, off ≤ a → a < off + buf.length → R a
  | .truncate size => low ≤ size
  | .sync => True

section Frame

variable {R : Nat → Prop} {low : Nat} {d : Disk}

theorem apply_frame {op : DiskOp} (h : Within R low op) (hd : low ≤ d.size) {a : Nat} (ha : a < low) (hn : ¬ R a) :
    (d.apply op).bytes a = d.bytes a := by
  cases op with
  | write off buf =>
    refine Bytes.write_of_out ?_
    by_contra hin
    exact hn (h a (by omega) (by omega))
  | truncate size =>
    unfold Within at h
    exact if_pos ⟨by omega, by omega⟩
  | sync => rfl

theorem apply_size {op : DiskOp} (h : Within R low op) (hd : low ≤ d.size) : low ≤ (d.apply op).size := by
  cases op with
  | write off buf => exact hd
  | truncate size => exact h
  | sync => exact hd

theorem Survives.frame {ok : Reorder} {lost ops : List DiskOp} {d' : Disk} (h : Survives ok lost d ops d')
    (hops : ∀ op ∈ ops, Within R low op) (hd : low ≤ d.size) :
    low ≤ d'.size ∧ ∀ a, a < low → ¬ R a → d'.bytes a = d.bytes a := by
  refine @Survives.invariant _ _ _ _ _ (fun d' => low ≤ d'.size ∧ ∀ a, a < low → ¬ R a → d'.bytes a = d.bytes a) h
    (fun op hop e he => ?_) ⟨hd, fun _ _ _ => rfl⟩
  exact ⟨apply_size (hops op hop) he.1, fun a ha hn => (apply_frame (hops op hop) he.1 ha hn).trans (he.2 a ha hn)⟩

end Frame

end Samba.Tdb
