/-
Framed streams: every frame starts with a header that says how long the frame is. Frames one behind the other are cut
from the stream by their headers alone.
-/
import Mathlib.Data.List.Basic

universe u

/-- A way to frame a stream: how long a header is, and the length of the frame that starts with some header. -/
structure Framing (α : Type u) where
  header : Nat
  size : List α → Nat
  header_pos : 0 < header
  size_append : ∀ a b, header ≤ a.length → size (a ++ b) = size a

namespace Framing

open List

variable {α : Type u} (fr : Framing α) {frames : List (List α)} {buf rest : List α}

/-- A frame is as long as its header says. -/
structure IsFrame (p : List α) : Prop where
  header_le : fr.header ≤ p.length
  size_eq : fr.size p = p.length

/-- A frame starts with a whole frame. -/
def Complete (buf : List α) : Prop := fr.header ≤ buf.length ∧ fr.size buf ≤ buf.length

variable {fr}

theorem size_congr {a b a' b' : List α} (h : a ++ b = a' ++ b') (ha : fr.header ≤ a.length) (ha' : fr.header ≤ a'.length) :
    fr.size a = fr.size a' := by
  rw [← fr.size_append a b ha, h, fr.size_append a' b' ha']

/-- Once a header has come, it is that of the first frame. -/
theorem head_frame (h : buf ++ rest = frames.flatten) (hframes : ∀ p ∈ frames, fr.IsFrame p) (hlen : fr.header ≤ buf.length) :
    ∃ p ps, frames = p :: ps ∧ fr.size buf = p.length ∧ 0 < p.length := by
  have hpos := fr.header_pos
  obtain - | ⟨p, ps⟩ := frames
  · have : buf = [] := (append_eq_nil_iff.mp h).1
    simp only [this, length_nil] at hlen
    omega
  · have hp := hframes p (by simp)
    exact ⟨p, ps, rfl, (size_congr h hlen hp.header_le).trans hp.size_eq, Nat.lt_of_lt_of_le hpos hp.header_le⟩

/-- The first frame, once it has come, is what its length cuts off. -/
theorem cut_frame {p : List α} {ps : List (List α)} (h : buf ++ rest = (p :: ps).flatten) (hlen : p.length ≤ buf.length) :
    buf.take p.length = p ∧ buf.drop p.length ++ rest = ps.flatten := by
  rw [flatten_cons] at h
  obtain ⟨tail, rfl⟩ : p <+: buf :=
    prefix_of_prefix_length_le ⟨ps.flatten, h.symm⟩ (prefix_append buf rest) hlen
  rw [append_assoc] at h
  exact ⟨take_left' rfl, by rw [drop_left' rfl]; exact append_cancel_left h⟩

/-- Where all of the stream has come and no frame is complete, no frame is left. -/
theorem frames_nil (h : buf = frames.flatten) (hframes : ∀ p ∈ frames, fr.IsFrame p) (hbuf : ¬ fr.Complete buf) : frames = [] := by
  obtain - | ⟨p, ps⟩ := frames
  · rfl
  · refine absurd ⟨?_, ?_⟩ hbuf
    · rw [h, flatten_cons, length_append]
      exact Nat.le_add_right_of_le (hframes p (by simp)).header_le
    · have hp := hframes p (by simp)
      rw [h, flatten_cons, fr.size_append _ _ hp.header_le, hp.size_eq, length_append]
      exact Nat.le_add_right ..

end Framing
