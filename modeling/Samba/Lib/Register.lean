/-
Registers that writers make offers to: an offer becomes the register's entry when it beats the entry there, and is
dropped otherwise. For which sets of offers the last entry does not depend on their order and repetition.

An order that avoids an entry `f` goes along a trail of entries, each beating the one before, and makes each offer of
`f` at an entry of the trail that it does not beat.
-/
import Mathlib.Data.List.Basic

namespace Register

open List

universe u v

section

variable {σ : Type u} {υ : Type v} (beats : υ → σ → Bool) (entry : υ → σ)

/-- The register after one offer. -/
def offer (c : σ) (u : υ) : σ := if beats u c then entry u else c

/-- The register after a list of offers. -/
def offers (us : List υ) (c : σ) : σ := us.foldl (offer beats entry) c

/-- The entries that offers of `S` can put into the register one after the other, the last one first. -/
inductive Trail (S : List υ) (c₀ : σ) : List σ → Prop
  | start : Trail S c₀ [c₀]
  | next {c : σ} {t : List σ} {u : υ} : Trail S c₀ (c :: t) → u ∈ S → beats u c → Trail S c₀ (entry u :: c :: t)

/-- The entries that offers of `S` can put into the register, and the one there is. -/
inductive Reached (S : List υ) (c₀ : σ) : σ → Prop
  | start : Reached S c₀ c₀
  | next {c : σ} {u : υ} : Reached S c₀ c → u ∈ S → beats u c → Reached S c₀ (entry u)

/-- There is an entry that no other one replaces, and every trail that does not reach it is beaten throughout by an
offer of it. -/
def Settles (S : List υ) (c₀ : σ) : Prop :=
  ∃ f, (∀ u ∈ S, beats u f → entry u = f) ∧
    ∀ t, Trail beats entry S c₀ t → f ∉ t → ∃ u ∈ S, entry u = f ∧ ∀ c ∈ t, beats u c

/-- The entry there is stays, or one offer prevails: its entry stays, and the offer beats every other entry that the register can
have. -/
def Prevails (S : List υ) (c₀ : σ) : Prop :=
  (∀ u ∈ S, beats u c₀ → entry u = c₀) ∨
    ∃ u ∈ S, (∀ w ∈ S, beats w (entry u) → entry w = entry u) ∧
      ∀ c, Reached beats entry S c₀ c → c ≠ entry u → beats u c

variable {beats entry}

/-! ## Offers -/

variable {c c₀ f : σ} {S : List υ} {t : List σ}

theorem offer_of_beats {u : υ} (h : beats u c) : offer beats entry c u = entry u := if_pos h

theorem offer_of_not_beats {u : υ} (h : ¬ beats u c) : offer beats entry c u = c := if_neg h

@[simp] theorem offers_nil (c : σ) : offers beats entry [] c = c := rfl

@[simp] theorem offers_cons (u : υ) (us : List υ) (c : σ) :
    offers beats entry (u :: us) c = offers beats entry us (offer beats entry c u) := rfl

theorem offers_append (us vs : List υ) (c : σ) :
    offers beats entry (us ++ vs) c = offers beats entry vs (offers beats entry us c) := foldl_append

/-- Offers of other entries do not put `f` there. -/
theorem offers_ne {f : σ} : ∀ {us : List υ} {c : σ}, c ≠ f → (∀ u ∈ us, entry u ≠ f) →
    offers beats entry us c ≠ f
  | [], _, hc, _ => hc
  | u :: us, c, hc, hus => by
    refine @offers_ne f us _ ?_ fun w hw => hus w (mem_cons_of_mem _ hw)
    by_cases hu : beats u c
    · rw [offer_of_beats hu]; exact hus u mem_cons_self
    · rw [offer_of_not_beats hu]; exact hc

/-- An entry that only its own offers replace stays. -/
theorem offers_absorbed : ∀ {us : List υ}, (∀ u ∈ us, beats u f → entry u = f) → offers beats entry us f = f
  | [], _ => rfl
  | u :: us, h => by
    have hu : offer beats entry f u = f := by
      by_cases hb : beats u f
      · rw [offer_of_beats hb, h u mem_cons_self hb]
      · exact offer_of_not_beats hb
    rw [offers_cons, hu]
    exact offers_absorbed fun w hw => h w (mem_cons_of_mem _ hw)

/-- Offers made at an entry that they do not beat change nothing. -/
theorem offers_unbeaten : ∀ {us : List υ}, (∀ u ∈ us, ¬ beats u c) → offers beats entry us c = c
  | [], _ => rfl
  | u :: us, h => by
    rw [offers_cons, offer_of_not_beats (h u mem_cons_self)]
    exact offers_unbeaten fun w hw => h w (mem_cons_of_mem _ hw)

/-! ## Orders that avoid an entry -/

/-- The offers of a list that do not beat some entry of a trail can all be made along it. -/
theorem Trail.exists_offers (ht : Trail beats entry S c₀ t) :
    ∃ us : List υ, (∀ u ∈ us, u ∈ S) ∧ (∀ u ∈ S, (∃ c ∈ t, ¬ beats u c) → u ∈ us) ∧
      t.head? = some (offers beats entry us c₀) := by
  -- the offers of `S` that do not beat `c`, made at `c`
  have losers : ∀ c, ∃ us : List υ, (∀ u, u ∈ us ↔ u ∈ S ∧ ¬ beats u c) := fun c =>
    ⟨S.filter fun u => ¬ beats u c, fun u => by simp⟩
  induction ht with
  | start =>
    obtain ⟨us, hus⟩ := losers c₀
    refine ⟨us, fun u hu => ((hus u).1 hu).1, fun u hu h => ?_, ?_⟩
    · obtain ⟨c, hc, hb⟩ := h
      rw [mem_singleton.1 hc] at hb
      exact (hus u).2 ⟨hu, hb⟩
    · rw [offers_unbeaten fun u hu => ((hus u).1 hu).2, List.head?_cons]
  | @next c t u _ hu hb ih =>
    obtain ⟨us, hS, hall, hhead⟩ := ih
    obtain ⟨vs, hvs⟩ := losers (entry u)
    have hc : offers beats entry us c₀ = c := (Option.some.inj hhead).symm
    refine ⟨us ++ u :: vs, fun w hw => ?_, fun w hw h => ?_, ?_⟩
    · rcases mem_append.1 hw with hw | hw
      · exact hS w hw
      · rcases mem_cons.1 hw with rfl | hw
        · exact hu
        · exact ((hvs w).1 hw).1
    · obtain ⟨d, hd, hnb⟩ := h
      rcases mem_cons.1 hd with rfl | hd
      · exact mem_append_right _ (mem_cons_of_mem _ ((hvs w).2 ⟨hw, hnb⟩))
      · exact mem_append_left _ (hall w hw ⟨d, hd, hnb⟩)
    · rw [offers_append, hc, offers_cons, offer_of_beats hb, offers_unbeaten fun w hw => ((hvs w).1 hw).2,
        List.head?_cons]

/-- While offers do not put `f` there, the entries are a trail, and each offer of `f` was made at an entry of it that
it did not beat. -/
theorem Trail.of_offers (habs : ∀ u ∈ S, beats u f → entry u = f) :
    ∀ {us : List υ} {t : List σ} {c : σ}, Trail beats entry S c₀ (c :: t) → f ∉ c :: t → (∀ u ∈ us, u ∈ S) →
      offers beats entry us c ≠ f →
      ∃ t', Trail beats entry S c₀ t' ∧ f ∉ t' ∧ (∀ d ∈ c :: t, d ∈ t') ∧
        ∀ u ∈ us, entry u = f → ∃ d ∈ t', ¬ beats u d
  | [], t, c, ht, hf, _, _ => ⟨c :: t, ht, hf, fun _ hd => hd, nofun⟩
  | u :: us, t, c, ht, hf, hS, hend => by
    have huS : u ∈ S := hS u mem_cons_self
    have husS : ∀ w ∈ us, w ∈ S := fun w hw => hS w (mem_cons_of_mem _ hw)
    rw [offers_cons] at hend
    by_cases hb : beats u c
    · rw [offer_of_beats hb] at hend
      have hne : entry u ≠ f := fun h => hend (by rw [h]; exact offers_absorbed fun w hw => habs w (husS w hw))
      have hf' : f ∉ entry u :: c :: t := fun h => (mem_cons.1 h).elim (fun h => hne h.symm) hf
      obtain ⟨t', ht', hft', hsub, hmade⟩ := Trail.of_offers habs (.next ht huS hb) hf' husS hend
      refine ⟨t', ht', hft', fun d hd => hsub d (mem_cons_of_mem _ hd), fun w hw hwf => ?_⟩
      rcases mem_cons.1 hw with rfl | hw
      · exact absurd hwf hne
      · exact hmade w hw hwf
    · rw [offer_of_not_beats hb] at hend
      obtain ⟨t', ht', hft', hsub, hmade⟩ := Trail.of_offers habs ht hf husS hend
      refine ⟨t', ht', hft', hsub, fun w hw hwf => ?_⟩
      rcases mem_cons.1 hw with rfl | hw
      · exact ⟨c, hsub c mem_cons_self, hb⟩
      · exact hmade w hw hwf

/-! ## Agreement -/

/-- The orders of the offers of a set. -/
def Lists (S us : List υ) : Prop := ∀ u, u ∈ us ↔ u ∈ S

theorem Settles.offers_eq (h : Settles beats entry S c₀) : ∃ f, ∀ us, Lists S us → offers beats entry us c₀ = f := by
  obtain ⟨f, habs, hbeat⟩ := h
  refine ⟨f, fun us hus => ?_⟩
  by_contra hne
  have hc₀ : c₀ ≠ f := fun h => hne (by rw [h]; exact offers_absorbed fun u hu => habs u ((hus u).1 hu))
  obtain ⟨t, ht, hft, -, hmade⟩ := Trail.of_offers habs (@Trail.start _ _ beats entry S _)
    (by simpa using hc₀.symm) (fun u hu => (hus u).1 hu) hne
  obtain ⟨u, hu, huf, hb⟩ := hbeat t ht hft
  obtain ⟨d, hd, hnb⟩ := hmade u ((hus u).2 hu) huf
  exact hnb (hb d hd)

/-- All orders of a set of offers, with repetitions, leave the same entry exactly when the set settles. -/
theorem offers_agree_iff (S : List υ) (c₀ : σ) :
    (∀ us vs, Lists S us → Lists S vs → offers beats entry us c₀ = offers beats entry vs c₀) ↔
      Settles beats entry S c₀ := by
  classical
  constructor
  · intro h
    let f := offers beats entry S c₀
    have hS : Lists S S := fun _ => .rfl
    refine ⟨f, fun u hu hb => ?_, fun t ht hft => ?_⟩
    · -- an offer made once more at the end
      have hl : Lists S (S ++ [u]) := fun w => by
        rw [mem_append, mem_singleton]
        exact ⟨fun hw => hw.elim id fun hw => hw ▸ hu, .inl⟩
      have := h (S ++ [u]) S hl hS
      rwa [offers_append, offers_cons, offers_nil, offer_of_beats hb] at this
    · by_contra hno
      push Not at hno
      obtain ⟨us, husS, hall, hhead⟩ := ht.exists_offers
      have hmem : offers beats entry us c₀ ∈ t := mem_of_mem_head? hhead
      -- along the trail all offers of `f` are made in vain, the others follow
      let rest := S.filter fun u => entry u ≠ f
      have hl : Lists S (us ++ rest) := fun w => by
        rw [mem_append]
        refine ⟨fun hw => hw.elim (husS w) fun hw => (mem_filter.1 hw).1, fun hw => ?_⟩
        by_cases hwf : entry w = f
        · exact .inl (hall w hw (hno w hw hwf))
        · exact .inr (mem_filter.2 ⟨hw, by simpa using hwf⟩)
      have hne : offers beats entry rest (offers beats entry us c₀) ≠ f :=
        offers_ne (fun he => hft (he ▸ hmem)) fun u hu => by simpa using (mem_filter.1 hu).2
      exact hne (by rw [← offers_append]; exact h _ _ hl hS)
  · intro h us vs hus hvs
    obtain ⟨f, hf⟩ := h.offers_eq
    rw [hf us hus, hf vs hvs]

/-! ## An offer that prevails -/

theorem Trail.reached (ht : Trail beats entry S c₀ t) : ∀ c ∈ t, Reached beats entry S c₀ c := by
  induction ht with
  | start =>
    intro c hc
    rw [mem_singleton.1 hc]
    exact .start
  | @next c t u _ hu hb ih =>
    intro d hd
    rcases mem_cons.1 hd with rfl | hd
    · exact .next (ih c mem_cons_self) hu hb
    · exact ih d hd

theorem Trail.start_mem (ht : Trail beats entry S c₀ t) : c₀ ∈ t := by
  induction ht with
  | start => exact mem_singleton.2 rfl
  | next _ _ _ ih => exact mem_cons_of_mem _ ih

theorem Reached.exists_trail (hc : Reached beats entry S c₀ c) : ∃ t, Trail beats entry S c₀ (c :: t) := by
  induction hc with
  | start => exact ⟨[], .start⟩
  | @next c u _ hu hb ih =>
    obtain ⟨t, ht⟩ := ih
    exact ⟨c :: t, .next ht hu hb⟩

/-- A trail does not leave an entry that only its own offers replace. -/
theorem Trail.head_of_mem {s : List σ} (habs : ∀ u ∈ S, beats u f → entry u = f)
    (ht : Trail beats entry S c₀ s) (hf : f ∈ s) : s.head? = some f := by
  induction ht with
  | start => rw [mem_singleton.1 hf, List.head?_cons]
  | @next c t u _ hu hb ih =>
    rcases mem_cons.1 hf with rfl | hf
    · rfl
    · obtain rfl := Option.some.inj (ih hf)
      rw [habs u hu hb, List.head?_cons]

theorem Prevails.settles (h : Prevails beats entry S c₀) : Settles beats entry S c₀ := by
  rcases h with hstay | ⟨u, hu, habs, hbeat⟩
  · exact ⟨c₀, hstay, fun t ht hct => absurd ht.start_mem hct⟩
  · exact ⟨entry u, habs, fun t ht hut => ⟨u, hu, rfl, fun c hc => hbeat c (ht.reached c hc) fun h => hut (h ▸ hc)⟩⟩

/-- When offers of one entry beat the same entries, one of them prevails in a set that settles. -/
theorem Settles.prevails (h : Settles beats entry S c₀)
    (halike : ∀ u ∈ S, ∀ v ∈ S, entry u = entry v → (∃ c, beats u c) → (∃ c, beats v c) → ∀ c, beats u c = beats v c) :
    Prevails beats entry S c₀ := by
  obtain ⟨f, habs, hbeat⟩ := h
  by_cases hf : f = c₀
  · exact .inl (hf ▸ habs)
  obtain ⟨u, hu, rfl, hub⟩ := hbeat [c₀] .start fun h => hf (mem_singleton.1 h)
  refine .inr ⟨u, hu, habs, fun c hc hcu => ?_⟩
  obtain ⟨t, ht⟩ := hc.exists_trail
  have hut : entry u ∉ c :: t := fun hm => hcu (Option.some.inj (ht.head_of_mem habs hm))
  obtain ⟨v, hv, hvu, hvb⟩ := hbeat _ ht hut
  have hvc := hvb c mem_cons_self
  rwa [← halike v hv u hu hvu ⟨c, hvc⟩ ⟨c₀, hub c₀ mem_cons_self⟩ c]

end

end Register
