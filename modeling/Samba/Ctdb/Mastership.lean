/-
Mastership and data of a record over whole runs. The record is not lost as long as every node that is given the dmaster
role still has the call that it is given for. The calls on the record form one sequence as long as none comes to the
lmaster while it has given the record to itself, in a packet that is still deferred.
-/
import Samba.Ctdb.Custody

namespace Samba.Ctdb

open Function Multiset Transition

/-! ## The dmaster role is not lost -/

section

variable {ν : Type} [DecidableEq ν]

/-- The node that the lmaster names as the dmaster has the record, is giving it up, or is about to get it. -/
def Tracked (lmaster : ν) (c : Custody ν) : Prop :=
  let h := (c.views lmaster).dmaster
  (c.views h).dmaster = h ∨ (∃ d data, Token.req h d data ∈ c.tokens) ∨ ∃ data, Token.reply h data ∈ c.tokens

variable {lmaster n : ν} {c : Custody ν}

theorem tracked_step {c' : Custody ν} {m : Move ν} (ht : Tracked lmaster c)
    (h : Custody.Step lmaster c m c') (hm : m ≠ .drop) : Tracked lmaster c' := by
  cases h with
  | keep => exact ht
  | @run n left hn =>
    -- the node that runs the call goes on naming itself
    have hviews : ∀ k, ((update c.views n ⟨n, left⟩) k).dmaster = (c.views k).dmaster := by
      intro k
      by_cases hk : k = n
      · subst hk
        rw [update_self, hn]
      · rw [update_of_ne hk]
    simpa only [Tracked, hviews] using ht
  | @give n d hn =>
    by_cases hl : n = lmaster
    · subst hl
      exact .inl (by simp only [update_self])
    · have hlm : (update c.views n ⟨lmaster, (c.views n).data⟩) lmaster = c.views lmaster :=
        update_of_ne (Ne.symm hl) _ _
      simp only [Tracked, hlm] at ht ⊢
      by_cases hh : (c.views lmaster).dmaster = n
      · exact .inr (.inl ⟨d, (c.views n).data, by rw [hh]; exact mem_cons_self _ _⟩)
      · rcases ht with ht | ⟨d', data, ht⟩ | ⟨data, ht⟩
        · exact .inl (by rw [update_of_ne hh]; exact ht)
        · exact .inr (.inl ⟨d', data, mem_cons_of_mem ht⟩)
        · exact .inr (.inr ⟨data, mem_cons_of_mem ht⟩)
  | @pass src d data rest htokens hsrc =>
    refine .inr (.inr ⟨data, ?_⟩)
    simp only [update_self]
    exact mem_cons_self _ _
  | @refuse src d data rest htokens hother hsrc =>
    -- the request that is refused is not the dmaster's
    rcases ht with ht | ⟨d', data', ht⟩ | ⟨data', ht⟩
    · exact .inl ht
    · rw [htokens, mem_cons] at ht
      exact .inr (.inl ⟨d', data', ht.resolve_left fun he => hother (Token.req.inj he).1⟩)
    · rw [htokens, mem_cons] at ht
      exact .inr (.inr ⟨data', ht.resolve_left nofun⟩)
  | @accept d data left rest htokens =>
    by_cases hl : d = lmaster
    · subst hl
      exact .inl (by simp only [update_self])
    · have hlm : (update c.views d ⟨d, left⟩) lmaster = c.views lmaster := update_of_ne (Ne.symm hl) _ _
      simp only [Tracked, hlm] at ht ⊢
      by_cases hh : (c.views lmaster).dmaster = d
      · exact .inl (by rw [hh, update_self])
      · rcases ht with ht | ⟨d', data', ht⟩ | ⟨data', ht⟩
        · exact .inl (by rw [update_of_ne hh]; exact ht)
        · rw [htokens, mem_cons] at ht
          exact .inr (.inl ⟨d', data', ht.resolve_left nofun⟩)
        · rw [htokens, mem_cons] at ht
          exact .inr (.inr ⟨data', ht.resolve_left fun he => hh (Token.reply.inj he).1⟩)
  | drop => exact absurd rfl hm

/-! ## The calls form one sequence -/

/-- What the calls of a log have left. -/
def lastLeft (last : Data) : List Event → Data
  | [] => last
  | .executed _ left :: es => lastLeft left es
  | .installed _ :: es => lastLeft last es

/-- Each call reads what the one before it has left, and nothing else is stored from a packet. -/
def InOrder (last : Data) : List Event → Prop
  | [] => True
  | .executed read left :: es => read = last ∧ InOrder left es
  | .installed data :: es => data = last ∧ InOrder last es

theorem lastLeft_append (last : Data) (es fs : List Event) : lastLeft last (es ++ fs) = lastLeft (lastLeft last es) fs := by
  induction es generalizing last with
  | nil => rfl
  | cons e es ih => cases e <;> exact ih _

theorem inOrder_append {last : Data} {es fs : List Event} (hes : InOrder last es) (hfs : InOrder (lastLeft last es) fs) :
    InOrder last (es ++ fs) := by
  induction es generalizing last with
  | nil => exact hfs
  | cons e es ih =>
    cases e with
    | executed read left => exact ⟨hes.1, ih hes.2 hfs⟩
    | installed data => exact ⟨hes.1, ih hes.2 hfs⟩

def Token.data : Token ν → Data
  | .req _ _ data => data
  | .reply _ data => data

/-- No packet has the record; the one node that has it holds what the last call left. -/
structure Held (c : Custody ν) : Prop where
  tokens : c.tokens = 0
  data : ∀ n, (c.views n).dmaster = n → (c.views n).data = lastLeft [] c.log
  unique : ∀ n m, (c.views n).dmaster = n → (c.views m).dmaster = m → n = m

/-- One packet has the record, with what the last call left; only the lmaster may take itself to have it too. -/
structure Moving (lmaster : ν) (t : Token ν) (c : Custody ν) : Prop where
  tokens : c.tokens = {t}
  data : t.data = lastLeft [] c.log
  only : ∀ n, (c.views n).dmaster = n → n = lmaster ∧ (c.views n).data = lastLeft [] c.log
  next : ∀ d data, t = .reply d data → (c.views lmaster).dmaster = d

/-- The invariant of the runs in which no call comes to the lmaster while the record is under way. -/
structure Sequential (lmaster : ν) (c : Custody ν) : Prop where
  order : InOrder [] c.log
  place : Held c ∨ ∃ t, Moving lmaster t c

omit [DecidableEq ν] in
theorem held_of_only (htokens : c.tokens = 0)
    (honly : ∀ n, (c.views n).dmaster = n → n = lmaster ∧ (c.views n).data = lastLeft [] c.log) : Held c :=
  ⟨htokens, fun n hn => (honly n hn).2, fun n m hn hm => (honly n hn).1.trans (honly m hm).1.symm⟩

omit [DecidableEq ν] in
theorem Sequential.held (hs : Sequential lmaster c) (hquiet : c.tokens = 0) : Held c := by
  refine hs.place.resolve_right ?_
  rintro ⟨t, hmoving⟩
  rw [hmoving.tokens] at hquiet
  exact singleton_ne_zero t hquiet

theorem sequential_run (hs : Sequential lmaster c) (hquiet : c.tokens = 0)
    {left : Data} (hn : (c.views n).dmaster = n) : Sequential lmaster
      { c with
        views := update c.views n ⟨n, left⟩
        log := c.log ++ [.executed (c.views n).data left] } := by
  have hheld := hs.held hquiet
  have hother : ∀ k, (update c.views n ⟨n, left⟩ k).dmaster = k → k = n := by
    intro k hk
    by_contra hkn
    rw [update_of_ne hkn] at hk
    exact hkn (hheld.unique k n hk hn)
  refine ⟨inOrder_append hs.order ⟨hheld.data n hn, trivial⟩, .inl ⟨hquiet, fun k hk => ?_, fun k m hk hm => ?_⟩⟩
  · obtain rfl := hother k hk
    dsimp only
    rw [lastLeft_append, update_self]
    rfl
  · rw [hother k hk, hother m hm]

theorem sequential_give (hs : Sequential lmaster c) (hquiet : c.tokens = 0) {d : ν}
    (hn : (c.views n).dmaster = n) : Sequential lmaster
      { c with
        views := update c.views n ⟨lmaster, (c.views n).data⟩
        tokens := .req n d (c.views n).data ::ₘ c.tokens } := by
  have hheld := hs.held hquiet
  refine ⟨hs.order, .inr ⟨.req n d (c.views n).data, by rw [hquiet]; rfl, hheld.data n hn, fun k hk => ?_, nofun⟩⟩
  dsimp only at hk ⊢
  by_cases hkn : k = n
  · subst hkn
    rw [update_self] at hk ⊢
    exact ⟨hk.symm, hheld.data k hn⟩
  · rw [update_of_ne hkn] at hk
    exact absurd (hheld.unique k n hk hn) hkn

theorem sequential_step {c' : Custody ν} {m : Move ν} (hs : Sequential lmaster c)
    (h : Custody.Step lmaster c m c') (hquiet : ∀ n, m = .run n ∨ m = .give n → c.tokens = 0) : Sequential lmaster c' := by
  -- a token that is there is the one that is moving
  have hmoving : ∀ {t rest}, c.tokens = t ::ₘ rest → Moving lmaster t c ∧ rest = 0 := by
    intro t rest htokens
    rcases hs.place with hheld | ⟨t', hmoving⟩
    · rw [hheld.tokens] at htokens
      exact absurd htokens.symm (cons_ne_zero)
    · rw [hmoving.tokens, singleton_eq_cons_iff] at htokens
      obtain ⟨rfl, rfl⟩ := htokens
      exact ⟨hmoving, rfl⟩
  cases h with
  | keep => exact hs
  | run hn => exact sequential_run hs (hquiet _ (.inl rfl)) hn
  | give hn => exact sequential_give hs (hquiet _ (.inr rfl)) hn
  | @pass src d data rest htokens hsrc =>
    obtain ⟨hmoving, rfl⟩ := hmoving htokens
    have hlast : lastLeft [] (c.log ++ [.installed data]) = lastLeft [] c.log := lastLeft_append [] c.log _
    refine ⟨inOrder_append hs.order ⟨hmoving.data, trivial⟩, .inr ⟨.reply d data, rfl, ?_, fun n hn => ?_, ?_⟩⟩
    · exact hmoving.data.trans hlast.symm
    · dsimp only at hn ⊢
      by_cases hl : n = lmaster
      · subst hl
        rw [update_self]
        exact ⟨rfl, hmoving.data.trans hlast.symm⟩
      · rw [update_of_ne hl] at hn
        exact absurd (hmoving.only n hn).1 hl
    · rintro d' data' he
      dsimp only
      rw [update_self]
      exact (Token.reply.inj he).1
  | refuse htokens hother hsrc =>
    obtain ⟨hmoving, rfl⟩ := hmoving htokens
    exact ⟨hs.order, .inl (held_of_only rfl hmoving.only)⟩
  | @accept d data left rest htokens =>
    obtain ⟨hmoving, rfl⟩ := hmoving htokens
    have hlast : lastLeft [] (c.log ++ [.installed data, .executed data left]) = left := lastLeft_append [] c.log _
    have hother : ∀ k, (update c.views d ⟨d, left⟩ k).dmaster = k → k = d := by
      intro k hk
      by_contra hkd
      rw [update_of_ne hkd] at hk
      -- another node that names itself is the lmaster, which names the new dmaster
      obtain ⟨rfl, -⟩ := hmoving.only k hk
      exact hkd (hk.symm.trans (hmoving.next d data rfl))
    refine ⟨inOrder_append hs.order ⟨hmoving.data, hmoving.data, trivial⟩, .inl ⟨rfl, fun k hk => ?_, fun k m hk hm => ?_⟩⟩
    · obtain rfl := hother k hk
      dsimp only
      rw [update_self]
      exact hlast.symm
    · rw [hother k hk, hother m hm]
  | drop htokens =>
    obtain ⟨hmoving, rfl⟩ := hmoving htokens
    exact ⟨hs.order, .inl (held_of_only rfl hmoving.only)⟩

/-! ## The cluster -/

variable {cfg : Config ν}

omit [DecidableEq ν] in
theorem toLmaster_initialCluster : ToLmaster cfg (initialCluster : Cluster ν) :=
  nofun

/-- In every run in which each node that is given the dmaster role still has the call it is given for, some node names
itself as the dmaster in its ltdb, or a packet is on its way that gives the role to a node. -/
theorem reachable_mastership {s : Cluster ν} (h : (clusterSystem cfg FindsCall).Reachable s) :
    (∃ n, (ctdbLtdbFetch cfg (s.nodes n)).1.dmaster = n) ∨ ∃ p ∈ s.packets, p.carriesRecord := by
  have htracked : Tracked cfg.lmaster (s.custody cfg) ∧ ToLmaster cfg s := by
    refine @System.Reachable.invariant _ _ _ (fun s => Tracked cfg.lmaster (s.custody cfg) ∧ ToLmaster cfg s) ?_ ?_ _ h
    · rintro _ rfl
      exact ⟨.inl rfl, toLmaster_initialCluster⟩
    · rintro s a s' ⟨ht, hdest⟩ ⟨hfinds, hstep⟩
      obtain ⟨m, hmove, -, hdrop⟩ := step_custody hdest hstep
      exact ⟨tracked_step ht hmove fun hm => hdrop hm hfinds, step_toLmaster hdest hstep⟩
  rcases htracked.1 with hself | ⟨d, data, hreq⟩ | ⟨data, hreply⟩
  · obtain ⟨header, node', hfetch, hmaster, -, -⟩ := ctdbLtdbFetch_view cfg
      (s.nodes ((s.custody cfg).views cfg.lmaster).dmaster)
    exact .inl ⟨_, by rw [hfetch]; exact hmaster.trans hself⟩
  · exact .inr (token_mem_tokens hreq)
  · exact .inr (token_mem_tokens hreply)

/-- No call comes to a node that has the record while a packet is carrying it; the packet is then one from the lmaster to
itself. -/
def Undisturbed (cfg : Config ν) (s : Cluster ν) (a : Action ν) : Prop :=
  ∀ n, CallsMaster cfg s a n → ∀ p ∈ s.packets, p.carriesRecord = false

omit [DecidableEq ν] in
theorem tokens_of_undisturbed {s : Cluster ν} {a : Action ν} (h : Undisturbed cfg s a) (hn : CallsMaster cfg s a n) :
    (s.custody cfg).tokens = 0 := by
  refine eq_zero_of_forall_notMem fun t ht => ?_
  obtain ⟨p, hp, hcarries⟩ := token_mem_tokens ht
  rw [h n hn p hp] at hcarries
  cases hcarries

/-- In every run in which no call comes to a node that has the record while a packet is carrying it, each call reads what
the one before it has left, the first one nothing, and what is stored from a packet is what the last call has left. -/
theorem reachable_inOrder {s : Cluster ν} (h : (clusterSystem cfg (Undisturbed cfg)).Reachable s) : InOrder [] s.log := by
  have hsequential : Sequential cfg.lmaster (s.custody cfg) ∧ ToLmaster cfg s := by
    refine @System.Reachable.invariant _ _ _ (fun s => Sequential cfg.lmaster (s.custody cfg) ∧ ToLmaster cfg s) ?_ ?_ _ h
    · rintro _ rfl
      exact ⟨⟨trivial, .inl ⟨rfl, fun _ _ => rfl, fun n m hn hm => hn.symm.trans hm⟩⟩, toLmaster_initialCluster⟩
    · rintro s a s' ⟨hs, hdest⟩ ⟨hundisturbed, hstep⟩
      obtain ⟨m, hmove, hcalls, -⟩ := step_custody hdest hstep
      exact ⟨sequential_step hs hmove fun n hn => tokens_of_undisturbed hundisturbed (hcalls n hn),
        step_toLmaster hdest hstep⟩
  exact hsequential.1.order

end

/-! ## Two nodes -/

/-- Two nodes, the first of them the lmaster, and a function that appends its argument. -/
def twoNodes : Config (Fin 2) := ⟨0, 7, false, fun call data => some (some (data ++ call.callData))⟩

/-- The second node asks for the record with its call. -/
def migratingCall : CtdbCall := ⟨0, [1], true⟩

def localCall : CtdbCall := ⟨0, [2], false⟩

/-- The cluster after a packet has been handled. -/
def Cluster.delivered (s : Cluster (Fin 2)) (p : Packet (Fin 2)) : Cluster (Fin 2) :=
  s.after p.dest (ctdbRecvPkt twoNodes p.dest (s.nodes p.dest) p) (s.packets.erase p)

/-- The cluster after a client has called. -/
def Cluster.called (s : Cluster (Fin 2)) (n : Fin 2) (call : CtdbCall) (reqid : Nat) : Cluster (Fin 2) :=
  s.after n (daemonRequestCallFromClient twoNodes n (s.nodes n) call reqid) s.packets

/-- The call is on its way. -/
def asked : Cluster (Fin 2) := initialCluster.called 1 migratingCall 0

/-- The lmaster has given the record away, in a packet to itself. -/
def given : Cluster (Fin 2) := asked.delivered (.reqCall 1 0 0 migratingCall)

/-- The record is in a packet to the second node. -/
def passed : Cluster (Fin 2) := given.delivered (.reqDmaster 0 0 0 1 [])

def accepted : Cluster (Fin 2) := passed.delivered (.replyDmaster 0 1 0 [])

/-- A migration meets a condition that holds of its four steps. -/
theorem accepted_reachable {cond : Cluster (Fin 2) → Action (Fin 2) → Prop}
    (hask : cond initialCluster (.clientCall 1 migratingCall 0))
    (hgive : cond asked (.deliver (.reqCall 1 0 0 migratingCall)))
    (hpass : cond given (.deliver (.reqDmaster 0 0 0 1 [])))
    (haccept : cond passed (.deliver (.replyDmaster 0 1 0 []))) : (clusterSystem twoNodes cond).Reachable accepted :=
  .step _ (.step _ (.step _ (.step _ (.init rfl) ⟨hask, .clientCall rfl (.inl ⟨by decide, rfl⟩)⟩)
    ⟨hgive, .deliver (by decide) rfl⟩) ⟨hpass, .deliver (by decide) rfl⟩) ⟨haccept, .deliver (by decide) rfl⟩

theorem reachable_mastership_accepted :
    (∃ n, (ctdbLtdbFetch twoNodes (accepted.nodes n)).1.dmaster = n) ∨ ∃ p ∈ accepted.packets, p.carriesRecord := by
  refine reachable_mastership (accepted_reachable nofun nofun nofun ?_)
  intro src dest reqid data he
  cases he
  rfl

theorem reachable_inOrder_accepted : InOrder [] accepted.log := by
  refine reachable_inOrder (accepted_reachable ?_ ?_ ?_ ?_)
  · exact fun _ _ p hp => nomatch hp
  · intro n _ p hp
    rw [List.mem_singleton.mp hp]
    rfl
  · rintro n ⟨-, ⟨_, _, _, he⟩ | ⟨-, _, _, he⟩⟩ <;> cases he
  · rintro n ⟨-, ⟨_, _, _, he⟩ | ⟨-, _, _, he⟩⟩ <;> cases he

theorem step_migratingCall : Step twoNodes initialCluster (.clientCall 1 migratingCall 0) asked :=
  .clientCall rfl (.inl ⟨by decide, rfl⟩)

/-- The call has timed out when the packet that gives its node the record comes: no node has it, and no packet. -/
theorem mastership_lost : ∃ s, (clusterSystem twoNodes fun _ _ => True).Reachable s ∧
    (∀ n, (ctdbLtdbFetch twoNodes (s.nodes n)).1.dmaster ≠ n) ∧ ∀ p ∈ s.packets, ¬p.carriesRecord := by
  refine ⟨(((asked.free 1 0).delivered (.reqCall 1 0 0 migratingCall)).delivered (.reqDmaster 0 0 0 1 [])).delivered
    (.replyDmaster 0 1 0 []), ?_, by decide, by decide⟩
  exact .step _ (.step _ (.step _ (.step _ (.step _ (.init rfl)
    ⟨trivial, step_migratingCall⟩) ⟨trivial, .callTimeout rfl⟩)
    ⟨trivial, .deliver (by decide) rfl⟩) ⟨trivial, .deliver (by decide) rfl⟩) ⟨trivial, .deliver (by decide) rfl⟩

/-- No call times out. -/
def InTime (_ : Cluster (Fin 2)) (a : Action (Fin 2)) : Prop := ∀ n reqid, a ≠ .callTimeout n reqid

theorem inTime_deliver {s : Cluster (Fin 2)} {p : Packet (Fin 2)} : InTime s (.deliver p) := fun _ _ => nofun

theorem inTime_clientCall {s : Cluster (Fin 2)} {n : Fin 2} {call : CtdbCall} {reqid : Nat} :
    InTime s (.clientCall n call reqid) := fun _ _ => nofun

/-- A client calls at the lmaster before its packet to itself is handled: what the call left is overwritten. -/
theorem update_lost : ∃ s, (clusterSystem twoNodes InTime).Reachable s ∧ s.packets = [] ∧
    s.log = [.executed [] [2], .installed [], .installed [], .executed [] [1]] ∧ ¬InOrder [] s.log := by
  have hlocal : Step twoNodes given (.clientCall 0 localCall 0) (given.called 0 localCall 0) :=
    .clientCall rfl (.inl ⟨by decide, rfl⟩)
  refine ⟨((given.called 0 localCall 0).delivered (.reqDmaster 0 0 0 1 [])).delivered (.replyDmaster 0 1 0 []), ?_,
    rfl, rfl, fun h => absurd h.2.1 (by decide)⟩
  exact .step _ (.step _ (.step _ (.step _ (.step _ (.init rfl)
    ⟨inTime_clientCall, step_migratingCall⟩) ⟨inTime_deliver, .deliver (by decide) rfl⟩)
    ⟨inTime_clientCall, hlocal⟩) ⟨inTime_deliver, .deliver (by decide) rfl⟩)
    ⟨inTime_deliver, .deliver (by decide) rfl⟩

end Samba.Ctdb
