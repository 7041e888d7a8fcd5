/-
The sequence numbers of signed requests and replies (libcli/raw/smb_signing.c,
smb_server/smb/signing.c). Client and server count on their own: the client by two for a request
with a reply and by one for a one-way request, as it sends; the server by two as it receives, and
back by one for a request without a reply. The reply to a request is signed with the number after
the request's own, which both ends remember. So every request and every reply passes, in whatever
order the replies are sent, and no number is used twice.
-/
import Samba.Lib.Transition
import Samba.Smb.Signing

namespace Samba.Smb

open List Transition

variable (md5 : List UInt8 → Digest)

/-! ## Client and server -/

/-- A request on the wire: which one it is, whether it is one-way, and its packet. -/
structure SentRequest where
  mid : Nat
  oneWay : Bool
  buf : List UInt8
  deriving DecidableEq, Repr

/-- A reply on the wire. -/
structure SentReply where
  mid : Nat
  buf : List UInt8
  deriving DecidableEq, Repr

/-- A client and a server, and the packets between them, oldest first. `seqNums` are the `seq_num`s
of the client's requests, and `served` are the requests the server has read and not answered, with
theirs. What the checks said and the numbers signed with are history. -/
structure Link where
  client : SigningContext
  server : SigningContext
  seqNums : List UInt32
  requests : List SentRequest
  served : List (Nat × UInt32)
  replies : List SentReply
  requestChecks : List Bool
  replyChecks : List Bool
  signedWith : List UInt32
  deriving DecidableEq, Repr

/-- What happens on the link. -/
inductive LinkEvent
  /-- The client sends a request, one-way or not. -/
  | send (pkt : Packet) (oneWay : Bool)
  /-- The server reads the next request. -/
  | receive
  /-- The server answers a request it has read. -/
  | answer (mid : Nat) (seqNum : UInt32) (pkt : Packet)
  /-- The client reads the next reply. -/
  | receiveReply

/-- The numbers a packet is signed with. -/
def signedBy (signing : SigningContext) (seqNum : UInt32) : List UInt32 :=
  if signing.signingState = .on then [seqNum] else []

/-- What an event does to the two ends and to the packets between them. -/
def Link.next (l : Link) : LinkEvent → Option Link
  | .send pkt oneWay =>
    let (buf, seqNum, client) := smbcliRequestCalculateSignMac md5 l.client oneWay 0 pkt.buf
    some { l with
      client := client
      seqNums := l.seqNums ++ [seqNum]
      requests := l.requests ++ [⟨l.seqNums.length, oneWay, buf⟩]
      signedWith := l.signedWith ++ signedBy l.client seqNum }
  | .receive =>
    match l.requests with
    | [] => none
    | r :: rest =>
      let checked := smbsrvSigningCheckIncoming md5 l.server r.buf
      let oneWay := checked.accepted && r.oneWay  -- a packet that is not accepted is answered by an error
      some { l with
        server := if oneWay then smbsrvSigningNoReply checked.signing else checked.signing
        requests := rest
        served := if oneWay then l.served else l.served ++ [(r.mid, checked.seqNum)]
        requestChecks := l.requestChecks ++ [checked.accepted] }
  | .answer mid seqNum pkt =>
    if (mid, seqNum) ∈ l.served then
      some { l with
        served := l.served.erase (mid, seqNum)
        replies := l.replies ++ [⟨mid, smbsrvSignPacket md5 l.server seqNum pkt.buf⟩]
        signedWith := l.signedWith ++ signedBy l.server (seqNum + 1) }
    else none
  | .receiveReply =>
    match l.replies with
    | [] => none
    | r :: rest =>
      let (good, client) := smbcliRequestCheckSignMac md5 l.client (l.seqNums.getD r.mid 0) r.buf
      some { l with
        client := client
        replies := rest
        replyChecks := l.replyChecks ++ [good] }

/-- Both ends sign with one key, and are at the same number; nothing is under way. -/
structure Link.Starts (key : List UInt8) (start : UInt32) (l : Link) : Prop where
  client : l.client.signingState = .on ∧ l.client.macKey = key ∧ l.client.nextSeqNum = start
  server : l.server.signingState = .on ∧ l.server.macKey = key ∧ l.server.nextSeqNum = start
  empty : l.seqNums = [] ∧ l.requests = [] ∧ l.served = [] ∧ l.replies = [] ∧ l.requestChecks = [] ∧
    l.replyChecks = [] ∧ l.signedWith = []

def linkSystem (key : List UInt8) (start : UInt32) : System Link LinkEvent where
  init := Link.Starts key start
  step l e l' := l.next md5 e = some l'

/-! ## The two counters -/

/-- What a request adds to the counters. -/
def increment (oneWay : Bool) : UInt32 := if oneWay then 1 else 2

/-- The requests on the wire, signed with the numbers from `a` on, and `b` the number after them. -/
def Chained (key : List UInt8) (seqNums : List UInt32) : UInt32 → List SentRequest → UInt32 → Prop
  | a, [], b => a = b
  | a, r :: rest, b => seqNums[r.mid]? = some a ∧
      (∃ pkt : Packet, r.buf = signOutgoingMessage md5 pkt.buf key a) ∧
      Chained key seqNums (a + increment r.oneWay) rest b

/-- Both ends sign with the key, the wire holds the requests between their counters, and every
reply is signed with the number after its request's. -/
structure InStep (key : List UInt8) (l : Link) : Prop where
  client : l.client.signingState = .on ∧ l.client.macKey = key
  server : l.server.signingState = .on ∧ l.server.macKey = key
  chained : Chained md5 key l.seqNums l.server.nextSeqNum l.requests l.client.nextSeqNum
  served : ∀ p ∈ l.served, l.seqNums[p.1]? = some p.2
  replies : ∀ r ∈ l.replies, ∃ seqNum, l.seqNums[r.mid]? = some seqNum ∧
    ∃ pkt : Packet, r.buf = signOutgoingMessage md5 pkt.buf key (seqNum + 1)
  requestChecks : ∀ b ∈ l.requestChecks, b = true
  replyChecks : ∀ b ∈ l.replyChecks, b = true

variable {md5}

variable {key : List UInt8} {seqNums : List UInt32} {rest : List SentRequest} {signing : SigningContext} {l l' : Link}
  {start : UInt32} {places : List Nat}

theorem Chained.append : ∀ {a b : UInt32}, Chained md5 key seqNums a rest b → ∀ (oneWay : Bool) (pkt : Packet),
      Chained md5 key (seqNums ++ [b]) a
        (rest ++ [⟨seqNums.length, oneWay, signOutgoingMessage md5 pkt.buf key b⟩]) (b + increment oneWay) := by
  induction rest with
  | nil =>
    rintro a b rfl oneWay pkt
    exact ⟨List.getElem?_concat_length, ⟨pkt, rfl⟩, rfl⟩
  | cons r rest ih =>
    rintro a b ⟨hr, hbuf, hrest⟩ oneWay pkt
    refine ⟨?_, hbuf, ih hrest oneWay pkt⟩
    have hlt : r.mid < seqNums.length := (List.getElem?_eq_some_iff.mp hr).1
    rw [List.getElem?_append_left hlt, hr]

theorem getElem?_append_of_some {i : Nat} {a : UInt32} (h : seqNums[i]? = some a)
    (b : UInt32) : (seqNums ++ [b])[i]? = some a := by
  rw [List.getElem?_append_left (List.getElem?_eq_some_iff.mp h).1, h]

/-- A good request takes the server's counter on by two. -/
theorem checkIncoming_good {signing : SigningContext} {key : List UInt8} (hon : signing.signingState = .on)
    (hkey : signing.macKey = key) (hne : key ≠ []) (pkt : Packet) :
    ∃ signing', smbsrvSigningCheckIncoming md5 signing (signOutgoingMessage md5 pkt.buf key signing.nextSeqNum) =
        ⟨true, signing.nextSeqNum, signing'⟩ ∧
      signing'.signingState = .on ∧ signing'.macKey = key ∧ signing'.nextSeqNum = signing.nextSeqNum + 2 := by
  obtain ⟨hcheck, hlen⟩ := checkSigned_signOutgoing md5 pkt.long hne signing.nextSeqNum
  have hlong : ¬(nbtHdrSize + (signOutgoingMessage md5 pkt.buf key signing.nextSeqNum).length < hdrSsField + 8) := by
    rw [hlen]
    have := pkt.long
    unfold nbtHdrSize hdrSsField minSmbSize at *
    omega
  refine ⟨{ signing with nextSeqNum := signing.nextSeqNum + 2, doingSigning := true, seenValid := true }, ?_,
    hon, hkey, rfl⟩
  unfold smbsrvSigningCheckIncoming
  simp only [hon, hkey, ne_eq, reduceCtorEq, not_false_eq_true, if_true, if_neg hlong, hcheck, signingGood]

theorem checkSignMac_good {signing : SigningContext} {key : List UInt8} (hon : signing.signingState = .on)
    (hkey : signing.macKey = key) (hne : key ≠ []) (seqNum : UInt32) (pkt : Packet) :
    ∃ signing', smbcliRequestCheckSignMac md5 signing seqNum (signOutgoingMessage md5 pkt.buf key (seqNum + 1)) =
        (true, signing') ∧
      signing'.signingState = .on ∧ signing'.macKey = key ∧ signing'.nextSeqNum = signing.nextSeqNum := by
  obtain ⟨hcheck, hlen⟩ := checkSigned_signOutgoing md5 pkt.long hne (seqNum + 1)
  have hlong : ¬(nbtHdrSize + (signOutgoingMessage md5 pkt.buf key (seqNum + 1)).length < hdrSsField + 8) := by
    rw [hlen]
    have := pkt.long
    unfold nbtHdrSize hdrSsField minSmbSize at *
    omega
  refine ⟨{ signing with doingSigning := true, seenValid := true }, ?_, hon, hkey, rfl⟩
  unfold smbcliRequestCheckSignMac
  simp only [hon, hkey, if_neg hlong, hcheck, signingGood, if_true]

theorem noReply_nextSeqNum (hon : signing.signingState = .on) :
    smbsrvSigningNoReply signing = { signing with nextSeqNum := signing.nextSeqNum - 1 } := by
  unfold smbsrvSigningNoReply
  rw [if_pos (by rw [hon]; decide)]

/-! ## Every packet passes -/

variable (md5) in
/-- What the client makes of a request to send. -/
theorem calculateSignMac_on (hon : signing.signingState = .on) (oneWay : Bool) (seqNum : UInt32) (buf : List UInt8) :
    smbcliRequestCalculateSignMac md5 signing oneWay seqNum buf =
      (signOutgoingMessage md5 buf signing.macKey signing.nextSeqNum, signing.nextSeqNum,
        { signing with nextSeqNum := signing.nextSeqNum + increment oneWay }) := by
  simp only [smbcliRequestCalculateSignMac, hon, increment]

/-- What the server makes of the next request: it passes, and the counter is behind it. -/
theorem InStep.receive (h : InStep md5 key l) (hne : key ≠ []) {r : SentRequest} (hr : l.requests = r :: rest) :
    ∃ seqNum server, smbsrvSigningCheckIncoming md5 l.server r.buf = ⟨true, seqNum, server⟩ ∧
      l.seqNums[r.mid]? = some seqNum ∧ server.signingState = .on ∧ server.macKey = key ∧
      Chained md5 key l.seqNums
        (if r.oneWay then smbsrvSigningNoReply server else server).nextSeqNum rest l.client.nextSeqNum := by
  have hchained := h.chained
  rw [hr] at hchained
  obtain ⟨hseq, ⟨pkt, hbuf⟩, hrest⟩ := hchained
  obtain ⟨server, hcheck, hon, hkey, hnext⟩ := @checkIncoming_good md5 _ _ h.server.1 h.server.2 hne pkt
  rw [← hbuf] at hcheck
  refine ⟨_, server, hcheck, hseq, hon, hkey, ?_⟩
  have hcount : (if r.oneWay then smbsrvSigningNoReply server else server).nextSeqNum =
      l.server.nextSeqNum + increment r.oneWay := by
    cases hone : r.oneWay with
    | false => exact hnext
    | true =>
      simp only [if_true, noReply_nextSeqNum hon, hnext, increment]
      rw [show (2 : UInt32) = 1 + 1 from rfl, ← UInt32.add_assoc, UInt32.add_sub_cancel]
  rw [hcount]
  exact hrest

theorem InStep.next {key : List UInt8} {l l' : Link} (h : InStep md5 key l) (hne : key ≠ []) {e : LinkEvent}
    (hstep : l.next md5 e = some l') : InStep md5 key l' := by
  cases e with
  | send pkt oneWay =>
    simp only [Link.next, calculateSignMac_on md5 h.client.1, Option.some.injEq] at hstep
    subst hstep
    refine ⟨h.client, h.server, ?_, ?_, ?_, h.requestChecks, h.replyChecks⟩
    · rw [h.client.2]
      exact h.chained.append oneWay pkt
    · exact fun p hp => getElem?_append_of_some (h.served p hp) _
    · intro r hr
      obtain ⟨seqNum, hseq, hbuf⟩ := h.replies r hr
      exact ⟨seqNum, getElem?_append_of_some hseq _, hbuf⟩
  | receive =>
    simp only [Link.next] at hstep
    split at hstep
    · cases hstep
    · rename_i r rest hr
      obtain ⟨seqNum, server, hcheck, hseq, hon, hkey, hrest⟩ := h.receive hne hr
      rw [hcheck] at hstep
      simp only [Bool.true_and, Option.some.injEq] at hstep
      subst hstep
      refine ⟨h.client, ?_, hrest, ?_, h.replies, ?_, h.replyChecks⟩
      · cases r.oneWay with
        | false => exact ⟨hon, hkey⟩
        | true =>
          simp only [if_true, noReply_nextSeqNum hon]
          exact ⟨hon, hkey⟩
      · intro p hp
        cases hone : r.oneWay with
        | true =>
          simp only [hone, if_true] at hp
          exact h.served p hp
        | false =>
          simp only [hone, Bool.false_eq_true, if_false, mem_append, mem_singleton] at hp
          rcases hp with hp | rfl
          · exact h.served p hp
          · exact hseq
      · intro b hb
        rcases mem_append.mp hb with hb | hb
        · exact h.requestChecks b hb
        · exact mem_singleton.mp hb
  | answer mid seqNum pkt =>
    simp only [Link.next] at hstep
    split at hstep
    · rename_i hmem
      cases hstep
      refine ⟨h.client, h.server, h.chained, fun p hp => h.served p (mem_of_mem_erase hp), ?_,
        h.requestChecks, h.replyChecks⟩
      intro r hr
      rcases mem_append.mp hr with hr | hr
      · exact h.replies r hr
      · rw [mem_singleton.mp hr]
        refine ⟨seqNum, h.served _ hmem, pkt, ?_⟩
        simp only [smbsrvSignPacket, h.server.1, h.server.2]
    · cases hstep
  | receiveReply =>
    simp only [Link.next] at hstep
    split at hstep
    · cases hstep
    · rename_i r rest hr
      obtain ⟨seqNum, hseq, pkt, hbuf⟩ := h.replies r (by rw [hr]; exact mem_cons_self ..)
      obtain ⟨client, hcheck, hon, hkey, hnext⟩ :=
        @checkSignMac_good md5 _ _ h.client.1 h.client.2 hne seqNum pkt
      have hget : l.seqNums.getD r.mid 0 = seqNum := by
        rw [getD_eq_getElem?_getD, hseq]
        rfl
      rw [hget, hbuf, hcheck] at hstep
      cases hstep
      refine ⟨⟨hon, hkey⟩, h.server, ?_, h.served, ?_, h.requestChecks, ?_⟩
      · rw [hnext]
        exact h.chained
      · exact fun r' hr' => h.replies r' (by rw [hr]; exact mem_cons_of_mem _ hr')
      · intro b hb
        rcases mem_append.mp hb with hb | hb
        · exact h.replyChecks b hb
        · exact mem_singleton.mp hb

/-! ## No number is used twice -/

/-- The numbers set aside for the replies still to come. -/
def Link.reserved (l : Link) : List UInt32 :=
  (l.requests.filter (!·.oneWay)).map (fun r => l.seqNums.getD r.mid 0 + 1) ++ l.served.map (·.2 + 1)

/-- The numbers used and set aside are different places counted from the start, all of them before
the client's next number; each request takes at most two. -/
structure Spaced (start : UInt32) (l : Link) (T : Nat) (places : List Nat) : Prop where
  next : l.client.nextSeqNum = start + UInt32.ofNat T
  room : T ≤ 2 * l.seqNums.length
  nodup : places.Nodup
  below : ∀ o ∈ places, o < T
  used : (l.signedWith ++ l.reserved).Perm (places.map fun o => start + UInt32.ofNat o)

theorem signedBy_on (hon : signing.signingState = .on) (seqNum : UInt32) :
    signedBy signing seqNum = [seqNum] := if_pos hon

theorem place_succ (start : UInt32) (T k : Nat) :
    start + UInt32.ofNat T + UInt32.ofNat k = start + UInt32.ofNat (T + k) := by
  rw [UInt32.add_assoc, UInt32.ofNat_add]

theorem Chained.sent :
    ∀ {a b : UInt32}, Chained md5 key seqNums a rest b → ∀ r ∈ rest, ∃ seqNum, seqNums[r.mid]? = some seqNum := by
  induction rest with
  | nil => exact fun _ r hr => (nomatch hr)
  | cons r rest ih =>
    rintro a b ⟨hseq, -, hrest⟩ r' hr'
    rcases mem_cons.mp hr' with rfl | hr'
    · exact ⟨a, hseq⟩
    · exact ih hrest r' hr'

theorem getD_of_some {i : Nat} {a : UInt32} (h : seqNums[i]? = some a) : seqNums.getD i 0 = a := by
  rw [getD_eq_getElem?_getD, h]
  rfl

/-- A request sent takes the next place, and the one after it for its reply. -/
theorem Spaced.send {T : Nat} (hin : InStep md5 key l) (h : Spaced start l T places) {pkt : Packet} {oneWay : Bool}
    (hstep : l.next md5 (.send pkt oneWay) = some l') : ∃ T' places', Spaced start l' T' places' := by
  simp only [Link.next, calculateSignMac_on md5 hin.client.1, signedBy_on hin.client.1, Option.some.injEq] at hstep
  subst hstep
  -- the numbers set aside before do not depend on the request added
  have hreserved : (l.requests.filter (!·.oneWay)).map
        (fun r => (l.seqNums ++ [l.client.nextSeqNum]).getD r.mid 0 + 1) =
      (l.requests.filter (!·.oneWay)).map fun r => l.seqNums.getD r.mid 0 + 1 := by
    refine map_congr_left fun r hr => ?_
    obtain ⟨seqNum, hseq⟩ := hin.chained.sent r (mem_filter.mp hr).1
    rw [getD_of_some hseq, getD_of_some (getElem?_append_of_some hseq _)]
  have hused := h.used
  unfold Link.reserved at hused
  have hlen : (l.seqNums ++ [l.client.nextSeqNum]).length = l.seqNums.length + 1 := by simp
  have hroom := h.room
  cases oneWay with
  | true =>
    refine ⟨T + 1, T :: places, ⟨?_, ?_, ?_, ?_, ?_⟩⟩
    · simp only [h.next]
      exact place_succ start T 1
    · rw [hlen]
      omega
    · exact nodup_cons.mpr ⟨fun hm => absurd (h.below T hm) (lt_irrefl T), h.nodup⟩
    · intro o ho
      rcases mem_cons.mp ho with rfl | ho
      · omega
      · exact lt_trans (h.below o ho) (Nat.lt_succ_self T)
    · unfold Link.reserved
      simp only [filter_append, filter_cons, Bool.not_true, Bool.false_eq_true, if_false, filter_nil,
        append_nil, hreserved, map_cons, ← h.next]
      rw [append_assoc]
      exact perm_middle.trans (hused.cons _)
  | false =>
    have hnew : (l.seqNums ++ [l.client.nextSeqNum]).getD l.seqNums.length 0 = l.client.nextSeqNum :=
      getD_of_some List.getElem?_concat_length
    refine ⟨T + 2, T :: (T + 1) :: places, ⟨?_, ?_, ?_, ?_, ?_⟩⟩
    · simp only [h.next]
      exact place_succ start T 2
    · rw [hlen]
      omega
    · refine nodup_cons.mpr ⟨fun hm => ?_, nodup_cons.mpr ⟨fun hm => ?_, h.nodup⟩⟩
      · rcases mem_cons.mp hm with hm | hm
        · omega
        · exact absurd (h.below T hm) (lt_irrefl T)
      · exact absurd (h.below _ hm) (by omega)
    · intro o ho
      rcases mem_cons.mp ho with rfl | ho
      · omega
      · rcases mem_cons.mp ho with rfl | ho
        · omega
        · exact lt_trans (h.below o ho) (by omega)
    · unfold Link.reserved
      simp only [filter_append, filter_cons, Bool.not_false, if_true, filter_nil, map_append,
        hreserved, map_cons, map_nil, hnew]
      have hnext : l.client.nextSeqNum + 1 = start + UInt32.ofNat (T + 1) := by
        rw [h.next]
        exact place_succ start T 1
      rw [← hnext, ← h.next]
      generalize (l.requests.filter (!·.oneWay)).map (fun r => l.seqNums.getD r.mid 0 + 1) = R at hused ⊢
      generalize l.served.map (·.2 + 1) = S at hused ⊢
      generalize l.client.nextSeqNum = n
      have hperm : (l.signedWith ++ [n] ++ (R ++ [n + 1] ++ S)).Perm (n :: (n + 1) :: (l.signedWith ++ (R ++ S))) := by
        rw [append_assoc, append_assoc R]
        refine perm_middle.trans (List.Perm.cons _ ?_)
        exact (perm_middle.append_left _).trans perm_middle
      exact hperm.trans ((hused.cons _).cons _)

/-- What is not a request sent takes no new place. -/
theorem Spaced.keep {T : Nat} (h : Spaced start l T places)
    (hnext : l'.client.nextSeqNum = l.client.nextSeqNum) (hseq : l'.seqNums = l.seqNums)
    (hused : (l'.signedWith ++ l'.reserved).Perm (l.signedWith ++ l.reserved)) :
    Spaced start l' T places :=
  ⟨hnext.trans h.next, hseq ▸ h.room, h.nodup, h.below, hused.trans h.used⟩

theorem Spaced.next_step (hin : InStep md5 key l)
    (hne : key ≠ []) (h : ∃ T places, Spaced start l T places) {e : LinkEvent} (hstep : l.next md5 e = some l') :
    ∃ T places, Spaced start l' T places := by
  obtain ⟨T, places, h⟩ := h
  cases e with
  | send pkt oneWay => exact h.send hin hstep
  | receive =>
    refine ⟨T, places, ?_⟩
    simp only [Link.next] at hstep
    split at hstep
    · cases hstep
    · rename_i r rest hr
      obtain ⟨seqNum, server, hcheck, hseq, -, -, -⟩ := hin.receive hne hr
      rw [hcheck] at hstep
      simp only [Bool.true_and, Option.some.injEq] at hstep
      subst hstep
      refine h.keep rfl rfl (List.Perm.append_left _ ?_)
      unfold Link.reserved
      rw [hr]
      cases hone : r.oneWay with
      | true => simp [hone]
      | false =>
        simp only [hone, Bool.false_eq_true, if_false, filter_cons, Bool.not_false, if_true, map_cons,
          map_append, map_nil, getD_of_some hseq]
        rw [← append_assoc]
        exact perm_append_singleton _ _
  | answer mid seqNum pkt =>
    refine ⟨T, places, ?_⟩
    simp only [Link.next] at hstep
    split at hstep
    · rename_i hmem
      cases hstep
      refine h.keep rfl rfl ?_
      rw [signedBy_on hin.server.1]
      unfold Link.reserved
      have hserved := ((perm_cons_erase hmem).map (fun p : Nat × UInt32 => p.2 + 1)).symm
      rw [map_cons] at hserved
      generalize (l.requests.filter (!·.oneWay)).map (fun r => l.seqNums.getD r.mid 0 + 1) = R
      generalize (l.served.erase (mid, seqNum)).map (fun p : Nat × UInt32 => p.2 + 1) = S at hserved ⊢
      have hmove : ((seqNum + 1) :: (R ++ S)).Perm (R ++ (seqNum + 1) :: S) := perm_middle.symm
      rw [append_assoc, singleton_append]
      exact (hmove.trans (hserved.append_left R)).append_left _
    · cases hstep
  | receiveReply =>
    refine ⟨T, places, ?_⟩
    simp only [Link.next] at hstep
    split at hstep
    · cases hstep
    · rename_i r rest hr
      obtain ⟨seqNum, hseq, pkt, hbuf⟩ := hin.replies r (by rw [hr]; exact mem_cons_self ..)
      obtain ⟨client, hcheck, -, -, hnext⟩ :=
        @checkSignMac_good md5 _ _ hin.client.1 hin.client.2 hne seqNum pkt
      rw [getD_of_some hseq, hbuf, hcheck] at hstep
      cases hstep
      exact h.keep hnext rfl (List.Perm.refl _)

/-- Places below the size of the counter give different numbers. -/
theorem place_injOn (start : UInt32) (h : places.Nodup) (hb : ∀ o ∈ places, o < 2 ^ 32) :
    (places.map fun o => start + UInt32.ofNat o).Nodup := by
  refine h.map_on ?_
  intro a ha b hb' hab
  have hn := congrArg UInt32.toNat ((UInt32.add_right_inj start).mp hab)
  rwa [UInt32.toNat_ofNat_of_lt' (hb a ha), UInt32.toNat_ofNat_of_lt' (hb b hb')] at hn

/-- Every request passes at the server, every reply passes at the client, and no two of them are
signed with the same number, as long as fewer than 2^30 requests are sent. -/
theorem signed_pipeline (md5 : List UInt8 → Digest) {key : List UInt8} (hne : key ≠ []) {start : UInt32} {l : Link}
    (h : (linkSystem md5 key start).Reachable l) :
    (∀ good ∈ l.requestChecks, good = true) ∧ (∀ good ∈ l.replyChecks, good = true) ∧
      (l.seqNums.length < 2 ^ 30 → l.signedWith.Nodup) := by
  have hinv : InStep md5 key l ∧ ∃ T places, Spaced start l T places := by
    refine @System.Reachable.invariant _ _ _ (fun l => InStep md5 key l ∧ ∃ T places, Spaced start l T places)
      ?_ ?_ _ h
    · rintro l ⟨⟨hc, hck, hcn⟩, ⟨hs, hsk, hsn⟩, hseq, hreq, hserved, hrep, hrc, hpc, hused⟩
      refine ⟨⟨⟨hc, hck⟩, ⟨hs, hsk⟩, ?_, ?_, ?_, ?_, ?_⟩, 0, [], ⟨?_, Nat.zero_le _, nodup_nil, ?_, ?_⟩⟩
      · rw [hreq, hsn, hcn]
        rfl
      · rw [hserved]
        exact fun p hp => (nomatch hp)
      · rw [hrep]
        exact fun r hr => (nomatch hr)
      · rw [hrc]
        exact fun b hb => (nomatch hb)
      · rw [hpc]
        exact fun b hb => (nomatch hb)
      · rw [hcn]
        exact (UInt32.add_zero start).symm
      · exact fun o ho => (nomatch ho)
      · unfold Link.reserved
        rw [hused, hreq, hserved]
        exact List.Perm.refl _
    · rintro l e l' ⟨hin, hspaced⟩ hstep
      exact ⟨hin.next hne hstep, Spaced.next_step hin hne hspaced hstep⟩
  obtain ⟨hin, T, places, hspaced⟩ := hinv
  refine ⟨hin.requestChecks, hin.replyChecks, fun hlen => ?_⟩
  have hroom := hspaced.room
  have hnodup := place_injOn start hspaced.nodup fun o ho => lt_trans (hspaced.below o ho) (by omega)
  exact (nodup_append.mp (hspaced.used.symm.nodup hnodup)).1

/-! ## Runs on fixed packets -/

theorem reachable_run {md5 : List UInt8 → Digest} {key : List UInt8} {start : UInt32} {events : List LinkEvent} :
    ∀ {l l' : Link}, (linkSystem md5 key start).Reachable l → events.foldlM (Link.next md5) l = some l' →
      (linkSystem md5 key start).Reachable l' := by
  induction events with
  | nil =>
    intro l l' h hrun
    cases hrun
    exact h
  | cons e events ih =>
    intro l l' h hrun
    rw [foldlM_cons] at hrun
    obtain ⟨l₁, hstep, hrest⟩ := Option.bind_eq_some_iff.mp hrun
    exact ih (h.step e hstep) hrest

/-- Two ends that sign with a key. -/
def startLink (key : List UInt8) : Link :=
  ⟨⟨.on, key, 0, true, true, false, true⟩, ⟨.on, key, 0, true, true, false, true⟩, [], [], [], [], [], [], []⟩

theorem startLink_reachable (key : List UInt8) : (linkSystem zeroMd5 key 0).Reachable (startLink key) :=
  .init ⟨⟨rfl, rfl, rfl⟩, ⟨rfl, rfl, rfl⟩, rfl, rfl, rfl, rfl, rfl, rfl, rfl⟩

/-- A request, a one-way request, and the reply to the first. -/
def pingEvents : List LinkEvent :=
  [.send unsignedPacket false, .send unsignedPacket true, .receive, .receive, .answer 0 0 unsignedPacket,
    .receiveReply]

def pingLink : Link := (pingEvents.foldlM (Link.next zeroMd5) (startLink [1])).getD (startLink [1])

theorem signed_pipeline_ping :
    (∀ good ∈ pingLink.requestChecks, good = true) ∧ (∀ good ∈ pingLink.replyChecks, good = true) ∧
      (pingLink.seqNums.length < 2 ^ 30 → pingLink.signedWith.Nodup) :=
  signed_pipeline zeroMd5 (by decide) (@reachable_run _ _ _ pingEvents _ pingLink (startLink_reachable [1])
    (by decide))

/-- An empty key counts as no key yet: the first request does not pass. -/
theorem empty_key_refused : ∃ l, (linkSystem zeroMd5 [] 0).Reachable l ∧ l.requestChecks = [false] := by
  have hrun : ∃ l, [LinkEvent.send unsignedPacket false, .receive].foldlM (Link.next zeroMd5) (startLink []) = some l ∧
      l.requestChecks = [false] := by
    refine ⟨_, rfl, ?_⟩
    decide
  obtain ⟨l, hrun, hchecks⟩ := hrun
  exact ⟨l, reachable_run (startLink_reachable []) hrun, hchecks⟩

end Samba.Smb
