import DasProtokoll.Lib.OsString
import DasProtokoll.Csync.PacedReceiver

/-!
# The login packet

A session opens with a login, and then its socket takes chunks. Neither says what
it is, so a second copy of the login that reaches the session is read as a chunk.
-/

namespace DasProtokoll.Csync

open DasProtokoll BitteEinBit

structure UploadRequest where
  path : String
  length : Nat
  deriving Repr, DecidableEq

inductive Command where
  | UploadRequest (req : UploadRequest)
  deriving Repr, DecidableEq

structure Login where
  clientToken : Bytes
  command : Command
  deriving Repr, DecidableEq

section Codec

variable [Varint]

def UploadRequest.encode (req : UploadRequest) : Bytes :=
  let path := OsString.ofString req.path
  Varint.write path.length ++ path ++ Varint.write req.length

def Command.encode : Command → Bytes
  | .UploadRequest req => 0 :: req.encode

def Login.encode (login : Login) : Bytes :=
  Varint.write login.clientToken.length ++ login.clientToken ++ login.command.encode

/-- Length-prefixed data and what follows it. -/
def readBytes (src : Bytes) : Result (Bytes × Bytes) :=
  match Varint.read src with
  | .value size rest => do
    Result.assert (size ≤ rest.length)
    return (rest.take size, rest.drop size)
  | _ => .panic

/-- No result where the source returns an error. -/
def UploadRequest.decode (src : Bytes) : Result (Option UploadRequest) := do
  let (path, src) ← readBytes src
  match OsString.fromUtf8 path, Varint.read src with
  | some path, .value length _ => return some { path, length }
  | _, _ => return none

def Command.decode : Bytes → Result (Option Command)
  | [] => return none
  | tag :: src =>
    if tag = 0 then do
      let req ← UploadRequest.decode src
      return req.map .UploadRequest
    else .panic

def Login.decode (src : Bytes) : Result (Option Login) := do
  let (clientToken, src) ← readBytes src
  let command ← Command.decode src
  return command.map fun command => { clientToken, command }

/-- The session that a datagram opens at the listener, where `disk` is the folder of the upload. -/
def handleClient (buf : Bytes) (disk : Disk) : Result (Option Receiver) := do
  match ← Login.decode (buf.take mtu) with
  | none => return none
  | some { command := .UploadRequest req, .. } =>
    let receiver ← Receiver.new disk req.length
    return some receiver

/-! ## The server reads what the client wrote -/

theorem readBytes_write {data : Bytes} (h : data.length < u64Size) (rest : Bytes) :
    readBytes (Varint.write data.length ++ data ++ rest) = .ok (data, rest) := by
  unfold readBytes
  rw [List.append_assoc, Varint.read_write _ _ h]
  simp only
  rw [Result.assert_of (by simp)]
  simp

theorem UploadRequest.decode_length {src : Bytes} {req : UploadRequest}
    (h : UploadRequest.decode src = .ok (some req)) : req.length < u64Size := by
  unfold UploadRequest.decode at h
  rw [Result.bind_eq_ok] at h
  obtain ⟨⟨path, src⟩, -, h⟩ := h
  simp only at h
  split at h
  · rename_i path' length rest _ hread
    rw [Result.pure_def, Result.ok.injEq, Option.some.injEq] at h
    rw [← h]
    exact (Varint.read_lt _ _ _ hread).1
  · cases h

theorem Command.decode_length {src : Bytes} {req : Csync.UploadRequest}
    (h : Command.decode src = .ok (some (.UploadRequest req))) : req.length < u64Size := by
  unfold Command.decode at h
  split at h
  · cases h
  · split at h
    · rw [Result.bind_eq_ok] at h
      obtain ⟨decoded, hdecoded, h⟩ := h
      rw [Result.pure_def, Result.ok.injEq, Option.map_eq_some_iff] at h
      obtain ⟨req', rfl, h⟩ := h
      rw [Command.UploadRequest.injEq] at h
      exact h ▸ Csync.UploadRequest.decode_length hdecoded
    · cases h

theorem handleClient_cases {d : Bytes} {disk : Disk} {r : Receiver}
    (h : handleClient d disk = .ok (some r)) :
    ∃ login req, Login.decode (d.take mtu) = .ok (some login) ∧
      login.command = .UploadRequest req ∧ req.length < u64Size ∧
      Receiver.new disk req.length = .ok r := by
  obtain ⟨decoded, hlogin, h⟩ := Result.bind_eq_ok.mp h
  cases decoded with
  | none => simp at h
  | some login =>
    obtain ⟨token, ⟨req⟩⟩ := login
    simp only [Result.bind_eq_ok, Result.pure_def, Result.ok.injEq, Option.some.injEq] at h
    obtain ⟨_, hnew, rfl⟩ := h
    refine ⟨_, req, hlogin, rfl, ?_, hnew⟩
    obtain ⟨⟨_, src⟩, -, h⟩ := Result.bind_eq_ok.mp hlogin
    obtain ⟨command, hcommand, h⟩ := Result.bind_eq_ok.mp h
    rw [Result.pure_def, Result.ok.injEq, Option.map_eq_some_iff] at h
    obtain ⟨_, rfl, h⟩ := h
    rw [Login.mk.injEq] at h
    rw [h.2] at hcommand
    exact Command.decode_length hcommand

theorem handleClient_unwrap {d : Bytes} {disk : Disk} {r : Receiver}
    (h : (handleClient d disk >>= Result.unwrap) = .ok r) : handleClient d disk = .ok (some r) := by
  obtain ⟨opened, hopened, h⟩ := Result.bind_eq_ok.mp h
  rw [Result.unwrap_eq_ok] at h
  exact h ▸ hopened

end Codec

/-! ## A copy of the login in the session -/

namespace Receiver

variable {length : Nat} {info : ChunkInfo} {r r' : Receiver}

theorem Sound.exists_takes (h : r.Sound info) (hs : r.state ≠ .Shutdown) :
    ∃ progress, r.Takes progress := by
  have hstate := h.state
  unfold Takes
  cases hr : r.state with
  | WaitForChunk w => exact ⟨0, trivial⟩
  | WritingChunk w => exact ⟨w.rest.length, le_refl _⟩
  | Shutdown => exact absurd hr hs
  | _ => simp [hr, Serving] at hstate

theorem pollWrite_setTx (tx : List ChannelMessage) {progress : Nat} {done : Bool} {q : Receiver}
    (h : r.pollWrite progress = .ok (done, q)) :
    ∃ tx', ({ r with tx } : Receiver).pollWrite progress = .ok (done, { q with tx := tx' }) := by
  unfold pollWrite at h ⊢
  cases hs : r.state with
  | WritingChunk w =>
    simp only [hs, Result.bind_eq_ok] at h
    obtain ⟨data, hdata, h⟩ := h
    simp only [hdata, Result.bind_ok]
    split at h
    · rename_i hlt
      rw [Result.pure_def, Result.ok.injEq, Prod.mk.injEq] at h
      exact ⟨tx, by rw [if_pos hlt, ← h.1, ← h.2]; rfl⟩
    · rename_i hle
      simp only [Result.bind_eq_ok, Result.pure_def, Result.ok.injEq, Prod.mk.injEq] at h
      obtain ⟨⟨old, bitmap⟩, hset, rfl, rfl⟩ := h
      rw [if_neg hle]
      simp only [hset, Result.bind_ok, Result.pure_def]
      exact ⟨_, rfl⟩
  | _ =>
    simp only [hs, Result.pure_def, Result.ok.injEq, Prod.mk.injEq] at h
    exact ⟨tx, by simp [hs, ← h.1, ← h.2]⟩

theorem pollRecv_none_setTx {q : Receiver} (h : r.pollRecv none = .ok q) (tx : List ChannelMessage) :
    q = r ∧ ({ r with tx } : Receiver).pollRecv none = .ok { r with tx } := by
  unfold pollRecv at h ⊢
  cases hs : r.state with
  | Invalid => simp [hs] at h
  | WritingChunk w => simp [hs] at h
  | _ =>
    simp only [hs, Result.pure_def, Result.ok.injEq] at h
    exact ⟨h.symm, by simp⟩

theorem poll_setTx (tx : List ChannelMessage) {ready : Bool} {progress : Nat} {q : Receiver}
    (h : r.poll ready progress none = .ok q) (ready' : Bool) :
    ∃ tx', ({ r with tx } : Receiver).poll ready' progress none = .ok { q with tx := tx' } := by
  obtain ⟨tx₁, htx₁⟩ := pollCongestion_eq r ready
  obtain ⟨tx₂, htx₂⟩ := pollCongestion_eq { r with tx } ready'
  simp only [poll, htx₁, htx₂, Result.bind_eq_ok] at h ⊢
  obtain ⟨⟨done, q₁⟩, hwrite, h⟩ := h
  obtain ⟨tx₃, htx₃⟩ := pollWrite_setTx tx₂ hwrite
  cases done with
  | false =>
    simp only [Result.pure_def, Result.ok.injEq] at h
    exact ⟨tx₃, _, htx₃, by rw [← h]; rfl⟩
  | true =>
    obtain ⟨rfl, hrecv⟩ := pollRecv_none_setTx h tx₃
    exact ⟨tx₃, _, htx₃, hrecv⟩

theorem not_ignored_of_new (g : Geometry length info) (h64 : length < u64Size) {q q' : Receiver}
    {d : Bytes} (h : q.Sound info) {state : Csync.WaitForChunk} (hs : q.state = .WaitForChunk state)
    (hreadable : Readable info d) (hlt : chunkIndex info d < info.numChunks)
    (hbit : q.bitmap.bit (chunkIndex info d) = false) (hrecv : q.pollRecv (some d) = .ok q') :
    ∃ progress, q.Takes progress ∧ q'.Takes progress ∧ ∀ t t' ready ready',
      q.poll ready progress none = .ok t → q'.poll ready' progress none = .ok t' → t'.bitmap ≠ t.bitmap := by
  obtain ⟨q₁, hq₁, hsound⟩ := pollRecv_readable g h hs h64 hreadable
  rw [hrecv, Result.ok.injEq] at hq₁
  subst hq₁
  rw [pollRecv_new g h hs h64 hreadable.1 hlt hbit, Result.ok.injEq] at hrecv
  have hshut : q'.state ≠ .Shutdown := by rw [← hrecv]; simp
  obtain ⟨progress, htakes⟩ := hsound.exists_takes hshut
  have hwaiting : q.Takes progress := by simp [Takes, hs]
  refine ⟨progress, hwaiting, htakes, ?_⟩
  intro t t' ready ready' ht ht' heq
  obtain ⟨t₁, -, -, -, hmarked, ht₁, -⟩ := poll_taken h hwaiting ready
  obtain ⟨t₂, -, -, -, hmarked', ht₂, -⟩ := poll_taken hsound htakes ready'
  obtain rfl := Result.ok.inj (ht.symm.trans ht₁)
  obtain rfl := Result.ok.inj (ht'.symm.trans ht₂)
  have hnew : q'.Marked (chunkIndex info d) := Or.inr ⟨_, by rw [← hrecv], rfl⟩
  rw [← hmarked', heq, hmarked] at hnew
  rcases hnew with hmark | ⟨w, hw, -⟩
  · rw [hbit] at hmark
    cases hmark
  · rw [hs] at hw
    cases hw

end Receiver

namespace PacedReceiver

variable {numPackets : Nat → Nat} {length : Nat} {info : ChunkInfo} {s s' t t' : PacedReceiver}

/-- The datagram is lost on the receiver: it does not panic or shut down, and whatever it writes
afterwards, without another datagram, it would have written anyway. -/
def Ignores (numPackets : Nat → Nat) (s : PacedReceiver) (d : Bytes) : Prop :=
  ∀ p : TimedPoll, p.datagram = none → ∀ t, s.polled numPackets p = .ok t →
    ∃ t', s.polled numPackets { p with datagram := some d } = .ok t' ∧
      (t'.receiver.state = .Shutdown → t.receiver.state = .Shutdown) ∧
      ∀ polls : List TimedPoll, (∀ p ∈ polls, p.datagram = none) →
        ∀ u, replay (polled numPackets) t polls = .ok u →
          ∃ u', replay (polled numPackets) t' polls = .ok u' ∧
            u'.receiver.bitmap = u.receiver.bitmap ∧ u'.receiver.file = u.receiver.file

/-- The upload is over, or the first bytes of the datagram are the index of a chunk that is received
or in work, and a chunk can be counted. -/
def Passed (info : ChunkInfo) (s : PacedReceiver) (d : Bytes) : Prop :=
  s.receiver.state = .Shutdown ∨
    (info.indexFieldSize ≤ (d.take mtu).length ∧ chunkIndex info d < info.numChunks ∧
      s.receiver.Marked (chunkIndex info d) ∧ s.congestion.Covered)

theorem polled_none {p : TimedPoll} (hp : p.datagram = none) :
    s.polled numPackets p = do
      let (ready, congestion) :=
        s.congestion.poll numPackets s.receiver.congestionDone p.ready (s.now + p.wait)
      let receiver ← s.receiver.poll ready p.progress none
      return { s with congestion, receiver, now := s.now + p.wait } := by
  rw [polled, hp, Pace.poll_nothing (Receiver.taken_none s.receiver p.progress)]
  rfl

theorem replay_none {polls : List TimedPoll} (hp : ∀ p ∈ polls, p.datagram = none)
    (hreceiver : ∃ tx, t'.receiver = { t.receiver with tx }) {u : PacedReceiver}
    (h : replay (polled numPackets) t polls = .ok u) :
    ∃ u', replay (polled numPackets) t' polls = .ok u' ∧
      u'.receiver.bitmap = u.receiver.bitmap ∧ u'.receiver.file = u.receiver.file := by
  induction polls generalizing t t' with
  | nil =>
    obtain ⟨tx, htx⟩ := hreceiver
    rw [replay, Result.ok.injEq] at h
    subst h
    exact ⟨t', rfl, by rw [htx], by rw [htx]⟩
  | cons p polls ih =>
    obtain ⟨v, hv, h⟩ := Result.bind_eq_ok.mp h
    obtain ⟨tx, htx⟩ := hreceiver
    simp only [polled_none (hp p (by simp)), Result.bind_eq_ok, Result.pure_def, Result.ok.injEq] at hv
    obtain ⟨receiver, hpoll, rfl⟩ := hv
    obtain ⟨tx', hpoll'⟩ := Receiver.poll_setTx tx hpoll
      (t'.congestion.poll numPackets t'.receiver.congestionDone p.ready (t'.now + p.wait)).1
    rw [← htx] at hpoll'
    obtain ⟨v', hstep, hv'⟩ : ∃ v', t'.polled numPackets p = .ok v' ∧
        v'.receiver = { receiver with tx := tx' } := by
      rw [polled_none (hp p (by simp))]
      simp [hpoll']
    obtain ⟨u', hu', hsame⟩ := ih (fun p hp' => hp p (by simp [hp'])) ⟨tx', hv'⟩ h
    exact ⟨u', by rw [replay, hstep]; exact hu', hsame⟩

theorem Sound.ignores_iff (g : Geometry length info) (h64 : length < u64Size) (h : s.Sound info)
    (d : Bytes) : s.Ignores numPackets d ↔ s.Passed info d := by
  constructor
  · intro hignores
    by_cases hshut : s.receiver.state = .Shutdown
    · exact Or.inl hshut
    right
    obtain ⟨progress, htakes⟩ := h.receiver.exists_takes hshut
    let p : TimedPoll := { ready := false, progress, datagram := none, wait := 0 }
    have htotal : s.Addressed info p := fun d hd => by cases hd
    obtain ⟨t, ht⟩ := (h.polled_total_iff numPackets g h64 p).mpr htotal
    obtain ⟨t', ht', hend, hlater⟩ := hignores p rfl t ht
    have haddressed := (h.polled_total_iff numPackets g h64 { p with datagram := some d }).mp ⟨t', ht'⟩
    obtain ⟨hreadable, hcovered⟩ := haddressed d rfl htakes
    obtain ⟨ready, -, -, hreceiver, -, -⟩ := polled_ok ht
    obtain ⟨ready', -, -, hreceiver', -, -⟩ := polled_ok ht'
    obtain ⟨q, state, hsound, hs, hmarked, hnone, hpoll⟩ := Receiver.poll_taken h.receiver htakes ready'
    have hrecv : q.pollRecv (some d) = .ok t'.receiver := (hpoll (some d)).symm.trans hreceiver'
    -- The two polls may differ in what they ask the sender for.
    obtain ⟨tx, htx⟩ := Receiver.poll_setTx s.receiver.tx hreceiver ready'
    have hq : q = { t.receiver with tx } := Result.ok.inj (hnone.symm.trans htx)
    rcases Nat.lt_or_eq_of_le hreadable.2 with hlt | hfin
    · refine ⟨hreadable.1, hlt, (hmarked _).mp ?_, hcovered hlt⟩
      by_contra hbit
      rw [Bool.not_eq_true] at hbit
      obtain ⟨progress', -, -, hne⟩ :=
        Receiver.not_ignored_of_new g h64 hsound hs hreadable hlt hbit hrecv
      have hs' := h.polled g h64 ht
      let p' : TimedPoll := { ready := false, progress := progress', datagram := none, wait := 0 }
      obtain ⟨u, hu⟩ := (hs'.polled_total_iff numPackets g h64 p').mpr
        fun d hd => by cases hd
      obtain ⟨u', hu', hbitmap, -⟩ := hlater [p'] (by simp [p']) u (by simp [replay, hu])
      obtain ⟨u'', hu'', hreplay⟩ := Result.bind_eq_ok.mp hu'
      rw [replay, Result.ok.injEq] at hreplay
      subst hreplay
      obtain ⟨ready₁, -, -, hpolled, -, -⟩ := polled_ok hu
      obtain ⟨ready₂, -, -, hpolled', -, -⟩ := polled_ok hu''
      obtain ⟨tx', htx'⟩ := Receiver.poll_setTx tx hpolled ready₁
      rw [← hq] at htx'
      exact hne _ _ ready₁ ready₂ htx' hpolled' hbitmap
    · -- The extension message ends the upload.
      rw [Receiver.pollRecv_fin g hsound hs hreadable.1 hfin, Result.ok.injEq] at hrecv
      have hstate := hend (by rw [← hrecv])
      rw [hq] at hs
      rw [show t.receiver.state = _ from hs] at hstate
      cases hstate
  · intro hpassed p hp t ht
    let p' : TimedPoll := { p with datagram := some d }
    have haddressed : s.Addressed info p' := by
      intro d' hd' htakes
      obtain rfl : d = d' := Option.some.inj hd'
      rcases hpassed with hshut | ⟨hlen, hlt, -, hcovered⟩
      · simp [Receiver.Takes, hshut] at htakes
      · exact ⟨⟨hlen, hlt.le⟩, fun _ => hcovered⟩
    obtain ⟨t', ht'⟩ := (h.polled_total_iff numPackets g h64 p').mpr haddressed
    -- The bitmap does not change, since the chunk is there.
    have hsame : t'.receiver = t.receiver := by
      obtain ⟨ready, pace, hpace, hreceiver, -, -⟩ := polled_ok ht
      obtain ⟨ready', pace', hpace', hreceiver', -, -⟩ := polled_ok ht'
      have hready := (Pace.poll_ok h.receiver hpace).1
      obtain rfl : ready' = ready := (Pace.poll_ok h.receiver hpace').1.trans hready.symm
      rw [Receiver.polled, hp] at hreceiver
      by_cases htakes : s.receiver.Takes p.progress
      · rcases hpassed with hshut | ⟨hlen, hlt, hmark, -⟩
        · simp [Receiver.Takes, hshut] at htakes
        · obtain ⟨q, state, hsound, hs, hmarked, hnone, hpoll⟩ :=
            Receiver.poll_taken h.receiver htakes ready'
          have hknown := Receiver.pollRecv_known g hsound hs hlen hlt ((hmarked _).mpr hmark)
          have hrecv : q.pollRecv (some d) = .ok t'.receiver := (hpoll (some d)).symm.trans hreceiver'
          rw [← Result.ok.inj (hknown.symm.trans hrecv)]
          exact Result.ok.inj (hnone.symm.trans hreceiver)
      · obtain ⟨r, hr, -, hnone⟩ := Receiver.poll_untaken h.receiver htakes ready' (some d)
        rw [← Result.ok.inj (hr.symm.trans hreceiver')]
        exact Result.ok.inj (hnone.symm.trans hreceiver)
    refine ⟨t', ht', fun hshut => hsame ▸ hshut, fun polls hpolls u hu => ?_⟩
    exact replay_none hpolls ⟨t.receiver.tx, hsame⟩ hu

end PacedReceiver

/-- In each state that the session of a login can reach, a second copy of the login is ignored if and
only if the upload is over, or the first bytes of the copy name a chunk that is received or in work and
the average is not less than what is taken off for it. -/
theorem login_copy_iff [Varint] {numPackets : Nat → Nat} {d : Bytes} {disk : Disk} {r₀ : Receiver}
    (h0 : handleClient d disk = .ok (some r₀)) {now : Nat} {s₀ s : PacedReceiver}
    (hstart : PacedReceiver.start r₀ now = .ok s₀)
    (hr : Reachable (fun s p s' => PacedReceiver.polled numPackets s p = .ok s') s₀ s) :
    ∃ login req info, Login.decode (d.take mtu) = .ok (some login) ∧
      login.command = .UploadRequest req ∧ indexFieldSize req.length = .ok info ∧
      (s.Ignores numPackets d ↔ s.Passed info d) := by
  obtain ⟨login, req, hlogin, hreq, h64, hnew⟩ := handleClient_cases h0
  obtain ⟨info, hinfo, g⟩ := indexFieldSize_spec h64
  have hsound : s.Sound info := hr.invariant (.start (.new hinfo hnew) hstart)
    fun _ _ _ hq hstep => hq.polled g h64 hstep
  exact ⟨login, req, info, hlogin, hreq, hinfo, hsound.ignores_iff g h64 d⟩

def loginOfByte (clientToken : Bytes) : Login :=
  { clientToken, command := .UploadRequest { path := "a", length := 1 } }

/-- The session that the login opens on a server that has nothing of the file, and its receiver. -/
def openedBy [Varint] (d : Bytes) : Result (Receiver × PacedReceiver) := do
  let r ← handleClient d { bitmap := none, file := none } >>= Result.unwrap
  let s ← PacedReceiver.start r 0
  return (r, s)

theorem openedBy_ok [Varint] {d : Bytes} {r : Receiver} {s : PacedReceiver} (h : openedBy d = .ok (r, s)) :
    handleClient d { bitmap := none, file := none } = .ok (some r) ∧ PacedReceiver.start r 0 = .ok s := by
  unfold openedBy at h
  obtain ⟨r', hopened, h⟩ := Result.bind_eq_ok.mp h
  obtain ⟨s', hs, h⟩ := Result.bind_eq_ok.mp h
  rw [Result.pure_def, Result.ok.injEq, Prod.mk.injEq] at h
  obtain ⟨rfl, rfl⟩ := h
  exact ⟨handleClient_unwrap hopened, hs⟩

def written : TimedPoll := { ready := false, progress := mtu, datagram := none, wait := 1 }

/-- The only chunk is received, and the copy of the login names it. -/
theorem login_copy_iff_received :
    letI := leb128
    ∃ r₀ s₀ s, openedBy (loginOfByte []).encode = .ok (r₀, s₀) ∧
      Reachable (fun s p s' => PacedReceiver.polled (fun _ => 0) s p = .ok s') s₀ s ∧
      s.receiver.bitmap.all = true ∧ s.Ignores (fun _ => 0) (loginOfByte []).encode := by
  let _ := leb128
  let d := (loginOfByte []).encode
  have hrun : (do
      let opened ← openedBy d
      let s ← replay (PacedReceiver.polled fun _ => 0) opened.2 [PacedReceiver.untimed 0 [0, 7], written]
      return decide (s.receiver.bitmap.all = true ∧ s.receiver.bitmap.bit 0 = true ∧
        s.congestion.Covered)) = .ok true := by decide +kernel
  obtain ⟨⟨r₀, s₀⟩, hopened, hrun⟩ := Result.bind_eq_ok.mp hrun
  obtain ⟨h0, hstart⟩ := openedBy_ok hopened
  obtain ⟨s, hs, hrun⟩ := Result.bind_eq_ok.mp hrun
  simp only [Result.pure_def, Result.ok.injEq, decide_eq_true_eq] at hrun
  obtain ⟨hall, hbit, hcovered⟩ := hrun
  have hreach : Reachable (fun s p s' => PacedReceiver.polled (fun _ => 0) s p = .ok s') s₀ s :=
    replay_reachable (fun _ _ _ h => h) hs
  refine ⟨r₀, s₀, s, hopened, hreach, hall, ?_⟩
  obtain ⟨login, req, info, hlogin, hreq, hinfo, hiff⟩ := login_copy_iff h0 hstart hreach
  have hdecode : Login.decode (d.take mtu) = .ok (some (loginOfByte [])) := by decide +kernel
  rw [hdecode, Result.ok.injEq, Option.some.injEq] at hlogin
  subst hlogin
  rw [loginOfByte, Command.UploadRequest.injEq] at hreq
  subst hreq
  have hone : indexFieldSize 1 = .ok ⟨1, 1459, 1, 1⟩ := by decide
  rw [hone, Result.ok.injEq] at hinfo
  subst hinfo
  exact hiff.mpr (Or.inr ⟨by decide, by decide, Or.inl hbit, hcovered⟩)

/-- The login of a session is its first datagram, too. The length of the token is then the index of
the extension message and ends the upload, or it is behind that and stops the server, or it is the
index of the only chunk, and the rest of the login is stored as the file. -/
theorem login_read_as_chunk :
    letI := leb128
    let d (token : Bytes) := (loginOfByte token).encode
    let copy (token : Bytes) := PacedReceiver.untimed 0 (d token)
    (∃ r s s', openedBy (d [1]) = .ok (r, s) ∧ s.polled (fun _ => 0) (copy [1]) = .ok s' ∧
      s'.receiver.state = .Shutdown ∧ s'.receiver.bitmap.all = false ∧ ¬ s.Ignores (fun _ => 0) (d [1])) ∧
    (∃ r s, openedBy (d [1, 2]) = .ok (r, s) ∧ s.polled (fun _ => 0) (copy [1, 2]) = .panic) ∧
    (∃ r s s', openedBy (d []) = .ok (r, s) ∧
      replay (PacedReceiver.polled fun _ => 0) s [copy [], written] = .ok s' ∧
      s'.receiver.bitmap.all = true ∧ s'.receiver.file = [0, 1, 97, 1]) := by
  let _ := leb128
  let d (token : Bytes) := (loginOfByte token).encode
  let copy (token : Bytes) := PacedReceiver.untimed 0 (d token)
  refine ⟨?_, ?_, ?_⟩
  · have hrun : (do
        let opened ← openedBy (d [1])
        let idle ← opened.2.polled (fun _ => 0) { copy [1] with datagram := none }
        let s' ← opened.2.polled (fun _ => 0) (copy [1])
        return decide (idle.receiver.state ≠ State.Shutdown ∧ s'.receiver.state = State.Shutdown ∧
          s'.receiver.bitmap.all = false)) = .ok true := by decide +kernel
    obtain ⟨⟨r, s⟩, hopened, hrun⟩ := Result.bind_eq_ok.mp hrun
    obtain ⟨idle, hidle, hrun⟩ := Result.bind_eq_ok.mp hrun
    obtain ⟨s', hs', hrun⟩ := Result.bind_eq_ok.mp hrun
    simp only [Result.pure_def, Result.ok.injEq, decide_eq_true_eq] at hrun
    obtain ⟨hwaits, hshut, hall⟩ := hrun
    refine ⟨r, s, s', hopened, hs', hshut, hall, fun hignores => ?_⟩
    obtain ⟨t, ht, hend, -⟩ := hignores { copy [1] with datagram := none } rfl idle hidle
    obtain rfl : t = s' := Result.ok.inj (ht.symm.trans hs')
    exact hwaits (hend hshut)
  · have hrun : (do
        let opened ← openedBy (d [1, 2])
        return opened.2.polled (fun _ => 0) (copy [1, 2])) = .ok .panic := by decide +kernel
    obtain ⟨⟨r, s⟩, hopened, hrun⟩ := Result.bind_eq_ok.mp hrun
    exact ⟨r, s, hopened, by simpa using hrun⟩
  · have hrun : (do
        let opened ← openedBy (d [])
        let s' ← replay (PacedReceiver.polled fun _ => 0) opened.2 [copy [], written]
        return (s'.receiver.bitmap.all, s'.receiver.file)) = .ok (true, [0, 1, 97, 1]) := by decide +kernel
    obtain ⟨⟨r, s⟩, hopened, hrun⟩ := Result.bind_eq_ok.mp hrun
    obtain ⟨s', hs', hrun⟩ := Result.bind_eq_ok.mp hrun
    simp only [Result.pure_def, Result.ok.injEq, Prod.mk.injEq] at hrun
    exact ⟨r, s, s', hopened, hs', hrun.1, hrun.2⟩

end DasProtokoll.Csync
