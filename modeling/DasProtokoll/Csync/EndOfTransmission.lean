import DasProtokoll.Csync.Session

/-!
# End of transmission

The client leaves its loop and the server removes the bitmap file only when no
chunk is missing.
-/

namespace DasProtokoll.Csync

open DasProtokoll BitteEinBit

variable [Varint]

theorem parseStatusUpdate_full_iff {m : BitMap} (hm : m.Valid) (h64 : m.numBits < u64Size)
    {buf out : Bytes} (hbuf : buf.length = mtu) {written : Nat}
    (h : writeRunlengthEncoded m buf = .ok (written, out)) :
    ∃ full missing, MissingRanges.parseStatusUpdate (out.take written) = .ok (full, missing) ∧
      (full = true ↔ Full m) := by
  have hparse := parse_sent_status hm.fits h64 h
  rw [hbuf] at hparse
  exact ⟨_, _, hparse, rangesOf_isEmpty⟩

omit [Varint] in
theorem chunk_ne_fin {file d : Bytes} {info : ChunkInfo} (g : Geometry file.length info)
    {c : Chunk} (hd : IsData info file d) (hc : Chunk.decode (d.take mtu) info.indexFieldSize = .ok c) :
    c.index ≠ info.numChunks := by
  obtain ⟨i, hi, rfl⟩ := hd
  have hfits := g.index_fits
  rw [List.take_of_length_le (chunkDatagram_length_le g hi), chunkDatagram,
    Chunk.decode_wire _ (by have := g.width_le; omega) (by omega), Result.ok.injEq] at hc
  subst hc
  simp only [ne_eq]
  omega

/-- In each state of a session, fresh or resumed, the end of the upload is announced, accepted and
recorded only if all chunks are marked. -/
theorem end_of_transmission {file : Bytes} (h64 : file.length < u64Size) {disk : Disk}
    {s₀ s : Session} (h0 : Session.start file disk = .ok s₀) (hr : Reachable Session.Step s₀ s) :
    ∃ info, indexFieldSize file.length = .ok info ∧
      s.server.receiver.bitmap.numBits = info.numChunks ∧
      (s.client.state = .finished → Full s.server.receiver.bitmap) ∧
      (∀ d ∈ s.toServer, ∀ c, Chunk.decode (d.take mtu) info.indexFieldSize = .ok c →
        c.index = info.numChunks → Full s.server.receiver.bitmap) ∧
      (s.server.receiver.state = .Shutdown → Full s.server.receiver.bitmap) ∧
      (s.server.receiver.bitmapExists = false → Full s.server.receiver.bitmap) ∧
      (∀ d ∈ s.toClient, ∃ old full missing, old.Valid ∧ old.numBits = info.numChunks ∧
        Extends old s.server.receiver.bitmap ∧
        (∃ buf written out, writeRunlengthEncoded old buf = .ok (written, out) ∧
          d = out.take written) ∧
        MissingRanges.parseStatusUpdate (d.take mtu) = .ok (full, missing) ∧
        (full = true ↔ Full old)) := by
  obtain ⟨info, hinfo, g, hs⟩ := session_inv h64 h0 hr
  have hn := numChunks_lt_u64 g
  refine ⟨info, hinfo, hs.receiver.numBits, hs.finished, ?_, ?_, hs.receiver.removed, ?_⟩
  · intro d hd c hc hfin
    rcases hs.toServer d hd with hdata | ⟨-, hfull⟩
    · exact absurd hfin (chunk_ne_fin g hdata hc)
    · exact hfull
  · intro hstate
    have := hs.receiver.state
    rwa [hstate] at this
  · intro d hd
    obtain ⟨old, buf, written, out, hvalid, hnum, hext, hbuf, hw, rfl⟩ := hs.toClient d hd
    rw [hs.receiver.numBits] at hnum
    have hlen := written_status_length hvalid.fits (by omega) hw
    obtain ⟨full, missing, hparse, hiff⟩ := parseStatusUpdate_full_iff hvalid (by omega) hbuf hw
    refine ⟨old, full, missing, hvalid, hnum, hext, ⟨buf, written, out, hw, rfl⟩, ?_, hiff⟩
    rwa [List.take_of_length_le (by omega)]

omit [Varint] in
/-- One byte in one chunk, uploaded to the end. -/
theorem end_of_transmission_one_byte :
    letI := leb128
    ∃ s₀ s, Session.start [7] { bitmap := none, file := none } = .ok s₀ ∧
      Reachable Session.Step s₀ s ∧ s.client.state = .finished ∧
      Full s.server.receiver.bitmap := by
  let _ := leb128
  let run : Result Session := do
    let s ← Session.start [7] { bitmap := none, file := none }
    replay Session.tryStep s [.senderStart, .senderStart, .senderComplete, .clientRecv [0, 1],
      .clientSent, .serverPoll false 0 (some [0, 7]), .serverPoll false 1 none, .senderStart,
      .senderComplete, .clientRecv [1]]
  have hrun : (run >>= fun s => .ok s.client.state) = .ok .finished := by decide +kernel
  obtain ⟨s, hs, hstate⟩ := Result.bind_eq_ok.mp hrun
  obtain ⟨s₀, h0, hs⟩ := Result.bind_eq_ok.mp hs
  have hr : Reachable Session.Step s₀ s :=
    replay_reachable (fun _ _ _ => Session.step_of_tryStep) hs
  obtain ⟨-, -, -, hfull, -⟩ := end_of_transmission (by decide) h0 hr
  exact ⟨s₀, s, h0, hr, by simpa using hstate, hfull (by simpa using hstate)⟩

end DasProtokoll.Csync
