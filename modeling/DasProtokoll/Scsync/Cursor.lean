import DasProtokoll.Scsync.Allocation

/-!
# The cursor

The source assumes that the cursor of a transfer points at something that is
todo. Statuses, block requests and the rounds of all transfer loops keep this
true in any order, as long as a status names chunks that were allocated.
-/

namespace DasProtokoll.Scsync

open DasProtokoll

/-- `status` is what the last status named, and `sent` are the chunk ids sent since then. -/
structure Sweep where
  handler : Handler
  status : Ranges
  sent : List Nat

namespace Sweep

inductive Event where
  | status (now : Nat) (status : TransferStatus)
  | blockRequest (req : BlockRequest)
  /-- A round of one of the loops. -/
  | round (now i : Nat)

/-- The chunk ids of the payloads to one client. -/
def chunkIds (addr : SocketAddr) (sent : Sent) : List Nat :=
  sent.filterMap fun m =>
    match m with
    | (.TransferPayload payload, to_) => if to_ = addr then some payload.chunkid else none
    | _ => none

def next (addr : SocketAddr) (s : Sweep) : Event → Result Sweep
  | .status now status => do
    let handler ← s.handler.transferStatus now addr status
    return { handler, status := status.missingRanges, sent := [] }
  | .blockRequest req => do
    let (handler, _) ← s.handler.blockRequest addr req
    return { s with handler }
  | .round now i => do
    let (handler, sent) ← s.handler.transferLoop now i
    return { s with handler, sent := s.sent ++ chunkIds addr sent }

/-- Ascending ranges of chunks that are all in transfers of the client. -/
structure Names (addr : SocketAddr) (h : Handler) (ranges : Ranges) : Prop where
  ascending : ranges.Ascending
  allocated : ∀ c, h.clients.lookup addr = some c → ∀ i ∈ Ranges.members ranges,
    ∃ t ∈ c.transferOut.transfers, t.1 ≤ i ∧ i < t.2.1

/-- What is asked of the peer: only of its statuses. -/
def Allowed (addr : SocketAddr) (s : Sweep) : Event → Prop
  | .status _ status => Names addr s.handler status.missingRanges
  | _ => True

def Step (addr : SocketAddr) (s : Sweep) (e : Event) (s' : Sweep) : Prop :=
  Allowed addr s e ∧ next addr s e = .ok s'

def start (handler : Handler) : Sweep := { handler, status := [], sent := [] }

/-- What is true of one client between two steps. -/
structure Sweeping (db : BlockDb) (first : Nat) (out : TransferOut) (status : Ranges)
    (sent : List Nat) : Prop where
  allocated : Allocated db first out
  todo : out.todo = status
  ascending : status.Ascending
  covered : ∀ i ∈ Ranges.members status, ∃ t ∈ out.transfers, t.1 ≤ i ∧ i < t.2.1
  cursor : ∀ c, out.cursor = some c → c ∈ Ranges.members status ∧ ∀ i ∈ sent, i < c
  increasing : sent.Pairwise (· < ·)
  named : ∀ i ∈ sent, i ∈ Ranges.members status

def Inv (addr : SocketAddr) (first : Nat) (s : Sweep) : Prop :=
  ∃ c, s.handler.clients.lookup addr = some c ∧
    Sweeping s.handler.blockdb first c.transferOut s.status s.sent

variable {addr : SocketAddr} {first : Nat} {db : BlockDb} {out : TransferOut} {status : Ranges}
  {sent : List Nat} {s s' : Sweep}

theorem chunkIds_payload (payload : TransferPayload) (a : SocketAddr) :
    chunkIds addr [(.TransferPayload payload, a)] = if a = addr then [payload.chunkid] else [] := by
  unfold chunkIds
  by_cases ha : a = addr <;> simp [ha]

/-! ## Changes of one client -/

theorem Sweeping.default (db : BlockDb) (rand : UInt32) :
    Sweeping db rand.toNat (.default rand) [] [] where
  allocated := .default db rand
  todo := rfl
  ascending := Ranges.ascending_nil
  covered := by simp
  cursor := by simp [TransferOut.default]
  increasing := .nil
  named := by simp

theorem Sweeping.restart (hs : Sweeping db first out status sent) {ranges : Ranges}
    (hasc : ranges.Ascending)
    (hall : ∀ i ∈ Ranges.members ranges, ∃ t ∈ out.transfers, t.1 ≤ i ∧ i < t.2.1) :
    Sweeping db first { out with cursor := ranges.head?.map fun x => x.1, todo := ranges } ranges [] where
  allocated := ⟨hs.allocated.contiguous, hs.allocated.once, hs.allocated.blocks, hs.allocated.bounded⟩
  todo := rfl
  ascending := hasc
  covered := hall
  cursor := by
    intro c hc
    cases ranges with
    | nil => cases hc
    | cons r rs =>
      obtain rfl := Option.some.inj hc
      refine ⟨Ranges.mem_members.mpr ⟨r, by simp, le_rfl, hasc.nonempty r (by simp)⟩, ?_⟩
      simp
  increasing := .nil
  named := by simp

theorem Sweeping.advance (hs : Sweeping db first out status sent) {c : Nat} (hc : out.cursor = some c) :
    Sweeping db first { out with cursor := Ranges.firstFrom out.todo (c + 1) } status (sent ++ [c]) := by
  obtain ⟨hmem, hbefore⟩ := hs.cursor c hc
  refine ⟨⟨hs.allocated.contiguous, hs.allocated.once, hs.allocated.blocks, hs.allocated.bounded⟩,
    hs.todo, hs.ascending, hs.covered, ?_, ?_, ?_⟩
  · intro n hn
    rw [hs.todo] at hn
    obtain ⟨hnmem, hle, -⟩ := hs.ascending.firstFrom_least hn
    refine ⟨hnmem, ?_⟩
    intro i hi
    rcases List.mem_append.mp hi with hi | hi
    · have := hbefore i hi
      omega
    · rw [List.mem_singleton.mp hi]
      omega
  · rw [List.pairwise_append]
    refine ⟨hs.increasing, List.pairwise_singleton _ _, ?_⟩
    intro i hi j hj
    rw [List.mem_singleton.mp hj]
    exact hbefore i hi
  · intro i hi
    rcases List.mem_append.mp hi with hi | hi
    · exact hs.named i hi
    · rw [List.mem_singleton.mp hi]
      exact hmem

theorem Sweeping.allocate (hs : Sweeping db first out status sent) {out' : TransferOut}
    {blockid : BlockId} {t : Nat × Nat × BlockId}
    (h : Handler.allocate out db blockid = .ok (t, out')) :
    Sweeping db first out' status sent := by
  obtain ⟨hallocated, hpre, -, -⟩ := hs.allocated.allocate h
  have hsame : out'.todo = out.todo ∧ out'.cursor = out.cursor := by
    obtain ⟨-, -, rfl⟩ | ⟨_, -, -, -, -, rfl⟩ := Handler.allocate_ok h <;> exact ⟨rfl, rfl⟩
  refine ⟨hallocated, hsame.1.trans hs.todo, hs.ascending, ?_, ?_, hs.increasing, hs.named⟩
  · intro i hi
    obtain ⟨t, ht, hti⟩ := hs.covered i hi
    exact ⟨t, hpre.subset ht, hti⟩
  · rw [hsame.2]
    exact hs.cursor

/-! ## Steps -/

theorem Inv.restart (hinv : Inv addr first s) {now : Nat} {status : TransferStatus}
    (hs : Step addr s (.status now status) s') : Inv addr first s' := by
  obtain ⟨hnames, hs⟩ := hs
  simp only [next, Result.bind_eq_ok, Result.pure_def, Result.ok.injEq] at hs
  obtain ⟨h', hstatus, rfl⟩ := hs
  obtain ⟨c, hc, hsweeping⟩ := hinv
  obtain ⟨c₀, hc₀, rfl⟩ := Handler.transferStatus_ok hstatus
  obtain rfl : c₀ = c := Option.some.inj (hc₀.symm.trans hc)
  exact ⟨_, Handler.setClient_lookup, hsweeping.restart hnames.ascending (hnames.allocated c₀ hc)⟩

theorem Inv.blockRequest (hinv : Inv addr first s) {req : BlockRequest}
    (hs : Step addr s (.blockRequest req) s') : Inv addr first s' := by
  obtain ⟨-, hs⟩ := hs
  simp only [next, Result.bind_eq_ok, Result.pure_def, Result.ok.injEq] at hs
  obtain ⟨⟨h', sent⟩, hrequest, rfl⟩ := hs
  obtain ⟨c, hc, hsweeping⟩ := hinv
  obtain ⟨c₀, t, out, block, hc₀, halloc, -, rfl, -⟩ := Handler.blockRequest_ok hrequest
  obtain rfl : c₀ = c := Option.some.inj (hc₀.symm.trans hc)
  exact ⟨_, Handler.setClient_lookup, hsweeping.allocate halloc⟩

theorem Inv.round (hinv : Inv addr first s) {now i : Nat} (hs : Step addr s (.round now i) s') :
    Inv addr first s' := by
  obtain ⟨-, hs⟩ := hs
  simp only [next, Result.bind_eq_ok, Result.pure_def, Result.ok.injEq] at hs
  obtain ⟨⟨h', sent⟩, hround, rfl⟩ := hs
  obtain ⟨c, hc, hsweeping⟩ := hinv
  obtain ⟨a, wake, -, -, ⟨payload, h₁, hnext, rfl, rfl⟩ | ⟨-, rfl, rfl⟩⟩ := Handler.transferLoop_ok hround
  · obtain ⟨c₀, hc₀, ⟨-, hnone, -⟩ | ⟨cursor, t, f, hcursor, -, -, -, -, hpayload, rfl⟩⟩ :=
      Handler.nextPayload_ok hnext
    · cases hnone
    · obtain rfl := Option.some.inj hpayload
      by_cases ha : a = addr
      · subst ha
        obtain rfl : c₀ = c := Option.some.inj (hc₀.symm.trans hc)
        refine ⟨_, Handler.setClient_lookup, ?_⟩
        rw [chunkIds_payload, if_pos rfl]
        exact hsweeping.advance hcursor
      · refine ⟨c, (Handler.setClient_lookup_ne (Ne.symm ha)).trans hc, ?_⟩
        rw [chunkIds_payload, if_neg ha, List.append_nil]
        exact hsweeping
  · refine ⟨c, hc, ?_⟩
    simpa [chunkIds] using hsweeping

theorem Inv.step (hinv : Inv addr first s) {e : Event} (hs : Step addr s e s') : Inv addr first s' := by
  cases e with
  | status now status => exact hinv.restart hs
  | blockRequest req => exact hinv.blockRequest hs
  | round now i => exact hinv.round hs

/-! ## The cursor -/

theorem nextPayload_total {h : Handler} {c : Client} (hc : h.clients.lookup addr = some c)
    (hs : Sweeping h.blockdb first c.transferOut status sent)
    (hfull : ∀ t ∈ c.transferOut.transfers, ∃ f, h.blockdb.lookup t.2.2 = some (.Full f) ∧
      f.data.length * chunkSize < u64Size) :
    ∃ r, h.nextPayload addr = .ok r := by
  have hlength : ∀ t ∈ c.transferOut.transfers, ∃ f, h.blockdb.lookup t.2.2 = some (.Full f) ∧
      f.data.length * chunkSize < u64Size ∧ t.2.1 = t.1 + f.data.length := by
    intro t ht
    obtain ⟨f, hf, h64⟩ := hfull t ht
    obtain ⟨block, hblock, hlen⟩ := hs.allocated.blocks t ht
    obtain rfl : block = .Full f := Option.some.inj (hblock.symm.trans hf)
    exact ⟨f, hf, h64, hlen⟩
  have hserving : Serving h.blockdb c.transferOut := by
    refine ⟨hs.allocated.contiguous.ordered, ?_, ?_, hs.allocated.bounded⟩
    · intro t ht
      exact (hs.allocated.contiguous.bounds ht).2.2
    · intro t ht
      obtain ⟨f, hf, -, hlen⟩ := hlength t ht
      exact ⟨f, hf, hlen⟩
  cases hcursor : c.transferOut.cursor with
  | none => exact ⟨_, Handler.nextPayload_none hc hcursor⟩
  | some i =>
    obtain ⟨t, ht, hlo, hhi⟩ := hs.covered i (hs.cursor i hcursor).1
    obtain ⟨f, -, h64, hlen⟩ := hlength t ht
    have hchunk : (i - t.1) * chunkSize ≤ f.data.length * chunkSize :=
      Nat.mul_le_mul_right _ (by omega)
    obtain ⟨payload, -, -, hnext⟩ :=
      Handler.nextPayload_some hc hcursor hserving ht hlo hhi (by omega)
    exact ⟨_, hnext⟩

/-- The cursor is always at a chunk that is todo and allocated once. Only chunks of the last status are
sent, and each of them once. -/
theorem cursor_todo {handler : Handler} {c₀ : Client} {rand : UInt32}
    (hc₀ : handler.clients.lookup addr = some c₀) (hnew : c₀.transferOut = .default rand)
    (hreach : Reachable (Step addr) (start handler) s) :
    ∃ c, s.handler.clients.lookup addr = some c ∧ c.transferOut.todo = s.status ∧
      (∀ i, c.transferOut.cursor = some i →
        (∃ r ∈ c.transferOut.todo, r.1 ≤ i ∧ i < r.2) ∧
        (∃! t, t ∈ c.transferOut.transfers ∧ t.1 ≤ i ∧ i < t.2.1) ∧
        c.transferOut.transfers.find? (fun t => t.1 ≤ i ∧ i < t.2.1) ≠ none) ∧
      ((∀ t ∈ c.transferOut.transfers, ∃ f, s.handler.blockdb.lookup t.2.2 = some (.Full f) ∧
        f.data.length * chunkSize < u64Size) → ∃ r, s.handler.nextPayload addr = .ok r) ∧
      (∀ i ∈ s.sent, ∃ r ∈ s.status, r.1 ≤ i ∧ i < r.2) ∧ s.sent.Nodup := by
  have hstart : Inv addr rand.toNat (start handler) := ⟨c₀, hc₀, hnew ▸ .default _ _⟩
  obtain ⟨c, hc, hs⟩ := hreach.invariant hstart fun _ _ _ hinv hstep => hinv.step hstep
  refine ⟨c, hc, hs.todo, ?_, nextPayload_total hc hs, ?_, hs.increasing.imp fun h => ne_of_lt h⟩
  · intro i hi
    have hmem := (hs.cursor i hi).1
    obtain ⟨t, ht, hti⟩ := hs.covered i hmem
    refine ⟨?_, ⟨t, ⟨ht, hti⟩, ?_⟩, ?_⟩
    · rw [hs.todo]
      exact Ranges.mem_members.mp hmem
    · rintro u ⟨hu, hui⟩
      exact hs.allocated.contiguous.owner hu ht hui hti
    · rw [find_ordered hs.allocated.contiguous.ordered ht hti.1 hti.2]
      simp
  · intro i hi
    exact Ranges.mem_members.mp (hs.named i hi)

/-- A request and a status put the cursor at the first chunk of a block. -/
theorem cursor_todo_first :
    ∃ s c, Reachable (Step peerAddr) (start servingNode) s ∧
      s.handler.clients.lookup peerAddr = some c ∧ c.transferOut.cursor = some 5 ∧
      ∃! t, t ∈ c.transferOut.transfers ∧ t.1 ≤ 5 ∧ 5 < t.2.1 := by
  have hclient : servingNode.clients.lookup peerAddr = some (.default 5) := by rfl
  have hknown : sendingNode.clients.lookup peerAddr = some sendingClient := by rfl
  have hrequest : Step peerAddr (start servingNode) (.blockRequest { blockid := twoChunks })
      (start sendingNode) := by
    refine ⟨trivial, ?_⟩
    have hserves : servingNode.blockRequest peerAddr { blockid := twoChunks } = .ok _ :=
      servingNode_serves
    simp only [next, start, hserves, Result.bind_ok, Result.pure_def]
  have hnames : Names peerAddr sendingNode [(5, 7)] := by
    refine ⟨⟨by simp, by simp⟩, ?_⟩
    intro c hc i hi
    obtain rfl : sendingClient = c := Option.some.inj (hknown.symm.trans hc)
    obtain ⟨r, hr, hlo, hhi⟩ := Ranges.mem_members.mp hi
    rw [List.mem_singleton.mp hr] at hlo hhi
    refine ⟨(5, 1456, twoChunks), by simp [sendingClient], hlo, ?_⟩
    simp only at hhi ⊢
    omega
  obtain ⟨h', hstatus, c', hc', hcursor⟩ : ∃ h',
      sendingNode.transferStatus 0 peerAddr { missingRanges := [(5, 7)] } = .ok h' ∧
        ∃ c, h'.clients.lookup peerAddr = some c ∧ c.transferOut.cursor = some 5 :=
    ⟨_, Handler.transferStatus_eq hknown _ _, _, Handler.setClient_lookup, rfl⟩
  have hstep : Step peerAddr (start sendingNode) (.status 0 { missingRanges := [(5, 7)] })
      { handler := h', status := [(5, 7)], sent := [] } := by
    refine ⟨hnames, ?_⟩
    simp only [next, start, hstatus, Result.bind_ok, Result.pure_def]
  have hreach := (Reachable.refl.snoc hrequest).snoc hstep
  obtain ⟨c, hc, -, hplace, -⟩ := cursor_todo hclient rfl hreach
  obtain rfl : c = c' := Option.some.inj (hc.symm.trans hc')
  exact ⟨_, c, hreach, hc, hcursor, (hplace 5 hcursor).2.1⟩

end Sweep

end DasProtokoll.Scsync
