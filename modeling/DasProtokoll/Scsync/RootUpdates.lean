import DasProtokoll.Scsync.Promotion
import DasProtokoll.Scsync.Store

/-!
# Root updates

A node downloads one announced root at a time and installs it once all of it is
there. Who announces another root in between is not heard.
-/

namespace DasProtokoll.Scsync

open DasProtokoll

namespace Handler

variable {h h' : Handler} {addr : SocketAddr} {c : Client} {sent : Sent}

/-- The root that the node starts to download. -/
def takesUp (h : Handler) : Input → Option BlockRef
  | .message _ _ _ addr (.RootUpdate update) =>
    if h.clients.lookup addr = none ∧ update.toBlockref.blockid ≠ h.blockdb.root.blockid ∧
        h.blockdb.pendingRoot = none then
      some update.toBlockref
    else none
  | _ => none

theorem takesUp_of_pending {e : Input} (hpending : h.blockdb.pendingRoot ≠ none) : h.takesUp e = none := by
  unfold takesUp
  split
  · exact if_neg fun hall => hpending hall.2.2
  · rfl

def isConnect : Input → Bool
  | .connect _ _ _ => true
  | _ => false

/-! ## One step -/

theorem setClient_lookup_iff (hc : h.clients.lookup addr = some c) (c' : Client) (a : SocketAddr) :
    (h.setClient addr c').clients.lookup a = none ↔ h.clients.lookup a = none := by
  by_cases ha : a = addr
  · subst ha
    simp [hc]
  · rw [setClient_lookup_ne ha]

/-- The roots, the files and the set of clients stay as they are. -/
structure Keeps (h h' : Handler) : Prop where
  root : h'.blockdb.root = h.blockdb.root
  pendingRoot : h'.blockdb.pendingRoot = h.blockdb.pendingRoot
  fs : h'.fs = h.fs
  clients : ∀ a, h'.clients.lookup a = none ↔ h.clients.lookup a = none

theorem Keeps.refl (h : Handler) : Keeps h h := ⟨rfl, rfl, rfl, fun _ => Iff.rfl⟩

theorem keeps_setClient (hc : h.clients.lookup addr = some c) (c' : Client) :
    Keeps h (h.setClient addr c') :=
  ⟨rfl, rfl, rfl, setClient_lookup_iff hc c'⟩

/-- A message to a client, or one that leads to nothing: the root that the other node has, too, or that
no chunks are missing. -/
inductive Harmless (h : Handler) : Msg × SocketAddr → Prop
  | toClient {msg : Msg} {to_ : SocketAddr} (hknown : h.clients.lookup to_ ≠ none) :
    Harmless h (msg, to_)
  | sameRoot {to_ : SocketAddr} : Harmless h (.RootUpdateResponse {
      fromBlockid := h.blockdb.root.blockid
      toBlockid := h.blockdb.root.blockid
      toKey := h.blockdb.root.key }, to_)
  | nothingMissing {to_ : SocketAddr} : Harmless h (.TransferStatus { missingRanges := [] }, to_)

/-- The announced root is pending from now on, and who announced it is a client. -/
structure TakesUp (h h' : Handler) (addr : SocketAddr) (new : BlockRef) (sent : Sent) : Prop where
  unknown : h.clients.lookup addr = none
  free : h.blockdb.pendingRoot = none
  root : h'.blockdb.root = h.blockdb.root
  pendingRoot : h'.blockdb.pendingRoot = some new
  fs : h'.fs = h.fs
  clients : ∀ a, h'.clients.lookup a = none ↔ a ≠ addr ∧ h.clients.lookup a = none
  sent : sent = []

/-- The pending root replaces the old one. All clients hear of it, and the one that sent the last chunk
is none any more. -/
structure Installs (h h' : Handler) (addr : SocketAddr) (new : BlockRef) (sent : Sent) : Prop where
  known : h.clients.lookup addr ≠ none
  pending : h.blockdb.pendingRoot = some new
  root : h'.blockdb.root = new
  pendingRoot : h'.blockdb.pendingRoot = none
  clients : ∀ a, h'.clients.lookup a = none ↔ a = addr ∨ h.clients.lookup a = none
  told : ∀ m ∈ sent, m.1 = .RootUpdateResponse {
      fromBlockid := h.blockdb.root.blockid
      toBlockid := new.blockid
      toKey := new.key } ∧ h.clients.lookup m.2 ≠ none
  tells : ∀ a, h.clients.lookup a ≠ none → (.RootUpdateResponse {
      fromBlockid := h.blockdb.root.blockid
      toBlockid := new.blockid
      toKey := new.key }, a) ∈ sent

theorem unconnectedRootUpdate_cases (hnone : h.clients.lookup addr = none) {update : RootUpdate}
    {rand : UInt32} (hu : h.unconnectedRootUpdate addr update rand = (h', sent)) (fuel now : Nat) :
    (h.takesUp (.message fuel now rand addr (.RootUpdate update)) = none ∧ Keeps h h' ∧
        ∀ m ∈ sent, Harmless h m) ∨
      h.takesUp (.message fuel now rand addr (.RootUpdate update)) = some update.toBlockref ∧
        TakesUp h h' addr update.toBlockref sent := by
  unfold unconnectedRootUpdate at hu
  unfold takesUp
  split at hu
  · rename_i hsame
    obtain ⟨rfl, rfl⟩ := Prod.mk.inj hu
    refine Or.inl ⟨if_neg (fun hall => hall.2.1 hsame), .refl _, ?_⟩
    intro m hm
    rw [List.mem_singleton.mp hm]
    exact .sameRoot
  · rename_i hnew
    split at hu
    · rename_i hpending
      obtain ⟨rfl, rfl⟩ := Prod.mk.inj hu
      refine Or.inl ⟨if_neg (fun hall => ?_), .refl _, by simp⟩
      rw [hall.2.2] at hpending
      cases hpending
    · rename_i hfree
      have hfree : h.blockdb.pendingRoot = none := by simpa using hfree
      obtain ⟨rfl, rfl⟩ := Prod.mk.inj hu
      refine Or.inr ⟨if_pos ⟨hnone, hnew, hfree⟩, hnone, hfree, rfl, rfl, rfl, fun a => ?_, rfl⟩
      by_cases ha : a = addr
      · subst ha
        simp
      · rw [setClient_lookup_ne ha]
        simp [ha]

theorem unconnectedRootUpdate_of_pending (hpending : h.blockdb.pendingRoot ≠ none) {update : RootUpdate}
    {rand : UInt32} (hu : h.unconnectedRootUpdate addr update rand = (h', sent)) : h' = h := by
  unfold unconnectedRootUpdate at hu
  simp only [Option.isSome_iff_ne_none.mpr hpending, if_true] at hu
  split at hu <;> exact (Prod.mk.inj hu).1.symm

theorem nextPayload_keeps {payload : Option TransferPayload}
    (hn : h.nextPayload addr = .ok (payload, h')) :
    Keeps h h' ∧ h.clients.lookup addr ≠ none := by
  obtain ⟨c, hc, ⟨-, -, rfl⟩ | ⟨cursor, t, f, -, -, -, -, -, -, rfl⟩⟩ := nextPayload_ok hn
  · exact ⟨.refl _, by simp [hc]⟩
  · exact ⟨keeps_setClient hc _, by simp [hc]⟩

theorem transferLoop_keeps {now i : Nat} (hl : h.transferLoop now i = .ok (h', sent)) :
    Keeps h h' ∧ ∀ m ∈ sent, Harmless h m := by
  obtain ⟨addr, wake, -, -, ⟨payload, h₁, hnext, rfl, rfl⟩ | ⟨-, rfl, rfl⟩⟩ := transferLoop_ok hl
  · obtain ⟨hk, hknown⟩ := nextPayload_keeps hnext
    refine ⟨⟨hk.root, hk.pendingRoot, hk.fs, hk.clients⟩, fun m hm => ?_⟩
    rw [List.mem_singleton.mp hm]
    exact .toClient hknown
  · exact ⟨⟨rfl, rfl, rfl, fun _ => Iff.rfl⟩, by simp⟩

theorem statusLoop_keeps (hs : h.statusLoop addr = .ok (h', sent)) :
    Keeps h h' ∧ ∀ m ∈ sent, Harmless h m := by
  simp only [statusLoop, Result.bind_eq_ok, Result.pure_def, Result.ok.injEq, Prod.mk.injEq] at hs
  obtain ⟨_, _, rle, hrle, rfl, rfl⟩ := hs
  refine ⟨⟨rfl, rfl, rfl, fun _ => Iff.rfl⟩, fun m hm => ?_⟩
  rw [List.mem_singleton.mp hm]
  cases hc : h.clients.lookup addr with
  | some c => exact .toClient (by simp [hc])
  | none =>
    simp only [outstanding, hc, Result.pure_def, Result.ok.injEq] at hrle
    subst hrle
    exact .nothingMissing

theorem requestRetry_keeps {blockid : BlockId} (hr : h.requestRetry addr blockid = .ok (h', sent)) :
    Keeps h h' ∧ ∀ m ∈ sent, Harmless h m := by
  obtain ⟨rfl, rfl, c, hc, -⟩ := requestRetry_ok hr
  refine ⟨.refl _, fun m hm => ?_⟩
  rw [List.mem_singleton.mp hm]
  exact .toClient (by simp [hc])

theorem Installs.of_keeps {h₁ : Handler} {new : BlockRef} (hk : Keeps h h₁)
    (hi : Installs h₁ h' addr new sent) : Installs h h' addr new sent where
  known := fun hnone => hi.known ((hk.clients addr).mpr hnone)
  pending := hk.pendingRoot ▸ hi.pending
  root := hi.root
  pendingRoot := hi.pendingRoot
  clients a := (hi.clients a).trans (or_congr Iff.rfl (hk.clients a))
  told m hm := by
    obtain ⟨hmsg, hknown⟩ := hi.told m hm
    exact ⟨hk.root ▸ hmsg, fun hnone => hknown ((hk.clients m.2).mpr hnone)⟩
  tells a ha := by
    rw [← hk.root]
    exact hi.tells a fun hnone => ha ((hk.clients a).mp hnone)

/-! ## One client at a time -/

/-- A node that does not connect to others has a client while it downloads a root, and none else. -/
inductive Attends (h : Handler) : Option SocketAddr → Prop
  | free (hpending : h.blockdb.pendingRoot = none) (hnone : ∀ a, h.clients.lookup a = none) :
    Attends h none
  | busy {addr : SocketAddr} (hpending : h.blockdb.pendingRoot ≠ none)
    (honly : ∀ a, h.clients.lookup a = none ↔ a ≠ addr) : Attends h (some addr)

theorem Attends.unique {client : Option SocketAddr} (ha : Attends h client) {a : SocketAddr}
    (hknown : h.clients.lookup a ≠ none) : client = some a := by
  cases ha with
  | free hpending hnone => exact absurd (hnone a) hknown
  | @busy addr hpending honly =>
    rw [Ne, honly a, not_not] at hknown
    rw [hknown]

theorem Attends.of_keeps {client : Option SocketAddr} (ha : Attends h client) (hk : Keeps h h') :
    Attends h' client := by
  cases ha with
  | free hpending hnone =>
    exact .free (hk.pendingRoot.trans hpending) fun a => (hk.clients a).mpr (hnone a)
  | busy hpending honly =>
    exact .busy (hk.pendingRoot ▸ hpending) fun a => (hk.clients a).trans (honly a)

theorem Attends.takesUp {client : Option SocketAddr} (ha : Attends h client) {new : BlockRef}
    (ht : TakesUp h h' addr new sent) : Attends h' (some addr) := by
  cases ha with
  | free hpending hnone =>
    refine .busy (by simp [ht.pendingRoot]) fun a => ?_
    rw [ht.clients a]
    simp [hnone a]
  | busy hpending honly => exact absurd ht.free hpending

theorem Attends.installs {client : Option SocketAddr} (ha : Attends h client) {new : BlockRef}
    (hi : Installs h h' addr new sent) :
    client = some addr ∧ Attends h' none ∧ ∀ m, m ∈ sent ↔ m = (.RootUpdateResponse {
      fromBlockid := h.blockdb.root.blockid
      toBlockid := new.blockid
      toKey := new.key }, addr) := by
  have hclient := ha.unique hi.known
  have honly : ∀ a, h.clients.lookup a ≠ none → a = addr := fun a hknown =>
    Option.some.inj ((ha.unique hknown).symm.trans hclient)
  refine ⟨hclient, .free hi.pendingRoot fun a => ?_, fun m => ?_⟩
  · rw [hi.clients a, or_iff_not_imp_left]
    intro hne
    by_contra hknown
    exact hne (honly a hknown)
  · constructor
    · intro hm
      obtain ⟨hmsg, hknown⟩ := hi.told m hm
      exact Prod.ext hmsg (honly _ hknown)
    · rintro rfl
      exact hi.tells addr hi.known

section Sealing

variable [Sealing]

/-! ## Chunks -/

/-- The root that the node replaces its own one with. -/
def installs (h : Handler) : Input → Option BlockRef
  | .message fuel _ _ addr (.TransferPayload chunk) =>
    match h.clients.lookup addr, h.receiveChunk fuel addr chunk with
    | some _, .ok (true, _) => h.blockdb.pendingRoot
    | _, _ => none
  | _ => none

theorem installs_of_ok {fuel now : Nat} {rand : UInt32} {chunk : TransferPayload} {verified : Bool}
    (hc : h.clients.lookup addr = some c) (hr : h.receiveChunk fuel addr chunk = .ok (verified, h')) :
    h.installs (.message fuel now rand addr (.TransferPayload chunk)) =
      if verified then h.blockdb.pendingRoot else none := by
  simp only [installs, hc, hr]
  cases verified <;> rfl

theorem receiveChunk_keeps {fuel : Nat} {chunk : TransferPayload} {verified : Bool}
    (hr : h.receiveChunk fuel addr chunk = .ok (verified, h')) : Keeps h h' := by
  obtain ⟨t, h₁, p, hstore, -, hend⟩ := receiveChunk_ok hr
  obtain ⟨c, q, haccepts, rfl⟩ := storeChunk_accepts.mp hstore
  obtain ⟨-, -, rfl⟩ | ⟨c', pending, -, hc', -, rfl, -⟩ := hend
  · exact ⟨rfl, rfl, rfl, fun _ => Iff.rfl⟩
  · exact ⟨rfl, rfl, rfl, setClient_lookup_iff haccepts.known _⟩

theorem applyUpdate_installs {fuel : Nat} (hc : h.clients.lookup addr ≠ none)
    (hu : h.applyUpdate fuel addr = .ok (h', sent)) :
    ∃ root, h.blockdb.pendingRoot = some root ∧ Installs h h' addr root sent := by
  obtain ⟨root, fs, hpending, -, rfl, rfl⟩ := applyUpdate_ok hu
  refine ⟨root, hpending, hc, hpending, rfl, rfl, fun a => ?_, ?_, ?_⟩
  · by_cases ha : a = addr
    · subst ha
      simp
    · rw [show _ = _ from AList.lookup_erase_ne ha]
      simp [ha]
  · intro m hm
    obtain ⟨a, ha, rfl⟩ := List.mem_map.mp hm
    refine ⟨rfl, ?_⟩
    rw [Ne, AList.lookup_eq_none]
    exact fun hno => hno ha
  · intro a ha
    refine List.mem_map.mpr ⟨a, ?_, rfl⟩
    rw [Ne, AList.lookup_eq_none, not_not] at ha
    exact ha

theorem transferPayload_cases {fuel : Nat} {chunk : TransferPayload}
    (hc : h.clients.lookup addr = some c) (ht : h.transferPayload fuel addr chunk = .ok (h', sent))
    (now : Nat) (rand : UInt32) :
    (h.installs (.message fuel now rand addr (.TransferPayload chunk)) = none ∧ Keeps h h' ∧
        ∀ m ∈ sent, Harmless h m) ∨
      ∃ new, h.installs (.message fuel now rand addr (.TransferPayload chunk)) = some new ∧
        Installs h h' addr new sent := by
  obtain ⟨verified, h₁, hrecv, hend⟩ := transferPayload_ok ht
  have hk := receiveChunk_keeps hrecv
  rw [installs_of_ok hc hrecv]
  obtain ⟨rfl, rfl, rfl⟩ | ⟨rfl, happly⟩ := hend
  · exact Or.inl ⟨rfl, hk, by simp⟩
  · have hknown : h₁.clients.lookup addr ≠ none := fun hnone => by
      rw [hk.clients addr, hc] at hnone
      cases hnone
    obtain ⟨new, hnew, hi⟩ := applyUpdate_installs hknown happly
    exact Or.inr ⟨new, hk.pendingRoot ▸ hnew, hi.of_keeps hk⟩

theorem receive_keeps {fuel now : Nat} {rand : UInt32} {msg : Msg} (hc : h.clients.lookup addr = some c)
    (hr : h.receive fuel now rand addr msg = .ok (h', sent))
    (hmsg : ∀ chunk, msg ≠ .TransferPayload chunk) : Keeps h h' ∧ ∀ m ∈ sent, Harmless h m := by
  rw [receive_known hc] at hr
  cases msg with
  | RootUpdate update =>
    obtain ⟨rfl, rfl⟩ := Prod.mk.inj (Result.ok.inj hr)
    exact ⟨.refl _, by simp⟩
  | RootUpdateResponse res =>
    simp only at hr
    split at hr
    · obtain ⟨rfl, rfl⟩ := Prod.mk.inj (Result.ok.inj hr)
      exact ⟨.refl _, by simp⟩
    · simp only [Result.bind_eq_ok, Result.pure_def, Result.ok.injEq, Prod.mk.injEq] at hr
      obtain ⟨h₁, hres, rfl, rfl⟩ := hr
      obtain ⟨c, hc, rfl⟩ := rootUpdateResponse_ok hres
      exact ⟨keeps_setClient hc _, by simp⟩
  | BlockRequest req =>
    obtain ⟨c, t, out, block, hc, -, -, rfl, rfl⟩ := blockRequest_ok hr
    refine ⟨keeps_setClient hc _, fun m hm => ?_⟩
    rw [List.mem_singleton.mp hm]
    exact .toClient (by simp [hc])
  | BlockRequestResponse res =>
    simp only [Result.bind_eq_ok, Result.pure_def, Result.ok.injEq, Prod.mk.injEq] at hr
    obtain ⟨h₁, hres, rfl, rfl⟩ := hr
    obtain ⟨c, tokens, hc, rfl⟩ := blockRequestResponse_ok hres
    exact ⟨⟨by simp, by simp, rfl, setClient_lookup_iff hc _⟩, by simp⟩
  | TransferPayload payload => exact absurd rfl (hmsg payload)
  | TransferStatus status =>
    simp only [Result.bind_eq_ok, Result.pure_def, Result.ok.injEq, Prod.mk.injEq] at hr
    obtain ⟨h₁, hs, rfl, rfl⟩ := hr
    obtain ⟨c, hc, rfl⟩ := transferStatus_ok hs
    exact ⟨⟨rfl, rfl, rfl, setClient_lookup_iff hc _⟩, by simp⟩

/-- All that can become of the roots in one step. -/
theorem handle_cases {e : Input} (hh : h.handle e = .ok (h', sent)) (hconnect : isConnect e = false) :
    (h.takesUp e = none ∧ h.installs e = none ∧ Keeps h h' ∧ ∀ m ∈ sent, Harmless h m) ∨
    (∃ addr new, h.takesUp e = some new ∧ h.installs e = none ∧ TakesUp h h' addr new sent) ∨
    (∃ addr new, h.takesUp e = none ∧ h.installs e = some new ∧ Installs h h' addr new sent) := by
  cases e with
  | connect srv rand nonce => cases hconnect
  | statusLoop addr => exact Or.inl ⟨rfl, rfl, statusLoop_keeps hh⟩
  | transferLoop now i => exact Or.inl ⟨rfl, rfl, transferLoop_keeps hh⟩
  | requestRetry addr blockid => exact Or.inl ⟨rfl, rfl, requestRetry_keeps hh⟩
  | message fuel now rand addr msg =>
    change h.receive fuel now rand addr msg = .ok (h', sent) at hh
    cases hc : h.clients.lookup addr with
    | none =>
      rw [receive_unknown hc] at hh
      cases msg with
      | RootUpdate update =>
        obtain ⟨htakes, hk⟩ | ⟨htakes, ht⟩ :=
          unconnectedRootUpdate_cases hc (Result.ok.inj hh) fuel now
        · exact Or.inl ⟨htakes, rfl, hk⟩
        · exact Or.inr (Or.inl ⟨addr, _, htakes, rfl, ht⟩)
      | TransferPayload chunk =>
        obtain ⟨rfl, rfl⟩ := Prod.mk.inj (Result.ok.inj hh)
        exact Or.inl ⟨rfl, by simp [installs, hc], .refl _, by simp⟩
      | TransferStatus | RootUpdateResponse | BlockRequest | BlockRequestResponse =>
        obtain ⟨rfl, rfl⟩ := Prod.mk.inj (Result.ok.inj hh)
        exact Or.inl ⟨rfl, rfl, .refl _, by simp⟩
    | some c =>
      cases msg with
      | TransferPayload chunk =>
        rw [receive_known hc] at hh
        obtain ⟨hinstalls, hk⟩ | ⟨new, hinstalls, hi⟩ := transferPayload_cases hc hh now rand
        · exact Or.inl ⟨rfl, hinstalls, hk⟩
        · exact Or.inr (Or.inr ⟨addr, new, rfl, hinstalls, hi⟩)
      | RootUpdate update =>
        exact Or.inl ⟨by simp [takesUp, hc], rfl, receive_keeps hc hh (by simp)⟩
      | TransferStatus | RootUpdateResponse | BlockRequest | BlockRequestResponse =>
        exact Or.inl ⟨rfl, rfl, receive_keeps hc hh (by simp)⟩

theorem connect_eq {srv : SocketAddr} {rand : UInt32} {nonce : Vector UInt8 12}
    (hh : h.handle (.connect srv rand nonce) = .ok (h', sent)) : h' = h.setClient srv (.default rand) :=
  (Prod.mk.inj (Result.ok.inj hh)).1.symm

/-! ## Runs -/

/-- The roots that are taken up in a run, in order. -/
def takenUp (l : List (Transition Handler Input)) : List BlockRef :=
  l.filterMap fun r => r.source.takesUp r.label

omit [Sealing] in
theorem takenUp_eq_nil {l : List (Transition Handler Input)} :
    takenUp l = [] ↔ ∀ r ∈ l, r.source.takesUp r.label = none :=
  List.filterMap_eq_nil_iff

/-- The roots that are installed in a run, in order. -/
def installed (l : List (Transition Handler Input)) : List BlockRef :=
  l.filterMap fun r => r.source.installs r.label

theorem Handles.roots {e : Input} (hh : Handles h e h') :
    (h.takesUp e = none ∧ h.installs e = none ∧ h'.blockdb.root = h.blockdb.root ∧
      h'.blockdb.pendingRoot = h.blockdb.pendingRoot ∧ h'.fs = h.fs) ∨
    (∃ new, h.takesUp e = some new ∧ h.installs e = none ∧ h'.blockdb.root = h.blockdb.root ∧
      h.blockdb.pendingRoot = none ∧ h'.blockdb.pendingRoot = some new ∧ h'.fs = h.fs) ∨
    ∃ new, h.takesUp e = none ∧ h.installs e = some new ∧ h'.blockdb.root = new ∧
      h.blockdb.pendingRoot = some new ∧ h'.blockdb.pendingRoot = none := by
  obtain ⟨sent, hh⟩ := hh
  cases hconnect : isConnect e with
  | true =>
    cases e with
    | connect srv rand nonce =>
      obtain rfl := connect_eq hh
      exact Or.inl ⟨rfl, rfl, rfl, rfl, rfl⟩
    | message | statusLoop | transferLoop | requestRetry => cases hconnect
  | false =>
    obtain ⟨htakes, hinstalls, hk, -⟩ | ⟨addr, new, htakes, hinstalls, ht⟩ |
      ⟨addr, new, htakes, hinstalls, hi⟩ := handle_cases hh hconnect
    · exact Or.inl ⟨htakes, hinstalls, hk.root, hk.pendingRoot, hk.fs⟩
    · exact Or.inr (Or.inl ⟨new, htakes, hinstalls, ht.root, ht.free, ht.pendingRoot, ht.fs⟩)
    · exact Or.inr (Or.inr ⟨new, htakes, hinstalls, hi.root, hi.pending, hi.pendingRoot⟩)

theorem start_pendingRoot {opt : Opt} (hstart : opt.handler = .ok h) : h.blockdb.pendingRoot = none := by
  simp only [Opt.handler, blockdbFromFolder, Result.bind_eq_ok, Result.pure_def, Result.ok.injEq] at hstart
  obtain ⟨_, ⟨⟨root, blocks⟩, -, rfl⟩, rfl⟩ := hstart
  rfl

/-- In every run the roots that were taken up are installed in that order, each once, but for the last
one while it is pending. No other step changes the root or writes to the disk. -/
theorem roots_installed_in_order {opt : Opt} {h₀ : Handler} (hstart : opt.handler = .ok h₀)
    {l : List (Transition Handler Input)} (hrun : Run Handles h₀ l h) :
    takenUp l = installed l ++ h.blockdb.pendingRoot.toList ∧
      h.blockdb.root = (installed l).getLast?.getD h₀.blockdb.root ∧
      ∀ r ∈ l, r.source.installs r.label = none →
        r.target.fs = r.source.fs ∧ r.target.blockdb.root = r.source.blockdb.root := by
  induction hrun with
  | nil => simp [takenUp, installed, start_pendingRoot hstart]
  | @snoc l t e u hl hstep ih =>
    obtain ⟨hledger, hroot, hquiet⟩ := ih
    have hsnoc : takenUp (l ++ [⟨t, e, u⟩]) = takenUp l ++ (t.takesUp e).toList := by
      simp only [takenUp, List.filterMap_append, List.filterMap_cons, List.filterMap_nil]
      cases t.takesUp e <;> rfl
    have hsnoc' : installed (l ++ [⟨t, e, u⟩]) = installed l ++ (t.installs e).toList := by
      simp only [installed, List.filterMap_append, List.filterMap_cons, List.filterMap_nil]
      cases t.installs e <;> rfl
    rw [hsnoc, hsnoc', hledger, List.forall_mem_append, List.forall_mem_singleton]
    obtain ⟨htakes, hinstalls, hkeep, hpending, hfs⟩ |
      ⟨new, htakes, hinstalls, hkeep, hfree, hpending, hfs⟩ |
      ⟨new, htakes, hinstalls, hnew, hpending, hfree⟩ := Handles.roots hstep
    · simp only [htakes, hinstalls, hkeep, hpending, hfs, Option.toList_none, List.append_nil]
      exact ⟨trivial, hroot, hquiet, fun _ => ⟨trivial, trivial⟩⟩
    · simp only [htakes, hinstalls, hkeep, hpending, hfree, hfs, Option.toList_none, List.append_nil]
      exact ⟨trivial, hroot, hquiet, fun _ => ⟨trivial, trivial⟩⟩
    · simp only [htakes, hinstalls, hnew, hpending, hfree, Option.toList_none, List.append_nil]
      refine ⟨trivial, by simp, hquiet, fun hnone => ?_⟩
      cases hnone

theorem Attends.deaf (ha : Attends h (some addr)) {a : SocketAddr} (hne : a ≠ addr) (fuel now : Nat)
    (rand : UInt32) (msg : Msg) :
    ∃ sent, h.receive fuel now rand a msg = .ok (h, sent) ∧ ∀ m ∈ sent, Harmless h m := by
  cases ha with
  | busy hpending honly =>
    have hnone := (honly a).mpr hne
    rw [receive_unknown hnone]
    cases msg with
    | RootUpdate update =>
      rcases hu : h.unconnectedRootUpdate a update rand with ⟨h₁, sent⟩
      obtain rfl := unconnectedRootUpdate_of_pending hpending hu
      obtain ⟨-, -, hsent⟩ | ⟨-, ht⟩ := unconnectedRootUpdate_cases hnone hu fuel now
      · exact ⟨sent, congrArg Result.ok hu, hsent⟩
      · exact absurd ht.free hpending
    | TransferPayload | TransferStatus | RootUpdateResponse | BlockRequest | BlockRequestResponse =>
      exact ⟨[], rfl, by simp⟩

theorem start_attends {opt : Opt} (hstart : opt.handler = .ok h) : Attends h none := by
  refine .free (start_pendingRoot hstart) ?_
  simp only [Opt.handler, Result.bind_eq_ok, Result.pure_def, Result.ok.injEq] at hstart
  obtain ⟨_, -, rfl⟩ := hstart
  intro a
  rfl

/-- In every run of a node that does not connect to others, there is one client at most, and only while
a root is pending. Messages go to it, and a new root is announced to it and to no other node, when it is
a client no more. -/
theorem one_client_at_a_time {opt : Opt} {h₀ : Handler} (hstart : opt.handler = .ok h₀)
    {l : List (Transition Handler Input)} (hrun : Run Handles h₀ l h)
    (hconnect : ∀ r ∈ l, isConnect r.label = false) :
    (∃ client, Attends h client) ∧
      ∀ r ∈ l, ∀ sent, r.source.handle r.label = .ok (r.target, sent) →
        (r.source.installs r.label = none → ∀ m ∈ sent, Harmless r.source m) ∧
        ∀ new, r.source.installs r.label = some new → ∃ addr, Attends r.source (some addr) ∧
          Attends r.target none ∧ ∀ m, m ∈ sent ↔ m = (.RootUpdateResponse {
            fromBlockid := r.source.blockdb.root.blockid
            toBlockid := new.blockid
            toKey := new.key }, addr) := by
  have hall := hrun.guarded (I := fun h => ∃ client, Attends h client)
    ⟨none, start_attends hstart⟩ ?step hconnect
  case step =>
    rintro t e u ⟨client, ha⟩ ⟨sent, hstep⟩ hguard
    obtain ⟨-, -, hk, -⟩ | ⟨addr, new, -, -, ht⟩ | ⟨addr, new, -, -, hi⟩ := handle_cases hstep hguard
    · exact ⟨client, ha.of_keeps hk⟩
    · exact ⟨some addr, ha.takesUp ht⟩
    · exact ⟨none, (ha.installs hi).2.1⟩
  refine ⟨hall.1, fun r hr sent hsent => ?_⟩
  obtain ⟨⟨client, ha⟩, -, -⟩ := hall.2 r hr
  obtain ⟨-, hinstalls, -, hharmless⟩ | ⟨addr, new, -, hinstalls, ht⟩ | ⟨addr, new, -, hinstalls, hi⟩ :=
    handle_cases hsent (hconnect r hr)
  · exact ⟨fun _ => hharmless, fun new hnew => absurd (hinstalls.symm.trans hnew) (by simp)⟩
  · refine ⟨fun _ => by simp [ht.sent], fun new hnew => absurd (hinstalls.symm.trans hnew) (by simp)⟩
  · refine ⟨fun hnone => absurd (hinstalls.symm.trans hnone) (by simp), fun new' hnew => ?_⟩
    obtain rfl := Option.some.inj (hinstalls.symm.trans hnew)
    obtain ⟨rfl, htarget, hsent'⟩ := ha.installs hi
    exact ⟨addr, ha, htarget, hsent'⟩

theorem Attends.silent (ha : Attends h (some addr)) {e : Input} (hh : Handles h e h')
    (hconnect : isConnect e = false) (hsilent : ∀ fuel now rand msg, e ≠ .message fuel now rand addr msg) :
    Keeps h h' ∧ h.takesUp e = none := by
  obtain ⟨sent, hh⟩ := hh
  cases e with
  | connect srv rand nonce => cases hconnect
  | statusLoop a => exact ⟨(statusLoop_keeps hh).1, rfl⟩
  | transferLoop now i => exact ⟨(transferLoop_keeps hh).1, rfl⟩
  | requestRetry a blockid => exact ⟨(requestRetry_keeps hh).1, rfl⟩
  | message fuel now rand a msg =>
    have hne : a ≠ addr := fun heq => hsilent fuel now rand msg (heq ▸ rfl)
    obtain ⟨sent', hsame, -⟩ := ha.deaf hne fuel now rand msg
    obtain ⟨rfl, rfl⟩ := Prod.mk.inj (Result.ok.inj (hsame.symm.trans hh))
    refine ⟨.refl _, ?_⟩
    cases ha with
    | busy hpending honly => exact takesUp_of_pending hpending

/-- When the client of a node vanishes, the node takes up no root of others any more, whatever they send,
and its own one stays. -/
theorem vanished_client_blocks (ha : Attends h (some addr)) {l : List (Transition Handler Input)}
    (hrun : Run Handles h l h')
    (hsilent : ∀ r ∈ l, isConnect r.label = false ∧
      ∀ fuel now rand msg, r.label ≠ .message fuel now rand addr msg) :
    takenUp l = [] ∧ Attends h' (some addr) ∧ h'.blockdb.root = h.blockdb.root ∧
      h'.blockdb.pendingRoot = h.blockdb.pendingRoot ∧ h'.fs = h.fs := by
  have hall := hrun.guarded (I := fun t => Attends t (some addr) ∧ t.blockdb.root = h.blockdb.root ∧
      t.blockdb.pendingRoot = h.blockdb.pendingRoot ∧ t.fs = h.fs)
    ⟨ha, rfl, rfl, rfl⟩ ?step hsilent
  case step =>
    rintro t e u ⟨hat, hroot, hpending, hfs⟩ hstep ⟨hconnect, hno⟩
    obtain ⟨hk, -⟩ := hat.silent hstep hconnect hno
    exact ⟨hat.of_keeps hk, hk.root.trans hroot, hk.pendingRoot.trans hpending, hk.fs.trans hfs⟩
  refine ⟨takenUp_eq_nil.mpr fun r hr => ?_, hall.1⟩
  obtain ⟨⟨hat, -⟩, -, hstep⟩ := hall.2 r hr
  exact (hat.silent hstep (hsilent r hr).1 (hsilent r hr).2).2

/-! ## Updates that nobody announces -/

omit [Sealing] in
theorem rootRef_panic {db : BlockDb} (hnone : db.pendingRoot = none) : db.rootRef true = .panic := by
  simp [BlockDb.rootRef, hnone, Result.unwrap]

theorem Effect.full_of_none {msg : Msg} (he : Effect h addr msg h') (hnone : h.blockdb.pendingRoot = none)
    {id : BlockId} {f : Full} (hf : h'.blockdb.lookup id = some (.Full f)) :
    h.blockdb.lookup id = some (.Full f) := by
  cases he with
  | quiet hquiet => rwa [hquiet.blockdb] at hf
  | registered hno hroot hpending hdb => rwa [hdb] at hf
  | announced hknown hdb =>
    rw [hdb] at hf
    rcases BlockDb.lookup_add hf with hf | ⟨-, hf, -⟩
    · exact hf
    · cases hf
  | @stored chunk c t p h' haccepts hmissing hdb =>
    rw [hdb] at hf
    by_cases hid : id = t.blockid
    · subst hid
      rw [BlockDb.lookup_set_self] at hf
      cases hf
    · rwa [BlockDb.lookup_set_ne hid] at hf
  | completed haccepts hwhole hdb htable hothers hverify =>
    have hpending : h'.blockdb.pendingRoot = none := by rw [hdb]; exact hnone
    simp [verify, rootRef_panic hpending] at hverify
  | applied haccepts hwhole hroot =>
    rw [hnone] at hroot
    cases hroot

theorem last_chunk_panics (hnone : h.blockdb.pendingRoot = none) {chunk : TransferPayload} {t : Transfer}
    {p : Partial} (ha : h.Accepts addr chunk c t p) (hwhole : Whole (stored t p chunk)) (fuel now : Nat)
    (rand : UInt32) : h.receive fuel now rand addr (.TransferPayload chunk) = .panic := by
  have hpending : (completed h.blockdb t p chunk).pendingRoot = none := hnone
  have hresolve : resolve (completed h.blockdb t p chunk) fuel t.blockid true = .panic := by
    simp [resolve, rootRef_panic hpending]
  rw [receive_known ha.known]
  simp [transferPayload, receiveChunk_whole ha hwhole, hresolve]

/-- As long as no announcement of a root is taken up, a node never gets another block, whatever its peers
offer it. Its root and its folder stay as they are, and the last chunk of any block makes it panic. -/
theorem unannounced_never_installed {opt : Opt} {h₀ : Handler} (hstart : opt.handler = .ok h₀)
    {l : List (Transition Handler Input)} (hrun : Run Handles h₀ l h) (hnone : takenUp l = []) :
    h.blockdb.root = h₀.blockdb.root ∧ h.fs = h₀.fs ∧
      (∀ id f, h.blockdb.lookup id = some (.Full f) ↔ h₀.blockdb.lookup id = some (.Full f)) ∧
      ∀ fuel now rand addr chunk c t p, h.Accepts addr chunk c t p → Whole (stored t p chunk) →
        h.receive fuel now rand addr (.TransferPayload chunk) = .panic := by
  have hall := hrun.guarded (I := fun t => t.blockdb.pendingRoot = none ∧
      t.blockdb.root = h₀.blockdb.root ∧ t.fs = h₀.fs ∧
      ∀ id f, t.blockdb.lookup id = some (.Full f) → h₀.blockdb.lookup id = some (.Full f))
    ⟨start_pendingRoot hstart, rfl, rfl, fun _ _ h => h⟩ ?step (takenUp_eq_nil.mp hnone)
  case step =>
    rintro t e u ⟨hpending, hroot, hfs, hfull⟩ hstep hguard
    obtain ⟨-, -, hroot', hpending', hfs'⟩ | ⟨new, htakes, -⟩ | ⟨new, -, -, -, hsome, -⟩ :=
      Handles.roots hstep
    · refine ⟨hpending'.trans hpending, hroot'.trans hroot, hfs'.trans hfs, fun id f hf => hfull id f ?_⟩
      obtain hdb | ⟨_, _, _, _, _, _, heffect⟩ := hstep.cases
      · rwa [hdb] at hf
      · exact heffect.full_of_none hpending hf
    · exact absurd (hguard.symm.trans htakes) (by simp)
    · rw [hpending] at hsome
      cases hsome
  obtain ⟨hpending, hroot, hfs, hfull⟩ := hall.1
  refine ⟨hroot, hfs, fun id f => ⟨hfull id f, full_reachable ⟨l, hrun⟩⟩, ?_⟩
  intro fuel now rand addr chunk c t p ha hwhole
  exact last_chunk_panics hpending ha hwhole fuel now rand

end Sealing

/-! ## An empty folder -/

def newKey : Key := Vector.replicate 16 3

/-- The folder of the other node is empty, too, but has another key. -/
def newBlock [Sealing] : Full := toBlock ({ children := [] } : Dir) newKey (Vector.replicate 16 0)

def newRoot [Sealing] : BlockRef := { blockid := newBlock.id, key := newKey, hints := [] }

/-- A root that nobody has. -/
def laterRoot : BlockRef := { blockid := Vector.replicate 32 1, key := newKey, hints := [] }

def announcement (addr : SocketAddr) (root : BlockRef) : Input :=
  .message 0 0 7 addr (.RootUpdate {
    nonce := Vector.replicate 12 0
    fromBlockid := Vector.replicate 32 0
    toBlockref := root })

def offer [Sealing] : Input :=
  .message 0 0 7 peerAddr (.BlockRequestResponse {
    blockid := newBlock.id
    startId := 0
    endId := .ofNat newBlock.data.length
    len := .ofNat newBlock.data.length })

def lastChunk [Sealing] : TransferPayload := { chunkid := 0, data := newBlock.data }

def payload [Sealing] : Input := .message 3 0 7 peerAddr (.TransferPayload lastChunk)

def handled [Sealing] (h : Handler) (e : Input) : Result Handler := do
  let (h, _) ← h.handle e
  return h

theorem handled_ok [Sealing] {e : Input} (hh : handled h e = .ok h') : Handles h e h' := by
  obtain ⟨⟨h₁, sent⟩, hstep, heq⟩ := Result.bind_eq_ok.mp hh
  obtain rfl : h₁ = h' := Result.ok.inj heq
  exact ⟨sent, hstep⟩

/-- A root is installed, and the next one is pending. -/
theorem roots_installed_in_order_two :
    letI := sealing
    ∃ h₀ h l, emptyOpt.handler = .ok h₀ ∧ Run Handles h₀ l h ∧ takenUp l = [newRoot, laterRoot] ∧
      h.blockdb.pendingRoot = some laterRoot ∧ takenUp l = installed l ++ [laterRoot] ∧
      h.blockdb.root = newRoot := by
  let _ := sealing
  let inputs := [announcement peerAddr newRoot, offer, payload, announcement peerAddr laterRoot]
  have hok : (do
      let h₀ ← emptyOpt.handler
      let h ← replay handled h₀ inputs
      let l := transitions handled h₀ inputs
      return (takenUp l, installed l, h.blockdb.pendingRoot)) =
        .ok ([newRoot, laterRoot], [newRoot], some laterRoot) := by decide +kernel
  simp only [Result.bind_eq_ok, Result.pure_def, Result.ok.injEq, Prod.mk.injEq] at hok
  obtain ⟨h₀, hstart, h, hreplay, htaken, hinstalled, hpending⟩ := hok
  obtain ⟨hrun, -⟩ := replay_transitions (fun _ _ _ => handled_ok) hreplay
  obtain ⟨hledger, hroot, -⟩ := roots_installed_in_order hstart hrun
  rw [hpending] at hledger
  rw [hinstalled] at hroot
  exact ⟨h₀, h, _, hstart, hrun, htaken, hpending, hledger, hroot⟩

/-- The new root is announced to the client that sent it, which is a client no more. -/
theorem one_client_at_a_time_one :
    letI := sealing
    ∃ h₀ h h' l sent, emptyOpt.handler = .ok h₀ ∧ Run Handles h₀ (l ++ [⟨h, payload, h'⟩]) h' ∧
      h.handle payload = .ok (h', sent) ∧ ∃ addr, Attends h (some addr) ∧ Attends h' none ∧
        ∀ m, m ∈ sent ↔ m = (.RootUpdateResponse {
          fromBlockid := h.blockdb.root.blockid
          toBlockid := newRoot.blockid
          toKey := newRoot.key }, addr) := by
  let _ := sealing
  have hok : (do
      let h₀ ← emptyOpt.handler
      let h ← replay handled h₀ [announcement peerAddr newRoot, offer]
      let _ ← h.handle payload
      return h.installs payload) = .ok (some newRoot) := by decide +kernel
  simp only [Result.bind_eq_ok, Result.pure_def, Result.ok.injEq] at hok
  obtain ⟨h₀, hstart, h, hreplay, ⟨h', sent⟩, hsent, hinstalls⟩ := hok
  obtain ⟨hbefore, hlabels⟩ := replay_transitions (fun _ _ _ => handled_ok) hreplay
  have hrun := hbefore.snoc ⟨sent, hsent⟩
  have hconnect : ∀ r ∈ transitions handled h₀ [announcement peerAddr newRoot, offer] ++
      [⟨h, payload, h'⟩], isConnect r.label = false := by
    intro r hr
    have hlabel : r.label ∈ [announcement peerAddr newRoot, offer, payload] := by
      have := List.mem_map_of_mem (f := Transition.label) hr
      rwa [List.map_append, hlabels] at this
    simp only [List.mem_cons, List.not_mem_nil, or_false] at hlabel
    rcases hlabel with hlabel | hlabel | hlabel <;> rw [hlabel] <;> rfl
  have hall := (one_client_at_a_time hstart hrun hconnect).2 ⟨h, payload, h'⟩ (by simp) sent hsent
  exact ⟨h₀, h, h', _, sent, hstart, hrun, hsent, hall.2 newRoot hinstalls⟩

/-- Another node announces a root, and is not heard. -/
theorem vanished_client_blocks_one :
    letI := sealing
    ∃ h h' l, Attends h (some peerAddr) ∧ Run Handles h l h' ∧
      l.map Transition.label = [announcement { peerAddr with port := 9 } laterRoot] ∧
      takenUp l = [] ∧ h'.blockdb.pendingRoot = some newRoot := by
  let _ := sealing
  have hok : (do
      let h₀ ← emptyOpt.handler
      let (h, _) ← h₀.handle (announcement peerAddr newRoot)
      let _ ← handled h (announcement { peerAddr with port := 9 } laterRoot)
      return (h₀.takesUp (announcement peerAddr newRoot), (h.clients.lookup peerAddr).isSome,
        h.blockdb.pendingRoot)) = .ok (some newRoot, true, some newRoot) := by decide +kernel
  simp only [Result.bind_eq_ok, Result.pure_def, Result.ok.injEq, Prod.mk.injEq,
    Option.isSome_iff_ne_none] at hok
  obtain ⟨h₀, hstart, ⟨h, sent⟩, hstep, h', hlater, htakes, hknown, hpending⟩ := hok
  have ha : Attends h (some peerAddr) := by
    obtain ⟨hno, -⟩ | ⟨addr, new, -, -, ht⟩ | ⟨addr, new, hno, -⟩ := handle_cases hstep rfl
    · exact absurd (hno.symm.trans htakes) (by simp)
    · have ha := (start_attends hstart).takesUp ht
      exact ha.unique hknown ▸ ha
    · exact absurd (hno.symm.trans htakes) (by simp)
  have hrun := Run.nil.snoc (handled_ok hlater)
  have hsilent : ∀ r ∈ [⟨h, announcement { peerAddr with port := 9 } laterRoot, h'⟩],
      isConnect (Transition.label r) = false ∧
        ∀ fuel now rand msg, r.label ≠ .message fuel now rand peerAddr msg := by
    intro r hr
    obtain rfl := List.mem_singleton.mp hr
    refine ⟨rfl, fun fuel now rand msg heq => ?_⟩
    simp only [announcement, Input.message.injEq] at heq
    exact absurd heq.2.2.2.1 (by decide)
  obtain ⟨htaken, -, -, hsame, -⟩ := vanished_client_blocks ha hrun hsilent
  exact ⟨h, h', _, ha, hrun, rfl, htaken, hsame.trans hpending⟩

/-- A block is offered, and its last chunk makes the node panic. -/
theorem unannounced_never_installed_one :
    letI := sealing
    ∃ h₀ h l, emptyOpt.handler = .ok h₀ ∧ Run Handles h₀ l h ∧
      l.map Transition.label = [.connect peerAddr 7 (Vector.replicate 12 0), offer] ∧
      h.blockdb.root = h₀.blockdb.root ∧
      h.receive 3 0 7 peerAddr (.TransferPayload lastChunk) = .panic := by
  let _ := sealing
  let inputs : List Input := [.connect peerAddr 7 (Vector.replicate 12 0), offer]
  have hok : (do
      let h₀ ← emptyOpt.handler
      let h ← replay handled h₀ inputs
      let stored ← h.storeChunk peerAddr lastChunk
      let promoted ← stored.2.blockdb.tryPromote stored.1.blockid
      return (takenUp (transitions handled h₀ inputs), promoted.1)) = .ok ([], true) := by decide +kernel
  simp only [Result.bind_eq_ok, Result.pure_def, Result.ok.injEq, Prod.mk.injEq] at hok
  obtain ⟨h₀, hstart, h, hreplay, ⟨t, h'⟩, hstore, ⟨_, db⟩, hpromote, hnone, rfl⟩ := hok
  obtain ⟨hrun, hlabels⟩ := replay_transitions (fun _ _ _ => handled_ok) hreplay
  obtain ⟨c, p, ha, rfl⟩ := storeChunk_accepts.mp hstore
  have hwhole : Whole (stored t p lastChunk) := by
    by_contra hmissing
    have hlookup : (h.withChunk peerAddr t p lastChunk).blockdb.lookup t.blockid =
      some (.Partial (stored t p lastChunk)) := BlockDb.lookup_set_self
    cases (tryPromote_missing hlookup hmissing).symm.trans hpromote
  obtain ⟨hroot, -, -, hpanic⟩ := unannounced_never_installed hstart hrun hnone
  exact ⟨h₀, h, _, hstart, hrun, hlabels, hroot, hpanic 3 0 7 peerAddr lastChunk c t p ha hwhole⟩

end Handler

end DasProtokoll.Scsync
