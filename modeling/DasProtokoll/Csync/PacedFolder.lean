import DasProtokoll.Csync.PacedReceiver
import DasProtokoll.Csync.StoredFolder

/-!
# The upload of a folder in time

Each session of the server has its own congestion control. One whose average is less
than what is taken off is stuck, and the client with it, so a folder comes to its
end where no session is.
-/

namespace DasProtokoll.Csync

open DasProtokoll BitteEinBit

/-- `paces` are the congestion controls of the sessions. -/
structure PacedFolder extends FolderUpload where
  paces : List Pace
  now : Nat

namespace PacedFolder

def start (folder : PathBuf) (F : Forest) (fs : FileSystem) (now : Nat) : PacedFolder :=
  { FolderUpload.start folder F fs with paces := [], now }

variable [Varint] (numPackets : Nat → Nat) (sha256 : Bytes → Bytes) (folder : PathBuf)

/-- The flag of a poll says that the timer of the session has fired. -/
def next (u : PacedFolder) (e : FolderUpload.Event) (now : Nat) : Result PacedFolder := do
  Result.assert (u.now ≤ now)
  match e with
  | .clientOnce => do
    let upload ← u.clientOnce sha256 folder
    let pace ← Pace.start now
    return { upload with paces := u.paces ++ [pace], now }
  | .session i (.serverPoll fired progress datagram) => do
    let (_, s) ← Result.unwrap u.sessions[i]?
    let pace ← Result.unwrap u.paces[i]?
    let (ready, pace) ← pace.poll numPackets s.server.receiver fired progress datagram now
    let upload ← u.toFolderUpload.step sha256 folder (.session i (.serverPoll ready progress datagram))
    return { upload with paces := u.paces.set i pace, now }
  | e => do
    let upload ← u.toFolderUpload.step sha256 folder e
    return { upload with paces := u.paces, now }

def Step (u : PacedFolder) (a : FolderUpload.Event × Nat) (u' : PacedFolder) : Prop :=
  u.next numPackets sha256 folder a.1 a.2 = .ok u'

/-- The scheduler picks the event and how long it waits, and the timer answers. -/
def Play (u : PacedFolder) (a : FolderUpload.Event × Nat) (fired : Bool) (u' : PacedFolder) : Prop :=
  Step numPackets sha256 folder u (a.1.withReady fired, u.now + a.2) u'

/-! ## Steps -/

section Steps

variable {numPackets : Nat → Nat} {sha256 : Bytes → Bytes} {folder : PathBuf} {u u' : PacedFolder}
  {e : FolderUpload.Event} {now : Nat} {pace' : Pace}

/-- What a step makes of the congestion controls: one of them does its part of a poll, a new one starts with
a new session, and all others stay. -/
inductive Kept (numPackets : Nat → Nat) (u : PacedFolder) (now : Nat) (pace' : Pace) : Prop
  | same (h : pace' ∈ u.paces)
  | new (h : pace'.congestion = .new now)
  | polled {x : Place × Session} {pace : Pace} {fired ready : Bool} {progress : Nat} {datagram : Option Bytes}
    (hx : x ∈ u.sessions) (h : pace ∈ u.paces)
    (hpoll : pace.poll numPackets x.2.server.receiver fired progress datagram now = .ok (ready, pace'))

theorem next_cases (h : u.next numPackets sha256 folder e now = .ok u')
    (hlength : u.paces.length = u.sessions.length) :
    (∃ ready, FolderUpload.Step sha256 folder u.toFolderUpload (e.withReady ready) u'.toFolderUpload) ∧
      u.now ≤ now ∧ u'.now = now ∧ u'.paces.length = u'.sessions.length ∧
      ∀ pace' ∈ u'.paces, Kept numPackets u now pace' := by
  obtain ⟨_, hle, h⟩ := Result.bind_eq_ok.mp h
  have hle := Result.assert_eq_ok.mp hle
  cases e with
  | clientOnce =>
    simp only [Result.bind_eq_ok, Result.pure_def, Result.ok.injEq] at h
    obtain ⟨upload, hupload, pace, hpace, rfl⟩ := h
    refine ⟨⟨true, hupload⟩, hle, rfl, ?_, fun pace' hmem => ?_⟩
    · simp [FolderUpload.clientOnce_length hupload, hlength]
    · rcases List.mem_append.mp hmem with hmem | hmem
      · exact .same hmem
      · simp only [Pace.start, Result.bind_eq_ok, Result.pure_def, Result.ok.injEq] at hpace
        obtain ⟨_, -, rfl⟩ := hpace
        exact .new (by rw [List.mem_singleton.mp hmem])
  | session i e =>
    cases e with
    | serverPoll fired progress datagram =>
      simp only [Result.bind_eq_ok, Result.unwrap_eq_ok, Result.pure_def, Result.ok.injEq] at h
      obtain ⟨x, hx, pace, hpace, ⟨ready, pace'⟩, hpoll, upload, hupload, rfl⟩ := h
      refine ⟨⟨ready, hupload⟩, hle, rfl, ?_, fun pace'' hmem => ?_⟩
      · simp [FolderUpload.session_length hupload, hlength]
      · rcases List.mem_or_eq_of_mem_set hmem with hmem | rfl
        · exact .same hmem
        · exact .polled (List.mem_of_getElem? hx) (List.mem_of_getElem? hpace) hpoll
    | _ =>
      simp only [Result.bind_eq_ok, Result.pure_def, Result.ok.injEq] at h
      obtain ⟨upload, hupload, rfl⟩ := h
      refine ⟨⟨true, hupload⟩, hle, rfl, ?_, fun pace' hmem => .same hmem⟩
      simp [FolderUpload.session_length hupload, hlength]

/-- Each session can take another chunk. -/
def Countable (u : PacedFolder) : Prop := ∀ pace ∈ u.paces, pace.congestion.Covered

omit [Varint] in
theorem Kept.clocked (h : Kept numPackets u now pace')
    (hsound : ∀ x ∈ u.sessions, ∃ info, x.2.server.receiver.Sound info)
    (hclock : ∀ pace ∈ u.paces, pace.congestion.Clocked now) : pace'.congestion.Clocked now := by
  cases h with
  | same h => exact hclock _ h
  | new h => exact h ▸ .new now
  | polled hx h hpoll =>
    obtain ⟨info, hr⟩ := hsound _ hx
    exact Pace.poll_clocked hr (hclock _ h) hpoll

omit [Varint] in
theorem Kept.covered (h : Kept numPackets u now pace')
    (hsound : ∀ x ∈ u.sessions, ∃ info, x.2.server.receiver.Sound info)
    (hclock : ∀ pace ∈ u.paces, pace.congestion.Clocked now) (hcovered : u.Countable)
    (hlong : ∀ pace ∈ u.paces, ∀ old ∈ pace.congestion.lastIpt, ∀ d ∈ pace.congestion.ipts, old + d ≤ now) :
    pace'.congestion.Covered := by
  cases h with
  | same h => exact hcovered _ h
  | new h => exact h ▸ fun hfull => absurd hfull (by simp [CongestionInfo.new])
  | polled hx h hpoll =>
    obtain ⟨info, hr⟩ := hsound _ hx
    exact Pace.poll_covered hr (hclock _ h) (hcovered _ h) (hlong _ h) hpoll

end Steps

/-! ## The system -/

section System

variable {numPackets : Nat → Nat} {sha256 : Bytes → Bytes} {folder : PathBuf} {F : Forest} {fs₀ : FileSystem}
  {home : Place} {started rest : List (Place × Bytes)} {u u' : PacedFolder} {e : FolderUpload.Event} {now : Nat}

structure Inv (home : Place) (fs₀ : FileSystem) (folder : PathBuf) (F : Forest) (u : PacedFolder) : Prop where
  upload : ∃ started rest, u.toFolderUpload.Inv home fs₀ folder F started rest
  length : u.paces.length = u.sessions.length
  clock : ∀ pace ∈ u.paces, pace.congestion.Clocked u.now

theorem start_inv (hF : F.WellFormed) (hfresh : ∀ name path, fs₀.node (home ++ name :: path) = none) :
    Inv home fs₀ folder F (start folder F fs₀ now) where
  upload := ⟨_, _, FolderUpload.start_inv hF hfresh⟩
  length := rfl
  clock pace h := by cases h

theorem Inv.sound (hi : Inv home fs₀ folder F u) (hsend : ∀ f ∈ F.files, Sendable f) :
    ∀ x ∈ u.sessions, ∃ info, x.2.server.receiver.Sound info := by
  intro x hx
  obtain ⟨started, rest, hupload⟩ := hi.upload
  obtain ⟨f, hf, hrun⟩ := hupload.uploads hx
  obtain ⟨s₀, h0, hr⟩ := hrun.run
  obtain ⟨info, -, -, hs⟩ := session_inv (hsend f hf).size h0 hr
  exact ⟨info, hs.receiver.sound⟩

theorem Inv.step (hlen : ∀ token, (sha256 token).length = 32) (hhome : home = clientHome sha256 fs₀.cwd)
    (hi : Inv home fs₀ folder F u) (hF : F.WellFormed) (hsend : ∀ f ∈ F.files, Sendable f)
    (h : u.next numPackets sha256 folder e now = .ok u') : Inv home fs₀ folder F u' := by
  obtain ⟨started, rest, hupload⟩ := hi.upload
  obtain ⟨⟨ready, hstep⟩, hle, hnow, hlength, hkept⟩ := next_cases h hi.length
  refine ⟨hupload.step hlen hhome hF hsend hstep, hlength, fun pace hpace => ?_⟩
  rw [hnow]
  exact (hkept pace hpace).clocked (hi.sound hsend) fun pace hpace => (hi.clock pace hpace).mono hle

theorem Inv.total (numPackets : Nat → Nat) (hi : Inv home fs₀ folder F u)
    (hsend : ∀ f ∈ F.files, Sendable f) (hcovered : u.Countable)
    {next : Bool → FolderUpload}
    (hnext : ∀ ready, FolderUpload.Play sha256 folder u.toFolderUpload e ready (next ready)) (fired : Bool)
    (hle : u.now ≤ now) : ∃ u', u.next numPackets sha256 folder (e.withReady fired) now = .ok u' := by
  cases e with
  | clientOnce =>
    have honce : u.clientOnce sha256 folder = .ok (next true) := hnext true
    simp [FolderUpload.Event.withReady, PacedFolder.next, Result.assert_of hle, honce, Pace.start,
      CongestionInfo.startRtt, RoundTrips.new, Result.assert_of]
  | session i e =>
    have hstep (ready : Bool) : u.toFolderUpload.step sha256 folder (.session i (e.withReady ready)) =
      .ok (next ready) := hnext ready
    cases e with
    | serverPoll flag progress datagram =>
      obtain ⟨x, hx, -⟩ := Result.bind_eq_ok.mp (hstep true)
      rw [Result.unwrap_eq_ok] at hx
      obtain ⟨hlt, -⟩ := List.getElem?_eq_some_iff.mp hx
      have hlt : i < u.paces.length := hi.length ▸ hlt
      have hpace : u.paces[i]? = some u.paces[i] := List.getElem?_eq_getElem hlt
      have hmem := List.mem_of_getElem? hpace
      obtain ⟨info, hr⟩ := hi.sound hsend x (List.mem_of_getElem? hx)
      obtain ⟨⟨ready, pace'⟩, hpoll⟩ := (Pace.poll_iff numPackets hr ((hi.clock _ hmem).mono hle) fired progress
        datagram).mpr fun _ => hcovered _ hmem
      have hupload : u.toFolderUpload.step sha256 folder (.session i (.serverPoll ready progress datagram)) =
        .ok (next ready) := hstep ready
      simp [FolderUpload.Event.withReady, Csync.Event.withReady, PacedFolder.next, Result.assert_of hle, hx,
        hpace, hpoll, hupload]
    | _ =>
      have hupload := hstep true
      simp only [Csync.Event.withReady] at hupload
      simp [FolderUpload.Event.withReady, Csync.Event.withReady, PacedFolder.next, Result.assert_of hle,
        hupload]

end System

end PacedFolder

end DasProtokoll.Csync
