import DasProtokoll.Csync.Login

/-!
# Which logins are read

What `encode` writes is read back, whatever follows it. Other datagrams are
answered with an error only while their lengths and the command byte are in order.
-/

namespace DasProtokoll.Csync

open DasProtokoll

/-! ## What the client writes -/

section Encode

variable [Varint]

/-- The number of bytes that `encode` reports. -/
def UploadRequest.encodedLength (req : UploadRequest) : Nat :=
  let path := OsString.ofString req.path
  Varint.len path.length + path.length + Varint.len req.length

def Command.encodedLength : Command → Nat
  | .UploadRequest req => req.encodedLength + 1

theorem UploadRequest.encode_length {req : UploadRequest}
    (hpath : (OsString.ofString req.path).length < u64Size) (hlength : req.length < u64Size) :
    req.encode.length = req.encodedLength := by
  simp [encode, encodedLength, Varint.length_write _ hpath, Varint.length_write _ hlength]
  omega

theorem UploadRequest.decode_encode {req : UploadRequest}
    (hpath : (OsString.ofString req.path).length < u64Size) (hlength : req.length < u64Size)
    (rest : Bytes) : UploadRequest.decode (req.encode ++ rest) = .ok (some req) := by
  have hread := readBytes_write hpath (Varint.write req.length ++ rest)
  rw [← List.append_assoc] at hread
  unfold UploadRequest.decode UploadRequest.encode
  simp only [hread, Result.bind_ok, OsString.fromUtf8_ofString, Varint.read_write _ _ hlength,
    Result.pure_def]

theorem Login.decode_append {token : Bytes} (h : token.length < u64Size) (command rest : Bytes) :
    Login.decode (Varint.write token.length ++ token ++ command ++ rest) = (do
      let command ← Command.decode (command ++ rest)
      return command.map fun command => { clientToken := token, command }) := by
  rw [Login.decode, List.append_assoc _ command, readBytes_write h, Result.bind_ok]

/-- A login comes back as it was written, whatever follows it, and the command reports the bytes it
takes. -/
theorem login_round_trip (token : Bytes) (path : String) (length : Nat) (trailing : Bytes)
    (htoken : token.length < u64Size) (hpath : (OsString.ofString path).length < u64Size)
    (hlength : length < u64Size) :
    let command : Command := .UploadRequest { path, length }
    let login : Login := { clientToken := token, command }
    Login.decode (login.encode ++ trailing) = .ok (some login) ∧
      command.encodedLength = command.encode.length := by
  intro command login
  refine ⟨?_, ?_⟩
  · have hreq : UploadRequest.decode (({ path, length } : UploadRequest).encode ++ trailing) =
        .ok (some { path, length }) :=
      UploadRequest.decode_encode hpath hlength trailing
    rw [Login.encode, Login.decode_append htoken]
    simp only [login, command, Command.encode, List.cons_append, Command.decode, if_true, hreq,
      Result.bind_ok, Result.pure_def, Option.map_some]
  · simp only [command, Command.encodedLength, Command.encode, List.length_cons]
    rw [UploadRequest.encode_length hpath hlength]

end Encode

theorem login_round_trip_empty :
    letI := leb128
    let command : Command := .UploadRequest { path := "a", length := 300 }
    let login : Login := { clientToken := [], command }
    Login.decode (login.encode ++ [7, 8]) = .ok (some login) ∧
      command.encodedLength = command.encode.length :=
  letI := leb128
  login_round_trip [] "a" 300 [7, 8] (by decide) (by decide) (by decide)

/-! ## What the server makes of any datagram -/

section Decode

variable [Varint]

/-- The bytes start with a length, and there are as many bytes behind it. -/
def Prefixed (src : Bytes) : Prop :=
  ∃ size rest, Varint.read src = .value size rest ∧ size ≤ rest.length

/-- The token is there, and behind it nothing, or the command byte of an upload with all bytes of the
path. -/
def Framed (src : Bytes) : Prop :=
  ∃ size rest, Varint.read src = .value size rest ∧ size ≤ rest.length ∧
    (rest.drop size = [] ∨ ∃ body, rest.drop size = 0 :: body ∧ Prefixed body)

theorem readBytes_eq_ok {src data tail : Bytes} :
    readBytes src = .ok (data, tail) ↔ ∃ size rest, Varint.read src = .value size rest ∧
      size ≤ rest.length ∧ rest.take size = data ∧ rest.drop size = tail := by
  unfold readBytes
  cases hread : Varint.read src with
  | value size rest => simp [Result.bind_eq_ok]
  | unexpectedEof => simp
  | invalidData => simp

theorem UploadRequest.decode_total_iff {src : Bytes} :
    (∃ decoded, UploadRequest.decode src = .ok decoded) ↔ Prefixed src := by
  constructor
  · rintro ⟨decoded, h⟩
    obtain ⟨⟨path, tail⟩, hread, -⟩ := Result.bind_eq_ok.mp h
    obtain ⟨size, rest, hsize, hle, -, -⟩ := readBytes_eq_ok.mp hread
    exact ⟨size, rest, hsize, hle⟩
  · rintro ⟨size, rest, hsize, hle⟩
    have hread := readBytes_eq_ok.mpr ⟨size, rest, hsize, hle, rfl, rfl⟩
    rw [UploadRequest.decode, hread, Result.bind_ok]
    -- From here on there are errors only.
    simp only
    split
    · exact ⟨_, rfl⟩
    · exact ⟨_, rfl⟩

theorem Command.decode_total_iff {src : Bytes} :
    (∃ decoded, Command.decode src = .ok decoded) ↔
      src = [] ∨ ∃ body, src = 0 :: body ∧ Prefixed body := by
  cases src with
  | nil => simp [Command.decode]
  | cons tag body =>
    by_cases htag : tag = 0
    · subst htag
      have hreq : (∃ decoded, UploadRequest.decode body = .ok decoded) ↔ Prefixed body :=
        UploadRequest.decode_total_iff
      simp only [Command.decode, if_true, Result.bind_eq_ok, Result.pure_def, Result.ok.injEq]
      constructor
      · rintro ⟨_, req, h, -⟩
        exact Or.inr ⟨body, rfl, hreq.mp ⟨req, h⟩⟩
      · rintro (h | ⟨_, h, hprefixed⟩)
        · cases h
        · cases h
          obtain ⟨req, hdecode⟩ := hreq.mpr hprefixed
          exact ⟨_, req, hdecode, rfl⟩
    · simp [Command.decode, htag]

theorem Login.decode_total_iff {src : Bytes} :
    (∃ decoded, Login.decode src = .ok decoded) ↔ Framed src := by
  constructor
  · rintro ⟨decoded, h⟩
    obtain ⟨⟨token, tail⟩, hread, h⟩ := Result.bind_eq_ok.mp h
    obtain ⟨command, hcommand, -⟩ := Result.bind_eq_ok.mp h
    obtain ⟨size, rest, hsize, hle, -, rfl⟩ := readBytes_eq_ok.mp hread
    exact ⟨size, rest, hsize, hle, Command.decode_total_iff.mp ⟨command, hcommand⟩⟩
  · rintro ⟨size, rest, hsize, hle, htail⟩
    obtain ⟨command, hcommand⟩ := Command.decode_total_iff.mpr htail
    have hread := readBytes_eq_ok.mpr ⟨size, rest, hsize, hle, rfl, rfl⟩
    refine ⟨command.map fun command => { clientToken := rest.take size, command }, ?_⟩
    rw [Login.decode, hread, Result.bind_ok]
    simp only [hcommand]
    rfl

/-- What the listener has of the datagram is a login, or its error branch takes it. -/
def Handled (d : Bytes) : Prop :=
  ∃ decoded, Login.decode (d.take mtu) = .ok decoded ∧
    (decoded = none → ∀ disk, handleClient d disk = .ok none)

/-- Bytes are decoded or refused, and a datagram is handled, if and only if the lengths and the
command byte are in order. -/
theorem login_handled_iff (d : Bytes) :
    ((∃ decoded, Login.decode d = .ok decoded) ↔ Framed d) ∧ (Handled d ↔ Framed (d.take mtu)) := by
  refine ⟨Login.decode_total_iff, ?_⟩
  rw [← Login.decode_total_iff]
  constructor
  · rintro ⟨decoded, hdecode, -⟩
    exact ⟨decoded, hdecode⟩
  · rintro ⟨decoded, hdecode⟩
    refine ⟨decoded, hdecode, ?_⟩
    rintro rfl disk
    rw [handleClient, hdecode]
    rfl

end Decode

/-- No bytes at all, a length that goes past the end, and a command that is not known stop the
listener. -/
theorem login_decode_panics :
    letI := leb128
    let disk : Disk := { bitmap := none, file := none }
    ∀ d ∈ ([[], [5], [0, 1], [0, 0, 2, 97]] : List Bytes),
      Login.decode d = .panic ∧ handleClient d disk = .panic ∧ ¬ Handled d := by
  let _ := leb128
  have hpanic : ∀ d ∈ ([[], [5], [0, 1], [0, 0, 2, 97]] : List Bytes), Login.decode d = .panic := by
    decide
  intro disk d hd
  have hlen : d.length ≤ mtu := by
    simp only [List.mem_cons, List.not_mem_nil, or_false] at hd
    rcases hd with rfl | rfl | rfl | rfl <;> decide
  have hdecode : Login.decode (d.take mtu) = .panic := by
    rw [List.take_of_length_le hlen]
    exact hpanic d hd
  refine ⟨hpanic d hd, ?_, ?_⟩
  · rw [handleClient, hdecode]
    rfl
  · rintro ⟨decoded, h, -⟩
    rw [hdecode] at h
    cases h

end DasProtokoll.Csync
