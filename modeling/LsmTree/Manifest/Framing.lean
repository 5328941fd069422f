import LsmTree.Theory.Codec

/-! Framed records of the manifest: length, digest, payload. -/
namespace LsmTree

open Codec

inductive ManifestError where
  | invalidHeader (what : String)
  | invalidTag (what : String) (tag : Fin 256)
  | frameChecksumMismatch (within : String) (expected got : Fin (256 ^ 8))
  | unrecoverable
  | io
  | tornManifestEditLog (kind : String)
  deriving DecidableEq, Repr

def maxFramePayload : ℕ := 64 * 1024

/-- A length of four bytes and a digest of eight. -/
def frameHeaderLen : ℕ := 12

inductive FramedRecordOutcome where
  | ok (payload rest : Bytes)
  | checksumMismatch (bytesConsumed : ℕ) (expected got : Fin (256 ^ 8))
  | badHeader
  | lenMismatch (got expected : ℕ)
  | tailTruncation
  deriving DecidableEq, Repr

/-- `xxh3_64` -/
abbrev Digest := Bytes → Fin (256 ^ 8)

variable (digest : Digest)

def writeFramedRecord (payload : Bytes) : Except ManifestError Bytes :=
  if maxFramePayload < payload.length then .error .unrecoverable
  else .ok (encodeLe 4 payload.length ++ (write (digest payload) ++ payload))

/-- The part of `read_framed_record` after the checks of `len`. -/
def readFramedPayload (len : ℕ) (bytes : Bytes) : FramedRecordOutcome :=
  match (read 8).run bytes with
  | none => .tailTruncation
  | some (digestExpected, bytes) =>
    match (readBytes len).run bytes with
    | none => .tailTruncation
    | some (payload, rest) =>
      if digest payload = digestExpected then .ok payload rest
      else .checksumMismatch (frameHeaderLen + len) digestExpected (digest payload)

def readFramedRecord (remainingInSection : ℕ) (expectedPayloadLen : Option ℕ) (bytes : Bytes) :
    FramedRecordOutcome :=
  match (read 4).run bytes with
  | none => .tailTruncation
  | some (len, bytes) =>
    if maxFramePayload < len.val then .badHeader
    else match expectedPayloadLen.filter fun expected => decide (len.val ≠ expected) with
      | some expected => .lenMismatch len expected
      | none =>
        if remainingInSection < len + frameHeaderLen then .tailTruncation
        else readFramedPayload digest len bytes

variable {digest} {payload record : Bytes}

theorem writeFramedRecord_eq_ok (h : writeFramedRecord digest payload = .ok record) :
    payload.length ≤ maxFramePayload ∧
      record = encodeLe 4 payload.length ++ (write (digest payload) ++ payload) := by
  unfold writeFramedRecord at h
  split at h
  · cases h
  · exact ⟨not_lt.1 ‹_›, (Except.ok.inj h).symm⟩

theorem writeFramedRecord_length (h : writeFramedRecord digest payload = .ok record) :
    record.length = frameHeaderLen + payload.length := by
  rw [(writeFramedRecord_eq_ok h).2]
  simp only [List.length_append, encodeLe_length, write_length, frameHeaderLen]
  omega

section Read

variable {remaining : ℕ} (hfit : payload.length + frameHeaderLen ≤ remaining)
include hfit

theorem readFramedRecord_len {expected : Option ℕ}
    (hexpected : ∀ n, expected = some n → payload.length = n) (hlen : payload.length ≤ maxFramePayload) (bytes : Bytes) :
    readFramedRecord digest remaining expected (encodeLe 4 payload.length ++ bytes) =
      readFramedPayload digest payload.length bytes := by
  have hbound : payload.length < 256 ^ 4 := lt_of_le_of_lt hlen (by decide)
  have hread := reads_write (n := 4) ⟨payload.length, hbound⟩ bytes
  have hpinned : (expected.filter fun n => decide (payload.length ≠ n)) = none := by
    apply Option.filter_eq_none_iff.2
    intro n hn
    rw [decide_eq_true_eq, not_not]
    exact hexpected n hn
  simp only [readFramedRecord]
  rw [show encodeLe 4 payload.length ++ bytes =
    write (⟨payload.length, hbound⟩ : Fin (256 ^ 4)) ++ bytes from rfl, hread]
  simp only [hpinned, if_neg (not_lt.2 hlen), if_neg (not_lt.2 hfit)]

theorem readFramedRecord_whole {expected : Option ℕ}
    (hexpected : ∀ n, expected = some n → payload.length = n)
    (h : writeFramedRecord digest payload = .ok record) (rest : Bytes) :
    readFramedRecord digest remaining expected (record ++ rest) = .ok payload rest := by
  obtain ⟨hlen, rfl⟩ := writeFramedRecord_eq_ok h
  rw [List.append_assoc, readFramedRecord_len hfit hexpected hlen, List.append_assoc, readFramedPayload,
    reads_write (digest payload)]
  simp only [reads_bytes payload rest, if_true]

theorem readFramedRecord_cut (h : writeFramedRecord digest payload = .ok record) {n : ℕ}
    (hn : n < record.length) :
    readFramedRecord digest remaining none (record.take n) = .tailTruncation := by
  have hrecord := writeFramedRecord_length h
  obtain ⟨hlen, rfl⟩ := writeFramedRecord_eq_ok h
  by_cases h4 : n < 4
  · have hshort : ((encodeLe 4 payload.length ++
        (write (digest payload) ++ payload)).take n).length < 4 := by
      rw [List.length_take]
      omega
    simp only [readFramedRecord, read_short hshort]
  · have hfield (bytes : Bytes) :
        readFramedRecord digest remaining none (encodeLe 4 payload.length ++ bytes) =
          readFramedPayload digest payload.length bytes := by
      apply readFramedRecord_len hfit _ hlen
      nofun
    rw [List.take_append, List.take_of_length_le (by rw [encodeLe_length]; omega), hfield,
      encodeLe_length]
    by_cases h12 : n - 4 < 8
    · have hshort : ((write (digest payload) ++ payload).take (n - 4)).length < 8 := by
        rw [List.length_take]
        omega
      simp only [readFramedPayload, read_short hshort]
    · rw [List.take_append, List.take_of_length_le (by rw [write_length]; omega),
        readFramedPayload, reads_write (digest payload), write_length]
      have hshort : (payload.take (n - 4 - 8)).length < payload.length := by
        rw [List.length_take]
        simp only [frameHeaderLen] at hrecord
        omega
      have hnone : (readBytes payload.length).run (payload.take (n - 4 - 8)) = none := if_pos hshort
      simp only [hnone]

end Read

section Stable

variable {remaining : ℕ} {expected : Option ℕ} {bytes rest : Bytes}

theorem readFramedRecord_eq_ok
    (h : readFramedRecord digest remaining expected bytes = .ok payload rest) :
    ∃ (len : Fin (256 ^ 4)) (body body' : Bytes), (read 4).run bytes = some (len, body) ∧
      ¬ maxFramePayload < len.val ∧
      (expected.filter fun expected => decide (len.val ≠ expected)) = none ∧
      ¬ remaining < len + frameHeaderLen ∧ (read 8).run body = some (digest payload, body') ∧
      (readBytes len).run body' = some (payload, rest) := by
  rw [readFramedRecord] at h
  split at h
  · cases h
  rename_i len body hlen
  split at h
  · cases h
  split at h
  · cases h
  split at h
  · cases h
  rw [readFramedPayload] at h
  split at h
  · cases h
  rename_i body' hdigest
  split at h
  · cases h
  split at h
  · rename_i hpayload hmatch
    cases h
    exact ⟨len, body, body', hlen, ‹_›, ‹_›, ‹_›, hmatch ▸ hdigest, hpayload⟩
  · cases h

theorem readFramedRecord_append
    (h : readFramedRecord digest remaining expected bytes = .ok payload rest) (more : Bytes) :
    readFramedRecord digest remaining expected (bytes ++ more) = .ok payload (rest ++ more) := by
  obtain ⟨len, body, body', hlen, hcap, hpinned, hroom, hdigest, hpayload⟩ :=
    readFramedRecord_eq_ok h
  rw [readFramedRecord, read_stable 4 _ _ _ more hlen]
  simp only [if_neg hcap, hpinned, if_neg hroom]
  rw [readFramedPayload, read_stable 8 _ _ _ more hdigest]
  simp only [readBytes_stable _ _ _ _ more hpayload, if_true]

theorem readFramedRecord_rest_length
    (h : readFramedRecord digest remaining expected bytes = .ok payload rest) :
    rest.length < bytes.length := by
  obtain ⟨len, body, body', hlen, -, -, -, hdigest, hpayload⟩ := readFramedRecord_eq_ok h
  have hbody := read_length hlen
  have hbody' := read_length hdigest
  have hrest := readBytes_length hpayload
  omega

end Stable

end LsmTree
