import WebSocket.Connection
import WebSocket.Proofs.Frame.Registers

/-!
# Connections and sessions agree

A connection whose decoder holds the state of a session's reader, under the same number, does what
the session does: in every feed, write and read, and in its log (`Carries.feed`). What the decoder's
registers hold beyond that state bears on none of it. Both copies of the number are set at once, and
nothing else sets either, so they are never apart.
-/

namespace WebSocket

namespace Registers

theorem Holds.setId {id : UInt32} {s : Registers} {r : FrameReader} (h : Holds id s r)
    (new : UInt32) : Holds new (s.setId new) r := by
  cases h with
  | header kind mask => exact .header kind mask
  | length16 purpose mask => exact .length16 purpose mask
  | length64 purpose mask => exact .length64 purpose mask
  | maskKey purpose length mask => exact .maskKey purpose length mask
  | payload p hecho => exact .payload p hecho
  | closed kind mask => exact .closed kind mask

theorem Holds.id_eq {id : UInt32} {s : Registers} {r : FrameReader} (h : Holds id s r) :
    s.id = id := by
  cases h <;> rfl

end Registers

namespace Connection

/-- The connection is the session, but that its decoder works in registers. -/
structure Carries (c : Connection) (s : Session) : Prop where
  id : c.id = s.id
  status : c.status = s.status
  negotiation : c.negotiation = s.negotiation
  decoder : Registers.Holds s.id c.decoder s.reader
  received : c.received = s.received

/-- Two feeds come to the same. -/
structure Progress.Matches (p : Progress) (q : Session.Progress) : Prop where
  carries : p.connection.Carries q.session
  channel : p.channel = q.channel
  result : p.result = q.result
  records : p.records = q.records
  calls : p.calls = q.calls

theorem carries_fresh : Carries {} {} :=
  ⟨rfl, rfl, rfl, .header _ _, rfl⟩

variable {c : Connection} {s : Session}

/-- The decoder's copy of the number is in step. -/
theorem Carries.decoder_id (h : c.Carries s) : c.decoder.id = c.id :=
  h.decoder.id_eq.trans h.id.symm

theorem Carries.record_eq (h : c.Carries s) (notices : Array Notice) :
    c.record notices = s.record notices := by
  rw [record, h.id, Session.record]

theorem Carries.decoder_record_eq (h : c.Carries s) (notices : Array Notice) :
    c.decoder.record notices = s.record notices := by
  rw [Registers.record, h.decoder.id_eq, Session.record]

private theorem record_push (s : Session) (notices : Array Notice) (notice : Notice) :
    s.record (notices.push notice) = s.record notices ++ s.record #[notice] := by
  simp [Session.record]

private theorem Carries.fail (h : c.Carries s) (error : SessionError) (ch : Channel)
    (before : Trace) :
    (c.fail error ch (s.record before.notices) before.calls).Matches (s.fail error ch before) := by
  refine ⟨⟨h.id, rfl, h.negotiation, h.decoder, h.received⟩, rfl, rfl, ?_, rfl⟩
  rw [Connection.fail, Session.fail, record_push, h.record_eq]

private theorem Carries.readFrames (h : c.Carries s) (ch : Channel) (before : Trace) :
    (c.readFrames ch (s.record before.notices) before.calls).Matches (s.readFrames ch before) := by
  obtain ⟨hholds, hwork⟩ := Registers.holds_decode h.decoder ch
  have hverdict := congrArg Work.verdict hwork
  have hchannel : (c.decoder.decode ch).2.channel = (s.reader.decode ch).channel :=
    congrArg Work.channel hwork
  have hdelivered : (c.decoder.decode ch).2.delivered = (s.reader.decode ch).delivered :=
    congrArg Work.delivered hwork
  have htrace : (c.decoder.decode ch).2.trace = (s.reader.decode ch).trace :=
    congrArg Work.trace hwork
  have hrecords : s.record before.notices ++ s.record (s.reader.decode ch).trace.notices =
      s.record (before ++ (s.reader.decode ch).trace).notices := by
    simp [Session.record]
  have hlater : Carries
      { c with
        decoder := (c.decoder.decode ch).1
        received := s.received.appendAll (s.reader.decode ch).delivered }
      { s with
        reader := (s.reader.decode ch).reader
        received := s.received.appendAll (s.reader.decode ch).delivered } :=
    ⟨h.id, h.status, h.negotiation, hholds, rfl⟩
  unfold Connection.readFrames conclude Session.readFrames
  dsimp only
  rw [h.decoder_record_eq, h.received, hdelivered, hchannel, htrace, hrecords,
    show (c.decoder.decode ch).2.verdict = (s.reader.decode ch).verdict from hverdict]
  cases (s.reader.decode ch).verdict with
  | pending => exact ⟨hlater, rfl, congrArg Except.ok h.status, rfl, rfl⟩
  | closed =>
    refine ⟨⟨h.id, rfl, h.negotiation, hholds, rfl⟩, rfl, rfl, ?_, rfl⟩
    rw [hlater.record_eq]
    exact (record_push s _ _).symm
  | fault error => exact hlater.fail (.frame error) _ (before ++ (s.reader.decode ch).trace)

private theorem Carries.negotiate (h : c.Carries s) (ch : Channel) :
    (c.negotiate ch).Matches (s.negotiate ch) := by
  have hlater (status : Status) : Carries
      { c with status, negotiation := (s.negotiation.advance ch).negotiation }
      { s with status, negotiation := (s.negotiation.advance ch).negotiation } :=
    ⟨h.id, rfl, rfl, h.decoder, h.received⟩
  unfold Connection.negotiate Session.negotiate
  dsimp only
  rw [h.negotiation, (hlater .handshaking).record_eq, (hlater .handshaking).record_eq]
  cases (s.negotiation.advance ch).verdict with
  | pending => exact ⟨hlater .handshaking, rfl, rfl, rfl, rfl⟩
  | done =>
    have hreads := (hlater .established).readFrames (s.negotiation.advance ch).channel
      ((s.negotiation.advance ch).trace ++ { notices := #[.handshakeComplete] })
    simpa [Session.record] using hreads
  | fault error =>
    exact (hlater .handshaking).fail (.handshake error) _ (s.negotiation.advance ch).trace

/-- Feeding agrees, and goes on agreeing. -/
theorem Carries.feed (h : c.Carries s) (ch : Channel) : (c.feed ch).Matches (s.feed ch) := by
  unfold Connection.feed Session.feed
  rw [h.status]
  cases hstatus : s.status with
  | idle | handshaking => exact h.negotiate ch
  | established => simpa [Session.record] using h.readFrames ch {}
  | closed | failed => exact ⟨h, rfl, rfl, rfl, rfl⟩

theorem Carries.write (h : c.Carries s) (ch : Channel) (payload : List UInt8) :
    c.write ch payload = s.write ch payload := by
  unfold Connection.write Session.write
  rw [h.status, h.record_eq, h.record_eq]

theorem Carries.read (h : c.Carries s) (n : Nat) :
    (c.read n).1 = (s.read n).1 ∧ (c.read n).2.Carries (s.read n).2 := by
  unfold Connection.read Session.read
  rw [h.received]
  exact ⟨rfl, h.id, h.status, h.negotiation, h.decoder, rfl⟩

theorem Carries.readInto (h : c.Carries s) (buffer : List UInt8) :
    (c.readInto buffer).1 = (s.readInto buffer).1 ∧
      (c.readInto buffer).2.1 = (s.readInto buffer).2.1 ∧
      (c.readInto buffer).2.2.Carries (s.readInto buffer).2.2 := by
  unfold Connection.readInto Session.readInto
  rw [h.received]
  exact ⟨rfl, rfl, h.id, h.status, h.negotiation, h.decoder, rfl⟩

theorem Carries.available (h : c.Carries s) : c.available = s.available :=
  congrArg ByteQueue.size h.received

/-- Both copies of the number are set. -/
theorem Carries.setId (h : c.Carries s) (id : UInt32) : (c.setId id).Carries { s with id } :=
  ⟨rfl, h.status, h.negotiation, h.decoder.setId id, h.received⟩

end Connection

end WebSocket
