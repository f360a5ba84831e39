import WebSocket.Proofs.Connection.Agreement
import WebSocket.Proofs.Frame.Settling
import WebSocket.Proofs.Session.Chunks

/-!
# Connections fed in chunks

Feeding a connection chunk by chunk comes to the same as feeding it whole, in all that it holds and
in all that is seen of it. For what a session has, that is inherited from sessions; the decoder's
registers are, whatever the chunks, what the bytes that it has taken come to (`Tracks`).
-/

namespace WebSocket.Connection

structure Feeds where
  connection : Connection
  channel : Channel
  results : List Session.Result := []
  records : Array Record := #[]

/-- One feed after each chunk. -/
def feedAll (c : Connection) (ch : Channel) : List (List UInt8) → Feeds
  | [] => { connection := c, channel := ch }
  | chunk :: chunks =>
    let progress := c.feed (ch.receive chunk)
    let later := feedAll progress.connection progress.channel chunks
    { later with
      results := progress.result :: later.results
      records := progress.records ++ later.records }

/-! ## What is seen of a session -/

/-- The same feeds of a session. -/
structure Feeds.Matches (f : Feeds) (g : Session.Feeds) : Prop where
  carries : f.connection.Carries g.session
  channel : f.channel = g.channel
  results : f.results = g.results
  records : f.records = g.records

theorem Carries.feedAll {c : Connection} {s : Session} (h : c.Carries s) (ch : Channel)
    (chunks : List (List UInt8)) : (c.feedAll ch chunks).Matches (s.feedAll ch chunks) := by
  induction chunks generalizing c s ch with
  | nil => exact ⟨h, rfl, rfl, rfl⟩
  | cons chunk chunks ih =>
    have hfirst := h.feed (ch.receive chunk)
    have hlater := ih hfirst.carries (c.feed (ch.receive chunk)).channel
    rw [hfirst.channel] at hlater
    unfold Connection.feedAll Session.feedAll
    dsimp only
    rw [hfirst.channel, hfirst.result, hfirst.records, hlater.results, hlater.records]
    exact ⟨hlater.carries, hlater.channel, rfl, rfl⟩

/-! ## What the decoder holds -/

/-- Of the bytes that have been fed, the negotiation has taken the first ones and the decoder those
behind them, but for the unread ones at the end. -/
inductive Tracks (id : UInt32) (fed : List UInt8) (c : Connection) (unread : List UInt8) : Prop where
  | negotiating (hstatus : c.status = .idle ∨ c.status = .handshaking) (hdecoder : c.decoder = { id })
      (hverdict : (Negotiation.outcome {} fed).verdict = .pending)
      (hstate : (Negotiation.outcome {} fed).state = c.negotiation)
      (hunread : (Negotiation.outcome {} fed).unread = unread)
  | negotiated (taken : List UInt8) (hverdict : (Negotiation.outcome {} fed).verdict ≠ .pending)
      (hunread : (Negotiation.outcome {} fed).unread = taken ++ unread)
      (hdecoder : ({ id } : Registers).settle taken = c.decoder)
      (hstatus : c.status.isFinal = true ∨ c.status = .established ∧
        ∀ more, ({ id } : Registers).settle (taken ++ more) = c.decoder.settle more)

private theorem settle_fresh (id : UInt32) : ({ id } : Registers).settle [] = { id } :=
  Registers.settle_of_suspend rfl

private theorem tracks_fresh (id : UInt32) : Tracks id [] (({} : Connection).setId id) [] := by
  have houtcome : Negotiation.outcome {} [] = _ := Negotiation.outcome_tail List.not_mem_nil {}
  exact .negotiating (.inl rfl) rfl (by rw [houtcome]; rfl) (by rw [houtcome]; rfl)
    (by rw [houtcome]; rfl)

/-- The bytes that are unread tell which ones the decoder has taken. -/
theorem Tracks.decoder_eq {id : UInt32} {fed unread : List UInt8} {c d : Connection}
    (hc : Tracks id fed c unread) (hd : Tracks id fed d unread) : c.decoder = d.decoder := by
  have hsettle {e : Connection} (h : Tracks id fed e unread) :
      ∃ taken, (Negotiation.outcome {} fed).unread = taken ++ unread ∧
        ({ id } : Registers).settle taken = e.decoder := by
    cases h with
    | negotiating _ hdecoder _ _ hunread => exact ⟨[], hunread, hdecoder ▸ settle_fresh id⟩
    | negotiated taken _ hunread hdecoder _ => exact ⟨taken, hunread, hdecoder⟩
  obtain ⟨taken, hunread, hdecoder⟩ := hsettle hc
  obtain ⟨taken', hunread', hdecoder'⟩ := hsettle hd
  rw [hunread] at hunread'
  rw [← hdecoder, ← hdecoder', List.append_cancel_right hunread']

private theorem tracks_readFrames {id : UInt32} {fed taken bytes : List UInt8} {c : Connection}
    {r : FrameReader} (hholds : Registers.Holds id c.decoder r) (hstatus : c.status = .established)
    (hverdict : (Negotiation.outcome {} fed).verdict ≠ .pending)
    (hunread : (Negotiation.outcome {} fed).unread = taken ++ bytes)
    (hmore : ∀ more, ({ id } : Registers).settle (taken ++ more) = c.decoder.settle more)
    (sent : Array UInt8) (records : Array Record) (calls : Array Call) :
    let p := c.readFrames (.holding bytes sent) records calls
    Tracks id fed p.connection p.channel.inbox.bytes := by
  obtain ⟨now, hbytes, hsettle, hresume⟩ := hholds.decode_settles (.holding bytes sent)
  rw [Channel.bytes_holding] at hbytes
  have hnow : ({ id } : Registers).settle (taken ++ now) =
      (c.decoder.decode (.holding bytes sent)).1 := by rw [hmore, hsettle]
  rw [hbytes, ← List.append_assoc] at hunread
  unfold readFrames conclude
  dsimp only
  cases hpending : (c.decoder.decode (.holding bytes sent)).2.verdict with
  | pending =>
    refine .negotiated (taken ++ now) hverdict hunread hnow (.inr ⟨hstatus, ?_⟩)
    intro more
    rw [List.append_assoc, hmore, hresume hpending]
  | closed => exact .negotiated (taken ++ now) hverdict hunread hnow (.inl rfl)
  | fault error => exact .negotiated (taken ++ now) hverdict hunread hnow (.inl rfl)

private theorem tracks_negotiate {id : UInt32} {fed unread : List UInt8} {c : Connection}
    {r : FrameReader} (hholds : Registers.Holds id c.decoder r) (hdecoder : c.decoder = { id })
    (hverdict : (Negotiation.outcome {} fed).verdict = .pending)
    (hstate : (Negotiation.outcome {} fed).state = c.negotiation)
    (hunread : (Negotiation.outcome {} fed).unread = unread) (chunk : List UInt8)
    (sent : Array UInt8) :
    let p := c.negotiate (.holding (unread ++ chunk) sent)
    Tracks id (fed ++ chunk) p.connection p.channel.inbox.bytes := by
  -- The request goes on from where it was left.
  have houtcome := Negotiation.resumable.resume hverdict chunk
  rw [hstate, hunread] at houtcome
  obtain ⟨hstate', hunread', hverdict', -⟩ := Outcome.ext_iff.mp houtcome
  unfold negotiate
  dsimp only
  rw [Negotiation.advance_holding]
  dsimp only
  cases hnow : (c.negotiation.outcome (unread ++ chunk)).verdict with
  | pending => exact .negotiating (.inr rfl) hdecoder (hverdict'.trans hnow) hstate' hunread'
  | done =>
    have hstops : (Negotiation.outcome {} (fed ++ chunk)).verdict ≠ .pending := by
      rw [hverdict', Outcome.after, hnow]
      intro hpending
      cases hpending
    have hmore (more : List UInt8) :
        ({ id } : Registers).settle ([] ++ more) = c.decoder.settle more := by
      rw [hdecoder, List.nil_append]
    exact tracks_readFrames
      (c := { c with
        status := .established, negotiation := (c.negotiation.outcome (unread ++ chunk)).state })
      hholds rfl hstops (hunread'.trans (List.nil_append _).symm) hmore _ _ _
  | fault error =>
    have hstops : (Negotiation.outcome {} (fed ++ chunk)).verdict ≠ .pending := by
      rw [hverdict', Outcome.after, hnow]
      intro hpending
      cases hpending
    exact .negotiated [] hstops hunread' (hdecoder ▸ settle_fresh id) (.inl rfl)

private theorem Tracks.feed {id : UInt32} {fed unread : List UInt8} {c : Connection}
    (h : Tracks id fed c unread) {r : FrameReader} (hholds : Registers.Holds id c.decoder r)
    (chunk : List UInt8) (sent : Array UInt8) :
    let p := c.feed (.holding (unread ++ chunk) sent)
    Tracks id (fed ++ chunk) p.connection p.channel.inbox.bytes := by
  cases h with
  | negotiating hstatus hdecoder hverdict hstate hunread =>
    rw [feed_of_opening hstatus]
    exact tracks_negotiate hholds hdecoder hverdict hstate hunread chunk sent
  | negotiated taken hverdict hunread hdecoder hstatus =>
    have houtcome := Negotiation.resumable.stop hverdict chunk
    have hverdict' : (Negotiation.outcome {} (fed ++ chunk)).verdict ≠ .pending := by
      rw [houtcome]
      exact hverdict
    have hunread' : (Negotiation.outcome {} (fed ++ chunk)).unread = taken ++ (unread ++ chunk) := by
      rw [houtcome, Outcome.leaving, hunread, List.append_assoc]
    rcases hstatus with hfinal | ⟨hestablished, hmore⟩
    · rw [feed_of_final hfinal]
      exact .negotiated taken hverdict' hunread' hdecoder (.inl hfinal)
    · rw [feed_of_established hestablished]
      exact tracks_readFrames hholds hestablished hverdict' hunread' hmore _ _ _

private theorem Carries.channel_feed {c : Connection} {s : Session} (h : c.Carries s)
    (hvalid : s.received.Valid) (bytes : List UInt8) (sent : Array UInt8) :
    ∃ sent', (c.feed (.holding bytes sent)).channel =
      .holding (c.feed (.holding bytes sent)).channel.inbox.bytes sent' := by
  have hchannel := (h.feed (.holding bytes sent)).channel.trans
    (Session.feed_holding hvalid bytes sent).channel
  rw [hchannel]
  exact ⟨_, rfl⟩

private theorem Tracks.feedAll {id : UInt32} {fed unread : List UInt8} {c : Connection} {s : Session}
    (h : Tracks id fed c unread) (hcarries : c.Carries s) (hid : s.id = id)
    (hvalid : s.received.Valid) (sent : Array UInt8) (chunks : List (List UInt8)) :
    let run := c.feedAll (.holding unread sent) chunks
    Tracks id (fed ++ chunks.flatten) run.connection run.channel.inbox.bytes := by
  induction chunks generalizing fed unread c s sent with
  | nil =>
    rw [List.flatten_nil, List.append_nil]
    exact h
  | cons chunk chunks ih =>
    have hfeed := h.feed (hid ▸ hcarries.decoder) chunk sent
    have hnext := hcarries.feed (.holding (unread ++ chunk) sent)
    have hfollows := Session.feed_holding hvalid (unread ++ chunk) sent
    obtain ⟨sent', hchannel⟩ := hcarries.channel_feed hvalid (unread ++ chunk) sent
    have hlater := ih hfeed hnext.carries (hfollows.id.trans hid) hfollows.valid sent'
    rw [← hchannel] at hlater
    unfold Connection.feedAll
    rw [List.flatten_cons, ← List.append_assoc, Channel.receive_holding]
    exact hlater

/-- A stream comes to the same in any chunks: the connection with all that its decoder holds, what
is unread on either side, what is sent and what is logged are as after one feed, and so is the
result of the feed that ends it. -/
theorem feedAll_eq_feed (id : UInt32) (chunk : List UInt8) (chunks : List (List UInt8)) :
    let c : Connection := ({} : Connection).setId id
    let whole : Progress := c.feed (({} : Channel).receive (chunk :: chunks).flatten)
    let run : Feeds := c.feedAll {} (chunk :: chunks)
    run.connection.status = whole.connection.status ∧
      run.connection.negotiation = whole.connection.negotiation ∧
      run.connection.decoder = whole.connection.decoder ∧
      run.connection.id = whole.connection.id ∧
      run.connection.received.toList = whole.connection.received.toList ∧
      run.channel.inbox.bytes = whole.channel.inbox.bytes ∧
      run.channel.outgoing = whole.channel.outgoing ∧
      run.records = whole.records ∧
      Session.Splits whole.result run.results := by
  intro c whole run
  have hfresh : c.Carries { id } := carries_fresh.setId id
  have hvalid : ({ id } : Session).received.Valid := ByteQueue.valid_empty
  have hfeed : whole.Matches _ := hfresh.feed (({} : Channel).receive (chunk :: chunks).flatten)
  have hfeeds : run.Matches _ := hfresh.feedAll {} (chunk :: chunks)
  rw [Channel.receive_fresh] at hfeed
  rw [show ({} : Channel) = .holding [] from rfl] at hfeeds
  have hwhole := Session.feed_holding hvalid (chunk :: chunks).flatten #[]
  obtain ⟨hrun, hresults⟩ := Session.feedAll_spec chunks hvalid [] chunk #[]
  rw [List.nil_append] at hrun hresults
  have hcore := hrun.core.trans hwhole.core.symm
  have hid := hrun.id.trans hwhole.id.symm
  have hreceived := hrun.received.trans hwhole.received.symm
  have hchannel : run.channel = whole.channel := by
    rw [hfeeds.channel, hfeed.channel, hwhole.channel]
    exact hrun.channel
  have hrecords : run.records = whole.records := by
    rw [hfeeds.records, hfeed.records]
    exact Array.toList_inj.mp (hrun.records.trans hwhole.records.symm)
  refine ⟨?_, ?_, ?_, ?_, ?_, ?_, ?_, hrecords, ?_⟩
  · rw [hfeeds.carries.status, hfeed.carries.status]
    exact congrArg Session.Core.status hcore
  · rw [hfeeds.carries.negotiation, hfeed.carries.negotiation]
    exact congrArg Session.Core.negotiation hcore
  · -- The decoder is told from what was fed and what is unread.
    have hfirst := tracks_fresh id
    have htracks := hfirst.feed hfresh.decoder (chunk :: chunks).flatten #[]
    rw [List.nil_append, ← Channel.receive_fresh] at htracks
    have htracks' : Tracks id (chunk :: chunks).flatten run.connection run.channel.inbox.bytes :=
      hfirst.feedAll hfresh rfl hvalid #[] (chunk :: chunks)
    rw [hchannel] at htracks'
    exact htracks'.decoder_eq htracks
  · rw [hfeeds.carries.id, hfeed.carries.id]
    exact hid
  · rw [hfeeds.carries.received, hfeed.carries.received]
    exact hreceived
  · rw [hchannel]
  · rw [hchannel]
  · rw [hfeed.result, hwhole.result, hfeeds.results]
    exact hresults

end WebSocket.Connection
