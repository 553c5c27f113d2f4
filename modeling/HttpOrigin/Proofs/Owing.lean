import HttpOrigin.Proofs.Appending
import HttpOrigin.Proofs.Coherence

/-! What a connection owes its peer. Moving bytes out pays it off from the front, and each request
that is served adds its answer at the end. -/
namespace HttpOrigin.Client

variable {σ : Type}

def owed (c : Client) : Bytes := c.outbox.owed

structure Sound (c : Client) : Prop where
  paired : c.Paired
  input : c.input.WellFormed
  output : c.output.WellFormed
  flowing : ∀ stream, c.stream = some stream → stream.Flowing

theorem sound_fresh (fd : Fd) : Sound { fd } where
  paired := (coherent_fresh fd).paired
  input := ByteQueue.wellFormed_empty
  output := ByteQueue.wellFormed_empty
  flowing := fun _ hs => by cases hs

theorem owed_of_stream_none {c : Client} (hs : c.stream = none) : c.owed = c.output.toList := by
  rw [owed, outbox, Outbox.owed, Outbox.file, hs]
  exact List.append_nil _

theorem owed_of_stream_some {c : Client} {stream : FileStream} (hs : c.stream = some stream) :
    c.owed = c.output.toList ++ stream.remaining := by
  rw [owed, outbox, Outbox.owed, Outbox.file, hs]
  rfl

/-! ### Moving bytes -/

/-- A move of bytes fails after having paid a part, or pays and forgets nothing. -/
def Transfer.Pays (c : Client) (t : Transfer) : Prop :=
  (∃ e, t.result = .error e ∧ t.serves = false ∧ t.written <+: c.owed) ∨
    t.result = .ok () ∧ t.client.Sound ∧ t.written ++ t.client.owed = c.owed

theorem Sound.flush {c : Client} (hc : c.Sound) (script : List Acceptance) :
    (c.flush script).queue.WellFormed ∧
      (Acceptance.Gentle script → Acceptance.Gentle (c.flush script).unused ∧
        ∃ n, (c.flush script).result = .ok n) ∧
      (c.flush script).written ++ (c.flush script).queue.toList = c.output.toList := by
  rw [Client.flush]
  split
  · exact ⟨hc.output, fun hg => ⟨hg, 0, rfl⟩, rfl⟩
  · exact ByteQueue.send_conserves hc.output script

theorem Sound.transferIn {c : Client} (hc : c.Sound) (script : List Arrival) :
    (c.transferIn script).Pays c := by
  obtain ⟨-, ht⟩ | ⟨e, -, -, ht⟩ | ⟨receipt, -, -, ht⟩ := c.transferIn_cases script
  · rw [ht]
    exact .inr ⟨rfl, hc, rfl⟩
  · rw [ht]
    exact .inl ⟨_, rfl, rfl, List.nil_prefix⟩
  · rw [ht]
    have hqueue := (ByteQueue.receive_conserves hc.input script).1
    exact .inr ⟨rfl, ⟨hc.paired, hqueue, hc.output, hc.flowing⟩, rfl⟩

theorem Sound.transferStream {c : Client} {stream : FileStream} (hc : c.Sound)
    (hs : c.stream = some stream) (he : c.output.toList = []) (script : List Acceptance)
    (r : Readiness) :
    (c.transferStream stream script r).Pays c ∧
      (Acceptance.Gentle script → (c.transferStream stream script r).result = .ok ()) := by
  have hpaired := paired_transferStream hc.paired hs script r
  have howed : c.owed = stream.remaining := by rw [owed_of_stream_some hs, he, List.nil_append]
  obtain ⟨e, hr, hw, hharsh⟩ | ⟨hr, hkept, hw⟩ | ⟨hr, hw, hrest⟩ :=
    FileStream.step_cases (hc.flowing stream hs) r script
  · have ht : c.transferStream stream script r = ⟨.error (.ofTransport e),
        { c with stream := some (stream.step r script).stream }, [], false⟩ := by
      simp only [Client.transferStream, hr, hw]
    rw [ht]
    exact ⟨.inl ⟨_, rfl, rfl, List.nil_prefix⟩, fun hg => absurd hg hharsh⟩
  · have ht : c.transferStream stream script r = ⟨.ok (),
        { c with stream := some (stream.step r script).stream }, (stream.step r script).written,
        false⟩ := by
      simp only [Client.transferStream, hr]
    rw [ht] at hpaired ⊢
    refine ⟨.inr ⟨rfl, ⟨hpaired, hc.input, hc.output, ?_⟩, ?_⟩, fun _ => rfl⟩
    · rintro stream' ⟨⟩
      exact hkept
    · rw [owed_of_stream_some (c := { c with stream := some _ }) rfl, he, List.nil_append, hw,
        howed]
  · have ht : c.transferStream stream script r = ⟨.ok (),
        { c with stream := none, phase := .idle }, [], true⟩ := by
      simp only [Client.transferStream, hr, hw]
    rw [ht] at hpaired ⊢
    refine ⟨.inr ⟨rfl, ⟨hpaired, hc.input, hc.output, ?_⟩, ?_⟩, fun _ => rfl⟩
    · rintro stream' ⟨⟩
    · rw [owed_of_stream_none (c := { c with stream := none, phase := .idle }) rfl, he, howed,
        hrest]
      rfl

theorem append_owed {c : Client} {queue : ByteQueue} {written : Bytes}
    (hq : written ++ queue.toList = c.output.toList) :
    written ++ owed { c with output := queue } = c.owed := by
  rw [owed, outbox, Outbox.owed, ← List.append_assoc, hq]
  rfl

theorem Transfer.Pays.behind {c : Client} {t : Transfer} {queue : ByteQueue} {written : Bytes}
    (hp : t.Pays { c with output := queue }) (hq : written ++ queue.toList = c.output.toList) :
    (t.behind written).Pays c := by
  obtain ⟨e, hr, hserves, hw⟩ | ⟨hr, hsound, hw⟩ := hp
  · refine .inl ⟨e, hr, hserves, ?_⟩
    rw [← append_owed hq]
    exact (List.prefix_append_right_inj written).2 hw
  · refine .inr ⟨hr, hsound, ?_⟩
    rw [← append_owed hq, ← hw, ← List.append_assoc]
    rfl

theorem Sound.transferOut {c : Client} (hc : c.Sound) (script : List Acceptance) (r : Readiness) :
    (c.transferOut script r).Pays c ∧
      (Acceptance.Gentle script → (c.transferOut script r).result = .ok ()) := by
  obtain ⟨hqueue, hgentle, hflushed⟩ := hc.flush script
  have hmid : Sound { c with output := (c.flush script).queue } :=
    ⟨hc.paired, hc.input, hqueue, hc.flowing⟩
  have hpaid := append_owed hflushed
  obtain ⟨e, hr, ht⟩ | ⟨n, -, -, ht⟩ | ⟨n, stream, -, hs, hempty, ht⟩ :=
    c.transferOut_cases script r <;> rw [ht]
  · refine ⟨.inl ⟨_, rfl, rfl, ⟨_, hpaid⟩⟩, fun hg => ?_⟩
    obtain ⟨-, n, hok⟩ := hgentle hg
    rw [hr] at hok
    cases hok
  · exact ⟨.inr ⟨rfl, hmid, hpaid⟩, fun _ => rfl⟩
  · obtain ⟨hpays, hok⟩ := hmid.transferStream hs ((ByteQueue.isEmpty_iff hqueue).1 hempty)
      (c.flush script).unused r
    exact ⟨hpays.behind hflushed, fun hg => hok (hgentle hg).1⟩

theorem Sound.transfer {c : Client} (hc : c.Sound) (e : Event) : (c.transfer e).Pays c := by
  cases e with
  | readable now script => exact hc.transferIn script
  | writable now script r => exact (hc.transferOut script r).1

/-! ### Serving requests -/

theorem sound_refuse {c : Client} (hinput : c.input.WellFormed) (houtput : c.output.WellFormed)
    (now : Timestamp) (status : Status) : (c.refuse now status).Sound where
  paired := (coherent_refuse c now status).paired
  input := hinput
  output := houtput.appendAll _
  flowing := fun _ hs => by cases hs

theorem owed_refuse {c : Client} (houtput : c.output.WellFormed) (now : Timestamp)
    (status : Status) :
    (c.refuse now status).owed = c.output.toList ++ (Answer.error now status).flatten := by
  rw [owed_of_stream_none rfl]
  exact ByteQueue.toList_appendAll houtput _

section
variable {h : Responder σ} {now : Timestamp} {c : Client} {state : σ} {rest : Bytes} {r : Request}

theorem Sound.extends_respond (hc : c.Sound) (hs : c.Serving) (hh : h.AppendOnly)
    (now : Timestamp) (state : σ) (r : Request) :
    (c.respond h now state r).outbox.Extends c.output := by
  rw [respond, outbox, hc.paired.stream_none hs.1]
  exact hh r.method now r c.output state hc.output

theorem Sound.answered (hc : c.Sound) {outbox : Outbox} (he : outbox.Extends c.output)
    (rest : Bytes) : (c.answered rest outbox).Sound where
  paired := paired_of_phase rfl
  input := Exchange.wellFormed_leave hc.input rest
  output := he.wellFormed
  flowing := he.flowing

theorem owed_answered {outbox : Outbox} (he : outbox.Extends c.output) (rest : Bytes) :
    (c.answered rest outbox).owed = c.output.toList ++ (outbox.added c.output ++ outbox.file) :=
  he.owed_eq

/-- A declined request leaves nothing behind but the answer to the error. -/
theorem owed_declined {outbox : Outbox} (he : outbox.Extends c.output) (input : ByteQueue)
    (status : Status) :
    (refuse { c with input, output := outbox.output.truncate c.output.length } now status).owed
      = c.output.toList ++ (Answer.error now status).flatten := by
  rw [owed_refuse (he.wellFormed.truncate _), he.toList_truncate]

end

theorem Sound.serve {h : Responder σ} (hh : h.AppendOnly) (now : Timestamp) {c : Client} (state : σ)
    (hc : c.Sound) : (serve h now c state).1.Sound := by
  induction c, state using serve_induction h now with
  | stopped c state hs =>
    rw [serve_of_not_serving hs]
    exact hc
  | waiting c state stage rest hs ha =>
    rw [serve_of_waiting hs ha]
    exact ⟨hc.paired, Exchange.wellFormed_leave hc.input rest, hc.output, hc.flowing⟩
  | refused c state e rest hs ha =>
    rw [serve_of_refused hs ha]
    exact sound_refuse (Exchange.wellFormed_leave hc.input rest) (hc.output.truncate _) _ _
  | declined c state r rest status hs ha hr =>
    have he := hc.extends_respond hs hh now state r
    rw [serve_of_declined hs ha hr]
    exact sound_refuse (Exchange.wellFormed_leave hc.input rest) (he.wellFormed.truncate _) _ _
  | closing c state r rest hs ha hr hclose =>
    have he := hc.extends_respond hs hh now state r
    have hsound := hc.answered he rest
    rw [serve_of_closing hs ha hr hclose]
    exact ⟨hsound.paired, hsound.input, hsound.output, hsound.flowing⟩
  | keeping c state r rest hs ha hr hkeep ih =>
    have he := hc.extends_respond hs hh now state r
    rw [serve_of_keeping hs ha hr hkeep]
    exact ih (hc.answered he rest)

end HttpOrigin.Client
