import HttpOrigin.Proofs.Conservation
import HttpOrigin.Proofs.Exchange
import HttpOrigin.Site.Responder

/-! Responders that only add: to the end of the output, and at most a file where there was none. -/
namespace HttpOrigin

variable {σ : Type}

theorem ByteQueue.toList_truncate_of_prefix {before after : ByteQueue}
    (h : before.toList <+: after.toList) :
    (after.truncate before.length).toList = before.toList := by
  rw [toList_truncate, ← length_toList]
  exact (List.prefix_iff_eq_take.1 h).symm

namespace Outbox

def file (o : Outbox) : Bytes := o.stream.elim [] FileStream.remaining

def owed (o : Outbox) : Bytes := o.output.toList ++ o.file

/-- Bytes were added behind `output`, and any file can be read to its end. -/
structure Extends (output : ByteQueue) (o : Outbox) : Prop where
  wellFormed : o.output.WellFormed
  kept : output.toList <+: o.output.toList
  flowing : ∀ stream, o.stream = some stream → stream.Flowing

def added (output : ByteQueue) (o : Outbox) : Bytes := o.output.toList.drop output.length

theorem Extends.toList_output {output : ByteQueue} {o : Outbox} (he : o.Extends output) :
    o.output.toList = output.toList ++ o.added output := by
  obtain ⟨more, hmore⟩ := he.kept
  rw [added, ← hmore, ← ByteQueue.length_toList, List.drop_left]

theorem Extends.owed_eq {output : ByteQueue} {o : Outbox} (he : o.Extends output) :
    o.owed = output.toList ++ (o.added output ++ o.file) := by
  rw [owed, he.toList_output, List.append_assoc]

/-- What was added is taken back by truncation. -/
theorem Extends.toList_truncate {output : ByteQueue} {o : Outbox} (he : o.Extends output) :
    (o.output.truncate output.length).toList = output.toList :=
  ByteQueue.toList_truncate_of_prefix he.kept

theorem extends_self {output : ByteQueue} (hw : output.WellFormed) :
    Extends output ⟨output, none⟩ :=
  ⟨hw, List.prefix_rfl, fun _ hs => by cases hs⟩

theorem added_self (output : ByteQueue) : added output ⟨output, none⟩ = [] := by
  rw [added, ← ByteQueue.length_toList, List.drop_length]

theorem added_appendAll {output : ByteQueue} (hw : output.WellFormed) (pieces : List Bytes)
    (stream : Option FileStream) :
    added output ⟨output.appendAll pieces, stream⟩ = pieces.flatten := by
  rw [added, ByteQueue.toList_appendAll hw, ← ByteQueue.length_toList, List.drop_left]

end Outbox

namespace Responder

def AppendOnly (h : Responder σ) : Prop :=
  ∀ m now r output state, output.WellFormed →
    (h.forMethod m now r ⟨output, none⟩ state).outbox.Extends output

/-- Besides, what it adds and how it goes on do not depend on the output. -/
structure Blind (h : Responder σ) : Prop where
  appendOnly : h.AppendOnly
  same : ∀ m now r output state, output.WellFormed →
    let responded := h.forMethod m now r ⟨output, none⟩ state
    let alone := h.forMethod m now r ⟨.empty, none⟩ state
    responded.result = alone.result ∧ responded.state = alone.state ∧
      responded.outbox.added output = alone.outbox.added .empty ∧
      responded.outbox.stream = alone.outbox.stream

theorem AppendOnly.noted {α : Type} {h : Responder σ} (hh : h.AppendOnly)
    (note : Method → Timestamp → Request → Outbox → Responded σ → α) :
    (h.noted note).AppendOnly := by
  intro m now r output s hw
  rw [forMethod_noted]
  exact hh m now r output s.1 hw

theorem Blind.recorded {h : Responder σ} (hh : h.Blind) : h.recorded.Blind where
  appendOnly := hh.appendOnly.noted _
  same := by
    intro m now r output s hw
    obtain ⟨hresult, hstate, hadded, hstream⟩ := hh.same m now r output s.1 hw
    rw [Responder.recorded, forMethod_noted, forMethod_noted]
    exact ⟨hresult, congrArg (·, s.2 ++ [(m, r)]) hstate, hadded, hstream⟩

end Responder

/-! ### The responder of a site -/

namespace FileStream

theorem flowing_ofBytes (fd : Fd) (content : Bytes) : (ofBytes fd content).Flowing := by
  refine ⟨_, rfl, ?_⟩
  intro a ha
  obtain rfl | ha := List.mem_cons.1 ha
  · rfl
  · cases List.mem_singleton.1 ha
    rfl

end FileStream

namespace Site

theorem extends_respond (s : Site) (withBody : Bool) (now : Timestamp) (r : Request)
    {output : ByteQueue} (hw : output.WellFormed) (opens : List Fd) :
    (s.respond withBody now r ⟨output, none⟩ opens).outbox.Extends output := by
  cases hfind : s.find r.uri with
  | error status =>
    rw [respond_of_error withBody now _ hfind]
    exact Outbox.extends_self hw
  | ok found =>
    cases hopen : found.file.open? opens with
    | none =>
      rw [respond_of_unopened withBody now _ hfind hopen]
      exact Outbox.extends_self hw
    | some opened =>
      rw [respond_of_opened withBody now _ hfind hopen]
      refine ⟨hw.appendAll _, ?_, ?_⟩
      · rw [ByteQueue.toList_appendAll hw]
        exact List.prefix_append _ _
      · intro stream hs
        cases withBody with
        | false => cases hs
        | true =>
          cases hs
          exact FileStream.flowing_ofBytes opened.1 found.file.content

theorem same_respond (s : Site) (withBody : Bool) (now : Timestamp) (r : Request)
    {output : ByteQueue} (hw : output.WellFormed) (opens : List Fd) :
    let responded := s.respond withBody now r ⟨output, none⟩ opens
    let alone := s.respond withBody now r ⟨.empty, none⟩ opens
    responded.result = alone.result ∧ responded.state = alone.state ∧
      responded.outbox.added output = alone.outbox.added .empty ∧
      responded.outbox.stream = alone.outbox.stream := by
  have hnothing : Outbox.added output ⟨output, none⟩ = Outbox.added .empty ⟨.empty, none⟩ := by
    rw [Outbox.added_self, Outbox.added_self]
  cases hfind : s.find r.uri with
  | error status =>
    rw [respond_of_error withBody now _ hfind, respond_of_error withBody now _ hfind]
    exact ⟨rfl, rfl, hnothing, rfl⟩
  | ok found =>
    cases hopen : found.file.open? opens with
    | none =>
      rw [respond_of_unopened withBody now _ hfind hopen,
        respond_of_unopened withBody now _ hfind hopen]
      exact ⟨rfl, rfl, hnothing, rfl⟩
    | some opened =>
      rw [respond_of_opened withBody now _ hfind hopen,
        respond_of_opened withBody now _ hfind hopen]
      refine ⟨rfl, rfl, ?_, rfl⟩
      dsimp only
      rw [Outbox.added_appendAll hw, Outbox.added_appendAll ByteQueue.wellFormed_empty]

/-- A site answers every request the same way behind whatever output. -/
theorem blind_responder (s : Site) : s.responder.Blind where
  appendOnly := by
    intro m now r output opens hw
    cases m with
    | get => exact s.extends_respond true now r hw opens
    | head => exact s.extends_respond false now r hw opens
    | post => exact Outbox.extends_self hw
  same := by
    intro m now r output opens hw
    cases m with
    | get => exact s.same_respond true now r hw opens
    | head => exact s.same_respond false now r hw opens
    | post =>
      refine ⟨rfl, rfl, ?_, rfl⟩
      change Outbox.added output ⟨output, none⟩ = Outbox.added .empty ⟨.empty, none⟩
      rw [Outbox.added_self, Outbox.added_self]

section
variable (s : Site) (now : Timestamp) (r : Request) (outbox : Outbox)

theorem respond_suffix (withBody : Bool) (opens : List Fd) :
    (s.respond withBody now r outbox opens).state <:+ opens := by
  cases hfind : s.find r.uri with
  | error status =>
    simp only [respond_of_error withBody now outbox hfind, List.suffix_rfl]
  | ok found =>
    cases hopen : found.file.open? opens with
    | none =>
      simp only [respond_of_unopened withBody now outbox hfind hopen, List.suffix_rfl]
    | some opened =>
      obtain ⟨-, rfl⟩ := File.open?_eq_some_iff.1 hopen
      rw [respond_of_opened withBody now outbox hfind hopen]
      exact List.suffix_cons opened.1 opened.2

/-- Numbers are taken from the front. -/
theorem forMethod_suffix (m : Method) (opens : List Fd) :
    (s.responder.forMethod m now r outbox opens).state <:+ opens := by
  cases m with
  | get => exact s.respond_suffix now r outbox true opens
  | head => exact s.respond_suffix now r outbox false opens
  | post => exact List.suffix_rfl

end

def onePage : Site where
  root := some (.directory [(indexName, .file ⟨Text.encode "hello", some .epoch, true⟩)])

end Site

end HttpOrigin
