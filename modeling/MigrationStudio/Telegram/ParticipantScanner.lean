import MigrationStudio.Members.People
import MigrationStudio.Storage.MemberStore

/-!
# `telegram/participant_scanner.py`

A scan reads the participants of a group page by page and ingests them into a dataset.  A producer
puts the pages into a bounded queue; a consumer drops the participants that it has seen, collects
the others in a batch and, when the batch is large enough or the pages are over, writes it in two
transactions: the ingest, and a checkpoint with the offset behind the last page of the batch.  The
process may stop between any two transactions; the application then marks the job as paused when it
starts again, and a new scan continues at the offset of the checkpoint.

* `Scan`, `ScanState`, `step`: the participants, the database and the running call, and its steps.
* `CallTransition`: the cases of a step of the running call.
* `CallGood`, `Good`: what is stored at every point; `good_of_run`.
* `scan_completes_exactly`: a scan that completes leaves the rows of an uninterrupted one.
-/

namespace MigrationStudio
namespace Telegram
namespace ParticipantScanner

open Foundations MigrationStudio.Core Members
open Members.MemberTables (HasPerson OnlyPeople)

/-! ## The scan -/

/-- `ScanCheckpoint`, without `cancelled`. -/
structure ScanCheckpoint where
  offset : ℕ := 0
  accepted : ℕ := 0
  invalid : ℕ := 0
  deriving DecidableEq, Repr

/-- An item of the queue: a `_PageEnvelope`, or the sentinel. -/
inductive QueueItem where
  | page (members : List Members.Member) (nextOffset : ℕ)
  | sentinel
  deriving DecidableEq, Repr

/-- Where the producer stands: waiting for a page, putting an item into the queue, or done. -/
inductive ProducerPoint where
  | fetching
  | putting (item : QueueItem)
  | ended
  deriving DecidableEq, Repr

/-- Where the consumer stands: waiting for an item, in `persist_batch` with the ingest or the
checkpoint submitted (`last` after the sentinel), or done. -/
inductive ConsumerPoint where
  | waiting
  | ingesting (last : Bool)
  | checkpointing (last : Bool)
  | returned
  deriving DecidableEq, Repr

/-- Where `scan` stands: before the state RUNNING is committed, in the task group, or with the final
state submitted. -/
inductive ScanPoint where
  | starting
  | scanning
  | finishing (final : JobState)
  deriving DecidableEq, Repr

/-- A call of `scan`. `cancelRequested` is its event, `cancelled` the flag of its checkpoint. -/
structure Call where
  point : ScanPoint
  cp : ScanCheckpoint
  cancelRequested : Bool
  cancelled : Bool
  producer : ProducerPoint
  offset : ℕ
  queue : List QueueItem
  consumer : ConsumerPoint
  seen : List ℤ
  batch : List Members.Member
  batchOffset : ℕ

/-- The row of the job, as far as a scan writes it. -/
structure ScanJob where
  state : JobState
  checkpoint : ScanCheckpoint
  deriving DecidableEq, Repr

/-- The database, and the call that runs, if any. -/
structure ScanState where
  tables : MemberTables
  job : ScanJob
  call : Option Call

/-- What a scan reads and where it writes it: the participants of the group, and the dataset, the
group, the account and the label of the ingests. -/
structure Scan where
  participants : List Members.Member
  into : IngestInto

/-- The steps of a scan and of its surroundings. -/
inductive ScanLabel where
  | start | resume | running
  | fetch (size : ℕ) | exhausted | put
  | take | ingest | checkpoint
  | finish | complete
  | cancel | fail | crash | normalize
  deriving DecidableEq, Repr

/-- The scan from a checkpoint on, before its first transaction. -/
def Call.begin (cp : ScanCheckpoint) : Call where
  point := .starting
  cp := cp
  cancelRequested := false
  cancelled := false
  producer := .fetching
  offset := cp.offset
  queue := []
  consumer := .waiting
  seen := []
  batch := []
  batchOffset := cp.offset

/-- A participant for the batch, unless it has been seen. -/
def addMember (s : List ℤ × List Members.Member) (m : Members.Member) :
    List ℤ × List Members.Member :=
  match m.telegramUserId with
  | none => (s.1, s.2 ++ [m])
  | some uid => if s.1.contains uid then s else (s.1 ++ [uid], s.2 ++ [m])

/-- The consumer after an item of the queue. -/
def Call.receive (c : Call) : QueueItem → Call
  | .sentinel =>
      { c with consumer := if c.batch = [] then .returned else .ingesting true }
  | .page members nextOffset =>
      let (seen, batch) := members.foldl addMember (c.seen, c.batch)
      { c with
        cancelled := c.cancelled || c.cancelRequested
        seen := seen
        batch := batch
        batchOffset := nextOffset
        consumer :=
          if SCAN_DB_BATCH_SIZE ≤ batch.length then .ingesting false else .waiting }

namespace ScanState

variable (sc : Scan)

/-- A step of the running call. -/
def callStep (s : ScanState) (c : Call) : ScanLabel → Option ScanState
  | .running =>
      if c.point = .starting then
        some { s with
          job := ⟨.running, { offset := c.cp.offset, accepted := c.cp.accepted }⟩
          call := some { c with point := .scanning } }
      else none
  | .fetch size =>
      if c.point = .scanning ∧ c.producer = .fetching then
        if c.cancelRequested then
          some { s with call := some { c with producer := .putting .sentinel } }
        else
          let page := (sc.participants.drop c.offset).take size
          some { s with
            call := some { c with
              offset := c.offset + page.length
              producer := .putting (.page page (c.offset + page.length)) } }
      else none
  | .exhausted =>
      if c.point = .scanning ∧ c.producer = .fetching ∧ sc.participants.length ≤ c.offset then
        some { s with call := some { c with producer := .putting .sentinel } }
      else none
  | .put =>
      match c.producer with
      | .putting item =>
          if c.queue.length < SCAN_PAGE_QUEUE_MAX then
            some { s with
              call := some { c with
                queue := c.queue ++ [item]
                producer := if item = .sentinel then .ended else .fetching } }
          else none
      | _ => none
  | .take =>
      match c.consumer, c.queue with
      | .waiting, item :: queue =>
          some { s with call := some (({ c with queue := queue } : Call).receive item) }
      | _, _ => none
  | .ingest =>
      match c.consumer, s.tables.submitIngestBatch sc.into c.batch with
      | .ingesting last, .ok (summary, t) =>
          some { s with
            tables := t
            call := some { c with
              cp := ⟨c.batchOffset, c.cp.accepted + summary.accepted,
                c.cp.invalid + summary.invalid⟩
              consumer := .checkpointing last } }
      | _, _ => none
  | .checkpoint =>
      match c.consumer with
      | .checkpointing last =>
          some { s with
            job := { s.job with checkpoint := c.cp }
            call := some { c with
              batch := []
              consumer := if last then .returned else .waiting } }
      | _ => none
  | .finish =>
      if c.point = .scanning ∧ c.producer = .ended ∧ c.consumer = .returned then
        some { s with
          call := some { c with
            cancelled := c.cancelled || c.cancelRequested
            point := .finishing
              (if c.cancelled || c.cancelRequested then .cancelled else .completed) } }
      else none
  | .complete =>
      match c.point with
      | .finishing final => some { s with job := ⟨final, c.cp⟩, call := none }
      | _ => none
  | .cancel => some { s with call := some { c with cancelRequested := true } }
  | .fail => some { s with job := ⟨.failed, c.cp⟩, call := none }
  | .crash => some { s with call := none }
  | .start | .resume | .normalize => none

/-- One step: of the running call, or, when none runs, the start of the scan, the restart of the
application and the continuation of a paused scan. -/
def step (s : ScanState) (l : ScanLabel) : Option ScanState :=
  match s.call, l with
  | some c, l => s.callStep sc c l
  | none, .start =>
      if s.job.state = .ready then some { s with call := some (Call.begin {}) } else none
  | none, .resume =>
      if s.job.state = .paused then some { s with call := some (Call.begin s.job.checkpoint) }
      else none
  | none, .normalize =>
      some (if s.job.state = .running then { s with job := { s.job with state := .paused } } else s)
  | none, _ => none

/-! ## The cases of a step -/

variable {sc}

/-- **What a step of the running call does**, and when. -/
inductive CallTransition (s : ScanState) (c : Call) : ScanLabel → ScanState → Prop
  | running (hpoint : c.point = .starting) :
      CallTransition s c .running { s with
        job := ⟨.running, { offset := c.cp.offset, accepted := c.cp.accepted }⟩
        call := some { c with point := .scanning } }
  | stopped {size : ℕ} (hpoint : c.point = .scanning) (hproducer : c.producer = .fetching)
      (hcancel : c.cancelRequested = true) :
      CallTransition s c (.fetch size)
        { s with call := some { c with producer := .putting .sentinel } }
  | fetched {size : ℕ} (hpoint : c.point = .scanning) (hproducer : c.producer = .fetching)
      (hcancel : c.cancelRequested = false) :
      CallTransition s c (.fetch size) { s with
        call := some { c with
          offset := c.offset + ((sc.participants.drop c.offset).take size).length
          producer := .putting (.page ((sc.participants.drop c.offset).take size)
            (c.offset + ((sc.participants.drop c.offset).take size).length)) } }
  | exhausted (hpoint : c.point = .scanning) (hproducer : c.producer = .fetching)
      (hlen : sc.participants.length ≤ c.offset) :
      CallTransition s c .exhausted
        { s with call := some { c with producer := .putting .sentinel } }
  | put {item : QueueItem} (hproducer : c.producer = .putting item)
      (hroom : c.queue.length < SCAN_PAGE_QUEUE_MAX) :
      CallTransition s c .put { s with
        call := some { c with
          queue := c.queue ++ [item]
          producer := if item = .sentinel then .ended else .fetching } }
  | take {item : QueueItem} {queue : List QueueItem} (hwait : c.consumer = .waiting)
      (hqueue : c.queue = item :: queue) :
      CallTransition s c .take
        { s with call := some (({ c with queue := queue } : Call).receive item) }
  | ingest {last : Bool} {summary : IngestSummary} {t : MemberTables}
      (hpoint : c.consumer = .ingesting last)
      (hrun : s.tables.submitIngestBatch sc.into c.batch = .ok (summary, t)) :
      CallTransition s c .ingest { s with
        tables := t
        call := some { c with
          cp := ⟨c.batchOffset, c.cp.accepted + summary.accepted, c.cp.invalid + summary.invalid⟩
          consumer := .checkpointing last } }
  | checkpoint {last : Bool} (hpoint : c.consumer = .checkpointing last) :
      CallTransition s c .checkpoint { s with
        job := { s.job with checkpoint := c.cp }
        call := some { c with
          batch := []
          consumer := if last then .returned else .waiting } }
  | finish (hpoint : c.point = .scanning) (hended : c.producer = .ended)
      (hreturned : c.consumer = .returned) :
      CallTransition s c .finish { s with
        call := some { c with
          cancelled := c.cancelled || c.cancelRequested
          point := .finishing
            (if c.cancelled || c.cancelRequested then .cancelled else .completed) } }
  | complete {final : JobState} (hpoint : c.point = .finishing final) :
      CallTransition s c .complete { s with job := ⟨final, c.cp⟩, call := none }
  | cancel : CallTransition s c .cancel { s with call := some { c with cancelRequested := true } }
  | fail : CallTransition s c .fail { s with job := ⟨.failed, c.cp⟩, call := none }
  | crash : CallTransition s c .crash { s with call := none }

theorem transition_of_callStep {s s' : ScanState} {c : Call} {l : ScanLabel}
    (h : s.callStep sc c l = some s') : @CallTransition sc s c l s' := by
  cases l with
  | start | resume | normalize => exact absurd h (by simp [callStep])
  | running =>
      simp only [callStep] at h
      split_ifs at h with hpoint
      exact Option.some.inj h ▸ .running hpoint
  | fetch size =>
      simp only [callStep] at h
      split_ifs at h with hpoint hcancel
      · exact Option.some.inj h ▸ .stopped hpoint.1 hpoint.2 hcancel
      · exact Option.some.inj h ▸ .fetched hpoint.1 hpoint.2 (Bool.eq_false_iff.mpr hcancel)
  | exhausted =>
      simp only [callStep] at h
      split_ifs at h with hpoint
      exact Option.some.inj h ▸ .exhausted hpoint.1 hpoint.2.1 hpoint.2.2
  | put =>
      simp only [callStep] at h
      split at h
      · rename_i item hproducer
        split at h
        · rename_i hroom
          exact Option.some.inj h ▸ .put hproducer hroom
        · exact absurd h (by simp)
      · exact absurd h (by simp)
  | take =>
      simp only [callStep] at h
      split at h
      · rename_i item queue hwait hqueue
        exact Option.some.inj h ▸ .take hwait hqueue
      · exact absurd h (by simp)
  | ingest =>
      simp only [callStep] at h
      split at h
      · rename_i last summary t hpoint hrun
        exact Option.some.inj h ▸ .ingest hpoint hrun
      · exact absurd h (by simp)
  | checkpoint =>
      simp only [callStep] at h
      split at h
      · rename_i last hpoint
        exact Option.some.inj h ▸ .checkpoint hpoint
      · exact absurd h (by simp)
  | finish =>
      simp only [callStep] at h
      split at h
      · rename_i hpoint
        exact Option.some.inj h ▸ .finish hpoint.1 hpoint.2.1 hpoint.2.2
      · exact absurd h (by simp)
  | complete =>
      simp only [callStep] at h
      split at h
      · rename_i final hpoint
        exact Option.some.inj h ▸ .complete hpoint
      · exact absurd h (by simp)
  | cancel => exact Option.some.inj h ▸ .cancel
  | fail => exact Option.some.inj h ▸ .fail
  | crash => exact Option.some.inj h ▸ .crash

theorem step_of_call {s : ScanState} {c : Call} (hcall : s.call = some c) (l : ScanLabel) :
    s.step sc l = s.callStep sc c l := by
  unfold step
  rw [hcall]

end ScanState

/-! ## What is stored -/

variable {sc : Scan} {s s' : ScanState} {c : Call} {t t' : MemberTables}

/-- The participants in front of an offset are in the dataset. -/
def Stored (sc : Scan) (t : MemberTables) (n : ℕ) : Prop :=
  ∀ m ∈ sc.participants.take n, ∀ x, m.telegramUserId = some x → HasPerson sc.into t x

/-- The person is in the dataset or in the batch. -/
def Taken (sc : Scan) (t : MemberTables) (batch : List Members.Member) (x : ℤ) : Prop :=
  HasPerson sc.into t x ∨ ∃ q ∈ batch, q.telegramUserId = some x

/-- The items are the pages from one offset to another, and behind them possibly the sentinel. -/
def Pages (participants : List Members.Member) : ℕ → List QueueItem → ℕ → Prop
  | a, [], z => a = z
  | a, .page members next :: items, z =>
      members = (participants.drop a).take members.length ∧ next = a + members.length ∧
        Pages participants next items z
  | a, .sentinel :: items, z => a = z ∧ items = []

/-- The item that the producer is putting into the queue. -/
def ProducerPoint.items : ProducerPoint → List QueueItem
  | .putting item => [item]
  | .fetching | .ended => []

/-- The consumer has got the sentinel. -/
def ConsumerPoint.past : ConsumerPoint → Bool
  | .ingesting last | .checkpointing last => last
  | .returned => true
  | .waiting => false

/-- A running call: everything in front of the offset of its checkpoint is stored, everything in
front of the offset of its batch is stored or in the batch, and the queue holds what the producer
has read beyond. -/
structure CallGood (sc : Scan) (t : MemberTables) (c : Call) : Prop where
  stored : Stored sc t c.cp.offset
  covered : ∀ m ∈ sc.participants.take c.batchOffset, ∀ x, m.telegramUserId = some x →
    Taken sc t c.batch x
  seen : ∀ x ∈ c.seen, Taken sc t c.batch x
  batch : ∀ m ∈ c.batch, m ∈ sc.participants
  pages : Pages sc.participants c.batchOffset (c.queue ++ c.producer.items) c.offset
  closing : c.producer ≠ .ended → .sentinel ∉ c.queue
  ended : c.producer = .ended ∨ c.producer = .putting .sentinel →
    c.cancelRequested ∨ sc.participants.length ≤ c.offset
  past : c.consumer.past = true → c.producer = .ended ∧ c.queue = []
  ingested : ∀ last, c.consumer = .checkpointing last →
    Stored sc t c.batchOffset ∧ c.cp.offset = c.batchOffset ∧
      ∀ q ∈ c.batch, ∀ x, q.telegramUserId = some x → HasPerson sc.into t x
  returned : c.consumer = .returned → Stored sc t c.batchOffset
  finishing : c.point = .finishing .completed → Stored sc t sc.participants.length

/-- The database of a scan, and its running call. -/
structure Good (sc : Scan) (s : ScanState) : Prop where
  sound : s.tables.Sound
  only : OnlyPeople sc.into s.tables (· ∈ sc.participants.filterMap Members.Member.telegramUserId)
  checkpoint : Stored sc s.tables s.job.checkpoint.offset
  completed : s.job.state = .completed → Stored sc s.tables sc.participants.length
  call : ∀ c, s.call = some c → CallGood sc s.tables c

theorem Stored.mono {n : ℕ} (h : Stored sc t n)
    (hkeep : ∀ x, HasPerson sc.into t x → HasPerson sc.into t' x) : Stored sc t' n :=
  fun m hm x hx => hkeep x (h m hm x hx)

theorem Stored.of_length_le {n k : ℕ} (h : Stored sc t n) (hle : sc.participants.length ≤ n) :
    Stored sc t k := by
  intro m hm x hx
  refine h m ?_ x hx
  rw [List.take_of_length_le hle]
  exact List.mem_of_mem_take hm

/-! ## The queue -/

theorem pages_snoc {participants : List Members.Member} {items : List QueueItem} {a z : ℕ}
    (h : Pages participants a items z) (hopen : .sentinel ∉ items) (size : ℕ) :
    Pages participants a
      (items ++ [.page ((participants.drop z).take size)
        (z + ((participants.drop z).take size).length)])
      (z + ((participants.drop z).take size).length) := by
  induction items generalizing a with
  | nil =>
      obtain rfl : a = z := h
      refine ⟨?_, rfl, rfl⟩
      rw [List.length_take, List.take_eq_take_iff]
      omega
  | cons item items ih =>
      cases item with
      | sentinel => exact absurd (List.mem_cons_self ..) hopen
      | page members next =>
          obtain ⟨hmembers, hnext, hrest⟩ := h
          exact ⟨hmembers, hnext, ih hrest fun hmem => hopen (List.mem_cons_of_mem _ hmem)⟩

theorem pages_snoc_sentinel {participants : List Members.Member} {items : List QueueItem}
    {a z : ℕ} (h : Pages participants a items z) (hopen : .sentinel ∉ items) :
    Pages participants a (items ++ [.sentinel]) z := by
  induction items generalizing a with
  | nil => exact ⟨h, rfl⟩
  | cons item items ih =>
      cases item with
      | sentinel => exact absurd (List.mem_cons_self ..) hopen
      | page members next =>
          obtain ⟨hmembers, hnext, hrest⟩ := h
          exact ⟨hmembers, hnext, ih hrest fun hmem => hopen (List.mem_cons_of_mem _ hmem)⟩

/-! ## The batch -/

/-- **What the consumer makes of a page**: every participant of it has been seen, and whoever has
been seen was seen before or is in the batch. -/
theorem foldl_addMember (page : List Members.Member) (seen : List ℤ)
    (batch : List Members.Member) :
    batch <+: (page.foldl addMember (seen, batch)).2 ∧
      (∀ x ∈ seen, x ∈ (page.foldl addMember (seen, batch)).1) ∧
      (∀ m ∈ page, ∀ x, m.telegramUserId = some x →
        x ∈ (page.foldl addMember (seen, batch)).1) ∧
      (∀ x ∈ (page.foldl addMember (seen, batch)).1, x ∈ seen ∨
        ∃ q ∈ (page.foldl addMember (seen, batch)).2, q.telegramUserId = some x) ∧
      ∀ q ∈ (page.foldl addMember (seen, batch)).2, q ∈ batch ∨ q ∈ page := by
  induction page generalizing seen batch with
  | nil =>
      exact ⟨List.prefix_rfl, fun _ hx => hx, fun m hm => absurd hm (by simp),
        fun _ hx => Or.inl hx, fun _ hq => Or.inl hq⟩
  | cons m page ih =>
      rw [List.foldl_cons]
      cases huid : m.telegramUserId with
      | none =>
          have hadd : addMember (seen, batch) m = (seen, batch ++ [m]) := by
            simp only [addMember, huid]
          rw [hadd]
          obtain ⟨hpre, hseen, hpage, hback, hbatch⟩ := ih seen (batch ++ [m])
          refine ⟨(List.prefix_append _ _).trans hpre, hseen, ?_, hback, ?_⟩
          · intro q hq x hx
            rcases List.mem_cons.mp hq with rfl | hq
            · rw [huid] at hx
              exact absurd hx (by simp)
            · exact hpage q hq x hx
          · intro q hq
            rcases hbatch q hq with hq | hq
            · rcases List.mem_append.mp hq with hq | hq
              · exact Or.inl hq
              · exact Or.inr (List.mem_singleton.mp hq ▸ List.mem_cons_self ..)
            · exact Or.inr (List.mem_cons_of_mem _ hq)
      | some uid =>
          by_cases hmem : uid ∈ seen
          · have hadd : addMember (seen, batch) m = (seen, batch) := by
              simp only [addMember, huid, List.contains_iff_mem.mpr hmem, if_true]
            rw [hadd]
            obtain ⟨hpre, hseen, hpage, hback, hbatch⟩ := ih seen batch
            refine ⟨hpre, hseen, ?_, hback, fun q hq => ?_⟩
            · intro q hq x hx
              rcases List.mem_cons.mp hq with rfl | hq
              · rw [huid, Option.some.injEq] at hx
                exact hseen x (hx ▸ hmem)
              · exact hpage q hq x hx
            · exact (hbatch q hq).imp_right (List.mem_cons_of_mem _)
          · have hadd : addMember (seen, batch) m = (seen ++ [uid], batch ++ [m]) := by
              have hnot : seen.contains uid = false := by
                rw [← Bool.not_eq_true, List.contains_iff_mem]
                exact hmem
              simp only [addMember, huid, hnot, Bool.false_eq_true, if_false]
            rw [hadd]
            obtain ⟨hpre, hseen, hpage, hback, hbatch⟩ := ih (seen ++ [uid]) (batch ++ [m])
            refine ⟨(List.prefix_append _ _).trans hpre,
              fun x hx => hseen x (List.mem_append_left _ hx), ?_, ?_, ?_⟩
            · intro q hq x hx
              rcases List.mem_cons.mp hq with rfl | hq
              · rw [huid, Option.some.injEq] at hx
                exact hseen x (List.mem_append_right _ (by simp [hx]))
              · exact hpage q hq x hx
            · intro x hx
              rcases hback x hx with hx | hx
              · rcases List.mem_append.mp hx with hx | hx
                · exact Or.inl hx
                · refine Or.inr ⟨m, hpre.subset (by simp), ?_⟩
                  rw [huid, List.mem_singleton.mp hx]
              · exact Or.inr hx
            · intro q hq
              rcases hbatch q hq with hq | hq
              · rcases List.mem_append.mp hq with hq | hq
                · exact Or.inl hq
                · exact Or.inr (List.mem_singleton.mp hq ▸ List.mem_cons_self ..)
              · exact Or.inr (List.mem_cons_of_mem _ hq)

/-! ## The steps of a call -/

theorem callGood_begin {cp : ScanCheckpoint} (h : Stored sc t cp.offset) :
    CallGood sc t (Call.begin cp) where
  stored := h
  covered := fun m hm x hx => Or.inl (h m hm x hx)
  seen := fun x hx => absurd hx (by simp [Call.begin])
  batch := fun m hm => absurd hm (by simp [Call.begin])
  pages := rfl
  closing := fun _ => by simp [Call.begin]
  ended := fun h => absurd h (by simp [Call.begin])
  past := fun h => absurd h (by simp [Call.begin, ConsumerPoint.past])
  ingested := fun last h => absurd h (by simp [Call.begin])
  returned := fun h => absurd h (by simp [Call.begin])
  finishing := fun h => absurd h (by simp [Call.begin])

/-- **The consumer takes an item.** -/
theorem CallGood.receive (h : CallGood sc t c) {item : QueueItem} {queue : List QueueItem}
    (hqueue : c.queue = item :: queue) :
    CallGood sc t (({ c with queue := queue } : Call).receive item) := by
  have hpages := h.pages
  rw [hqueue, List.cons_append] at hpages
  cases item with
  | sentinel =>
      obtain ⟨hoffset, hrest⟩ := hpages
      obtain ⟨rfl, hitems⟩ := List.append_eq_nil_iff.mp hrest
      have hended : c.producer = .ended := by
        by_contra hne
        exact h.closing hne (by rw [hqueue]; exact List.mem_cons_self ..)
      refine { h with
        pages := ?_
        closing := fun _ => by simp [Call.receive]
        past := fun _ => ⟨hended, rfl⟩
        ingested := fun last hpoint => ?_
        returned := fun hpoint m hm x hx => ?_ }
      · show Pages sc.participants c.batchOffset ([] ++ c.producer.items) c.offset
        rw [hitems]
        exact hoffset
      · simp only [Call.receive] at hpoint
        split_ifs at hpoint
      · have hempty : c.batch = [] := by
          by_contra hne
          simp only [Call.receive, if_neg hne] at hpoint
          exact absurd hpoint (by simp)
        rcases h.covered m hm x hx with hp | ⟨q, hq, -⟩
        · exact hp
        · rw [hempty] at hq
          exact absurd hq (by simp)
  | page members next =>
      obtain ⟨hmembers, hnext, hrest⟩ := hpages
      obtain ⟨hpre, hseen, hpage, hback, hbatch⟩ := foldl_addMember members c.seen c.batch
      have htaken : ∀ x, Taken sc t c.batch x →
          Taken sc t (members.foldl addMember (c.seen, c.batch)).2 x := by
        rintro x (hp | ⟨q, hq, hx⟩)
        · exact Or.inl hp
        · exact Or.inr ⟨q, hpre.subset hq, hx⟩
      have hseen' : ∀ x ∈ (members.foldl addMember (c.seen, c.batch)).1,
          Taken sc t (members.foldl addMember (c.seen, c.batch)).2 x := by
        intro x hx
        rcases hback x hx with hx | hq
        · exact htaken x (h.seen x hx)
        · exact Or.inr hq
      have hopen : ∀ queue' : List QueueItem, c.queue = .page members next :: queue' →
          c.producer ≠ .ended → .sentinel ∉ queue' := fun queue' hq hne hmem =>
        h.closing hne (by rw [hq]; exact List.mem_cons_of_mem _ hmem)
      refine {
        stored := h.stored
        covered := fun m hm x hx => ?_
        seen := hseen'
        batch := fun q hq => ?_
        pages := hrest
        closing := hopen queue hqueue
        ended := h.ended
        past := fun hpast => ?_
        ingested := fun last hpoint => ?_
        returned := fun hpoint => ?_
        finishing := h.finishing }
      · have hm' : m ∈ sc.participants.take c.batchOffset ∨ m ∈ members := by
          have hsplit : sc.participants.take next =
              sc.participants.take c.batchOffset ++ members := by
            rw [hnext, List.take_add, ← hmembers]
          exact List.mem_append.mp (hsplit ▸ hm)
        rcases hm' with hm' | hm'
        · exact htaken x (h.covered m hm' x hx)
        · exact hseen' x (hpage m hm' x hx)
      · rcases hbatch q hq with hq | hq
        · exact h.batch q hq
        · rw [hmembers] at hq
          exact List.mem_of_mem_drop (List.mem_of_mem_take hq)
      · simp only [Call.receive] at hpast
        split_ifs at hpast <;> exact absurd hpast (by simp [ConsumerPoint.past])
      · simp only [Call.receive] at hpoint
        split_ifs at hpoint
      · simp only [Call.receive] at hpoint
        split_ifs at hpoint

/-- **The consumer's ingest is committed.** -/
theorem CallGood.ingest (h : CallGood sc t c) {last : Bool} (hpoint : c.consumer = .ingesting last)
    (hkeep : ∀ x, HasPerson sc.into t x → HasPerson sc.into t' x)
    (hnew : ∀ q ∈ c.batch, ∀ x, q.telegramUserId = some x → HasPerson sc.into t' x)
    (accepted invalid : ℕ) :
    CallGood sc t' { c with
      cp := ⟨c.batchOffset, accepted, invalid⟩
      consumer := .checkpointing last } := by
  have htaken : ∀ x, Taken sc t c.batch x → HasPerson sc.into t' x := by
    rintro x (hp | ⟨q, hq, hx⟩)
    · exact hkeep x hp
    · exact hnew q hq x hx
  have hstored : Stored sc t' c.batchOffset := fun m hm x hx => htaken x (h.covered m hm x hx)
  exact {
    stored := hstored
    covered := fun m hm x hx => Or.inl (hstored m hm x hx)
    seen := fun x hx => Or.inl (htaken x (h.seen x hx))
    batch := h.batch
    pages := h.pages
    closing := h.closing
    ended := h.ended
    past := fun hpast => h.past (by rw [hpoint]; exact hpast)
    ingested := fun _ _ => ⟨hstored, rfl, hnew⟩
    returned := fun hret => absurd hret (by simp)
    finishing := fun hfin => (h.finishing hfin).mono hkeep }

/-- **The consumer's checkpoint is committed.** -/
theorem CallGood.checkpoint (h : CallGood sc t c) {last : Bool}
    (hpoint : c.consumer = .checkpointing last) :
    CallGood sc t { c with
      batch := []
      consumer := if last then .returned else .waiting } := by
  obtain ⟨hstored, -, hbatch⟩ := h.ingested last hpoint
  exact {
    stored := h.stored
    covered := fun m hm x hx => Or.inl (hstored m hm x hx)
    seen := fun x hx => by
      rcases h.seen x hx with hp | ⟨q, hq, hqx⟩
      · exact Or.inl hp
      · exact Or.inl (hbatch q hq x hqx)
    batch := fun m hm => absurd hm (by simp)
    pages := h.pages
    closing := h.closing
    ended := h.ended
    past := fun hpast => h.past (by
      rw [hpoint]
      cases last with
      | true => rfl
      | false => exact absurd hpast (by simp [ConsumerPoint.past]))
    ingested := fun l hl => by
      cases last <;> exact absurd hl (by simp)
    returned := fun _ => hstored
    finishing := h.finishing }

/-- **The producer has a page**, or has found the call cancelled. -/
theorem CallGood.fetch (h : CallGood sc t c) (hpoint : c.producer = .fetching) (size : ℕ) :
    CallGood sc t { c with
      offset := c.offset + ((sc.participants.drop c.offset).take size).length
      producer := .putting (.page ((sc.participants.drop c.offset).take size)
        (c.offset + ((sc.participants.drop c.offset).take size).length)) } := by
  have hpages := h.pages
  rw [hpoint, ProducerPoint.items, List.append_nil] at hpages
  have hopen := h.closing (by rw [hpoint]; simp)
  exact { h with
    pages := pages_snoc hpages hopen size
    closing := fun _ => hopen
    ended := fun hover => absurd hover (by simp)
    past := fun hpast => by
      obtain ⟨hended, -⟩ := h.past hpast
      rw [hpoint] at hended
      exact absurd hended (by simp) }

theorem CallGood.over_fetch (h : CallGood sc t c) (hpoint : c.producer = .fetching)
    (hover : c.cancelRequested ∨ sc.participants.length ≤ c.offset) :
    CallGood sc t { c with producer := .putting .sentinel } := by
  have hpages := h.pages
  rw [hpoint, ProducerPoint.items, List.append_nil] at hpages
  have hopen := h.closing (by rw [hpoint]; simp)
  exact { h with
    pages := pages_snoc_sentinel hpages hopen
    closing := fun _ => hopen
    ended := fun _ => hover
    past := fun hpast => by
      obtain ⟨hended, -⟩ := h.past hpast
      rw [hpoint] at hended
      exact absurd hended (by simp) }

/-- **The producer puts an item.** -/
theorem CallGood.put (h : CallGood sc t c) {item : QueueItem}
    (hpoint : c.producer = .putting item) :
    CallGood sc t { c with
      queue := c.queue ++ [item]
      producer := if item = .sentinel then .ended else .fetching } := by
  have hpages := h.pages
  rw [hpoint] at hpages
  have hopen := h.closing (by rw [hpoint]; simp)
  have hitems : (if item = .sentinel then ProducerPoint.ended else .fetching).items = [] := by
    split_ifs <;> rfl
  refine { h with
    pages := ?_
    closing := fun hne hmem => ?_
    ended := fun hover => ?_
    past := fun hpast => ?_ }
  · show Pages _ _ ((c.queue ++ [item]) ++ _) _
    rw [hitems, List.append_nil]
    exact hpages
  · rcases List.mem_append.mp hmem with hmem | hmem
    · exact hopen hmem
    · exact hne (if_pos (List.mem_singleton.mp hmem).symm)
  · refine h.ended (Or.inr ?_)
    rw [hpoint]
    by_cases hitem : item = .sentinel
    · rw [hitem]
    · simp only [if_neg hitem] at hover
      exact absurd hover (by simp)
  · obtain ⟨hended, -⟩ := h.past hpast
    rw [hpoint] at hended
    exact absurd hended (by simp)

/-- **The call is over**: if it completes, all participants are stored. -/
theorem CallGood.finish (h : CallGood sc t c) (hended : c.producer = .ended)
    (hret : c.consumer = .returned) :
    CallGood sc t { c with
      cancelled := c.cancelled || c.cancelRequested
      point := .finishing
        (if c.cancelled || c.cancelRequested then .cancelled else .completed) } := by
  refine { h with finishing := fun hfin => ?_ }
  have hnot : c.cancelRequested = false := by
    cases hcancel : c.cancelRequested with
    | false => rfl
    | true =>
        rw [hcancel, Bool.or_true] at hfin
        exact absurd hfin (by simp)
  have hlen : sc.participants.length ≤ c.offset := by
    rcases h.ended (Or.inl hended) with hcancel | hlen
    · rw [hnot] at hcancel
      exact absurd hcancel (by simp)
    · exact hlen
  have hoffset : c.batchOffset = c.offset := by
    have hpages := h.pages
    rw [hended, (h.past (by rw [hret]; rfl)).2] at hpages
    exact hpages
  exact (h.returned hret).of_length_le (hoffset ▸ hlen)

/-! ## The run -/

theorem CallGood.mono (h : CallGood sc t c)
    (hkeep : ∀ x, HasPerson sc.into t x → HasPerson sc.into t' x) : CallGood sc t' c := by
  have htaken : ∀ x, Taken sc t c.batch x → Taken sc t' c.batch x :=
    fun x hx => hx.imp_left (hkeep x)
  exact { h with
    stored := h.stored.mono hkeep
    covered := fun m hm x hx => htaken x (h.covered m hm x hx)
    seen := fun x hx => htaken x (h.seen x hx)
    ingested := fun last hpoint => by
      obtain ⟨hstored, hcp, hbatch⟩ := h.ingested last hpoint
      exact ⟨hstored.mono hkeep, hcp, fun q hq x hx => hkeep x (hbatch q hq x hx)⟩
    returned := fun hret => (h.returned hret).mono hkeep
    finishing := fun hfin => (h.finishing hfin).mono hkeep }

theorem Good.withCall (h : Good sc s) (hc : CallGood sc s.tables c) :
    Good sc { s with call := some c } where
  sound := h.sound
  only := h.only
  checkpoint := h.checkpoint
  completed := h.completed
  call := fun _ hc' => Option.some.inj hc' ▸ hc

/-- **A step of the running call.** -/
theorem Good.callStep (h : Good sc s) (hids : ∀ m ∈ sc.participants, m.telegramUserId.isSome)
    (hcall : s.call = some c) {l : ScanLabel} (hstep : s.callStep sc c l = some s') :
    Good sc s' := by
  have hc := h.call c hcall
  cases ScanState.transition_of_callStep hstep with
  | running hpoint =>
      refine ⟨h.sound, h.only, hc.stored, fun hstate => absurd hstate (by simp), ?_⟩
      rintro _ hc'
      obtain rfl := Option.some.inj hc'
      exact { hc with finishing := fun hfin => absurd hfin (by simp) }
  | stopped hpoint hproducer hcancel =>
      exact h.withCall (hc.over_fetch hproducer (Or.inl hcancel))
  | fetched hpoint hproducer hcancel => exact h.withCall (hc.fetch hproducer _)
  | exhausted hpoint hproducer hlen => exact h.withCall (hc.over_fetch hproducer (Or.inr hlen))
  | put hproducer hroom => exact h.withCall (hc.put hproducer)
  | take hwait hqueue => exact h.withCall (hc.receive hqueue)
  | ingest hpoint hrun =>
      obtain ⟨t₁, h₁, hturns, rfl⟩ := h.sound.submitIngestBatch_ok hrun
      obtain ⟨honly, hkeep, hnew⟩ := MemberTables.turns_people hturns h.sound h.only
        fun m hm => by
          obtain ⟨x, hx⟩ := Option.isSome_iff_exists.mp (hids m (hc.batch m hm))
          exact ⟨x, hx, List.mem_filterMap.mpr ⟨m, hc.batch m hm, hx⟩⟩
      exact {
        sound := h₁.setMemberCount _ _
        only := ⟨honly.memberships, honly.provenance⟩
        checkpoint := h.checkpoint.mono hkeep
        completed := fun hstate => (h.completed hstate).mono hkeep
        call := fun c' hc' => by
          obtain rfl := Option.some.inj hc'
          exact (hc.ingest hpoint hkeep hnew _ _).mono fun x hp => hp }
  | checkpoint hpoint =>
      exact {
        sound := h.sound
        only := h.only
        checkpoint := hc.stored
        completed := h.completed
        call := fun c' hc' => Option.some.inj hc' ▸ hc.checkpoint hpoint }
  | finish hpoint hended hreturned => exact h.withCall (hc.finish hended hreturned)
  | complete hpoint =>
      exact ⟨h.sound, h.only, hc.stored, fun hfinal => hc.finishing (by rw [hpoint, ← hfinal]),
        fun c' hc' => absurd hc' (by simp)⟩
  | cancel => exact h.withCall { hc with ended := fun _ => Or.inl rfl }
  | fail =>
      exact ⟨h.sound, h.only, hc.stored, fun hstate => absurd hstate (by simp),
        fun c' hc' => absurd hc' (by simp)⟩
  | crash =>
      exact ⟨h.sound, h.only, h.checkpoint, h.completed, fun c' hc' => absurd hc' (by simp)⟩

/-- **One step.** -/
theorem Good.step (h : Good sc s) (hids : ∀ m ∈ sc.participants, m.telegramUserId.isSome)
    {l : ScanLabel} (hstep : s.step sc l = some s') : Good sc s' := by
  unfold ScanState.step at hstep
  split at hstep
  · rename_i c hcall
    exact h.callStep hids hcall hstep
  · split_ifs at hstep
    obtain rfl := Option.some.inj hstep
    exact h.withCall (callGood_begin fun m hm => absurd hm (by simp))
  · split_ifs at hstep
    obtain rfl := Option.some.inj hstep
    exact h.withCall (callGood_begin h.checkpoint)
  · obtain rfl := Option.some.inj hstep
    split_ifs
    · exact ⟨h.sound, h.only, h.checkpoint, fun hstate => absurd hstate (by simp), h.call⟩
    · exact h
  · exact absurd hstep (by simp)

theorem good_of_run (h : Good sc s) (hids : ∀ m ∈ sc.participants, m.telegramUserId.isSome)
    {ls : List ScanLabel} (hrun : runLabels (ScanState.step sc) s ls = some s') : Good sc s' := by
  induction ls generalizing s with
  | nil => exact Option.some.inj hrun ▸ h
  | cons l ls ih =>
      obtain ⟨u, hu, hrest⟩ := runLabels_cons_eq_some.mp hrun
      exact ih (h.step hids hu) hrest

/-! ## The rows of a scan -/

/-- What `scan_source` prepares: the dataset and the job. -/
def scanSource (t : MemberTables) : ScanState where
  tables := t.createDataset
  job := ⟨.ready, {}⟩
  call := none

/-- A scan of the participants of a group into the dataset that `scan_source` creates. -/
def scanOf (t : MemberTables) (participants : List Members.Member) (group : Option GroupId)
    (account : AccountId) (label : Option String) : Scan where
  participants := participants
  into := ⟨t.datasets.length, group, some account, label⟩

theorem good_scanSource (h : t.Sound) (participants : List Members.Member)
    (group : Option GroupId) (account : AccountId) (label : Option String) :
    Good (scanOf t participants group account label) (scanSource t) where
  sound := h.createDataset
  only := by
    refine ⟨fun q hq hd => ?_, fun q hq hd => ?_⟩
    · have hlt : q.datasetId < t.datasets.length := of_decide_eq_true (h.membershipRefs q hq).1
      exact absurd hd (Nat.ne_of_lt hlt)
    · have hlt : q.datasetId < t.datasets.length := of_decide_eq_true (h.provenanceRefs q hq).1
      exact absurd hd (Nat.ne_of_lt hlt)
  checkpoint := fun m hm => absurd hm (by simp [scanSource])
  completed := fun hstate => absurd hstate (by simp [scanSource])
  call := fun c hc => absurd hc (by simp [scanSource])

/-- **A scan that completes** leaves each participant once in its dataset and once in the
provenance of its dataset, whatever the pages, and whatever stops and continuations it has been
through; in particular the rows of any scan that is never interrupted. -/
theorem scan_completes_exactly {pyLower : String → String} {store : List Storage.StoreLabel}
    {db : Storage.MemberStore}
    (hstore :
      runLabels (Storage.MemberStore.step pyLower) Storage.MemberStore.start store = some db)
    {participants : List Members.Member} (hids : ∀ m ∈ participants, m.telegramUserId.isSome)
    {group : Option GroupId} {account : AccountId} {label : Option String}
    {ls : List ScanLabel} {s : ScanState}
    (hrun : runLabels (ScanState.step (scanOf db.tables participants group account label))
      (scanSource db.tables) ls = some s) (hdone : s.job.state = .completed) :
    (s.tables.memberRows db.tables.datasets.length).Perm
        ((participants.filterMap Members.Member.telegramUserId).dedup.map fun x =>
          (some x, group)) ∧
      (s.tables.provenanceRows db.tables.datasets.length).Perm
        ((participants.filterMap Members.Member.telegramUserId).dedup.map fun x =>
          (some x, none, group, label)) ∧
      ∀ ls' u, ScanLabel.crash ∉ ls' →
        runLabels (ScanState.step (scanOf db.tables participants group account label))
          (scanSource db.tables) ls' = some u → u.job.state = .completed →
        (s.tables.memberRows db.tables.datasets.length).Perm
            (u.tables.memberRows db.tables.datasets.length) ∧
          (s.tables.provenanceRows db.tables.datasets.length).Perm
            (u.tables.provenanceRows db.tables.datasets.length) := by
  have hdb := (Storage.MemberStore.good_of_run Storage.MemberStore.good_start hstore).1.sound
  have hrows : ∀ {ls : List ScanLabel} {u : ScanState},
      runLabels (ScanState.step (scanOf db.tables participants group account label))
        (scanSource db.tables) ls = some u → u.job.state = .completed →
      (u.tables.memberRows db.tables.datasets.length).Perm
          ((participants.filterMap Members.Member.telegramUserId).dedup.map fun x =>
            (some x, group)) ∧
        (u.tables.provenanceRows db.tables.datasets.length).Perm
          ((participants.filterMap Members.Member.telegramUserId).dedup.map fun x =>
            (some x, none, group, label)) := by
    intro ls u hrun hdone
    have hgood := good_of_run (good_scanSource hdb participants group account label) hids hrun
    have hstored := hgood.completed hdone
    have hall : ∀ x ∈ participants.filterMap Members.Member.telegramUserId,
        HasPerson (scanOf db.tables participants group account label).into u.tables x := by
      intro x hx
      obtain ⟨m, hm, hmx⟩ := List.mem_filterMap.mp hx
      refine hstored m ?_ x hmx
      rw [List.take_length]
      exact hm
    exact ⟨MemberTables.memberRows_perm hgood.sound hgood.only hall,
      MemberTables.provenanceRows_perm hgood.sound hgood.only hall⟩
  obtain ⟨hmembers, hprovenance⟩ := hrows hrun hdone
  refine ⟨hmembers, hprovenance, fun ls' u _ hrun' hdone' => ?_⟩
  obtain ⟨hmembers', hprovenance'⟩ := hrows hrun' hdone'
  exact ⟨hmembers.trans hmembers'.symm, hprovenance.trans hprovenance'.symm⟩

/-- Two participants; the application stops after the ingest and before the checkpoint. -/
def stoppedAfterIngest : List ScanLabel :=
  [.start, .running, .fetch 1, .put, .take, .fetch 1, .put, .take, .exhausted, .put, .take, .ingest,
    .crash, .normalize, .resume, .running, .fetch 2, .put, .take, .exhausted, .put, .take, .ingest,
    .checkpoint, .finish, .complete]

theorem scan_completes_exactly_stopped :
    ∃ db s, runLabels (Storage.MemberStore.step id) Storage.MemberStore.start
        [.createAccount 1, .createGroup] = some db ∧
      runLabels (ScanState.step (scanOf db.tables
          [{ telegramUserId := some 5, accessHash := some 50 }, { telegramUserId := some 6 }]
          (some 0) 1 (some "source"))) (scanSource db.tables) stoppedAfterIngest = some s ∧
      (s.tables.memberRows 0).Perm [(some 5, some 0), (some 6, some 0)] := by
  obtain ⟨db, hdb⟩ : ∃ db, runLabels (Storage.MemberStore.step id) Storage.MemberStore.start
      [.createAccount 1, .createGroup] = some db := ⟨_, rfl⟩
  have hdone : (runLabels (ScanState.step (scanOf db.tables
      [{ telegramUserId := some 5, accessHash := some 50 }, { telegramUserId := some 6 }]
      (some 0) 1 (some "source"))) (scanSource db.tables) stoppedAfterIngest).map
      (fun s => s.job.state) = some .completed := by
    obtain rfl := Option.some.inj hdb
    decide +kernel
  obtain ⟨s, hs, hstate⟩ := Option.map_eq_some_iff.mp hdone
  have hrows := (scan_completes_exactly hdb (by decide) hs hstate).1
  obtain rfl := Option.some.inj hdb
  exact ⟨_, s, hdb, hs, hrows⟩

end ParticipantScanner
end Telegram
end MigrationStudio
