import Mathlib.Algebra.GroupWithZero.Nat
import MigrationStudio.Members.Orders
import MigrationStudio.Telegram.ScanBatches

/-!
# A scan whose source fails

The participant source yields some pages and then raises.  The producer still puts the sentinel into
the queue, so that the consumer can drain it, and then ends with the exception; and because it ends
so, the task group cancels the consumer wherever it stands.  A write that the consumer has submitted
is still committed, but nobody reads its result.  The pages in the queue and the batch in memory are
gone, and the job fails with the checkpoint of the last batch whose ingest the consumer has seen.

So a failed scan has stored the pages and says so in its checkpoint exactly when the consumer has
read back the ingest of every batch that the pages make before it is cancelled, and the pages do not
end, behind the last of these batches, with participants who have been seen.

* `FailingSource`, `FailingScan.step`: the pages, and the scan over them up to the failed job.
* `Persisted`: a participant is in the dataset, under the identity that it has by now.
* `CallKept`, `Kept`: what is persisted at every point; `kept_of_run`.
* `PacedCall`, `Paced`: how far the consumer has come in the batches; `paced_of_run`.
* `failed_scan_iff`: what a failed scan leaves.
-/

namespace MigrationStudio
namespace Members
namespace MemberTables

open Foundations MigrationStudio.Core Telegram

variable {t t' : MemberTables} {m : Member} {ms ps : List Member} {b : IngestInto} {d : DatasetId}
  {k j : Identity}

/-! ## Who is persisted -/

/-- The identity is the same, or the Telegram id that a member of the list has given to it. -/
def Renamed (ps : List Member) (k j : Identity) : Prop := j = k ∨ ∃ m ∈ ps, j = renames m k

/-- A person is in the dataset, under the identity or what the members of the list have made of
it. -/
def PersistedAs (ps : List Member) (t : MemberTables) (d : DatasetId) (k : Identity) : Prop :=
  ∃ j, Renamed ps k j ∧ t.HasIdentity d j

/-- The member is in the dataset.  A member without Telegram id and username never is. -/
def Persisted (ps : List Member) (t : MemberTables) (d : DatasetId) (m : Member) : Prop :=
  ∃ k, identityOf m = some k ∧ PersistedAs ps t d k

theorem Renamed.renames (h : Renamed ps k j) (hm : m ∈ ps) : Renamed ps k (renames m j) := by
  rcases h with rfl | ⟨q, hq, rfl⟩
  · exact Or.inr ⟨m, hm, rfl⟩
  · cases k with
    | inl x => exact Or.inl rfl
    | inr k =>
        by_cases hclaim : Names q k ∧ q.telegramUserId.isSome
        · obtain ⟨hn, hsome⟩ := hclaim
          obtain ⟨x, hx⟩ := Option.isSome_iff_exists.mp hsome
          refine Or.inr ⟨q, hq, ?_⟩
          rw [renames_claimed hx hn]
          rfl
        · rw [renames_unclaimed hclaim]
          exact Or.inr ⟨m, hm, rfl⟩

/-- **A batch** of members of the list persists them and keeps who is persisted. -/
theorem turns_persist (hturns : Turns b t ms t') (h : t.Sound) (hms : ∀ m ∈ ms, m ∈ ps) :
    (∀ k, PersistedAs ps t b.datasetId k → PersistedAs ps t' b.datasetId k) ∧
      ∀ m ∈ ms, ∀ k, identityOf m = some k → PersistedAs ps t' b.datasetId k := by
  have hupsert : ∀ {t t₁ : MemberTables} {m : Member} {i : Option MemberId}, Upsert t m i t₁ →
      t.Sound → m ∈ ps → ∀ k, PersistedAs ps t b.datasetId k →
        PersistedAs ps t₁ b.datasetId k := by
    rintro t t₁ m i hup h hm k ⟨j, hren, hj⟩
    exact ⟨_, hren.renames hm, hup.hasIdentity h hj⟩
  induction hturns with
  | nil t => exact ⟨fun _ hp => hp, fun m hm => absurd hm (by simp)⟩
  | @skipped t t₁ t' m ms hup _ ih =>
      obtain ⟨hkeep, hnew⟩ := ih (h.upsert hup) fun q hq => hms q (List.mem_cons_of_mem _ hq)
      refine ⟨fun k hp => hkeep k (hupsert hup h (hms m (List.mem_cons_self ..)) k hp), ?_⟩
      intro q hq k hk
      rcases List.mem_cons.mp hq with rfl | hq
      · cases hup with
        | invalid hnone hu => simp [identityOf, hnone, hu] at hk
      · exact hnew q hq k hk
  | @taken t t₁ t' m ms id hup hsound _ ih =>
      obtain ⟨hkeep, hnew⟩ := ih hsound fun q hq => hms q (List.mem_cons_of_mem _ hq)
      refine ⟨fun k hp => hkeep k ?_, fun q hq k hk => ?_⟩
      · obtain ⟨j, hren, hj⟩ := hupsert hup h (hms m (List.mem_cons_self ..)) k hp
        exact ⟨j, hren, hj.attached id m⟩
      · rcases List.mem_cons.mp hq with rfl | hq
        · obtain ⟨r, hr, hid, hident, -⟩ := hup.returned_identity h
          exact hkeep k ⟨k, Or.inl rfl, r, hr, inDataset_attached.mpr (Or.inr ⟨rfl, hid⟩),
            hident.trans hk⟩
        · exact hnew q hq k hk

end MemberTables
end Members

namespace Telegram
namespace ParticipantScanner

open Foundations MigrationStudio.Core Members
open Members.MemberTables (HasPerson Persisted PersistedAs)

/-! ## The scan -/

/-- What the source yields before it raises, and where the scan writes it. -/
structure FailingSource where
  pages : List (List Members.Member)
  into : IngestInto

/-- The scan of everything that the source yields. -/
def FailingSource.scan (f : FailingSource) : Scan := ⟨f.pages.flatten, f.into⟩

/-- A scan over a failing source: how many pages it has got, and whether the source has raised. -/
structure FailingScan where
  state : ScanState
  fetched : ℕ
  raised : Bool

/-- The steps: a page of the source, its exception, the cancelation of the consumer with the failure
of the job, and the other steps of a scan. -/
inductive FailingLabel where
  | page | raise | abort
  | start | running | put | take | ingest | checkpoint
  deriving DecidableEq, Repr

/-- The tables after the write that a consumer has submitted. -/
def committedWrite (into : IngestInto) (t : MemberTables) (c : Call) : Option MemberTables :=
  match c.consumer with
  | .ingesting _ =>
      match t.submitIngestBatch into c.batch with
      | .ok (_, t') => some t'
      | .error _ => none
  | _ => some t

namespace FailingScan

variable (f : FailingSource)

/-- A step of the scan that does not touch the source. -/
def own (s : FailingScan) (l : ScanLabel) : Option FailingScan :=
  (s.state.step f.scan l).map fun u => { s with state := u }

def step (s : FailingScan) : FailingLabel → Option FailingScan
  | .page =>
      match f.pages[s.fetched]? with
      | some page =>
          (s.state.step f.scan (.fetch page.length)).map fun u =>
            { s with state := u, fetched := s.fetched + 1 }
      | none => none
  | .raise =>
      match s.state.call with
      | some c =>
          if c.point = .scanning ∧ c.producer = .fetching ∧ s.fetched = f.pages.length then
            some { s with
              state := { s.state with call := some { c with producer := .putting .sentinel } }
              raised := true }
          else none
      | none => none
  | .abort =>
      match s.state.call with
      | some c =>
          if s.raised ∧ c.producer = .ended then
            (committedWrite f.into s.state.tables c).map fun t =>
              { s with state := ⟨t, ⟨.failed, c.cp⟩, none⟩ }
          else none
      | none => none
  | .start => s.own f .start
  | .running => s.own f .running
  | .put => s.own f .put
  | .take => s.own f .take
  | .ingest => s.own f .ingest
  | .checkpoint => s.own f .checkpoint

/-- The scan that `scan_source` prepares. -/
def begin (t : MemberTables) : FailingScan := ⟨scanSource t, 0, false⟩

end FailingScan

/-- A failing source for the dataset that `scan_source` creates. -/
def failingOf (t : MemberTables) (pages : List (List Members.Member)) (group : Option GroupId)
    (account : AccountId) (label : Option String) : FailingSource where
  pages := pages
  into := ⟨t.datasets.length, group, some account, label⟩

/-! ## What is persisted -/

variable {sc : Scan} {t t' : MemberTables} {c : Call} {f : FailingSource} {s s' : FailingScan}

/-- The participant is persisted, unless it is invalid. -/
def Safe (sc : Scan) (t : MemberTables) (m : Members.Member) : Prop :=
  ∀ k, identityOf m = some k → PersistedAs sc.participants t sc.into.datasetId k

/-- A running call, the participants without Telegram ids included: those in front of the offset of
its checkpoint are persisted, those in front of the offset of its batch are persisted or in the
batch. -/
structure CallKept (sc : Scan) (t : MemberTables) (c : Call) : Prop where
  good : CallGood sc t c
  le : c.cp.offset ≤ c.batchOffset
  stored : ∀ m ∈ sc.participants.take c.cp.offset, m.telegramUserId = none → Safe sc t m
  taken : ∀ m ∈ sc.participants.take c.batchOffset, m.telegramUserId = none →
    Safe sc t m ∨ m ∈ c.batch
  ingested : ∀ last, c.consumer = .checkpointing last → ∀ m ∈ c.batch, Safe sc t m

/-- The database of a scan over a failing source, and its running call. -/
structure Kept (f : FailingSource) (s : FailingScan) : Prop where
  sound : s.state.tables.Sound
  ready : s.state.job.state = .ready → s.state.call = none → s.fetched = 0
  raised : s.raised = true → s.fetched = f.pages.length
  call : ∀ c ∈ s.state.call, CallKept f.scan s.state.tables c ∧ c.cancelRequested = false ∧
    c.offset = (f.pages.take s.fetched).flatten.length

theorem callKept_begin : CallKept sc t (Call.begin {}) where
  good := callGood_begin fun m hm => absurd hm (by simp)
  le := Nat.le_refl _
  stored := fun m hm => absurd hm (by simp [Call.begin])
  taken := fun m hm => absurd hm (by simp [Call.begin])
  ingested := fun last h => absurd h (by simp [Call.begin])

/-- A participant without Telegram id always comes into the batch. -/
theorem mem_foldl_addMember {m : Members.Member} (hnone : m.telegramUserId = none)
    (page : List Members.Member) (st : List ℤ × List Members.Member)
    (hm : m ∈ st.2 ∨ m ∈ page) : m ∈ (page.foldl addMember st).2 := by
  induction page generalizing st with
  | nil => exact hm.resolve_right (by simp)
  | cons q page ih =>
      have hinit : st.2 <+: (addMember st q).2 := by
        unfold addMember
        split
        · exact List.prefix_append _ _
        · split_ifs
          · exact List.prefix_rfl
          · exact List.prefix_append _ _
      refine ih _ ?_
      rcases hm with hm | hm
      · exact Or.inl (hinit.subset hm)
      · rcases List.mem_cons.mp hm with rfl | hm
        · refine Or.inl ?_
          unfold addMember
          rw [hnone]
          simp
        · exact Or.inr hm

theorem CallKept.receive (h : CallKept sc t c) {item : QueueItem} {queue : List QueueItem}
    (hqueue : c.queue = item :: queue) :
    CallKept sc t (({ c with queue := queue } : Call).receive item) := by
  have hgood := h.good.receive hqueue
  have hpages := h.good.pages
  rw [hqueue, List.cons_append] at hpages
  cases item with
  | sentinel =>
      refine ⟨hgood, h.le, h.stored, h.taken, fun last hpoint => ?_⟩
      simp only [Call.receive] at hpoint
      split_ifs at hpoint
  | page members next =>
      obtain ⟨hmembers, hnext, -⟩ := hpages
      refine ⟨hgood, ?_, h.stored, fun m hm hnone => ?_, fun last hpoint => ?_⟩
      · have hle := h.le
        show c.cp.offset ≤ next
        omega
      · have hsplit : sc.participants.take next =
            sc.participants.take c.batchOffset ++ members := by
          rw [hnext, List.take_add, ← hmembers]
        rcases List.mem_append.mp (hsplit ▸ hm) with hm | hm
        · rcases h.taken m hm hnone with hsafe | hm
          · exact Or.inl hsafe
          · exact Or.inr (mem_foldl_addMember hnone members (c.seen, c.batch) (Or.inl hm))
        · exact Or.inr (mem_foldl_addMember hnone members (c.seen, c.batch) (Or.inr hm))
      · simp only [Call.receive] at hpoint
        split_ifs at hpoint

/-- **The ingest of a batch**: the people of the batch are persisted, and nobody goes. -/
theorem CallKept.ingest (h : CallKept sc t c) (hsound : t.Sound) {last : Bool}
    (hpoint : c.consumer = .ingesting last) {summary : IngestSummary}
    (hrun : t.submitIngestBatch sc.into c.batch = .ok (summary, t')) (accepted invalid : ℕ) :
    t'.Sound ∧ CallKept sc t' { c with
      cp := ⟨c.batchOffset, accepted, invalid⟩
      consumer := .checkpointing last } := by
  obtain ⟨t₁, h₁, hturns, rfl⟩ := hsound.submitIngestBatch_ok hrun
  obtain ⟨hkeep, hnew⟩ := MemberTables.turns_keep_person hturns hsound
  obtain ⟨hsafe, hbatch⟩ := MemberTables.turns_persist hturns hsound h.good.batch
  have hall : ∀ m ∈ sc.participants.take c.batchOffset, m.telegramUserId = none →
      Safe sc (t₁.setMemberCount sc.into.datasetId (t₁.countMembers sc.into.datasetId)) m := by
    intro m hm hnone
    rcases h.taken m hm hnone with hm | hm
    · exact fun k hk => hsafe k (hm k hk)
    · exact hbatch m hm
  exact ⟨h₁.setMemberCount _ _, {
    good := (h.good.ingest hpoint hkeep hnew accepted invalid).mono fun _ hp => hp
    le := Nat.le_refl _
    stored := hall
    taken := fun m hm hnone => Or.inl (hall m hm hnone)
    ingested := fun _ _ => hbatch }⟩

theorem CallKept.checkpoint (h : CallKept sc t c) {last : Bool}
    (hpoint : c.consumer = .checkpointing last) :
    CallKept sc t { c with
      batch := []
      consumer := if last then .returned else .waiting } where
  good := h.good.checkpoint hpoint
  le := h.le
  stored := h.stored
  taken := fun m hm hnone => by
    rcases h.taken m hm hnone with hsafe | hbatch
    · exact Or.inl hsafe
    · exact Or.inl (h.ingested last hpoint m hbatch)
  ingested := fun l hl => by
    cases last <;> exact absurd hl (by simp)

/-- A step that changes nothing of the consumer and its checkpoint. -/
theorem CallKept.producer (h : CallKept sc t c) {c' : Call} (hgood : CallGood sc t c')
    (hcp : c'.cp = c.cp) (hoffset : c'.batchOffset = c.batchOffset) (hbatch : c'.batch = c.batch)
    (hconsumer : c'.consumer = c.consumer) : CallKept sc t c' where
  good := hgood
  le := by
    rw [hcp, hoffset]
    exact h.le
  stored := by
    rw [hcp]
    exact h.stored
  taken := by
    rw [hoffset, hbatch]
    exact h.taken
  ingested := by
    rw [hconsumer, hbatch]
    exact h.ingested

/-! ## The run -/

/-- The pages up to the next one. -/
theorem flatten_take_succ {pages : List (List Members.Member)} {n : ℕ}
    {page : List Members.Member} (hpage : pages[n]? = some page) :
    (pages.take (n + 1)).flatten = (pages.take n).flatten ++ page := by
  rw [List.take_add_one, hpage]
  simp

/-- What the participants have behind the pages up to the next one. -/
theorem slice_eq {pages : List (List Members.Member)} {n : ℕ} {page : List Members.Member}
    (hpage : pages[n]? = some page) :
    (pages.flatten.drop (pages.take n).flatten.length).take page.length = page := by
  have hsplit : pages.flatten =
      (pages.take n).flatten ++ (page ++ (pages.drop (n + 1)).flatten) := by
    rw [← List.append_assoc, ← flatten_take_succ hpage, ← List.flatten_append,
      List.take_append_drop]
  rw [hsplit, List.drop_left, List.take_left]

/-- A step of the call that does not touch the source. -/
theorem Kept.withCall (h : Kept f s) (hcall : s.state.call = some c) {c' : Call}
    (hc : CallKept f.scan s.state.tables c') (hcancel : c'.cancelRequested = c.cancelRequested)
    (hoffset : c'.offset = c.offset) :
    Kept f { s with state := { s.state with call := some c' } } where
  sound := h.sound
  ready := fun _ hnone => absurd hnone (by simp)
  raised := h.raised
  call := fun d hd => by
    obtain rfl := Option.some.inj hd
    obtain ⟨-, hnot, hlen⟩ := h.call c hcall
    exact ⟨hc, hcancel.trans hnot, hoffset.trans hlen⟩

/-- **A step of the scan that does not touch the source.** -/
theorem Kept.own (h : Kept f s) {l : ScanLabel} (hstep : s.own f l = some s')
    (hl : l ∈ [.start, .running, .put, .take, .ingest, .checkpoint]) : Kept f s' := by
  obtain ⟨u, hu, rfl⟩ := Option.map_eq_some_iff.mp hstep
  cases hcall : s.state.call with
  | none =>
      unfold ScanState.step at hu
      rw [hcall] at hu
      cases l with
      | start =>
          simp only at hu
          split_ifs at hu with hready
          obtain rfl := Option.some.inj hu
          refine ⟨h.sound, fun _ hnone => absurd hnone (by simp), h.raised, ?_⟩
          intro d hd
          obtain rfl := Option.some.inj hd
          refine ⟨callKept_begin, rfl, ?_⟩
          show 0 = (f.pages.take s.fetched).flatten.length
          rw [h.ready hready hcall]
          rfl
      | _ => simp at hl hu
  | some c =>
      rw [ScanState.step_of_call hcall] at hu
      obtain ⟨hc, hcancel, hoffset⟩ := h.call c hcall
      cases ScanState.transition_of_callStep hu with
      | running hpoint =>
          refine ⟨h.sound, fun hready => absurd hready (by simp), h.raised, ?_⟩
          intro d hd
          obtain rfl := Option.some.inj hd
          exact ⟨hc.producer { hc.good with finishing := fun hfin => absurd hfin (by simp) }
            rfl rfl rfl rfl, hcancel, hoffset⟩
      | put hproducer hroom =>
          exact h.withCall hcall (hc.producer (hc.good.put hproducer) rfl rfl rfl rfl) rfl rfl
      | @take item queue hwait hqueue =>
          refine h.withCall hcall (hc.receive hqueue) ?_ ?_ <;> cases item <;> rfl
      | @ingest last summary t hpoint hrun =>
          obtain ⟨hsound, hkept⟩ := hc.ingest h.sound hpoint hrun
            (c.cp.accepted + summary.accepted) (c.cp.invalid + summary.invalid)
          refine ⟨hsound, fun _ hnone => absurd hnone (by simp), h.raised, ?_⟩
          intro d hd
          obtain rfl := Option.some.inj hd
          exact ⟨hkept, hcancel, hoffset⟩
      | checkpoint hpoint =>
          refine ⟨h.sound, fun _ hnone => absurd hnone (by simp), h.raised, ?_⟩
          intro d hd
          obtain rfl := Option.some.inj hd
          exact ⟨hc.checkpoint hpoint, hcancel, hoffset⟩
      | stopped | fetched | exhausted | finish | complete | cancel | fail | crash => simp at hl

/-- **The source yields a page.** -/
theorem Kept.page (h : Kept f s) (hstep : s.step f .page = some s') : Kept f s' := by
  simp only [FailingScan.step] at hstep
  split at hstep
  · rename_i page hpage
    obtain ⟨u, hu, rfl⟩ := Option.map_eq_some_iff.mp hstep
    have hlt : s.fetched < f.pages.length := (List.getElem?_eq_some_iff.mp hpage).1
    have hraised : s.raised = true → s.fetched + 1 = f.pages.length := fun hr =>
      absurd (h.raised hr) (Nat.ne_of_lt hlt)
    cases hcall : s.state.call with
    | none =>
        unfold ScanState.step at hu
        rw [hcall] at hu
        exact absurd hu (by simp)
    | some c =>
        rw [ScanState.step_of_call hcall] at hu
        obtain ⟨hc, hcancel, hoffset⟩ := h.call c hcall
        cases ScanState.transition_of_callStep hu with
        | stopped hpoint hproducer hrequested =>
            rw [hcancel] at hrequested
            exact absurd hrequested (by simp)
        | fetched hpoint hproducer =>
            refine ⟨h.sound, fun _ hnone => absurd hnone (by simp), hraised, ?_⟩
            intro d hd
            obtain rfl := Option.some.inj hd
            refine ⟨hc.producer (hc.good.fetch hproducer page.length) rfl rfl rfl rfl, hcancel, ?_⟩
            show c.offset + ((f.pages.flatten.drop c.offset).take page.length).length =
              (f.pages.take (s.fetched + 1)).flatten.length
            rw [hoffset, slice_eq hpage, flatten_take_succ hpage, List.length_append]
  · exact absurd hstep (by simp)

/-- **The source raises.** -/
theorem Kept.raise (h : Kept f s) (hstep : s.step f .raise = some s') : Kept f s' := by
  simp only [FailingScan.step] at hstep
  split at hstep
  · rename_i c hcall
    obtain ⟨hc, hcancel, hoffset⟩ := h.call c hcall
    split_ifs at hstep with hpoint
    obtain rfl := Option.some.inj hstep
    refine ⟨h.sound, fun _ hnone => absurd hnone (by simp), fun _ => hpoint.2.2, ?_⟩
    intro d hd
    obtain rfl := Option.some.inj hd
    refine ⟨hc.producer (hc.good.over_fetch hpoint.2.1 (Or.inr ?_)) rfl rfl rfl rfl, hcancel,
      hoffset⟩
    rw [hoffset, hpoint.2.2, List.take_length]
    rfl
  · exact absurd hstep (by simp)

/-- **The consumer is cancelled**: its job has failed with the checkpoint of the call. -/
theorem abort_eq_some (hcall : s.state.call = some c) (hstep : s.step f .abort = some s') :
    s.raised = true ∧ c.producer = .ended ∧
      ∃ t, committedWrite f.into s.state.tables c = some t ∧
        s' = { s with state := ⟨t, ⟨.failed, c.cp⟩, none⟩ } := by
  simp only [FailingScan.step, hcall] at hstep
  split_ifs at hstep with hcond
  obtain ⟨t, ht, rfl⟩ := Option.map_eq_some_iff.mp hstep
  exact ⟨hcond.1, hcond.2, t, ht, rfl⟩

/-- What is persisted stays persisted by the write that is still committed. -/
theorem CallKept.committedWrite (h : CallKept f.scan t c) (hsound : t.Sound)
    (hwrite : committedWrite f.into t c = some t') :
    t'.Sound ∧ ∀ m ∈ f.pages.flatten.take c.cp.offset, Safe f.scan t' m := by
  have hstored : ∀ m ∈ f.pages.flatten.take c.cp.offset, Safe f.scan t m := by
    intro m hm k hk
    cases hx : m.telegramUserId with
    | none => exact h.stored m hm hx k hk
    | some x =>
        obtain ⟨r, hr, hrx, hin, -⟩ := h.good.stored m hm x hx
        refine ⟨k, Or.inl rfl, r, hr, hin, ?_⟩
        rw [Row.identity_of_some hrx, ← hk, identityOf, hx]
  unfold ParticipantScanner.committedWrite at hwrite
  split at hwrite
  · split at hwrite
    · rename_i summary t₂ hrun
      obtain rfl := Option.some.inj hwrite
      obtain ⟨t₁, h₁, hturns, rfl⟩ := hsound.submitIngestBatch_ok hrun
      obtain ⟨hsafe, -⟩ := MemberTables.turns_persist hturns hsound h.good.batch
      exact ⟨h₁.setMemberCount _ _, fun m hm k hk => hsafe k (hstored m hm k hk)⟩
    · exact absurd hwrite (by simp)
  · obtain rfl := Option.some.inj hwrite
    exact ⟨hsound, hstored⟩

theorem Kept.step (h : Kept f s) {l : FailingLabel} (hstep : s.step f l = some s') :
    Kept f s' := by
  cases l with
  | page => exact h.page hstep
  | raise => exact h.raise hstep
  | abort =>
      cases hcall : s.state.call with
      | none => simp [FailingScan.step, hcall] at hstep
      | some c =>
          obtain ⟨-, -, t, ht, rfl⟩ := abort_eq_some hcall hstep
          obtain ⟨hsound, -⟩ := (h.call c hcall).1.committedWrite h.sound ht
          exact ⟨hsound, fun hready => absurd hready (by simp), h.raised,
            fun d hd => absurd hd (by simp)⟩
  | start => exact h.own hstep (by simp)
  | running => exact h.own hstep (by simp)
  | put => exact h.own hstep (by simp)
  | take => exact h.own hstep (by simp)
  | ingest => exact h.own hstep (by simp)
  | checkpoint => exact h.own hstep (by simp)

theorem kept_of_run (h : Kept f s) {ls : List FailingLabel}
    (hrun : runLabels (FailingScan.step f) s ls = some s') : Kept f s' :=
  invariant_runLabels (fun _ _ _ h _ hstep => h.step hstep) h
    (along_of_forall_mem (D := fun _ => True) fun _ _ => trivial) hrun

theorem kept_begin (h : t.Sound) : Kept f (FailingScan.begin t) where
  sound := h.createDataset
  ready := fun _ _ => rfl
  raised := fun hraised => absurd hraised (by simp [FailingScan.begin])
  call := fun c hc => absurd hc (by simp [FailingScan.begin, scanSource])

/-! ## How far the consumer has come -/

variable {m n : ℕ}

/-- What the point of the consumer says of the `m` batches whose ingest it has read back, and of the
batch in memory, after `n` pages. -/
def ConsumerPoint.Paced (pages : List (List Members.Member)) (m n : ℕ)
    (batch : List Members.Member) : ConsumerPoint → Prop
  | .waiting =>
      batch = (collect (pages.take n)).batch ∧ m = (collect (pages.take n)).ends.length
  | .ingesting last =>
      (batchEnds pages)[m]? = some (collect (pages.take n)).offset ∧ (last = false →
        (collect (pages.take n)).batch = [] ∧ m + 1 = (collect (pages.take n)).ends.length)
  | .checkpointing last => last = false →
      (collect (pages.take n)).batch = [] ∧ m = (collect (pages.take n)).ends.length
  | .returned => True

/-- A running call whose consumer has got `n` pages and read back `m` ingests: the queue holds the
pages behind, and the checkpoint has the offset behind the last of the `m` batches. -/
structure PacedCall (f : FailingSource) (m : ℕ) (s : FailingScan) (c : Call) (n : ℕ) : Prop where
  le : n ≤ s.fetched
  items : c.queue ++ c.producer.items = (envelopes f.pages s.fetched).drop n ++
    if s.raised = true ∧ c.consumer.past = false then [.sentinel] else []
  seen : c.seen = (collect (f.pages.take n)).seen
  offset : c.batchOffset = (collect (f.pages.take n)).offset
  point : c.consumer.Paced f.pages m n c.batch
  checkpoint : (0 :: batchEnds f.pages)[m]? = some c.cp.offset

/-- A scan that has read back `m` ingests. -/
structure Paced (f : FailingSource) (m : ℕ) (s : FailingScan) : Prop where
  fetched : s.fetched ≤ f.pages.length
  ready : s.state.job.state = .ready → s.state.call = none → m = 0 ∧ s.raised = false
  call : ∀ c ∈ s.state.call, ∃ n, PacedCall f m s c n

theorem paced_of_call (hle : s.fetched ≤ f.pages.length) (hcall : s.state.call = some c)
    (hc : PacedCall f m s c n) : Paced f m s where
  fetched := hle
  ready := fun _ hnone => absurd (hcall.symm.trans hnone) (by simp)
  call := fun d hd => by
    obtain rfl := Option.some.inj (hcall.symm.trans hd)
    exact ⟨n, hc⟩

/-- The call of another state of the database. -/
theorem PacedCall.congr {s' : FailingScan} (h : PacedCall f m s c n)
    (hfetched : s'.fetched = s.fetched) (hraised : s'.raised = s.raised) :
    PacedCall f m s' c n where
  le := hfetched ▸ h.le
  items := by
    rw [hfetched, hraised]
    exact h.items
  seen := h.seen
  offset := h.offset
  point := h.point
  checkpoint := h.checkpoint

theorem pacedCall_begin (hfetched : s.fetched = 0) (hraised : s.raised = false) :
    PacedCall f 0 s (Call.begin {}) 0 where
  le := Nat.zero_le _
  items := by
    rw [hfetched, hraised]
    rfl
  seen := rfl
  offset := rfl
  point := ⟨rfl, rfl⟩
  checkpoint := rfl

/-- **The source yields a page.** -/
theorem PacedCall.page (h : PacedCall f m s c n) {page : List Members.Member} {u : ScanState}
    (hpage : f.pages[s.fetched]? = some page) (hraised : s.raised = false)
    (hproducer : c.producer = .fetching) {k : ℕ} :
    PacedCall f m ⟨u, s.fetched + 1, s.raised⟩ { c with
      offset := k
      producer := .putting (.page page (f.pages.take (s.fetched + 1)).flatten.length) } n where
  le := h.le.trans (Nat.le_succ _)
  items := by
    have hlt := (List.getElem?_eq_some_iff.mp hpage).1
    have hitems := h.items
    rw [hproducer, hraised] at hitems
    simp only [ProducerPoint.items, List.append_nil, Bool.false_eq_true, false_and,
      if_false] at hitems
    rw [hitems, hraised, envelopes_succ hpage,
      List.drop_append_of_le_length (by rw [length_envelopes hlt.le]; exact h.le)]
    simp [ProducerPoint.items]
  seen := h.seen
  offset := h.offset
  point := h.point
  checkpoint := h.checkpoint

/-- **The source raises.** -/
theorem PacedCall.raise (h : PacedCall f m s c n) (hraised : s.raised = false)
    (hpast : c.consumer.past = false) (hproducer : c.producer = .fetching) {u : ScanState} :
    PacedCall f m ⟨u, s.fetched, true⟩ { c with producer := .putting .sentinel } n where
  le := h.le
  items := by
    have hitems := h.items
    rw [hproducer, hraised] at hitems
    simp only [ProducerPoint.items, List.append_nil, Bool.false_eq_true, false_and,
      if_false] at hitems
    rw [hitems, hpast]
    rfl
  seen := h.seen
  offset := h.offset
  point := h.point
  checkpoint := h.checkpoint

/-- **The producer puts an item into the queue.** -/
theorem PacedCall.put (h : PacedCall f m s c n) {item : QueueItem}
    (hproducer : c.producer = .putting item) :
    PacedCall f m s { c with
      queue := c.queue ++ [item]
      producer := if item = .sentinel then .ended else .fetching } n where
  le := h.le
  items := by
    have hitems := h.items
    rw [hproducer] at hitems
    rw [← hitems]
    show (c.queue ++ [item]) ++ _ = c.queue ++ [item]
    split_ifs <;> exact List.append_nil _
  seen := h.seen
  offset := h.offset
  point := h.point
  checkpoint := h.checkpoint

/-- **The consumer takes a page.** -/
theorem PacedCall.takePage (h : PacedCall f m s c n) (hle : s.fetched ≤ f.pages.length)
    (hwait : c.consumer = .waiting) {members : List Members.Member} {next : ℕ}
    {queue : List QueueItem} (hqueue : c.queue = .page members next :: queue) :
    PacedCall f m s (({ c with queue := queue } : Call).receive (.page members next)) (n + 1) := by
  have hitems := h.items
  rw [hqueue] at hitems
  have hlt : n < s.fetched := by
    refine h.le.lt_of_ne fun heq => ?_
    rw [heq, List.drop_eq_nil_of_le (length_envelopes hle).le, List.nil_append] at hitems
    split_ifs at hitems <;> simp at hitems
  obtain ⟨page, hpage, hdrop⟩ := drop_envelopes hle hlt
  rw [hdrop, List.cons_append, List.cons_append, List.cons.injEq] at hitems
  obtain ⟨hitem, hrest⟩ := hitems
  obtain ⟨rfl, rfl⟩ := QueueItem.page.inj hitem
  have hpoint := h.point
  rw [hwait] at hpoint
  obtain ⟨hbatch, hm⟩ := hpoint
  have hsucc := collect_take_succ hpage
  have hfold : members.foldl addMember (c.seen, c.batch) =
      members.foldl addMember ((collect (f.pages.take n)).seen,
        (collect (f.pages.take n)).batch) := by rw [h.seen, hbatch]
  refine ⟨hlt, ?_, ?_, ?_, ?_, h.checkpoint⟩
  · show queue ++ c.producer.items = _
    rw [hrest, hwait]
    simp only [Call.receive]
    split_ifs <;> simp_all [ConsumerPoint.past]
  · show (members.foldl addMember (c.seen, c.batch)).1 = _
    rw [hfold, hsucc, Collected.add_seen]
  · show (f.pages.take (n + 1)).flatten.length = _
    rw [offset_collect]
  · show ConsumerPoint.Paced f.pages m (n + 1) (members.foldl addMember (c.seen, c.batch)).2
      (if SCAN_DB_BATCH_SIZE ≤ (members.foldl addMember (c.seen, c.batch)).2.length then
        .ingesting false else .waiting)
    have hends := ends_take_prefix f.pages (n + 1)
    rw [hfold]
    split_ifs with hlong
    · -- the page has made the batch long enough
      rw [Collected.add_of_long hlong] at hsucc
      rw [hsucc] at hends
      refine ⟨?_, fun _ => ⟨by rw [hsucc], by rw [hsucc, hm, List.length_append]; rfl⟩⟩
      obtain ⟨rest, hrest'⟩ := hends
      rw [hsucc, ← hrest', hm, List.append_assoc, List.getElem?_append_right (Nat.le_refl _)]
      simp
    · rw [Collected.add_of_short hlong] at hsucc
      exact ⟨by rw [hsucc], by rw [hsucc, hm]⟩

/-- **The consumer takes the sentinel.** -/
theorem PacedCall.takeSentinel (h : PacedCall f m s c n) (hle : s.fetched ≤ f.pages.length)
    (hraised : s.raised = true → s.fetched = f.pages.length) (hwait : c.consumer = .waiting)
    {queue : List QueueItem} (hqueue : c.queue = .sentinel :: queue) :
    PacedCall f m s (({ c with queue := queue } : Call).receive .sentinel) n := by
  have hitems := h.items
  rw [hqueue] at hitems
  have heq : n = s.fetched := by
    refine h.le.eq_of_not_lt fun hlt => ?_
    obtain ⟨page, -, hdrop⟩ := drop_envelopes hle hlt
    rw [hdrop, List.cons_append, List.cons_append, List.cons.injEq] at hitems
    exact absurd hitems.1 (by simp)
  rw [heq, List.drop_eq_nil_of_le (length_envelopes hle).le, List.nil_append] at hitems
  have hboth : s.raised = true ∧ c.consumer.past = false := by
    by_contra hnot
    rw [if_neg hnot] at hitems
    exact absurd hitems (by simp)
  rw [if_pos hboth, List.cons_append, List.cons.injEq] at hitems
  have hall : f.pages.take n = f.pages := by
    rw [heq, hraised hboth.1, List.take_length]
  have hpoint := h.point
  rw [hwait] at hpoint
  obtain ⟨hbatch, hm⟩ := hpoint
  have hpast : (if c.batch = [] then ConsumerPoint.returned else .ingesting true).past = true := by
    split_ifs <;> rfl
  refine ⟨h.le, ?_, h.seen, h.offset, ?_, h.checkpoint⟩
  · show queue ++ c.producer.items = _ ++ if s.raised = true ∧ (if c.batch = [] then
      ConsumerPoint.returned else .ingesting true).past = false then [.sentinel] else []
    rw [hitems.2, hpast, heq, List.drop_eq_nil_of_le (length_envelopes hle).le]
    simp
  · show (if c.batch = [] then ConsumerPoint.returned else .ingesting true).Paced f.pages m n
      c.batch
    split_ifs with hempty
    · trivial
    · refine ⟨?_, fun h => absurd h (by simp)⟩
      rw [hbatch, hall] at hempty
      rw [hm, hall, batchEnds, if_neg hempty, List.getElem?_append_right (Nat.le_refl _),
        Nat.sub_self]
      rfl

/-- **The consumer reads back an ingest.** -/
theorem PacedCall.ingest (h : PacedCall f m s c n) {last : Bool}
    (hpoint : c.consumer = .ingesting last) (accepted invalid : ℕ) :
    PacedCall f (m + 1) s { c with
      cp := ⟨c.batchOffset, accepted, invalid⟩
      consumer := .checkpointing last } n where
  le := h.le
  items := by
    have hitems := h.items
    rw [hpoint] at hitems
    exact hitems
  seen := h.seen
  offset := h.offset
  point := by
    have hp := h.point
    rw [hpoint] at hp
    exact fun hlast => hp.2 hlast
  checkpoint := by
    have hp := h.point
    rw [hpoint] at hp
    rw [List.getElem?_cons_succ, hp.1, ← h.offset]

theorem PacedCall.checkpointed (h : PacedCall f m s c n) {last : Bool}
    (hpoint : c.consumer = .checkpointing last) :
    PacedCall f m s { c with
      batch := []
      consumer := if last then .returned else .waiting } n where
  le := h.le
  items := by
    have hitems := h.items
    rw [hpoint] at hitems
    cases last <;> exact hitems
  seen := h.seen
  offset := h.offset
  point := by
    have hp := h.point
    rw [hpoint] at hp
    cases last with
    | true => trivial
    | false => exact ⟨(hp rfl).1.symm, (hp rfl).2⟩
  checkpoint := h.checkpoint

/-- **A step of the scan that does not touch the source.** -/
theorem Paced.own (h : Paced f m s) (hk : Kept f s) {l : ScanLabel} (hstep : s.own f l = some s')
    (hl : l ∈ [.start, .running, .put, .take, .ingest, .checkpoint]) :
    Paced f (if l = .ingest then m + 1 else m) s' := by
  obtain ⟨u, hu, rfl⟩ := Option.map_eq_some_iff.mp hstep
  cases hcall : s.state.call with
  | none =>
      unfold ScanState.step at hu
      rw [hcall] at hu
      cases l with
      | start =>
          simp only at hu
          split_ifs at hu with hready
          obtain rfl := Option.some.inj hu
          obtain ⟨rfl, hraised⟩ := h.ready hready hcall
          exact paced_of_call h.fetched rfl (pacedCall_begin (hk.ready hready hcall) hraised)
      | _ => simp at hl hu
  | some c =>
      rw [ScanState.step_of_call hcall] at hu
      obtain ⟨n, hc⟩ := h.call c hcall
      have hle := h.fetched
      cases ScanState.transition_of_callStep hu with
      | running hpoint =>
          exact paced_of_call hle rfl ⟨hc.le, hc.items, hc.seen, hc.offset, hc.point, hc.checkpoint⟩
      | put hproducer hroom => exact paced_of_call hle rfl ((hc.put hproducer).congr rfl rfl)
      | @take item queue hwait hqueue =>
          cases item with
          | page members next =>
              exact paced_of_call hle rfl ((hc.takePage hle hwait hqueue).congr rfl rfl)
          | sentinel =>
              exact paced_of_call hle rfl
                ((hc.takeSentinel hle hk.raised hwait hqueue).congr rfl rfl)
      | ingest hpoint hrun => exact paced_of_call hle rfl ((hc.ingest hpoint _ _).congr rfl rfl)
      | checkpoint hpoint => exact paced_of_call hle rfl ((hc.checkpointed hpoint).congr rfl rfl)
      | stopped | fetched | exhausted | finish | complete | cancel | fail | crash => simp at hl

theorem Paced.step (h : Paced f m s) (hk : Kept f s) {l : FailingLabel}
    (hstep : s.step f l = some s') : Paced f (if l = .ingest then m + 1 else m) s' := by
  cases l with
  | page =>
      simp only [FailingScan.step] at hstep
      split at hstep
      · rename_i page hpage
        obtain ⟨u, hu, rfl⟩ := Option.map_eq_some_iff.mp hstep
        have hlt : s.fetched < f.pages.length := (List.getElem?_eq_some_iff.mp hpage).1
        have hraised : s.raised = false := by
          by_contra hr
          exact absurd (hk.raised (Bool.eq_true_of_not_eq_false hr)) (Nat.ne_of_lt hlt)
        cases hcall : s.state.call with
        | none =>
            unfold ScanState.step at hu
            rw [hcall] at hu
            exact absurd hu (by simp)
        | some c =>
            rw [ScanState.step_of_call hcall] at hu
            obtain ⟨n, hc⟩ := h.call c hcall
            obtain ⟨-, hcancel, hoffset⟩ := hk.call c hcall
            cases ScanState.transition_of_callStep hu with
            | stopped hpoint hproducer hrequested =>
                rw [hcancel] at hrequested
                exact absurd hrequested (by simp)
            | fetched hpoint hproducer =>
                have hslice : (f.scan.participants.drop c.offset).take page.length = page := by
                  rw [hoffset]
                  exact slice_eq hpage
                have hnext : c.offset + page.length =
                    (f.pages.take (s.fetched + 1)).flatten.length := by
                  rw [hoffset, flatten_take_succ hpage, List.length_append]
                refine paced_of_call (n := n) hlt rfl ?_
                rw [hslice, hnext]
                exact hc.page hpage hraised hproducer
      · exact absurd hstep (by simp)
  | raise =>
      simp only [FailingScan.step] at hstep
      split at hstep
      · rename_i c hcall
        split_ifs at hstep with hpoint
        obtain rfl := Option.some.inj hstep
        obtain ⟨n, hc⟩ := h.call c hcall
        obtain ⟨hgood, -, -⟩ := hk.call c hcall
        have hpast : c.consumer.past = false := by
          by_contra hp
          have hended := (hgood.good.past (Bool.eq_true_of_not_eq_false hp)).1
          exact absurd (hpoint.2.1.symm.trans hended) (by simp)
        have hraised : s.raised = false := by
          by_contra hr
          have hsentinel := hgood.good.closing (by rw [hpoint.2.1]; simp)
          have hitems := hc.items
          rw [hpoint.2.1, if_pos ⟨Bool.eq_true_of_not_eq_false hr, hpast⟩, ProducerPoint.items,
            List.append_nil] at hitems
          exact hsentinel (hitems ▸ by simp)
        exact paced_of_call h.fetched rfl (hc.raise hraised hpast hpoint.2.1)
      · exact absurd hstep (by simp)
  | abort =>
      cases hcall : s.state.call with
      | none => simp [FailingScan.step, hcall] at hstep
      | some c =>
          obtain ⟨-, -, t, ht, rfl⟩ := abort_eq_some hcall hstep
          exact ⟨h.fetched, fun hready => absurd hready (by simp),
            fun d hd => absurd hd (by simp)⟩
  | start => exact h.own hk hstep (by simp)
  | running => exact h.own hk hstep (by simp)
  | put => exact h.own hk hstep (by simp)
  | take => exact h.own hk hstep (by simp)
  | ingest => exact h.own hk hstep (by simp)
  | checkpoint => exact h.own hk hstep (by simp)

/-- **The ingests that a run has read back**: as many as its schedule has. -/
theorem paced_of_run (h : Paced f m s) (hk : Kept f s) {ls : List FailingLabel}
    (hrun : runLabels (FailingScan.step f) s ls = some s') :
    Paced f (m + ls.count .ingest) s' := by
  induction ls generalizing s m with
  | nil =>
      obtain rfl := Option.some.inj hrun
      exact h
  | cons l ls ih =>
      obtain ⟨s₁, hstep, hrest⟩ := runLabels_cons_eq_some.mp hrun
      have hrest' := ih (h.step hk hstep) (hk.step hstep) hrest
      by_cases hl : l = .ingest
      · subst hl
        rw [if_pos rfl] at hrest'
        rw [List.count_cons_self, Nat.add_comm (ls.count .ingest), ← Nat.add_assoc]
        exact hrest'
      · rw [if_neg hl] at hrest'
        rw [List.count_cons_of_ne hl]
        exact hrest'

theorem paced_begin (t : MemberTables) : Paced f 0 (FailingScan.begin t) where
  fetched := Nat.zero_le _
  ready := fun _ _ => ⟨rfl, rfl⟩
  call := fun c hc => absurd hc (by simp [FailingScan.begin, scanSource])

/-- Of offsets that increase and are not behind the pages, the one in the checkpoint is at the end
of the pages exactly when it is the last one and this is at the end of the pages. -/
theorem eq_end_iff {ends : List ℕ} {offset total : ℕ} (h : (0 :: ends).Pairwise (· < ·))
    (hle : ∀ e ∈ 0 :: ends, e ≤ total) (hm : (0 :: ends)[m]? = some offset) :
    offset = total ↔ m = ends.length ∧ ends.getLast?.getD 0 = total := by
  obtain ⟨hlt, hget⟩ := List.getElem?_eq_some_iff.mp hm
  rw [List.length_cons] at hlt
  have hlast : (0 :: ends)[ends.length]? = some (ends.getLast?.getD 0) := by
    cases ends using List.reverseRecOn with
    | nil => rfl
    | append_singleton es e _ => simp
  obtain ⟨hlt', hget'⟩ := List.getElem?_eq_some_iff.mp hlast
  by_cases heq : m = ends.length
  · subst heq
    rw [hm, Option.some.injEq] at hlast
    rw [hlast, and_iff_right rfl]
  · have hless : offset < ends.getLast?.getD 0 := by
      rw [← hget, ← hget']
      exact List.pairwise_iff_getElem.mp h m ends.length _ _ (by omega)
    have hbound := hle _ (List.mem_of_getElem? hlast)
    exact iff_of_false (by omega) fun hand => heq hand.1

/-- **What a failed scan leaves.**  When the source has yielded its pages and raised, and the
consumer is cancelled, every participant of the pages is in the dataset and the checkpoint of the
failed job is at the end of the pages exactly when the schedule has read back the ingests of all
batches that the pages make, the last of these batches ends with the pages, and every participant
has a Telegram id or a username. -/
theorem failed_scan_iff {pyLower : String → String} {store : List Storage.StoreLabel}
    {db : Storage.MemberStore}
    (hstore :
      runLabels (Storage.MemberStore.step pyLower) Storage.MemberStore.start store = some db)
    {pages : List (List Members.Member)} {group : Option GroupId} {account : AccountId}
    {label : Option String} {ls : List FailingLabel} {s s' : FailingScan}
    (hrun : runLabels (FailingScan.step (failingOf db.tables pages group account label))
      (FailingScan.begin db.tables) ls = some s)
    (habort : s.step (failingOf db.tables pages group account label) .abort = some s') :
    ((∀ m ∈ pages.flatten,
        Persisted pages.flatten s'.state.tables db.tables.datasets.length m) ∧
        s'.state.job.checkpoint.offset = (pages.map List.length).sum) ↔
      ls.count .ingest = (batchEnds pages).length ∧
        (batchEnds pages).getLast?.getD 0 = (pages.map List.length).sum ∧
        ∀ m ∈ pages.flatten, (identityOf m).isSome := by
  have hdb := (Storage.MemberStore.good_of_run Storage.MemberStore.good_start hstore).1.sound
  have hkept := kept_of_run (f := failingOf db.tables pages group account label)
    (kept_begin hdb) hrun
  obtain ⟨c, hcall⟩ : ∃ c, s.state.call = some c := by
    cases hcall : s.state.call with
    | none => simp [FailingScan.step, hcall] at habort
    | some c => exact ⟨c, rfl⟩
  obtain ⟨-, -, t, ht, rfl⟩ := abort_eq_some hcall habort
  obtain ⟨-, hsafe⟩ := (hkept.call c hcall).1.committedWrite hkept.sound ht
  obtain ⟨n, hpaced⟩ := (paced_of_run (paced_begin _) (kept_begin hdb) hrun).call c hcall
  obtain ⟨hordered, hle⟩ := ordered_batchEnds pages
  have hiff := eq_end_iff hordered hle hpaced.checkpoint
  rw [Nat.zero_add] at hiff
  rw [← List.length_flatten, ← and_assoc, ← hiff]
  constructor
  · rintro ⟨hall, heq⟩
    refine ⟨heq, fun m hm => ?_⟩
    obtain ⟨k, hk, -⟩ := hall m hm
    rw [hk]
    rfl
  · rintro ⟨heq, hvalid⟩
    refine ⟨fun m hm => ?_, heq⟩
    obtain ⟨k, hk⟩ := Option.isSome_iff_exists.mp (hvalid m hm)
    refine ⟨k, hk, hsafe m ?_ k hk⟩
    rw [heq]
    show m ∈ pages.flatten.take pages.flatten.length
    rw [List.take_length]
    exact hm

/-- A page that is a whole batch, a username as often as a batch is long, and one of somebody
else. -/
def batchAndMore : List (List Members.Member) :=
  [List.replicate SCAN_DB_BATCH_SIZE { telegramUserId := none, username := some "ann" },
    [{ telegramUserId := some 5 }]]

/-- The source raises behind its two pages; the consumer is cancelled when it has read back the
ingest of the second batch, before the checkpoint of it. -/
def raisedBehindBatches : List FailingLabel :=
  [.start, .running, .page, .put, .take, .ingest, .checkpoint, .page, .put, .take, .raise, .put,
    .take, .ingest]

theorem failed_scan_iff_drained :
    ∃ db s s', runLabels (Storage.MemberStore.step id) Storage.MemberStore.start
        [.createAccount 1, .createGroup] = some db ∧
      runLabels (FailingScan.step (failingOf db.tables batchAndMore (some 0) 1 (some "source")))
        (FailingScan.begin db.tables) raisedBehindBatches = some s ∧
      s.step (failingOf db.tables batchAndMore (some 0) 1 (some "source")) .abort = some s' ∧
      (∀ m ∈ batchAndMore.flatten, Persisted batchAndMore.flatten s'.state.tables 0 m) ∧
      s'.state.job.checkpoint.offset = 251 := by
  obtain ⟨db, hdb⟩ : ∃ db, runLabels (Storage.MemberStore.step id) Storage.MemberStore.start
      [.createAccount 1, .createGroup] = some db := ⟨_, rfl⟩
  have hcompute : (runLabels
      (FailingScan.step (failingOf db.tables batchAndMore (some 0) 1 (some "source")))
      (FailingScan.begin db.tables) raisedBehindBatches).map (fun s =>
        (s.step (failingOf db.tables batchAndMore (some 0) 1 (some "source")) .abort).isSome) =
      some true := by
    obtain rfl := Option.some.inj hdb
    decide +kernel
  obtain ⟨s, hs, habort⟩ := Option.map_eq_some_iff.mp hcompute
  obtain ⟨s', hs'⟩ := Option.isSome_iff_exists.mp habort
  have hends : batchEnds batchAndMore = [250, 251] := by decide +kernel
  have htotal : (batchAndMore.map List.length).sum = 251 := by decide +kernel
  have hvalid : ∀ m ∈ batchAndMore.flatten, (identityOf m).isSome := by decide +kernel
  obtain ⟨hall, hoffset⟩ := (failed_scan_iff hdb hs hs').mpr
    ⟨by rw [hends]; rfl, by rw [hends, htotal]; rfl, hvalid⟩
  obtain rfl := Option.some.inj hdb
  exact ⟨_, s, s', hdb, hs, hs', hall, hoffset.trans htotal⟩

/-- A page of three participants, and the exception while their ingest is under way: the ingest is
committed, but the failed job says that the scan is at its beginning. -/
theorem failed_scan_behind :
    ∃ db s, runLabels (Storage.MemberStore.step id) Storage.MemberStore.start
        [.createAccount 1, .createGroup] = some db ∧
      runLabels (FailingScan.step (failingOf db.tables
          [[{ telegramUserId := some 5 }, { telegramUserId := some 6 },
            { telegramUserId := some 7 }]] (some 0) 1 (some "source")))
        (FailingScan.begin db.tables)
        [.start, .running, .page, .put, .take, .raise, .put, .take, .abort] = some s ∧
      s.state.job.state = .failed ∧ s.state.job.checkpoint.offset = 0 ∧
      s.state.tables.countMembers 0 = 3 := by
  obtain ⟨db, hdb⟩ : ∃ db, runLabels (Storage.MemberStore.step id) Storage.MemberStore.start
      [.createAccount 1, .createGroup] = some db := ⟨_, rfl⟩
  have hrun : (runLabels (FailingScan.step (failingOf db.tables
      [[{ telegramUserId := some 5 }, { telegramUserId := some 6 }, { telegramUserId := some 7 }]]
      (some 0) 1 (some "source"))) (FailingScan.begin db.tables)
      [.start, .running, .page, .put, .take, .raise, .put, .take, .abort]).map
      (fun s => (s.state.job.state, s.state.job.checkpoint.offset,
        s.state.tables.countMembers 0)) = some (.failed, 0, 3) := by
    obtain rfl := Option.some.inj hdb
    decide +kernel
  obtain ⟨s, hs, heq⟩ := Option.map_eq_some_iff.mp hrun
  simp only [Prod.mk.injEq] at heq
  exact ⟨db, s, hdb, hs, heq⟩

end ParticipantScanner
end Telegram
end MigrationStudio
