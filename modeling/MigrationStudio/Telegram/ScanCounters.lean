import MigrationStudio.Telegram.ParticipantScanner

/-!
# The counters of a scan

`scan` adds up what its ingests have accepted and writes the sum with each checkpoint.  The ingest
and the checkpoint are two transactions.  A process that stops between them leaves members in the
dataset that no checkpoint counts, and the scan that continues ingests them again without accepting
them again.  So the counter of a scan that completes is the number of members of its dataset exactly
when no stop has come between an ingest that accepted somebody and its checkpoint.  The other
counter stays at zero, as a participant with a Telegram id is never invalid.

* `Counted`: what the counters say, apart from the members that stops have left uncounted.
* `Counted.step`, `Counted.run`: a step, and a run.
* `accepted_exact_iff`: the scans that complete with an exact counter.
-/

namespace MigrationStudio
namespace Telegram
namespace ParticipantScanner

open Foundations MigrationStudio.Core Members

variable {sc : Scan} {s s' : ScanState} {c : Call} {lost : ℕ}

/-- A stop that comes while the checkpoint of an ingest is under way comes to a job whose row counts
the ingest already. -/
def CrashCounted (s : ScanState) (l : ScanLabel) : Prop :=
  l = .crash → ∀ c ∈ s.call, ∀ last, c.consumer = .checkpointing last →
    s.job.checkpoint.accepted = c.cp.accepted

instance (s : ScanState) (l : ScanLabel) : Decidable (CrashCounted s l) :=
  inferInstanceAs (Decidable (l = .crash → ∀ c ∈ s.call, ∀ last,
    c.consumer = .checkpointing last → s.job.checkpoint.accepted = c.cp.accepted))

/-- The persisted counter of invalid participants does not decrease in the step. -/
def InvalidKept (sc : Scan) (s : ScanState) (l : ScanLabel) : Prop :=
  ∀ s', s.step sc l = some s' → s.job.checkpoint.invalid ≤ s'.job.checkpoint.invalid

/-- The running call counts the members of the dataset without the lost ones, and the row of the job
counts what the call does, unless the checkpoint is under way. -/
structure CallCounted (sc : Scan) (lost : ℕ) (s : ScanState) (c : Call) : Prop where
  accepted : c.cp.accepted + lost = s.tables.countMembers sc.into.datasetId
  invalid : c.cp.invalid = 0
  row : s.job.checkpoint.accepted ≤ c.cp.accepted
  settled : (∀ last, c.consumer ≠ .checkpointing last) →
    s.job.checkpoint.accepted = c.cp.accepted
  starting : c.point = .starting → c.producer = .fetching ∧ c.queue = [] ∧ c.consumer = .waiting
  finishing : c.point ≠ .finishing .ready

/-- The counters, when `lost` members are in the dataset that no checkpoint counts. -/
structure Counted (sc : Scan) (lost : ℕ) (s : ScanState) : Prop where
  ready : s.job.state = .ready → s.job.checkpoint.accepted = 0 ∧ ∀ c ∈ s.call, c.point = .starting
  completed : s.job.state = .completed → s.call = none
  invalid : s.job.checkpoint.invalid = 0
  idle : s.call = none →
    s.job.checkpoint.accepted + lost = s.tables.countMembers sc.into.datasetId
  call : ∀ c ∈ s.call, CallCounted sc lost s c

/-! ## The steps of a call -/

/-- A step that changes neither the tables nor the row of the job nor the counters. -/
theorem Counted.keep (h : Counted sc lost s) (hcall : s.call = some c) {c' : Call}
    (hcp : c'.cp = c.cp) (hconsumer : (∀ last, c'.consumer ≠ .checkpointing last) →
      ∀ last, c.consumer ≠ .checkpointing last)
    (hpoint : c'.point = .starting → c.point = .starting ∧ c'.producer = .fetching ∧
      c'.queue = [] ∧ c'.consumer = .waiting) (hstart : c.point = .starting → c'.point = .starting)
    (hfinishing : c'.point ≠ .finishing .ready) :
    Counted sc lost { s with call := some c' } where
  ready := fun hready => by
    refine ⟨(h.ready hready).1, fun d hd => ?_⟩
    obtain rfl := Option.some.inj hd
    exact hstart ((h.ready hready).2 c hcall)
  completed := fun hdone => absurd (h.completed hdone) (by simp [hcall])
  invalid := h.invalid
  idle := fun hnone => absurd hnone (by simp)
  call := fun d hd => by
    obtain rfl := Option.some.inj hd
    have hc := h.call c hcall
    exact {
      accepted := hcp ▸ hc.accepted
      invalid := hcp ▸ hc.invalid
      row := hcp ▸ hc.row
      settled := fun hno => hcp ▸ hc.settled (hconsumer hno)
      starting := fun hp => (hpoint hp).2
      finishing := hfinishing }

theorem receive_cp (c : Call) (item : QueueItem) : (c.receive item).cp = c.cp := by
  cases item <;> rfl

theorem receive_point (c : Call) (item : QueueItem) : (c.receive item).point = c.point := by
  cases item <;> rfl

/-- **The ingest is committed**: the call counts what it has added to the dataset. -/
theorem Counted.ingest (h : Counted sc lost s) (hgood : Good sc s)
    (hids : ∀ m ∈ sc.participants, m.telegramUserId.isSome) (hcall : s.call = some c) {last : Bool}
    (hpoint : c.consumer = .ingesting last) {summary : IngestSummary} {t : MemberTables}
    (hrun : s.tables.submitIngestBatch sc.into c.batch = .ok (summary, t)) :
    Counted sc lost { s with
      tables := t
      call := some { c with
        cp := ⟨c.batchOffset, c.cp.accepted + summary.accepted, c.cp.invalid + summary.invalid⟩
        consumer := .checkpointing last } } := by
  have hc := h.call c hcall
  have hnot : c.point ≠ .starting := fun hp => by
    have hwait := (hc.starting hp).2.2
    rw [hpoint] at hwait
    exact absurd hwait (by simp)
  obtain ⟨hcount, hinvalid⟩ := MemberTables.submitIngestBatch_counts hgood.sound hgood.only
    (fun m hm => by
      have hmem := (hgood.call c hcall).batch m hm
      obtain ⟨x, hx⟩ := Option.isSome_iff_exists.mp (hids m hmem)
      exact ⟨x, hx, List.mem_filterMap.mpr ⟨m, hmem, hx⟩⟩) hrun
  exact {
    ready := fun hready => absurd ((h.ready hready).2 c hcall) hnot
    completed := fun hdone => absurd (h.completed hdone) (by simp [hcall])
    invalid := h.invalid
    idle := fun hnone => absurd hnone (by simp)
    call := fun d hd => by
      obtain rfl := Option.some.inj hd
      exact {
        accepted := by
          have hbefore := hc.accepted
          show c.cp.accepted + summary.accepted + lost = t.countMembers sc.into.datasetId
          omega
        invalid := by
          show c.cp.invalid + summary.invalid = 0
          rw [hc.invalid, hinvalid]
        row := hc.row.trans (Nat.le_add_right _ _)
        settled := fun hno => absurd rfl (hno last)
        starting := fun hp => absurd hp hnot
        finishing := hc.finishing } }

/-- **The checkpoint is committed**: the row of the job counts what the call does. -/
theorem Counted.checkpoint (h : Counted sc lost s) (hcall : s.call = some c) {last : Bool}
    (hpoint : c.consumer = .checkpointing last) :
    Counted sc lost { s with
      job := { s.job with checkpoint := c.cp }
      call := some { c with
        batch := []
        consumer := if last then .returned else .waiting } } := by
  have hc := h.call c hcall
  have hnot : c.point ≠ .starting := fun hp => by
    have hwait := (hc.starting hp).2.2
    rw [hpoint] at hwait
    exact absurd hwait (by simp)
  exact {
    ready := fun hready => absurd ((h.ready hready).2 c hcall) hnot
    completed := fun hdone => absurd (h.completed hdone) (by simp [hcall])
    invalid := hc.invalid
    idle := fun hnone => absurd hnone (by simp)
    call := fun d hd => by
      obtain rfl := Option.some.inj hd
      exact ⟨hc.accepted, hc.invalid, Nat.le_refl _, fun _ => rfl, fun hp => absurd hp hnot,
        hc.finishing⟩ }

/-- The call ends and leaves its counters in the row of the job. -/
theorem Counted.leave (h : Counted sc lost s) (hcall : s.call = some c) {final : JobState}
    (hfinal : final ≠ .ready) : Counted sc lost { s with job := ⟨final, c.cp⟩, call := none } where
  ready := fun hready => absurd hready hfinal
  completed := fun _ => rfl
  invalid := (h.call c hcall).invalid
  idle := fun _ => (h.call c hcall).accepted
  call := fun d hd => absurd hd (by simp)

/-- **The application stops**: what the call has accepted since the last checkpoint is lost. -/
theorem Counted.crash (h : Counted sc lost s) (hcall : s.call = some c) :
    Counted sc (lost + (c.cp.accepted - s.job.checkpoint.accepted)) { s with call := none } where
  ready := fun hready => ⟨(h.ready hready).1, fun d hd => absurd hd (by simp)⟩
  completed := fun _ => rfl
  invalid := h.invalid
  idle := fun _ => by
    have hcount := (h.call c hcall).accepted
    have hrow := (h.call c hcall).row
    show s.job.checkpoint.accepted + (lost + (c.cp.accepted - s.job.checkpoint.accepted)) =
      s.tables.countMembers sc.into.datasetId
    omega
  call := fun d hd => absurd hd (by simp)

/-- **A step of the running call** other than a stop. -/
theorem Counted.callStep (h : Counted sc lost s) (hgood : Good sc s)
    (hids : ∀ m ∈ sc.participants, m.telegramUserId.isSome) (hcall : s.call = some c)
    {l : ScanLabel} (hl : l ≠ .crash) (hstep : s.callStep sc c l = some s') :
    Counted sc lost s' := by
  have hc := h.call c hcall
  have hscanning : c.point = .scanning → c.point ≠ .starting := fun hp => by simp [hp]
  cases ScanState.transition_of_callStep hstep with
  | running hpoint =>
      exact {
        ready := fun hready => absurd hready (by simp)
        completed := fun hdone => absurd hdone (by simp)
        invalid := rfl
        idle := fun hnone => absurd hnone (by simp)
        call := fun d hd => by
          obtain rfl := Option.some.inj hd
          exact ⟨hc.accepted, hc.invalid, Nat.le_refl _, fun _ => rfl,
            fun hp => absurd hp (by simp), by simp⟩ }
  | stopped hpoint | fetched hpoint | exhausted hpoint =>
      exact h.keep hcall rfl (fun hno => hno) (fun hp => absurd hp (hscanning hpoint))
        (fun hp => hp) hc.finishing
  | put hproducer hroom =>
      refine h.keep hcall rfl (fun hno => hno) (fun hp => ?_) (fun hp => hp) hc.finishing
      have hfetching := (hc.starting hp).1
      rw [hproducer] at hfetching
      exact absurd hfetching (by simp)
  | @take item queue hwait hqueue =>
      refine h.keep hcall (receive_cp _ item) (fun _ last => by simp [hwait]) (fun hp => ?_)
        (fun hp => (receive_point _ item).trans hp) (by rw [receive_point]; exact hc.finishing)
      rw [receive_point] at hp
      have hempty := (hc.starting hp).2.1
      rw [hqueue] at hempty
      exact absurd hempty (by simp)
  | ingest hpoint hrun => exact h.ingest hgood hids hcall hpoint hrun
  | checkpoint hpoint => exact h.checkpoint hcall hpoint
  | finish hpoint =>
      refine h.keep hcall rfl (fun hno => hno) (fun hp => absurd hp (by simp))
        (fun hp => absurd hp (hscanning hpoint)) ?_
      dsimp only
      split_ifs <;> simp
  | complete hpoint => exact h.leave hcall fun hready => hc.finishing (by rw [hpoint, hready])
  | cancel =>
      exact h.keep hcall rfl (fun hno => hno) (fun hp => ⟨hp, hc.starting hp⟩) (fun hp => hp)
        hc.finishing
  | fail => exact h.leave hcall (by simp)
  | crash => exact absurd rfl hl

/-! ## The run -/

/-- The scan from a checkpoint on counts what the row of the job counts. -/
theorem Counted.begin (h : Counted sc lost s) (hcall : s.call = none)
    (hover : s.job.state ≠ .completed) {cp : ScanCheckpoint}
    (haccepted : cp.accepted = s.job.checkpoint.accepted) (hinvalid : cp.invalid = 0) :
    Counted sc lost { s with call := some (Call.begin cp) } where
  ready := fun hready => by
    refine ⟨(h.ready hready).1, fun d hd => ?_⟩
    obtain rfl := Option.some.inj hd
    rfl
  completed := fun hdone => absurd hdone hover
  invalid := h.invalid
  idle := fun hnone => absurd hnone (by simp)
  call := fun d hd => by
    obtain rfl := Option.some.inj hd
    exact {
      accepted := haccepted ▸ h.idle hcall
      invalid := hinvalid
      row := haccepted.ge
      settled := fun _ => haccepted.symm
      starting := fun _ => ⟨rfl, rfl, rfl⟩
      finishing := by simp [Call.begin] }

/-- **One step** loses nothing exactly when it is no stop between an ingest that has accepted
somebody and its checkpoint. -/
theorem Counted.step (h : Counted sc lost s) (hgood : Good sc s)
    (hids : ∀ m ∈ sc.participants, m.telegramUserId.isSome) {l : ScanLabel}
    (hstep : s.step sc l = some s') :
    ∃ lost', Counted sc lost' s' ∧ lost ≤ lost' ∧ (lost' = lost ↔ CrashCounted s l) := by
  unfold ScanState.step at hstep
  split at hstep
  · rename_i l _ _ c hcall
    by_cases hl : l = .crash
    · subst hl
      obtain rfl := Option.some.inj hstep
      have hc := h.call c hcall
      refine ⟨_, h.crash hcall, Nat.le_add_right _ _, fun heq _ d hd last _ => ?_, fun hcrash => ?_⟩
      · obtain rfl := Option.some.inj (hcall.symm.trans hd)
        have hrow := hc.row
        omega
      · have hsame : s.job.checkpoint.accepted = c.cp.accepted := by
          by_cases hpoint : ∃ last, c.consumer = .checkpointing last
          · obtain ⟨last, hlast⟩ := hpoint
            exact hcrash rfl c hcall last hlast
          · exact hc.settled fun last hlast => hpoint ⟨last, hlast⟩
        omega
    · exact ⟨lost, h.callStep hgood hids hcall hl hstep, Nat.le_refl _,
        iff_of_true rfl fun hcrash => absurd hcrash hl⟩
  · rename_i hcall
    split_ifs at hstep with hready
    obtain rfl := Option.some.inj hstep
    refine ⟨lost, h.begin hcall ?_ (h.ready hready).1.symm rfl, Nat.le_refl _,
      iff_of_true rfl fun hcrash => absurd hcrash (by simp)⟩
    rw [hready]
    simp
  · rename_i hcall
    split_ifs at hstep with hpaused
    obtain rfl := Option.some.inj hstep
    refine ⟨lost, h.begin hcall ?_ rfl h.invalid, Nat.le_refl _,
      iff_of_true rfl fun hcrash => absurd hcrash (by simp)⟩
    rw [hpaused]
    simp
  · rename_i hcall
    obtain rfl := Option.some.inj hstep
    refine ⟨lost, ?_, Nat.le_refl _, iff_of_true rfl fun hcrash => absurd hcrash (by simp)⟩
    split_ifs
    · exact {
        ready := fun hready => absurd hready (by simp)
        completed := fun hdone => absurd hdone (by simp)
        invalid := h.invalid
        idle := h.idle
        call := fun d hd => absurd (hcall.symm.trans hd) (by simp) }
    · exact h
  · exact absurd hstep (by simp)

/-- **A run** loses nothing exactly when no step does, and never decreases the other counter. -/
theorem Counted.run (h : Counted sc lost s) (hgood : Good sc s)
    (hids : ∀ m ∈ sc.participants, m.telegramUserId.isSome) {ls : List ScanLabel}
    (hrun : runLabels (ScanState.step sc) s ls = some s') :
    Along (ScanState.step sc) (InvalidKept sc) s ls ∧
      ∃ lost', Counted sc lost' s' ∧ lost ≤ lost' ∧
        (lost' = lost ↔ Along (ScanState.step sc) CrashCounted s ls) := by
  induction ls generalizing s lost with
  | nil =>
      obtain rfl := Option.some.inj hrun
      exact ⟨trivial, lost, h, Nat.le_refl _, iff_of_true rfl trivial⟩
  | cons l ls ih =>
      obtain ⟨u, hu, hrest⟩ := runLabels_cons_eq_some.mp hrun
      obtain ⟨lost₁, h₁, hle₁, hiff₁⟩ := h.step hgood hids hu
      obtain ⟨hkept, lost₂, h₂, hle₂, hiff₂⟩ := ih h₁ (hgood.step hids hu) hrest
      rw [along_cons hu, along_cons hu]
      refine ⟨⟨fun v hv => ?_, hkept⟩, lost₂, h₂, hle₁.trans hle₂, ?_⟩
      · rw [h.invalid]
        exact Nat.zero_le _
      · rw [← hiff₁, ← hiff₂]
        omega

theorem counted_scanSource {t : MemberTables} (h : t.Sound) (participants : List Members.Member)
    (group : Option GroupId) (account : AccountId) (label : Option String) :
    Counted (scanOf t participants group account label) 0 (scanSource t) where
  ready := fun _ => ⟨rfl, fun c hc => absurd hc (by simp [scanSource])⟩
  completed := fun _ => rfl
  invalid := rfl
  idle := fun _ => (MemberTables.countMembers_of_length_le h (Nat.le_refl _)).symm
  call := fun c hc => absurd hc (by simp [scanSource])

/-- **The counters of a scan that completes**: the accepted counter of its final checkpoint is the
number of members of the dataset, and the persisted invalid counter has never decreased, exactly
when no stop has come between the commit of an ingest that accepted somebody and the commit of its
checkpoint. -/
theorem accepted_exact_iff {pyLower : String → String} {store : List Storage.StoreLabel}
    {db : Storage.MemberStore}
    (hstore :
      runLabels (Storage.MemberStore.step pyLower) Storage.MemberStore.start store = some db)
    {participants : List Members.Member} (hids : ∀ m ∈ participants, m.telegramUserId.isSome)
    {group : Option GroupId} {account : AccountId} {label : Option String}
    {ls : List ScanLabel} {s : ScanState}
    (hrun : runLabels (ScanState.step (scanOf db.tables participants group account label))
      (scanSource db.tables) ls = some s) (hdone : s.job.state = .completed) :
    (s.job.checkpoint.accepted = s.tables.countMembers db.tables.datasets.length ∧
        Along (ScanState.step (scanOf db.tables participants group account label))
          (InvalidKept (scanOf db.tables participants group account label))
          (scanSource db.tables) ls) ↔
      Along (ScanState.step (scanOf db.tables participants group account label)) CrashCounted
        (scanSource db.tables) ls := by
  have hdb := (Storage.MemberStore.good_of_run Storage.MemberStore.good_start hstore).1.sound
  obtain ⟨hkept, lost, hcounted, -, hiff⟩ :=
    (counted_scanSource hdb participants group account label).run
      (good_scanSource hdb participants group account label) hids hrun
  have hidle : s.job.checkpoint.accepted + lost = s.tables.countMembers db.tables.datasets.length :=
    hcounted.idle (hcounted.completed hdone)
  rw [← hiff]
  constructor
  · rintro ⟨heq, -⟩
    omega
  · exact fun hlost => ⟨by omega, hkept⟩

/-- Two participants; the application stops before the ingest, and once more behind the
checkpoint. -/
def stoppedAroundIngest : List ScanLabel :=
  [.start, .running, .fetch 1, .put, .take, .crash, .normalize, .resume, .running, .fetch 2, .put,
    .take, .exhausted, .put, .take, .ingest, .checkpoint, .crash, .normalize, .resume, .running,
    .exhausted, .put, .take, .finish, .complete]

theorem accepted_exact_iff_stopped :
    ∃ db s, runLabels (Storage.MemberStore.step id) Storage.MemberStore.start
        [.createAccount 1, .createGroup] = some db ∧
      runLabels (ScanState.step (scanOf db.tables
          [{ telegramUserId := some 5, accessHash := some 50 }, { telegramUserId := some 6 }]
          (some 0) 1 (some "source"))) (scanSource db.tables) stoppedAroundIngest = some s ∧
      s.job.checkpoint.accepted = s.tables.countMembers 0 := by
  obtain ⟨db, hdb⟩ : ∃ db, runLabels (Storage.MemberStore.step id) Storage.MemberStore.start
      [.createAccount 1, .createGroup] = some db := ⟨_, rfl⟩
  have hdone : (runLabels (ScanState.step (scanOf db.tables
      [{ telegramUserId := some 5, accessHash := some 50 }, { telegramUserId := some 6 }]
      (some 0) 1 (some "source"))) (scanSource db.tables) stoppedAroundIngest).map
      (fun s => s.job.state) = some .completed := by
    obtain rfl := Option.some.inj hdb
    decide +kernel
  have hcounted : Along (ScanState.step (scanOf db.tables
      [{ telegramUserId := some 5, accessHash := some 50 }, { telegramUserId := some 6 }]
      (some 0) 1 (some "source"))) CrashCounted (scanSource db.tables) stoppedAroundIngest := by
    obtain rfl := Option.some.inj hdb
    decide +kernel
  obtain ⟨s, hs, hstate⟩ := Option.map_eq_some_iff.mp hdone
  have hexact := ((accepted_exact_iff hdb (by decide) hs hstate).mpr hcounted).1
  obtain rfl := Option.some.inj hdb
  exact ⟨_, s, hdb, hs, hexact⟩

/-- A stop between the ingest and its checkpoint: the dataset has two members, the scan that
completes counts none. -/
theorem accepted_lost :
    ∃ db s, runLabels (Storage.MemberStore.step id) Storage.MemberStore.start
        [.createAccount 1, .createGroup] = some db ∧
      runLabels (ScanState.step (scanOf db.tables
          [{ telegramUserId := some 5, accessHash := some 50 }, { telegramUserId := some 6 }]
          (some 0) 1 (some "source"))) (scanSource db.tables) stoppedAfterIngest = some s ∧
      s.job.state = .completed ∧ s.job.checkpoint.accepted = 0 ∧ s.tables.countMembers 0 = 2 := by
  obtain ⟨db, hdb⟩ : ∃ db, runLabels (Storage.MemberStore.step id) Storage.MemberStore.start
      [.createAccount 1, .createGroup] = some db := ⟨_, rfl⟩
  have hrun : (runLabels (ScanState.step (scanOf db.tables
      [{ telegramUserId := some 5, accessHash := some 50 }, { telegramUserId := some 6 }]
      (some 0) 1 (some "source"))) (scanSource db.tables) stoppedAfterIngest).map
      (fun s => (s.job.state, s.job.checkpoint.accepted, s.tables.countMembers 0)) =
        some (.completed, 0, 2) := by
    obtain rfl := Option.some.inj hdb
    decide +kernel
  obtain ⟨s, hs, heq⟩ := Option.map_eq_some_iff.mp hrun
  simp only [Prod.mk.injEq] at heq
  exact ⟨db, s, hdb, hs, heq⟩

end ParticipantScanner
end Telegram
end MigrationStudio
