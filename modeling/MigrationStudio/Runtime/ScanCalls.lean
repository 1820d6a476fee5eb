import MigrationStudio.Runtime.SoleExecution

/-!
# The calls of `scan` keep the execution alone

A call writes RUNNING first and a final state last, and it awaits both: when it submits a state, no
other one of its job waits.

* `Sole.begun`: the loop begins a scan.
* `Sole.cancel`: `ParticipantScanner.cancel` changes no call but in its event.
* `Sole.call`: one step of a call.
-/

namespace MigrationStudio
namespace Runtime

open Foundations MigrationStudio.Core Accounts Jobs Telegram Storage Migration

namespace Studio

variable {s : Studio}

/-! ## The calls -/

section Calls

variable {job : JobId} {fails : Option String}

theorem plainWrite_of_none {w : LaneWrite} (h : ∀ j jw, w ≠ .job j jw) : PlainWrite w :=
  fun j jw hw => absurd hw (h j jw)

theorem plainWrite_setState (job : JobId) (st : JobState) (wait : Option ℕ)
    {c : Option Checkpoint} (clear : Bool) (h : c = none ∨ c = some {}) :
    PlainWrite (.job job (.setState st wait c clear)) := by
  intro j jw hw c' hc'
  obtain ⟨-, rfl⟩ := LaneWrite.job.inj hw
  rcases h with rfl | rfl
  · exact absurd hc' (by simp [JobWrite.checkpoint])
  · obtain rfl := Option.some.inj hc'
    rfl

theorem sound_submit (h : s.app.Sound) {t : WriteTask} (ht : PlainWrite t.write) :
    (s.submit t).app.Sound := by
  refine ⟨h.numbered.submit _, h.filed, h.owned, fun p hp => ?_, h.locked⟩
  rcases (mem_waiting_submit (s := s)).mp hp with hp | rfl
  · exact h.plain p hp
  · exact ht

/-- A state of another job is none of this one. -/
theorem jobState_scanState_of_ne {j : JobId} (h : j ≠ job) (st : JobState) :
    (scanState job st).jobState j = none :=
  LaneWrite.jobState_of_ne h.symm _

/-- The loop begins a scan. -/
theorem Sole.begun (hs : s.Sole) {rest : List NetworkTask} (hrec : s.app.recovering = [])
    (h : s.inbox = .scan job :: rest) : ({ s with inbox := rest }.beginScan job fails).Sole := by
  have hqueued : s.queued.Perm
      (job :: (s.prepared ++ rest.filterMap NetworkTask.scanned ++ s.resuming.toList)) := by
    have hscan : NetworkTask.scanned (.scan job) = some job := rfl
    rw [Studio.queued, h, List.filterMap_cons_some hscan, List.append_assoc, List.append_assoc]
    exact List.perm_middle
  obtain ⟨hnew, hnodup⟩ := List.nodup_cons.mp (hqueued.nodup_iff.mp hs.queued)
  have hjob : job ∈ s.queued := hqueued.mem_iff.mpr (List.mem_cons_self ..)
  have hold : ∀ j ∈ s.prepared ++ rest.filterMap NetworkTask.scanned ++ s.resuming.toList,
      j ∈ s.queued ∧ j ≠ job := fun j hj =>
    ⟨hqueued.mem_iff.mpr (List.mem_cons_of_mem _ hj), fun heq => hnew (heq ▸ hj)⟩
  have hcalls : ∀ {event : ℕ} {c : ScanCall}, Function.update s.calls s.next
      (some (ScanCall.begin job s.future)) event = some c →
      (event = s.next ∧ c = .begin job s.future) ∨
        (event ≠ s.next ∧ s.calls event = some c ∧ c.job ≠ job) := by
    intro event c hc
    by_cases hevent : event = s.next
    · subst hevent
      rw [Function.update_self] at hc
      exact Or.inl ⟨rfl, (Option.some.inj hc).symm⟩
    · rw [Function.update_of_ne hevent] at hc
      exact Or.inr ⟨hevent, hc, hs.apart job hjob event c hc⟩
  have hscan : ∀ j, ({ s with inbox := rest }.beginScan job fails).Scanning j → s.Scanning j := by
    rintro j (hj | ⟨event, c, hc, rfl⟩)
    · exact Or.inl (hold j hj).1
    · rcases hcalls hc with ⟨-, rfl⟩ | ⟨-, hc, -⟩
      · exact Or.inl hjob
      · exact scanning_of_call hc
  have hrunning : ∀ j, j ≠ job → ∀ st,
      (taskOf (scanState job .running) fails).write.jobState j = some st → False := by
    intro j hj st hst
    exact absurd ((jobState_scanState_of_ne hj _).symm.trans hst) (by simp)
  refine
    { hs with
      sound := sound_submit hs.sound (plainWrite_setState job .running none false (Or.inr rfl))
      recovered := fun h => absurd hrec h
      scan := fun j hj => hs.scan j (hscan j hj)
      coming := fun j hj => ⟨(hs.coming j hj).1, fun h => (hs.coming j hj).2 (hscan j h)⟩
      calls := ?_
      queued := hnodup
      apart := ?_
      fresh := ?_
      registered := ?_
      awaited := ?_
      ready := fun j hj => (hs.ready j (hold j hj).1).submit
        fun st hst => (hrunning j (hold j hj).2 st hst).elim
      executors := ?_
      scans := ?_ }
  · intro event event' c d hc hd hjobs
    rcases hcalls hc with ⟨rfl, rfl⟩ | ⟨-, hc, hcj⟩ <;>
      rcases hcalls hd with ⟨rfl, rfl⟩ | ⟨-, hd, hdj⟩
    · rfl
    · exact absurd hjobs.symm hdj
    · exact absurd hjobs hcj
    · exact hs.calls event event' c d hc hd hjobs
  · intro j hj event c hc
    rcases hcalls hc with ⟨-, rfl⟩ | ⟨-, hc, -⟩
    · exact (hold j hj).2.symm
    · exact hs.apart j (hold j hj).1 event c hc
  · intro event hevent
    have hne : event ≠ s.next := (Nat.lt_of_succ_le hevent).ne'
    exact (Function.update_of_ne hne _ _).trans (hs.fresh event (Nat.le_of_succ_le hevent))
  · intro event c hc
    rcases hcalls hc with ⟨rfl, rfl⟩ | ⟨-, hc, hcj⟩
    · exact Function.update_self ..
    · exact (Function.update_of_ne hcj _ _).trans (hs.registered event c hc)
  · intro p hp j st hst
    rcases (mem_waiting_submit (s := s)).mp hp with hp | rfl
    · refine (hs.awaited p hp j st hst).imp_left fun hawaits => hawaits.imp_right ?_
      rintro ⟨event, c, hc, hcj, hstating⟩
      have hne : event ≠ s.next := by
        rintro rfl
        exact absurd ((hs.fresh _ le_rfl).symm.trans hc) (by simp)
      exact ⟨event, c, (Function.update_of_ne hne _ _).trans hc, hcj, hstating⟩
    · by_cases hj : j = job
      · subst hj
        exact Or.inl (Or.inr ⟨s.next, _, Function.update_self .., rfl, rfl⟩)
      · exact (hrunning j hj st hst).elim
  · intro j e he
    have hne : j ≠ job := by
      rintro rfl
      exact absurd ((hs.executor_of_scanning (Or.inl hjob)).symm.trans he) (by simp)
    exact (hs.executors j e he).imp
      (fun h => ⟨h.1, h.2.submit fun st hst => (hrunning j hne st hst).elim⟩)
      fun h => ⟨h.1, h.2.submit fun st hst => (hrunning j hne st hst).elim⟩
  · intro event c hc
    rcases hcalls hc with ⟨-, rfl⟩ | ⟨-, hc, hcj⟩
    · refine Or.inr ⟨rfl, (hs.ready job hjob).submit fun st hst => ?_⟩
      have hst' : (scanState job .running).jobState job = some st := hst
      rw [scanState, LaneWrite.jobState_setState, Option.some.injEq] at hst'
      exact hst' ▸ rfl
    · exact (hs.scans event c hc).imp
        (fun h => ⟨h.1, h.2.submit fun st hst => (hrunning _ hcj st hst).elim⟩)
        fun h => ⟨h.1, h.2.submit fun st hst => (hrunning _ hcj st hst).elim⟩

end Calls

section CallSteps

variable {job : JobId} {event : ℕ} {c : ScanCall} {out : CallOutcome} {fails : Option String}

/-- The calls change, but not in their job, their point or what they await. -/
theorem Sole.recall (hs : s.Sole) {calls : ℕ → Option ScanCall}
    (hback : ∀ event c, calls event = some c → ∃ d, s.calls event = some d ∧ c.job = d.job ∧
      c.final = d.final)
    (hforth : ∀ event d, s.calls event = some d → ∃ c, calls event = some c ∧ c.job = d.job ∧
      c.stating = d.stating) : ({ s with calls := calls } : Studio).Sole := by
  have hscan : ∀ j, ({ s with calls := calls } : Studio).Scanning j → s.Scanning j := by
    rintro j (hj | ⟨event, c, hc, rfl⟩)
    · exact Or.inl hj
    · obtain ⟨d, hd, hjob, -⟩ := hback event c hc
      exact Or.inr ⟨event, d, hd, hjob.symm⟩
  have hnone : ∀ event, s.calls event = none → calls event = none := by
    intro event hnone
    cases hc : calls event with
    | none => rfl
    | some c =>
        obtain ⟨d, hd, -⟩ := hback event c hc
        exact absurd (hnone.symm.trans hd) (by simp)
  exact
    { hs with
      recovered := fun h => ⟨(hs.recovered h).1,
        fun event => hnone event ((hs.recovered h).2.1 event), (hs.recovered h).2.2⟩
      scan := fun j hj => hs.scan j (hscan j hj)
      coming := fun j hj => ⟨(hs.coming j hj).1, fun h => (hs.coming j hj).2 (hscan j h)⟩
      calls := fun event event' c d hc hd hjob => by
        obtain ⟨c₀, hc₀, hcj, -⟩ := hback event c hc
        obtain ⟨d₀, hd₀, hdj, -⟩ := hback event' d hd
        exact hs.calls event event' c₀ d₀ hc₀ hd₀ (hcj ▸ hdj ▸ hjob)
      apart := fun j hj event c hc => by
        obtain ⟨d, hd, hjob, -⟩ := hback event c hc
        exact hjob ▸ hs.apart j hj event d hd
      fresh := fun event hevent => hnone event (hs.fresh event hevent)
      registered := fun event c hc => by
        obtain ⟨d, hd, hjob, -⟩ := hback event c hc
        exact hjob ▸ hs.registered event d hd
      awaited := fun p hp j st hst =>
        (hs.awaited p hp j st hst).imp_left fun hawaits => hawaits.imp_right fun h => by
          obtain ⟨event, d, hd, hjob, hstating⟩ := h
          obtain ⟨c, hc, hcj, hcs⟩ := hforth event d hd
          exact ⟨event, c, hc, hcj.trans hjob, hcs.trans hstating⟩
      scans := fun event c hc => by
        obtain ⟨d, hd, hjob, hfinal⟩ := hback event c hc
        rw [hjob, hfinal]
        exact hs.scans event d hd }

theorem Sole.cancel (hs : s.Sole) (job : JobId) : (s.cancel job).Sole := by
  rw [Studio.cancel]
  split
  · exact hs
  · rename_i event hevent
    refine hs.recall (fun k c hc => ?_) fun k d hd => ?_
    · by_cases hk : k = event
      · subst hk
        rw [Function.update_self] at hc
        obtain ⟨d, hd, rfl⟩ := Option.map_eq_some_iff.mp hc
        exact ⟨d, hd, rfl, rfl⟩
      · rw [Function.update_of_ne hk] at hc
        exact ⟨c, hc, rfl, rfl⟩
    · by_cases hk : k = event
      · subst hk
        exact ⟨{ d with cancelRequested := true }, by rw [Function.update_self, hd]; rfl, rfl, rfl⟩
      · exact ⟨d, (Function.update_of_ne hk _ _).trans hd, rfl, rfl⟩

/-- The lane after a step of a call. -/
theorem mem_waiting_applyCall {p : ℕ × WriteTask} :
    p ∈ (s.applyCall event c out fails).waiting ↔
      p ∈ s.waiting ∨ ∃ w, out.write = some w ∧ p = (s.future, ⟨w, out.critical, fails⟩) := by
  rw [waiting, applyCall]
  cases out.write with
  | none => simp [waiting]
  | some w =>
      rw [App.waiting_submit, List.mem_append, List.mem_singleton]
      simp [waiting, future]

theorem db_applyCall : (s.applyCall event c out fails).db = s.db := by
  rw [Studio.db, App.db, applyCall]
  cases out.write <;> rfl

theorem sound_applyCall (h : s.app.Sound) (hw : ∀ w, out.write = some w → PlainWrite w) :
    (s.applyCall event c out fails).app.Sound := by
  rw [applyCall]
  cases hout : out.write with
  | none => exact h
  | some w => exact sound_submit h (t := ⟨w, out.critical, fails⟩) (hw w hout)

/-- A call submits no state but a final one of its job, which it awaits. -/
theorem submits_of_transition {k : ℕ} {m : CallMove} (ht : ScanCall.Transition c k m out)
    {w : LaneWrite} {j : JobId} {st : JobState} (hw : out.write = some w)
    (hst : w.jobState j = some st) :
    j = c.job ∧ st.terminal = true ∧
      ∃ d, out.call = some d ∧ d.job = c.job ∧ d.final = true ∧ d.stating = some k := by
  cases ht with
  | @concludes p state hp hterminal hidle =>
      obtain rfl := Option.some.inj hw
      have hj : j = c.job := by
        by_contra hne
        exact absurd ((jobState_scanState_of_ne hne _).symm.trans hst) (by simp)
      subst hj
      rw [scanState, LaneWrite.jobState_setState, Option.some.injEq] at hst
      subst hst
      refine ⟨rfl, hterminal, _, rfl, rfl, ?_, ?_⟩ <;> rcases hp with rfl | rfl <;> rfl
  | goesOn hjob hcancel hfinal hstating hnone hidle =>
      rcases hnone with rfl | rfl
      · exact absurd hw (by simp)
      · obtain rfl := Option.some.inj hw
        exact absurd hst (by simp [LaneWrite.jobState, LaneWrite.ofJob])
  | finished pops hidle => exact absurd hw (by simp)

/-- A call keeps its job; it comes to its last state, or submits none. -/
theorem call_of_transition {k : ℕ} {m : CallMove} (ht : ScanCall.Transition c k m out)
    {d : ScanCall} (hd : out.call = some d) :
    d.job = c.job ∧
      (d.final = true ∨ (d.final = c.final ∧ ∀ w j, out.write = some w → w.jobState j = none)) := by
  cases ht with
  | concludes hp hst hidle =>
      obtain rfl := Option.some.inj hd
      refine ⟨rfl, Or.inl ?_⟩
      rcases hp with rfl | rfl <;> rfl
  | goesOn hjob hcancel hfinal hstating hnone hidle =>
      obtain rfl := Option.some.inj hd
      refine ⟨hjob, Or.inr ⟨hfinal, fun w j hw => ?_⟩⟩
      rcases hnone with rfl | rfl
      · exact absurd hw (by simp)
      · obtain rfl := Option.some.inj hw
        rfl
  | finished pops hidle => exact absurd hd (by simp)

theorem plainWrite_of_transition {k : ℕ} {m : CallMove} (ht : ScanCall.Transition c k m out)
    {w : LaneWrite} (hw : out.write = some w) : PlainWrite w := by
  cases ht with
  | concludes hp hst hidle =>
      obtain rfl := Option.some.inj hw
      exact plainWrite_setState _ _ _ _ (Or.inr rfl)
  | goesOn hjob hcancel hfinal hstating hnone hidle =>
      rcases hnone with rfl | rfl
      · exact absurd hw (by simp)
      · obtain rfl := Option.some.inj hw
        exact plainWrite_of_none fun _ _ => by simp
  | finished pops hidle => exact absurd hw (by simp)

/-- The calls after a step: the one that has moved, and those of other jobs. -/
theorem Sole.calls_update (hs : s.Sole) (hc : s.calls event = some c) {k : ℕ} {d : ScanCall}
    (hd : Function.update s.calls event out.call k = some d) :
    (k = event ∧ out.call = some d) ∨ (k ≠ event ∧ s.calls k = some d ∧ d.job ≠ c.job) := by
  by_cases hk : k = event
  · subst hk
    rw [Function.update_self] at hd
    exact Or.inl ⟨rfl, hd⟩
  · rw [Function.update_of_ne hk] at hd
    exact Or.inr ⟨hk, hd, fun hjob => hk (hs.calls k event d c hd hc hjob)⟩

/-- When a call moves, no state of its job waits. -/
theorem Sole.noState_of_move (hs : s.Sole) {m : CallMove} (hc : s.calls event = some c)
    (ht : ScanCall.Transition c s.future m out)
    (hresumed : ∀ r, m = .resumed r → ∀ k, c.awaiting = some k →
      ∃ r, s.app.writer.future k = some r) : NoState c.job s.waiting := by
  have hquiet : c.stating = none ∨ (∃ r, m = .resumed r) → NoState c.job s.waiting := by
    refine fun h => hs.noState_of_call hc fun k hk => ?_
    rcases h with h | ⟨r, rfl⟩
    · exact absurd (h.symm.trans hk) (by simp)
    · refine hresumed r rfl k ?_
      rw [ScanCall.stating] at hk
      split at hk <;> first | exact hk | exact absurd hk (by simp)
  cases ht with
  | concludes hp hst hidle => exact hquiet hidle
  | goesOn hjob hcancel hfinal hstating hwrite hidle => exact hquiet hidle
  | finished pops hidle => exact hquiet (Or.inr hidle)

theorem onlyFinal_applyCall {j : JobId} (h : OnlyFinal j s.waiting)
    (hnew : ∀ w st, out.write = some w → w.jobState j = some st → st.terminal = true) :
    OnlyFinal j (s.applyCall event c out fails).waiting := by
  intro p hp st hst
  rcases mem_waiting_applyCall.mp hp with hp | ⟨w, hw, rfl⟩
  · exact h p hp st hst
  · exact hnew w st hw hst

theorem stillOpen_applyCall {j : JobId} (h : StillOpen j s.db s.waiting)
    (hnew : ∀ w st, out.write = some w → w.jobState j ≠ some st) :
    StillOpen j (s.applyCall event c out fails).db (s.applyCall event c out fails).waiting := by
  rw [db_applyCall]
  refine ⟨h.row, fun p hp st hst => ?_⟩
  rcases mem_waiting_applyCall.mp hp with hp | ⟨w, hw, rfl⟩
  · exact h.waiting p hp st hst
  · exact absurd hst (hnew w st hw)

/-- Every state that waits is awaited after the step of a call. -/
theorem Sole.awaited_call (hs : s.Sole) {m : CallMove} (hc : s.calls event = some c)
    (ht : ScanCall.Transition c s.future m out) (hidle : NoState c.job s.waiting)
    (hexecutors : (s.applyCall event c out fails).app.executors = s.app.executors) :
    ∀ p ∈ (s.applyCall event c out fails).waiting, ∀ j st, p.2.write.jobState j = some st →
      (s.applyCall event c out fails).Awaits j p.1 ∨
        (OneShot j (s.applyCall event c out fails).db ∧ st.terminal = true) := by
  intro p hp j st hst
  rw [db_applyCall]
  rcases mem_waiting_applyCall.mp hp with hold | ⟨w, hw, rfl⟩
  · refine (hs.awaited p hold j st hst).imp_left fun hawaits => ?_
    rcases hawaits with ⟨e, a, he, ha, hk⟩ | ⟨k, d, hd, hjob, hstating⟩
    · exact Or.inl ⟨e, a, hexecutors ▸ he, ha, hk⟩
    · have hk : k ≠ event := by
        rintro rfl
        obtain rfl := Option.some.inj (hc.symm.trans hd)
        subst hjob
        exact absurd ((hidle p hold).symm.trans hst) (by simp)
      exact Or.inr ⟨k, d, (Function.update_of_ne hk _ _).trans hd, hjob, hstating⟩
  · obtain ⟨rfl, -, d, hd, hjob, -, hstating⟩ := submits_of_transition ht hw hst
    exact Or.inl (Or.inr ⟨event, d, (Function.update_self ..).trans hd, hjob, hstating⟩)

/-- A call that is not over keeps its event registered. -/
theorem Sole.registered_call (hs : s.Sole) {m : CallMove} (hc : s.calls event = some c)
    (ht : ScanCall.Transition c s.future m out) :
    ∀ k d, (s.applyCall event c out fails).calls k = some d →
      (s.applyCall event c out fails).cancelEvents d.job = some k := by
  intro k d hd
  have hevents : (s.applyCall event c out fails).cancelEvents =
      if out.pops then Function.update s.cancelEvents c.job none else s.cancelEvents := rfl
  rw [hevents]
  rcases hs.calls_update hc hd with ⟨rfl, hnew⟩ | ⟨-, hold, hdj⟩
  · have hpops : out.pops = false := by
      cases ht with
      | finished pops hidle => exact absurd hnew (by simp)
      | _ => rfl
    rw [hpops, (call_of_transition ht hnew).1]
    exact hs.registered _ c hc
  · split
    · exact (Function.update_of_ne hdj _ _).trans (hs.registered k d hold)
    · exact hs.registered k d hold

/-- **One step of a call**: no state of its job waits, and the one that it submits is final and
awaited. -/
theorem Sole.call (hs : s.Sole) (hrec : s.app.recovering = []) {m : CallMove}
    (hc : s.calls event = some c) (ht : ScanCall.Transition c s.future m out)
    (hresumed : ∀ r, m = .resumed r → ∀ k, c.awaiting = some k →
      ∃ r, s.app.writer.future k = some r) :
    (s.applyCall event c out fails).Sole := by
  have hscanned := scanning_of_call hc
  have hidle : NoState c.job s.waiting := hs.noState_of_move hc ht hresumed
  have hothers : ∀ j, j ≠ c.job → ∀ w st, out.write = some w → w.jobState j ≠ some st :=
    fun j hj w st hw hst => hj (submits_of_transition ht hw hst).1
  have hfinals : ∀ j w st, out.write = some w → w.jobState j = some st → st.terminal = true :=
    fun j w st hw hst => (submits_of_transition ht hw hst).2.1
  have hscan : ∀ j, (s.applyCall event c out fails).Scanning j → s.Scanning j := by
    rintro j (hj | ⟨k, d, hd, rfl⟩)
    · exact Or.inl hj
    · rcases hs.calls_update hc hd with ⟨-, hnew⟩ | ⟨-, hold, -⟩
      · exact (call_of_transition ht hnew).1 ▸ hscanned
      · exact scanning_of_call hold
  have hrec' : (s.applyCall event c out fails).app.recovering = s.app.recovering := by
    rw [applyCall]
    cases out.write <;> rfl
  have hexecutors : (s.applyCall event c out fails).app.executors = s.app.executors := by
    rw [applyCall]
    cases out.write <;> rfl
  refine
    { sound := sound_applyCall hs.sound fun w hw => plainWrite_of_transition ht hw
      recovered := fun h => absurd (hrec'.trans hrec) h
      migration := fun j e he => db_applyCall.symm ▸ hs.migration j e (hexecutors ▸ he)
      scan := fun j hj => db_applyCall.symm ▸ hs.scan j (hscan j hj)
      opened := fun j hj => db_applyCall.symm ▸ hs.opened j hj
      coming := fun j hj => ⟨hexecutors ▸ (hs.coming j hj).1,
        fun h => (hs.coming j hj).2 (hscan j h)⟩
      calls := ?_
      queued := hs.queued
      apart := ?_
      fresh := ?_
      registered := hs.registered_call hc ht
      awaited := hs.awaited_call hc ht hidle hexecutors
      ready := fun j hj => stillOpen_applyCall (hs.ready j hj)
        (hothers j (hs.apart j hj event c hc).symm)
      executors := fun j e he => ?_
      scans := ?_ }
  · intro k k' d d' hd hd' hjobs
    rcases hs.calls_update hc hd with ⟨rfl, hnew⟩ | ⟨-, hold, hdj⟩ <;>
      rcases hs.calls_update hc hd' with ⟨rfl, hnew'⟩ | ⟨-, hold', hdj'⟩
    · rfl
    · exact absurd (hjobs.symm.trans (call_of_transition ht hnew).1) hdj'
    · exact absurd (hjobs.trans (call_of_transition ht hnew').1) hdj
    · exact hs.calls k k' d d' hold hold' hjobs
  · intro j hj k d hd
    rcases hs.calls_update hc hd with ⟨-, hnew⟩ | ⟨-, hold, -⟩
    · exact (call_of_transition ht hnew).1 ▸ hs.apart j hj event c hc
    · exact hs.apart j hj k d hold
  · intro k hk
    have hne : k ≠ event := by
      rintro rfl
      exact absurd ((hs.fresh _ hk).symm.trans hc) (by simp)
    exact (Function.update_of_ne hne _ _).trans (hs.fresh k hk)
  · rw [hexecutors] at he
    have hne : j ≠ c.job := by
      rintro rfl
      exact absurd ((hs.executor_of_scanning hscanned).symm.trans he) (by simp)
    exact (hs.executors j e he).imp (fun h => ⟨h.1, onlyFinal_applyCall h.2 (hfinals j)⟩)
      fun h => ⟨h.1, stillOpen_applyCall h.2 (hothers j hne)⟩
  · intro k d hd
    rcases hs.calls_update hc hd with ⟨rfl, hnew⟩ | ⟨-, hold, hdj⟩
    · obtain ⟨hjob, hfinal⟩ := call_of_transition ht hnew
      rw [hjob]
      rcases hfinal with hfinal | ⟨hfinal, hnone⟩
      · exact Or.inl ⟨hfinal, onlyFinal_applyCall hidle.onlyFinal (hfinals _)⟩
      · rw [hfinal]
        exact (hs.scans _ c hc).imp (fun h => ⟨h.1, onlyFinal_applyCall h.2 (hfinals _)⟩)
          fun h => ⟨h.1, stillOpen_applyCall h.2
            fun w st hw hst => absurd ((hnone w _ hw).symm.trans hst) (by simp)⟩
    · exact (hs.scans k d hold).imp (fun h => ⟨h.1, onlyFinal_applyCall h.2 (hfinals _)⟩)
        fun h => ⟨h.1, stillOpen_applyCall h.2 (hothers _ hdj)⟩

end CallSteps

end Studio

end Runtime
end MigrationStudio
