import MigrationStudio.Runtime.Ownership

/-!
# What an executor writes into the status of its account

`run` sets BUSY before it waits for the mutation lock, and READY or ERROR after it has left the
lock; inside, a FLOOD_WAIT sets WAITING_SERVER and BUSY, and what interrupts the run sets READY,
AUTH_REQUIRED or ERROR.

* `Executor.Fresh`, `InRun`, `Over`: before BUSY is submitted; from there to the end of the loop;
  after the last statement.
* `Executor.Uninterrupted`: the condition on a move, that nothing interrupts the run.
* `Transition.tame`: the statements of an executor that is not interrupted.
* `status_of_write`, `Transition.inRun`: what one transition writes, and where it leads.
-/

namespace MigrationStudio

open Foundations MigrationStudio.Core Accounts Jobs Telegram Storage Migration

namespace Core

/-- BUSY or WAITING_SERVER. -/
def AccountState.working : AccountState → Bool
  | .busy | .waitingServer => true
  | _ => false

theorem AccountState.working_iff {st : AccountState} :
    st.working = true ↔ st = .busy ∨ st = .waitingServer := by
  cases st <;> simp [working]

end Core

namespace Storage

/-- The status that a write gives the account. -/
def LaneWrite.statusOf (a : AccountId) : LaneWrite → Option AccountState
  | .account b st _ => if b = a then some st else none
  | .enable b enabled => if b = a then some (if enabled then .disconnected else .disabled) else none
  | .identity b => if b = a then some .ready else none
  | _ => none

/-- The write, if it sets the status of the account, shows it at work. -/
def LaneWrite.ShowsWork (a : AccountId) (w : LaneWrite) : Prop :=
  ∀ st, w.statusOf a = some st → st.working = true

end Storage

namespace Migration

/-- The statement sets the status of no account but `a`. -/
def Stmt.OfAccount (a : AccountId) : Stmt → Prop
  | .write w => ∀ b st, w.statusOf b = some st → b = a
  | _ => True

/-- The statement, if it sets the status of the account, shows it at work; `pauseAccount` decides
when it runs. -/
def Stmt.ShowsWork (a : AccountId) : Stmt → Prop
  | .write w => w.ShowsWork a
  | _ => True

namespace Executor

/-- BUSY has not been submitted. -/
def Fresh (e : Executor) : Prop := e.point = .created ∨ (e.point = .prime ∧ e.todo ≠ [])

/-- The last statement is done. -/
def Over (e : Executor) : Prop :=
  e.Settled ∧ (e.point = .failed ∨ ∃ summary final, e.point = .publish summary final)

/-- From the submission of BUSY to the end of the loop. -/
def InRun (e : Executor) : Prop :=
  (e.point = .prime ∧ e.todo = []) ∨ e.point = .acquire ∨ e.holdsLock = true

/-- BUSY has been submitted, and more may come. -/
def Active (e : Executor) : Prop := ¬ e.Fresh ∧ ¬ e.Over

/-- The move submits BUSY. -/
def SubmitsBusy (e : Executor) (m : Move) : Prop :=
  m = .execute ∧ e.point = .prime ∧ e.todo = [e.setAccount .busy]

/-- The loop and the sleeps look for a request. -/
def listens (e : Executor) : Bool :=
  match e.point with
  | .loop | .sleeping _ _ _ => true
  | _ => false

/-- **Nothing interrupts the run** in this move: the loop and the sleeps find no stop request, a
pause request is handled only during a FLOOD_WAIT, and no outcome pauses or limits the job. -/
structure Uninterrupted (e : Executor) (now : ℕ) (m : Move) : Prop where
  stop : m = .advance → e.listens = true → e.control ≠ some .stop
  pause : m = .execute → e.todo.head? = some .pauseAccount →
    0 < e.scheduler.serverWaitRemaining now
  answer : ∀ error, m = .answer (some error) →
    error.code ≠ .rateLimitIndefinite ∧ error.code ≠ .permission ∧ error.code ≠ .auth

instance (e : Executor) (now : ℕ) : ∀ m, Decidable (e.Uninterrupted now m)
  | .advance =>
      decidable_of_iff (e.listens = true → e.control ≠ some .stop)
        ⟨fun h => ⟨fun _ => h, fun hm => absurd hm (by simp), fun _ hm => absurd hm (by simp)⟩,
          fun h => h.stop rfl⟩
  | .execute =>
      match htodo : e.todo with
      | .pauseAccount :: _ =>
          decidable_of_iff (0 < e.scheduler.serverWaitRemaining now)
            ⟨fun h => ⟨fun hm => absurd hm (by simp), fun _ _ => h,
                fun _ hm => absurd hm (by simp)⟩,
              fun h => h.pause rfl (by rw [htodo]; rfl)⟩
      | [] | .flush _ :: _ | .write _ :: _ =>
          .isTrue ⟨fun hm => absurd hm (by simp), fun _ h => absurd h (by simp [htodo]),
            fun _ hm => absurd hm (by simp)⟩
  | .answer (some error) =>
      decidable_of_iff
        (error.code ≠ .rateLimitIndefinite ∧ error.code ≠ .permission ∧ error.code ≠ .auth)
        ⟨fun h => ⟨fun hm => absurd hm (by simp), fun hm => absurd hm (by simp), fun _ hm => by
          obtain rfl := Option.some.inj (Move.answer.inj hm)
          exact h⟩, fun h => h.answer error rfl⟩
  | .answer none | .resumed _ | .read | .delayed | .delayedDone _ | .pause | .stop =>
      .isTrue ⟨fun hm => absurd hm (by simp), fun hm => absurd hm (by simp),
        fun _ hm => absurd hm (by simp)⟩

/-- The statements of an executor that nothing has interrupted. -/
structure Tame (e : Executor) : Prop where
  created : e.point = .created → e.Settled
  prime : e.point = .prime → e.todo = [e.setJob .running, e.setAccount .busy] ∨
    e.todo = [e.setAccount .busy] ∨ e.todo = []
  acquire : e.point = .acquire → e.Settled
  account : ∀ st ∈ e.todo, st.OfAccount e.accountId
  work : e.holdsLock = true → ∀ st ∈ e.todo, st.ShowsWork e.accountId

variable {env : Env} {e : Executor} {m : Move} {out : Outcome}

theorem InRun.active (h : e.InRun) : e.Active := by
  rcases h with ⟨hpoint, htodo⟩ | hpoint | hlock
  · exact ⟨by simp [Fresh, hpoint, htodo], by simp [Over, hpoint]⟩
  · exact ⟨by simp [Fresh, hpoint], by simp [Over, hpoint]⟩
  · refine ⟨?_, ?_⟩
    · rintro (hpoint | ⟨hpoint, -⟩) <;> simp [holdsLock, hpoint] at hlock
    · rintro ⟨-, hpoint | ⟨summary, final, hpoint⟩⟩ <;> simp [holdsLock, hpoint] at hlock

/-- An executor with all its statements done at a point inside the lock. -/
theorem tame_of_nil (hcreated : e.point ≠ .created) (hacquire : e.point = .acquire → e.Settled)
    (htodo : e.todo = []) : e.Tame where
  created := fun h => absurd h hcreated
  prime := fun _ => Or.inr (Or.inr htodo)
  acquire := hacquire
  account := by simp [htodo]
  work := by simp [htodo]

/-- An executor at a point inside the lock or behind it. -/
theorem tame_of_todo (hpoint : e.point ≠ .created ∧ e.point ≠ .prime ∧ e.point ≠ .acquire)
    (haccount : ∀ st ∈ e.todo, st.OfAccount e.accountId)
    (hwork : e.holdsLock = true → ∀ st ∈ e.todo, st.ShowsWork e.accountId) : e.Tame where
  created := fun h => absurd h hpoint.1
  prime := fun h => absurd h hpoint.2.1
  acquire := fun h => absurd h hpoint.2.2
  account := haccount
  work := hwork

/-- The executor goes on with the same statements at the same point. -/
theorem Tame.of_same (he : e.Tame) {e' : Executor} (hpoint : e'.point = e.point)
    (htodo : e'.todo = e.todo) (hacc : e'.accountId = e.accountId) (hjob : e'.jobId = e.jobId)
    (hset : e.Settled → e'.Settled) : e'.Tame where
  created := fun h => hset (he.created (hpoint ▸ h))
  prime := fun h => by
    rw [htodo, Executor.setJob, Executor.setAccount, hjob, hacc]
    exact he.prime (hpoint ▸ h)
  acquire := fun h => hset (he.acquire (hpoint ▸ h))
  account := by
    rw [htodo, hacc]
    exact he.account
  work := by
    rw [htodo, hacc, holdsLock, hpoint]
    exact he.work

/-- The executor has begun its next statement. -/
theorem Tame.tail (he : e.Tame) {st : Stmt} {todo : List Stmt} (htodo : e.todo = st :: todo)
    {e' : Executor} (hpoint : e'.point = e.point) (htodo' : e'.todo = todo)
    (hacc : e'.accountId = e.accountId) : e'.Tame where
  created := fun h => absurd (he.created (hpoint ▸ h)).2 (by simp [htodo])
  prime := fun h => by
    rcases he.prime (hpoint ▸ h) with heq | heq | heq
    · rw [htodo] at heq
      rw [htodo', (List.cons.inj heq).2]
      exact Or.inr (Or.inl (by rw [Executor.setAccount, Executor.setAccount, hacc]))
    · rw [htodo] at heq
      rw [htodo', (List.cons.inj heq).2]
      exact Or.inr (Or.inr rfl)
    · exact absurd (htodo.symm.trans heq) (by simp)
  acquire := fun h => absurd (he.acquire (hpoint ▸ h)).2 (by simp [htodo])
  account := by
    rw [htodo', hacc]
    exact fun s hs => he.account s (htodo ▸ List.mem_cons_of_mem _ hs)
  work := by
    rw [htodo', hacc, holdsLock, hpoint]
    exact fun hlock s hs => he.work hlock s (htodo ▸ List.mem_cons_of_mem _ hs)

/-- The statements of a pause. -/
theorem tame_pause {p : Point} (hp : p ≠ .created ∧ p ≠ .prime ∧ p ≠ .acquire)
    (h : e.control ≠ some .stop) {c : Control} (hc : e.control = some c) :
    ({ e with todo := e.handleControl c, point := p } : Executor).Tame := by
  cases c with
  | stop => exact absurd hc h
  | pause =>
      refine tame_of_todo hp ?_ fun _ => ?_
      · simp [handleControl, Stmt.OfAccount, setJob, LaneWrite.statusOf]
      · simp [handleControl, Stmt.ShowsWork, setJob, LaneWrite.ShowsWork, LaneWrite.statusOf]

/-- **The statements of an executor that is not interrupted**, through one transition. -/
theorem Transition.tame (h : Transition env e m out) (he : e.Tame)
    (hcond : e.Uninterrupted env.now m) : ∀ e' ∈ out.executor, e'.Tame := by
  intro e' he'
  cases h with
  | leave | publish | failed => exact absurd he' (by simp)
  | flushWrite haw htodo hdue =>
      obtain rfl := Option.some.inj he'
      exact he.tail htodo rfl rfl rfl
  | flushSkip haw htodo hdue =>
      obtain rfl := Option.some.inj he'
      exact he.tail htodo rfl rfl rfl
  | write haw htodo =>
      obtain rfl := Option.some.inj he'
      exact he.tail htodo rfl rfl rfl
  | pauseAccount haw htodo state =>
      obtain rfl := Option.some.inj he'
      exact he.tail htodo rfl rfl rfl
  | resumed haw lastFlush =>
      obtain rfl := Option.some.inj he'
      exact he.of_same rfl rfl rfl rfl fun hset => ⟨rfl, hset.2⟩
  | raised haw message =>
      rw [Executor.raise] at he'
      split at he'
      · exact absurd he' (by simp)
      · exact absurd he' (by simp)
      · exact absurd he' (by simp)
      · obtain rfl := Option.some.inj he'
        refine tame_of_todo (by simp) ?_ fun hlock => absurd hlock (by simp [Executor.holdsLock])
        simp [Stmt.OfAccount, setJob, setAccount, LaneWrite.statusOf]
  | begin hset hpoint =>
      obtain rfl := Option.some.inj he'
      exact
        { created := by simp
          prime := fun _ => Or.inl rfl
          acquire := by simp
          account := by simp [Stmt.OfAccount, setJob, setAccount, LaneWrite.statusOf]
          work := by simp [Executor.holdsLock] }
  | primed hset hpoint hload =>
      obtain rfl := Option.some.inj he'
      exact tame_of_nil (by simp) (fun _ => hset) hset.2
  | acquire hset | loopPop hset | sleep hset | retry hset | giveUp hset | stopped hset
  | flushed hset | send hset =>
      obtain rfl := Option.some.inj he'
      exact tame_of_nil (by simp) (by simp) hset.2
  | @take item buffer hset hpoint htake =>
      obtain rfl := Option.some.inj he'
      have hpoint' : ∀ p, enter item = p → p ≠ .created ∧ p ≠ .acquire := by
        rintro p rfl
        rw [enter]
        split <;> simp
      exact tame_of_nil (hpoint' _ rfl).1 (fun h => absurd h (hpoint' _ rfl).2) hset.2
  | loopControl hset hpoint c hc =>
      obtain rfl := Option.some.inj he'
      exact tame_pause (by simp) (hcond.stop rfl (by rw [listens, hpoint])) hc
  | interrupt hset hpoint c hc =>
      obtain rfl := Option.some.inj he'
      exact tame_pause (by simp) (hcond.stop rfl (by rw [listens, hpoint])) hc
  | popEnd hset hpoint hqueue hload hexh =>
      obtain rfl := Option.some.inj he'
      exact tame_of_todo (by simp) (by simp [Stmt.OfAccount]) (by simp [Stmt.ShowsWork])
  | append hset hpoint =>
      obtain rfl := Option.some.inj he'
      exact tame_of_todo (by simp) (by simp [Stmt.OfAccount]) (by simp [Stmt.ShowsWork])
  | waited hset hpoint hc hnow =>
      obtain rfl := Option.some.inj he'
      refine tame_of_todo (by simp) ?_ fun _ => ?_
      · simp [Stmt.OfAccount, setJob, setAccount, LaneWrite.statusOf]
      · simp [Stmt.ShowsWork, setJob, setAccount, LaneWrite.ShowsWork, LaneWrite.statusOf,
          AccountState.working]
  | flooded hpoint hcode =>
      obtain rfl := Option.some.inj he'
      refine tame_of_todo (by simp) ?_ fun _ => ?_
      · simp [floodScript, Stmt.OfAccount, setJob, setAccount, LaneWrite.statusOf]
      · simp [floodScript, Stmt.ShowsWork, setJob, setAccount, LaneWrite.ShowsWork,
          LaneWrite.statusOf, AccountState.working]
  | indefinite hpoint hcode => exact absurd hcode (hcond.answer _ rfl).1
  | pausing hpoint hcode =>
      exact (hcode.elim (hcond.answer _ rfl).2.1 (hcond.answer _ rfl).2.2).elim
  | succeeded hpoint | transient hpoint | exhausted hpoint | final hpoint =>
      obtain rfl := Option.some.inj he'
      have hlock : e.holdsLock = true := by rw [Executor.holdsLock, hpoint]
      exact tame_of_todo (by simp) he.account fun _ => he.work hlock
  | returned hset hpoint todo htodo =>
      obtain rfl := Option.some.inj he'
      rcases htodo with rfl | rfl
      · exact tame_of_nil (by simp) (by simp) rfl
      · refine tame_of_todo (by simp) ?_ fun _ => ?_
        · simp [Stmt.OfAccount, LaneWrite.statusOf]
        · simp [Stmt.ShowsWork, LaneWrite.ShowsWork, LaneWrite.statusOf]
  | summarize hset hpoint =>
      obtain rfl := Option.some.inj he'
      refine tame_of_todo (by simp) ?_ fun hlock => absurd hlock (by simp [Executor.holdsLock])
      simp [Stmt.OfAccount, setJob, setAccount, LaneWrite.statusOf]
  | _ =>
      obtain rfl := Option.some.inj he'
      exact he.of_same rfl rfl rfl rfl fun hset => hset

/-! ## What is written, and where it leads -/

/-- **The status that a move submits** is of the executor's account; during the run it shows the
account at work, and so it does unless BUSY has been submitted. -/
theorem status_of_write (hstep : e.step env m = some out) (he : e.Tame)
    (hcond : e.Uninterrupted env.now m) {w : LaneWrite} (hw : out.write = some w) {a : AccountId}
    {st : AccountState} (hst : w.statusOf a = some st) :
    a = e.accountId ∧ (st.working = true ∨ (e.Active ∧ ¬ e.InRun)) := by
  cases transition_of_step hstep with
  | flushWrite | delayedWrite =>
      obtain rfl := Option.some.inj hw
      exact absurd hst (by simp [Executor.flushWrite, LaneWrite.statusOf])
  | @write w' todo haw htodo =>
      obtain rfl := Option.some.inj hw
      have hmem : Stmt.write w' ∈ e.todo := htodo ▸ List.mem_cons_self ..
      have hacc : a = e.accountId := he.account _ hmem a st hst
      subst hacc
      refine ⟨rfl, ?_⟩
      by_cases hlock : e.holdsLock = true
      · exact Or.inl (he.work hlock _ hmem st hst)
      · by_cases hprime : e.point = .prime
        · -- only the two writes of the beginning are left
          have hbusy : w' = .account e.accountId .busy none ∨ w'.statusOf e.accountId = none := by
            rcases he.prime hprime with heq | heq | heq
            · rw [htodo] at heq
              obtain rfl := Stmt.write.inj (List.cons.inj heq).1
              exact Or.inr rfl
            · rw [htodo] at heq
              exact Or.inl (Stmt.write.inj (List.cons.inj heq).1)
            · exact absurd (htodo.symm.trans heq) (by simp)
          rcases hbusy with rfl | hnone
          · simp only [LaneWrite.statusOf, if_true, Option.some.injEq] at hst
            exact Or.inl (hst ▸ rfl)
          · exact absurd (hnone.symm.trans hst) (by simp)
        · refine Or.inr ⟨⟨?_, ?_⟩, ?_⟩
          · rintro (hcreated | ⟨hpoint, -⟩)
            · exact absurd (he.created hcreated).2 (by simp [htodo])
            · exact hprime hpoint
          · exact fun hover => absurd hover.1.2 (by simp [htodo])
          · rintro (⟨hpoint, -⟩ | hacquire | hheld)
            · exact hprime hpoint
            · exact absurd (he.acquire hacquire).2 (by simp [htodo])
            · exact hlock hheld
  | pauseAccount haw htodo state =>
      have hwait := hcond.pause rfl (by rw [htodo]; rfl)
      rw [Executor.step, execute, haw, htodo] at hstep
      simp only [if_pos hwait] at hstep
      have hstate := congrArg Outcome.write (Option.some.inj hstep)
      obtain rfl := Option.some.inj (hstate.trans hw)
      simp only [LaneWrite.statusOf] at hst
      split_ifs at hst with hacc
      exact ⟨hacc.symm, Or.inl (Option.some.inj hst ▸ rfl)⟩
  | _ => exact absurd hw (by simp)

/-- The future of the BUSY that `run` awaits. -/
def marking (e : Executor) : Option ℕ :=
  if e.point = .prime then e.awaiting.map Await.future else none

theorem marking_of_point (h : e.point ≠ .prime) : e.marking = none := if_neg h

theorem marking_of_lock (h : e.holdsLock = true) : e.marking = none :=
  marking_of_point fun hpoint => by simp [holdsLock, hpoint] at h

theorem InRun.of_same (h : e.InRun) {e' : Executor} (hpoint : e.point = e'.point)
    (htodo : e.todo = e'.todo) : e'.InRun := by
  rw [InRun, holdsLock, hpoint, htodo] at h
  rwa [InRun, holdsLock]

theorem marking_congr {e' : Executor} (hpoint : e'.point = e.point)
    (hawaiting : e'.awaiting = e.awaiting) : e'.marking = e.marking := by
  rw [marking, marking, hpoint, hawaiting]

/-- A statement is begun that leads into the run, or in it. -/
theorem Tame.inRun_tail (he : e.Tame) {st : Stmt} {todo : List Stmt} (htodo : e.todo = st :: todo)
    {e' : Executor} (hpoint : e'.point = e.point) (htodo' : e'.todo = todo) (h : e'.InRun) :
    (e.point = .prime ∧ e.todo = [e.setAccount .busy]) ∨
      (e.holdsLock = true ∧ e'.holdsLock = true) := by
  rcases h with ⟨hprime, hnil⟩ | hacquire | hlock
  · rw [hpoint] at hprime
    rw [htodo'] at hnil
    subst hnil
    rcases he.prime hprime with heq | heq | heq
    · exact absurd (htodo.symm.trans heq) (by simp)
    · exact Or.inl ⟨hprime, heq⟩
    · exact absurd (htodo.symm.trans heq) (by simp)
  · rw [hpoint] at hacquire
    exact absurd (he.acquire hacquire).2 (by simp [htodo])
  · refine Or.inr ⟨?_, hlock⟩
    rwa [holdsLock, hpoint] at hlock

/-- The beginning of the run is the submission of BUSY; in the run the future that is awaited stays
or is resolved. -/
theorem Transition.inRun (h : Transition env e m out) (he : e.Tame) :
    ∀ e' ∈ out.executor, e'.InRun →
      (e.SubmitsBusy m ∧ out.write = some (.account e.accountId .busy none) ∧
        e'.marking = some env.future) ∨
      (e.InRun ∧ (e'.marking = e.marking ∨ (m = .resumed (.ok ()) ∧ e'.marking = none ∧
        ∃ a, e.awaiting = some a ∧ e.marking = some a.future))) := by
  intro e' he' hrun
  have hheld : e.holdsLock = true → e'.holdsLock = true ∨ e'.point ≠ .prime →
      e.InRun ∧ e'.marking = e.marking := fun hlock hout =>
    ⟨Or.inr (Or.inr hlock), by
      rw [marking_of_lock hlock]
      exact hout.elim marking_of_lock marking_of_point⟩
  have hbegun : ∀ {st : Stmt} {todo : List Stmt}, e.todo = st :: todo → st ≠ e.setAccount .busy →
      e'.point = e.point → e'.todo = todo → e.InRun ∧ e'.marking = e.marking := by
    intro st todo htodo hst hpoint htodo'
    rcases he.inRun_tail htodo hpoint htodo' hrun with ⟨-, heq⟩ | ⟨hlock, hlock'⟩
    · rw [htodo] at heq
      exact absurd (List.cons.inj heq).1 hst
    · exact hheld hlock (Or.inl hlock')
  cases h with
  | leave | publish | failed => exact absurd he' (by simp)
  | flushWrite haw htodo hdue =>
      obtain rfl := Option.some.inj he'
      have := hbegun htodo (by simp [setAccount]) rfl rfl
      exact Or.inr ⟨this.1, Or.inl this.2⟩
  | flushSkip haw htodo hdue =>
      obtain rfl := Option.some.inj he'
      have := hbegun htodo (by simp [setAccount]) rfl rfl
      exact Or.inr ⟨this.1, Or.inl this.2⟩
  | pauseAccount haw htodo state =>
      obtain rfl := Option.some.inj he'
      have := hbegun htodo (by simp [setAccount]) rfl rfl
      exact Or.inr ⟨this.1, Or.inl this.2⟩
  | @write w todo haw htodo =>
      have hpoint : e'.point = e.point := Option.some.inj he' ▸ rfl
      have htodo' : e'.todo = todo := Option.some.inj he' ▸ rfl
      rcases he.inRun_tail htodo hpoint htodo' hrun with ⟨hprime, heq⟩ | ⟨hlock, hlock'⟩
      · obtain rfl := Option.some.inj he'
        rw [htodo] at heq
        obtain rfl := Stmt.write.inj (List.cons.inj heq).1
        exact Or.inl ⟨⟨rfl, hprime, by rw [htodo]; exact heq⟩, rfl, if_pos hprime⟩
      · have := hheld hlock (Or.inl hlock')
        exact Or.inr ⟨this.1, Or.inl this.2⟩
  | @resumed a haw lastFlush =>
      obtain rfl := Option.some.inj he'
      refine Or.inr ⟨hrun.of_same rfl rfl, ?_⟩
      by_cases hprime : e.point = .prime
      · refine Or.inr ⟨rfl, if_pos hprime, a, haw, ?_⟩
        rw [marking, if_pos hprime, haw]
        rfl
      · exact Or.inl ((if_neg hprime).trans (marking_of_point hprime).symm)
  | raised haw message =>
      have hpoint : e'.point = .failed := by
        rw [Executor.raise] at he'
        split at he'
        · exact absurd he' (by simp)
        · exact absurd he' (by simp)
        · exact absurd he' (by simp)
        · exact Option.some.inj he' ▸ rfl
      rcases hrun with ⟨hprime, -⟩ | hacquire | hlock
      · exact absurd (hpoint.symm.trans hprime) (by simp)
      · exact absurd (hpoint.symm.trans hacquire) (by simp)
      · exact absurd hlock (by simp [Executor.holdsLock, hpoint])
  | begin | popEnd | summarize =>
      obtain rfl := Option.some.inj he'
      exact absurd hrun (by simp [InRun, Executor.holdsLock])
  | primed hset hpoint hload =>
      obtain rfl := Option.some.inj he'
      refine Or.inr ⟨Or.inl ⟨hpoint, hset.2⟩, Or.inl ?_⟩
      rw [marking_of_point (by simp), marking, hset.1, Option.map_none, ite_self]
  | acquire hset hpoint hfree =>
      obtain rfl := Option.some.inj he'
      refine Or.inr ⟨Or.inr (Or.inl hpoint), Or.inl ?_⟩
      rw [marking_of_point (by simp), marking_of_point (by simp [hpoint])]
  | primeFill | primeReceive | popReceive | popFill | read | delayedWrite | delayedSkip
  | delayedDone | pauseRequested | stopRequested =>
      obtain rfl := Option.some.inj he'
      exact Or.inr ⟨hrun.of_same rfl rfl, Or.inl (marking_congr rfl rfl)⟩
  | @take item buffer hset hpoint htake =>
      obtain rfl := Option.some.inj he'
      have hlock : e.holdsLock = true := by rw [Executor.holdsLock, hpoint]
      have hne : enter item ≠ .prime := by
        rw [enter]
        split <;> simp
      exact Or.inr ⟨(hheld hlock (Or.inr hne)).1, Or.inl (hheld hlock (Or.inr hne)).2⟩
  | loopControl hset hpoint | loopPop hset hpoint | sleep hset hpoint | interrupt hset hpoint
  | send hset hpoint | waited hset hpoint | retry hset hpoint | giveUp hset hpoint
  | succeeded hpoint | flooded hpoint | indefinite hpoint | pausing hpoint | transient hpoint
  | exhausted hpoint | final hpoint | returned hset hpoint | stopped hset hpoint
  | append hset hpoint | flushed hset hpoint =>
      obtain rfl := Option.some.inj he'
      have hlock : e.holdsLock = true := by rw [Executor.holdsLock, hpoint]
      have := hheld hlock (Or.inr (by simp [interrupted]))
      exact Or.inr ⟨this.1, Or.inl this.2⟩

/-- An executor becomes active when it submits BUSY. -/
theorem Transition.active (h : Transition env e m out) (he : e.Tame) :
    ∀ e' ∈ out.executor, e'.Active → e.Active ∨ e.SubmitsBusy m := by
  intro e' he' hactive
  by_contra hnot
  rw [not_or, Active, not_and_or, not_not, not_not] at hnot
  obtain ⟨hstage, hmarks⟩ := hnot
  -- an executor that has begun nothing, or done everything, stays so
  have hsame : ∀ f : Executor, f.point = e.point → f.todo = e.todo →
      (e.Settled → f.Settled) → ¬ f.Active := by
    rintro f hpoint htodo hset ⟨hfresh, hover⟩
    rcases hstage with hstage | hstage
    · exact hfresh (by rwa [Fresh, hpoint, htodo])
    · exact hover ⟨hset hstage.1, by rw [hpoint]; exact hstage.2⟩
  have hbegun : ∀ (f : Executor) {st : Stmt} {todo : List Stmt}, e.todo = st :: todo →
      f.point = e.point → f.todo = todo →
      (e.point = .prime → e.todo = [e.setAccount .busy] → e.SubmitsBusy m) → ¬ f.Active := by
    rintro f st todo htodo hpoint htodo' hlast ⟨hfresh, -⟩
    rcases hstage with (hcreated | ⟨hprime, -⟩) | hover
    · exact absurd (he.created hcreated).2 (by simp [htodo])
    · rcases he.prime hprime with heq | heq | heq
      · rw [htodo] at heq
        refine hfresh (Or.inr ⟨hpoint.trans hprime, ?_⟩)
        rw [htodo', (List.cons.inj heq).2]
        simp
      · exact hmarks (hlast hprime heq)
      · exact absurd (htodo.symm.trans heq) (by simp)
    · exact absurd hover.1.2 (by simp [htodo])
  cases h with
  | leave | publish | failed => exact absurd he' (by simp)
  | flushWrite haw htodo hdue =>
      exact hbegun e' htodo (Option.some.inj he' ▸ rfl) (Option.some.inj he' ▸ rfl)
        (fun hp ht => ⟨rfl, hp, ht⟩) hactive
  | flushSkip haw htodo hdue =>
      exact hbegun e' htodo (Option.some.inj he' ▸ rfl) (Option.some.inj he' ▸ rfl)
        (fun hp ht => ⟨rfl, hp, ht⟩) hactive
  | write haw htodo =>
      exact hbegun e' htodo (Option.some.inj he' ▸ rfl) (Option.some.inj he' ▸ rfl)
        (fun hp ht => ⟨rfl, hp, ht⟩) hactive
  | pauseAccount haw htodo state =>
      exact hbegun e' htodo (Option.some.inj he' ▸ rfl) (Option.some.inj he' ▸ rfl)
        (fun hp ht => ⟨rfl, hp, ht⟩) hactive
  | begin hset hpoint =>
      obtain rfl := Option.some.inj he'
      exact hactive.1 (Or.inr ⟨rfl, by simp⟩)
  | raised haw message =>
      rw [Executor.raise] at he'
      split at he'
      · exact absurd he' (by simp)
      · exact absurd he' (by simp)
      · exact absurd he' (by simp)
      · rename_i hcreated hprime hfailed
        rcases hstage with (hpoint | ⟨hpoint, -⟩) | ⟨hset, -⟩
        · exact hcreated hpoint
        · exact hprime hpoint
        · exact absurd (hset.1.symm.trans haw) (by simp)
  | resumed haw lastFlush =>
      obtain rfl := Option.some.inj he'
      exact absurd hactive (hsame _ rfl rfl fun hset => ⟨rfl, hset.2⟩)
  | read | delayedWrite | delayedSkip | delayedDone | pauseRequested | stopRequested =>
      obtain rfl := Option.some.inj he'
      exact absurd hactive (hsame _ rfl rfl fun hset => hset)
  | primeFill hset hpoint | primeReceive hset hpoint | primed hset hpoint =>
      exact hstage.elim (by simp [Fresh, hpoint, hset.2]) (by simp [Over, hpoint])
  | acquire hset hpoint | loopControl hset hpoint | loopPop hset hpoint | take hset hpoint
  | popReceive hset hpoint | popFill hset hpoint | popEnd hset hpoint | sleep hset hpoint
  | interrupt hset hpoint | send hset hpoint | waited hset hpoint | retry hset hpoint
  | giveUp hset hpoint | succeeded hpoint | flooded hpoint | indefinite hpoint | pausing hpoint
  | transient hpoint | exhausted hpoint | final hpoint | returned hset hpoint
  | stopped hset hpoint | append hset hpoint | flushed hset hpoint | summarize hset hpoint =>
      exact hstage.elim (by simp [Fresh, hpoint]) (by simp [Over, hpoint])

end Executor
end Migration
end MigrationStudio
